/-
Runs of a system whose steps log events.

* `Runs.invariant` — what every step preserves holds after every run; it may
  speak of the events of the run;
* `Runs.simulate`, `Runs.map` — a simulation between two systems lifts to their runs;
* `Runs.acc` — if every step decreases a measure, every run comes to an end;
* `Runs.exists_end` — and then there is one that cannot go on.
-/
import Mathlib.Tactic.Common

/-- `Runs step s l s'`: the system gets from `s` to `s'` and logs `l`. -/
inductive Runs {σ ω : Type} (step : σ → List ω → σ → Prop) : σ → List ω → σ → Prop
  | refl (s : σ) : Runs step s [] s
  | snoc {s s' s'' : σ} {l l' : List ω} (h : Runs step s l s') (hs : step s' l' s'') :
      Runs step s (l ++ l') s''

namespace Runs

variable {σ τ ω : Type} {step : σ → List ω → σ → Prop} {step' : τ → List ω → τ → Prop}
  {s s' s'' : σ} {l l' : List ω}

theorem single (h : step s l s') : Runs step s l s' := .snoc (.refl s) h

theorem trans (h : Runs step s l s') (h' : Runs step s' l' s'') : Runs step s (l ++ l') s'' := by
  induction h' with
  | refl => rwa [List.append_nil]
  | snoc _ hs ih =>
    rw [← List.append_assoc]
    exact ih.snoc hs

/-- **Invariant rule**, for properties of the events so far and the state. -/
theorem invariant {J : List ω → σ → Prop}
    (hstep : ∀ l s l' s', J l s → step s l' s' → J (l ++ l') s') {i : List ω} (h₀ : J i s)
    (h : Runs step s l s') : J (i ++ l) s' := by
  induction h with
  | refl => rwa [List.append_nil]
  | snoc _ hs ih =>
    rw [← List.append_assoc]
    exact hstep _ _ _ _ ih hs

/-- **Simulation**: runs of the first system are runs of the second. -/
theorem simulate {R : σ → τ → Prop}
    (hsim : ∀ s t l s', R s t → step s l s' → ∃ t', step' t l t' ∧ R s' t') {t : τ}
    (hR : R s t) (h : Runs step s l s') : ∃ t', Runs step' t l t' ∧ R s' t' := by
  induction h with
  | refl => exact ⟨t, .refl t, hR⟩
  | snoc _ hs ih =>
    obtain ⟨t₁, hrun, hR₁⟩ := ih
    obtain ⟨t₂, hs', hR₂⟩ := hsim _ _ _ _ hR₁ hs
    exact ⟨t₂, hrun.snoc hs', hR₂⟩

/-- A function that takes steps to steps takes runs to runs. -/
theorem map (f : σ → τ) (hf : ∀ s l s', step s l s' → step' (f s) l (f s'))
    (h : Runs step s l s') : Runs step' (f s) l (f s') := by
  induction h with
  | refl => exact .refl _
  | snoc _ hs ih => exact ih.snoc (hf _ _ _ hs)

/-- Runs of a system that does less. -/
theorem mono {more : σ → List ω → σ → Prop} (hmore : ∀ s l s', step s l s' → more s l s')
    (h : Runs step s l s') : Runs more s l s' := h.map id hmore

/-- **Termination rule**: where an invariant holds and every step decreases a
measure, there is no endless run. -/
theorem acc {α : Type} {r : α → α → Prop} (hr : WellFounded r) (J : σ → Prop) (μ : σ → α)
    (hstep : ∀ s l s', J s → step s l s' → J s' ∧ r (μ s') (μ s)) (hs : J s) :
    Acc (fun s' s => ∃ l, step s l s') s := by
  generalize ha : μ s = a
  induction a using hr.induction generalizing s with
  | _ a ih =>
    subst ha
    refine ⟨_, fun s' ⟨l, hl⟩ => ?_⟩
    obtain ⟨hJ, hlt⟩ := hstep s l s' hs hl
    exact ih (μ s') hlt hJ rfl

/-- Where there is no endless run, there is one that cannot go on. -/
theorem exists_end (h : Acc (fun s' s => ∃ l, step s l s') s) :
    ∃ l s', Runs step s l s' ∧ ∀ l' s'', ¬ step s' l' s'' := by
  induction h with
  | intro s _ ih =>
    by_cases hstuck : ∃ l s', step s l s'
    · obtain ⟨l, s', hs⟩ := hstuck
      obtain ⟨l', s'', hrun, hend⟩ := ih s' ⟨l, hs⟩
      exact ⟨l ++ l', s'', (single hs).trans hrun, hend⟩
    · exact ⟨[], s, .refl s, fun l s' hs => hstuck ⟨l, s', hs⟩⟩

end Runs
