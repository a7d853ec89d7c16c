/-
Computations with fuel.

A loop that may go round for as long as its environment pleases counts down a fuel
argument.  `Returns f s a s'` says that with enough fuel it is of no account: the
computation returns `a`, in state `s'`.

* `Returns.bind`, `Returns.succ` — the rules for sequencing and for a recursive call;
* `Returns.stops`, `Stops.throw`, `Stops.succ` — the same for a computation that may throw.
-/
import Mathlib.Order.Lattice
import Mathlib.Tactic.Common

variable {σ ε α β : Type} {s s' s'' : σ} {a : α} {b : β}

theorem run_bind_of_ok {x : ExceptT ε (StateM σ) α} (h : x.run.run s = (.ok a, s'))
    (g : α → ExceptT ε (StateM σ) β) : (x >>= g).run.run s = (g a).run.run s' := by
  rw [ExceptT.run_bind, StateT.run_bind, h]
  rfl

/-- With enough fuel `f` returns `a`, and leaves the state `s'` behind. -/
def Returns (f : ℕ → ExceptT ε (StateM σ) α) (s : σ) (a : α) (s' : σ) : Prop :=
  ∃ n, ∀ fuel, n ≤ fuel → (f fuel).run.run s = (.ok a, s')

namespace Returns

variable {f : ℕ → ExceptT ε (StateM σ) α} {g : ℕ → α → ExceptT ε (StateM σ) β}

/-- What needs no fuel. -/
theorem const {x : ExceptT ε (StateM σ) α} (h : x.run.run s = (.ok a, s')) :
    Returns (fun _ => x) s a s' := ⟨0, fun _ _ => h⟩

/-- **Sequencing.** -/
theorem bind (hf : Returns f s a s') (hg : Returns (fun fuel => g fuel a) s' b s'') :
    Returns (fun fuel => f fuel >>= g fuel) s b s'' := by
  obtain ⟨m, hm⟩ := hf
  obtain ⟨n, hn⟩ := hg
  refine ⟨max m n, fun fuel hfuel => ?_⟩
  show (f fuel >>= g fuel).run.run s = _
  rw [run_bind_of_ok (hm fuel (le_trans (le_max_left m n) hfuel))]
  exact hn fuel (le_trans (le_max_right m n) hfuel)

/-- **A recursive call** has a little less. -/
theorem succ {f' : ℕ → ExceptT ε (StateM σ) α} (hff' : ∀ fuel, f (fuel + 1) = f' fuel)
    (hf' : Returns f' s a s') : Returns f s a s' := by
  obtain ⟨n, hn⟩ := hf'
  refine ⟨n + 1, fun fuel hfuel => ?_⟩
  obtain ⟨m, rfl⟩ : ∃ m, fuel = m + 1 := ⟨fuel - 1, by omega⟩
  rw [hff']
  exact hn m (by omega)

end Returns

/-- With enough fuel `f` returns or throws `r`, and leaves the state `s'` behind. -/
def Stops (f : ℕ → ExceptT ε (StateM σ) α) (s : σ) (r : Except ε α) (s' : σ) : Prop :=
  ∃ n, ∀ fuel, n ≤ fuel → (f fuel).run.run s = (r, s')

section Stops

variable {f f' : ℕ → ExceptT ε (StateM σ) α} {g : ℕ → α → ExceptT ε (StateM σ) β}
  {r : Except ε α} {r' : Except ε β} {e : ε}

/-- What returns goes on. -/
theorem Returns.stops (hf : Returns f s a s') (hg : Stops (fun fuel => g fuel a) s' r' s'') :
    Stops (fun fuel => f fuel >>= g fuel) s r' s'' := by
  obtain ⟨m, hm⟩ := hf
  obtain ⟨n, hn⟩ := hg
  refine ⟨max m n, fun fuel hfuel => ?_⟩
  show (f fuel >>= g fuel).run.run s = _
  rw [run_bind_of_ok (hm fuel (le_trans (le_max_left m n) hfuel))]
  exact hn fuel (le_trans (le_max_right m n) hfuel)

/-- What throws does not. -/
theorem Stops.throw (hf : Stops f s (.error e) s') :
    Stops (fun fuel => f fuel >>= g fuel) s (.error e) s' := by
  obtain ⟨n, hn⟩ := hf
  refine ⟨n, fun fuel hfuel => ?_⟩
  show (f fuel >>= g fuel).run.run s = _
  rw [ExceptT.run_bind, StateT.run_bind, hn fuel hfuel]
  rfl

/-- There is only one end. -/
theorem Stops.unique {r' : Except ε α} (h : Stops f s r s') (h' : Stops f s r' s'') :
    r = r' ∧ s' = s'' := by
  obtain ⟨m, hm⟩ := h
  obtain ⟨n, hn⟩ := h'
  exact Prod.mk.inj ((hm _ (le_max_left m n)).symm.trans (hn _ (le_max_right m n)))

theorem Stops.succ (hff' : ∀ fuel, f (fuel + 1) = f' fuel) (hf' : Stops f' s r s') :
    Stops f s r s' := by
  obtain ⟨n, hn⟩ := hf'
  refine ⟨n + 1, fun fuel hfuel => ?_⟩
  obtain ⟨m, rfl⟩ : ∃ m, fuel = m + 1 := ⟨fuel - 1, by omega⟩
  rw [hff']
  exact hn m (by omega)

end Stops
