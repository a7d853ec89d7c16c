/-
Deciding on a stream by its first decisive prefix.

A `Recognizer` is a deterministic automaton with one accepting state `fin` and
one state `dead` from which nothing is accepted; every other state can still be
accepted from.  It reads a stream until one of the two is reached.  What it says
is determined by the language it accepts:

* `verdict_accepted_iff` — it accepts the shortest prefix in the language;
* `verdict_pending_iff` — it wants more when there is no such prefix, but there
  can be one yet;
* `verdict_rejected_iff` — it rejects when a prefix rules that out.

`outcome_iff` carries this over to a function that answers like the recognizer.
-/
import Mathlib.Computability.DFA
import Mathlib.Data.List.Infix

/-! ### Words over a class of symbols -/

/-- The words of one symbol that satisfies `P`. -/
def oneOf {α : Type} (P : α → Prop) : Language α := {w | ∃ a, P a ∧ w = [a]}

section OneOf

open scoped Computability

variable {α : Type} {P : α → Prop} {l : Language α} {a : α} {x : List α}

theorem cons_mem_oneOf : a :: x ∈ oneOf P ↔ P a ∧ x = [] := by
  constructor
  · rintro ⟨b, hb, h⟩
    cases h
    exact ⟨hb, rfl⟩
  · rintro ⟨ha, rfl⟩
    exact ⟨a, ha, rfl⟩

theorem nil_notMem_oneOf : [] ∉ oneOf P := by
  rintro ⟨b, -, h⟩
  cases h

theorem cons_mem_oneOf_mul : a :: x ∈ oneOf P * l ↔ P a ∧ x ∈ l := by
  rw [Language.mem_mul]
  constructor
  · rintro ⟨_, ⟨b, hb, rfl⟩, y, hy, h⟩
    cases h
    exact ⟨hb, hy⟩
  · rintro ⟨ha, hx⟩
    exact ⟨[a], ⟨a, ha, rfl⟩, x, hx, rfl⟩

theorem nil_notMem_oneOf_mul : [] ∉ oneOf P * l := by
  rw [Language.mem_mul]
  rintro ⟨_, ⟨b, -, rfl⟩, y, -, h⟩
  cases h

theorem mem_kstar_oneOf : x ∈ (oneOf P)∗ ↔ ∀ a ∈ x, P a := by
  rw [Language.mem_kstar]
  constructor
  · rintro ⟨L, rfl, hL⟩ a ha
    obtain ⟨y, hy, hay⟩ := List.mem_flatten.mp ha
    obtain ⟨b, hb, rfl⟩ := hL y hy
    rwa [List.mem_singleton.mp hay]
  · intro h
    refine ⟨x.map fun a => [a], ?_, fun y hy => ?_⟩
    · induction x with
      | nil => rfl
      | cons a x ih =>
        rw [List.map_cons, List.flatten_cons,
          ← ih fun b hb => h b (List.mem_cons_of_mem a hb)]
        rfl
    · obtain ⟨a, ha, rfl⟩ := List.mem_map.mp hy
      exact ⟨a, h a ha, rfl⟩

end OneOf

/-! ### Recognizers -/

/-- What reading a stream came to, with the number of symbols it took. -/
inductive Verdict
  | accepted (n : ℕ)
  | pending
  | rejected (n : ℕ)
  deriving DecidableEq

namespace Verdict

/-- One more symbol was read before. -/
def succ : Verdict → Verdict
  | accepted n => accepted (n + 1)
  | pending => pending
  | rejected n => rejected (n + 1)

end Verdict

/-- An automaton that is done when it reaches `fin` or `dead`. -/
structure Recognizer (α σ : Type) where
  step : σ → α → σ
  start : σ
  fin : σ
  dead : σ
  start_ne_fin : start ≠ fin
  start_ne_dead : start ≠ dead
  fin_ne_dead : fin ≠ dead
  step_fin : ∀ a, step fin a = dead
  step_dead : ∀ a, step dead a = dead
  live : ∀ s, s ≠ dead → ∃ x : List α, x.foldl step s = fin

/-- The first `n` symbols of `x` are its shortest prefix in `l`. -/
def ShortestPrefix {α : Type} (l : Language α) (n : ℕ) (x : List α) : Prop :=
  n ≤ x.length ∧ x.take n ∈ l ∧ ∀ m < n, x.take m ∉ l

/-- No prefix of `x` is in `l`, but `x` can be extended into it. -/
def Unfinished {α : Type} (l : Language α) (x : List α) : Prop :=
  (∀ n ≤ x.length, x.take n ∉ l) ∧ ∃ y, x ++ y ∈ l

/-- Some prefix of `x` can neither be extended to, nor has a prefix in, `l`. -/
def Malformed {α : Type} (l : Language α) (x : List α) : Prop :=
  ∃ q, q <+: x ∧ (∀ y, q ++ y ∉ l) ∧ ∀ n ≤ q.length, q.take n ∉ l

section Exclusive

variable {α : Type} {l : Language α} {n m : ℕ} {x : List α}

theorem ShortestPrefix.not_unfinished (h : ShortestPrefix l n x) : ¬ Unfinished l x :=
  fun hu => hu.1 n h.1 h.2.1

theorem ShortestPrefix.not_malformed (h : ShortestPrefix l n x) : ¬ Malformed l x := by
  rintro ⟨q, ⟨e, rfl⟩, hno, hnot⟩
  have hmem := h.2.1
  rcases Nat.le_total n q.length with hle | hle
  · rw [List.take_append_of_le_length hle] at hmem
    exact hnot n hle hmem
  · rw [List.take_append, List.take_of_length_le hle] at hmem
    exact hno _ hmem

theorem Unfinished.not_malformed (h : Unfinished l x) : ¬ Malformed l x := by
  rintro ⟨q, ⟨e, rfl⟩, hno, -⟩
  obtain ⟨-, y, hy⟩ := h
  rw [List.append_assoc] at hy
  exact hno _ hy

theorem ShortestPrefix.unique (hn : ShortestPrefix l n x) (hm : ShortestPrefix l m x) :
    n = m := by
  rcases Nat.lt_trichotomy n m with hlt | heq | hlt
  · exact absurd hn.2.1 (hm.2.2 n hlt)
  · exact heq
  · exact absurd hm.2.1 (hn.2.2 m hlt)

/-- An answer that is right in each of the three cases decides between them. -/
theorem outcome_iff {ε : Type} {r : Except ε (Option ℕ)} {bad : Prop}
    (h : (∃ n, r = .ok (some n) ∧ ShortestPrefix l n x) ∨ (r = .ok none ∧ Unfinished l x) ∨
      (bad ∧ Malformed l x)) (hbad : bad → ∀ o, r ≠ .ok o) :
    (∀ n, r = .ok (some n) ↔ ShortestPrefix l n x) ∧ (r = .ok none ↔ Unfinished l x) ∧
      (bad ↔ Malformed l x) := by
  rcases h with ⟨n, hr, hs⟩ | ⟨hr, hu⟩ | ⟨hb, hm⟩
  · refine ⟨fun m => ⟨fun hm => ?_, fun hm => by rw [hr, hs.unique hm]⟩,
      ⟨fun hn => ?_, fun hu => absurd hu hs.not_unfinished⟩,
      ⟨fun hb => absurd hr (hbad hb _), fun hm => absurd hm hs.not_malformed⟩⟩
    · rw [hr] at hm
      cases hm
      exact hs
    · rw [hr] at hn
      cases hn
  · refine ⟨fun n => ⟨fun hn => ?_, fun hs => absurd hu hs.not_unfinished⟩, ⟨fun _ => hu,
      fun _ => hr⟩, ⟨fun hb => absurd hr (hbad hb _), fun hm => absurd hm hu.not_malformed⟩⟩
    rw [hr] at hn
    cases hn
  · exact ⟨fun n => ⟨fun hn => absurd hn (hbad hb _), fun hs => absurd hm hs.not_malformed⟩,
      ⟨fun hn => absurd hn (hbad hb _), fun hu => absurd hm hu.not_malformed⟩,
      ⟨fun _ => hm, fun _ => hb⟩⟩

end Exclusive

namespace Recognizer

variable {α σ : Type} (R : Recognizer α σ)

/-- The automaton, as Mathlib has it. -/
def toDFA : DFA α σ := ⟨R.step, R.start, {R.fin}⟩

/-- Read a stream up to the first verdict, from a state that is neither `fin`
nor `dead`. -/
def verdict [DecidableEq σ] (s : σ) : List α → Verdict
  | [] => .pending
  | a :: x =>
    if R.step s a = R.dead then .rejected 1
    else if R.step s a = R.fin then .accepted 1
    else (verdict (R.step s a) x).succ

/-! ### The two states that are left no more -/

variable {R}

theorem evalFrom_dead (x : List α) : R.toDFA.evalFrom R.dead x = R.dead := by
  induction x with
  | nil => rfl
  | cons a x ih =>
    rw [DFA.evalFrom_cons]
    show R.toDFA.evalFrom (R.step R.dead a) x = R.dead
    rw [R.step_dead, ih]

theorem evalFrom_fin_eq_fin {x : List α} : R.toDFA.evalFrom R.fin x = R.fin ↔ x = [] := by
  rcases x with _ | ⟨a, x⟩
  · simp
  · have : R.toDFA.evalFrom R.fin (a :: x) = R.dead := by
      rw [DFA.evalFrom_cons]
      show R.toDFA.evalFrom (R.step R.fin a) x = R.dead
      rw [R.step_fin, evalFrom_dead]
    simp [this, R.fin_ne_dead.symm]

theorem mem_accepts {x : List α} : x ∈ R.toDFA.accepts ↔ R.toDFA.eval x = R.fin := Iff.rfl

theorem eval_append (x y : List α) :
    R.toDFA.eval (x ++ y) = R.toDFA.evalFrom (R.toDFA.eval x) y :=
  R.toDFA.evalFrom_of_append R.start x y

/-- A word can be extended into the language unless it leads to `dead`. -/
theorem exists_append_mem_iff {x : List α} :
    (∃ y, x ++ y ∈ R.toDFA.accepts) ↔ R.toDFA.eval x ≠ R.dead := by
  constructor
  · rintro ⟨y, hy⟩ hx
    rw [mem_accepts, eval_append, hx, evalFrom_dead] at hy
    exact R.fin_ne_dead hy.symm
  · intro hx
    obtain ⟨y, hy⟩ := R.live _ hx
    exact ⟨y, by rw [mem_accepts, eval_append]; exact hy⟩

/-- No word of the language is a proper prefix of another. -/
theorem eval_of_take_mem {x : List α} {m : ℕ} (hm : m < x.length)
    (h : x.take m ∈ R.toDFA.accepts) : R.toDFA.eval x = R.dead := by
  rw [← List.take_append_drop m x, eval_append, mem_accepts.mp h]
  obtain ⟨a, y, hy⟩ : ∃ a y, x.drop m = a :: y := by
    refine List.exists_cons_of_ne_nil fun hnil => ?_
    have := List.drop_eq_nil_iff.mp hnil
    omega
  rw [hy, DFA.evalFrom_cons]
  show R.toDFA.evalFrom (R.step R.fin a) y = R.dead
  rw [R.step_fin, evalFrom_dead]

/-! ### Verdicts and states -/

variable [DecidableEq σ]

theorem verdict_eq_accepted {s : σ} (hs : s ≠ R.fin) (x : List α) (n : ℕ) :
    R.verdict s x = .accepted n ↔ n ≤ x.length ∧ R.toDFA.evalFrom s (x.take n) = R.fin := by
  induction x generalizing s n with
  | nil =>
    simp only [verdict, List.take_nil, DFA.evalFrom_nil, hs, and_false, reduceCtorEq]
  | cons a x ih =>
    -- a verdict takes at least one symbol
    rcases n with _ | n
    · simp only [List.take_zero, DFA.evalFrom_nil, hs, and_false, iff_false, verdict]
      split
      · simp
      · split
        · simp
        · cases R.verdict (R.step s a) x <;> simp [Verdict.succ]
    · rw [List.take_succ_cons, DFA.evalFrom_cons, List.length_cons, Nat.add_le_add_iff_right]
      show _ ↔ n ≤ x.length ∧ R.toDFA.evalFrom (R.step s a) (x.take n) = R.fin
      -- the next state is `dead`, `fin`, or one to go on from
      rw [verdict]
      split
      · rename_i hd
        rw [hd, evalFrom_dead]
        simp [R.fin_ne_dead.symm]
      · split
        · rename_i hf
          rw [hf, evalFrom_fin_eq_fin, List.take_eq_nil_iff]
          constructor
          · intro h; cases h; exact ⟨Nat.zero_le _, .inl rfl⟩
          · rintro ⟨hle, rfl | rfl⟩
            · rfl
            · obtain rfl : n = 0 := by simpa using hle
              rfl
        · rename_i hf
          rw [← ih hf]
          cases R.verdict (R.step s a) x <;> simp [Verdict.succ]

theorem verdict_eq_pending {s : σ} (hs : s ≠ R.fin) (hd : s ≠ R.dead) (x : List α) :
    R.verdict s x = .pending ↔
      R.toDFA.evalFrom s x ≠ R.fin ∧ R.toDFA.evalFrom s x ≠ R.dead := by
  induction x generalizing s with
  | nil => simp [verdict, hs, hd]
  | cons a x ih =>
    rw [DFA.evalFrom_cons]
    show _ ↔ R.toDFA.evalFrom (R.step s a) x ≠ R.fin ∧ R.toDFA.evalFrom (R.step s a) x ≠ R.dead
    -- `dead` is never left, and `fin` only for `dead`
    rw [verdict]
    split
    · rename_i h
      rw [h, evalFrom_dead]
      simp
    · split
      · rename_i h
        rw [h]
        rcases x with _ | ⟨b, x⟩
        · simp
        · have : R.toDFA.evalFrom R.fin (b :: x) = R.dead := by
            rw [DFA.evalFrom_cons]
            show R.toDFA.evalFrom (R.step R.fin b) x = R.dead
            rw [R.step_fin, evalFrom_dead]
          simp [this]
      · rename_i hd' hf'
        rw [← ih hf' hd']
        cases R.verdict (R.step s a) x <;> simp [Verdict.succ]

theorem verdict_eq_rejected {s : σ} {x : List α} {n : ℕ} (h : R.verdict s x = .rejected n) :
    n ≤ x.length ∧ R.toDFA.evalFrom s (x.take n) = R.dead := by
  induction x generalizing s n with
  | nil => cases h
  | cons a x ih =>
    rw [verdict] at h
    split at h
    · rename_i hd
      cases h
      exact ⟨by simp, hd⟩
    · split at h
      · cases h
      · rcases hv : R.verdict (R.step s a) x with k | _ | k
        · rw [hv] at h; cases h
        · rw [hv] at h; cases h
        · rw [hv] at h
          cases h
          obtain ⟨hle, hdead⟩ := ih hv
          exact ⟨by simpa using hle, hdead⟩

/-! ### Verdicts and the language -/

/-- The accepted prefix is the shortest one in the language. -/
theorem verdict_accepted_iff (x : List α) (n : ℕ) :
    R.verdict R.start x = .accepted n ↔ ShortestPrefix R.toDFA.accepts n x := by
  rw [verdict_eq_accepted R.start_ne_fin]
  constructor
  · rintro ⟨hle, hfin⟩
    refine ⟨hle, hfin, fun m hm hmem => ?_⟩
    -- a shorter word of the language would have led to `dead`
    have hdead := eval_of_take_mem (x := x.take n) (m := m)
      (by rw [List.length_take]; omega)
      (by rw [List.take_take, Nat.min_eq_left (Nat.le_of_lt hm)]; exact hmem)
    exact R.fin_ne_dead (hfin.symm.trans hdead)
  · rintro ⟨hle, hmem, -⟩
    exact ⟨hle, hmem⟩

/-- More is wanted when no prefix is in the language, but one can be yet. -/
theorem verdict_pending_iff (x : List α) :
    R.verdict R.start x = .pending ↔ Unfinished R.toDFA.accepts x := by
  rw [verdict_eq_pending R.start_ne_fin R.start_ne_dead, Unfinished, exists_append_mem_iff]
  constructor
  · rintro ⟨hfin, hdead⟩
    refine ⟨fun n hn hmem => ?_, hdead⟩
    rcases Nat.lt_or_ge n x.length with hlt | hge
    · exact hdead (eval_of_take_mem hlt hmem)
    · rw [List.take_of_length_le hge] at hmem
      exact hfin hmem
  · rintro ⟨hnot, hdead⟩
    refine ⟨fun hfin => hnot x.length (le_refl _) ?_, hdead⟩
    rw [List.take_length]
    exact hfin

/-- A stream is rejected when some prefix neither has nor can be extended to a
word of the language. -/
theorem verdict_rejected_iff (x : List α) :
    (∃ n, R.verdict R.start x = .rejected n) ↔ Malformed R.toDFA.accepts x := by
  constructor
  · rintro ⟨n, hn⟩
    obtain ⟨hle, hdead⟩ := verdict_eq_rejected hn
    refine ⟨x.take n, List.take_prefix n x, fun y hy => ?_, fun m hm hmem => ?_⟩
    · exact exists_append_mem_iff.mp ⟨y, hy⟩ hdead
    · -- an accepted prefix would have been the verdict
      rw [List.length_take] at hm
      rw [List.take_take, Nat.min_eq_left (by omega)] at hmem
      have hacc := (verdict_eq_accepted R.start_ne_fin x m).mpr ⟨by omega, hmem⟩
      rw [hn] at hacc
      cases hacc
  · intro hmal
    rcases hv : R.verdict R.start x with n | _ | n
    · exact absurd hmal ((verdict_accepted_iff x n).mp hv).not_malformed
    · exact absurd hmal ((verdict_pending_iff x).mp hv).not_malformed
    · exact ⟨n, rfl⟩

end Recognizer
