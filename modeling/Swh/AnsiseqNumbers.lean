/-
The numbers of control sequences, step by step.

A step behind the bytes `d'` sees the state the table is in and the parser that
`eatone` has left there; `shape_eatone` says what that parser is.

* `numbersFit_iff` — every number that is computed is an `int` that is not negative,
  unless the input has a parameter that is too big (`BigParam`).
-/
import Swh.AnsiseqParams

namespace Swh.Ansiseq

variable {d q w : List UInt8} {st : St} {p : Parser} {c : UInt8} {v : ℤ}

/-! ### The parser behind each prefix -/

/-- A run of the loop that is not over yet has come to the state of the table. -/
theorem shape_eatoneLoop (h : Shape q st p) (hq : table.toDFA.eval q = st)
    (hd : table.toDFA.eval (q ++ d) ≠ .fin ∧ table.toDFA.eval (q ++ d) ≠ .err) (i : ℕ) :
    Shape (q ++ d) (table.toDFA.eval (q ++ d)) (eatoneLoop d i st p).1 := by
  induction d generalizing q i st p with
  | nil =>
    rw [List.append_nil, hq]
    exact h
  | cons c d ih =>
    obtain ⟨st', a, ht⟩ := transition_of_live h.live.1 h.live.2 (mktok c)
    have heval := eval_of_transition hq ht
    rw [List.append_cons] at hd ⊢
    -- the state of the table is live only if it has been so all the way
    have herr : st' ≠ .err := by
      intro he
      rw [Recognizer.eval_append, heval, he] at hd
      exact hd.2 (Recognizer.evalFrom_dead (R := table) d)
    have hfin : st' ≠ .fin := by
      intro he
      rw [Recognizer.eval_append, heval, he] at hd
      rcases d with _ | ⟨b, d⟩
      · exact hd.1 rfl
      · exact hd.2 (Recognizer.evalFrom_dead (R := table) d)
    rw [eatoneLoop_next ht herr hfin]
    exact ih (h.step ht hfin herr) heval hd (i + 1)

theorem shape_eatone (p : Parser)
    (hd : table.toDFA.eval d ≠ .fin ∧ table.toDFA.eval d ≠ .err) :
    Shape d (table.toDFA.eval d) (eatone d p).1 :=
  shape_eatoneLoop (q := []) .sta rfl hd 0

/-- In an open control sequence. -/
theorem reads_eatone {pre : List UInt8} (hpre : pre ∈ broken) (hw : ∀ b ∈ w, IsParam b)
    (p : Parser) : table.toDFA.eval (pre ++ ESC :: 91 :: w) = .csi ∧
      Reads (eatone (pre ++ ESC :: 91 :: w) p).1 w := by
  have hmem := broken_csi_mem hpre hw
  have hassoc : pre ++ ESC :: 91 :: (w ++ [65]) = pre ++ ESC :: 91 :: w ++ [65] := by simp
  rw [hassoc, ← accepts_eq_sequence, Recognizer.mem_accepts, Recognizer.eval_append] at hmem
  refine (shape_eatone p ⟨fun hfin => ?_, fun herr => ?_⟩).reads hw rfl
  · rw [hfin] at hmem
    cases Recognizer.evalFrom_fin_eq_fin.mp hmem
  · rw [herr] at hmem
    exact notMem_accepts_err _ hmem

/-! ### The steps that compute and store a number -/

/-- In some step `act_mkpar` computes the number `v`. -/
def Computes (d : List UInt8) (p : Parser) (v : ℤ) : Prop :=
  ∃ d' c rest st', d = d' ++ c :: rest ∧
    transition (table.toDFA.eval d') (mktok c) = some (st', .mkpar) ∧
    v = (eatone d' p).1.parmv * 10 + ((c.toNat : ℤ) - 48)

/-- In some step `act_stor` stores the number `v`, of its own or called by
`act_mkctl`. -/
def Stores (d : List UInt8) (p : Parser) (v : ℤ) : Prop :=
  ∃ d' c rest st' a, d = d' ++ c :: rest ∧
    transition (table.toDFA.eval d') (mktok c) = some (st', a) ∧ (a = .stor ∨ a = .mkctl) ∧
    (eatone d' p).1.gotparm = true ∧ v = (eatone d' p).1.parmv

/-- No number that is computed overflows, and none that is stored is negative or
could be taken for one that is absent. -/
structure NumbersFit (d : List UInt8) (p : Parser) : Prop where
  computed : ∀ v, Computes d p v → 0 ≤ v ∧ v ≤ INT_MAX
  stored : ∀ v, Stores d p v → 0 ≤ v ∧ v ≤ INT_MAX ∧ v ≠ ABSENT

theorem transition_mkpar {t : Tok} {st' : St} (h : transition st t = some (st', .mkpar)) :
    st = .csi ∧ t = .ndig := by
  cases st <;> cases t <;> first | exact ⟨rfl, rfl⟩ | cases h

/-- The numbers that are computed are those of the control sequences in the input. -/
theorem computes_iff (d : List UInt8) (p : Parser) (v : ℤ) :
    Computes d p v ↔ ∃ w x, Control d w x ∧ IsDigit x ∧ v = number (w ++ [x]) := by
  constructor
  · rintro ⟨d', c, rest, st', rfl, ht, rfl⟩
    obtain ⟨hst, hc⟩ := transition_mkpar ht
    have hdigit := (mktok_ndig c).mp hc
    have hshape := shape_eatone (d := d') p (by rw [hst]; decide)
    rw [hst] at hshape
    generalize hp : (eatone d' p).1 = p' at hshape
    cases hshape with
    | @csi _ pre w hpre hw hreads =>
      refine ⟨w, c, ⟨pre, rest, hpre, hw, by simp⟩, hdigit, ?_⟩
      rw [number_digit hdigit, hreads.parmv]
  · rintro ⟨w, x, ⟨pre, rest, hpre, hw, rfl⟩, hx, rfl⟩
    obtain ⟨hst, hreads⟩ := reads_eatone hpre hw p
    refine ⟨pre ++ ESC :: 91 :: w, x, rest, .csi, by simp, ?_, ?_⟩
    · rw [hst, (mktok_ndig x).mpr hx]
      rfl
    · rw [number_digit hx, hreads.parmv]

/-- A number is one of those that were computed for its digits, or zero. -/
theorem number_le_of_digits {m : ℤ} (hm : 0 ≤ m)
    (h : ∀ u x, u ++ [x] <+: w → IsDigit x → number (u ++ [x]) ≤ m) : number w ≤ m := by
  induction w using List.reverseRecOn with
  | nil => exact hm
  | append_singleton w c ih =>
    by_cases hc : IsDigit c
    · exact h w c (List.prefix_refl _) hc
    · have hle := ih fun u x hu => h u x (hu.trans (List.prefix_append _ _))
      by_cases h59 : c = 59
      · rw [h59, number, field_semicolon]
        exact hm
      · rw [number, field_other h59, List.foldl_append, List.foldl_cons, List.foldl_nil, if_neg hc]
        exact hle

/-- What is stored is the number of an open control sequence. -/
theorem Stores.number (h : Stores d p v) :
    ∃ w x, Control d w x ∧ v = number w := by
  obtain ⟨d', c, rest, st', a, rfl, ht, ha, hgot, rfl⟩ := h
  have hlive : table.toDFA.eval d' ≠ .fin ∧ table.toDFA.eval d' ≠ .err := by
    constructor <;> intro hst <;> rw [hst] at ht <;> cases ht
  have hshape := shape_eatone p hlive
  generalize hp : (eatone d' p).1 = p' at hshape hgot
  generalize table.toDFA.eval d' = st at hshape ht
  cases hshape with
  | sta => cases hc : mktok c <;> rw [hc] at ht <;> cases ht <;> simp at ha
  | esc _ hreads => cases hreads.gotparm.symm.trans hgot
  | @csi _ pre w hpre hw hreads => exact ⟨w, c, ⟨pre, rest, hpre, hw, by simp⟩, hreads.parmv⟩
  | sqc => cases hc : mktok c <;> rw [hc] at ht <;> cases ht <;> simp at ha
  | pph _ _ hreads => cases hreads.gotparm.symm.trans hgot

theorem computes_le_of_not_bigParam (h : ¬ BigParam d) (hv : Computes d p v) : v ≤ INT_MAX := by
  obtain ⟨w, x, hc, hx, rfl⟩ := (computes_iff d p v).mp hv
  by_contra hbig
  exact h ⟨w, x, hc, hx, by omega⟩

/-- **The numbers fit exactly when** no parameter is too big. -/
theorem numbersFit_iff (d : List UInt8) (p : Parser) : NumbersFit d p ↔ ¬ BigParam d := by
  constructor
  · rintro h ⟨w, x, hc, hx, hbig⟩
    have := (h.computed _ ((computes_iff d p _).mpr ⟨w, x, hc, hx, rfl⟩)).2
    omega
  · refine fun h => ⟨fun v hv => ⟨?_, computes_le_of_not_bigParam h hv⟩, fun v hv => ?_⟩
    · obtain ⟨w, x, -, -, rfl⟩ := (computes_iff d p v).mp hv
      exact number_nonneg _
    · obtain ⟨w, x, ⟨pre, rest, hpre, hw, rfl⟩, rfl⟩ := hv.number
      have hnonneg := number_nonneg w
      refine ⟨hnonneg, number_le_of_digits (by decide) ?_, ?_⟩
      · rintro u y ⟨u', rfl⟩ hy
        refine computes_le_of_not_bigParam h ((computes_iff _ p _).mpr ⟨u, y, ?_, hy, rfl⟩)
        exact ⟨pre, u' ++ x :: rest, hpre, fun b hb => hw b (by simp [hb]), by simp⟩
      · intro habs
        rw [habs] at hnonneg
        exact absurd hnonneg (by decide)

/-- `ESC [ 2147483648`: the last digit makes the number one too big for an `int`. -/
theorem not_numbersFit_big : ¬ NumbersFit
    [ESC, 91, 50, 49, 52, 55, 52, 56, 51, 54, 52, 56] parser₀ := by
  intro h
  have hcomp : Computes [ESC, 91, 50, 49, 52, 55, 52, 56, 51, 54, 52, 56] parser₀ 2147483648 :=
    ⟨[ESC, 91, 50, 49, 52, 55, 52, 56, 51, 54, 52], 56, [], .csi, rfl, by decide +kernel,
      by decide +kernel⟩
  exact absurd (h.computed _ hcomp).2 (by decide)

end Swh.Ansiseq
