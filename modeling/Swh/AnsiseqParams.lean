/-
The parameters of control sequences: where the parser leaves `struct ansiseq`.

`Reads p w` says what the parser holds after the bytes `w` of a control
sequence: `argc` counts the semicolons, and the number being read is that of the
bytes behind the last one.  `Shape` extends it to every state of the table, so
the faults of a call are known from the bytes alone (`fault_mem_iff`).

* `storesInside_iff` — the stores stay inside `argv` unless a sequence stores a
  ninth parameter (`NinthParam`);
* `recognises_iff` — `eatone` recognises its language unless it meets a fault or a
  sequence longer than an `int` can say.
-/
import Swh.AnsiseqLanguage
import Mathlib.Data.List.DropRight
import Mathlib.Tactic.Positivity

open scoped Computability

namespace Swh.Ansiseq

/-! ### The bytes of a control sequence -/

/-- The bytes behind the last semicolon. -/
def field (w : List UInt8) : List UInt8 := w.rtakeWhile (· != 59)

/-- Whether a digit follows the last semicolon. -/
def hasDigit (w : List UInt8) : Bool := (field w).any fun c => decide (IsDigit c)

/-- The number whose digits follow the last semicolon; `?` does not end it. -/
def number (w : List UInt8) : ℤ :=
  (field w).foldl (fun v c => if IsDigit c then v * 10 + ((c.toNat : ℤ) - 48) else v) 0

theorem field_semicolon (w : List UInt8) : field (w ++ [59]) = [] :=
  List.rtakeWhile_concat_neg _ _ _ (by decide)

theorem field_other {c : UInt8} (hc : c ≠ 59) (w : List UInt8) :
    field (w ++ [c]) = field w ++ [c] :=
  List.rtakeWhile_concat_pos _ _ _ (by simpa using hc)

theorem number_digit {c : UInt8} (hc : IsDigit c) (w : List UInt8) :
    number (w ++ [c]) = number w * 10 + ((c.toNat : ℤ) - 48) := by
  have hne : c ≠ 59 := by rintro rfl; revert hc; decide
  rw [number, field_other hne, List.foldl_append, List.foldl_cons, List.foldl_nil, if_pos hc]
  rfl

theorem number_nonneg (w : List UInt8) : 0 ≤ number w := by
  rw [number]
  generalize field w = u
  induction u using List.reverseRecOn with
  | nil => exact le_refl _
  | append_singleton u c ih =>
    rw [List.foldl_append, List.foldl_cons, List.foldl_nil]
    split
    · rename_i hc
      have := hc.1
      omega
    · exact ih

/-- What the actions of a control sequence have made of its bytes `w`. -/
structure Reads (p : Parser) (w : List UInt8) : Prop where
  argc : p.curseq.argc = w.count 59
  gotparm : p.gotparm = hasDigit w
  parmv : p.parmv = number w

theorem reads_actBegin (p : Parser) : Reads (actBegin p) [] := ⟨rfl, rfl, rfl⟩

/-- The faults met on the byte `x` behind the bytes `w` of a control sequence. -/
def stepFaults (w : List UInt8) (x : UInt8) : List Fault :=
  (if (x = 59 ∨ IsFinal x ∧ hasDigit w = true) ∧ MAX_ANSISEQ_PARAMS ≤ w.count 59
    then [.argvStore (w.count 59)] else [])
  ++ (if IsDigit x ∧ INT_MAX < number (w ++ [x]) then [.parmOverflow (number (w ++ [x]))] else [])

theorem storeArgv_reads {p : Parser} {n : ℕ} (h : p.curseq.argc = n) (v : ℤ) :
    (storeArgv v p).curseq.argc = n + 1 ∧ (storeArgv v p).faults
      = p.faults ++ if MAX_ANSISEQ_PARAMS ≤ n then [.argvStore n] else [] := by
  rw [storeArgv, ← h]
  by_cases hn : MAX_ANSISEQ_PARAMS ≤ n
  · rw [dif_neg (by rw [h]; simp; omega), if_pos hn]
    exact ⟨rfl, rfl⟩
  · rw [dif_pos (by rw [h]; simp; omega), if_neg hn, List.append_nil]
    exact ⟨rfl, rfl⟩

theorem reads_digit {p : Parser} {w : List UInt8} (h : Reads p w) {x : UInt8} (hx : IsDigit x) :
    Reads (actMkpar x p) (w ++ [x]) ∧ (actMkpar x p).faults = p.faults ++ stepFaults w x := by
  have hne : x ≠ 59 := by rintro rfl; revert hx; decide
  have hnf : ¬ IsFinal x := by
    have h1 := hx.1
    have h2 := hx.2
    unfold IsFinal
    omega
  have hnum : p.parmv * 10 + ((x.toNat : ℤ) - 48) = number (w ++ [x]) := by
    rw [number_digit hx, h.parmv]
  refine ⟨⟨?_, ?_, hnum⟩, ?_⟩
  · show p.curseq.argc = _
    rw [List.count_append, List.count_singleton]
    simpa [hne] using h.argc
  · show true = _
    rw [hasDigit, field_other hne, List.any_append]
    simp [hx]
  · have hnn := number_nonneg (w ++ [x])
    show (if INT_MIN ≤ p.parmv * 10 + ((x.toNat : ℤ) - 48) ∧ _ ≤ INT_MAX then _ else _) = _
    rw [hnum, stepFaults, if_neg (show ¬ ((x = 59 ∨ IsFinal x ∧ _) ∧ _) by simp [hne, hnf]),
      List.nil_append]
    by_cases hle : number (w ++ [x]) ≤ INT_MAX
    · rw [if_pos ⟨by unfold INT_MIN; omega, hle⟩, if_neg (by simp [hle]), List.append_nil]
    · rw [if_neg (by simp [hle]), if_pos ⟨hx, by omega⟩]

theorem reads_semicolon {p : Parser} {w : List UInt8} (h : Reads p w) :
    Reads (actStor 59 p) (w ++ [59]) ∧ (actStor 59 p).faults = p.faults ++ stepFaults w 59 := by
  obtain ⟨hargc, hfaults⟩ := storeArgv_reads h.argc (if p.gotparm then p.parmv else ABSENT)
  have hrun : actStor 59 p
      = { storeArgv (if p.gotparm then p.parmv else ABSENT) p with
          parmv := 0, gotparm := false } := by
    rw [actStor, if_pos rfl]
  rw [hrun]
  refine ⟨⟨?_, ?_, ?_⟩, ?_⟩
  · rw [List.count_append, List.count_singleton]
    exact hargc
  · rw [hasDigit, field_semicolon]
    rfl
  · rw [number, field_semicolon]
    rfl
  · rw [stepFaults]
    show (storeArgv _ p).faults = _
    rw [hfaults]
    simp [show ¬ IsDigit (59 : UInt8) by decide]

theorem reads_question {p : Parser} {w : List UInt8} (h : Reads p w) :
    Reads (actExt p) (w ++ [63]) ∧ (actExt p).faults = p.faults ++ stepFaults w 63 := by
  have hne : (63 : UInt8) ≠ 59 := by decide
  refine ⟨⟨?_, ?_, ?_⟩, ?_⟩
  · show p.curseq.argc = _
    rw [List.count_append]
    simpa using h.argc
  · show p.gotparm = _
    rw [hasDigit, field_other hne, List.any_append, ← hasDigit]
    simpa [show ¬ IsDigit (63 : UInt8) by decide] using h.gotparm
  · show p.parmv = _
    rw [number, field_other hne, List.foldl_append, ← number]
    simpa [show ¬ IsDigit (63 : UInt8) by decide] using h.parmv
  · rw [stepFaults]
    simp [show ¬ IsDigit (63 : UInt8) by decide, show ¬ IsFinal (63 : UInt8) by decide, actExt]

/-- A byte of class `[0-9;?]` in a control sequence. -/
theorem reads_param {p : Parser} {w : List UInt8} (h : Reads p w) {x : UInt8} (hx : IsParam x) :
    ∃ a, transition .csi (mktok x) = some (.csi, a) ∧ Reads (a.run x p) (w ++ [x]) ∧
      (a.run x p).faults = p.faults ++ stepFaults w x := by
  rcases hx with hx | hx | hx
  · exact ⟨.mkpar, by rw [(mktok_ndig x).mpr hx]; rfl, reads_digit h hx⟩
  · obtain rfl : x = 59 := UInt8.toNat_inj.mp hx
    exact ⟨.stor, rfl, reads_semicolon h⟩
  · obtain rfl : x = 63 := UInt8.toNat_inj.mp hx
    exact ⟨.ext, rfl, reads_question h⟩

/-- The final byte of a control sequence, and any byte that has no business
there. -/
theorem reads_last {p : Parser} {w : List UInt8} (h : Reads p w) {x : UInt8} (hx : ¬ IsParam x) :
    ∃ st' a, transition .csi (mktok x) = some (st', a) ∧ st' ≠ .csi ∧
      (a.run x p).faults = p.faults ++ stepFaults w x := by
  have hne : x ≠ 59 := by rintro rfl; exact hx (by decide)
  have hnd : ¬ IsDigit x := fun hd => hx (.inl hd)
  by_cases hf : IsFinal x
  · refine ⟨.fin, .mkctl, by rw [(mktok_cchr x).mpr hf]; rfl, by decide, ?_⟩
    show (actMkctl x p).faults = _
    rw [stepFaults, if_neg (show ¬ (IsDigit x ∧ _) by simp [hnd]), List.append_nil]
    by_cases hd : hasDigit w = true
    · obtain ⟨-, hfaults⟩ := storeArgv_reads h.argc p.parmv
      have hgot : p.gotparm = true := h.gotparm.trans hd
      have hrun : (actMkctl x p).faults = (storeArgv p.parmv p).faults := by
        simp only [actMkctl, actStor, hgot, if_true]
        rfl
      rw [hrun, hfaults]
      simp [hf, hd]
    · have hgot : p.gotparm = false := by rw [h.gotparm]; simpa using hd
      rw [actMkctl, hgot]
      simp [hne, hd]
  · have hfs : stepFaults w x = [] := by simp [stepFaults, hne, hf, hnd]
    rw [hfs, List.append_nil]
    rcases hc : mktok x
    case escp => exact ⟨.esc, .begin, rfl, by decide, rfl⟩
    case cchr => exact absurd ((mktok_cchr x).mp hc) hf
    case ndig => exact absurd ((mktok_ndig x).mp hc) hnd
    case qmrk => exact absurd (.inr (.inr ((mktok_qmrk x).mp hc))) hx
    case smcl => exact absurd (.inr (.inl ((mktok_smcl x).mp hc))) hx
    all_goals exact ⟨.err, .nop, rfl, by decide, rfl⟩

/-! ### Every state of the table -/

/-- Any number of sequences that were broken off. -/
def broken : Language UInt8 := (esc * properPrefixes body)∗

theorem broken_concat {pre b : List UInt8} (hpre : pre ∈ broken) (hb : b ∈ properPrefixes body) :
    pre ++ ESC :: b ∈ broken := by
  obtain ⟨L, rfl, hL⟩ := Language.mem_kstar.mp hpre
  refine Language.mem_kstar.mpr ⟨L ++ [ESC :: b], by simp, fun y hy => ?_⟩
  rcases List.mem_append.mp hy with hy | hy
  · exact hL y hy
  · rw [List.mem_singleton.mp hy]
    exact cons_mem_oneOf_mul.mpr ⟨rfl, hb⟩

/-- What has been read when the table is in a state, and what the parser holds
where that matters. -/
inductive Shape : List UInt8 → St → Parser → Prop
  | sta {p} : Shape [] .sta p
  | esc {p pre} (hpre : pre ∈ broken) (hp : Reads p []) : Shape (pre ++ [ESC]) .esc p
  | csi {p pre w} (hpre : pre ∈ broken) (hw : ∀ c ∈ w, IsParam c) (hp : Reads p w) :
      Shape (pre ++ ESC :: 91 :: w) .csi p
  | sqc {p pre w} (hpre : pre ∈ broken) (hw : ∀ c ∈ w, c ≠ ESC ∧ ¬ IsTerminator c) :
      Shape (pre ++ ESC :: 93 :: w) .sqc p
  | pph {p pre h} (hpre : pre ∈ broken) (hh : IsHashParen h) (hp : Reads p []) :
      Shape (pre ++ [ESC, h]) .pph p

variable {q : List UInt8} {st st' : St} {p : Parser} {c : UInt8} {a : Act}

theorem Shape.mem_broken (h : Shape q st p) : q ∈ broken := by
  cases h with
  | sta => exact Language.nil_mem_kstar _
  | esc hpre _ => exact broken_concat hpre (mem_properPrefixes_body.mpr (.inl rfl))
  | csi hpre hw _ =>
    exact broken_concat hpre (mem_properPrefixes_body.mpr (.inr (.inl ⟨_, hw, rfl⟩)))
  | sqc hpre hw =>
    exact broken_concat hpre (mem_properPrefixes_body.mpr (.inr (.inr (.inr ⟨_, hw, rfl⟩))))
  | pph hpre hh _ =>
    exact broken_concat hpre (mem_properPrefixes_body.mpr (.inr (.inr (.inl ⟨_, hh, rfl⟩))))

/-- The byte behind the escape character says which sequence it is. -/
theorem Shape.step_esc {pre : List UInt8} (hpre : pre ∈ broken) (hp : Reads p [])
    (hne : mktok c ≠ .escp) (ht : transition .esc (mktok c) = some (st', a))
    (hfin : st' ≠ .fin) (herr : st' ≠ .err) : Shape (pre ++ [ESC] ++ [c]) st' (a.run c p) := by
  rw [List.append_assoc]
  have hcsi : mktok c = .osqb → Shape (pre ++ [ESC, c]) .csi (actSetcls c p) := by
    intro hc
    obtain rfl : c = 91 := UInt8.toNat_inj.mp ((mktok_osqb c).mp hc)
    exact .csi hpre (by simp) ⟨hp.argc, hp.gotparm, hp.parmv⟩
  have hsqc : mktok c = .csqb → Shape (pre ++ [ESC, c]) .sqc (actSetcls c p) := by
    intro hc
    obtain rfl : c = 93 := UInt8.toNat_inj.mp ((mktok_csqb c).mp hc)
    exact .sqc hpre (by simp)
  cases hc : mktok c <;> rw [hc] at ht <;> cases ht <;>
    first
    | exact absurd hc hne
    | exact absurd rfl herr
    | exact absurd rfl hfin
    | exact .pph hpre ((mktok_hashParen c).mp (by simp [hc])) ⟨hp.argc, hp.gotparm, hp.parmv⟩
    | exact hcsi hc
    | exact hsqc hc

theorem Shape.step_csi {pre w : List UInt8} (hpre : pre ∈ broken) (hw : ∀ b ∈ w, IsParam b)
    (hp : Reads p w) (hne : mktok c ≠ .escp) (ht : transition .csi (mktok c) = some (st', a))
    (hfin : st' ≠ .fin) (herr : st' ≠ .err) :
    Shape (pre ++ ESC :: 91 :: w ++ [c]) st' (a.run c p) := by
  by_cases hx : IsParam c
  · obtain ⟨a', ht', hreads, -⟩ := reads_param hp hx
    rw [ht'] at ht
    cases ht
    rw [List.append_assoc]
    refine .csi (w := w ++ [c]) hpre (fun b hb => ?_) hreads
    rcases List.mem_append.mp hb with hb | hb
    · exact hw b hb
    · rwa [List.mem_singleton.mp hb]
  · rw [← mktok_param] at hx
    cases hc : mktok c <;> rw [hc] at ht hx <;> cases ht <;>
      first
      | exact absurd hc hne
      | exact absurd rfl herr
      | exact absurd rfl hfin
      | simp at hx

/-- A string goes on up to its terminator. -/
theorem Shape.step_sqc {pre w : List UInt8} (hpre : pre ∈ broken)
    (hw : ∀ b ∈ w, b ≠ ESC ∧ ¬ IsTerminator b) (hesc : c ≠ ESC)
    (ht : transition .sqc (mktok c) = some (st', a)) (hfin : st' ≠ .fin) :
    Shape (pre ++ ESC :: 93 :: w ++ [c]) st' (a.run c p) := by
  have hterm : ¬ IsTerminator c := by
    rintro (hc | hc) <;> rw [hc] at ht <;> cases ht <;> exact hfin rfl
  obtain rfl : st' = .sqc := by
    cases hc : mktok c <;> rw [hc] at ht <;> cases ht <;>
      first
      | rfl
      | exact absurd ((mktok_escp c).mp hc) hesc
      | exact absurd rfl hfin
  rw [List.append_assoc]
  refine .sqc (w := w ++ [c]) hpre fun b hb => ?_
  rcases List.mem_append.mp hb with hb | hb
  · exact hw b hb
  · rw [List.mem_singleton.mp hb]
    exact ⟨hesc, hterm⟩

/-- A byte that neither completes nor spoils the sequence. -/
theorem Shape.step (h : Shape q st p) (ht : transition st (mktok c) = some (st', a))
    (hfin : st' ≠ .fin) (herr : st' ≠ .err) : Shape (q ++ [c]) st' (a.run c p) := by
  by_cases hesc : c = ESC
  · -- whatever the state, the escape character starts afresh
    have hbegin : st' = .esc ∧ a = .begin := by
      rw [(mktok_escp c).mpr hesc] at ht
      cases h <;> cases ht <;> exact ⟨rfl, rfl⟩
    obtain ⟨rfl, rfl⟩ := hbegin
    rw [hesc]
    exact .esc h.mem_broken (reads_actBegin p)
  · have hne : mktok c ≠ .escp := fun hc => hesc ((mktok_escp c).mp hc)
    cases h with
    | esc hpre hp => exact .step_esc hpre hp hne ht hfin herr
    | csi hpre hw hp => exact .step_csi hpre hw hp hne ht hfin herr
    | sqc hpre hw => exact .step_sqc hpre hw hesc ht hfin
    -- any other byte spoils or completes the sequence here
    | sta =>
      cases hc : mktok c <;> rw [hc] at ht <;> cases ht <;>
        first
        | exact absurd hc hne
        | exact absurd rfl herr
    | pph =>
      cases hc : mktok c <;> rw [hc] at ht <;> cases ht <;>
        first
        | exact absurd hc hne
        | exact absurd rfl herr
        | exact absurd rfl hfin

/-- The decomposition at the last escape character is unique. -/
theorem tail_eq_of_esc {pre pre' w w' : List UInt8} (hw : ESC ∉ w) (hw' : ESC ∉ w')
    (h : pre ++ ESC :: w = pre' ++ ESC :: w') : w = w' := by
  have hbehind : ∀ {v u : List UInt8}, ESC ∉ u →
      (v ++ ESC :: u).rtakeWhile (· != ESC) = u := by
    intro v u hu
    induction u using List.reverseRecOn with
    | nil => exact List.rtakeWhile_concat_neg _ _ _ (by decide)
    | append_singleton u c ih =>
      rw [List.mem_append, not_or, List.mem_singleton] at hu
      rw [← List.cons_append, ← List.append_assoc,
        List.rtakeWhile_concat_pos _ _ _ (by simpa using fun h => hu.2 h.symm), ih hu.1]
  rw [← hbehind hw, h, hbehind hw']

theorem esc_notMem_param {w : List UInt8} (hw : ∀ c ∈ w, IsParam c) : ESC ∉ w :=
  fun h => absurd (hw ESC h) (by decide)

/-- Only in `S_CSI` has a control sequence been opened and not left yet. -/
theorem Shape.reads {pre w : List UInt8} (h : Shape q st p) (hw : ∀ c ∈ w, IsParam c)
    (hq : q = pre ++ ESC :: 91 :: w) : st = .csi ∧ Reads p w := by
  have hesc : ESC ∉ 91 :: w := by
    rw [List.mem_cons, not_or]
    exact ⟨by decide, esc_notMem_param hw⟩
  cases h with
  | sta => simp at hq
  | esc => cases tail_eq_of_esc (by simp) hesc hq
  | csi _ hw' hp =>
    have htail := tail_eq_of_esc (List.not_mem_cons_of_ne_of_not_mem (by decide)
      (esc_notMem_param hw')) hesc hq
    cases htail
    exact ⟨rfl, hp⟩
  | sqc _ hw' =>
    cases tail_eq_of_esc (List.not_mem_cons_of_ne_of_not_mem (by decide)
      fun h => (hw' ESC h).1 rfl) hesc hq
  | @pph _ _ x _ hh _ =>
    have hx : ESC ∉ [x] := fun h => absurd (List.mem_singleton.mp h ▸ hh) (by decide)
    cases tail_eq_of_esc hx hesc hq
    exact absurd hh (by decide)

/-! ### The faults of a call -/

/-- The input has a control sequence with the bytes `w`, and `x` behind them. -/
def Control (d w : List UInt8) (x : UInt8) : Prop :=
  ∃ pre rest, pre ∈ broken ∧ (∀ c ∈ w, IsParam c) ∧ d = pre ++ ESC :: 91 :: (w ++ x :: rest)

/-- A control sequence that is open can be completed. -/
theorem broken_csi_mem {pre w : List UInt8} (hpre : pre ∈ broken) (hw : ∀ c ∈ w, IsParam c) :
    pre ++ ESC :: 91 :: (w ++ [65]) ∈ sequence :=
  Language.mem_mul.mpr ⟨pre, hpre, _, cons_mem_oneOf_mul.mpr
    ⟨rfl, mem_body.mpr (.inr (.inl ⟨w, 65, hw, by decide, rfl⟩))⟩, rfl⟩

/-- What a step of a control sequence adds to the faults. -/
theorem csi_faults {w : List UInt8} (hp : Reads p w)
    (ht : transition .csi (mktok c) = some (st', a)) :
    (a.run c p).faults = p.faults ++ stepFaults w c := by
  by_cases hx : IsParam c
  · obtain ⟨a', ht', -, hf⟩ := reads_param hp hx
    rw [ht'] at ht
    cases ht
    exact hf
  · obtain ⟨st₁, a', ht', -, hf⟩ := reads_last hp hx
    rw [ht'] at ht
    cases ht
    exact hf

/-- Outside of `S_CSI` nothing is stored and no number is computed. -/
theorem Shape.faults_other (h : Shape q st p) (hst : st ≠ .csi)
    (ht : transition st (mktok c) = some (st', a)) : (a.run c p).faults = p.faults := by
  have hmkctl : p.gotparm = false → (Act.mkctl.run c p).faults = p.faults := by
    intro hp
    show (if p.gotparm = true then actStor 0 p else p).faults = _
    rw [hp]
    rfl
  have hmkstr : (Act.mkstr.run c p).faults = p.faults := by
    show (actMkstr c p).faults = _
    rw [actMkstr]
    split <;> rfl
  cases h <;> cases hc : mktok c <;> rw [hc] at ht <;> cases ht <;>
    first
    | rfl
    | exact absurd rfl hst
    | exact hmkstr
    | (rename_i hp; exact hmkctl hp.gotparm)

/-- The byte `x` behind `q`, which ends in an open control sequence, makes the fault. -/
def FaultAt (q : List UInt8) (x : UInt8) (f : Fault) : Prop :=
  ∃ pre w, pre ∈ broken ∧ (∀ b ∈ w, IsParam b) ∧ q = pre ++ ESC :: 91 :: w ∧ f ∈ stepFaults w x

/-- One of the bytes `d` behind `q` does. -/
def FaultIn (q d : List UInt8) (f : Fault) : Prop :=
  ∃ v x rest, d = v ++ x :: rest ∧ FaultAt (q ++ v) x f

theorem faultIn_cons {d : List UInt8} {f : Fault} :
    FaultIn q (c :: d) f ↔ FaultAt q c f ∨ FaultIn (q ++ [c]) d f := by
  constructor
  · rintro ⟨v, x, rest, hd, hf⟩
    rcases v with _ | ⟨b, v⟩
    · cases hd
      rw [List.append_nil] at hf
      exact .inl hf
    · cases hd
      exact .inr ⟨v, x, rest, rfl, by rwa [← List.append_cons]⟩
  · rintro (hf | ⟨v, x, rest, rfl, hf⟩)
    · exact ⟨[], c, d, rfl, by rwa [List.append_nil]⟩
    · exact ⟨c :: v, x, rest, rfl, by rwa [List.append_cons]⟩

/-- What a step behind `q` adds to the faults. -/
theorem Shape.step_faults (h : Shape q st p) (ht : transition st (mktok c) = some (st', a))
    (f : Fault) : f ∈ (a.run c p).faults ↔ f ∈ p.faults ∨ FaultAt q c f := by
  by_cases hst : st = .csi
  · subst hst
    cases h with
    | @csi _ pre w hpre hw hp =>
      rw [csi_faults hp ht, List.mem_append]
      refine or_congr Iff.rfl ⟨fun hf => ⟨pre, w, hpre, hw, rfl, hf⟩, ?_⟩
      rintro ⟨pre', w', -, hw', hq, hf⟩
      have hne : ∀ {u : List UInt8}, (∀ b ∈ u, IsParam b) → ESC ∉ 91 :: u := fun hu =>
        List.not_mem_cons_of_ne_of_not_mem (by decide) (esc_notMem_param hu)
      cases tail_eq_of_esc (hne hw) (hne hw') hq
      exact hf
  · rw [h.faults_other hst ht]
    refine ⟨.inl, ?_⟩
    rintro (hf | ⟨pre, w, -, hw, hq, -⟩)
    · exact hf
    · exact absurd (h.reads hw hq).1 hst

theorem Shape.live (h : Shape q st p) : st ≠ .fin ∧ st ≠ .err := by
  cases h <;> exact ⟨by decide, by decide⟩

/-- Behind a complete or malformed sequence no control sequence is open. -/
theorem not_faultIn_of_dead (hdead : table.toDFA.eval q = .fin ∨ table.toDFA.eval q = .err)
    (d : List UInt8) (f : Fault) : ¬ FaultIn q d f := by
  rintro ⟨v, x, rest, -, pre, w, hpre, hw, hv, -⟩
  -- it could be completed
  have hmem : q ++ (v ++ [65]) ∈ table.toDFA.accepts := by
    rw [accepts_eq_sequence, ← List.append_assoc, hv]
    simpa using broken_csi_mem hpre hw
  rw [Recognizer.mem_accepts, Recognizer.eval_append] at hmem
  rcases hdead with hq | hq
  · rw [hq] at hmem
    have := Recognizer.evalFrom_fin_eq_fin.mp hmem
    simp at this
  · rw [hq] at hmem
    exact notMem_accepts_err _ hmem

/-- The faults of a run that goes on behind `q`. -/
theorem eatoneLoop_fault_iff (h : Shape q st p) (hq : table.toDFA.eval q = st) (d : List UInt8)
    (i : ℕ) (f : Fault) :
    f ∈ (eatoneLoop d i st p).1.faults ↔ f ∈ p.faults ∨ FaultIn q d f := by
  induction d generalizing q i st p with
  | nil =>
    refine ⟨.inl, ?_⟩
    rintro (hf | ⟨v, x, rest, hd, -⟩)
    · exact hf
    · simp at hd
  | cons c d ih =>
    obtain ⟨st', a, ht⟩ := transition_of_live h.live.1 h.live.2 (mktok c)
    have heval := eval_of_transition hq ht
    rw [faultIn_cons, ← or_assoc, ← h.step_faults ht]
    by_cases hlive : st' ≠ .fin ∧ st' ≠ .err
    · rw [eatoneLoop_next ht hlive.2 hlive.1]
      exact ih (h.step ht hlive.1 hlive.2) heval (i + 1)
    · -- the run ends here
      have hdead : st' = .fin ∨ st' = .err := by
        rcases not_and_or.mp hlive with hst | hst
        · exact .inl (not_not.mp hst)
        · exact .inr (not_not.mp hst)
      have hfaults : (eatoneLoop (c :: d) i st p).1 = a.run c p := by
        rcases hdead with rfl | rfl
        · rw [eatoneLoop_fin ht]
        · rw [eatoneLoop_err ht]
      rw [hfaults]
      rw [← heval] at hdead
      exact ⟨.inl, fun hf => hf.resolve_right (not_faultIn_of_dead hdead d f)⟩

/-- **The faults of a call** are those of the control sequences in its input. -/
theorem fault_mem_iff (d : List UInt8) (p : Parser) (f : Fault) :
    f ∈ (eatone d p).1.faults ↔ ∃ w x, Control d w x ∧ f ∈ stepFaults w x := by
  show f ∈ (eatoneLoop d 0 .sta { p with faults := [] }).1.faults ↔ _
  rw [eatoneLoop_fault_iff .sta rfl]
  constructor
  · rintro (hf | ⟨v, x, rest, rfl, pre, w, hpre, hw, hv, hf⟩)
    · cases hf
    · rw [List.nil_append] at hv
      exact ⟨w, x, ⟨pre, rest, hpre, hw, by simp [hv]⟩, hf⟩
  · rintro ⟨w, x, ⟨pre, rest, hpre, hw, rfl⟩, hf⟩
    exact .inr ⟨pre ++ ESC :: 91 :: w, x, rest, by simp, pre, w, hpre, hw, rfl, hf⟩

/-! ### Stores to `argv` -/

/-- `d` has a control sequence that stores a ninth parameter: a semicolon ends
it, or the final byte while digits are pending. -/
def NinthParam (d : List UInt8) : Prop :=
  ∃ w x, Control d w x ∧ (x = 59 ∨ IsFinal x ∧ hasDigit w = true) ∧
    MAX_ANSISEQ_PARAMS ≤ w.count 59

/-- `d` has a parameter whose digits make a number that is no `int`. -/
def BigParam (d : List UInt8) : Prop :=
  ∃ w x, Control d w x ∧ IsDigit x ∧ INT_MAX < number (w ++ [x])

theorem Control.of_prefix {d d' w : List UInt8} {x : UInt8} (hd : d' <+: d)
    (h : Control d' w x) : Control d w x := by
  obtain ⟨e, rfl⟩ := hd
  obtain ⟨pre, rest, hpre, hw, rfl⟩ := h
  exact ⟨pre, rest ++ e, hpre, hw, by simp⟩

theorem argvStore_mem_iff (d : List UInt8) (p : Parser) :
    (∃ i, .argvStore i ∈ (eatone d p).1.faults) ↔ NinthParam d := by
  simp only [fault_mem_iff]
  constructor
  · rintro ⟨i, w, x, hc, hf⟩
    rcases List.mem_append.mp hf with hf | hf
    · split at hf
      · rename_i hcond
        exact ⟨w, x, hc, hcond⟩
      · cases hf
    · split at hf
      · cases List.mem_singleton.mp hf
      · cases hf
  · rintro ⟨w, x, hc, hcond⟩
    exact ⟨w.count 59, w, x, hc,
      List.mem_append_left _ (by rw [if_pos hcond]; exact List.mem_singleton_self _)⟩

theorem parmOverflow_mem_iff (d : List UInt8) (p : Parser) :
    (∃ v, .parmOverflow v ∈ (eatone d p).1.faults) ↔ BigParam d := by
  simp only [fault_mem_iff]
  constructor
  · rintro ⟨v, w, x, hc, hf⟩
    rcases List.mem_append.mp hf with hf | hf
    · split at hf
      · cases List.mem_singleton.mp hf
      · cases hf
    · split at hf
      · rename_i hcond
        exact ⟨w, x, hc, hcond⟩
      · cases hf
  · rintro ⟨w, x, hc, hcond⟩
    exact ⟨number (w ++ [x]), w, x, hc,
      List.mem_append_right _ (by rw [if_pos hcond]; exact List.mem_singleton_self _)⟩

/-- A call meets no fault but these two. -/
theorem faults_eq_nil_iff (d : List UInt8) (p : Parser) :
    (eatone d p).1.faults = [] ↔ ¬ NinthParam d ∧ ¬ BigParam d := by
  rw [← argvStore_mem_iff d p, ← parmOverflow_mem_iff d p, List.eq_nil_iff_forall_not_mem]
  constructor
  · exact fun h => ⟨fun ⟨i, hi⟩ => h _ hi, fun ⟨v, hv⟩ => h _ hv⟩
  · rintro ⟨hargv, hparm⟩ f hf
    obtain ⟨w, x, -, hstep⟩ := (fault_mem_iff d p f).mp hf
    rcases List.mem_append.mp hstep with hstep | hstep
    · split at hstep
      · rw [List.mem_singleton.mp hstep] at hf
        exact hargv ⟨_, hf⟩
      · cases hstep
    · split at hstep
      · rw [List.mem_singleton.mp hstep] at hf
        exact hparm ⟨_, hf⟩
      · cases hstep

/-- `argc` counts the elements of `argv` in use. -/
def ArgcInRange (p : Parser) : Prop :=
  0 ≤ p.curseq.argc ∧ p.curseq.argc ≤ MAX_ANSISEQ_PARAMS

/-- In range, as long as no store went astray. -/
def ArgcGuarded (p : Parser) : Prop := ArgcInRange p ∨ ∃ i, .argvStore i ∈ p.faults

theorem argcInRange_actBegin (p : Parser) : ArgcInRange (actBegin p) :=
  ⟨le_refl _, Int.natCast_nonneg _⟩

theorem storeArgv_guarded (v : ℤ) (h : ArgcGuarded p) : ArgcGuarded (storeArgv v p) := by
  rcases h with h | ⟨i, hi⟩
  · rw [storeArgv]
    split
    · rename_i hlt
      refine .inl ⟨?_, ?_⟩
      · show 0 ≤ p.curseq.argc + 1
        omega
      · show p.curseq.argc + 1 ≤ _
        omega
    · exact .inr ⟨p.curseq.argc, List.mem_append_right _ (List.mem_singleton_self _)⟩
  · exact .inr ⟨i, (storeArgv_faults v p).subset hi⟩

theorem actStor_guarded (c : UInt8) (h : ArgcGuarded p) : ArgcGuarded (actStor c p) := by
  unfold actStor
  split
  · exact storeArgv_guarded _ h
  · split
    · exact storeArgv_guarded _ h
    · exact h

theorem run_guarded (a : Act) (c : UInt8) (h : ArgcGuarded p) : ArgcGuarded (a.run c p) := by
  cases a with
  | nop => exact h
  | begin => exact .inl (argcInRange_actBegin p)
  | stor => exact actStor_guarded c h
  | mkctl =>
    show ArgcGuarded (actMkctl c p)
    unfold actMkctl
    split
    · exact actStor_guarded 0 h
    · exact h
  | mkpar => exact h.imp id fun ⟨i, hi⟩ => ⟨i, (run_faults .mkpar c p).subset hi⟩
  | mkstr =>
    show ArgcGuarded (actMkstr c p)
    unfold actMkstr
    dsimp only
    split <;> exact h
  | setcls => exact h
  | ext => exact h

theorem eatoneLoop_guarded (d : List UInt8) (i : ℕ) (st : St) (h : ArgcGuarded p) :
    ArgcGuarded (eatoneLoop d i st p).1 := by
  fun_induction eatoneLoop d i st p with
  | case1 => exact h
  | case2 => exact h
  | case3 => exact run_guarded _ _ h
  | case4 => exact run_guarded _ _ h
  | case5 c d i st p st' a ht p' herr hfin ih => exact ih (run_guarded a c h)

/-- The escape character puts `argc` in range, whatever it was before. -/
theorem eatone_guarded {d : List UInt8} (h : d.head? = some ESC ∨ ArgcInRange p) :
    ArgcGuarded (eatone d p).1 := by
  rcases h with h | h
  · obtain ⟨d, rfl⟩ : ∃ d', d = ESC :: d' := ⟨d.tail, List.eq_cons_of_mem_head? h⟩
    show ArgcGuarded (eatoneLoop d 1 .esc (actBegin { p with faults := [] })).1
    exact eatoneLoop_guarded d 1 .esc (.inl (argcInRange_actBegin _))
  · exact eatoneLoop_guarded d 0 .sta (.inl h)

/-- In every step of the call, that is after each prefix of the input, all stores
so far went to elements of `argv`, and `argc` is in range if it was before the
call or the sequence has begun. -/
def StoresInside (d : List UInt8) (p : Parser) : Prop :=
  ∀ d', d' <+: d → (∀ i, .argvStore i ∉ (eatone d' p).1.faults) ∧
    (d'.head? = some ESC ∨ ArgcInRange p → ArgcInRange (eatone d' p).1)

/-- **The stores stay inside `argv` unless a ninth parameter is stored.** -/
theorem storesInside_iff (d : List UInt8) (p : Parser) : StoresInside d p ↔ ¬ NinthParam d := by
  constructor
  · intro h hninth
    obtain ⟨i, hi⟩ := (argvStore_mem_iff d p).mpr hninth
    exact (h d (List.prefix_refl _)).1 i hi
  · intro h d' hd'
    -- a control sequence of the prefix is one of the input
    have hnone : ∀ i, .argvStore i ∉ (eatone d' p).1.faults := by
      intro i hi
      obtain ⟨w, x, hc, hcond⟩ := (argvStore_mem_iff d' p).mp ⟨i, hi⟩
      exact h ⟨w, x, hc.of_prefix hd', hcond⟩
    refine ⟨hnone, fun hstart => ?_⟩
    rcases eatone_guarded hstart with hrange | ⟨i, hi⟩
    · exact hrange
    · exact absurd hi (hnone i)

/-- Nine semicolons: the ninth is stored to `argv[8]`. -/
theorem not_storesInside_nine :
    ¬ StoresInside (ESC :: 91 :: (List.replicate 9 59 ++ [109])) parser₀ := by
  intro h
  exact (h _ (List.prefix_refl _)).1 8 (by decide +kernel)

/-! ### The language that is recognised -/

theorem two_le_length_of_mem {x : List UInt8} (h : x ∈ sequence) : 2 ≤ x.length := by
  obtain ⟨pre, -, y, hy, rfl⟩ := Language.mem_mul.mp h
  obtain ⟨_, ⟨c, -, rfl⟩, b, hb, rfl⟩ := Language.mem_mul.mp hy
  have : b.length ≠ 0 := by
    rcases mem_body.mp hb with ⟨c, -, rfl⟩ | ⟨w, f, -, -, rfl⟩ | ⟨h, c, -, -, rfl⟩ |
      ⟨w, t, -, -, rfl⟩ <;> simp
  simp only [List.length_append, List.length_singleton]
  omega

/-- `eatone` recognises exactly its language on the input `d`. -/
structure Recognises (d : List UInt8) (p : Parser) : Prop where
  some_iff : ∀ n, (eatone d p).2 = .ok (some n) ↔ ShortestPrefix sequence n d
  none_iff : (eatone d p).2 = .ok none ↔ Unfinished sequence d
  panic_iff : (∃ e, (eatone d p).2 = .error (.panic e)) ↔ Malformed sequence d
  stable : ∀ n, (eatone d p).2 = .ok (some n) →
    2 ≤ n ∧ n ≤ d.length ∧ ∀ e, (eatone (d ++ e) p).2 = .ok (some n)
  row : ∀ r, (eatone d p).2 ≠ .error (.undefined (.tableRow r))

/-- The loop, without regard to faults, gives the answer the language asks for. -/
theorem eatoneLoop_language (d : List UInt8) (p : Parser) :
    (∃ n, (eatoneLoop d 0 .sta p).2 = .ok (some n) ∧ ShortestPrefix sequence n d) ∨
    ((eatoneLoop d 0 .sta p).2 = .ok none ∧ Unfinished sequence d) ∨
    ((∃ e, (eatoneLoop d 0 .sta p).2 = .error (.panic e)) ∧ Malformed sequence d) := by
  have hsta : table.start = .sta := rfl
  have hacc := Recognizer.verdict_accepted_iff (R := table) d
  have hpend := Recognizer.verdict_pending_iff (R := table) d
  have hrej := Recognizer.verdict_rejected_iff (R := table) d
  rw [accepts_eq_sequence, hsta] at hacc hpend hrej
  rcases eatoneLoop_verdict .sta (by decide) (by decide) d 0 p with ⟨n, hv, hr⟩ | ⟨hv, hr⟩ |
    ⟨n, c, k, hv, hr⟩
  · exact .inl ⟨n, by simpa using hr, (hacc n).mp hv⟩
  · exact .inr (.inl ⟨hr, hpend.mp hv⟩)
  · exact .inr (.inr ⟨⟨_, hr⟩, hrej.mp ⟨n, hv⟩⟩)

/-- A call without faults and with a length that can be returned. -/
theorem recognises_of_no_fault {d : List UInt8} {p : Parser} (hf : (eatone d p).1.faults = [])
    (hlen : ∀ n, ShortestPrefix sequence n d → (n : ℤ) ≤ INT_MAX) : Recognises d p := by
  have hsettle : (eatone d p).2 = (eatoneLoop d 0 .sta { p with faults := [] }).2 := by
    show settle (eatone d p).1.faults _ = _
    rw [hf]
    rcases eatoneLoop_language d { p with faults := [] } with ⟨n, hr, hs⟩ | ⟨hr, -⟩ |
      ⟨⟨e, hr⟩, -⟩
    · rw [hr, settle_nil_some (hlen n hs)]
    · rw [hr]
      rfl
    · rw [hr]
      rfl
  have hlanguage := eatoneLoop_language d { p with faults := [] }
  rw [← hsettle] at hlanguage
  obtain ⟨hsome, hnone, hpanic⟩ := outcome_iff hlanguage (by
    rintro ⟨e, he⟩ o ho
    rw [he] at ho
    cases ho)
  refine ⟨hsome, hnone, hpanic, fun n hr => ?_, fun r hr => ?_⟩
  · have hs := (hsome n).mp hr
    have h2 := two_le_length_of_mem hs.2.1
    rw [List.length_take] at h2
    exact ⟨by omega, hs.1, eatone_append_of_some hr⟩
  · -- each of the three answers is defined
    rw [hr] at hlanguage
    rcases hlanguage with ⟨n, hn, -⟩ | ⟨hn, -⟩ | ⟨⟨e, he⟩, -⟩
    · cases hn
    · cases hn
    · cases he

/-- **`eatone` recognises its language exactly when** no ninth parameter is
stored, no parameter is too big and the length of the sequence is an `int`. -/
theorem recognises_iff (d : List UInt8) (p : Parser) : Recognises d p ↔
    ¬ NinthParam d ∧ ¬ BigParam d ∧ ∀ n, ShortestPrefix sequence n d → (n : ℤ) ≤ INT_MAX := by
  rw [← and_assoc, ← faults_eq_nil_iff d p]
  constructor
  · intro h
    -- each answer of the language is a defined one
    have hdefined : ∀ f, (eatone d p).2 ≠ .error (.undefined f) := by
      intro f hundef
      rcases eatoneLoop_language d p with ⟨n, -, hs⟩ | ⟨-, hu⟩ | ⟨-, hm⟩
      · have := (h.some_iff n).mpr hs
        rw [hundef] at this
        cases this
      · have := h.none_iff.mpr hu
        rw [hundef] at this
        cases this
      · obtain ⟨e, he⟩ := h.panic_iff.mpr hm
        rw [hundef] at he
        cases he
    refine ⟨?_, fun n hs => ?_⟩
    · rcases hf : (eatone d p).1.faults with _ | ⟨f, fs⟩
      · rfl
      · refine absurd ?_ (hdefined f)
        show settle (eatone d p).1.faults _ = _
        rw [hf, settle_cons]
    · obtain ⟨_, -, -, hn⟩ := eatone_some_iff.mp ((h.some_iff n).mpr hs)
      exact hn
  · rintro ⟨hf, hlen⟩
    exact recognises_of_no_fault hf hlen

/-- Ten semicolons and a final byte are in the language, but no length is returned for them:
the ninth parameter is stored over `argc`. -/
theorem not_recognises_ten :
    ¬ Recognises (ESC :: 91 :: (List.replicate 10 59 ++ [109])) parser₀ := by
  intro h
  have hverdict : table.verdict .sta (ESC :: 91 :: (List.replicate 10 59 ++ [109]))
      = .accepted 13 := by decide +kernel
  have hshort := (Recognizer.verdict_accepted_iff (R := table) _ _).mp hverdict
  rw [accepts_eq_sequence] at hshort
  have hres := (h.some_iff 13).mpr hshort
  have hundef : (eatone (ESC :: 91 :: (List.replicate 10 59 ++ [109])) parser₀).2
      = .error (.undefined (.argvStore 8)) := by rfl
  rw [hundef] at hres
  cases hres

end Swh.Ansiseq
