/-
The language of the escape sequence eater.

`body` is the grammar of what follows the escape character and `sequence` that
of what `eatone` eats: any number of sequences broken off by a new escape
character, then a complete one.  The table accepts exactly this language
(`accepts_eq_sequence`, by Arden's lemma on the equations of its rows), and
`eatoneLoop` gives the verdict of the table (`eatoneLoop_verdict`).
-/
import Swh.AnsiseqStable
import Swh.Lib.Recognizer
import Mathlib.Tactic.Abel
import Mathlib.Tactic.NthRewrite
import Mathlib.Data.Nat.Cast.Basic
import Mathlib.Algebra.Order.Ring.Int

open scoped Computability

namespace Swh.Ansiseq

/-! ### Classes of bytes -/

/-- `[0-9]` -/
def IsDigit (c : UInt8) : Prop := 48 ≤ c.toNat ∧ c.toNat ≤ 57

/-- `[A-Za-z<=>]` -/
def IsFinal (c : UInt8) : Prop :=
  (65 ≤ c.toNat ∧ c.toNat ≤ 90) ∨ (97 ≤ c.toNat ∧ c.toNat ≤ 122) ∨
    (60 ≤ c.toNat ∧ c.toNat ≤ 62)

/-- `[0-9;?]` -/
def IsParam (c : UInt8) : Prop := IsDigit c ∨ c.toNat = 59 ∨ c.toNat = 63

/-- `#`, `(` or `)` -/
def IsHashParen (c : UInt8) : Prop := c.toNat = 35 ∨ c.toNat = 40 ∨ c.toNat = 41

/-- A string terminator: a byte of class `T_BELL` or `T_STRM`. -/
def IsTerminator (c : UInt8) : Prop := mktok c = .bell ∨ mktok c = .strm

instance : DecidablePred IsDigit := fun c => by unfold IsDigit; infer_instance
instance : DecidablePred IsFinal := fun c => by unfold IsFinal; infer_instance
instance : DecidablePred IsParam := fun c => by unfold IsParam; infer_instance
instance : DecidablePred IsHashParen := fun c => by unfold IsHashParen; infer_instance
instance : DecidablePred IsTerminator := fun c => by unfold IsTerminator; infer_instance

/-! ### The grammar -/

/-- The escape character. -/
def esc : Language UInt8 := oneOf (· = ESC)

/-- What follows the escape character in a complete sequence. -/
def body : Language UInt8 :=
  oneOf (fun c => IsFinal c ∨ IsDigit c)
    + oneOf (·.toNat = 91) * (oneOf IsParam)∗ * oneOf IsFinal
    + oneOf IsHashParen * oneOf (fun c => IsFinal c ∨ IsDigit c)
    + oneOf (·.toNat = 93) * (oneOf fun c => c ≠ ESC ∧ ¬ IsTerminator c)∗ * oneOf IsTerminator

/-- The proper prefixes of the words of `l`. -/
def properPrefixes (l : Language UInt8) : Language UInt8 := {p | ∃ b ∈ l, p <+: b ∧ p ≠ b}

/-- Any number of sequences that were broken off, and a complete one. -/
def sequence : Language UInt8 := (esc * properPrefixes body)∗ * (esc * body)

/-! ### The classifier, by byte value -/

/-- The class of the byte with value `n`; no byte is of class `T_STRM`. -/
def classify (n : ℕ) : Tok :=
  if n = 0 then .rest
  else if 48 ≤ n ∧ n ≤ 57 then .ndig
  else if (65 ≤ n ∧ n ≤ 90) ∨ (97 ≤ n ∧ n ≤ 122) ∨ (60 ≤ n ∧ n ≤ 62) then .cchr
  else if n = 27 then .escp
  else if n = 7 then .bell
  else if n = 35 then .hash
  else if n = 40 then .oprn
  else if n = 41 then .cprn
  else if n = 91 then .osqb
  else if n = 93 then .csqb
  else if n = 63 then .qmrk
  else if n = 59 then .smcl
  else .rest

theorem mem_CCHRS (c : UInt8) : c ∈ CCHRS ↔
    (65 ≤ c.toNat ∧ c.toNat ≤ 90) ∨ (97 ≤ c.toNat ∧ c.toNat ≤ 122) ∨
      (60 ≤ c.toNat ∧ c.toNat ≤ 62) := by
  have hmap : CCHRS.map UInt8.toNat
      = List.range' 65 26 ++ List.range' 97 26 ++ List.range' 60 3 := by rfl
  have hmem : c ∈ CCHRS ↔ c.toNat ∈ CCHRS.map UInt8.toNat := by
    rw [List.mem_map]
    constructor
    · exact fun h => ⟨c, h, rfl⟩
    · rintro ⟨d, hd, h⟩
      rwa [← UInt8.toNat_inj.mp h]
  rw [hmem, hmap]
  simp only [List.mem_append, List.mem_range'_1]
  omega

theorem mktok_eq (c : UInt8) : mktok c = classify c.toNat := by
  -- the constant '\234' is negative, so no byte equals it
  have hstrm : ¬ ((c.toNat : ℤ) = charConst 0x9C) := by
    have : charConst 0x9C = -100 := rfl
    omega
  simp only [mktok, mem_CCHRS, isdigit, if_neg hstrm, Bool.and_eq_true, decide_eq_true_eq]
  rw [show charConst 0x1B = ((27 : ℕ) : ℤ) from rfl, show charConst 0x07 = ((7 : ℕ) : ℤ) from rfl,
    show charConst 0x23 = ((35 : ℕ) : ℤ) from rfl, show charConst 0x28 = ((40 : ℕ) : ℤ) from rfl,
    show charConst 0x29 = ((41 : ℕ) : ℤ) from rfl, show charConst 0x5B = ((91 : ℕ) : ℤ) from rfl,
    show charConst 0x5D = ((93 : ℕ) : ℤ) from rfl, show charConst 0x3F = ((63 : ℕ) : ℤ) from rfl,
    show charConst 0x3B = ((59 : ℕ) : ℤ) from rfl]
  simp only [Nat.cast_inj, Nat.cast_eq_zero]
  rfl

theorem mktok_escp (c : UInt8) : mktok c = .escp ↔ c = ESC := by
  have h : ∀ n < 256, classify n = .escp ↔ n = 27 := by decide +kernel
  rw [mktok_eq, h _ c.toNat_lt, ← UInt8.toNat_inj]
  rfl

theorem mktok_cchr (c : UInt8) : mktok c = .cchr ↔ IsFinal c := by
  have h : ∀ n < 256, classify n = .cchr ↔
      (65 ≤ n ∧ n ≤ 90) ∨ (97 ≤ n ∧ n ≤ 122) ∨ (60 ≤ n ∧ n ≤ 62) := by decide +kernel
  rw [mktok_eq, h _ c.toNat_lt, IsFinal]

theorem mktok_ndig (c : UInt8) : mktok c = .ndig ↔ IsDigit c := by
  have h : ∀ n < 256, classify n = .ndig ↔ 48 ≤ n ∧ n ≤ 57 := by decide +kernel
  rw [mktok_eq, h _ c.toNat_lt, IsDigit]

theorem mktok_smcl (c : UInt8) : mktok c = .smcl ↔ c.toNat = 59 := by
  have h : ∀ n < 256, classify n = .smcl ↔ n = 59 := by decide +kernel
  rw [mktok_eq, h _ c.toNat_lt]

theorem mktok_qmrk (c : UInt8) : mktok c = .qmrk ↔ c.toNat = 63 := by
  have h : ∀ n < 256, classify n = .qmrk ↔ n = 63 := by decide +kernel
  rw [mktok_eq, h _ c.toNat_lt]

theorem mktok_osqb (c : UInt8) : mktok c = .osqb ↔ c.toNat = 91 := by
  have h : ∀ n < 256, classify n = .osqb ↔ n = 91 := by decide +kernel
  rw [mktok_eq, h _ c.toNat_lt]

theorem mktok_csqb (c : UInt8) : mktok c = .csqb ↔ c.toNat = 93 := by
  have h : ∀ n < 256, classify n = .csqb ↔ n = 93 := by decide +kernel
  rw [mktok_eq, h _ c.toNat_lt]

theorem mktok_hashParen (c : UInt8) :
    (mktok c = .hash ∨ mktok c = .oprn ∨ mktok c = .cprn) ↔ IsHashParen c := by
  have h : ∀ n < 256, (classify n = .hash ∨ classify n = .oprn ∨ classify n = .cprn) ↔
      n = 35 ∨ n = 40 ∨ n = 41 := by decide +kernel
  rw [mktok_eq, h _ c.toNat_lt, IsHashParen]

theorem mktok_param (c : UInt8) :
    (mktok c = .ndig ∨ mktok c = .smcl ∨ mktok c = .qmrk) ↔ IsParam c := by
  rw [mktok_ndig, mktok_smcl, mktok_qmrk, IsParam]

/-! ### The table as a recognizer -/

/-- The state column of the table. -/
def nextSt (st : St) (c : UInt8) : St :=
  match transition st (mktok c) with
  | some (st', _) => st'
  | none => .err

/-- The table, without its actions. -/
def table : Recognizer UInt8 St where
  step := nextSt
  start := .sta
  fin := .fin
  dead := .err
  start_ne_fin := by decide
  start_ne_dead := by decide
  fin_ne_dead := by decide
  step_fin _ := rfl
  step_dead _ := rfl
  live st hst := by
    cases st with
    | sta => exact ⟨[ESC, 65], by decide +kernel⟩
    | esc => exact ⟨[65], by decide +kernel⟩
    | csi => exact ⟨[65], by decide +kernel⟩
    | sqc => exact ⟨[7], by decide +kernel⟩
    | pph => exact ⟨[65], by decide +kernel⟩
    | fin => exact ⟨[], rfl⟩
    | err => exact absurd rfl hst

/-- What is accepted from a state. -/
abbrev Accepts (st : St) : Language UInt8 := table.toDFA.acceptsFrom st

theorem cons_mem_accepts {st : St} {c : UInt8} {x : List UInt8} :
    c :: x ∈ Accepts st ↔ x ∈ Accepts (nextSt st c) := Iff.rfl

theorem nil_mem_accepts {st : St} : [] ∈ Accepts st ↔ st = .fin := Iff.rfl

theorem mem_accepts_fin {x : List UInt8} : x ∈ Accepts .fin ↔ x = [] :=
  Recognizer.evalFrom_fin_eq_fin (R := table)

theorem notMem_accepts_err (x : List UInt8) : x ∉ Accepts .err := by
  intro hx
  have := (Recognizer.evalFrom_dead (R := table) x).symm.trans hx
  cases this

/-! ### One equation for each row -/

theorem accepts_sta : Accepts .sta = esc * Accepts .esc := by
  ext x
  rcases x with _ | ⟨c, x⟩
  · simp [nil_mem_accepts, esc, nil_notMem_oneOf_mul]
  · rw [cons_mem_accepts, esc, cons_mem_oneOf_mul, ← mktok_escp]
    cases hc : mktok c <;>
      simp [nextSt, transition, delta, St.code, Tok.code, hc, notMem_accepts_err]

theorem accepts_csi :
    Accepts .csi = oneOf IsParam * Accepts .csi + (esc * Accepts .esc + oneOf IsFinal) := by
  ext x
  rw [Language.mem_add, Language.mem_add]
  rcases x with _ | ⟨c, x⟩
  · simp [nil_mem_accepts, esc, nil_notMem_oneOf_mul, nil_notMem_oneOf]
  · rw [cons_mem_accepts, esc, cons_mem_oneOf_mul, cons_mem_oneOf_mul, cons_mem_oneOf,
      ← mktok_escp, ← mktok_cchr, ← mktok_param]
    cases hc : mktok c <;>
      simp [nextSt, transition, delta, St.code, Tok.code, hc, notMem_accepts_err,
        mem_accepts_fin]

theorem accepts_sqc : Accepts .sqc
    = oneOf (fun c => c ≠ ESC ∧ ¬ IsTerminator c) * Accepts .sqc
      + (esc * Accepts .esc + oneOf IsTerminator) := by
  ext x
  rw [Language.mem_add, Language.mem_add]
  rcases x with _ | ⟨c, x⟩
  · simp [nil_mem_accepts, esc, nil_notMem_oneOf_mul, nil_notMem_oneOf]
  · rw [cons_mem_accepts, esc, cons_mem_oneOf_mul, cons_mem_oneOf_mul, cons_mem_oneOf,
      IsTerminator, Ne, ← mktok_escp]
    cases hc : mktok c <;>
      simp [nextSt, transition, delta, St.code, Tok.code, hc, mem_accepts_fin]

theorem accepts_pph :
    Accepts .pph = esc * Accepts .esc + oneOf (fun c => IsFinal c ∨ IsDigit c) := by
  ext x
  rw [Language.mem_add]
  rcases x with _ | ⟨c, x⟩
  · simp [nil_mem_accepts, esc, nil_notMem_oneOf_mul, nil_notMem_oneOf]
  · rw [cons_mem_accepts, esc, cons_mem_oneOf_mul, cons_mem_oneOf, ← mktok_escp, ← mktok_cchr,
      ← mktok_ndig]
    cases hc : mktok c <;>
      simp [nextSt, transition, delta, St.code, Tok.code, hc, notMem_accepts_err,
        mem_accepts_fin]

theorem accepts_esc : Accepts .esc
    = esc * Accepts .esc + oneOf (fun c => IsFinal c ∨ IsDigit c)
      + oneOf (·.toNat = 91) * Accepts .csi + oneOf IsHashParen * Accepts .pph
      + oneOf (·.toNat = 93) * Accepts .sqc := by
  ext x
  rw [Language.mem_add, Language.mem_add, Language.mem_add, Language.mem_add]
  rcases x with _ | ⟨c, x⟩
  · simp [nil_mem_accepts, esc, nil_notMem_oneOf_mul, nil_notMem_oneOf]
  · rw [cons_mem_accepts, esc, cons_mem_oneOf_mul, cons_mem_oneOf_mul, cons_mem_oneOf_mul,
      cons_mem_oneOf_mul, cons_mem_oneOf, ← mktok_escp, ← mktok_cchr, ← mktok_ndig,
      ← mktok_osqb, ← mktok_csqb, ← mktok_hashParen]
    cases hc : mktok c <;>
      simp [nextSt, transition, delta, St.code, Tok.code, hc, notMem_accepts_err,
        mem_accepts_fin]

/-! ### Unfinished bodies -/

theorem toNat_eq_iff {c : UInt8} {n : ℕ} (hn : n < 256) : c.toNat = n ↔ c = UInt8.ofNat n := by
  rw [← UInt8.toNat_inj, UInt8.toNat_ofNat', Nat.mod_eq_of_lt hn]

theorem mem_body {b : List UInt8} : b ∈ body ↔
    (∃ c, (IsFinal c ∨ IsDigit c) ∧ b = [c]) ∨
    (∃ w f, (∀ c ∈ w, IsParam c) ∧ IsFinal f ∧ b = 91 :: (w ++ [f])) ∨
    (∃ h c, IsHashParen h ∧ (IsFinal c ∨ IsDigit c) ∧ b = [h, c]) ∨
    (∃ w t, (∀ c ∈ w, c ≠ ESC ∧ ¬ IsTerminator c) ∧ IsTerminator t ∧ b = 93 :: (w ++ [t])) := by
  rw [body, Language.mem_add, Language.mem_add, Language.mem_add, or_assoc, or_assoc]
  refine or_congr Iff.rfl (or_congr ?_ (or_congr ?_ ?_))
  · simp only [Language.mem_mul, mem_kstar_oneOf]
    constructor
    · rintro ⟨_, ⟨_, ⟨c, hc, rfl⟩, w, hw, rfl⟩, _, ⟨f, hf, rfl⟩, rfl⟩
      obtain rfl := (toNat_eq_iff (by decide)).mp hc
      exact ⟨w, f, hw, hf, by simp⟩
    · rintro ⟨w, f, hw, hf, rfl⟩
      exact ⟨91 :: w, ⟨[91], ⟨91, rfl, rfl⟩, w, hw, rfl⟩, [f], ⟨f, hf, rfl⟩, by simp⟩
  · simp only [Language.mem_mul]
    constructor
    · rintro ⟨_, ⟨h, hh, rfl⟩, _, ⟨c, hc, rfl⟩, rfl⟩
      exact ⟨h, c, hh, hc, rfl⟩
    · rintro ⟨h, c, hh, hc, rfl⟩
      exact ⟨[h], ⟨h, hh, rfl⟩, [c], ⟨c, hc, rfl⟩, rfl⟩
  · simp only [Language.mem_mul, mem_kstar_oneOf]
    constructor
    · rintro ⟨_, ⟨_, ⟨c, hc, rfl⟩, w, hw, rfl⟩, _, ⟨t, ht, rfl⟩, rfl⟩
      obtain rfl := (toNat_eq_iff (by decide)).mp hc
      exact ⟨w, t, hw, ht, by simp⟩
    · rintro ⟨w, t, hw, ht, rfl⟩
      exact ⟨93 :: w, ⟨[93], ⟨93, rfl, rfl⟩, w, hw, rfl⟩, [t], ⟨t, ht, rfl⟩, by simp⟩

/-- The bodies that are broken off: nothing at all, or what one of the three
longer forms starts with. -/
theorem mem_properPrefixes_body {p : List UInt8} : p ∈ properPrefixes body ↔
    p = [] ∨ (∃ w, (∀ c ∈ w, IsParam c) ∧ p = 91 :: w) ∨ (∃ h, IsHashParen h ∧ p = [h]) ∨
    (∃ w, (∀ c ∈ w, c ≠ ESC ∧ ¬ IsTerminator c) ∧ p = 93 :: w) := by
  constructor
  · rintro ⟨b, hb, hpre, hne⟩
    rcases p with _ | ⟨a, p⟩
    · exact .inl rfl
    · rcases mem_body.mp hb with ⟨c, -, rfl⟩ | ⟨w, f, hw, -, rfl⟩ | ⟨h, c, hh, -, rfl⟩ |
        ⟨w, t, hw, -, rfl⟩
      · obtain ⟨rfl, hnil⟩ := List.cons_prefix_cons.mp hpre
        rw [List.prefix_nil.mp hnil] at hne
        exact absurd rfl hne
      · obtain ⟨rfl, hpw⟩ := List.cons_prefix_cons.mp hpre
        rcases List.prefix_concat_iff.mp hpw with rfl | hpw
        · exact absurd rfl hne
        · exact .inr (.inl ⟨p, fun c hc => hw c (hpw.subset hc), rfl⟩)
      · obtain ⟨rfl, hpc⟩ := List.cons_prefix_cons.mp hpre
        rcases p with _ | ⟨x, p⟩
        · exact .inr (.inr (.inl ⟨a, hh, rfl⟩))
        · obtain ⟨rfl, hnil⟩ := List.cons_prefix_cons.mp hpc
          rw [List.prefix_nil.mp hnil] at hne
          exact absurd rfl hne
      · obtain ⟨rfl, hpw⟩ := List.cons_prefix_cons.mp hpre
        rcases List.prefix_concat_iff.mp hpw with rfl | hpw
        · exact absurd rfl hne
        · exact .inr (.inr (.inr ⟨p, fun c hc => hw c (hpw.subset hc), rfl⟩))
  · have hA : IsFinal 65 := by decide
    have hbell : IsTerminator 7 := by decide +kernel
    rintro (rfl | ⟨w, hw, rfl⟩ | ⟨h, hh, rfl⟩ | ⟨w, hw, rfl⟩)
    · exact ⟨[65], mem_body.mpr (.inl ⟨65, .inl hA, rfl⟩), List.nil_prefix, by simp⟩
    · exact ⟨91 :: (w ++ [65]), mem_body.mpr (.inr (.inl ⟨w, 65, hw, hA, rfl⟩)),
        List.cons_prefix_cons.mpr ⟨rfl, List.prefix_append _ _⟩, by simp⟩
    · exact ⟨[h, 65], mem_body.mpr (.inr (.inr (.inl ⟨h, 65, hh, .inl hA, rfl⟩))),
        List.prefix_append [h] [65], by simp⟩
    · exact ⟨93 :: (w ++ [7]), mem_body.mpr (.inr (.inr (.inr ⟨w, 7, hw, hbell, rfl⟩))),
        List.cons_prefix_cons.mpr ⟨rfl, List.prefix_append _ _⟩, by simp⟩

theorem properPrefixes_body : properPrefixes body
    = 1 + oneOf (·.toNat = 91) * (oneOf IsParam)∗ + oneOf IsHashParen
      + oneOf (·.toNat = 93) * (oneOf fun c => c ≠ ESC ∧ ¬ IsTerminator c)∗ := by
  ext p
  rw [mem_properPrefixes_body, Language.mem_add, Language.mem_add, Language.mem_add,
    Language.mem_one, or_assoc, or_assoc]
  refine or_congr Iff.rfl (or_congr ?_ (or_congr Iff.rfl ?_))
  -- the two forms that take any number of bytes differ only in their classes
  all_goals
    rcases p with _ | ⟨c, p⟩
    · simp [nil_notMem_oneOf_mul]
    · rw [cons_mem_oneOf_mul, mem_kstar_oneOf, toNat_eq_iff (by decide)]
      constructor
      · rintro ⟨w, hw, h⟩
        cases h
        exact ⟨rfl, hw⟩
      · rintro ⟨rfl, hw⟩
        exact ⟨p, hw, rfl⟩

/-- **The table accepts the language of the grammar.** -/
theorem accepts_eq_sequence : table.toDFA.accepts = sequence := by
  -- `S_CSI` and `S_SQC` refer to themselves and are solved first
  have hcsi := (Language.self_eq_mul_add_iff nil_notMem_oneOf).mp accepts_csi
  have hsqc := (Language.self_eq_mul_add_iff nil_notMem_oneOf).mp accepts_sqc
  have hbody : Accepts .esc = properPrefixes body * Accepts .sta + body := by
    rw [properPrefixes_body, body, accepts_sta]
    nth_rewrite 1 [accepts_esc]
    rw [hcsi, hsqc, accepts_pph]
    simp only [mul_add, add_mul, mul_assoc, one_mul]
    abel
  -- what is left is one equation for the starting state
  have hnil : [] ∉ esc * properPrefixes body := nil_notMem_oneOf_mul
  refine (Language.self_eq_mul_add_iff hnil).mp ?_
  show Accepts .sta = esc * properPrefixes body * Accepts .sta + esc * body
  nth_rewrite 1 [accepts_sta]
  rw [hbody, mul_add, mul_assoc]

/-- The table has a row for every state the loop goes on in. -/
theorem transition_of_live {st : St} (hfin : st ≠ .fin) (herr : st ≠ .err) (t : Tok) :
    ∃ st' a, transition st t = some (st', a) := by
  cases st <;> cases t <;>
    first
    | exact absurd rfl hfin
    | exact absurd rfl herr
    | exact ⟨_, _, rfl⟩

theorem step_of_transition {st st' : St} {c : UInt8} {a : Act}
    (ht : transition st (mktok c) = some (st', a)) : table.step st c = st' := by
  show nextSt st c = st'
  rw [nextSt, ht]

theorem eval_of_transition {q : List UInt8} {st st' : St} {c : UInt8} {a : Act}
    (hq : table.toDFA.eval q = st) (ht : transition st (mktok c) = some (st', a)) :
    table.toDFA.eval (q ++ [c]) = st' := by
  rw [DFA.eval_append_singleton, hq]
  exact step_of_transition ht

/-- A run of the loop that is not over yet reports the verdict of the table. -/
theorem eatoneLoop_verdict (st : St) (hfin : st ≠ .fin) (herr : st ≠ .err) (d : List UInt8)
    (i : ℕ) (p : Parser) :
    (∃ n, table.verdict st d = .accepted n ∧
      (eatoneLoop d i st p).2 = .ok (some (i + n))) ∨
    (table.verdict st d = .pending ∧ (eatoneLoop d i st p).2 = .ok none) ∨
    (∃ n c prevst, table.verdict st d = .rejected n ∧
      (eatoneLoop d i st p).2 = .error (.panic (.ansiseq c (i + n) prevst))) := by
  induction d generalizing i st p with
  | nil => exact .inr (.inl ⟨rfl, rfl⟩)
  | cons c d ih =>
    obtain ⟨st', a, ht⟩ := transition_of_live hfin herr (mktok c)
    rw [Recognizer.verdict, step_of_transition ht]
    by_cases herr' : st' = .err
    · refine .inr (.inr ⟨1, c, st.code, if_pos herr', ?_⟩)
      rw [eatoneLoop_err (herr' ▸ ht)]
    · rw [if_neg (show ¬ st' = table.dead from herr')]
      by_cases hfin' : st' = .fin
      · refine .inl ⟨1, if_pos hfin', ?_⟩
        rw [eatoneLoop_fin (hfin' ▸ ht)]
      · rw [if_neg (show ¬ st' = table.fin from hfin'), eatoneLoop_next ht herr' hfin']
        rcases ih _ hfin' herr' (i + 1) (a.run c p) with ⟨n, hv, hr⟩ | ⟨hv, hr⟩ |
          ⟨n, c', k, hv, hr⟩
        · exact .inl ⟨n + 1, by rw [hv]; rfl, by rw [hr, Nat.add_assoc, Nat.add_comm 1]⟩
        · exact .inr (.inl ⟨by rw [hv]; rfl, hr⟩)
        · exact .inr (.inr ⟨n + 1, c', k, by rw [hv]; rfl,
            by rw [hr, Nat.add_assoc, Nat.add_comm 1]⟩)

end Swh.Ansiseq
