/-
The escape sequence eater never takes an answer back.

* `eatone_indep` — the answer does not depend on what earlier calls left in the
  parser, since the first byte of every sequence starts it afresh;
* `eatone_append_of_some`, `eatone_append_of_error` — bytes behind a complete or
  a malformed sequence do not matter;
* `eatone_take_of_some` — nor does anything behind its last byte.
-/
import Swh.Ansiseq
import Mathlib.Data.List.Infix

namespace Swh.Ansiseq

variable {d : List UInt8} {i n : ℕ} {st : St} {p q : Parser} {e : Stop}

/-! ### Faults accumulate -/

theorem storeArgv_faults (v : ℤ) (p : Parser) : p.faults <+: (storeArgv v p).faults := by
  rw [storeArgv]
  split
  · exact List.prefix_refl _
  · exact List.prefix_append _ _

theorem actStor_faults (c : UInt8) (p : Parser) : p.faults <+: (actStor c p).faults := by
  rw [actStor]
  dsimp only
  split
  · exact storeArgv_faults _ p
  · split
    · exact storeArgv_faults _ p
    · exact List.prefix_refl _

theorem run_faults (a : Act) (c : UInt8) (p : Parser) : p.faults <+: (a.run c p).faults := by
  cases a with
  | nop => exact List.prefix_refl _
  | begin => exact List.prefix_refl _
  | stor => exact actStor_faults c p
  | mkctl =>
    show p.faults <+: (if p.gotparm = true then actStor 0 p else p).faults
    split
    · exact actStor_faults 0 p
    · exact List.prefix_refl _
  | mkpar =>
    show p.faults <+: (actMkpar c p).faults
    rw [actMkpar]
    dsimp only
    split
    · exact List.prefix_refl _
    · exact List.prefix_append _ _
  | mkstr =>
    show p.faults <+: (actMkstr c p).faults
    rw [actMkstr]
    dsimp only
    split <;> exact List.prefix_refl _
  | setcls => exact List.prefix_refl _
  | ext => exact List.prefix_refl _

theorem eatoneLoop_faults (d : List UInt8) (i : ℕ) (st : St) (p : Parser) :
    p.faults <+: (eatoneLoop d i st p).1.faults := by
  fun_induction eatoneLoop d i st p with
  | case1 => exact List.prefix_refl _
  | case2 => exact List.prefix_refl _
  | case3 => exact run_faults _ _ _
  | case4 => exact run_faults _ _ _
  | case5 c d i st p st' a ht p' herr hfin ih => exact (run_faults a c p).trans ih

/-! ### One byte -/

theorem eatoneLoop_fin {st : St} {c : UInt8} {a : Act}
    (ht : transition st (mktok c) = some (.fin, a)) (d : List UInt8) (i : ℕ) (p : Parser) :
    eatoneLoop (c :: d) i st p = (a.run c p, .ok (some (i + 1))) := by
  rw [eatoneLoop, ht]
  rfl

theorem eatoneLoop_err {st : St} {c : UInt8} {a : Act}
    (ht : transition st (mktok c) = some (.err, a)) (d : List UInt8) (i : ℕ) (p : Parser) :
    eatoneLoop (c :: d) i st p = (a.run c p, .error (.panic (.ansiseq c (i + 1) st.code))) := by
  rw [eatoneLoop, ht]
  rfl

theorem eatoneLoop_next {st st' : St} {c : UInt8} {a : Act}
    (ht : transition st (mktok c) = some (st', a)) (herr : st' ≠ .err) (hfin : st' ≠ .fin)
    (d : List UInt8) (i : ℕ) (p : Parser) :
    eatoneLoop (c :: d) i st p = eatoneLoop d (i + 1) st' (a.run c p) := by
  rw [eatoneLoop, ht]
  dsimp only
  rw [if_neg herr, if_neg hfin]

/-! ### More input -/

theorem eatoneLoop_some (h : eatoneLoop d i st p = (q, .ok (some n))) :
    i < n ∧ n ≤ i + d.length ∧ (∀ e, eatoneLoop (d ++ e) i st p = (q, .ok (some n))) ∧
      eatoneLoop (d.take (n - i)) i st p = (q, .ok (some n)) := by
  fun_induction eatoneLoop d i st p with
  | case1 => cases h
  | case2 => cases h
  | case3 => cases congrArg Prod.snd h
  | case4 c d i st p a p' ht _ =>
    obtain ⟨rfl, hn⟩ := Prod.mk.inj h
    cases hn
    refine ⟨Nat.lt_succ_self i, by simp, fun e => eatoneLoop_fin ht _ i p, ?_⟩
    rw [Nat.add_sub_cancel_left, List.take_succ_cons]
    exact eatoneLoop_fin ht _ i p
  | case5 c d i st p st' a ht p' herr hfin ih =>
    obtain ⟨hlt, hle, happ, htake⟩ := ih h
    refine ⟨by omega, by simp; omega, fun e => ?_, ?_⟩
    · rw [List.cons_append, eatoneLoop_next ht herr hfin]
      exact happ e
    · rw [show n - i = (n - (i + 1)) + 1 by omega, List.take_succ_cons,
        eatoneLoop_next ht herr hfin]
      exact htake

theorem eatoneLoop_error (h : eatoneLoop d i st p = (q, .error e)) (d' : List UInt8) :
    eatoneLoop (d ++ d') i st p = (q, .error e) := by
  fun_induction eatoneLoop d i st p with
  | case1 => cases h
  | case2 c d i st p ht =>
    rw [List.cons_append, eatoneLoop, ht]
    exact h
  | case3 c d i st p a p' ht => exact (eatoneLoop_err ht _ i p).trans h
  | case4 => cases congrArg Prod.snd h
  | case5 c d i st p st' a ht p' herr hfin ih =>
    rw [List.cons_append, eatoneLoop_next ht herr hfin]
    exact ih h

theorem eatoneLoop_none (h : eatoneLoop d i st p = (q, .ok none)) :
    ∃ st', ∀ d', eatoneLoop (d ++ d') i st p = eatoneLoop d' (i + d.length) st' q := by
  -- all of `d` was read, so more input is read from the state it led to
  fun_induction eatoneLoop d i st p with
  | case1 i st p =>
    cases h
    exact ⟨st, fun d' => rfl⟩
  | case2 => cases h
  | case3 => cases congrArg Prod.snd h
  | case4 => cases congrArg Prod.snd h
  | case5 c d i st p st' a ht p' herr hfin ih =>
    obtain ⟨st₁, hst₁⟩ := ih h
    refine ⟨st₁, fun d' => ?_⟩
    rw [List.cons_append, eatoneLoop_next ht herr hfin, hst₁ d', List.length_cons, Nat.add_assoc,
      Nat.add_comm 1]

/-! ### Whole calls -/

/-- A complete sequence met no fault and fits the `int` that is returned. -/
theorem settle_eq_some {faults : List Fault} {r : Except Stop (Option ℕ)}
    (h : settle faults r = .ok (some n)) : faults = [] ∧ r = .ok (some n) ∧ (n : ℤ) ≤ INT_MAX := by
  unfold settle at h
  split at h
  · cases h
  · split at h
    · cases h; exact ⟨rfl, rfl, by assumption⟩
    · cases h
  · rename_i hr; exact absurd h (hr n)

theorem settle_nil_some (hn : (n : ℤ) ≤ INT_MAX) :
    settle [] (.ok (some n)) = .ok (some n) := if_pos hn

theorem settle_cons (f : Fault) (fs : List Fault) (r : Except Stop (Option ℕ)) :
    settle (f :: fs) r = .error (.undefined f) := rfl

theorem eatone_some_iff : (eatone d p).2 = .ok (some n) ↔
    ∃ q, eatoneLoop d 0 .sta { p with faults := [] } = (q, .ok (some n)) ∧ q.faults = [] ∧
      (n : ℤ) ≤ INT_MAX := by
  rw [eatone]
  rcases hr : eatoneLoop d 0 .sta { p with faults := [] } with ⟨q, r⟩
  constructor
  · intro h
    obtain ⟨hf, rfl, hn⟩ := settle_eq_some h
    exact ⟨q, rfl, hf, hn⟩
  · rintro ⟨q', heq, hf, hn⟩
    cases heq
    show settle q.faults _ = _
    rw [hf, settle_nil_some hn]

theorem eatone_some_bounds (h : (eatone d p).2 = .ok (some n)) : 0 < n ∧ n ≤ d.length := by
  obtain ⟨q, hq, -, -⟩ := eatone_some_iff.mp h
  obtain ⟨hlt, hle, -, -⟩ := eatoneLoop_some hq
  exact ⟨hlt, by omega⟩

theorem eatone_append_of_some (h : (eatone d p).2 = .ok (some n)) (d' : List UInt8) :
    (eatone (d ++ d') p).2 = .ok (some n) := by
  obtain ⟨q, hq, hf, hn⟩ := eatone_some_iff.mp h
  exact eatone_some_iff.mpr ⟨q, (eatoneLoop_some hq).2.2.1 d', hf, hn⟩

theorem eatone_take_of_some (h : (eatone d p).2 = .ok (some n)) :
    (eatone (d.take n) p).2 = .ok (some n) := by
  obtain ⟨q, hq, hf, hn⟩ := eatone_some_iff.mp h
  exact eatone_some_iff.mpr ⟨q, (eatoneLoop_some hq).2.2.2, hf, hn⟩

/-- The first fault is not taken back. -/
theorem eatone_undefined_of_faults {f : Fault}
    (hf : [f] <+: (eatoneLoop d 0 .sta { p with faults := [] }).1.faults) :
    (eatone d p).2 = .error (.undefined f) := by
  obtain ⟨fs, hfs⟩ := hf
  rw [eatone]
  dsimp only
  rw [← hfs]
  rfl

theorem eatone_append_of_error (h : (eatone d p).2 = .error e) (d' : List UInt8) :
    (eatone (d ++ d') p).2 = .error e := by
  rw [eatone] at h
  rcases hr : eatoneLoop d 0 .sta { p with faults := [] } with ⟨q, r⟩
  rw [hr] at h
  dsimp only at h
  rcases hfs : q.faults with _ | ⟨f, fs⟩
  · rw [hfs] at h
    rcases r with e' | _ | n
    · cases h
      rw [eatone, eatoneLoop_error hr, hfs]
      rfl
    · cases h
    · rw [eatone, (eatoneLoop_some hr).2.2.1 d', hfs]
      exact h
  · -- a fault was met in `d`, so it is the first one met in `d ++ d'` too
    rw [hfs, settle_cons] at h
    cases h
    refine eatone_undefined_of_faults (List.IsPrefix.trans ⟨fs, hfs.symm⟩ ?_)
    rcases r with e' | _ | n
    · rw [eatoneLoop_error hr]
    · obtain ⟨st', hst'⟩ := eatoneLoop_none hr
      rw [hst']
      exact eatoneLoop_faults _ _ _ _
    · rw [(eatoneLoop_some hr).2.2.1 d']

theorem eatoneLoop_error_cases (d : List UInt8) (i : ℕ) (st : St) (p : Parser) (e : Stop)
    (h : (eatoneLoop d i st p).2 = .error e) :
    (∃ f, e = .undefined f) ∨ ∃ c k s, e = .panic (.ansiseq c k s) := by
  fun_induction eatoneLoop d i st p with
  | case1 => cases h
  | case2 => cases h; exact .inl ⟨_, rfl⟩
  | case3 => cases h; exact .inr ⟨_, _, _, rfl⟩
  | case4 => cases h
  | case5 c d i st p st' a ht p' herr hfin ih => exact ih h

/-- The one complaint of the parser is about a malformed sequence. -/
theorem eatone_error_cases (h : (eatone d p).2 = .error e) :
    (∃ f, e = .undefined f) ∨ ∃ c k s, e = .panic (.ansiseq c k s) := by
  rw [eatone] at h
  rcases hr : eatoneLoop d 0 .sta { p with faults := [] } with ⟨q, r⟩
  rw [hr] at h
  dsimp only at h
  unfold settle at h
  split at h
  · cases h
    exact .inl ⟨_, rfl⟩
  · split at h
    · cases h
    · cases h
      exact .inl ⟨_, rfl⟩
  · exact eatoneLoop_error_cases d 0 .sta _ e (by rw [hr]; exact h)

/-- After the first byte nothing of what earlier calls left behind is read. -/
theorem eatone_indep (d : List UInt8) (p q : Parser) : (eatone d p).2 = (eatone d q).2 := by
  rcases d with _ | ⟨c, d⟩
  · rfl
  · rw [eatone, eatone, eatoneLoop, eatoneLoop]
    -- the first byte is the escape character, which resets everything, or it is an error
    have hsta : ∀ t, transition .sta t = some (.esc, .begin) ∨
        transition .sta t = some (.err, .nop) := by
      intro t; cases t <;> simp [transition, delta, St.code, Tok.code]
    rcases hsta (mktok c) with h | h <;> rw [h] <;> rfl

/-! ### The parser has no buffers -/

end Swh.Ansiseq
