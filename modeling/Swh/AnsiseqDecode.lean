/-
What the escape sequence eater tells its caller.

A control sequence is rendered as `ESC [`, a `?` if it is an extended one, its
fields with semicolons between them and the final byte.  Decoding inverts this,
whatever the parser was left with and whatever sequences were broken off before:
`Collects` says what the parser holds in the middle of the fields.  The text of a
string sequence is taken byte by byte to the first NUL of `strarg` (`Holds`).

* `decodes_iff` — a control sequence is decoded unless it is longer than an `int` can say;
* `captures_iff` — so is a string sequence, if it does not end in `'\234'`.
-/
import Swh.AnsiseqParams

namespace Swh.Ansiseq

/-- `ansiseq_eatone(data, len, dst)` where `dst` is not a null pointer: `*dst` is
assigned when the sequence is complete. -/
def eatoneInto (data : List UInt8) (dst : Ansiseq) (p : Parser) :
    Parser × Ansiseq × Except Stop (Option ℕ) :=
  let r := eatone data p
  (r.1, if let .ok (some _) := r.2 then r.1.curseq else dst, r.2)

variable {i : ℕ} {st : St} {p : Parser} {c : UInt8} {s : List UInt8}

/-- A run of the loop that completes a sequence without a fault. -/
theorem eatoneInto_of_loop {d : List UInt8} {q : Parser} {n : ℕ}
    (h : eatoneLoop d 0 .sta { p with faults := [] } = (q, .ok (some n))) (hf : q.faults = [])
    (dst : Ansiseq) :
    ((n : ℤ) ≤ INT_MAX → eatoneInto d dst p = (q, q.curseq, .ok (some n))) ∧
    (¬ (n : ℤ) ≤ INT_MAX → (eatoneInto d dst p).2.2 = .error (.undefined (.intReturn n))) := by
  have heat : eatone d p = (q, settle [] (.ok (some n))) := by rw [eatone, h, ← hf]
  constructor
  · intro hn
    rw [eatoneInto, heat, settle_nil_some hn]
  · intro hn
    rw [eatoneInto, heat]
    exact if_neg hn

/-! ### Opening a sequence -/

theorem transition_esc (hst : st ≠ .fin ∧ st ≠ .err) :
    transition st (mktok ESC) = some (.esc, .begin) := by
  rw [(mktok_escp ESC).mpr rfl]
  cases st with
  | fin => exact absurd rfl hst.1
  | err => exact absurd rfl hst.2
  | _ => rfl

/-- The escape character starts afresh in any state. -/
theorem eatoneLoop_esc (hst : st ≠ .fin ∧ st ≠ .err) (d : List UInt8) (i : ℕ) (p : Parser) :
    eatoneLoop (ESC :: d) i st p = eatoneLoop d (i + 1) .esc (actBegin p) :=
  eatoneLoop_next (transition_esc hst) (by decide) (by decide) d i p

theorem eatoneLoop_csi (d : List UInt8) (i : ℕ) (p : Parser) :
    eatoneLoop (91 :: d) i .esc p = eatoneLoop d (i + 1) .csi (actSetcls 91 p) := by
  have ht : transition .esc (mktok 91) = some (.csi, .setcls) := by decide +kernel
  exact eatoneLoop_next ht (by decide) (by decide) d i p

theorem eatoneLoop_sqc (d : List UInt8) (i : ℕ) (p : Parser) :
    eatoneLoop (93 :: d) i .esc p = eatoneLoop d (i + 1) .sqc (actSetcls 93 p) := by
  have ht : transition .esc (mktok 93) = some (.sqc, .setcls) := by decide +kernel
  exact eatoneLoop_next ht (by decide) (by decide) d i p

/-! ### The text of a string sequence -/

/-- What there is room for, of the text of a string sequence. -/
def captured (s : List UInt8) : List UInt8 := (s.filter (· != 0)).take (MAX_OSC_STR_SZ - 1)

theorem captured_length_lt (s : List UInt8) : (captured s).length < MAX_OSC_STR_SZ :=
  Nat.lt_of_le_of_lt (List.length_take_le _ _) (by decide)

theorem captured_ne_zero {s : List UInt8} {b : UInt8} (hb : b ∈ captured s) : b ≠ 0 := by
  have := List.of_mem_filter (List.mem_of_mem_take hb)
  simpa using this

theorem captured_concat_of_full {s : List UInt8}
    (h : MAX_OSC_STR_SZ ≤ (captured s).length + 1) (c : UInt8) :
    captured (s ++ [c]) = captured s := by
  rw [captured, List.length_take] at h
  rw [captured, captured, List.filter_append]
  exact List.take_append_of_le_length (by omega)

theorem captured_concat {s : List UInt8} (h : (captured s).length + 1 < MAX_OSC_STR_SZ)
    (c : UInt8) : captured (s ++ [c]) = captured s ++ [c].filter (· != 0) := by
  rw [captured, List.length_take] at h
  have hle : (s.filter (· != 0)).length + 1 ≤ MAX_OSC_STR_SZ - 1 := by omega
  have hlast : ([c].filter (· != 0)).length ≤ 1 := List.length_filter_le _ _
  rw [captured, captured, List.filter_append, List.take_of_length_le,
    List.take_of_length_le (Nat.le_of_succ_le hle)]
  rw [List.length_append]
  omega

/-- The parser has read the text `s` of a string sequence. -/
structure Holds (p : Parser) (s : List UInt8) : Prop where
  cls : p.curseq.cls = 93
  strarg : p.curseq.strarg.toList
    = captured s ++ List.replicate (MAX_OSC_STR_SZ - (captured s).length) 0
  noFault : p.faults = []

theorem Holds.strargLen (h : Holds p s) : strargLen p.curseq = (captured s).length := by
  have hnone : (captured s).findIdx (· == 0) = (captured s).length :=
    List.findIdx_eq_length_of_false fun b hb => by simpa using captured_ne_zero hb
  obtain ⟨k, hk⟩ : ∃ k, MAX_OSC_STR_SZ - (captured s).length = k + 1 :=
    Nat.exists_eq_add_one.mpr (Nat.sub_pos_of_lt (captured_length_lt s))
  rw [Ansiseq.strargLen, h.strarg, List.findIdx_append, hnone, if_neg (Nat.lt_irrefl _), hk,
    List.replicate_succ, List.findIdx_cons]
  simp

theorem holds_begin (hf : p.faults = []) : Holds (actSetcls 93 (actBegin p)) [] :=
  ⟨rfl, rfl, hf⟩

/-- A byte is put behind those that are there, if there is room for it and a NUL. -/
theorem Holds.mkstr (h : Holds p s) (c : UInt8) : Holds (actMkstr c p) (s ++ [c]) := by
  have hlen := h.strargLen
  rw [actMkstr]
  dsimp only
  split
  · rename_i hfull
    rw [hlen] at hfull
    refine ⟨h.cls, ?_, h.noFault⟩
    rw [captured_concat_of_full hfull, h.strarg]
  · rename_i hroom
    refine ⟨h.cls, ?_, h.noFault⟩
    show (p.curseq.strarg.set (Ansiseq.strargLen p.curseq) c
      (Nat.lt_of_succ_lt (Nat.lt_of_not_ge hroom))).toList = _
    obtain ⟨k, hk⟩ : ∃ k, MAX_OSC_STR_SZ - (captured s).length = k + 1 :=
      Nat.exists_eq_add_one.mpr (Nat.sub_pos_of_lt (captured_length_lt s))
    rw [hlen] at hroom
    rw [Vector.toList_set, h.strarg, hk, hlen, List.set_append_right _ _ (le_refl _),
      Nat.sub_self, List.replicate_succ, List.set_cons_zero,
      captured_concat (by omega)]
    by_cases hc : c = 0
    · -- a NUL changes nothing
      rw [hc]
      simp [hk, List.replicate_succ]
    · rw [List.filter_cons_of_pos (by simpa using hc), List.filter_nil, List.append_assoc,
        List.singleton_append, List.length_append, List.length_singleton]
      congr 3
      omega

/-- A byte of the text of a string sequence. -/
theorem eatoneLoop_mkstr (hesc : c ≠ ESC) (hterm : ¬ IsTerminator c) (d : List UInt8) (i : ℕ)
    (p : Parser) : eatoneLoop (c :: d) i .sqc p = eatoneLoop d (i + 1) .sqc (actMkstr c p) := by
  have ht : transition .sqc (mktok c) = some (.sqc, .mkstr) := by
    rw [Ne, ← mktok_escp] at hesc
    rw [IsTerminator, not_or] at hterm
    cases hc : mktok c with
    | escp => exact absurd hc hesc
    | bell => exact absurd hc hterm.1
    | strm => exact absurd hc hterm.2
    | _ => rfl
  exact eatoneLoop_next ht (by decide) (by decide) d i p

/-- The text of a string sequence. -/
theorem eatoneLoop_holds {s w : List UInt8} (h : Holds p s)
    (hw : ∀ c ∈ w, c ≠ ESC ∧ ¬ IsTerminator c) (d : List UInt8) (i : ℕ) :
    ∃ p', eatoneLoop (w ++ d) i .sqc p = eatoneLoop d (i + w.length) .sqc p' ∧
      Holds p' (s ++ w) := by
  induction w generalizing s i p with
  | nil => exact ⟨p, rfl, by rwa [List.append_nil]⟩
  | cons c w ih =>
    obtain ⟨hesc, hterm⟩ := hw c (List.mem_cons_self ..)
    obtain ⟨p', hrun, hp'⟩ := ih (h.mkstr c) (fun b hb => hw b (List.mem_cons_of_mem _ hb)) (i + 1)
    refine ⟨p', ?_, by rwa [List.append_assoc] at hp'⟩
    rw [List.cons_append, eatoneLoop_mkstr hesc hterm, hrun, List.length_cons, Nat.add_assoc,
      Nat.add_comm 1]

/-! ### Sequences that are broken off -/

/-- The body of a sequence that is broken off, and meets no fault. -/
structure Abandoned where
  bytes : List UInt8
  proper : bytes ∈ properPrefixes body
  /-- It stores at most as many parameters as there is room for. -/
  stores : ∀ w, bytes = 91 :: w → w.count 59 ≤ MAX_ANSISEQ_PARAMS
  /-- Nor does it accumulate a number that is no `int`. -/
  numbers : ∀ w, bytes = 91 :: w → ∀ u, u <+: w → number u ≤ INT_MAX

/-- `(ESC p)*` -/
def abandoned (bs : List Abandoned) : List UInt8 := bs.flatMap fun b => ESC :: b.bytes

/-- Parameter bytes behind those of `u`, none of which meets a fault. -/
theorem eatoneLoop_params {u w : List UInt8} (hp : Reads p u) (hw : ∀ c ∈ w, IsParam c)
    (hstores : (u ++ w).count 59 ≤ MAX_ANSISEQ_PARAMS)
    (hnumbers : ∀ v, v <+: u ++ w → number v ≤ INT_MAX) (d : List UInt8) (i : ℕ) :
    ∃ p', eatoneLoop (w ++ d) i .csi p = eatoneLoop d (i + w.length) .csi p' ∧
      p'.faults = p.faults := by
  induction w generalizing u i p with
  | nil => exact ⟨p, rfl, rfl⟩
  | cons c w ih =>
    obtain ⟨a, ht, hreads, hf⟩ := reads_param hp (hw c (List.mem_cons_self ..))
    have hassoc : u ++ c :: w = u ++ [c] ++ w := by simp
    rw [hassoc] at hstores hnumbers
    have hnone : stepFaults u c = [] := by
      have hfinal : ¬ IsFinal c := by
        have h : ∀ n < 256, ((48 ≤ n ∧ n ≤ 57) ∨ n = 59 ∨ n = 63) →
            ¬ ((65 ≤ n ∧ n ≤ 90) ∨ (97 ≤ n ∧ n ≤ 122) ∨ (60 ≤ n ∧ n ≤ 62)) := by decide +kernel
        exact h _ c.toNat_lt (hw c (List.mem_cons_self ..))
      rw [stepFaults, if_neg, if_neg, List.nil_append]
      · rintro ⟨-, hbig⟩
        have := hnumbers (u ++ [c]) (List.prefix_append _ _)
        omega
      · rintro ⟨hc | hc, hle⟩
        · rw [hc, List.count_append, List.count_append, List.count_singleton_self] at hstores
          omega
        · exact hfinal hc.1
    obtain ⟨p', hrun, hf'⟩ := ih hreads (fun b hb => hw b (List.mem_cons_of_mem _ hb)) hstores
      hnumbers (i + 1)
    refine ⟨p', ?_, by rw [hf', hf, hnone, List.append_nil]⟩
    rw [List.cons_append, eatoneLoop_next ht (by decide) (by decide), hrun, List.length_cons,
      Nat.add_assoc, Nat.add_comm 1]

/-- One sequence that is broken off. -/
theorem eatoneLoop_broken (b : Abandoned) (hst : st ≠ .fin ∧ st ≠ .err) (hp : p.faults = [])
    (d : List UInt8) (i : ℕ) : ∃ st' p', (st' ≠ .fin ∧ st' ≠ .err) ∧ p'.faults = [] ∧
      eatoneLoop (ESC :: b.bytes ++ d) i st p
        = eatoneLoop d (i + (ESC :: b.bytes).length) st' p' := by
  rw [List.cons_append, eatoneLoop_esc hst, List.length_cons]
  rcases mem_properPrefixes_body.mp b.proper with hb | ⟨w, hw, hb⟩ | ⟨h, hh, hb⟩ | ⟨w, hw, hb⟩
  · rw [hb]
    exact ⟨.esc, actBegin p, by decide, hp, rfl⟩
  · have hreads : Reads (actSetcls 91 (actBegin p)) [] := ⟨rfl, rfl, rfl⟩
    obtain ⟨p', hrun, hf⟩ := eatoneLoop_params hreads hw (b.stores w hb) (b.numbers w hb) d
      (i + 1 + 1)
    refine ⟨.csi, p', by decide, hf.trans hp, ?_⟩
    rw [hb, List.cons_append, eatoneLoop_csi, hrun, List.length_cons]
    congr 1
    omega
  · refine ⟨.pph, actSetcls h (actBegin p), by decide, hp, ?_⟩
    have ht : transition .esc (mktok h) = some (.pph, .setcls) := by
      rcases (mktok_hashParen h).mpr hh with hc | hc | hc <;> rw [hc] <;> rfl
    rw [hb, List.cons_append, List.nil_append, eatoneLoop_next ht (by decide) (by decide)]
    rfl
  · obtain ⟨p', hrun, hp'⟩ := eatoneLoop_holds (holds_begin hp) hw d (i + 1 + 1)
    refine ⟨.sqc, p', by decide, hp'.noFault, ?_⟩
    rw [hb, List.cons_append, eatoneLoop_sqc, hrun, List.length_cons]
    congr 1
    omega

/-- After any number of them the loop goes on, and no fault was met. -/
theorem eatoneLoop_abandoned (bs : List Abandoned) (hst : st ≠ .fin ∧ st ≠ .err)
    (hp : p.faults = []) (d : List UInt8) (i : ℕ) :
    ∃ st' p', (st' ≠ .fin ∧ st' ≠ .err) ∧ p'.faults = [] ∧
      eatoneLoop (abandoned bs ++ d) i st p = eatoneLoop d (i + (abandoned bs).length) st' p' := by
  induction bs generalizing i st p with
  | nil => exact ⟨st, p, hst, hp, rfl⟩
  | cons b bs ih =>
    obtain ⟨st₁, p₁, hst₁, hp₁, hrun₁⟩ := eatoneLoop_broken b hst hp (abandoned bs ++ d) i
    obtain ⟨st₂, p₂, hst₂, hp₂, hrun₂⟩ := ih hst₁ hp₁ (i + (ESC :: b.bytes).length)
    refine ⟨st₂, p₂, hst₂, hp₂, ?_⟩
    have hcons : abandoned (b :: bs) = ESC :: b.bytes ++ abandoned bs := List.flatMap_cons
    rw [hcons, List.append_assoc, hrun₁, hrun₂, List.length_append, Nat.add_assoc]

/-! ### A control sequence, written out -/

/-- The number that a string of digits stands for. -/
def decimal (f : List UInt8) : ℕ := f.foldl (fun v c => v * 10 + (c.toNat - 48)) 0

/-- The parameters the fields stand for: an empty one is absent, but for the last,
which is none at all. -/
def params : List (List UInt8) → List ℤ
  | [] => []
  | [f] => if f = [] then [] else [(decimal f : ℤ)]
  | f :: fs => (if f = [] then ABSENT else (decimal f : ℤ)) :: params fs

/-- A control sequence. -/
structure ControlSeq where
  ext : Bool
  fields : List (List UInt8)
  final : UInt8
  fields_ne_nil : fields ≠ []
  digits : ∀ f ∈ fields, ∀ c ∈ f, IsDigit c
  isInt : ∀ f ∈ fields, (decimal f : ℤ) ≤ INT_MAX
  fits : (params fields).length ≤ MAX_ANSISEQ_PARAMS
  isFinal : IsFinal final

/-- `ESC [ ? f1 ; ... ; fn F` -/
def ControlSeq.render (s : ControlSeq) : List UInt8 :=
  ESC :: 91 :: ((if s.ext then [63] else []) ++ ([59].intercalate s.fields ++ [s.final]))

theorem decimal_concat (f : List UInt8) (c : UInt8) :
    decimal (f ++ [c]) = decimal f * 10 + (c.toNat - 48) := by
  rw [decimal, List.foldl_append]
  rfl

theorem decimal_le_append (f g : List UInt8) : decimal f ≤ decimal (f ++ g) := by
  induction g using List.reverseRecOn with
  | nil => rw [List.append_nil]
  | append_singleton g c ih =>
    rw [← List.append_assoc, decimal_concat]
    omega

/-- What the parser holds in a control sequence: the parameters `vs` are stored,
and the digits of `f` have been read since. -/
structure Collects (p : Parser) (ext : Bool) (vs : List ℤ) (f : List UInt8) : Prop where
  cls : p.curseq.cls = 91
  strarg : p.curseq.strarg = Vector.replicate _ 0
  isExt : p.curseq.ext = ext
  argc : p.curseq.argc = vs.length
  argv : p.curseq.argv.toList.take vs.length = vs
  gotparm : p.gotparm = !f.isEmpty
  parmv : p.parmv = decimal f
  noFault : p.faults = []

section Collects

variable {e : Bool} {vs : List ℤ} {f : List UInt8}

theorem collects_begin (hf : p.faults = []) : Collects (actSetcls 91 (actBegin p)) false [] [] :=
  ⟨rfl, rfl, rfl, rfl, rfl, rfl, rfl, hf⟩

theorem Collects.extend (h : Collects p false [] []) : Collects (actExt p) true [] [] :=
  ⟨h.cls, h.strarg, rfl, h.argc, h.argv, h.gotparm, h.parmv, h.noFault⟩

theorem Collects.digit (h : Collects p e vs f) (hc : IsDigit c)
    (hint : (decimal (f ++ [c]) : ℤ) ≤ INT_MAX) : Collects (actMkpar c p) e vs (f ++ [c]) := by
  have hv : p.parmv * 10 + ((c.toNat : ℤ) - 48) = decimal (f ++ [c]) := by
    have := hc.1
    rw [decimal_concat, h.parmv]
    omega
  refine ⟨h.cls, h.strarg, h.isExt, h.argc, h.argv, ?_, hv, ?_⟩
  · show true = _
    simp
  · show (if INT_MIN ≤ p.parmv * 10 + ((c.toNat : ℤ) - 48) ∧ _ ≤ INT_MAX then _ else _) = _
    rw [hv, if_pos ⟨by unfold INT_MIN; omega, hint⟩, h.noFault]

/-- One more parameter. -/
theorem Collects.store (h : Collects p e vs f) (hroom : vs.length < MAX_ANSISEQ_PARAMS) (v : ℤ) :
    Collects { storeArgv v p with parmv := 0, gotparm := false } e (vs ++ [v]) [] := by
  have hargc : 0 ≤ p.curseq.argc ∧ p.curseq.argc.toNat < MAX_ANSISEQ_PARAMS := by
    rw [h.argc]
    omega
  have hnat : p.curseq.argc.toNat = vs.length := by rw [h.argc, Int.toNat_natCast]
  rw [storeArgv, dif_pos hargc]
  refine ⟨h.cls, h.strarg, h.isExt, ?_, ?_, rfl, rfl, h.noFault⟩
  · show p.curseq.argc + 1 = _
    rw [h.argc, List.length_append]
    rfl
  · show (p.curseq.argv.set p.curseq.argc.toNat v hargc.2).toList.take _ = _
    have hlen : vs.length < p.curseq.argv.toList.length := by
      rw [Vector.length_toList]
      exact hroom
    rw [Vector.toList_set, List.length_append, List.length_singleton, hnat,
      List.take_succ_eq_append_getElem (by rwa [List.length_set]), List.getElem_set_self,
      List.take_set_of_le (le_refl _), h.argv]

theorem Collects.semicolon (h : Collects p e vs f) (hroom : vs.length < MAX_ANSISEQ_PARAMS) :
    Collects (actStor 59 p) e (vs ++ [if f = [] then ABSENT else (decimal f : ℤ)]) [] := by
  have hv : (if p.gotparm = true then p.parmv else ABSENT)
      = if f = [] then ABSENT else (decimal f : ℤ) := by
    rw [h.gotparm, h.parmv]
    cases f <;> rfl
  have hstore := h.store hroom (if p.gotparm = true then p.parmv else ABSENT)
  rw [hv] at hstore
  rw [actStor, if_pos rfl, hv]
  exact hstore

/-- The final byte stores what digits were read since the last semicolon. -/
theorem Collects.finish (h : Collects p e vs f) (hroom : (vs ++ params [f]).length
    ≤ MAX_ANSISEQ_PARAMS) (c : UInt8) : Collects (actMkctl c p) e (vs ++ params [f]) [] ∧
      (actMkctl c p).curseq.cmd = c := by
  refine ⟨?_, rfl⟩
  rcases f with _ | ⟨b, f⟩
  · have hgot : p.gotparm = false := h.gotparm
    rw [actMkctl, hgot, params, if_pos rfl, List.append_nil]
    exact ⟨h.cls, h.strarg, h.isExt, h.argc, h.argv, hgot, h.parmv, h.noFault⟩
  · have hgot : p.gotparm = true := h.gotparm
    rw [params, if_neg (List.cons_ne_nil _ _)] at hroom ⊢
    have hstore := h.store (by
      rw [List.length_append, List.length_singleton] at hroom
      omega) p.parmv
    rw [actMkctl, actStor, hgot, if_pos rfl, if_pos rfl, if_neg (by decide), ← h.parmv]
    exact ⟨hstore.cls, hstore.strarg, hstore.isExt, hstore.argc, hstore.argv, hstore.gotparm,
      hstore.parmv, hstore.noFault⟩

end Collects

/-- The digits of one field. -/
theorem eatoneLoop_digits {e : Bool} {vs : List ℤ} {f g : List UInt8} (h : Collects p e vs f)
    (hg : ∀ c ∈ g, IsDigit c) (hint : (decimal (f ++ g) : ℤ) ≤ INT_MAX) (d : List UInt8)
    (i : ℕ) : ∃ p', eatoneLoop (g ++ d) i .csi p = eatoneLoop d (i + g.length) .csi p' ∧
      Collects p' e vs (f ++ g) := by
  induction g generalizing f i p with
  | nil => exact ⟨p, rfl, by rwa [List.append_nil]⟩
  | cons c g ih =>
    have hc := hg c (List.mem_cons_self ..)
    have hassoc : f ++ c :: g = f ++ [c] ++ g := by simp
    have ht : transition .csi (mktok c) = some (.csi, .mkpar) := by
      rw [(mktok_ndig c).mpr hc]
      rfl
    rw [hassoc] at hint ⊢
    have hle : (decimal (f ++ [c]) : ℤ) ≤ INT_MAX := by
      have := decimal_le_append (f ++ [c]) g
      omega
    obtain ⟨p', hrun, hp'⟩ := ih (h.digit hc hle) (fun b hb => hg b (List.mem_cons_of_mem _ hb))
      hint (i + 1)
    refine ⟨p', ?_, hp'⟩
    rw [List.cons_append, eatoneLoop_next ht (by decide) (by decide), List.length_cons,
      Nat.add_comm g.length, ← Nat.add_assoc]
    exact hrun

/-- The fields and the final byte. -/
theorem eatoneLoop_fields {e : Bool} {vs : List ℤ} {fs : List (List UInt8)} (hne : fs ≠ [])
    (h : Collects p e vs []) (hdigit : ∀ f ∈ fs, ∀ c ∈ f, IsDigit c)
    (hint : ∀ f ∈ fs, (decimal f : ℤ) ≤ INT_MAX)
    (hfits : (vs ++ params fs).length ≤ MAX_ANSISEQ_PARAMS) (hc : IsFinal c) (d : List UInt8)
    (i : ℕ) : ∃ q, eatoneLoop ([59].intercalate fs ++ c :: d) i .csi p
        = (q, .ok (some (i + ([59].intercalate fs).length + 1))) ∧
      Collects q e (vs ++ params fs) [] ∧ q.curseq.cmd = c := by
  induction fs generalizing vs i p with
  | nil => exact absurd rfl hne
  | cons f fs ih =>
    obtain ⟨hf, hfs⟩ := List.forall_mem_cons.mp hdigit
    obtain ⟨hif, hifs⟩ := List.forall_mem_cons.mp hint
    rcases fs with _ | ⟨g, fs⟩
    · -- the last field, and the final byte behind it
      obtain ⟨p', hrun, hp'⟩ := eatoneLoop_digits h hf hif (c :: d) i
      obtain ⟨hq, hcmd⟩ := hp'.finish hfits c
      have ht : transition .csi (mktok c) = some (.fin, .mkctl) := by
        rw [(mktok_cchr c).mpr hc]
        rfl
      refine ⟨actMkctl c p', ?_, hq, hcmd⟩
      rw [List.intercalate_singleton, hrun]
      exact eatoneLoop_fin ht d _ p'
    · -- a field that ends in a semicolon
      obtain ⟨p', hrun, hp'⟩ := eatoneLoop_digits h hf hif
        (59 :: ([59].intercalate (g :: fs) ++ c :: d)) i
      have hparams : params (f :: g :: fs)
          = (if f = [] then ABSENT else (decimal f : ℤ)) :: params (g :: fs) := rfl
      have hroom : vs.length < MAX_ANSISEQ_PARAMS := by
        rw [hparams, List.length_append, List.length_cons] at hfits
        omega
      have ht : transition .csi (mktok 59) = some (.csi, .stor) := by decide +kernel
      rw [hparams, List.append_cons vs] at hfits ⊢
      rw [List.nil_append] at hp'
      obtain ⟨q, hq, hcollects⟩ := ih (List.cons_ne_nil _ _) (hp'.semicolon hroom) hfs hifs hfits
        (i + f.length + 1)
      refine ⟨q, ?_, hcollects⟩
      have hcons : [59].intercalate (f :: g :: fs) = f ++ 59 :: [59].intercalate (g :: fs) := by
        rw [List.intercalate_cons_cons, List.append_assoc, List.singleton_append]
      rw [hcons, List.append_assoc f, List.cons_append, hrun,
        eatoneLoop_next ht (by decide) (by decide)]
      refine hq.trans ?_
      simp only [List.length_append, List.length_cons]
      congr 3
      omega

/-- The answer to a control sequence between sequences that were broken off and
other data, and what is stored to `dst`. -/
structure Decodes (s : ControlSeq) (bs : List Abandoned) (suffix : List UInt8) (dst : Ansiseq)
    (p : Parser) : Prop where
  length : (eatoneInto (abandoned bs ++ s.render ++ suffix) dst p).2.2
    = .ok (some (abandoned bs ++ s.render).length)
  cls : (eatoneInto (abandoned bs ++ s.render ++ suffix) dst p).2.1.cls = 91
  cmd : (eatoneInto (abandoned bs ++ s.render ++ suffix) dst p).2.1.cmd = s.final
  ext : (eatoneInto (abandoned bs ++ s.render ++ suffix) dst p).2.1.ext = s.ext
  strarg : (eatoneInto (abandoned bs ++ s.render ++ suffix) dst p).2.1.strarg
    = Vector.replicate _ 0
  argc : (eatoneInto (abandoned bs ++ s.render ++ suffix) dst p).2.1.argc
    = (params s.fields).length
  argv : (eatoneInto (abandoned bs ++ s.render ++ suffix) dst p).2.1.argv.toList.take
    (params s.fields).length = params s.fields

/-- The loop completes the control sequence, whatever the parser was left with. -/
theorem eatoneLoop_render (s : ControlSeq) (bs : List Abandoned) (suffix : List UInt8)
    (hp : p.faults = []) :
    ∃ q, eatoneLoop (abandoned bs ++ s.render ++ suffix) 0 .sta p
        = (q, .ok (some (abandoned bs ++ s.render).length)) ∧
      Collects q s.ext (params s.fields) [] ∧ q.curseq.cmd = s.final := by
  have hsta : St.sta ≠ .fin ∧ St.sta ≠ .err := by decide
  obtain ⟨st, p₁, hst, hp₁, hrun⟩ := eatoneLoop_abandoned bs hsta hp (s.render ++ suffix) 0
  have hbegin : Collects (actSetcls 91 (actBegin p₁)) false [] [] := collects_begin hp₁
  -- the question mark, if there is one, comes before any field
  have hext : ∃ p₂, (∀ d i, eatoneLoop ((if s.ext then [63] else []) ++ d) i .csi
        (actSetcls 91 (actBegin p₁)) = eatoneLoop d (i + (if s.ext then [63] else [] :
          List UInt8).length) .csi p₂) ∧ Collects p₂ s.ext [] [] := by
    cases s.ext with
    | false => exact ⟨_, fun d i => rfl, hbegin⟩
    | true =>
      have ht : transition .csi (mktok 63) = some (.csi, .ext) := by decide +kernel
      exact ⟨_, fun d i => eatoneLoop_next ht (by decide) (by decide) d i _, hbegin.extend⟩
  obtain ⟨p₂, hrun₂, hp₂⟩ := hext
  obtain ⟨q, hq, hcollects⟩ := eatoneLoop_fields s.fields_ne_nil hp₂ s.digits s.isInt s.fits
    s.isFinal suffix
    (0 + (abandoned bs).length + 1 + 1 + (if s.ext then [63] else [] : List UInt8).length)
  refine ⟨q, ?_, hcollects⟩
  rw [List.append_assoc, hrun, ControlSeq.render, List.cons_append, List.cons_append,
    eatoneLoop_esc hst, eatoneLoop_csi, List.append_assoc, hrun₂, List.append_assoc,
    List.singleton_append, hq]
  simp only [List.length_append, List.length_cons, List.length_nil]
  congr 3
  omega

theorem decodes_of_isInt (s : ControlSeq) (bs : List Abandoned) (suffix : List UInt8)
    (dst : Ansiseq) (p : Parser) (hlen : ((abandoned bs ++ s.render).length : ℤ) ≤ INT_MAX) :
    Decodes s bs suffix dst p := by
  obtain ⟨q, hq, hcollects, hcmd⟩ := eatoneLoop_render s bs suffix (p := { p with faults := [] })
    rfl
  have heat := (eatoneInto_of_loop hq hcollects.noFault dst).1 hlen
  constructor
  · rw [heat]
  · rw [heat, hcollects.cls]
  · rw [heat, hcmd]
  · rw [heat, hcollects.isExt]
  · rw [heat, hcollects.strarg]
  · rw [heat, hcollects.argc]
  · rw [heat, hcollects.argv]

theorem Decodes.isInt {s : ControlSeq} {bs : List Abandoned} {suffix : List UInt8}
    {dst : Ansiseq} (h : Decodes s bs suffix dst p) :
    ((abandoned bs ++ s.render).length : ℤ) ≤ INT_MAX := by
  have hlength : (eatone (abandoned bs ++ s.render ++ suffix) p).2
      = .ok (some (abandoned bs ++ s.render).length) := h.length
  obtain ⟨-, -, -, hint⟩ := eatone_some_iff.mp hlength
  exact hint

/-- **Decoding inverts rendering exactly when** the length is an `int`. -/
theorem decodes_iff (s : ControlSeq) (bs : List Abandoned) (suffix : List UInt8) (dst : Ansiseq)
    (p : Parser) : Decodes s bs suffix dst p ↔
      ((abandoned bs ++ s.render).length : ℤ) ≤ INT_MAX :=
  ⟨Decodes.isInt, decodes_of_isInt s bs suffix dst p⟩

theorem decimal_zeros (n : ℕ) : decimal (List.replicate n 48) = 0 := by
  induction n with
  | zero => rfl
  | succ n ih =>
    rw [List.replicate_succ', decimal_concat, ih]
    rfl

/-- `ESC [ 0...0 m` with `n` zeros. -/
def zeros (n : ℕ) : ControlSeq where
  ext := false
  fields := [List.replicate n 48]
  final := 109
  fields_ne_nil := List.cons_ne_nil _ _
  digits := by
    intro f hf c hc
    rw [List.mem_singleton.mp hf] at hc
    rw [List.eq_of_mem_replicate hc]
    decide
  isInt := by
    intro f hf
    rw [List.mem_singleton.mp hf, decimal_zeros]
    decide
  fits := by
    rw [params]
    split
    · exact Nat.zero_le _
    · exact Nat.le_add_left 1 7
  isFinal := by decide

/-- The length of this sequence is no `int`. -/
theorem not_decodes_zeros : ¬ Decodes (zeros 2147483648) [] [] protoseq parser₀ := by
  intro h
  have hint := h.isInt
  rw [ControlSeq.render] at hint
  have hfield : [59].intercalate (zeros 2147483648).fields = List.replicate 2147483648 48 :=
    List.intercalate_singleton
  rw [hfield, abandoned, List.flatMap_nil, List.nil_append, List.length_cons, List.length_cons,
    List.length_append, List.length_append, List.length_replicate] at hint
  unfold INT_MAX at hint
  omega

/-! ### String sequences -/

theorem mktok_bell (c : UInt8) : mktok c = .bell ↔ c = 7 := by
  have h : ∀ n < 256, classify n = .bell ↔ n = 7 := by decide +kernel
  rw [mktok_eq, h _ c.toNat_lt, ← UInt8.toNat_inj]
  rfl

theorem mktok_ne_strm (c : UInt8) : mktok c ≠ .strm := by
  have h : ∀ n < 256, classify n ≠ .strm := by decide +kernel
  rw [mktok_eq]
  exact h _ c.toNat_lt

/-- No byte is of class `T_STRM`, so that only the bell ends a string. -/
theorem isTerminator_iff (c : UInt8) : IsTerminator c ↔ c = 7 := by
  rw [IsTerminator, mktok_bell]
  exact or_iff_left (mktok_ne_strm c)

/-- The last byte of `strarg` is its terminator, so that `strlen` stays inside. -/
def Terminated (p : Parser) : Prop := p.curseq.strarg[MAX_OSC_STR_SZ - 1] = 0

theorem Terminated.strargLen_lt (h : Terminated p) : strargLen p.curseq < MAX_OSC_STR_SZ := by
  have hmem : p.curseq.strarg[MAX_OSC_STR_SZ - 1] ∈ p.curseq.strarg.toList := by
    rw [Vector.mem_toList_iff]
    exact Vector.getElem_mem _
  have hzero : (p.curseq.strarg[MAX_OSC_STR_SZ - 1] == 0) = true := beq_iff_eq.mpr h
  have hlt := List.findIdx_lt_length_of_exists (p := (· == 0)) ⟨_, hmem, hzero⟩
  rwa [Vector.length_toList] at hlt

theorem Terminated.congr {q : Parser} (h : Terminated p)
    (hs : q.curseq.strarg = p.curseq.strarg) : Terminated q := by
  simp only [Terminated, hs]
  exact h

theorem actStor_strarg (c : UInt8) (p : Parser) :
    (actStor c p).curseq.strarg = p.curseq.strarg := by
  have hstore : ∀ v, (storeArgv v p).curseq.strarg = p.curseq.strarg := by
    intro v
    rw [storeArgv]
    split <;> rfl
  unfold actStor
  split
  · exact hstore _
  · split
    · exact hstore _
    · rfl

theorem run_terminated (a : Act) (c : UInt8) (h : Terminated p) : Terminated (a.run c p) := by
  cases a with
  | begin => rfl
  | stor => exact h.congr (actStor_strarg c p)
  | mkctl =>
    show Terminated (if p.gotparm then actStor 0 p else p)
    split
    · exact h.congr (actStor_strarg 0 p)
    · exact h
  | mkstr =>
    show Terminated (actMkstr c p)
    unfold actMkstr
    dsimp only
    split
    · exact h
    · -- a store leaves the last byte alone
      rename_i hroom
      have hlt : strargLen p.curseq < MAX_OSC_STR_SZ - 1 := by omega
      exact (Vector.getElem_set_ne (Nat.lt_of_lt_pred hlt) _ (Nat.ne_of_lt hlt)).trans h
  | _ => exact h

/-- In a call that starts with the escape character every `strlen` stays inside. -/
theorem eatone_terminated {d : List UInt8} (p : Parser) (h : d.head? = some ESC) :
    Terminated (eatone d p).1 := by
  have hloop : ∀ (d : List UInt8) (i : ℕ) (st : St) (p : Parser), Terminated p →
      Terminated (eatoneLoop d i st p).1 := by
    intro d i st p hp
    fun_induction eatoneLoop d i st p with
    | case1 => exact hp
    | case2 => exact hp
    | case3 => exact run_terminated _ _ hp
    | case4 => exact run_terminated _ _ hp
    | case5 c d i st p st' a ht p' herr hfin ih => exact ih (run_terminated a c hp)
  obtain ⟨d, rfl⟩ : ∃ d', d = ESC :: d' := ⟨d.tail, List.eq_cons_of_mem_head? h⟩
  show Terminated (eatoneLoop (ESC :: d) 0 .sta { p with faults := [] }).1
  rw [eatoneLoop_esc (by decide)]
  exact hloop d 1 .esc _ rfl

/-- A string sequence, with either of the two bytes that are meant to end it. -/
structure StringSeq where
  text : List UInt8
  terminator : UInt8
  text_free : ∀ c ∈ text, c ≠ ESC ∧ c ≠ 7 ∧ c ≠ 0x9C
  terminator_eq : terminator = 7 ∨ terminator = 0x9C

/-- `ESC ] s t` -/
def StringSeq.render (s : StringSeq) : List UInt8 := ESC :: 93 :: (s.text ++ [s.terminator])

/-- The answer to a string sequence with other data behind it, and what is stored
to `dst`. -/
structure Captures (s : StringSeq) (suffix : List UInt8) (dst : Ansiseq) (p : Parser) : Prop where
  length : (eatoneInto (s.render ++ suffix) dst p).2.2 = .ok (some (s.text.length + 3))
  cls : (eatoneInto (s.render ++ suffix) dst p).2.1.cls = 93
  strarg : (eatoneInto (s.render ++ suffix) dst p).2.1.strarg.toList
    = captured s.text ++ List.replicate (MAX_OSC_STR_SZ - (captured s.text).length) 0
  /-- After each byte the place of the next store is an element of `strarg`. -/
  inside : ∀ d', d' ≠ [] → d' <+: s.render ++ suffix →
    strargLen (eatone d' p).1.curseq < MAX_OSC_STR_SZ

theorem StringSeq.text_byte (s : StringSeq) {c : UInt8} (hc : c ∈ s.text) :
    c ≠ ESC ∧ ¬ IsTerminator c :=
  ⟨(s.text_free c hc).1, fun ht => (s.text_free c hc).2.1 ((isTerminator_iff c).mp ht)⟩

/-- Before the last byte the parser holds the text. -/
theorem eatoneLoop_stringSeq (s : StringSeq) (suffix : List UInt8) (hp : p.faults = []) :
    ∃ p', eatoneLoop (s.render ++ suffix) 0 .sta p
        = eatoneLoop (s.terminator :: suffix) (s.text.length + 2) .sqc p' ∧ Holds p' s.text := by
  have hsta : St.sta ≠ .fin ∧ St.sta ≠ .err := by decide
  obtain ⟨p', hrun, hp'⟩ := eatoneLoop_holds (holds_begin hp) (fun c => s.text_byte)
    (s.terminator :: suffix) 2
  refine ⟨p', ?_, hp'⟩
  rw [StringSeq.render, List.cons_append, List.cons_append, List.append_assoc,
    List.singleton_append, eatoneLoop_esc hsta, eatoneLoop_sqc, hrun, Nat.add_comm]

theorem captures_of_bell (s : StringSeq) (suffix : List UInt8) (dst : Ansiseq) (p : Parser)
    (hterm : s.terminator = 7) (hint : ((s.text.length + 3 : ℕ) : ℤ) ≤ INT_MAX) :
    Captures s suffix dst p := by
  obtain ⟨p', hrun, hp'⟩ := eatoneLoop_stringSeq s suffix (p := { p with faults := [] }) rfl
  have ht : transition .sqc (mktok s.terminator) = some (.fin, .nop) := by
    rw [(mktok_bell _).mpr hterm]
    rfl
  rw [eatoneLoop_fin ht] at hrun
  have heat := (eatoneInto_of_loop hrun hp'.noFault dst).1 hint
  refine ⟨by rw [heat], ?_, ?_, ?_⟩
  · rw [heat]
    exact hp'.cls
  · rw [heat]
    exact hp'.strarg
  · intro d' hne hd'
    refine (eatone_terminated p ?_).strargLen_lt
    rcases d' with _ | ⟨c, d'⟩
    · exact absurd rfl hne
    · rw [StringSeq.render, List.cons_append, List.cons_prefix_cons] at hd'
      rw [List.head?_cons, hd'.1]

theorem Captures.bell {s : StringSeq} {suffix : List UInt8} {dst : Ansiseq}
    (h : Captures s suffix dst p) :
    s.terminator = 7 ∧ ((s.text.length + 3 : ℕ) : ℤ) ≤ INT_MAX := by
  have hlength : (eatone (s.render ++ suffix) p).2 = .ok (some (s.text.length + 3)) := h.length
  obtain ⟨q, hq, -, hint⟩ := eatone_some_iff.mp hlength
  refine ⟨?_, hint⟩
  -- any other terminator is one more byte of the text
  by_contra hterm
  obtain ⟨p', hrun, -⟩ := eatoneLoop_stringSeq s suffix (p := { p with faults := [] }) rfl
  have hesc : s.terminator ≠ ESC := by
    rcases s.terminator_eq with ht | ht <;> rw [ht] <;> decide
  rw [hrun, eatoneLoop_mkstr hesc fun ht => hterm ((isTerminator_iff _).mp ht)] at hq
  have := (eatoneLoop_some hq).1
  omega

/-- **A string sequence is captured exactly when** it ends in the bell, and its
length is an `int`. -/
theorem captures_iff (s : StringSeq) (suffix : List UInt8) (dst : Ansiseq) (p : Parser) :
    Captures s suffix dst p ↔ s.terminator = 7 ∧ ((s.text.length + 3 : ℕ) : ℤ) ≤ INT_MAX :=
  ⟨Captures.bell, fun ⟨hterm, hint⟩ => captures_of_bell s suffix dst p hterm hint⟩

/-- `ESC ] a` and the string terminator. -/
def strm : StringSeq where
  text := [97]
  terminator := 0x9C
  text_free := by
    intro c hc
    rw [List.mem_singleton.mp hc]
    decide
  terminator_eq := .inr rfl

/-- `'\234'` is a negative constant, which no byte equals. -/
theorem not_captures_strm : ¬ Captures strm [] protoseq parser₀ := by
  intro h
  exact absurd h.bell.1 (by decide)

end Swh.Ansiseq
