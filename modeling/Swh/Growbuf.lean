/-
The doubling of `growbuf` (common/common.c), in machine words.

The model of the other modules counts sizes with natural numbers.  `SizeT.growbuf` is
the size that `growbuf` computes in a 64-bit `size_t`, where `nsz *= 2` may wrap
around; the events it logs are the products before they do.

* `growSize_least`, `growSize_lt` — the least power of two times the old size that is
  large enough, and less than twice what was asked for;
* `SizeT.growLoop_spec` — up to 2^63 no product wraps around, and the words are the
  natural numbers of the model;
* `SizeT.Call.pow_two` — a size that is a power of two stays one, whatever is asked for;
* `SizeT.growbuf_stuck` — beyond 2^63 the loop does not end;
* `growbuf_doubles` — these together, and the sizes of the buffers of sc in every run.
-/
import Swh.InitPhase
import Mathlib.Order.Bounds.Basic
import Mathlib.Logic.Relation

namespace Swh

/-! ### Doubling -/

/-- The sizes that doubling can reach and that are large enough. -/
def Enough (bufsz minsz : ℕ) : Set ℕ := {n | (∃ k, n = bufsz * 2 ^ k) ∧ minsz ≤ n}

theorem growSize_least (nsz minsz : ℕ) (h : 0 < nsz) :
    IsLeast (Enough nsz minsz) (growSize nsz minsz h) := by
  fun_induction growSize nsz minsz h with
  | case1 nsz h hlt ih =>
    obtain ⟨⟨⟨k, hk⟩, hle⟩, hleast⟩ := ih
    refine ⟨⟨⟨k + 1, by rw [hk, pow_succ', mul_assoc]⟩, hle⟩, ?_⟩
    rintro n ⟨⟨j, rfl⟩, hn⟩
    -- the old size itself is too small
    cases j with
    | zero =>
      rw [pow_zero, mul_one] at hn
      exact absurd hn (Nat.not_le.mpr hlt)
    | succ j => exact hleast ⟨⟨j, by rw [pow_succ', mul_assoc]⟩, hn⟩
  | case2 nsz h hge =>
    refine ⟨⟨⟨0, (mul_one nsz).symm⟩, Nat.not_lt.mp hge⟩, ?_⟩
    rintro n ⟨⟨j, rfl⟩, -⟩
    exact Nat.le_mul_of_pos_right nsz (Nat.two_pow_pos j)

theorem growSize_lt (nsz minsz : ℕ) (h : 0 < nsz) (hlt : nsz < minsz) :
    growSize nsz minsz h < 2 * minsz := by
  fun_induction growSize nsz minsz h with
  | case1 nsz h _ ih =>
    by_cases hnext : nsz * 2 < minsz
    · exact ih hnext
    · rw [growSize, if_neg hnext]
      omega
  | case2 nsz h hge => exact absurd hlt hge

theorem growSize_of_le {nsz minsz : ℕ} (h : 0 < nsz) (hle : minsz ≤ nsz) :
    growSize nsz minsz h = nsz := by
  rw [growSize, if_neg (Nat.not_lt.mpr hle)]

theorem growSize_of_lt {nsz minsz : ℕ} (h : 0 < nsz) (hlt : nsz < minsz) :
    growSize nsz minsz h = growSize (nsz * 2) minsz (by omega) := by
  rw [growSize, if_pos hlt]

/-- What `growbuf` makes of the size of a block. -/
theorem size_growbuf (m : Block UInt8) (minsz : ℕ) :
    (growbuf m minsz).size = growSize m.size minsz m.size_pos := by
  rw [growbuf]
  split
  · rename_i hlt
    exact (growSize_of_le m.size_pos hlt.le).symm
  · rfl

/-! ### In 64 bits -/

namespace SizeT

/-- `while (nsz < minsz) nsz *= 2;` as long as there is fuel. -/
def growLoop (minsz : UInt64) : ℕ → UInt64 → Logged ℕ Unit UInt64
  | 0, _ => Logged.fail ()
  | fuel + 1, nsz =>
    if nsz < minsz then do
      Logged.tell (nsz.toNat * 2)
      growLoop minsz fuel (nsz * 2)
    else pure nsz

/-- The size `growbuf` leaves behind. -/
def growbuf (fuel : ℕ) (bufsz minsz : UInt64) : Logged ℕ Unit UInt64 :=
  if minsz < bufsz then pure bufsz else growLoop minsz fuel bufsz

theorem toNat_double {nsz : UInt64} (h : nsz.toNat < 2 ^ 63) : (nsz * 2).toNat = nsz.toNat * 2 := by
  rw [UInt64.toNat_mul, show (2 : UInt64).toNat = 2 from rfl]
  exact Nat.mod_eq_of_lt (by omega)

/-- **The loop does not wrap around**, and ends with what the natural numbers say. -/
theorem growLoop_spec {minsz : UInt64} (hmin : minsz.toNat ≤ 2 ^ 63) (nsz : UInt64)
    (h : 0 < nsz.toNat) : ∃ n l nsz', (∀ fuel, n ≤ fuel → growLoop minsz fuel nsz = ⟨l, .ok nsz'⟩) ∧
      (∀ x ∈ l, x ≤ 2 ^ 64 - 1) ∧ nsz'.toNat = growSize nsz.toNat minsz.toNat h := by
  induction hd : minsz.toNat - nsz.toNat using Nat.strong_induction_on generalizing nsz with
  | _ d ih =>
    by_cases hlt : nsz < minsz
    · have hlt' : nsz.toNat < minsz.toNat := UInt64.lt_iff_toNat_lt.mp hlt
      have hdouble := toNat_double (lt_of_lt_of_le hlt' hmin)
      obtain ⟨n, l, nsz', hrun, hl, hnsz'⟩ := ih (minsz.toNat - (nsz * 2).toNat)
        (by omega) (nsz * 2) (by omega) rfl
      refine ⟨n + 1, nsz.toNat * 2 :: l, nsz', fun fuel hfuel => ?_, ?_, ?_⟩
      · obtain ⟨fuel, rfl⟩ : ∃ k, fuel = k + 1 := ⟨fuel - 1, by omega⟩
        rw [growLoop, if_pos hlt, hrun fuel (by omega)]
        rfl
      · intro x hx
        rcases List.mem_cons.mp hx with rfl | hx
        · omega
        · exact hl x hx
      · rw [hnsz', growSize_of_lt h hlt']
        simp only [hdouble]
    · refine ⟨1, [], nsz, fun fuel hfuel => ?_, by simp, ?_⟩
      · obtain ⟨fuel, rfl⟩ : ∃ k, fuel = k + 1 := ⟨fuel - 1, by omega⟩
        rw [growLoop, if_neg hlt]
        rfl
      · rw [growSize_of_le]
        exact UInt64.le_iff_toNat_le.mp (UInt64.not_lt.mp hlt)

/-- What `growbuf` does where its loop cannot wrap around. -/
structure Grows (bufsz minsz : UInt64) (products : List ℕ) (nsz : UInt64) : Prop where
  returns : ∃ n, ∀ fuel, n ≤ fuel → growbuf fuel bufsz minsz = ⟨products, .ok nsz⟩
  noWrap : ∀ x ∈ products, x ≤ 2 ^ 64 - 1
  room : minsz ≤ nsz
  noShrink : bufsz ≤ nsz
  stays : minsz ≤ bufsz → nsz = bufsz
  least : bufsz < minsz → IsLeast (Enough bufsz.toNat minsz.toNat) nsz.toNat
  small : bufsz < minsz → nsz.toNat < 2 * minsz.toNat
  /-- The model of the other modules computes the same size. -/
  model : ∀ m : Block UInt8, m.size = bufsz.toNat →
    (Swh.growbuf m minsz.toNat).size = nsz.toNat

theorem exists_grows {bufsz minsz : UInt64} (hbuf : 0 < bufsz.toNat)
    (hmin : minsz.toNat ≤ 2 ^ 63) : ∃ products nsz, Grows bufsz minsz products nsz := by
  obtain ⟨n, l, nsz, hrun, hl, hnsz⟩ := growLoop_spec hmin bufsz hbuf
  obtain ⟨hroom, hnoShrink⟩ := le_growSize bufsz.toNat minsz.toNat hbuf
  have hmodel : ∀ m : Block UInt8, m.size = bufsz.toNat →
      (Swh.growbuf m minsz.toNat).size = growSize bufsz.toNat minsz.toNat hbuf := by
    intro m hm
    rw [size_growbuf]
    simp only [hm]
  by_cases hlt : minsz < bufsz
  · -- it returns before the loop
    have hle := (UInt64.lt_iff_toNat_lt.mp hlt).le
    have hle' : minsz ≤ bufsz := UInt64.le_iff_toNat_le.mpr hle
    have hsame : growSize bufsz.toNat minsz.toNat hbuf = bufsz.toNat := growSize_of_le hbuf hle
    refine ⟨[], bufsz, ⟨0, fun fuel _ => ?_⟩, by simp, hle', UInt64.le_refl _, fun _ => rfl,
      fun h => absurd h (UInt64.not_lt.mpr hle'), fun h => absurd h (UInt64.not_lt.mpr hle'),
      fun m hm => (hmodel m hm).trans hsame⟩
    rw [growbuf, if_pos hlt]
    rfl
  · refine ⟨l, nsz, ⟨n, fun fuel hfuel => ?_⟩, hl, ?_, ?_, fun hle => ?_, fun _ => ?_,
      fun hlt' => ?_, fun m hm => (hmodel m hm).trans hnsz.symm⟩
    · rw [growbuf, if_neg hlt, hrun fuel hfuel]
    · rwa [UInt64.le_iff_toNat_le, hnsz]
    · rwa [UInt64.le_iff_toNat_le, hnsz]
    · rw [growSize_of_le hbuf (UInt64.le_iff_toNat_le.mp hle)] at hnsz
      exact UInt64.toNat_inj.mp hnsz
    · rw [hnsz]
      exact growSize_least _ _ hbuf
    · rw [hnsz]
      exact growSize_lt _ _ hbuf (UInt64.lt_iff_toNat_lt.mp hlt')

example : growbuf 3 4096 10001 = ⟨[8192, 16384], .ok 16384⟩ := rfl

/-! ### Sizes that are powers of two -/

/-- A call of `growbuf` that returns, for whatever size. -/
def Call (bufsz nsz : UInt64) : Prop :=
  ∃ fuel minsz products, growbuf fuel bufsz minsz = ⟨products, .ok nsz⟩

/-- Once it is zero, the size stays so and the loop goes on for ever. -/
theorem growLoop_zero {minsz : UInt64} (h : 0 < minsz) (fuel : ℕ) :
    (growLoop minsz fuel 0).res = .error () := by
  induction fuel with
  | zero => rfl
  | succ fuel ih =>
    rw [growLoop, if_pos h]
    exact ih

/-- A power of two is doubled to another one, or to zero. -/
theorem growLoop_pow_two {minsz nsz nsz' : UInt64} {fuel e : ℕ} (h : nsz.toNat = 2 ^ e)
    (hres : (growLoop minsz fuel nsz).res = .ok nsz') : ∃ k, nsz'.toNat = nsz.toNat * 2 ^ k := by
  induction fuel generalizing nsz e with
  | zero => cases hres
  | succ fuel ih =>
    by_cases hlt : nsz < minsz
    · rw [growLoop, if_pos hlt] at hres
      have hres' : (growLoop minsz fuel (nsz * 2)).res = .ok nsz' := hres
      have he : e < 64 := by
        have := nsz.toNat_lt
        rw [h] at this
        exact (Nat.pow_lt_pow_iff_right (by decide)).mp this
      rcases Nat.lt_or_ge e 63 with hsmall | hlarge
      · have hdouble : (nsz * 2).toNat = nsz.toNat * 2 :=
          toNat_double (h ▸ Nat.pow_lt_pow_right (by decide) hsmall)
        obtain ⟨k, hk⟩ := ih (e := e + 1) (by rw [hdouble, h, pow_succ]) hres'
        exact ⟨k + 1, by rw [hk, hdouble, pow_succ', mul_assoc]⟩
      · -- the product is 2^64
        have hzero : nsz * 2 = 0 := by
          apply UInt64.toNat_inj.mp
          rw [UInt64.toNat_mul, h, show e = 63 by omega]
          rfl
        have hpos : 0 < minsz := by
          refine UInt64.lt_iff_toNat_lt.mpr ?_
          have := UInt64.lt_iff_toNat_lt.mp hlt
          exact Nat.zero_lt_of_lt this
        rw [hzero, growLoop_zero hpos] at hres'
        cases hres'
    · rw [growLoop, if_neg hlt] at hres
      cases hres
      exact ⟨0, (mul_one _).symm⟩

theorem Call.pow_two {bufsz nsz : UInt64} {e : ℕ} (hc : Call bufsz nsz)
    (h : bufsz.toNat = 2 ^ e) : ∃ k, nsz.toNat = bufsz.toNat * 2 ^ k := by
  obtain ⟨fuel, minsz, products, hrun⟩ := hc
  rw [growbuf] at hrun
  split at hrun
  · cases hrun
    exact ⟨0, (mul_one _).symm⟩
  · exact growLoop_pow_two h (congrArg Logged.res hrun)

theorem le_of_growLoop {minsz nsz nsz' : UInt64} {fuel : ℕ}
    (h : (growLoop minsz fuel nsz).res = .ok nsz') : minsz ≤ nsz' := by
  induction fuel generalizing nsz with
  | zero => cases h
  | succ fuel ih =>
    by_cases hlt : nsz < minsz
    · rw [growLoop, if_pos hlt] at h
      exact ih h
    · rw [growLoop, if_neg hlt] at h
      cases h
      exact UInt64.not_lt.mp hlt

/-- Asked for more than 2^63 bytes, the loop does not end. -/
theorem growbuf_stuck {bufsz minsz : UInt64} {e : ℕ} (h : bufsz.toNat = 2 ^ e)
    (hmin : 2 ^ 63 < minsz.toNat) (fuel : ℕ) : (growbuf fuel bufsz minsz).res = .error () := by
  have hpow : ∀ {k : ℕ} {x : UInt64}, x.toNat = 2 ^ k → ¬ minsz ≤ x := by
    intro k x hx hle
    have hlt := x.toNat_lt
    rw [UInt64.le_iff_toNat_le] at hle
    rw [hx] at hlt hle
    -- there is no power of two between 2^63 and 2^64
    have hk : k < 64 := (Nat.pow_lt_pow_iff_right (by decide)).mp hlt
    have : 2 ^ k ≤ 2 ^ 63 := Nat.pow_le_pow_right (by decide) (Nat.le_of_lt_succ hk)
    omega
  have hlt : ¬ minsz < bufsz := fun hlt => hpow h (UInt64.le_of_lt hlt)
  rw [growbuf, if_neg hlt]
  rcases hres : (growLoop minsz fuel bufsz).res with - | nsz
  · rfl
  · obtain ⟨k, hk⟩ := growLoop_pow_two h hres
    refine absurd (le_of_growLoop hres) (hpow (k := e + k) ?_)
    rw [hk, h, pow_add]

/-- The sizes that calls of `growbuf` lead to, one after the other. -/
theorem pow_two_of_calls {bufsz nsz : UInt64} {e : ℕ} (h : bufsz.toNat = 2 ^ e)
    (hcalls : Relation.ReflTransGen Call bufsz nsz) : ∃ k, nsz.toNat = bufsz.toNat * 2 ^ k := by
  induction hcalls with
  | refl => exact ⟨0, (mul_one _).symm⟩
  | tail _ hc ih =>
    obtain ⟨j, hj⟩ := ih
    obtain ⟨k, hk⟩ := hc.pow_two (e := e + j) (by rw [hj, h, pow_add])
    exact ⟨j + k, by rw [hk, hj, mul_assoc, pow_add]⟩

end SizeT

/-! ### The buffers of sc -/

/-- The size of the buffer was doubled any number of times. -/
def Buf.Doubled (b b' : Buf) : Prop := ∃ k, b'.mem.size = b.mem.size * 2 ^ k

namespace Buf.Doubled

variable {b b' b'' : Buf}

theorem of_size_eq (h : b'.mem.size = b.mem.size) : b.Doubled b' :=
  ⟨0, by rw [h, pow_zero, mul_one]⟩

theorem refl (b : Buf) : b.Doubled b := of_size_eq rfl

theorem trans (h : b.Doubled b') (h' : b'.Doubled b'') : b.Doubled b'' := by
  obtain ⟨j, hj⟩ := h
  obtain ⟨k, hk⟩ := h'
  exact ⟨j + k, by rw [hk, hj, mul_assoc, pow_add]⟩

theorem grow (b : Buf) (minsz : ℕ) : b.Doubled (b.grow minsz) := by
  show ∃ k, (growbuf b.mem minsz).size = _
  rw [size_growbuf]
  exact (growSize_least b.mem.size minsz b.mem.size_pos).1.1

theorem append {xs : List UInt8} (h : b.append xs = .ok b') : b.Doubled b' := by
  obtain ⟨m, hm, h⟩ := bind_eq_ok h
  cases h
  exact of_size_eq (Block.size_write (access_eq_ok hm))

theorem shift {n : ℕ} (h : shiftbuf b n = .ok b') : b.Doubled b' := by
  rw [shiftbuf] at h
  split at h
  · cases h
    exact refl b
  · split at h
    · obtain ⟨m, hm, h⟩ := bind_eq_ok h
      cases h
      exact of_size_eq (Block.size_move (access_eq_ok hm))
    · cases h

end Buf.Doubled

/-- The sizes of the four buffers of sc were doubled any number of times. -/
structure Sc.Doubled (s s' : Sc) : Prop where
  readbuf : s.readbuf.Doubled s'.readbuf
  writebuf : s.writebuf.Doubled s'.writebuf
  outbuf : s.outbuf.Doubled s'.outbuf
  ps1buf : s.ps1buf.Doubled s'.ps1buf

namespace Sc.Doubled

variable {s s' s'' : Sc}

theorem refl (s : Sc) : s.Doubled s := ⟨.refl _, .refl _, .refl _, .refl _⟩

theorem trans (h : s.Doubled s') (h' : s'.Doubled s'') : s.Doubled s'' :=
  ⟨h.readbuf.trans h'.readbuf, h.writebuf.trans h'.writebuf, h.outbuf.trans h'.outbuf,
    h.ps1buf.trans h'.ps1buf⟩

end Sc.Doubled

variable {s s' : Sc} {r : ReadResult} {b : Bool} {n : ℕ}

theorem curFeed_doubled {data : List UInt8} (h : (curFeed s data).res = .ok (s', n)) :
    s.Doubled s' := by
  rw [curFeed] at h
  -- only the machine and the parser change
  split at h
  all_goals
    obtain ⟨q, -, h⟩ := Logged.res_bind_eq_ok h
    cases h
    exact { Sc.Doubled.refl s with }

theorem curFeedNull_doubled {len : ℕ} (h : (curFeedNull s len).res = .ok (s', n)) :
    s.Doubled s' := by
  rw [curFeedNull] at h
  split at h
  all_goals
    obtain ⟨q, -, h⟩ := Logged.res_bind_eq_ok h
    cases h
    exact { Sc.Doubled.refl s with }

theorem readRoom_doubled (s : Sc) : s.readbuf.Doubled (readRoom s) := by
  rw [readRoom]
  split
  · exact .grow _ _
  · exact .refl _

theorem readMore_doubled (h : (readMore r s).res = .ok (s', n)) : s.Doubled s' := by
  rw [readMore] at h
  split at h
  · cases h
  · obtain ⟨-, -, h⟩ := Logged.res_bind_eq_ok h
    cases h
    exact { Sc.Doubled.refl s with readbuf := readRoom_doubled s }
  · obtain ⟨-, -, h⟩ := Logged.res_bind_eq_ok h
    obtain ⟨c, hc, h⟩ := Logged.res_lift_bind_eq_ok h
    cases h
    exact { Sc.Doubled.refl s with readbuf := (readRoom_doubled s).trans (.append hc) }

theorem programFor_doubled {c : UInt8} (h : (programFor c s).res = .ok s') : s.Doubled s' := by
  rw [programFor] at h
  split at h
  all_goals
    obtain ⟨-, -, h⟩ := Logged.res_bind_eq_ok h
    cases h
    exact { Sc.Doubled.refl s with }

theorem operWriting_doubled (h : (operWriting s).res = .ok (s', b)) : s.Doubled s' := by
  rw [operWriting] at h
  split at h
  · cases h
  · obtain ⟨c, -, h⟩ := Logged.res_lift_bind_eq_ok h
    obtain ⟨-, -, h⟩ := Logged.res_bind_eq_ok h
    obtain ⟨buf, hbuf, h⟩ := Logged.res_lift_bind_eq_ok h
    obtain ⟨s₁, h₁, h⟩ := Logged.res_bind_eq_ok h
    cases h
    have hshift : s.Doubled { s with writebuf := buf } :=
      { Sc.Doubled.refl s with writebuf := .shift hbuf }
    have hprog := hshift.trans (programFor_doubled h₁)
    exact { hprog with }

theorem react_doubled (h : (react s).res = .ok s') : s.Doubled s' := by
  rw [react] at h
  split at h
  · rw [res_reactInit] at h
    cases h
    exact { Sc.Doubled.refl s with }
  · cases h
    exact .refl s

theorem busyData_doubled (h : (busyData s).res = .ok (s', b)) : s.Doubled s' := by
  rw [busyData] at h
  obtain ⟨data, -, h⟩ := Logged.res_lift_bind_eq_ok h
  obtain ⟨⟨s₁, n⟩, h₁, h⟩ := Logged.res_bind_eq_ok h
  have hfed : s.Doubled s₁ := { curFeed_doubled h₁ with }
  split at h
  · cases h
    exact hfed
  · obtain ⟨s₂, h₂, h⟩ := Logged.res_bind_eq_ok h
    obtain ⟨buf, hbuf, h⟩ := Logged.res_lift_bind_eq_ok h
    have hreact := hfed.trans (react_doubled h₂)
    dsimp only at h
    split at h
    · cases h
    · cases h
      exact { hreact with readbuf := hreact.readbuf.trans (.shift hbuf) }

theorem copyString_doubled {buf buf' : Buf} {str : List UInt8}
    (h : copyString buf str = .ok buf') : buf.Doubled buf' := by
  obtain ⟨m, hm, h⟩ := bind_eq_ok h
  obtain ⟨m', hm', h⟩ := bind_eq_ok h
  cases h
  have hsize : m'.size = (buf.grow (str.length + 1)).mem.size :=
    (Block.size_store (access_eq_ok hm')).trans (Block.size_write (access_eq_ok hm))
  exact (Buf.Doubled.grow buf _).trans (.of_size_eq hsize)

theorem handover_doubled (h : (handover s).res = .ok (s', b)) : s.Doubled s' := by
  rw [handover] at h
  split at h
  · cases h
  · obtain ⟨out, -, h⟩ := Logged.res_lift_bind_eq_ok h
    obtain ⟨outbuf, hout, h⟩ := Logged.res_lift_bind_eq_ok h
    obtain ⟨ps1, -, h⟩ := Logged.res_lift_bind_eq_ok h
    obtain ⟨ps1buf, hps1, h⟩ := Logged.res_lift_bind_eq_ok h
    obtain ⟨-, -, h⟩ := Logged.res_bind_eq_ok h
    cases h
    exact { Sc.Doubled.refl s with
      outbuf := copyString_doubled hout, ps1buf := copyString_doubled hps1 }

theorem busyNodata_doubled (h : (busyNodata s).res = .ok (s', b)) : s.Doubled s' := by
  rw [busyNodata] at h
  obtain ⟨⟨s₁, n⟩, h₁, h⟩ := Logged.res_bind_eq_ok h
  have hprobe := curFeedNull_doubled h₁
  split at h
  · obtain ⟨⟨s₂, n⟩, h₂, h⟩ := Logged.res_bind_eq_ok h
    obtain ⟨-, -, h⟩ := Logged.res_bind_eq_ok h
    have heod := hprobe.trans (curFeedNull_doubled h₂)
    split at h
    · cases h
      exact { heod with }
    · exact heod.trans (handover_doubled h)
  · split at h
    · cases h
      exact { hprobe with }
    · cases h

/-- **A call of `sc_operate`** doubles sizes, if it changes them. -/
theorem scOperate_doubled (h : (scOperate r s).res = .ok (s', b)) : s.Doubled s' := by
  rw [scOperate] at h
  split at h
  · exact operWriting_doubled h
  · obtain ⟨⟨s₁, n⟩, h₁, h⟩ := Logged.res_bind_eq_ok h
    have hread := readMore_doubled h₁
    split at h
    · exact hread.trans (busyData_doubled h)
    · exact hread.trans (busyNodata_doubled h)
  · cases h
  · cases h
  · cases h

/-- **A call of `sc_write`** does so as well. -/
theorem scWrite_doubled {str : List UInt8} (h : (scWrite str s).res = .ok s') : s.Doubled s' := by
  rw [scWrite] at h
  split at h
  · cases h
  · split at h
    · cases h
    · obtain ⟨buf, hbuf, h⟩ := Logged.res_lift_bind_eq_ok h
      obtain ⟨m, hm, h⟩ := Logged.res_lift_bind_eq_ok h
      obtain ⟨-, -, h⟩ := Logged.res_bind_eq_ok h
      cases h
      have hsize : m.size = buf.mem.size := Block.size_store (access_eq_ok hm)
      exact { Sc.Doubled.refl s with
        writebuf := ((Buf.Doubled.grow _ _).trans (.append hbuf)).trans (.of_size_eq hsize)
        outbuf := .of_size_eq rfl }

namespace Core

variable {c c' : Conf} {l : List Ev}

theorem Step.doubled (hs : Step c l c') : c.sc.Doubled c'.sc := by
  cases hs with
  | @operate s w r hbusy hfits hwoken =>
    rcases h : (scOperate r s).res with e | ⟨s', b⟩
    · exact .refl s
    · cases b <;> exact scOperate_doubled h
  | wake => exact .refl _
  | offline hoff => exact .refl _
  | @hand s w hbusy hon => cases (putReply s).res <;> exact .refl s
  | @write s str hstr =>
    rcases h : (scWrite str s).res with e | s'
    · exact .refl s
    · exact scWrite_doubled h

theorem run_doubled (h : Run start l c) : scInit.Doubled c.sc :=
  h.invariant (J := fun _ c => scInit.Doubled c.sc) (i := [])
    (fun _ _ _ _ hJ hs => hJ.trans hs.doubled) (.refl scInit)

/-- The buffer has, and after any call of `growbuf` will have, its first size times a
power of two. -/
def PowTwo (size : ℕ) (b : Buf) : Prop :=
  (∃ k, b.mem.size = size * 2 ^ k) ∧ ∀ minsz, ∃ k, (b.grow minsz).mem.size = size * 2 ^ k

theorem powTwo_of_doubled {b b' : Buf} (h : b.Doubled b') : PowTwo b.mem.size b' :=
  ⟨h, fun minsz => h.trans (.grow b' minsz)⟩

/-- The buffers of sc. -/
structure PowTwos (s : Sc) : Prop where
  readbuf : PowTwo READBUFSZ s.readbuf
  writebuf : PowTwo WRITEBUFSZ s.writebuf
  ps1buf : PowTwo PS1BUFSZ s.ps1buf
  outbuf : PowTwo OUTBUFSZ s.outbuf

/-- The first sizes of the buffers, as `sc_init` has them. -/
def SIZES : List ℕ := [READBUFSZ, WRITEBUFSZ, PS1BUFSZ, OUTBUFSZ]

theorem exists_pow_two_of_mem {size : ℕ} (h : size ∈ SIZES) : ∃ e, e < 64 ∧ 2 ^ e = size := by
  simp only [SIZES, List.mem_cons, List.not_mem_nil, or_false] at h
  rcases h with rfl | rfl | rfl | rfl
  · exact ⟨12, by decide, by decide⟩
  · exact ⟨12, by decide, by decide⟩
  · exact ⟨7, by decide, by decide⟩
  · exact ⟨12, by decide, by decide⟩

/-- **The doubling of `growbuf`**: with room for no more than 2^63 bytes it ends without
wrapping around, with the least size that is large enough; and from the sizes of
`sc_init` on, it leads to powers of two times these, in 64 bits as in the model. -/
theorem growbuf_doubles :
    (∀ bufsz minsz : UInt64, 1 ≤ bufsz.toNat → minsz.toNat ≤ 2 ^ 63 →
      ∃ products nsz, SizeT.Grows bufsz minsz products nsz) ∧
    (∀ size ∈ SIZES, ∀ nsz,
      Relation.ReflTransGen SizeT.Call (UInt64.ofNat size) nsz → ∃ k, nsz.toNat = size * 2 ^ k) ∧
    ∀ l c, Run start l c → PowTwos c.sc := by
  refine ⟨fun bufsz minsz hbuf hmin => ?_, fun size hsize nsz hcalls => ?_, fun l c h => ?_⟩
  · exact SizeT.exists_grows hbuf hmin
  · obtain ⟨e, he, rfl⟩ := exists_pow_two_of_mem hsize
    have hsame : (UInt64.ofNat (2 ^ e)).toNat = 2 ^ e :=
      UInt64.toNat_ofNat_of_lt' (Nat.pow_lt_pow_right (by decide) he)
    obtain ⟨k, hk⟩ := SizeT.pow_two_of_calls hsame hcalls
    exact ⟨k, by rw [hk, hsame]⟩
  · have hd := run_doubled h
    exact ⟨powTwo_of_doubled hd.readbuf, powTwo_of_doubled hd.writebuf,
      powTwo_of_doubled hd.ps1buf, powTwo_of_doubled hd.outbuf⟩

/-- Room for a line of 10000 bytes and its NUL, and the buffers when it was queued. -/
theorem growbuf_doubles_line :
    (∃ products nsz, SizeT.Grows 4096 10001 products nsz) ∧
    ∃ l c, Run start l c ∧ WRITEBUFSZ < c.sc.writebuf.mem.size ∧ PowTwos c.sc := by
  refine ⟨growbuf_doubles.1 4096 10001 (by decide) (by decide), ?_⟩
  obtain ⟨c, hrun, hc⟩ := run_answered (List.replicate (9999 + 1) 97) isChat_x (by decide)
    (List.cons_ne_nil _ _)
  refine ⟨_, c, hrun, ?_, growbuf_doubles.2.2 _ c hrun⟩
  calc WRITEBUFSZ < 9999 + 1 := by decide
    _ = (List.replicate (9999 + 1) (97 : UInt8)).length := List.length_replicate.symm
    _ ≤ c.sc.writebuf.mem.size := hc.1.writebuf.1.length_le

end Core

end Swh
