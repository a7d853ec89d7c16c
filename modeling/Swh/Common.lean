/-
Buffers, `shiftbuf`, `growbuf` and `xread` (common/common.c).

A buffer variable of the source, its size variable and its count variable are
one `Buf`: the size is that of the block it points to.  `Buf.Records b xs` says
that the buffer counts exactly the bytes `xs` and has a NUL behind them; the
operations are described by what they do to the recorded bytes.
-/
import Swh.Basic
import Mathlib.Tactic.Common

namespace Swh

/-- `char *buf; size_t bufsz, bufcnt;` -/
structure Buf where
  mem : Block UInt8
  cnt : ℕ

/-- `(buf = xmalloc(bufsz = n))[0] = '\0'` -/
def Buf.xmalloc (n : ℕ) (h : 0 < n) : Buf :=
  ⟨(Block.alloc n h).storeFirst 0, 0⟩

/-- Shift data to the left by `n` elements. -/
def shiftbuf (b : Buf) (n : ℕ) : Except Stop Buf :=
  if n = 0 then .ok b
  else if n ≤ b.cnt then do
    let m ← access (b.mem.move n (b.cnt - n))
    .ok ⟨m, b.cnt - n⟩
  else .error (.undefined .memory) -- `*bufcnt` wraps around, `memmove` leaves the buffer

/-- `while (nsz < minsz) nsz *= 2;` for a positive `nsz`. -/
def growSize (nsz minsz : ℕ) (h : 0 < nsz) : ℕ :=
  if nsz < minsz then growSize (nsz * 2) minsz (by omega) else nsz
termination_by minsz - nsz

/-- The loop returns the room that was asked for. -/
theorem le_growSize (nsz minsz : ℕ) (h : 0 < nsz) :
    minsz ≤ growSize nsz minsz h ∧ nsz ≤ growSize nsz minsz h := by
  fun_induction growSize nsz minsz h with
  | case1 nsz h hlt ih => omega
  | case2 nsz h hge => omega

/-- Ensure that the block can stomach at least `minsz` bytes. -/
def growbuf (m : Block UInt8) (minsz : ℕ) : Block UInt8 :=
  if minsz < m.size then m
  else m.realloc (growSize m.size minsz m.size_pos)
    (lt_of_lt_of_le m.size_pos (le_growSize m.size minsz m.size_pos).2)

theorem le_size_growbuf (m : Block UInt8) (minsz : ℕ) :
    minsz ≤ (growbuf m minsz).size ∧ m.size ≤ (growbuf m minsz).size := by
  rw [growbuf]
  split
  · omega
  · exact le_growSize m.size minsz m.size_pos

theorem growbuf_holds {m : Block UInt8} {xs : List UInt8} (h : m.Holds xs) (minsz : ℕ) :
    (growbuf m minsz).Holds xs := by
  rw [growbuf]
  split
  · exact h
  · exact Block.realloc_holds _ h (le_growSize m.size minsz m.size_pos).2

/-- `growbuf(&buf, &bufsz, minsz)` -/
def Buf.grow (b : Buf) (minsz : ℕ) : Buf := ⟨growbuf b.mem minsz, b.cnt⟩

/-- Store bytes behind those that are counted, and count them. -/
def Buf.append (b : Buf) (xs : List UInt8) : Except Stop Buf := do
  let m ← access (b.mem.write b.cnt xs)
  .ok ⟨m, b.cnt + xs.length⟩

/-- What `read(2)` does; no bytes at all stand for the end of the file, or for a
request that asked for none. -/
inductive ReadResult
  | bytes (bs : List UInt8)
  | eagain
  | error
  deriving DecidableEq, Repr

/-- `xread`: the bytes that were read, or `none` for `EAGAIN`. -/
def xread : ReadResult → Except Stop (Option (List UInt8))
  | .bytes [] => .error (.panic .readEof)
  | .bytes (c :: bs) => .ok (some (c :: bs))
  | .eagain => .ok none
  | .error => .error (.panic .read)

theorem xread_bytes {r : ReadResult} {bs : List UInt8} (h : xread r = .ok (some bs)) :
    r = .bytes bs := by
  rcases r with (_ | ⟨c, cs⟩) | _ | _ <;> cases h
  rfl

theorem xread_some {r : ReadResult} {bs : List UInt8} (h : xread r = .ok (some bs)) : bs ≠ [] := by
  rcases r with (_ | ⟨c, cs⟩) | _ | _ <;> cases h
  exact List.cons_ne_nil c cs

/-! ### Recorded bytes -/

/-- The buffer counts the bytes `xs`. -/
def Buf.Counts (b : Buf) (xs : List UInt8) : Prop := b.mem.Holds xs ∧ b.cnt = xs.length

/-- The buffer counts the bytes `xs`, with a NUL behind them. -/
def Buf.Records (b : Buf) (xs : List UInt8) : Prop :=
  b.mem.Holds (xs ++ [0]) ∧ b.cnt = xs.length

variable {b : Buf} {xs ys : List UInt8}

theorem Buf.Records.counts (h : b.Records xs) : b.Counts xs := ⟨h.1.of_append, h.2⟩

theorem Buf.Counts.cnt_le (h : b.Counts xs) : b.cnt ≤ b.mem.size := by
  rw [h.2]
  exact h.1.length_le

theorem Buf.Records.cnt_lt (h : b.Records xs) : b.cnt < b.mem.size := by
  have := h.1.length_le
  rw [List.length_append, List.length_singleton] at this
  rw [h.2]
  omega

theorem Buf.Counts.cnt_eq_zero (h : b.Counts xs) : b.cnt = 0 ↔ xs = [] := by
  rw [h.2, List.length_eq_zero_iff]

theorem Buf.xmalloc_records (n : ℕ) (h : 0 < n) : (Buf.xmalloc n h).Records [] :=
  ⟨Block.storeFirst_holds _ 0, rfl⟩

theorem Buf.grow_counts (h : b.Counts xs) (minsz : ℕ) : (b.grow minsz).Counts xs :=
  ⟨growbuf_holds h.1 minsz, h.2⟩

theorem Buf.append_counts (ys : List UInt8) (h : b.Counts xs)
    (hroom : b.cnt + ys.length ≤ b.mem.size) :
    ∃ c, b.append ys = .ok c ∧ c.Counts (xs ++ ys) ∧ c.mem.size = b.mem.size := by
  obtain ⟨hmem, hcnt⟩ := h
  obtain ⟨m, hm, hsize, hholds⟩ := Block.write_holds ys hmem (by rwa [← hcnt])
  refine ⟨⟨m, b.cnt + ys.length⟩, ?_, ⟨hholds, by rw [List.length_append, hcnt]⟩, hsize⟩
  rw [← hcnt] at hm
  rw [Buf.append, hm]
  rfl

/-- `shiftbuf` drops the first recorded bytes. -/
theorem shiftbuf_counts (xs ys : List UInt8) (h : b.Counts (xs ++ ys)) :
    ∃ c, shiftbuf b xs.length = .ok c ∧ c.Counts ys ∧ c.mem.size = b.mem.size := by
  obtain ⟨hmem, hcnt⟩ := h
  rw [List.length_append] at hcnt
  -- `shiftbuf` returns at once if there is nothing to drop
  rcases xs with _ | ⟨x, xs⟩
  · exact ⟨b, rfl, ⟨hmem, by simpa using hcnt⟩, rfl⟩
  · obtain ⟨m, hm, hsize, hholds⟩ := Block.move_holds hmem
    have hrest : b.cnt - (x :: xs).length = ys.length := by omega
    refine ⟨⟨m, ys.length⟩, ?_, ⟨hholds, rfl⟩, hsize⟩
    rw [shiftbuf, if_neg (by simp), if_pos (by omega), hrest, hm]
    rfl

/-- Read the recorded bytes back. -/
theorem Buf.Counts.read (h : b.Counts xs) : access (b.mem.read 0 b.cnt) = .ok xs := by
  rw [h.2, Block.read_prefix h.1, access_some]

/-- A buffer counts no other bytes. -/
theorem Buf.Counts.unique (h : b.Counts xs) (h' : b.Counts ys) : xs = ys := by
  have hread := h.read
  rw [h'.read] at hread
  exact (Except.ok.inj hread).symm

/-! ### C strings -/

/-- The C string at the start of a block. -/
def cstring (m : Block UInt8) : Except Stop (List UInt8) := do
  let len ← access (m.find (· == 0))
  access (m.read 0 len)

/-- `strchr`, for a `c` that is not NUL: where the C string has its first `c`. -/
def strchr (m : Block UInt8) (c : UInt8) : Except Stop (Option ℕ) := do
  let i ← access (m.find fun x => x == c || x == 0)
  let x ← access (m.load i)
  -- the search ended at a `c`, or at the NUL behind the string
  .ok (if x = c then some i else none)

/-- The search ends at the first `c` or NUL. -/
theorem strchr_of_holds {m : Block UInt8} {c y : UInt8} (hxs : ∀ x ∈ xs, x ≠ c ∧ x ≠ 0)
    (hy : y = c ∨ y = 0) (h : m.Holds (xs ++ [y])) :
    strchr m c = .ok (if y = c then some xs.length else none) := by
  have hfind : m.find (fun x => x == c || x == 0) = some xs.length := by
    refine Block.find_of_holds (fun x hx => ?_) (by simpa using hy) h
    simpa using hxs x hx
  have hload : m.load xs.length = some y := by
    rw [Block.load_of_holds h (by simp)]
    simp
  rw [strchr, hfind, access_some]
  show (access (m.load xs.length) >>= _) = _
  rw [hload]
  rfl

/-- What a string function sees of recorded bytes: those before the first NUL. -/
def untilNul (xs : List UInt8) : List UInt8 := xs.takeWhile (· != 0)

theorem untilNul_of_notMem (h : 0 ∉ xs) : untilNul xs = xs := by
  rw [untilNul, List.takeWhile_eq_self_iff]
  intro c hc
  exact bne_iff_ne.mpr fun h0 => h (h0 ▸ hc)

theorem cstring_of_records {m : Block UInt8} (h : m.Holds (xs ++ [0])) :
    cstring m = .ok (untilNul xs) := by
  -- the recorded bytes up to the first NUL, and that NUL
  obtain ⟨zs, hzs⟩ : ∃ zs, xs ++ [0] = untilNul xs ++ (0 :: zs) := by
    clear h
    induction xs with
    | nil => exact ⟨[], rfl⟩
    | cons c xs ih =>
      obtain ⟨zs, hzs⟩ := ih
      rcases eq_or_ne c 0 with rfl | hc
      · exact ⟨xs ++ [0], by simp [untilNul]⟩
      · refine ⟨zs, ?_⟩
        have hcons : untilNul (c :: xs) = c :: untilNul xs := by
          rw [untilNul, List.takeWhile_cons, if_pos (bne_iff_ne.mpr hc), untilNul]
        rw [hcons, List.cons_append, List.cons_append, hzs]
  have hholds : m.Holds (untilNul xs ++ [0]) := by
    rw [hzs, ← List.singleton_append, ← List.append_assoc] at h
    exact h.of_append
  have hfind : m.find (· == 0) = some (untilNul xs).length := by
    refine Block.find_of_holds (fun y hy => ?_) rfl hholds
    have := List.mem_takeWhile_imp hy
    simpa using this
  rw [cstring, hfind, access_some]
  show access (m.read 0 (untilNul xs).length) = _
  rw [Block.read_prefix hholds.of_append, access_some]

end Swh
