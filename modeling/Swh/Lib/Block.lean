/-
Heap blocks whose cells may be indeterminate.

`Block α` is what `malloc` hands out: a positive number of cells, none of
which has a value before it is stored to.  Stores and loads past the end fail
(`none`), and so does loading a cell that was never stored to, so a program
that is total on these operations has neither fault.

* `Block.Holds b xs` — the block starts with the values `xs`;
* `Block.store_of_holds`, `Block.write_holds`, `Block.move_holds` — what a
  store, a copy and an overlapping move do to that prefix;
* `Block.find_of_holds` — how far a search for a terminator gets;
* `Block.Copies.take` — what a copy of cells is, some of which may have no value.
-/
import Mathlib.Logic.Function.Basic
import Mathlib.Data.List.TakeWhile
import Mathlib.Tactic.Common

universe u

/-- A block of `size` cells; `none` is a cell that was never stored to. -/
structure Block (α : Type u) where
  size : ℕ
  size_pos : 0 < size
  cell : ℕ → Option α

namespace Block

variable {α : Type u}

/-- A fresh block: no cell has a value yet. -/
def alloc (n : ℕ) (h : 0 < n) : Block α := ⟨n, h, fun _ => none⟩

/-- A block all of whose cells have one value. -/
def fill (n : ℕ) (h : 0 < n) (x : α) : Block α := ⟨n, h, fun _ => some x⟩

/-- Resizing keeps the cells the old and the new block share. -/
def realloc (b : Block α) (n : ℕ) (h : 0 < n) : Block α :=
  ⟨n, h, fun i => if i < b.size then b.cell i else none⟩

/-- Load one cell. -/
def load (b : Block α) (i : ℕ) : Option α := if i < b.size then b.cell i else none

/-- Store one cell. -/
def store (b : Block α) (i : ℕ) (x : α) : Option (Block α) :=
  if i < b.size then some { b with cell := Function.update b.cell i (some x) } else none

/-- Store to the first cell, which every block has. -/
def storeFirst (b : Block α) (x : α) : Block α :=
  { b with cell := Function.update b.cell 0 (some x) }

/-- Load `n` cells from `i` on. -/
def read (b : Block α) (i : ℕ) : ℕ → Option (List α)
  | 0 => some []
  | n + 1 => (b.load i).bind fun x => (read b (i + 1) n).map (x :: ·)

/-- Copy the values `xs` to the cells from `k` on. -/
def write (b : Block α) (k : ℕ) (xs : List α) : Option (Block α) :=
  if k + xs.length ≤ b.size then
    some { b with cell := fun i => if k ≤ i ∧ i < k + xs.length then xs[i - k]? else b.cell i }
  else none

/-- Move `n` cells from index `k` on to the start of the block; the ranges may
overlap. -/
def move (b : Block α) (k n : ℕ) : Option (Block α) :=
  if k + n ≤ b.size then
    some { b with cell := fun i => if i < n then b.cell (k + i) else b.cell i }
  else none

/-- Number of cells before the first one from `i` on that satisfies `p`,
looking at no more than `n` of them. -/
def findFrom (b : Block α) (p : α → Bool) (i : ℕ) : ℕ → Option ℕ
  | 0 => none
  | n + 1 => (b.load i).bind fun x =>
      if p x then some 0 else (findFrom b p (i + 1) n).map (· + 1)

/-- Number of cells before the first one that satisfies `p`. -/
def find (b : Block α) (p : α → Bool) : Option ℕ := b.findFrom p 0 b.size

/-- The block starts with the values `xs`. -/
def Holds (b : Block α) (xs : List α) : Prop :=
  xs.length ≤ b.size ∧ ∀ i, i < xs.length → b.cell i = xs[i]?

/-- A copy of the first `n` cells may be `xs`: a cell that was never stored to may have any
value. -/
structure Copies (b : Block α) (n : ℕ) (xs : List α) : Prop where
  le : n ≤ b.size
  length : xs.length = n
  cell : ∀ i x, i < n → b.cell i = some x → xs[i]? = some x

variable {b : Block α} {xs ys : List α} {x : α}

theorem Holds.length_le (h : b.Holds xs) : xs.length ≤ b.size := h.1

@[simp] theorem holds_nil : b.Holds [] := ⟨Nat.zero_le _, fun i hi => absurd hi (Nat.not_lt_zero i)⟩

theorem Holds.of_append (h : b.Holds (xs ++ ys)) : b.Holds xs := by
  obtain ⟨hlen, hcell⟩ := h
  rw [List.length_append] at hlen
  refine ⟨by omega, fun i hi => ?_⟩
  rw [hcell i (by rw [List.length_append]; omega), List.getElem?_append_left hi]

/-- A block that grows keeps its prefix. -/
theorem realloc_holds {n : ℕ} (hn : 0 < n) (h : b.Holds xs) (hle : b.size ≤ n) :
    (b.realloc n hn).Holds xs := by
  obtain ⟨hlen, hcell⟩ := h
  refine ⟨le_trans hlen hle, fun i hi => ?_⟩
  show (if i < b.size then b.cell i else none) = xs[i]?
  rw [if_pos (by omega), hcell i hi]

/-! ### Loads -/

theorem load_of_holds (h : b.Holds xs) {i : ℕ} (hi : i < xs.length) : b.load i = xs[i]? := by
  rw [load, if_pos (by have := h.1; omega), h.2 i hi]

theorem read_of_holds (xs ys : List α) (h : b.Holds (xs ++ ys)) :
    b.read xs.length ys.length = some ys := by
  -- what was read moves over to `xs`, so that the index stays its length
  induction ys generalizing xs with
  | nil => rfl
  | cons y ys ih =>
    have hy : b.load xs.length = some y := by
      rw [load_of_holds h (by simp), List.getElem?_append_right (le_refl _)]
      simp
    have htail : b.read (xs.length + 1) ys.length = some ys := by
      simpa using ih (xs ++ [y]) (by simpa using h)
    simp [read, hy, htail]

/-- Reading back the recorded prefix. -/
theorem read_prefix (h : b.Holds xs) : b.read 0 xs.length = some xs := by
  simpa using read_of_holds [] xs (by simpa using h)

/-- As far as the cells were stored to, a copy has their values. -/
theorem Copies.take {n : ℕ} (hc : b.Copies n ys) (h : b.Holds xs) :
    ys.take xs.length = xs.take n := by
  refine List.ext_getElem? fun i => ?_
  rw [List.getElem?_take, List.getElem?_take]
  rcases Nat.lt_or_ge i n with hn | hn
  · rw [if_pos hn]
    split
    · next hi =>
      rw [List.getElem?_eq_getElem hi]
      exact hc.cell i _ hn (by rw [h.2 i hi, List.getElem?_eq_getElem hi])
    · next hi => exact (List.getElem?_eq_none (not_lt.mp hi)).symm
  · rw [if_neg (not_lt.mpr hn), List.getElem?_eq_none (hc.length.trans_le hn), ite_self]

/-- What was stored can be copied, with any value behind it that was not. -/
theorem copies_concat (h : b.Holds xs) (hlt : xs.length < b.size)
    (hnone : b.cell xs.length = none) (x : α) : b.Copies (xs.length + 1) (xs ++ [x]) where
  le := hlt
  length := by rw [List.length_append, List.length_singleton]
  cell i y hi hy := by
    rcases Nat.lt_succ_iff_lt_or_eq.mp hi with hi | rfl
    · rw [List.getElem?_append_left hi, ← h.2 i hi, hy]
    · rw [hnone] at hy
      cases hy

theorem copies_of_holds (h : b.Holds xs) : b.Copies xs.length xs where
  le := h.1
  length := rfl
  cell i y hi hy := by rw [← h.2 i hi, hy]

theorem findFrom_of_holds {p : α → Bool} (xs : List α) (hys : ∀ y ∈ ys, p y = false)
    (hx : p x = true) (h : b.Holds (xs ++ ys ++ [x])) {n : ℕ} (hn : ys.length < n) :
    b.findFrom p xs.length n = some ys.length := by
  -- the values that were looked at move over to `xs`
  induction ys generalizing xs n with
  | nil =>
    obtain ⟨n, rfl⟩ : ∃ k, n = k + 1 := ⟨n - 1, by omega⟩
    have hload : b.load xs.length = some x := by
      rw [load_of_holds h (by simp)]; simp
    simp [findFrom, hload, hx]
  | cons y ys ih =>
    obtain ⟨n, rfl⟩ : ∃ k, n = k + 1 := ⟨n - 1, by omega⟩
    have hload : b.load xs.length = some y := by
      rw [load_of_holds h (by simp)]; simp
    have hrest := ih (n := n) (xs ++ [y]) (fun z hz => hys z (List.mem_cons_of_mem y hz))
      (by simpa using h) (by simpa using hn)
    rw [List.length_append] at hrest
    simp [findFrom, hload, hys y List.mem_cons_self, show b.findFrom p (xs.length + 1) n
      = some ys.length from hrest]

/-- The search stops at the first value that satisfies `p`. -/
theorem find_of_holds {p : α → Bool} (hxs : ∀ y ∈ xs, p y = false) (hx : p x = true)
    (h : b.Holds (xs ++ [x])) : b.find p = some xs.length :=
  findFrom_of_holds [] hxs hx (by simpa using h)
    (by have := h.1; rw [List.length_append] at this; simp at this; omega)

/-! ### Stores -/

theorem size_store {c : Block α} {i : ℕ} (h : b.store i x = some c) : c.size = b.size := by
  rw [store] at h
  split at h
  · cases h
    rfl
  · cases h

theorem size_write {c : Block α} {k : ℕ} (h : b.write k xs = some c) : c.size = b.size := by
  rw [write] at h
  split at h
  · cases h
    rfl
  · cases h

/-- A copy leaves the cells behind it alone. -/
theorem cell_write {c : Block α} {k i : ℕ} (h : b.write k xs = some c) (hi : k + xs.length ≤ i) :
    c.cell i = b.cell i := by
  rw [write] at h
  split at h
  · cases h
    exact if_neg (by omega)
  · cases h

theorem size_move {c : Block α} {k n : ℕ} (h : b.move k n = some c) : c.size = b.size := by
  rw [move] at h
  split at h
  · cases h
    rfl
  · cases h

/-- A store right behind the prefix extends it. -/
theorem store_of_holds (h : b.Holds xs) (hlt : xs.length < b.size) (x : α) :
    ∃ c, b.store xs.length x = some c ∧ c.size = b.size ∧ c.Holds (xs ++ [x]) := by
  refine ⟨{ b with cell := Function.update b.cell xs.length (some x) },
    by rw [store, if_pos hlt], rfl, by simpa using Nat.succ_le_of_lt hlt, fun i hi => ?_⟩
  rw [List.length_append, List.length_singleton] at hi
  rcases Nat.lt_or_ge i xs.length with hlt' | hge
  · show Function.update b.cell xs.length (some x) i = _
    rw [Function.update_of_ne (by omega), h.2 i hlt', List.getElem?_append_left hlt']
  · obtain rfl : i = xs.length := by omega
    simp

theorem storeFirst_holds (b : Block α) (x : α) : (b.storeFirst x).Holds [x] := by
  refine ⟨b.size_pos, fun i hi => ?_⟩
  obtain rfl : i = 0 := by simpa using hi
  simp [storeFirst]

theorem fill_holds {n : ℕ} (h : 0 < n) (x : α) : (fill n h x).Holds [x] := by
  refine ⟨h, fun i hi => ?_⟩
  obtain rfl : i = 0 := by simpa using hi
  rfl

/-- A copy right behind the prefix extends it. -/
theorem write_holds (ys : List α) (h : b.Holds xs) (hle : xs.length + ys.length ≤ b.size) :
    ∃ c, b.write xs.length ys = some c ∧ c.size = b.size ∧ c.Holds (xs ++ ys) := by
  refine ⟨{ b with cell := fun i => if xs.length ≤ i ∧ i < xs.length + ys.length
      then ys[i - xs.length]? else b.cell i },
    by rw [write, if_pos hle], rfl, by rwa [List.length_append], fun i hi => ?_⟩
  rw [List.length_append] at hi
  show (if xs.length ≤ i ∧ i < xs.length + ys.length then ys[i - xs.length]? else b.cell i) = _
  -- a cell of the old prefix, or one that was copied
  rcases Nat.lt_or_ge i xs.length with hlt | hge
  · rw [if_neg (by omega), h.2 i hlt, List.getElem?_append_left hlt]
  · rw [if_pos ⟨hge, hi⟩, List.getElem?_append_right hge]

/-- Moving the tail of the prefix to the front drops its first values. -/
theorem move_holds (h : b.Holds (xs ++ ys)) :
    ∃ c, b.move xs.length ys.length = some c ∧ c.size = b.size ∧ c.Holds ys := by
  have hlen := h.1
  rw [List.length_append] at hlen
  refine ⟨{ b with cell := fun i => if i < ys.length then b.cell (xs.length + i) else b.cell i },
    by rw [move, if_pos hlen], rfl, le_trans (Nat.le_add_left _ _) hlen, fun i hi => ?_⟩
  show (if i < ys.length then b.cell (xs.length + i) else b.cell i) = ys[i]?
  rw [if_pos hi, h.2 (xs.length + i) (by rw [List.length_append]; omega),
    List.getElem?_append_right (Nat.le_add_right _ _), Nat.add_sub_cancel_left]

end Block
