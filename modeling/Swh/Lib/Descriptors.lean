/-
Tables of file descriptors.

A descriptor is open on some object or free, and a new one is the lowest that is free.
Negative numbers are never open, so that closing -1 does nothing.

* `FdTable.opens_spec` — what opening a descriptor does;
* `close_apply`, `dup2_apply` — what is open after `close` and `dup2`.
-/
import Mathlib.Data.Int.Order.Basic
import Mathlib.Logic.Function.Basic
import Mathlib.Tactic.Common

universe u

/-- The object each descriptor is open on, if any. -/
abbrev FdTable (ω : Type u) := ℤ → Option ω

namespace FdTable

variable {ω : Type u} {t t' : FdTable ω} {x y : ω} {fd old new i : ℤ} {limit : ℕ}

def close (t : FdTable ω) (fd : ℤ) : FdTable ω := Function.update t fd none

/-- `dup2(old, new)`, which does nothing if `old` is not open. -/
def dup2 (t : FdTable ω) (old new : ℤ) : FdTable ω :=
  match t old with
  | some x => Function.update t new (some x)
  | none => t

/-- The lowest free descriptor, if there is one below the limit. -/
def lowest (t : FdTable ω) (limit : ℕ) : Option ℕ :=
  (List.range limit).find? fun i => (t i).isNone

/-- A descriptor is opened on `x`. -/
def opens (t : FdTable ω) (limit : ℕ) (x : ω) : Option (ℤ × FdTable ω) :=
  (t.lowest limit).map fun n : ℕ => ((n : ℤ), Function.update t (n : ℤ) (some x))

@[simp] theorem close_self (t : FdTable ω) (fd : ℤ) : t.close fd fd = none :=
  Function.update_self ..

theorem close_ne (t : FdTable ω) (h : i ≠ fd) : t.close fd i = t i := Function.update_of_ne h ..

theorem close_apply : t.close fd i = some x ↔ i ≠ fd ∧ t i = some x := by
  by_cases h : i = fd
  · simp [h]
  · simp [h, close_ne]

theorem dup2_none (h : t old = none) : t.dup2 old new = t := by rw [dup2, h]

theorem dup2_some (h : t old = some x) : t.dup2 old new = Function.update t new (some x) := by
  rw [dup2, h]

theorem dup2_self (h : t old = some x) : t.dup2 old new new = some x := by
  rw [dup2_some h, Function.update_self]

theorem dup2_ne (t : FdTable ω) (old : ℤ) (h : i ≠ new) : t.dup2 old new i = t i := by
  rcases ho : t old with _ | x
  · rw [dup2_none ho]
  · rw [dup2_some ho, Function.update_of_ne h]

/-- `dup2` opens nothing that is not open already. -/
theorem dup2_apply (h : t.dup2 old new i = some x) : ∃ j, t j = some x := by
  rcases ho : t old with _ | y
  · rw [dup2_none ho] at h
    exact ⟨i, h⟩
  · rw [dup2_some ho] at h
    by_cases hi : i = new
    · rw [hi, Function.update_self] at h
      exact ⟨old, ho.trans h⟩
    · rw [Function.update_of_ne hi] at h
      exact ⟨i, h⟩

/-- **A new descriptor** is the lowest that was free. -/
theorem opens_spec (h : t.opens limit x = some (fd, t')) :
    0 ≤ fd ∧ t fd = none ∧ t' = Function.update t fd (some x) ∧
      ∀ i, 0 ≤ i → i < fd → t i ≠ none := by
  rw [opens, Option.map_eq_some_iff] at h
  obtain ⟨n, hn, heq⟩ := h
  cases heq
  rw [lowest, List.find?_range_eq_some] at hn
  obtain ⟨hnone, -, hlow⟩ := hn
  refine ⟨Int.natCast_nonneg n, Option.isNone_iff_eq_none.mp hnone, rfl, fun i h0 hi => ?_⟩
  obtain ⟨j, rfl⟩ := Int.eq_ofNat_of_zero_le h0
  have := hlow j (by omega)
  rintro hj
  rw [hj] at this
  cases this

end FdTable
