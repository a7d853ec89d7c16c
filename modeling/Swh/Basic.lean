/-
How a run of swh ends early.

`C(...)` and `CE(...)` complain, dump core and exit: a `Panic` carries what the
message prints.  Where the C language does not say what happens next the model
stops as well, with the `Fault` that was met: a store behind an array, a signed
overflow, a size that does not fit the `int` it is returned as.  Sizes are
natural numbers; memory does not run out.
-/
import Swh.Lib.Block
import Swh.Lib.TokenStream

namespace Swh

/-- The `C` and `CE` calls of the modelled code. -/
inductive Panic
  /-- "error state reached through 0x%02x (%c) at input byte %zu (prevstate %d)" -/
  | ansiseq (c : UInt8) (i : ℕ) (prevst : ℕ)
  /-- "read: EOF" -/
  | readEof
  /-- "read" -/
  | read
  /-- "cannot operate while ready" -/
  | operateReady
  /-- "cannot operate while offline" -/
  | operateOffline
  /-- "invalid state %d" -/
  | invalidState (st : ℤ)
  /-- "attempt to write outside READY state" -/
  | writeOutsideReady
  /-- "write buffer not empty" -/
  | writebufNotEmpty
  /-- "line from user didn't end in newline" -/
  | noNewline
  /-- "fsm in error state" -/
  | fsmError
  /-- "meh" -/
  | meh
  /-- "why isn't the outbuf empty here" -/
  | outbufNotEmpty
  /-- "sc offline" -/
  | scOffline
  /-- "bug: uc doesn't have data yet claims to do" -/
  | ucNoData
  deriving DecidableEq, Repr

/-- Where the C language gives the run no meaning. -/
inductive Fault
  /-- `act_stor` stores to `argv[i]`, outside the array. -/
  | argvStore (i : ℤ)
  /-- `act_mkpar` computes `v`, which is no `int`. -/
  | parmOverflow (v : ℤ)
  /-- `ansiseq_eatone` returns `n`, which is no `int`. -/
  | intReturn (n : ℕ)
  /-- A transition table is indexed with a row it does not have. -/
  | tableRow (row : ℕ)
  /-- A load or store outside a buffer, or a load of an indeterminate byte. -/
  | memory
  deriving DecidableEq, Repr

/-- Why a run stops. -/
inductive Stop
  | panic (p : Panic)
  | undefined (f : Fault)
  deriving DecidableEq, Repr

/-- `INT_MAX` -/
def INT_MAX : ℤ := 2147483647

/-- `INT_MIN` -/
def INT_MIN : ℤ := -2147483648

/-- A memory access, which has no meaning when it fails. -/
def access {α : Type} : Option α → Except Stop α
  | some a => .ok a
  | none => .error (.undefined .memory)

@[simp] theorem access_some {α : Type} (a : α) : access (some a) = .ok a := rfl

theorem bind_eq_ok {ε α β : Type} {x : Except ε α} {f : α → Except ε β} {b : β}
    (h : x >>= f = .ok b) : ∃ a, x = .ok a ∧ f a = .ok b := by
  cases x with
  | error e => cases h
  | ok a => exact ⟨a, rfl, h⟩

theorem access_eq_ok {α : Type} {o : Option α} {a : α} (h : access o = .ok a) : o = some a := by
  cases o with
  | some b =>
    cases h
    rfl
  | none => cases h

end Swh
