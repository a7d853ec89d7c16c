/-
Computations that log events and may stop.

`Logged ω ε α` is the outcome of a run: the events of type `ω` it gave rise to,
in order, and either a result or the reason `ε` it stopped for.  Unlike in a
writer over `Except` read the other way round, what was logged before the stop
is still there after it.
-/
import Mathlib.Tactic.Common

/-- The events a computation logged and how it ended. -/
structure Logged (ω ε α : Type) where
  log : List ω
  res : Except ε α

namespace Logged

variable {ω ω' ε α β γ : Type}

@[ext] theorem ext {x y : Logged ω ε α} (hlog : x.log = y.log) (hres : x.res = y.res) :
    x = y := by
  cases x; cases y; cases hlog; cases hres; rfl

/-- Run `f` on the result of `x`, if there is one. -/
def bind (x : Logged ω ε α) (f : α → Logged ω ε β) : Logged ω ε β :=
  match x.res with
  | .ok a => ⟨x.log ++ (f a).log, (f a).res⟩
  | .error e => ⟨x.log, .error e⟩

instance : Monad (Logged ω ε) where
  pure a := ⟨[], .ok a⟩
  bind := bind

/-- Stop. -/
def fail (e : ε) : Logged ω ε α := ⟨[], .error e⟩

/-- Log one event. -/
def tell (w : ω) : Logged ω ε Unit := ⟨[w], .ok ()⟩

/-- A computation that logs nothing. -/
def lift (r : Except ε α) : Logged ω ε α := ⟨[], r⟩

/-- Drop the log. -/
def silent (x : Logged ω' ε α) : Logged ω ε α := ⟨[], x.res⟩

@[simp] theorem log_pure (a : α) : (pure a : Logged ω ε α).log = [] := rfl
@[simp] theorem res_pure (a : α) : (pure a : Logged ω ε α).res = .ok a := rfl
@[simp] theorem log_fail (e : ε) : (fail e : Logged ω ε α).log = [] := rfl
@[simp] theorem res_fail (e : ε) : (fail e : Logged ω ε α).res = .error e := rfl
@[simp] theorem res_lift (r : Except ε α) : (lift r : Logged ω ε α).res = r := rfl

theorem bind_of_ok {x : Logged ω ε α} {a : α} (h : x.res = .ok a) (f : α → Logged ω ε β) :
    x >>= f = ⟨x.log ++ (f a).log, (f a).res⟩ := by
  show bind x f = _
  rw [bind, h]

theorem bind_of_error {x : Logged ω ε α} {e : ε} (h : x.res = .error e)
    (f : α → Logged ω ε β) : x >>= f = ⟨x.log, .error e⟩ := by
  show bind x f = _
  rw [bind, h]

@[simp] theorem pure_bind (a : α) (f : α → Logged ω ε β) : (pure a >>= f) = f a := by
  rw [bind_of_ok (res_pure a)]; rfl

@[simp] theorem fail_bind (e : ε) (f : α → Logged ω ε β) :
    ((fail e : Logged ω ε α) >>= f) = fail e := rfl

@[simp] theorem tell_bind (w : ω) (f : Unit → Logged ω ε β) :
    (tell w >>= f) = ⟨w :: (f ()).log, (f ()).res⟩ := rfl

@[simp] theorem lift_ok_bind (a : α) (f : α → Logged ω ε β) :
    (lift (.ok a) >>= f) = f a := by
  rw [bind_of_ok (res_lift _)]; rfl

theorem silent_bind_of_ok {x : Logged ω' ε α} {a : α} (h : x.res = .ok a)
    (f : α → Logged ω ε β) : (x.silent >>= f) = f a := by
  rw [bind_of_ok (x := (x.silent : Logged ω ε α)) h]; rfl

theorem bind_assoc (x : Logged ω ε α) (f : α → Logged ω ε β) (g : β → Logged ω ε γ) :
    (x >>= f) >>= g = x >>= fun a => f a >>= g := by
  rcases hx : x.res with e | a
  · rw [bind_of_error hx, bind_of_error hx, bind_of_error rfl]
  · rw [bind_of_ok hx, bind_of_ok hx]
    rcases hf : (f a).res with e | b
    · rw [bind_of_error rfl, bind_of_error hf]
    · rw [bind_of_ok rfl, bind_of_ok hf, List.append_assoc]

theorem bind_pure (x : Logged ω ε α) : x >>= pure = x := by
  rcases hx : x.res with e | a
  · rw [bind_of_error hx, ← hx]
  · rw [bind_of_ok hx]
    exact ext (List.append_nil _) hx.symm

theorem res_bind_eq_ok {x : Logged ω ε α} {f : α → Logged ω ε β} {b : β}
    (h : (x >>= f).res = .ok b) : ∃ a, x.res = .ok a ∧ (f a).res = .ok b := by
  rcases hx : x.res with e | a
  · rw [bind_of_error hx] at h
    cases h
  · rw [bind_of_ok hx] at h
    exact ⟨a, rfl, h⟩

theorem res_lift_bind_eq_ok {x : Except ε α} {f : α → Logged ω ε β} {b : β}
    (h : (lift x >>= f).res = .ok b) : ∃ a, x = .ok a ∧ (f a).res = .ok b :=
  res_bind_eq_ok h

end Logged

/-! ### Properties of a log -/

/-- Every event of the log stands in the relation `P` to those before it. -/
def EachEvent {ω : Type} (P : List ω → ω → Prop) (log : List ω) : Prop :=
  ∀ before w after, log = before ++ w :: after → P before w

namespace EachEvent

variable {ω : Type} {P : List ω → ω → Prop} {l : List ω} {w : ω}

theorem nil : EachEvent P ([] : List ω) := by
  intro before w after h
  simp at h

theorem concat (h : EachEvent P l) (hw : P l w) : EachEvent P (l ++ [w]) := by
  intro before v after heq
  -- the event in question is the new one, or it was there before
  rcases List.eq_nil_or_concat after with rfl | ⟨after, x, rfl⟩
  · obtain ⟨rfl, hv⟩ := List.append_inj' heq rfl
    cases hv
    exact hw
  · rw [List.concat_eq_append, ← List.cons_append, ← List.append_assoc] at heq
    exact h before v after (List.append_inj' heq rfl).1

end EachEvent

/-- Two outcomes agree: both stop for the same reason, or both have results
and these are related. -/
inductive Agree {ε α β : Type} (R : α → β → Prop) : Except ε α → Except ε β → Prop
  | ok {a : α} {b : β} (h : R a b) : Agree R (.ok a) (.ok b)
  | error (e : ε) : Agree R (.error e) (.error e)

namespace Agree

variable {ε α β : Type} {R : α → β → Prop} {x : Except ε α} {y : Except ε β}

theorem exists_ok_left {b : β} (h : Agree R x (.ok b)) : ∃ a, x = .ok a ∧ R a b := by
  cases h with
  | ok h => exact ⟨_, rfl, h⟩

theorem exists_ok_right {a : α} (h : Agree R (.ok a) y) : ∃ b, y = .ok b ∧ R a b := by
  cases h with
  | ok h => exact ⟨_, rfl, h⟩

theorem mono {S : α → β → Prop} (h : Agree R x y) (hRS : ∀ a b, R a b → S a b) :
    Agree S x y := by
  cases h with
  | ok h => exact .ok (hRS _ _ h)
  | error e => exact .error e

theorem trans {γ : Type} {z : Except ε γ} {S : β → γ → Prop} {T : α → γ → Prop}
    (hx : Agree R x y) (hy : Agree S y z) (h : ∀ a b c, R a b → S b c → T a c) :
    Agree T x z := by
  cases hx with
  | ok hR =>
    obtain ⟨c, rfl, hS⟩ := hy.exists_ok_right
    exact .ok (h _ _ _ hR hS)
  | error e =>
    cases hy
    exact .error e

theorem error_iff {e : ε} (h : Agree R x y) : x = .error e ↔ y = .error e := by
  cases h with
  | ok h => simp
  | error e' => simp

end Agree

namespace Logged

variable {ω ε α β γ δ : Type} {R : α → β → Prop} {S : γ → δ → Prop}

/-- The same events, and results that agree. -/
def Sim (R : α → β → Prop) (x : Logged ω ε α) (y : Logged ω ε β) : Prop :=
  x.log = y.log ∧ Agree R x.res y.res

namespace Sim

theorem pure {a : α} {b : β} (h : R a b) :
    Sim R (Pure.pure a : Logged ω ε α) (Pure.pure b) := ⟨rfl, .ok h⟩

theorem fail (e : ε) : Sim R (Logged.fail e : Logged ω ε α) (Logged.fail e) := ⟨rfl, .error e⟩

theorem bind {x : Logged ω ε α} {y : Logged ω ε β} {f : α → Logged ω ε γ}
    {g : β → Logged ω ε δ} (hxy : Sim R x y) (hfg : ∀ a b, R a b → Sim S (f a) (g b)) :
    Sim S (x >>= f) (y >>= g) := by
  obtain ⟨hlog, hres⟩ := hxy
  generalize hx : x.res = rx at hres
  generalize hy : y.res = ry at hres
  cases hres with
  | ok h =>
    rw [bind_of_ok hx, bind_of_ok hy]
    exact ⟨congrArg₂ _ hlog (hfg _ _ h).1, (hfg _ _ h).2⟩
  | error e =>
    rw [bind_of_error hx, bind_of_error hy]
    exact ⟨hlog, .error e⟩

theorem tell_bind (w : ω) {f : Unit → Logged ω ε γ} {g : Unit → Logged ω ε δ}
    (h : Sim S (f ()) (g ())) : Sim S (tell w >>= f) (tell w >>= g) :=
  ⟨congrArg (w :: ·) h.1, h.2⟩

end Sim

end Logged

/-! ### Postconditions -/

/-- How an outcome ends: with a result that satisfies `P`, or for a reason that
satisfies `Q`. -/
inductive Ends {ε α : Type} (P : α → Prop) (Q : ε → Prop) : Except ε α → Prop
  | ok {a : α} (h : P a) : Ends P Q (.ok a)
  | error {e : ε} (h : Q e) : Ends P Q (.error e)

namespace Ends

variable {ω ω' ε α β : Type} {P P' : α → Prop} {R : β → Prop} {Q : ε → Prop} {x : Except ε α}

theorem mono (h : Ends P Q x) (hP : ∀ a, P a → P' a) : Ends P' Q x := by
  cases h with
  | ok h => exact .ok (hP _ h)
  | error h => exact .error h

/-- **Sequencing**: what follows may rely on the postcondition. -/
theorem bind {x : Logged ω ε α} {f : α → Logged ω ε β} (hx : Ends P Q x.res)
    (hf : ∀ a, P a → Ends R Q (f a).res) : Ends R Q (x >>= f).res := by
  generalize hr : x.res = r at hx
  cases hx with
  | ok h =>
    rw [Logged.bind_of_ok hr]
    exact hf _ h
  | error h =>
    rw [Logged.bind_of_error hr]
    exact .error h

theorem tell_bind (w : ω) {f : Unit → Logged ω ε β} (h : Ends R Q (f ()).res) :
    Ends R Q (Logged.tell w >>= f).res := h

end Ends
