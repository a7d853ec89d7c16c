/-
The machines as fsm.c has them: numbers and a flattened table.

In fsm.c states, tokens and the entries of the transition table are plain C values.  A
state or a token that is out of range would be read from outside the table.
`Table.Encodes` says that such a machine is a numbering of an abstract one.

* `Encodes.calls_sim` — then every sequence of calls does the same to both, with the
  same results and the same actions, and stays inside the table;
* `fsmNew_encodes` — `fsm_new` makes such a machine of a table in row order;
* `fsm_tables` — the three machines of the HP back end are made so.
-/
import Swh.Hp
import Mathlib.Algebra.Ring.Int.Defs
import Mathlib.Algebra.Ring.Nat

namespace Swh

open Ansiseq (ESC eatone)

/-- `struct fsm_trans` -/
structure FsmTrans (α : Type) where
  state : ℤ
  action : α
  deriving DecidableEq

/-- `struct fsm`, less the state it is in. -/
structure Table (α ρ : Type) where
  nsta : ℕ
  ntok : ℕ
  errst : ℤ
  inist : ℤ
  accst : Block ℤ
  naccst : ℕ
  delta : Block (FsmTrans α)
  /-- `f_mktok(in, len, &toklen)`, where `toklen` is 1 before the call. -/
  mktok : Option (List UInt8) → Parser → Parser × Except Stop (ℤ × ℕ)
  toklen : ∀ {d p t n}, (mktok (some d) p).2 = .ok (t, n) → t ≠ -1 → 0 < n ∧ n ≤ d.length
  reset : Option (ρ → ρ)
  /-- The functions the table points to; the argument `none` is `EOF`. -/
  action : α → Option UInt8 → ρ → Except Stop ρ

namespace Table

variable {α ρ : Type} (f : Table α ρ)

/-- `IND(f, sta, tok)`, in the 64 bits of a `size_t`. -/
def ind (sta tok : ℤ) : ℕ := ((sta * f.ntok + tok) % 2 ^ 64).toNat

/-- `f->delta[IND(f, sta, tok)]` -/
def entry (sta tok : ℤ) : Except Stop (FsmTrans α) := access (f.delta.load (f.ind sta tok))

/-- The loop of `isaccepting` from `accst[i]` on. -/
def accepts (state : ℤ) (i : ℕ) : ℕ → Option Bool
  | 0 => some false
  | n + 1 => (f.accst.load i).bind fun st =>
      if state = st then some true else accepts state (i + 1) n

/-- `isaccepting` -/
def isaccepting (state : ℤ) : Except Stop Bool := access (f.accepts state 0 f.naccst)

/-- The `while` loop of `fsm_feed` for data: the bytes from index `i` on are still to be
read. -/
def feedLoop (m : Mach ℤ ρ) (p : Parser) (i : ℕ) (d : List UInt8) :
    Logged (Run α) Stop (Mach ℤ ρ × Parser × ℕ) :=
  match d with
  | [] => pure (m, p, i)
  | c :: d =>
    match _htok : (f.mktok (some (c :: d)) p).2 with
    | .error e => Logged.fail e
    | .ok (t, toklen) =>
      let p' := (f.mktok (some (c :: d)) p).1
      if _hmore : t = -1 then pure (m, p', i) -- not enough data
      else do
        let tr ← Logged.lift (f.entry m.curst t)
        Logged.tell (tr.action, some c)
        let vars ← Logged.lift (f.action tr.action (some c) m.vars)
        if tr.state = f.errst then pure (⟨tr.state, vars⟩, p', i + toklen)
        else feedLoop ⟨tr.state, vars⟩ p' (i + toklen) ((c :: d).drop toklen)
termination_by d.length
decreasing_by
  have := f.toklen _htok _hmore
  rw [List.length_drop]
  simp only [List.length_cons] at this ⊢
  omega

/-- `fsm_feed(f, data, len)` for data that is not `NULL` -/
def fsmFeed (m : Mach ℤ ρ) (p : Parser) (data : List UInt8) :
    Logged (Run α) Stop (Mach ℤ ρ × Parser × ℕ) :=
  if m.curst = f.errst then pure (m, p, 0) else f.feedLoop m p 0 data

/-- `fsm_feed(f, NULL, len)`: the loop body runs once. -/
def fsmFeedNull (m : Mach ℤ ρ) (p : Parser) (len : ℕ) :
    Logged (Run α) Stop (Mach ℤ ρ × Parser × ℕ) :=
  if m.curst = f.errst then pure (m, p, 0)
  else do
    let p' := (f.mktok none p).1
    let q ← Logged.lift (f.mktok none p).2
    let tr ← Logged.lift (f.entry m.curst q.1)
    if len = 0 then do
      let acc ← Logged.lift (f.isaccepting tr.state)
      pure (m, p', if acc then 1 else 0)
    else do
      Logged.tell (tr.action, none)
      let vars ← Logged.lift (f.action tr.action none m.vars)
      pure (⟨tr.state, vars⟩, p', q.2)

/-- `fsm_reset` -/
def fsmReset (m : Mach ℤ ρ) : Mach ℤ ρ :=
  ⟨f.inist, match f.reset with | some reset => reset m.vars | none => m.vars⟩

/-- `fsm_error` -/
def fsmError (m : Mach ℤ ρ) : Bool := decide (m.curst = f.errst)

/-- `fsm_accepting` -/
def fsmAccepting (m : Mach ℤ ρ) : Except Stop Bool := f.isaccepting m.curst

end Table

/-- `fsm_new`: the arrays `accst` and `delta` are copied. -/
def fsmNew {α ρ : Type} (nsta ntok : ℕ) (errst inist : ℤ) (accst : List ℤ) (naccst : ℕ)
    (delta : List (FsmTrans α))
    (mktok : Option (List UInt8) → Parser → Parser × Except Stop (ℤ × ℕ))
    (toklen : ∀ {d p t n}, (mktok (some d) p).2 = .ok (t, n) → t ≠ -1 → 0 < n ∧ n ≤ d.length)
    (reset : Option (ρ → ρ)) (action : α → Option UInt8 → ρ → Except Stop ρ)
    (hacc : 0 < naccst) (hdelta : 0 < ntok * nsta) : Except Stop (Table α ρ) :=
  -- `memcpy` reads as many elements as it is told to
  if accst.length < naccst ∨ delta.length < ntok * nsta then .error (.undefined .memory)
  else do
    let acc ← access ((Block.alloc naccst hacc).write 0 (accst.take naccst))
    let del ← access ((Block.alloc (ntok * nsta) hdelta).write 0 (delta.take (ntok * nsta)))
    .ok ⟨nsta, ntok, errst, inist, acc, naccst, del, mktok, toklen, reset, action⟩

/-! ### Numbered machines -/

/-- What the tokenizer returns, as an `int`; -1 is for not enough data. -/
def numbered {τ : Type} (code : τ → ℕ) :
    Except Stop (Option (τ × ℕ)) → Except Stop (ℤ × ℕ) → Prop
  | .error e, r => r = .error e
  | .ok none, r => ∃ n, r = .ok (-1, n)
  | .ok (some (t, n)), r => r = .ok ((code t : ℤ), n)

/-- The machine `g` is `f` with states and tokens numbered by `num` and `code`. -/
structure Encodes {σ τ α ρ : Type} (f : Fsm σ τ α ρ) (num : σ → ℕ) (code : τ → ℕ)
    (g : Table α ρ) : Prop where
  inj : Function.Injective num
  state_lt : ∀ st, num st < g.nsta
  token_lt : ∀ t, code t < g.ntok
  /-- The table fits the address space. -/
  size : g.ntok * g.nsta < 2 ^ 64
  errst : g.errst = num f.errst
  inist : g.inist = num f.inist
  accst : g.accst.Holds (f.accst.map fun st => (num st : ℤ))
  naccst : g.naccst = f.accst.length
  delta : ∀ st t, g.delta.load (num st * g.ntok + code t) =
    some ⟨num (f.delta st t).1, (f.delta st t).2⟩
  mktok : ∀ d p, (g.mktok (some d) p).1 = (f.mktok d p).1 ∧
    numbered code (f.mktok d p).2 (g.mktok (some d) p).2
  eof : ∀ p, g.mktok none p = (p, .ok (code f.eof, 1))
  reset : ∀ v, (match g.reset with | some reset => reset v | none => v) = f.reset v
  action : g.action = f.action

/-- The state of `g` is the number of that of `f`. -/
def Numbers {σ ρ : Type} (num : σ → ℕ) (m : Mach ℤ ρ) (n : Mach σ ρ) : Prop :=
  m.curst = num n.curst ∧ m.vars = n.vars

namespace Encodes

variable {σ τ α ρ : Type} {f : Fsm σ τ α ρ} {num : σ → ℕ} {code : τ → ℕ}
  {g : Table α ρ} {m : Mach ℤ ρ} {n : Mach σ ρ}

/-- **The index is inside the table.** -/
theorem ind_eq (h : Encodes f num code g) (st : σ) (t : τ) :
    g.ind (num st) (code t) = num st * g.ntok + code t ∧
      num st * g.ntok + code t < g.ntok * g.nsta := by
  have hlt : num st * g.ntok + code t < g.ntok * g.nsta := by
    calc num st * g.ntok + code t < num st * g.ntok + g.ntok := by
          have := h.token_lt t
          omega
      _ = (num st + 1) * g.ntok := (Nat.succ_mul _ _).symm
      _ ≤ g.nsta * g.ntok := Nat.mul_le_mul_right _ (h.state_lt st)
      _ = g.ntok * g.nsta := Nat.mul_comm _ _
  refine ⟨?_, hlt⟩
  have hsize := h.size
  have hcast : ((num st : ℤ) * g.ntok + code t) = ((num st * g.ntok + code t : ℕ) : ℤ) := by
    push_cast
    rfl
  rw [Table.ind, hcast]
  omega

theorem entry_eq (h : Encodes f num code g) (st : σ) (t : τ) :
    g.entry (num st) (code t) = .ok ⟨num (f.delta st t).1, (f.delta st t).2⟩ := by
  rw [Table.entry, (h.ind_eq st t).1, h.delta]
  rfl

theorem curst_eq_errst (h : Encodes f num code g) (hm : Numbers num m n) :
    m.curst = g.errst ↔ n.curst = f.errst := by
  rw [hm.1, h.errst, Int.ofNat_inj]
  exact h.inj.eq_iff

theorem fsmReset_numbers (h : Encodes f num code g) (hm : Numbers num m n) :
    Numbers num (g.fsmReset m) (f.fsmReset n) := by
  refine ⟨h.inist, ?_⟩
  show (match g.reset with | some reset => reset m.vars | none => m.vars) = f.reset n.vars
  rw [h.reset, hm.2]

variable [DecidableEq σ]

/-- A loop over numbers of states. -/
theorem accepts_eq (hinj : Function.Injective num) (st : σ) (xs ys : List σ)
    (hacc : g.accst.Holds ((xs ++ ys).map fun st => (num st : ℤ))) :
    g.accepts (num st) xs.length ys.length = some (decide (st ∈ ys)) := by
  -- the states that were looked at move over to `xs`
  induction ys generalizing xs with
  | nil => rfl
  | cons y ys ih =>
    have hload : g.accst.load xs.length = some (num y : ℤ) := by
      rw [Block.load_of_holds hacc (by simp)]
      simp
    have hrest := ih (xs ++ [y]) (by rwa [List.append_assoc])
    rw [List.length_append, List.length_singleton] at hrest
    rw [List.length_cons, Table.accepts, hload, Option.bind_some]
    by_cases heq : st = y
    · rw [if_pos (by rw [heq])]
      simp [heq]
    · rw [if_neg fun hnum => heq (hinj (Int.ofNat_inj.mp hnum)), hrest]
      simp [heq]

theorem isaccepting_eq (h : Encodes f num code g) (st : σ) :
    g.isaccepting (num st) = .ok (f.isaccepting st) := by
  have := accepts_eq h.inj st [] f.accst h.accst
  rw [List.length_nil] at this
  rw [Table.isaccepting, h.naccst, this]
  rfl

/-- The loop stops where the tokenizer does. -/
theorem feedLoop_error {p : Parser} {i : ℕ} {c : UInt8} {d : List UInt8} {e : Stop}
    (htok : (g.mktok (some (c :: d)) p).2 = .error e) :
    g.feedLoop m p i (c :: d) = Logged.fail e := by
  rw [Table.feedLoop]
  split
  · rename_i h'
    rw [htok] at h'
    cases h'
    rfl
  · rename_i h'
    rw [htok] at h'
    cases h'

theorem feedLoop_more {p : Parser} {i k : ℕ} {c : UInt8} {d : List UInt8}
    (htok : (g.mktok (some (c :: d)) p).2 = .ok (-1, k)) :
    g.feedLoop m p i (c :: d) = pure (m, (g.mktok (some (c :: d)) p).1, i) := by
  rw [Table.feedLoop]
  split
  · rename_i h'
    rw [htok] at h'
    cases h'
  · rename_i h'
    rw [htok] at h'
    cases h'
    rfl

theorem feedLoop_token {p : Parser} {i k : ℕ} {c : UInt8} {d : List UInt8} {t : ℤ}
    (htok : (g.mktok (some (c :: d)) p).2 = .ok (t, k)) (ht : t ≠ -1) :
    g.feedLoop m p i (c :: d) = (do
      let tr ← Logged.lift (g.entry m.curst t)
      Logged.tell (tr.action, some c)
      let vars ← Logged.lift (g.action tr.action (some c) m.vars)
      let p' := (g.mktok (some (c :: d)) p).1
      if tr.state = g.errst then pure (⟨tr.state, vars⟩, p', i + k)
      else g.feedLoop ⟨tr.state, vars⟩ p' (i + k) ((c :: d).drop k)) := by
  rw [Table.feedLoop]
  split
  · rename_i h'
    rw [htok] at h'
    cases h'
  · rename_i h'
    rw [htok] at h'
    cases h'
    rw [dif_neg ht]

/-- **A call with data.** -/
theorem feedLoop_sim (h : Encodes f num code g) (hm : Numbers num m n) (p : Parser) (i : ℕ)
    (d : List UInt8) :
    Logged.Sim (fun a b => Numbers num a.1 b.1 ∧ a.2 = b.2) (g.feedLoop m p i d)
      (f.feedLoop n p i d) := by
  fun_induction Fsm.feedLoop f n p i d generalizing m with
  | case1 n p i =>
    rw [Table.feedLoop]
    exact .pure ⟨hm, rfl⟩
  | case2 n p i c d e htok =>
    obtain ⟨-, hnum⟩ := h.mktok (c :: d) p
    rw [htok] at hnum
    rw [feedLoop_error hnum]
    exact .fail e
  | case3 n p i c d htok =>
    obtain ⟨hp, hnum⟩ := h.mktok (c :: d) p
    rw [htok] at hnum
    obtain ⟨k, hk⟩ := hnum
    rw [feedLoop_more hk, hp]
    exact .pure ⟨hm, rfl⟩
  | case4 n p i c d t toklen htok p' tr =>
    rename_i ih
    obtain ⟨hp, hnum⟩ := h.mktok (c :: d) p
    rw [htok] at hnum
    rw [feedLoop_token hnum (by omega), hm.1, h.entry_eq, Logged.lift_ok_bind, h.action, hm.2, hp]
    refine .tell_bind _ ?_
    show Logged.Sim _ (Logged.lift (f.action tr.2 (some c) n.vars) >>= _) _
    rcases f.action tr.2 (some c) n.vars with e | v
    · exact .fail e
    · rw [Logged.lift_ok_bind, Logged.lift_ok_bind]
      have hnext : Numbers num ⟨num tr.1, v⟩ (⟨tr.1, v⟩ : Mach σ ρ) := ⟨rfl, rfl⟩
      by_cases herr : tr.1 = f.errst
      · rw [if_pos herr, if_pos ((h.curst_eq_errst hnext).mpr herr)]
        exact .pure ⟨hnext, rfl⟩
      · rw [if_neg herr, if_neg fun h' => herr ((h.curst_eq_errst hnext).mp h')]
        exact ih v hnext

theorem fsmFeed_sim (h : Encodes f num code g) (hm : Numbers num m n) (p : Parser)
    (d : List UInt8) :
    Logged.Sim (fun a b => Numbers num a.1 b.1 ∧ a.2 = b.2) (g.fsmFeed m p d)
      (f.fsmFeed n p d) := by
  rw [Table.fsmFeed, Fsm.fsmFeed]
  by_cases herr : n.curst = f.errst
  · rw [if_pos herr, if_pos ((h.curst_eq_errst hm).mpr herr)]
    exact .pure ⟨hm, rfl⟩
  · rw [if_neg herr, if_neg fun h' => herr ((h.curst_eq_errst hm).mp h')]
    exact h.feedLoop_sim hm p 0 d

/-- **A call with `NULL`.** -/
theorem fsmFeedNull_sim (h : Encodes f num code g) (hm : Numbers num m n) (p : Parser) (len : ℕ) :
    Logged.Sim (fun a b => Numbers num a.1 b.1 ∧ a.2 = (p, b.2)) (g.fsmFeedNull m p len)
      (f.fsmFeedNull n len) := by
  rw [Table.fsmFeedNull, Fsm.fsmFeedNull]
  by_cases herr : n.curst = f.errst
  · rw [if_pos herr, if_pos ((h.curst_eq_errst hm).mpr herr)]
    exact .pure ⟨hm, rfl⟩
  · rw [if_neg herr, if_neg fun h' => herr ((h.curst_eq_errst hm).mp h'), h.eof, hm.1]
    dsimp only
    rw [Logged.lift_ok_bind, h.entry_eq, Logged.lift_ok_bind, h.isaccepting_eq, h.action, hm.2]
    by_cases hlen : len = 0
    · rw [if_pos hlen, if_pos hlen, Logged.lift_ok_bind]
      exact .pure ⟨hm, rfl⟩
    · rw [if_neg hlen, if_neg hlen]
      refine .tell_bind _ ?_
      rcases f.action (f.delta n.curst f.eof).2 none n.vars with e | v
      · exact .fail e
      · exact .pure ⟨⟨rfl, rfl⟩, rfl⟩

theorem fsmError_eq (h : Encodes f num code g) (hm : Numbers num m n) :
    g.fsmError m = f.fsmError n := decide_eq_decide.mpr (h.curst_eq_errst hm)

theorem fsmAccepting_eq (h : Encodes f num code g) (hm : Numbers num m n) :
    g.fsmAccepting m = .ok (f.fsmAccepting n) := by
  rw [Table.fsmAccepting, hm.1, h.isaccepting_eq]
  rfl

end Encodes

/-! ### Sequences of calls -/

/-- The calls that change a machine. -/
inductive FsmCall
  /-- `fsm_feed(f, data, len)` -/
  | data (d : List UInt8)
  /-- `fsm_feed(f, NULL, len)` -/
  | null (len : ℕ)
  /-- `fsm_reset(f)` -/
  | reset
  deriving DecidableEq, Repr

namespace Fsm

variable {σ τ α ρ : Type} [DecidableEq σ] (f : Fsm σ τ α ρ)

/-- One call; the result is the number it returns. -/
def call (m : Mach σ ρ) (p : Parser) : FsmCall → Logged (Run α) Stop (Mach σ ρ × Parser × ℕ)
  | .data d => f.fsmFeed m p d
  | .null len => do
      let q ← f.fsmFeedNull m len
      pure (q.1, p, q.2)
  | .reset => pure (f.fsmReset m, p, 0)

/-- One call after the other. -/
def calls (m : Mach σ ρ) (p : Parser) :
    List FsmCall → Logged (Run α) Stop (Mach σ ρ × Parser × List ℕ)
  | [] => pure (m, p, [])
  | x :: xs => do
      let q ← f.call m p x
      let r ← calls q.1 q.2.1 xs
      pure (r.1, r.2.1, q.2.2 :: r.2.2)

end Fsm

namespace Table

variable {α ρ : Type} (g : Table α ρ)

def call (m : Mach ℤ ρ) (p : Parser) : FsmCall → Logged (Run α) Stop (Mach ℤ ρ × Parser × ℕ)
  | .data d => g.fsmFeed m p d
  | .null len => g.fsmFeedNull m p len
  | .reset => pure (g.fsmReset m, p, 0)

def calls (m : Mach ℤ ρ) (p : Parser) :
    List FsmCall → Logged (Run α) Stop (Mach ℤ ρ × Parser × List ℕ)
  | [] => pure (m, p, [])
  | x :: xs => do
      let q ← g.call m p x
      let r ← calls q.1 q.2.1 xs
      pure (r.1, r.2.1, q.2.2 :: r.2.2)

end Table

namespace Encodes

variable {σ τ α ρ : Type} [DecidableEq σ] {f : Fsm σ τ α ρ} {num : σ → ℕ} {code : τ → ℕ}
  {g : Table α ρ} {m : Mach ℤ ρ} {n : Mach σ ρ}

theorem call_sim (h : Encodes f num code g) (hm : Numbers num m n) (p : Parser) (x : FsmCall) :
    Logged.Sim (fun a b => Numbers num a.1 b.1 ∧ a.2 = b.2) (g.call m p x) (f.call n p x) := by
  cases x with
  | data d => exact h.fsmFeed_sim hm p d
  | null len =>
    rw [Table.call, Fsm.call, ← Logged.bind_pure (g.fsmFeedNull m p len)]
    exact (h.fsmFeedNull_sim hm p len).bind fun a b hab => .pure hab
  | reset => exact .pure ⟨h.fsmReset_numbers hm, rfl⟩

/-- **Every sequence of calls** does the same to both machines. -/
theorem calls_sim (h : Encodes f num code g) (hm : Numbers num m n) (p : Parser)
    (xs : List FsmCall) :
    Logged.Sim (fun a b => Numbers num a.1 b.1 ∧ a.2 = b.2) (g.calls m p xs)
      (f.calls n p xs) := by
  induction xs generalizing m n p with
  | nil => exact .pure ⟨hm, rfl⟩
  | cons x xs ih =>
    rw [Table.calls, Fsm.calls]
    refine (h.call_sim hm p x).bind ?_
    rintro ⟨m', q⟩ ⟨n', q'⟩ ⟨hm', heq⟩
    dsimp only at hm' heq
    subst heq
    refine (ih hm' q.1).bind ?_
    rintro ⟨m'', r⟩ ⟨n'', r'⟩ ⟨hm'', heq⟩
    dsimp only at hm'' heq
    subst heq
    exact .pure ⟨hm'', rfl⟩

end Encodes

/-! ### `fsm_new` -/

section New

variable {σ τ α ρ : Type} {f : Fsm σ τ α ρ} {num : σ → ℕ} {code : τ → ℕ}

/-- A table whose rows are the states and whose columns are the tokens. -/
structure Tabulates (f : Fsm σ τ α ρ) (num : σ → ℕ) (code : τ → ℕ) (nsta ntok : ℕ)
    (delta : List (FsmTrans α)) : Prop where
  inj : Function.Injective num
  state_lt : ∀ st, num st < nsta
  token_lt : ∀ t, code t < ntok
  size : ntok * nsta < 2 ^ 64
  length : delta.length = ntok * nsta
  entry : ∀ st t, delta[num st * ntok + code t]? =
    some ⟨num (f.delta st t).1, (f.delta st t).2⟩

/-- A copy of a list to a fresh block. -/
theorem alloc_write_holds {β : Type} {k : ℕ} (hk : 0 < k) {xs : List β} (hlen : xs.length = k) :
    ∃ b, (Block.alloc k hk).write 0 xs = some b ∧ b.Holds xs := by
  obtain ⟨b, hb, -, hholds⟩ := Block.write_holds (b := Block.alloc k hk) xs Block.holds_nil
    (by rw [List.length_nil, Nat.zero_add, hlen]; exact le_rfl)
  exact ⟨b, hb, hholds⟩

/-- **`fsm_new` makes the machine of a table.** -/
theorem fsmNew_encodes {nsta ntok : ℕ} {delta : List (FsmTrans α)}
    (mktok : Option (List UInt8) → Parser → Parser × Except Stop (ℤ × ℕ))
    (toklen : ∀ {d p t n}, (mktok (some d) p).2 = .ok (t, n) → t ≠ -1 → 0 < n ∧ n ≤ d.length)
    (reset : Option (ρ → ρ)) (h : Tabulates f num code nsta ntok delta)
    (hmktok : ∀ d p, (mktok (some d) p).1 = (f.mktok d p).1 ∧
      numbered code (f.mktok d p).2 (mktok (some d) p).2)
    (heof : ∀ p, mktok none p = (p, .ok (code f.eof, 1)))
    (hreset : ∀ v, (match reset with | some reset => reset v | none => v) = f.reset v)
    (hacc : 0 < f.accst.length) (hdelta : 0 < ntok * nsta) :
    ∃ g, fsmNew nsta ntok (num f.errst) (num f.inist) (f.accst.map fun st => (num st : ℤ))
      f.accst.length delta mktok toklen reset f.action hacc hdelta = .ok g ∧
      Encodes f num code g := by
  have haccst : (f.accst.map fun st => (num st : ℤ)).length = f.accst.length := List.length_map _
  obtain ⟨b, hb, hbholds⟩ := alloc_write_holds hacc haccst
  obtain ⟨c, hc, hcholds⟩ := alloc_write_holds hdelta h.length
  refine ⟨⟨nsta, ntok, num f.errst, num f.inist, b, f.accst.length, c, mktok, toklen, reset,
    f.action⟩, ?_, h.inj, h.state_lt, h.token_lt, h.size, rfl, rfl, hbholds, rfl, fun st t => ?_,
    hmktok, heof, hreset, rfl⟩
  · have htake : (f.accst.map fun st => (num st : ℤ)).take f.accst.length = f.accst.map _ :=
      List.take_of_length_le (List.length_map _).le
    have htake' : delta.take (ntok * nsta) = delta := List.take_of_length_le h.length.le
    rw [fsmNew, if_neg (by rw [List.length_map, h.length]; omega), htake, htake', hb, hc]
    rfl
  · have hentry := h.entry st t
    have hlt : num st * ntok + code t < delta.length := (List.getElem?_eq_some_iff.mp hentry).1
    exact (Block.load_of_holds hcholds hlt).trans hentry

end New

/-! ### The HP back end -/

/-- `fsm_hp_mktok` -/
def fsmHpMktokInt (tEseq tRest tEof : ℤ) (inp : Option (List UInt8)) (p : Parser) :
    Parser × Except Stop (ℤ × ℕ) :=
  match inp with
  | none => (p, .ok (tEof, 1))
  | some [] => (p, .error (.undefined .memory)) -- there is no `in[0]`
  | some (c :: d) =>
    if c = ESC then
      match eatone (c :: d) p with
      | (p', .ok (some r)) => (p', .ok (tEseq, r))
      | (p', .ok none) => (p', .ok (-1, 1))
      | (p', .error e) => (p', .error e)
    else (p, .ok (tRest, 1))

namespace HpTok

/-- `T_ESEQ`, `T_REST` and `T_EOF` -/
def code : HpTok → ℕ
  | .eseq => 0
  | .rest => 1
  | .eof => 2

theorem code_lt (t : HpTok) : t.code < 3 := by cases t <;> decide

/-- `mktok` of each of the three machines. -/
def mktok : Option (List UInt8) → Parser → Parser × Except Stop (ℤ × ℕ) := fsmHpMktokInt 0 1 2

theorem mktok_numbered (d : List UInt8) (p : Parser) :
    (mktok (some d) p).1 = (fsmHpMktok d p).1 ∧
      numbered code (fsmHpMktok d p).2 (mktok (some d) p).2 := by
  rcases d with _ | ⟨c, d⟩
  · exact ⟨rfl, rfl⟩
  · rw [mktok, fsmHpMktokInt, fsmHpMktok]
    by_cases hc : c = ESC
    · rw [if_pos hc, if_pos hc]
      rcases eatone (c :: d) p with ⟨p', e | _ | r⟩
      · exact ⟨rfl, rfl⟩
      · exact ⟨rfl, 1, rfl⟩
      · exact ⟨rfl, rfl⟩
    · rw [if_neg hc, if_neg hc]
      exact ⟨rfl, rfl⟩

theorem mktok_toklen {d : List UInt8} {p : Parser} {t : ℤ} {n : ℕ}
    (h : (mktok (some d) p).2 = .ok (t, n)) (ht : t ≠ -1) : 0 < n ∧ n ≤ d.length := by
  have hnum := (mktok_numbered d p).2
  rw [h] at hnum
  rcases htok : (fsmHpMktok d p).2 with e | _ | ⟨t', n'⟩
  · rw [htok] at hnum
    cases hnum
  · rw [htok] at hnum
    obtain ⟨k, hk⟩ := hnum
    cases hk
    exact absurd rfl ht
  · rw [htok] at hnum
    cases hnum
    exact fsmHpMktok_toklen htok

end HpTok

/-- Behind `fsm_new` and any sequence of calls the machine is in the same state as `f`,
with the same results and the same variables. -/
def Implements {σ α ρ : Type} [DecidableEq σ] (g : Table α ρ) (f : Fsm σ HpTok α ρ)
    (num : σ → ℕ) : Prop :=
  ∀ v p xs, Logged.Sim
    (fun a b => Numbers num a.1 b.1 ∧ a.2 = b.2 ∧ g.fsmError a.1 = f.fsmError b.1 ∧
      g.fsmAccepting a.1 = .ok (f.fsmAccepting b.1))
    (g.calls ⟨g.inist, v⟩ p xs) (f.calls ⟨f.inist, v⟩ p xs)

theorem Encodes.implements {σ α ρ : Type} [DecidableEq σ] {g : Table α ρ}
    {f : Fsm σ HpTok α ρ} {num : σ → ℕ} {code : HpTok → ℕ} (h : Encodes f num code g) :
    Implements g f num := by
  intro v p xs
  obtain ⟨hlog, hres⟩ := h.calls_sim (m := ⟨g.inist, v⟩) (n := ⟨f.inist, v⟩) ⟨h.inist, rfl⟩ p xs
  refine ⟨hlog, hres.mono ?_⟩
  rintro a b ⟨hnum, heq⟩
  exact ⟨hnum, heq, h.fsmError_eq hnum, h.fsmAccepting_eq hnum⟩

namespace Init

/-- `S_STA` to `S_ERR` -/
def St.code : St → ℕ
  | .sta => 0
  | .lic => 1
  | .cm1 => 2
  | .any => 3
  | .cm2 => 4
  | .las => 5
  | .cm3 => 6
  | .ps1 => 7
  | .cm4 => 8
  | .fin => 9
  | .err => 10

private def initTr (st : St) (a : Act) : FsmTrans Act := ⟨st.code, a⟩

private def initERR : FsmTrans Act := initTr .err .nop

/-- `delta` -/
def table : List (FsmTrans Act) := [
  /- (init)     T_ESEQ             T_REST                T_EOF -/
  /- S_STA -/ initERR,            initTr .lic .nop,     initERR,
  /- S_LIC -/ initTr .cm1 .nop,   initTr .lic .nop,     initERR,
  /- S_CM1 -/ initTr .cm1 .nop,   initTr .any .nop,     initERR,
  /- S_ANY -/ initTr .cm2 .ak,    initTr .any .nop,     initERR,
  /- S_CM2 -/ initTr .cm2 .nop,   initTr .las .report,  initERR,
  /- S_LAS -/ initTr .cm3 .nop,   initTr .las .nop,     initERR,
  /- S_CM3 -/ initTr .cm3 .nop,   initTr .ps1 .recps,   initERR,
  /- S_PS1 -/ initTr .cm4 .nop,   initTr .ps1 .recps,   initERR,
  /- S_CM4 -/ initTr .cm4 .nop,   initERR,              initTr .fin .nop,
  /- S_FIN -/ initERR,            initERR,              initERR,
  /- S_ERR -/ initERR,            initERR,              initERR]

theorem tabulates : Tabulates fsm St.code HpTok.code 11 3 table where
  inj a b h := by cases a <;> cases b <;> first | rfl | cases h
  state_lt st := by cases st <;> decide
  token_lt := HpTok.code_lt
  size := by decide
  length := rfl
  entry st t := by cases st <;> cases t <;> rfl

/-- The call of `fsm_new` in `init`. -/
def new : Except Stop (Table Act Vars) :=
  fsmNew 11 3 10 0 [9] 1 table HpTok.mktok HpTok.mktok_toklen (some reset) action (by decide)
    (by decide)

end Init

namespace Cmdout

/-- `S_STA` to `S_ERR` -/
def St.code : St → ℕ
  | .sta => 0
  | .cm1 => 1
  | .out => 2
  | .cm2 => 3
  | .ps1 => 4
  | .cm3 => 5
  | .fin => 6
  | .err => 7

private def cmdoutTr (st : St) (a : Act) : FsmTrans Act := ⟨st.code, a⟩

private def cmdoutERR : FsmTrans Act := cmdoutTr .err .nop

/-- `delta` -/
def table : List (FsmTrans Act) := [
  /- (cmdout)   T_ESEQ              T_REST                  T_EOF -/
  /- S_STA -/ cmdoutTr .cm1 .nop,  cmdoutERR,              cmdoutERR,
  /- S_CM1 -/ cmdoutTr .cm1 .nop,  cmdoutTr .out .recout,  cmdoutERR,
  /- S_OUT -/ cmdoutTr .cm2 .nop,  cmdoutTr .out .recout,  cmdoutERR,
  /- S_CM2 -/ cmdoutTr .cm2 .nop,  cmdoutTr .ps1 .recps,   cmdoutTr .fin .noout,
  /- S_PS1 -/ cmdoutTr .cm3 .nop,  cmdoutTr .ps1 .recps,   cmdoutERR,
  /- S_CM3 -/ cmdoutTr .cm3 .nop,  cmdoutERR,              cmdoutTr .fin .nop,
  /- S_FIN -/ cmdoutERR,           cmdoutERR,              cmdoutERR,
  /- S_ERR -/ cmdoutERR,           cmdoutERR,              cmdoutERR]

theorem tabulates : Tabulates fsm St.code HpTok.code 8 3 table where
  inj a b h := by cases a <;> cases b <;> first | rfl | cases h
  state_lt st := by cases st <;> decide
  token_lt := HpTok.code_lt
  size := by decide
  length := rfl
  entry st t := by cases st <;> cases t <;> rfl

/-- The call of `fsm_new` in `init`. -/
def new : Except Stop (Table Act Vars) :=
  fsmNew 8 3 7 0 [6] 1 table HpTok.mktok HpTok.mktok_toklen (some reset) action (by decide)
    (by decide)

end Cmdout

namespace Inchar

/-- `S_STA` to `S_ERR` -/
def St.code : St → ℕ
  | .sta => 0
  | .cm1 => 1
  | .inc => 2
  | .cm2 => 3
  | .fin => 4
  | .err => 5

private def incharTr (st : St) (a : Act) : FsmTrans Act := ⟨st.code, a⟩

private def incharERR : FsmTrans Act := incharTr .err .nop

/-- `delta` -/
def table : List (FsmTrans Act) := [
  /- (inchar)   T_ESEQ              T_REST               T_EOF -/
  /- S_STA -/ incharTr .cm1 .nop,  incharERR,           incharERR,
  /- S_CM1 -/ incharERR,           incharTr .inc .nop,  incharERR,
  /- S_INC -/ incharTr .cm2 .nop,  incharERR,           incharERR,
  /- S_CM2 -/ incharTr .cm2 .nop,  incharERR,           incharTr .fin .nop,
  /- S_FIN -/ incharERR,           incharERR,           incharERR,
  /- S_ERR -/ incharERR,           incharERR,           incharERR]

theorem tabulates : Tabulates fsm St.code HpTok.code 6 3 table where
  inj a b h := by cases a <;> cases b <;> first | rfl | cases h
  state_lt st := by cases st <;> decide
  token_lt := HpTok.code_lt
  size := by decide
  length := rfl
  entry st t := by cases st <;> cases t <;> rfl

/-- `reset`, which has nothing to do. -/
def reset (v : Unit) : Unit := v

/-- The call of `fsm_new` in `init`. -/
def new : Except Stop (Table Act Unit) :=
  fsmNew 6 3 5 0 [4] 1 table HpTok.mktok HpTok.mktok_toklen (some reset)
    (fun _ _ v => .ok v) (by decide) (by decide)

end Inchar

/-- **The tables of the HP back end.**  `fsm_new` makes machines of them which do in every
sequence of calls what the machines over states and tokens do; in particular no call reads
outside a table. -/
theorem fsm_tables :
    (∃ g, Init.new = .ok g ∧ Implements g Init.fsm Init.St.code) ∧
    (∃ g, Cmdout.new = .ok g ∧ Implements g Cmdout.fsm Cmdout.St.code) ∧
    ∃ g, Inchar.new = .ok g ∧ Implements g Inchar.fsm Inchar.St.code := by
  refine ⟨?_, ?_, ?_⟩
  · obtain ⟨g, hg, henc⟩ := fsmNew_encodes HpTok.mktok HpTok.mktok_toklen
      (some Init.reset) Init.tabulates HpTok.mktok_numbered (fun _ => rfl) (fun _ => rfl)
      (by decide) (by decide)
    exact ⟨g, hg, henc.implements⟩
  · obtain ⟨g, hg, henc⟩ := fsmNew_encodes HpTok.mktok HpTok.mktok_toklen
      (some Cmdout.reset) Cmdout.tabulates HpTok.mktok_numbered (fun _ => rfl) (fun _ => rfl)
      (by decide) (by decide)
    exact ⟨g, hg, henc.implements⟩
  · obtain ⟨g, hg, henc⟩ := fsmNew_encodes HpTok.mktok HpTok.mktok_toklen
      (some Inchar.reset) Inchar.tabulates HpTok.mktok_numbered (fun _ => rfl) (fun _ => rfl)
      (by decide) (by decide)
    exact ⟨g, hg, henc.implements⟩

end Swh
