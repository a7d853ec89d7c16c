/-
The finite state machine core (back/fsm.c) and the tokenizer of the HP machines
(back/hp/common_hp.c).

`fsmFeed` is a call with data and `fsmFeedNull` one with `NULL` for it, which
feeds an end-of-data token into the machine.  Every action that is run is logged
with its argument.

* `fsmFeed_sim` — for a machine with the HP tokenizer a call with data is a feed
  of the token machine `Fsm.machine`, whatever state the parser of escape
  sequences was left in.
-/
import Swh.AnsiseqStable

namespace Swh

open Ansiseq TokenStream

/-- `struct fsm`, less the state it is in. -/
structure Fsm (σ τ α ρ : Type) where
  errst : σ
  inist : σ
  accst : List σ
  /-- The transition table. -/
  delta : σ → τ → σ × α
  /-- The functions the table points to; the argument `none` is `EOF`. -/
  action : α → Option UInt8 → ρ → Except Stop ρ
  /-- `f_mktok(data, len, &toklen)`; the result `none` is -1. -/
  mktok : List UInt8 → Parser → Parser × Except Stop (Option (τ × ℕ))
  /-- `f_mktok(NULL, 0, &toklen)` -/
  eof : τ
  toklen : ∀ {d p t n}, (mktok d p).2 = .ok (some (t, n)) → 0 < n ∧ n ≤ d.length
  reset : ρ → ρ

/-- The state a machine is in, and the file-scope variables of its actions. -/
structure Mach (σ ρ : Type) where
  curst : σ
  vars : ρ

/-- An action that was run and the byte it was given. -/
abbrev Run (α : Type) : Type := α × Option UInt8

namespace Fsm

variable {σ τ α ρ : Type} [DecidableEq σ] (f : Fsm σ τ α ρ)

/-- The `while` loop for data: the bytes from index `i` on are still to be read. -/
def feedLoop (m : Mach σ ρ) (p : Parser) (i : ℕ) (d : List UInt8) :
    Logged (Run α) Stop (Mach σ ρ × Parser × ℕ) :=
  match d with
  | [] => pure (m, p, i)
  | c :: d =>
    match _htok : (f.mktok (c :: d) p).2 with
    | .error e => Logged.fail e
    | .ok none => pure (m, (f.mktok (c :: d) p).1, i) -- not enough data
    | .ok (some (t, toklen)) => do
      let p' := (f.mktok (c :: d) p).1
      let tr := f.delta m.curst t
      Logged.tell (tr.2, some c)
      let vars ← Logged.lift (f.action tr.2 (some c) m.vars)
      -- the error state ends the loop, but its token counts as consumed
      if tr.1 = f.errst then pure (⟨tr.1, vars⟩, p', i + toklen)
      else feedLoop ⟨tr.1, vars⟩ p' (i + toklen) ((c :: d).drop toklen)
termination_by d.length
decreasing_by
  have := f.toklen _htok
  rw [List.length_drop]
  simp only [List.length_cons] at this ⊢
  omega

/-- `fsm_feed(f, data, len)`: the result is the number of bytes consumed. -/
def fsmFeed (m : Mach σ ρ) (p : Parser) (data : List UInt8) :
    Logged (Run α) Stop (Mach σ ρ × Parser × ℕ) :=
  if m.curst = f.errst then pure (m, p, 0) else f.feedLoop m p 0 data

/-- `isaccepting` -/
def isaccepting (st : σ) : Bool := decide (st ∈ f.accst)

/-- `fsm_feed(f, NULL, len)`: a probe when `len` is zero. -/
def fsmFeedNull (m : Mach σ ρ) (len : ℕ) : Logged (Run α) Stop (Mach σ ρ × ℕ) :=
  if m.curst = f.errst then pure (m, 0)
  else
    let tr := f.delta m.curst f.eof
    -- a probe runs no action and stays where it is
    if len = 0 then pure (m, if f.isaccepting tr.1 then 1 else 0)
    else do
      Logged.tell (tr.2, none)
      let vars ← Logged.lift (f.action tr.2 none m.vars)
      pure (⟨tr.1, vars⟩, 1)

/-- `fsm_reset` -/
def fsmReset (m : Mach σ ρ) : Mach σ ρ := ⟨f.inist, f.reset m.vars⟩

/-- `fsm_error` -/
def fsmError (m : Mach σ ρ) : Bool := decide (m.curst = f.errst)

/-- `fsm_accepting` -/
def fsmAccepting (m : Mach σ ρ) : Bool := f.isaccepting m.curst

end Fsm

/-! ### The tokenizer of the HP machines -/

/-- The tokens `T_ESEQ`, `T_REST` and `T_EOF`, which all three machines number
alike. -/
inductive HpTok
  /-- ANSI escape sequence. -/
  | eseq
  /-- Anything except escape sequence and end of data. -/
  | rest
  /-- End of data. -/
  | eof
  deriving DecidableEq, Repr

/-- `fsm_hp_mktok` for data that is not `NULL`. -/
def fsmHpMktok (data : List UInt8) (p : Parser) :
    Parser × Except Stop (Option (HpTok × ℕ)) :=
  match data with
  | [] => (p, .error (.undefined .memory)) -- there is no `in[0]`
  | c :: _ =>
    if c = ESC then
      match eatone data p with
      | (p', .ok (some r)) => (p', .ok (some (.eseq, r)))
      | (p', .ok none) => (p', .ok none)
      | (p', .error e) => (p', .error e)
    else (p, .ok (some (.rest, 1)))

theorem fsmHpMktok_esc (d : List UInt8) (p : Parser) : (fsmHpMktok (ESC :: d) p).2
    = (eatone (ESC :: d) p).2.map fun r => r.map fun n => (.eseq, n) := by
  rw [fsmHpMktok, if_pos rfl]
  rcases eatone (ESC :: d) p with ⟨p', e | _ | n⟩ <;> rfl

theorem fsmHpMktok_rest {c : UInt8} (hc : c ≠ ESC) (d : List UInt8) (p : Parser) :
    fsmHpMktok (c :: d) p = (p, .ok (some (.rest, 1))) := by
  rw [fsmHpMktok, if_neg hc]

theorem fsmHpMktok_indep (d : List UInt8) (p q : Parser) :
    (fsmHpMktok d p).2 = (fsmHpMktok d q).2 := by
  rcases d with _ | ⟨c, d⟩
  · rfl
  · by_cases hc : c = ESC
    · rw [hc, fsmHpMktok_esc, fsmHpMktok_esc, eatone_indep _ p q]
    · rw [fsmHpMktok_rest hc, fsmHpMktok_rest hc]

theorem fsmHpMktok_toklen {d : List UInt8} {p : Parser} {t : HpTok} {n : ℕ}
    (h : (fsmHpMktok d p).2 = .ok (some (t, n))) : 0 < n ∧ n ≤ d.length := by
  rcases d with _ | ⟨c, d⟩
  · cases h
  · by_cases hc : c = ESC
    · rw [hc, fsmHpMktok_esc] at h
      rcases he : (eatone (ESC :: d) p).2 with e | _ | k
      · rw [he] at h; cases h
      · rw [he] at h; cases h
      · rw [he] at h
        cases h
        exact eatone_some_bounds (hc ▸ he)
    · rw [fsmHpMktok_rest hc] at h
      cases h
      exact ⟨Nat.one_pos, Nat.succ_pos _⟩

/-- What a tokenizer reads, as a scan: the token comes with its first byte. -/
def scanOf (c : UInt8) : Except Stop (Option (HpTok × ℕ)) → Scan (HpTok × UInt8) Stop
  | .error e => .fail e
  | .ok none => .more
  | .ok (some (t, n)) => .tok (t, c) n

/-- The tokens of the HP machines in the input; the parser starts every escape
sequence afresh, so its state does not matter. -/
def hpScan : List UInt8 → Scan (HpTok × UInt8) Stop
  | [] => .more
  | c :: d => scanOf c (fsmHpMktok (c :: d) parser₀).2

theorem hpScan_rest {c : UInt8} (hc : c ≠ ESC) (d : List UInt8) :
    hpScan (c :: d) = .tok (.rest, c) 1 := by
  rw [hpScan, fsmHpMktok_rest hc, scanOf]

theorem hpScan_esc (d : List UInt8) : hpScan (ESC :: d) = scanOf ESC
    ((eatone (ESC :: d) parser₀).2.map fun r => r.map fun n => (.eseq, n)) := by
  rw [hpScan, fsmHpMktok_esc]

theorem hpScan_esc_tok {d : List UInt8} {t : HpTok × UInt8} {n : ℕ} :
    hpScan (ESC :: d) = .tok t n ↔
      t = (.eseq, ESC) ∧ (eatone (ESC :: d) parser₀).2 = .ok (some n) := by
  rw [hpScan_esc]
  rcases (eatone (ESC :: d) parser₀).2 with e | _ | k
  · exact ⟨nofun, nofun⟩
  · exact ⟨nofun, nofun⟩
  · constructor
    · intro h
      cases h
      exact ⟨rfl, rfl⟩
    · rintro ⟨rfl, h⟩
      cases h
      rfl

/-- The HP tokenizer as a lexer. -/
def hpLexer : Lexer UInt8 (HpTok × UInt8) Stop where
  scan := hpScan
  scan_nil := rfl
  tok_bounds {d t n} h := by
    rcases d with _ | ⟨c, d⟩
    · cases h
    · rcases hm : (fsmHpMktok (c :: d) parser₀).2 with e | _ | ⟨t', n'⟩
      · rw [hpScan, hm] at h; cases h
      · rw [hpScan, hm] at h; cases h
      · rw [hpScan, hm] at h
        cases h
        exact fsmHpMktok_toklen hm
  tok_append {d t n} e h := by
    rcases d with _ | ⟨c, d⟩
    · cases h
    · by_cases hc : c = ESC
      · subst hc
        obtain ⟨rfl, he⟩ := hpScan_esc_tok.mp h
        exact hpScan_esc_tok.mpr ⟨rfl, eatone_append_of_some he e⟩
      · rw [hpScan_rest hc] at h
        rw [List.cons_append, hpScan_rest hc, h]
  tok_take {d t n} h := by
    rcases d with _ | ⟨c, d⟩
    · cases h
    · by_cases hc : c = ESC
      · subst hc
        obtain ⟨rfl, he⟩ := hpScan_esc_tok.mp h
        obtain ⟨k, rfl⟩ : ∃ k, n = k + 1 := ⟨n - 1, by have := eatone_some_bounds he; omega⟩
        rw [List.take_succ_cons]
        refine hpScan_esc_tok.mpr ⟨rfl, ?_⟩
        rw [← List.take_succ_cons]
        exact eatone_take_of_some he
      · rw [hpScan_rest hc] at h
        cases h
        exact hpScan_rest hc []
  fail_append {d x} e h := by
    rcases d with _ | ⟨c, d⟩
    · cases h
    · by_cases hc : c = ESC
      · subst hc
        rw [hpScan_esc] at h
        rcases he : (eatone (ESC :: d) parser₀).2 with y | _ | k
        · rw [he] at h
          cases h
          rw [List.cons_append, hpScan_esc, ← List.cons_append, eatone_append_of_error he e]
          rfl
        · rw [he] at h; cases h
        · rw [he] at h; cases h
      · rw [hpScan_rest hc] at h
        cases h

/-! ### A call with data is a feed -/

namespace Fsm

variable {σ α ρ : Type} [DecidableEq σ] (f : Fsm σ HpTok α ρ)

/-- The machine that takes the tokens. -/
def machine : Machine (HpTok × UInt8) (Mach σ ρ) (Run α) Stop where
  halted m := f.fsmError m
  entry m t := ((f.delta m.curst t.1).2, some t.2)
  step m t := (f.action (f.delta m.curst t.1).2 (some t.2) m.vars).map
    fun v => ⟨(f.delta m.curst t.1).1, v⟩

variable {f}

theorem feedLoop_sim (hf : f.mktok = fsmHpMktok) {m : Mach σ ρ} (hm : f.fsmError m = false)
    (p : Parser) (i : ℕ) (d : List UInt8) :
    Logged.Sim (fun a b => a.1 = b.1 ∧ ∃ n ≤ d.length, a.2.2 = i + n ∧ b.2 = d.drop n)
      (f.feedLoop m p i d) (feed hpLexer f.machine m d) := by
  -- the lexer looks at the token with a fresh parser, the loop with the one at hand
  have hscan : ∀ (c : UInt8) (d : List UInt8) (p : Parser),
      hpLexer.scan (c :: d) = scanOf c (f.mktok (c :: d) p).2 := fun c d p => by
    show hpScan (c :: d) = _
    rw [hpScan, hf, fsmHpMktok_indep _ parser₀ p]
  -- the loop takes the tokens the lexer finds, and runs their actions
  fun_induction feedLoop f m p i d with
  | case1 m p i =>
    rw [feed_nil]
    exact .pure ⟨rfl, 0, Nat.zero_le _, rfl, rfl⟩
  | case2 m p i c d e htok =>
    rw [feed_fail hm (by rw [hscan c d p, htok]; rfl)]
    exact .fail e
  | case3 m p i c d htok =>
    rw [feed_more (by rw [hscan c d p, htok]; rfl)]
    exact .pure ⟨rfl, 0, Nat.zero_le _, rfl, rfl⟩
  | case4 m p i c d t toklen htok p' tr ih =>
    have hlen := f.toklen htok
    rw [feed_tok hm (t := (t, c)) (n := toklen) (by rw [hscan c d p, htok]; rfl)]
    refine .tell_bind _ ?_
    have hstep : f.machine.step m (t, c)
        = (f.action tr.2 (some c) m.vars).map fun v => ⟨tr.1, v⟩ := rfl
    rw [hstep]
    rcases f.action tr.2 (some c) m.vars with e | v
    · exact .fail e
    · rw [Except.map, Logged.lift_ok_bind, Logged.lift_ok_bind]
      split
      · -- the error state ends the loop, and halts the machine
        rename_i herr
        rw [feed_halted (decide_eq_true herr)]
        exact .pure ⟨rfl, toklen, hlen.2, rfl, rfl⟩
      · rename_i herr
        have hrec := ih v (decide_eq_false herr)
        refine ⟨hrec.1, hrec.2.mono ?_⟩
        rintro a b ⟨hab, n, hle, ha, hb⟩
        rw [List.length_drop] at hle
        rw [List.drop_drop] at hb
        exact ⟨hab, toklen + n, by omega, by omega, hb⟩

/-- **A call with data feeds the token machine**; the number it returns says how
much of the data was consumed. -/
theorem fsmFeed_sim (hf : f.mktok = fsmHpMktok) (m : Mach σ ρ) (p : Parser)
    (d : List UInt8) :
    Logged.Sim (fun a b => a.1 = b.1 ∧ a.2.2 ≤ d.length ∧ b.2 = d.drop a.2.2)
      (f.fsmFeed m p d) (feed hpLexer f.machine m d) := by
  rw [fsmFeed]
  split
  · rename_i herr
    rw [feed_halted (decide_eq_true herr)]
    exact .pure ⟨rfl, Nat.zero_le _, rfl⟩
  · rename_i herr
    have hloop := feedLoop_sim hf (decide_eq_false herr) p 0 d
    refine ⟨hloop.1, hloop.2.mono ?_⟩
    rintro a b ⟨hab, n, hle, ha, hb⟩
    rw [Nat.zero_add] at ha
    exact ⟨hab, ha ▸ hle, ha ▸ hb⟩

end Fsm

end Swh
