/-
The three machines as one: what a program does with the tokens it is fed.

sc has one current machine at a time and resets it before it is used.  A
`Program` is such a machine with its recorded texts in place of buffers.  It takes
tokens without ever failing, so a feed stops early only on a malformed escape
sequence.

* `ShowsPrograms.feed_sim` — feeding a machine of the source is feeding the program it
  shows; `init_shows`, `cmdout_shows` and `inchar_shows` say that the three show programs;
* `feed_eseqs`, `feed_plain` — feeding a run of escape sequences or of plain bytes.
-/
import Swh.Hp
import Swh.AnsiseqLanguage

namespace Swh

open Ansiseq TokenStream

/-- The current machine and what it has recorded. -/
inductive Program
  | init (st : Init.St) (x : Init.Text)
  | cmdout (st : Cmdout.St) (x : Cmdout.Text)
  | inchar (st : Inchar.St)
  deriving DecidableEq

namespace Program

/-- One entry of the table, and its action on the texts. -/
def take (t : HpTok) (c : Option UInt8) : Program → Program
  | init st x => init (Init.delta st t).1 (x.act (Init.delta st t).2 c)
  | cmdout st x => cmdout (Cmdout.delta st t).1 (x.act (Cmdout.delta st t).2 c)
  | inchar st => inchar (Inchar.delta st t).1

/-- Whether the machine is in its error state. -/
def error : Program → Bool
  | init st _ => decide (st = .err)
  | cmdout st _ => decide (st = .err)
  | inchar st => decide (st = .err)

/-- Whether the machine is in its accepting state. -/
def accepting : Program → Bool
  | init st _ => decide (st = .fin)
  | cmdout st _ => decide (st = .fin)
  | inchar st => decide (st = .fin)

/-- The end-of-data step. -/
def eod (g : Program) : Program := g.take .eof none

/-- Whether the machine would accept the end of data now. -/
def accepts (g : Program) : Bool := !g.error && g.eod.accepting

/-- The output for the handover: only `cmdout` has any. -/
def outText : Program → List UInt8
  | cmdout _ x => x.out
  | _ => []

/-- The prompt for the handover. -/
def ps1Text : Program → List UInt8
  | init _ x => x.ps1
  | cmdout _ x => x.ps1
  | inchar _ => []

/-- The program as a machine over tokens. -/
def machine : Machine (HpTok × UInt8) Program Unit Stop where
  halted := error
  entry _ _ := ()
  step g t := .ok (g.take t.1 (some t.2))

/-- Feed data to a program: what it becomes, and the bytes it could not use yet. -/
def feed (g : Program) (d : List UInt8) : Except Stop (Program × List UInt8) :=
  (TokenStream.feed hpLexer machine g d).res

variable {g g' : Program} {d r : List UInt8}

/-- A machine that accepts is not in its error state, and after the end of data
it is in its accepting state. -/
theorem accepts_iff : g.accepts = true ↔ g.error = false ∧ g.eod.accepting = true := by
  rw [accepts, Bool.and_eq_true, Bool.not_eq_true']

theorem not_accepts_of_error (h : g.error = true) : g.accepts = false := by
  rw [accepts, h]
  rfl

/-! ### Rules for feeding -/

theorem feed_nil (g : Program) : g.feed [] = .ok (g, []) := by
  rw [feed, TokenStream.feed_nil]
  rfl

theorem feed_error (h : g.error = true) (d : List UInt8) : g.feed d = .ok (g, d) := by
  rw [feed, feed_halted h]
  rfl

/-- One complete token at the front. -/
theorem feed_token {t : HpTok × UInt8} {u : List UInt8} (hg : g.error = false)
    (h : hpScan u = .tok t u.length) (d : List UInt8) :
    g.feed (u ++ d) = (g.take t.1 (some t.2)).feed d := by
  have hstep : machine.step g t = .ok (g.take t.1 (some t.2)) := rfl
  rw [feed, TokenStream.feed_token hg h hstep]
  rfl

theorem feed_append {d e : List UInt8} (h : g.feed d = .ok (g', r)) :
    g.feed (d ++ e) = g'.feed (r ++ e) := by
  rw [feed, TokenStream.feed_append, Logged.bind_of_ok h]
  rfl

/-- A feed that succeeds succeeded on the first part of the data. -/
theorem feed_of_append {d e : List UInt8} {q : Program × List UInt8}
    (h : g.feed (d ++ e) = .ok q) :
    ∃ g' r, g.feed d = .ok (g', r) ∧ g'.feed (r ++ e) = .ok q := by
  rw [feed, TokenStream.feed_append] at h
  obtain ⟨⟨g', r⟩, hd, he⟩ := Logged.res_bind_eq_ok h
  exact ⟨g', r, hd, he⟩

/-- Input that is read to its last byte. -/
theorem feed_all {d : List UInt8} (h : ∀ e, g.feed (d ++ e) = g'.feed e) :
    g.feed d = .ok (g', []) := by
  have hend := h []
  rwa [List.append_nil, feed_nil] at hend

/-- If the error state is not reached, it was not reached on the first part of the data
either. -/
theorem feed_prefix {d e rest : List UInt8} {g'' : Program}
    (h : g.feed (d ++ e) = .ok (g'', rest)) (herr : g''.error = false) :
    ∃ g' r, g.feed d = .ok (g', r) ∧ g'.error = false ∧ g'.feed (r ++ e) = .ok (g'', rest) := by
  obtain ⟨g', r, hfirst, hrest⟩ := feed_of_append h
  refine ⟨g', r, hfirst, ?_, hrest⟩
  rw [← Bool.not_eq_true]
  intro herr'
  -- a machine in its error state stays as it is
  rw [feed_error herr'] at hrest
  simp only [Except.ok.injEq, Prod.mk.injEq] at hrest
  rw [hrest.1, herr] at herr'
  cases herr'

/-- Nothing happens until there is a complete token. -/
theorem feed_more (h : hpScan d = .more) (g : Program) : g.feed d = .ok (g, d) := by
  rw [feed, TokenStream.feed_more (L := hpLexer) h]
  rfl

/-- What is left over has no complete token, unless the machine is in its error
state. -/
theorem scan_rest (h : g.feed d = .ok (g', r)) (hg' : g'.error = false) : hpScan r = .more := by
  rcases TokenStream.feed_rest h with herr | hscan
  · rw [show g'.error = true from herr] at hg'
    cases hg'
  · exact hscan

/-- A feed fails on a malformed escape sequence, or on one that C gives no meaning
to. -/
theorem feed_error_cases {e : Stop} (h : g.feed d = .error e) :
    (∃ f, e = .undefined f) ∨ ∃ c k s, e = .panic (.ansiseq c k s) := by
  rcases TokenStream.feed_error h with ⟨r, hr⟩ | ⟨g', t, ht⟩
  · rcases r with _ | ⟨c, r⟩
    · cases hr
    · by_cases hc : c = ESC
      · subst hc
        rw [show hpLexer.scan (ESC :: r) = hpScan (ESC :: r) from rfl, hpScan_esc] at hr
        rcases he : (eatone (ESC :: r) parser₀).2 with y | _ | k
        · rw [he] at hr
          cases hr
          exact eatone_error_cases he
        · rw [he] at hr; cases hr
        · rw [he] at hr; cases hr
      · rw [show hpLexer.scan (c :: r) = hpScan (c :: r) from rfl, hpScan_rest hc] at hr
        cases hr
  · cases ht

theorem feed_suffix (h : g.feed d = .ok (g', r)) : ∃ u, d = u ++ r :=
  TokenStream.feed_suffix h

theorem feed_length_le (h : g.feed d = .ok (g', r)) : r.length ≤ d.length := by
  obtain ⟨u, rfl⟩ := feed_suffix h
  rw [List.length_append]
  omega

/-- A feed that consumes nothing leaves the program alone. -/
theorem feed_state_eq (h : g.feed d = .ok (g', r)) (hlen : r.length = d.length) :
    g' = g ∧ r = d := TokenStream.feed_state_eq h hlen

/-- A property of the consumed input and the program that every token preserves
holds when the feed returns. -/
theorem feed_invariant {I : List UInt8 → Program → Prop}
    (hstep : ∀ q g u t, I q g → g.error = false → hpScan u = .tok t u.length →
      I (q ++ u) (g.take t.1 (some t.2))) {q : List UInt8} (hI : I q g)
    (h : g.feed d = .ok (g', r)) : ∃ u, d = u ++ r ∧ I (q ++ u) g' :=
  TokenStream.feed_invariant (M := machine)
    (fun q s u t s' hq hs ht hs' => by cases hs'; exact hstep q s u t hq hs ht) hI h

end Program

/-! ### Kinds of input -/

/-- A complete escape sequence, as `eatone` accepts it. -/
def Eseq (e : List UInt8) : Prop := (eatone e parser₀).2 = .ok (some e.length)

/-- One or more escape sequences. -/
inductive Eseqs : List UInt8 → Prop
  | one {e} (he : Eseq e) : Eseqs e
  | cons {e u} (he : Eseq e) (hu : Eseqs u) : Eseqs (e ++ u)

/-- One or more bytes that do not start an escape sequence. -/
def Plain (a : List UInt8) : Prop := a ≠ [] ∧ ESC ∉ a

theorem Eseqs.concat {u e : List UInt8} (hu : Eseqs u) (he : Eseq e) : Eseqs (u ++ e) := by
  induction hu with
  | one he' => exact .cons he' (.one he)
  | cons he' _ ih =>
    rw [List.append_assoc]
    exact .cons he' ih

theorem Plain.one {c : UInt8} (hc : c ≠ ESC) : Plain [c] :=
  ⟨by simp, by simpa using hc.symm⟩

theorem Plain.concat {a : List UInt8} {c : UInt8} (ha : Plain a) (hc : c ≠ ESC) :
    Plain (a ++ [c]) := by
  refine ⟨by simp, fun h => ?_⟩
  rcases List.mem_append.mp h with h | h
  · exact ha.2 h
  · exact hc (List.mem_singleton.mp h).symm

/-- Only what starts with the escape character is an escape sequence. -/
theorem Eseq.cons_esc {e : List UInt8} (he : Eseq e) : ∃ d, e = ESC :: d := by
  rcases e with _ | ⟨c, d⟩
  · cases he
  · by_cases hc : c = ESC
    · exact ⟨d, by rw [hc]⟩
    · have hpanic : eatoneLoop (c :: d) 0 .sta { parser₀ with faults := [] }
          = ({ parser₀ with faults := [] }, .error (.panic (.ansiseq c 1 0))) := by
        have hne : mktok c ≠ .escp := fun h => hc ((mktok_escp c).mp h)
        rw [eatoneLoop]
        cases ht : mktok c <;> first | exact absurd ht hne | rfl
      rw [Eseq, eatone, hpanic] at he
      cases he

theorem Eseq.scan {e : List UInt8} (he : Eseq e) :
    hpScan e = .tok (.eseq, ESC) e.length := by
  obtain ⟨d, rfl⟩ := he.cons_esc
  exact hpScan_esc_tok.mpr ⟨rfl, he⟩

/-- Whatever is scanned as one token is an escape sequence or a plain byte. -/
theorem scan_cases {u : List UInt8} {t : HpTok × UInt8} (h : hpScan u = .tok t u.length) :
    (Eseq u ∧ t = (.eseq, ESC)) ∨ ∃ c, c ≠ ESC ∧ u = [c] ∧ t = (.rest, c) := by
  rcases u with _ | ⟨c, d⟩
  · cases h
  · by_cases hc : c = ESC
    · subst hc
      obtain ⟨rfl, he⟩ := hpScan_esc_tok.mp h
      exact .inl ⟨he, rfl⟩
    · rw [hpScan_rest hc] at h
      simp only [Scan.tok.injEq, List.length_cons] at h
      obtain ⟨rfl, hlen⟩ := h
      obtain rfl : d = [] := List.eq_nil_of_length_eq_zero (by omega)
      exact .inr ⟨c, hc, rfl, rfl⟩

namespace Program

variable {g g' : Program} {d r : List UInt8}

/-- Feed one or more escape sequences to a program that munches them. -/
theorem feed_eseqs {u : List UInt8} (g' : Program) (hu : Eseqs u) (hg : g.error = false)
    (hstep : g.take .eseq (some ESC) = g') (hg' : g'.error = false)
    (hloop : g'.take .eseq (some ESC) = g') (d : List UInt8) :
    g.feed (u ++ d) = g'.feed d := by
  induction hu generalizing g with
  | one he => rw [feed_token hg he.scan, hstep]
  | cons he _ ih => rw [List.append_assoc, feed_token hg he.scan, hstep, ih hg' hloop]

/-- Feed one or more plain bytes to a program that goes through the states `F`. -/
theorem feed_plain {a : List UInt8} (ha : Plain a) (F : List UInt8 → Program)
    (hg : g.error = false) (hfirst : ∀ c, g.take .rest (some c) = F [c])
    (hF : ∀ xs, (F xs).error = false)
    (hnext : ∀ xs c, (F xs).take .rest (some c) = F (xs ++ [c])) (d : List UInt8) :
    g.feed (a ++ d) = (F a).feed d := by
  obtain ⟨hne, hesc⟩ := ha
  have hscan : ∀ {c : UInt8}, c ≠ ESC → hpScan [c] = .tok (.rest, c) [c].length :=
    fun hc => hpScan_rest hc []
  -- behind the first byte, with `xs` read so far
  have hmore : ∀ xs ys, ESC ∉ ys → (F xs).feed (ys ++ d) = (F (xs ++ ys)).feed d := by
    intro xs ys hys
    induction ys generalizing xs with
    | nil => rw [List.append_nil, List.nil_append]
    | cons c ys ih =>
      rw [List.mem_cons, not_or] at hys
      have := feed_token (hF xs) (hscan (Ne.symm hys.1)) (ys ++ d)
      rw [List.singleton_append] at this
      rw [List.cons_append, this, hnext, ih _ hys.2, List.append_assoc]
      rfl
  rcases a with _ | ⟨c, a⟩
  · exact absurd rfl hne
  · rw [List.mem_cons, not_or] at hesc
    have := feed_token hg (hscan (Ne.symm hesc.1)) (a ++ d)
    rw [List.singleton_append] at this
    rw [List.cons_append, this, hfirst, hmore _ _ hesc.2]
    rfl

end Program

/-! ### The machines show programs -/

/-- The machine is in the state of the program, and its buffers hold the texts. -/
def Init.Shows (m : Mach Init.St Init.Vars) (g : Program) : Prop :=
  ∃ x, g = .init m.curst x ∧ m.vars.Holds x

def Cmdout.Shows (m : Mach Cmdout.St Cmdout.Vars) (g : Program) : Prop :=
  ∃ x, g = .cmdout m.curst x ∧ m.vars.Holds x

def Inchar.Shows (m : Mach Inchar.St Unit) (g : Program) : Prop := g = .inchar m.curst

section Sim

variable {σ α ρ : Type} [DecidableEq σ] {f : Fsm σ HpTok α ρ} {Shows : Mach σ ρ → Program → Prop}

/-- A machine shows programs: each entry of its table does to the machine what it
does to the program, and only `S_FIN` accepts. -/
structure ShowsPrograms (f : Fsm σ HpTok α ρ) (Shows : Mach σ ρ → Program → Prop) : Prop where
  tokenizer : f.mktok = fsmHpMktok
  eof : f.eof = .eof
  error : ∀ {m g}, Shows m g → f.fsmError m = g.error
  accepting : ∀ {m g}, Shows m g → f.fsmAccepting m = g.accepting
  /-- An entry of the table. -/
  entry : ∀ {m g} t c, Shows m g → ∃ v, f.action (f.delta m.curst t).2 c m.vars = .ok v ∧
    Shows ⟨(f.delta m.curst t).1, v⟩ (g.take t c)

variable (hf : ShowsPrograms f Shows)

include hf

/-- **Feeding the machine is feeding the program.** -/
theorem ShowsPrograms.feed_sim {m : Mach σ ρ} {g : Program} (h : Shows m g) (p : Parser)
    (d : List UInt8) :
    Agree (fun a b => Shows a.1 b.1 ∧ a.2.2 ≤ d.length ∧ b.2 = d.drop a.2.2)
      (f.fsmFeed m p d).res (g.feed d) := by
  have hprog : Agree (fun a b => Shows a.1 b.1 ∧ a.2 = b.2)
      (feed hpLexer f.machine m d).res (g.feed d) := by
    refine TokenStream.feed_sim (N := Program.machine) (R := Shows) (fun h => hf.error h) ?_ h d
    intro m g t h hm
    obtain ⟨v, hv, hshows⟩ := hf.entry t.1 (some t.2) h
    show Agree Shows ((f.action _ _ _).map _) _
    rw [hv]
    exact .ok hshows
  -- from the buffers of the source to its tokens, and from these to the program
  refine (Fsm.fsmFeed_sim hf.tokenizer m p d).2.trans hprog ?_
  rintro a b c ⟨hab, hle, hdrop⟩ ⟨hbc, hrest⟩
  exact ⟨hab ▸ hbc, hle, hrest ▸ hdrop⟩

/-- The probe tells whether the program accepts the end of data. -/
theorem ShowsPrograms.probe {m : Mach σ ρ} {g : Program} (h : Shows m g) :
    f.fsmFeedNull m 0 = pure (m, if g.accepts then 1 else 0) := by
  obtain ⟨v, hv, hshows⟩ := hf.entry .eof none h
  have herr : f.fsmError m = decide (m.curst = f.errst) := rfl
  rw [Fsm.fsmFeedNull]
  by_cases hm : m.curst = f.errst
  · rw [if_pos hm, Program.not_accepts_of_error (by rw [← hf.error h, herr, hm]; simp)]
    rfl
  · have hacc : g.accepts = f.isaccepting (f.delta m.curst f.eof).1 := by
      rw [Program.accepts, ← hf.error h, herr, decide_eq_false hm, Program.eod,
        ← hf.accepting hshows, hf.eof]
      rfl
    rw [if_neg hm, hacc]
    rfl

/-- The commit takes the end-of-data step. -/
theorem ShowsPrograms.commit {m : Mach σ ρ} {g : Program} (h : Shows m g)
    (hg : g.error = false) :
    ∃ m', (f.fsmFeedNull m 1).res = .ok (m', 1) ∧ Shows m' g.eod := by
  obtain ⟨v, hv, hshows⟩ := hf.entry .eof none h
  have hm : m.curst ≠ f.errst := of_decide_eq_false ((hf.error h).trans hg)
  refine ⟨⟨(f.delta m.curst .eof).1, v⟩, ?_, hshows⟩
  rw [Fsm.fsmFeedNull, if_neg hm, hf.eof]
  show ((Logged.lift (f.action _ none m.vars) >>= _ :
    Logged (Run α) Stop (Mach σ ρ × ℕ))).res = _
  rw [hv, Logged.lift_ok_bind]
  rfl

end Sim

theorem init_shows : ShowsPrograms Init.fsm Init.Shows where
  tokenizer := rfl
  eof := rfl
  error := by rintro m g ⟨x, rfl, -⟩; rfl
  accepting := by
    rintro m g ⟨x, rfl, -⟩
    exact decide_eq_decide.mpr List.mem_singleton
  entry := by
    rintro m g t c ⟨x, rfl, hx⟩
    obtain ⟨v, hv, hholds⟩ := Init.action_holds hx (Init.delta m.curst t).2 c
    exact ⟨v, hv, _, rfl, hholds⟩

theorem cmdout_shows : ShowsPrograms Cmdout.fsm Cmdout.Shows where
  tokenizer := rfl
  eof := rfl
  error := by rintro m g ⟨x, rfl, -⟩; rfl
  accepting := by
    rintro m g ⟨x, rfl, -⟩
    exact decide_eq_decide.mpr List.mem_singleton
  entry := by
    rintro m g t c ⟨x, rfl, hx⟩
    obtain ⟨v, hv, hholds⟩ := Cmdout.action_holds hx (Cmdout.delta m.curst t).2 c
    exact ⟨v, hv, _, rfl, hholds⟩

theorem inchar_shows : ShowsPrograms Inchar.fsm Inchar.Shows where
  tokenizer := rfl
  eof := rfl
  error := by rintro m g rfl; rfl
  accepting := by
    rintro m g rfl
    exact decide_eq_decide.mpr List.mem_singleton
  entry := by
    rintro m g t c rfl
    exact ⟨(), rfl, rfl⟩

end Swh
