/-
The dialogue with the switch.

What sc and the main loop are for: a conversation in turns, one line at a time.
`Dialogue` says it without buffers, machines and end-of-data probes.  A complete answer
is known by its form, a byte is sent only after the one before it was answered, and the
user is asked only when there is no byte left.

* `isAnswer_iff` — the machines complete exactly the answers of their forms;
* `Moves.converses`, `dialogue` — every run of the source is such a conversation;
* `alternates` — in every run, the user is asked for a line in turn with the lines
  that are queued.
-/
import Swh.Handover
import Swh.Answer

namespace Swh

open Ansiseq (ESC)

/-! ### The forms of the answers -/

namespace Inchar

/-- The input that leads to a state. -/
inductive Path : List UInt8 → St → Prop
  | sta : Path [] .sta
  | cm1 {e} (he : Eseq e) : Path e .cm1
  | inc {e t} (he : Eseq e) (ht : t ≠ ESC) : Path (e ++ [t]) .inc
  | cm2 {d} (h : IsEcho d) : Path d .cm2
  | err {d} : Path d .err

theorem Path.eseq {q e : List UInt8} {st : St} (h : Path q st) (he : Eseq e) :
    Path (q ++ e) (delta st .eseq).1 := by
  cases h with
  | sta => exact .cm1 he
  | cm1 => exact .err
  | @inc e' t he' ht => exact .cm2 ⟨e', t, e, he', ht, .one he, by rw [List.append_assoc]; rfl⟩
  | cm2 h =>
    obtain ⟨e', t, u, he', ht, hu, rfl⟩ := h
    exact .cm2 ⟨e', t, u ++ e, he', ht, hu.concat he, by rw [List.append_assoc]; rfl⟩
  | err => exact .err

theorem Path.rest {q : List UInt8} {st : St} (h : Path q st) {c : UInt8} (hc : c ≠ ESC) :
    Path (q ++ [c]) (delta st .rest).1 := by
  cases h with
  | cm1 he => exact .inc he hc
  | sta => exact .err
  | inc => exact .err
  | cm2 => exact .err
  | err => exact .err

theorem path_of_feed {d r : List UInt8} {g : Program}
    (h : (Program.start .inchar).feed d = .ok (g, r)) :
    ∃ u st, d = u ++ r ∧ g = .inchar st ∧ Path u st := by
  obtain ⟨u, hd, st, hg, hpath⟩ := Program.feed_invariant
    (I := fun q g => ∃ st, g = .inchar st ∧ Path q st) (q := [])
    (by
      rintro q _ u t ⟨st, rfl, hpath⟩ - ht
      rcases scan_cases ht with ⟨he, rfl⟩ | ⟨c, hc, rfl, rfl⟩
      · exact ⟨_, rfl, hpath.eseq he⟩
      · exact ⟨_, rfl, hpath.rest hc⟩)
    ⟨.sta, rfl, .sta⟩ h
  exact ⟨u, st, hd, hg, hpath⟩

theorem Path.accepts {q : List UInt8} {st : St} (h : Path q st)
    (hacc : (Program.inchar st).accepts = true) : IsEcho q := by
  cases h with
  | cm2 h => exact h
  | sta => cases hacc
  | cm1 => cases hacc
  | inc => cases hacc
  | err => cases hacc

end Inchar

/-- A complete answer to what machine `m` was reset for, with its output and its
prompt. -/
def IsAnswer (d O P : List UInt8) : CurFsm → Prop
  | .init => IsChat d P ∧ O = []
  | .cmdout => Core.Texts d O P
  | .inchar => IsEcho d ∧ O = [] ∧ P = []

/-- **The machines complete exactly the answers of their forms.** -/
theorem isAnswer_iff {d O P : List UInt8} {m : CurFsm} : IsAnswer d O P m ↔
    ∃ g, (Program.start m).feed d = .ok (g, []) ∧ g.accepts = true ∧ g.eod.outText = O ∧
      g.eod.ps1Text = P := by
  cases m with
  | init =>
    constructor
    · rintro ⟨h, rfl⟩
      exact ⟨_, Program.feed_all (Init.feed_chat h), rfl, rfl, rfl⟩
    · rintro ⟨g, hfeed, hacc, rfl, rfl⟩
      obtain ⟨u, st, x, hu, rfl, hpath, -⟩ := Init.feed_path .sta hfeed
      rw [List.append_nil] at hu
      subst hu
      obtain rfl := Init.accepts_iff_cm4.mp hacc
      exact ⟨hpath.chat, rfl⟩
  | cmdout =>
    constructor
    · rintro (⟨rfl, h⟩ | h)
      · exact ⟨_, Program.feed_all (Cmdout.feed_prompt h), rfl, rfl, rfl⟩
      · exact ⟨_, Program.feed_all (Cmdout.feed_output h), rfl, rfl, rfl⟩
    · rintro ⟨g, hfeed, hacc, rfl, rfl⟩
      obtain ⟨u, st, x, hu, rfl, hpath⟩ := Cmdout.path_of_feed hfeed
      rw [List.append_nil] at hu
      subst hu
      rcases hpath.accepts hacc with ⟨A, hA, rfl, rfl⟩ | ⟨A, B, hAB, rfl, rfl⟩
      · exact .inl ⟨rfl, hA⟩
      · exact .inr hAB
  | inchar =>
    constructor
    · rintro ⟨h, rfl, rfl⟩
      exact ⟨_, h.feed, rfl, rfl, rfl⟩
    · rintro ⟨g, hfeed, hacc, rfl, rfl⟩
      obtain ⟨u, st, hu, rfl, hpath⟩ := Inchar.path_of_feed hfeed
      rw [List.append_nil] at hu
      subst hu
      exact ⟨hpath.accepts hacc, rfl, rfl⟩

namespace Program

/-- The flags of the init machine do not change what a feed does. -/
theorem feed_congr {g h g' : Program} {d r : List UInt8} (heq : g.settle = h.settle)
    (hfeed : g.feed d = .ok (g', r)) : ∃ h', h.feed d = .ok (h', r) ∧ h'.settle = g'.settle := by
  have hsim := TokenStream.feed_sim (L := hpLexer) (M := machine) (N := machine)
    (R := fun g h => g.settle = h.settle)
    (fun {g h} heq => by
      show g.error = h.error
      rw [← error_settle g, heq, error_settle])
    (fun {g h} t heq _ => .ok (by
      show (g.take t.1 (some t.2)).settle = (h.take t.1 (some t.2)).settle
      rw [← settle_take g, heq, settle_take]))
    heq d
  rw [show (TokenStream.feed hpLexer machine g d).res = .ok (g', r) from hfeed] at hsim
  obtain ⟨⟨h', r'⟩, hfeed', hset, rfl⟩ := hsim.exists_ok_right
  exact ⟨h', hfeed', hset.symm⟩

theorem accepts_congr {g h : Program} (heq : g.settle = h.settle) : g.accepts = h.accepts := by
  rw [← accepts_settle g, heq, accepts_settle]

theorem error_congr {g h : Program} (heq : g.settle = h.settle) : g.error = h.error := by
  rw [← error_settle g, heq, error_settle]

end Program

/-! ### The conversation -/

/-- Where the conversation stands. -/
inductive Talk
  /-- `heard` is what came of the answer so far, and `line` is still to be sent. -/
  | listen (m : CurFsm) (heard line : List UInt8)
  /-- The next byte of `line` may be sent. -/
  | send (line : List UInt8)
  /-- The user is to see the output and the prompt. -/
  | reply (out ps1 : List UInt8)
  /-- It is the user's turn. -/
  | ask
  | ended
  deriving DecidableEq

/-- **The conversation**: one turn at a time, each after a complete answer. -/
inductive Converse : Talk → List Ev → Talk → Prop
  | hear {m heard line bs acts} (hbs : bs ≠ []) (hacts : ∀ e ∈ acts, e = .key ∨ e = .report)
      (hm : m ≠ .init → acts = []) :
      Converse (.listen m heard line) (.read bs :: acts) (.listen m (heard ++ bs) line)
  | silence {m heard line} (hno : ∀ O P, ¬ IsAnswer heard O P m) :
      Converse (.listen m heard line) [.eagain] (.listen m heard line)
  | acknowledged {m heard line O P} (h : IsAnswer heard O P m) (hline : line ≠ []) :
      Converse (.listen m heard line) [.eagain, .eod m 0 true] (.send line)
  | answered {m heard O P} (h : IsAnswer heard O P m) :
      Converse (.listen m heard []) [.eagain, .eod m 0 true, .ready]
        (.reply (untilNul O) (untilNul P))
  | send {c line} :
      Converse (.send (c :: line)) [.wrote c, .reset (select c)] (.listen (select c) [] line)
  | reply {out ps1} :
      Converse (.reply out ps1) ((if out = [] then [] else [.put out]) ++ [.put ps1]) .ask
  | ask {str} (hstr : str ≠ []) : Converse .ask [.queued str] (.send str)
  /-- The switch has hung up. -/
  | hangup {m heard line} : Converse (.listen m heard line) [] .ended
  /-- Whatever comes next, this can not become an answer. -/
  | reject {m heard line bs acts} (hacts : ∀ e ∈ acts, e = .key ∨ e = .report)
      (hno : ∀ e O P, ¬ IsAnswer (heard ++ bs ++ e) O P m) :
      Converse (.listen m heard line) (.read bs :: acts) .ended

/-- The lines that were queued, in order. -/
def lines (l : List Ev) : List (List UInt8) :=
  l.filterMap fun | .queued str => some str | _ => none

theorem lines_replies (v : View) : lines (Core.replies v) = [] := by
  rw [Core.replies]
  split <;> rfl

@[simp] theorem lines_append (l l' : List Ev) : lines (l ++ l') = lines l ++ lines l' :=
  List.filterMap_append

/-- Whether the user has to answer a prompt. -/
def Talk.asks : Talk → Bool
  | .reply _ _ => true
  | .ask => true
  | _ => false

theorem lines_heard {bs : List UInt8} {acts : List Ev}
    (h : ∀ e ∈ acts, e = .key ∨ e = .report) :
    (Ev.read bs :: acts).count .ready = 0 ∧ lines (.read bs :: acts) = [] := by
  have hacts : ∀ e ∈ Ev.read bs :: acts, e = .read bs ∨ e = .key ∨ e = .report := by
    rintro e (_ | ⟨_, he⟩)
    · exact .inl rfl
    · exact .inr (h e he)
  refine ⟨List.count_eq_zero.mpr fun hmem => ?_, List.filterMap_eq_nil_iff.mpr fun e he => ?_⟩
  · rcases hacts _ hmem with h | h | h <;> cases h
  · rcases hacts e he with rfl | rfl | rfl <;> rfl

/-- Each step of the conversation keeps prompts and lines in balance. -/
theorem Converse.balance {t t' : Talk} {l : List Ev} (h : Converse t l t') :
    l.count .ready + t.asks.toNat = (lines l).length + t'.asks.toNat := by
  cases h with
  | hear _ hacts | reject hacts =>
    obtain ⟨hcount, hlines⟩ := lines_heard hacts
    rw [hcount, hlines]
    rfl
  | @reply out ps1 =>
    split <;> rfl
  | _ => rfl

theorem Converse.run_balance {t : Talk} {l : List Ev}
    (h : Runs Converse (.listen .init [] []) l t) :
    l.count .ready = (lines l).length + t.asks.toNat := by
  refine h.invariant (J := fun l t => l.count .ready = (lines l).length + t.asks.toNat)
    (i := []) ?_ rfl
  intro l t l' t' hJ hs
  have := hs.balance
  rw [List.count_append, lines_append, List.length_append]
  omega

namespace Core

/-! ### What the machines have heard -/

/-- The machine has been fed what was heard, up to the bytes `rb`. -/
def Heard (m : CurFsm) (heard : List UInt8) (g : Program) (rb : List UInt8) : Prop :=
  ∃ g', (Program.start m).feed heard = .ok (g', rb) ∧ g'.settle = g.settle

variable {m : CurFsm} {heard bs rb r O P : List UInt8} {g g' : Program}

theorem heard_start (m : CurFsm) : Heard m [] (.start m) [] := ⟨_, Program.feed_nil _, rfl⟩

theorem Heard.settle (h : Heard m heard g rb) : Heard m heard g.settle rb := by
  obtain ⟨g', hfeed, hset⟩ := h
  exact ⟨g', hfeed, hset.trans g.settle_settle.symm⟩

theorem Heard.feed (h : Heard m heard g rb) (hfeed : g.feed (rb ++ bs) = .ok (g', r)) :
    Heard m (heard ++ bs) g' r := by
  obtain ⟨g₁, h₁, hset⟩ := h
  obtain ⟨g₂, h₂, hset₂⟩ := Program.feed_congr hset.symm hfeed
  exact ⟨g₂, by rw [Program.feed_append h₁, h₂], hset₂⟩

/-- A feed from the start goes through what was heard. -/
theorem Heard.of_append (h : Heard m heard g rb)
    (hfeed : (Program.start m).feed (heard ++ bs) = .ok (g', r)) :
    ∃ g₂, g.feed (rb ++ bs) = .ok (g₂, r) ∧ g₂.settle = g'.settle := by
  obtain ⟨g₁, h₁, hset⟩ := h
  rw [Program.feed_append h₁] at hfeed
  exact Program.feed_congr hset hfeed

/-- What was heard is an answer exactly if nothing is left over and the machine accepts. -/
theorem Heard.isAnswer_iff (h : Heard m heard g rb) : IsAnswer heard O P m ↔
    rb = [] ∧ g.accepts = true ∧ g.eod.outText = O ∧ g.eod.ps1Text = P := by
  obtain ⟨g₁, h₁, hset⟩ := h
  obtain ⟨hout, hps1⟩ := Program.eod_texts_of_settle hset
  rw [Swh.isAnswer_iff, ← Program.accepts_congr hset, ← hout, ← hps1]
  constructor
  · rintro ⟨g₂, h₂, htexts⟩
    rw [h₁] at h₂
    cases h₂
    exact ⟨rfl, htexts⟩
  · rintro ⟨rfl, htexts⟩
    exact ⟨g₁, h₁, htexts⟩

/-- If what was heard can become an answer, the machine can be fed all of it. -/
theorem Heard.feeds {e : List UInt8} (h : Heard m heard g rb)
    (hans : IsAnswer (heard ++ bs ++ e) O P m) :
    ∃ g₂ r, g.feed (rb ++ bs) = .ok (g₂, r) ∧ g₂.error = false := by
  obtain ⟨g₁, h₁, hacc, -⟩ := Swh.isAnswer_iff.mp hans
  obtain ⟨g₂, r, h₂, herr, -⟩ := Program.feed_prefix h₁ (Program.accepts_iff.mp hacc).1
  obtain ⟨g₃, h₃, hset⟩ := h.of_append h₂
  exact ⟨g₃, r, h₃, by rw [Program.error_congr hset, herr]⟩

/-! ### The loop converses -/

/-- Where the conversation stands, in the variables of sc. -/
inductive Spells : View → Phase → Talk → Prop
  | listen {v ph heard} (hst : v.state = .busy) (hph : ph = .select ∨ ∃ w, ph = .loop w)
      (h : Heard v.prog.which heard v.prog v.rb) :
      Spells v ph (.listen v.prog.which heard v.wq)
  | send {v} (hst : v.state = .writing) : Spells v (.loop false) (.send v.wq)
  | reply {v w} (hst : v.state = .ready) : Spells v (.loop w) (.reply v.out v.ps1)
  | ask {v} : Spells v .user .ask
  | ended {v e} (hst : v.state ≠ .ready) : Spells v (.stopped e) .ended

variable {v v' : View} {ph ph' : Phase} {l : List Ev} {t : Talk}

theorem Spells.busy (h : Spells v (.loop w) t) (hst : v.state = .busy) :
    ∃ heard, t = .listen v.prog.which heard v.wq ∧ Heard v.prog.which heard v.prog v.rb := by
  cases h with
  | listen _ _ h => exact ⟨_, rfl, h⟩
  | send hst' => cases hst.symm.trans hst'
  | reply hst' => cases hst.symm.trans hst'

/-- Without new data nothing is fed. -/
theorem Sane.feed_stuck (h : Sane v ph) : v.prog.feed (v.data none) = .ok (v.prog, v.data none) :=
  Program.feed_more (by simpa [View.data] using h.stuck) _

/-- A call that goes on. -/
theorem Spells.operates {w b : Bool} {r : ReadResult} (ht : Spells v (.loop w) t)
    (hsane : Sane v (.loop w)) (hop : v.Operates r l (.ok (v', b))) :
    ∃ t', Converse t l t' ∧ Spells v' (if b then .loop false else .select) t' := by
  cases hop with
  | @write c wq hst hwq =>
    have hrb := hsane.rb (by simp [hst])
    have hheard : Heard (Program.start (select c)).which [] (.start (select c)) v.rb := by
      rw [hrb, Program.which_start]
      exact heard_start _
    cases ht with
    | listen hst' => cases hst.symm.trans hst'
    | reply hst' => cases hst.symm.trans hst'
    | send =>
      refine ⟨_, ?_, .listen rfl (.inr ⟨false, rfl⟩) hheard⟩
      rw [hwq, Program.which_start]
      exact .send
  | @starved o hst hr hd hfeed =>
    obtain ⟨heard, rfl, hheard⟩ := ht.busy hst
    rcases o with _ | bs
    · -- something is left over, so what was heard is no whole answer
      refine ⟨_, .silence fun O P hans => ?_, .listen hst (.inl rfl) ?_⟩
      · exact hd (by simpa [View.data] using (hheard.isAnswer_iff.mp hans).1)
      · simpa [View.data] using hheard
    · exact ⟨_, @Converse.hear _ _ _ _ [] (xread_some hr) (by simp) fun _ => rfl,
        .listen hst (.inl rfl) (hheard.feed hfeed)⟩
  | @fed o g rest hst hr hfeed hlt herr =>
    obtain ⟨heard, rfl, hheard⟩ := ht.busy hst
    rcases o with _ | bs
    · rw [hsane.feed_stuck] at hfeed
      cases hfeed
      exact absurd hlt (lt_irrefl _)
    · refine ⟨_, .hear (xread_some hr) (fun e he => mem_reaction he) fun hm => ?_, ?_⟩
      · exact reaction_of_ne_init (by rwa [Program.which_feed hfeed])
      · have hwhich : g.settle.which = v.prog.which :=
          (Program.which_settle g).trans (Program.which_feed hfeed)
        rw [← hwhich]
        exact .listen hst (.inr ⟨false, rfl⟩) (hwhich ▸ (hheard.feed hfeed).settle)
  | wait hst hr hrb hacc hflag =>
    obtain ⟨heard, rfl, hheard⟩ := ht.busy hst
    refine ⟨_, .silence fun O P hans => ?_, .listen hst (.inl rfl) hheard⟩
    rw [(hheard.isAnswer_iff.mp hans).2.1] at hacc
    cases hacc
  | ack hst hr hrb hacc hwq =>
    obtain ⟨heard, rfl, hheard⟩ := ht.busy hst
    exact ⟨_, .acknowledged (hheard.isAnswer_iff.mpr ⟨hrb, hacc, rfl, rfl⟩) hwq, .send rfl⟩
  | done hst hr hrb hacc hwq hout =>
    obtain ⟨heard, rfl, hheard⟩ := ht.busy hst
    rw [hwq]
    exact ⟨_, .answered (hheard.isAnswer_iff.mpr ⟨hrb, hacc, rfl, rfl⟩), .reply rfl⟩

/-- A call that stops: the switch has hung up, or what it sent is no answer. -/
theorem Spells.stops {w : Bool} {r : ReadResult} {e : Stop} (ht : Spells v (.loop w) t)
    (hsane : Sane v (.loop w)) (hwoken : w = true → r ≠ .eagain)
    (hst : v.state ≠ .ready) (hop : v.Operates r l (.error e)) : Converse t l .ended := by
  cases hop with
  | noNewline hst' hwq => exact absurd hwq (hsane.writing hst')
  | ready hst' => exact absurd hst' hst
  | offline hst' => rcases hsane.state with h | h | h <;> cases hst'.symm.trans h
  | invalid hst' => rcases hsane.state with h | h | h <;> cases hst'.symm.trans h
  | readFails hst' hr =>
    obtain ⟨heard, rfl, -⟩ := ht.busy hst'
    exact .hangup
  | @malformed o _ hst' hr hd hfeed =>
    obtain ⟨heard, rfl, hheard⟩ := ht.busy hst'
    rcases o with _ | bs
    · rw [hsane.feed_stuck] at hfeed
      cases hfeed
    · refine @Converse.reject _ _ _ _ [] (by simp) fun e O P hans => ?_
      obtain ⟨g₂, r, hfeed', -⟩ := hheard.feeds hans
      cases hfeed.symm.trans hfeed'
  | @fsmError o g rest hst' hr hfeed hlt herr =>
    obtain ⟨heard, rfl, hheard⟩ := ht.busy hst'
    rcases o with _ | bs
    · rw [hsane.feed_stuck] at hfeed
      cases hfeed
      exact absurd hlt (lt_irrefl _)
    · refine .reject (fun e he => mem_reaction he) fun e O P hans => ?_
      obtain ⟨g₂, r, hfeed', herr'⟩ := hheard.feeds hans
      cases hfeed.symm.trans hfeed'
      rw [herr] at herr'
      cases herr'
  | meh hst' hr hrb hacc hflag => rw [hsane.not_flag hwoken hr] at hflag; cases hflag
  | outbufNotEmpty hst' hr hrb hacc hwq hout => exact absurd (hsane.out (by simp [hst'])) hout

/-- **Every move of the loop is a turn of the conversation**, or one that nobody sees. -/
theorem Spells.moves (ht : Spells v ph t) (hsane : Sane v ph) (hm : Moves (v, ph) l (v', ph')) :
    ∃ t', Runs Converse t l t' ∧ Spells v' ph' t' := by
  cases hm with
  | operate r hst hwoken hop =>
    obtain ⟨t', hs, ht'⟩ := ht.operates hsane hop
    exact ⟨t', .single hs, ht'⟩
  | stop r hst hwoken hop => exact ⟨.ended, .single (ht.stops hsane hwoken hst hop), .ended hst⟩
  | wake =>
    cases ht with
    | listen hst hph h => exact ⟨_, .refl _, .listen hst (.inr ⟨true, rfl⟩) h⟩
  | hand hst =>
    cases ht with
    | listen hst' => cases hst.symm.trans hst'
    | send hst' => cases hst.symm.trans hst'
    | reply => exact ⟨.ask, .single .reply, .ask⟩
  | write str hstr =>
    cases ht with
    | listen hst hph => rcases hph with hph | ⟨w, hph⟩ <;> cases hph
    | ask => exact ⟨_, .single (.ask hstr), .send rfl⟩

/-- The variables of sc say where the conversation stands. -/
def Stands (c : Conf) : Talk → Prop
  | .listen m heard line => c.sc.state = .busy ∧ c.sc.curfsm = m ∧ c.sc.writebuf.Counts line ∧
      ∃ q rb, heard = q ++ rb ∧ c.sc.readbuf.Counts rb
  | .send line => c.sc.state = .writing ∧ c.sc.writebuf.Counts line
  | .reply out ps1 => c.sc.state = .ready ∧ c.sc.outbuf.Records out ∧ c.sc.ps1buf.Records ps1
  | .ask => c.phase = .user
  | .ended => ∃ e, c.phase = .stopped e

variable {c : Conf}

theorem spells_init : Spells .init (.loop false) (.listen .init [] []) :=
  .listen rfl (.inr ⟨false, rfl⟩) (heard_start .init)

theorem run_spells (h : Run start l c) : ∃ v, c.Shows (v, c.phase) ∧
    ∃ t, Runs Converse (.listen .init [] []) l t ∧ Spells v c.phase t := by
  refine run_invariant (J := fun l v ph =>
    ∃ t, Runs Converse (.listen .init [] []) l t ∧ Spells v ph t) ⟨_, .refl _, spells_init⟩ ?_ h
  rintro l v ph l' v' ph' hsane ⟨t, hrun, ht⟩ hm
  obtain ⟨t', hrun', ht'⟩ := ht.moves hsane hm
  exact ⟨t', hrun.trans hrun', ht'⟩

theorem Spells.stands (ht : Spells v ph t) (hc : c.Shows (v, ph)) : Stands c t := by
  obtain ⟨hshows, hph, -⟩ := hc
  cases ht with
  | listen hst _ h =>
    obtain ⟨g', hfeed, -⟩ := h
    obtain ⟨q, hq⟩ := Program.feed_suffix hfeed
    exact ⟨hshows.state.trans hst, hshows.curfsm, hshows.writebuf, q, _, hq, hshows.readbuf⟩
  | send hst => exact ⟨hshows.state.trans hst, hshows.writebuf⟩
  | reply hst => exact ⟨hshows.state.trans hst, hshows.outbuf, hshows.ps1buf⟩
  | ask => exact hph
  | ended hst => exact ⟨_, hph⟩

theorem Spells.asks (ht : Spells v ph t) (hsane : Sane v ph) :
    t.asks = decide (v.state = .ready) := by
  cases ht with
  | listen hst | send hst | reply hst => rw [hst]; rfl
  | ask => rw [hsane.user rfl]; rfl
  | ended hst => exact (decide_eq_false hst).symm

/-- **Every run of the loop is a conversation**, and the variables of sc say where it
stands. -/
theorem dialogue (h : Run start l c) :
    ∃ t, Runs Converse (.listen .init [] []) l t ∧ Stands c t := by
  obtain ⟨v, hc, t, hrun, ht⟩ := run_spells h
  exact ⟨t, hrun, ht.stands hc⟩

/-- The opening chat is over, and it is the user's turn. -/
theorem dialogue_chat : ∃ l c, Run start l c ∧ c.phase = .user ∧
    ∃ t, Runs Converse (.listen .init [] []) l t ∧ Stands c t := by
  obtain ⟨c₁, hrun, hc₁⟩ := run_chat isChat_x (by decide)
  obtain ⟨c₂, hs₂, hc₂⟩ := hc₁.hand rfl
  have hrun' := hrun.snoc hs₂
  exact ⟨_, c₂, hrun', hc₂.2.1, dialogue hrun'⟩

/-- **Prompts and lines alternate.**  sc has become ready once for each line that was
queued, and once more exactly while it is ready. -/
theorem alternates (h : Run start l c) :
    l.count .ready = (lines l).length + if c.sc.state = .ready then 1 else 0 := by
  obtain ⟨v, hc, t, hrun, ht⟩ := run_spells h
  rw [Converse.run_balance hrun, ht.asks hc.sane, hc.1.state]
  by_cases hst : v.state = .ready
  · simp [hst]
  · simp [hst]

/-- One prompt after the opening chat, and no line yet. -/
theorem alternates_chat : ∃ l c, Run start l c ∧ c.sc.state = .ready ∧ l.count .ready = 1 ∧
    l.count .ready = (lines l).length + if c.sc.state = .ready then 1 else 0 := by
  obtain ⟨c, hrun, hc⟩ := run_chat isChat_x (by decide)
  exact ⟨_, c, hrun, hc.1.state, rfl, alternates hrun⟩

end Core

end Swh
