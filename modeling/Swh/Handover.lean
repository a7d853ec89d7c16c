/-
What is handed over, and what was recorded.

The machines count the bytes they record, while sc and the main loop measure
texts with `strlen`.

* `Handover.answered` — what is recorded are the texts of the answer that was read;
* `Handover.texts_eq` — sc hands over what was recorded before the first NUL;
* `nothingDropped_iff` — this is all of it unless there is a NUL.
-/
import Swh.Timing

namespace Swh

/-- `fsm_cmdout_outbufcnt()` -/
def Cmdout.outbufcnt (m : Mach Cmdout.St Cmdout.Vars) : ℕ := m.vars.outbuf.cnt

namespace Core

open Ansiseq (ESC)

/-! ### The answer -/

def answerEv (d : List UInt8) : Ev → List UInt8
  | .read bs => d ++ bs
  | .reset _ => []
  | _ => d

/-- What the switch has answered: the bytes read since the last reset of a machine. -/
def answer (l : List Ev) : List UInt8 := l.foldl answerEv []

/-- The output and the prompt of an answer.  Where there is but one text, it is the
prompt. -/
def Texts (d O P : List UInt8) : Prop := (O = [] ∧ IsPrompt d P) ∨ IsOutput d O P

/-- The command-output machine has been fed the answer, up to what is still buffered. -/
def Fed (l : List Ev) (v : View) (ph : Phase) : Prop :=
  v.state = .busy → v.prog.which = .cmdout → (∀ e, ph ≠ .stopped e) →
    Cmdout.start.feed (answer l) = .ok (v.prog, v.rb)

variable {c : Conf} {v v' : View} {ph ph' : Phase} {l l' : List Ev}

theorem answer_readEv (l : List Ev) (o : Option (List UInt8)) :
    answer (l ++ [readEv o]) = answer l ++ o.getD [] := by
  rw [answer, List.foldl_append]
  cases o with
  | none => exact (List.append_nil _).symm
  | some bs => rfl

theorem answer_bytewise (l : List Ev) (bs : List UInt8) :
    answer (l ++ bytewise bs) = answer l ++ bs := by
  induction bs generalizing l with
  | nil => rw [bytewise, List.map_nil, List.append_nil, List.append_nil]
  | cons x bs ih =>
    have hcons : bytewise (x :: bs) = readEv (some [x]) :: bytewise bs := rfl
    rw [hcons, List.append_cons, ih, answer_readEv, List.append_assoc]
    rfl

/-- A call of `sc_operate` feeds what it has read. -/
theorem Fed.operates {w b : Bool} {r : ReadResult} (hsane : Sane v (.loop w))
    (h : Fed l v (.loop w)) (hop : v.Operates r l' (.ok (v', b))) : Fed (l ++ l') v' ph := by
  intro hbusy hwhich _
  cases hop with
  | @write c wq hst hwq =>
    -- the machine is reset, and nothing is buffered
    have hrb := hsane.rb (by simp [hst])
    rw [Program.which_start] at hwhich
    dsimp only
    rw [answer, List.foldl_append, hwhich, hrb]
    exact Program.feed_nil _
  | @starved o hst hr hd hfeed =>
    rw [answer_readEv, Program.feed_append (h hst hwhich nofun)]
    exact hfeed
  | @fed o g rest hst hr hfeed hlt herr =>
    dsimp only at hwhich ⊢
    rw [Program.which_settle] at hwhich
    have hfed := h hst ((Program.which_feed hfeed).symm.trans hwhich) nofun
    obtain ⟨st, x, rfl⟩ : ∃ st x, g = .cmdout st x := by
      cases g with
      | cmdout st x => exact ⟨st, x, rfl⟩
      | init => cases hwhich
      | inchar => cases hwhich
    rw [show (Program.cmdout st x).reaction = [] from rfl, answer_readEv,
      Program.feed_append hfed]
    exact hfeed
  | wait hst =>
    rw [answer, List.foldl_append]
    exact h hst hwhich nofun
  | ack => cases hbusy
  | done => cases hbusy

theorem Fed.moves (hsane : Sane v ph) (h : Fed l v ph) (hm : Moves (v, ph) l' (v', ph')) :
    Fed (l ++ l') v' ph' := by
  cases hm with
  | operate r hst hwoken hop => exact h.operates hsane hop
  | @stop v w l e => exact fun _ _ hlive => absurd rfl (hlive e)
  | wake =>
    rw [List.append_nil]
    exact fun hst hwhich _ => h hst hwhich nofun
  | hand hst => exact fun hbusy => by cases hst.symm.trans hbusy
  | write => exact fun hbusy => by cases hbusy

theorem run_fed (h : Run start l c) : ∃ v, c.Shows (v, c.phase) ∧ Fed l v c.phase :=
  run_invariant (J := Fed) (fun _ hwhich => by cases hwhich)
    (fun hsane hfed hm => hfed.moves hsane hm) h

/-! ### The handover -/

/-- A call of `sc_operate` that makes sc ready with the answer to a command. -/
structure Handover where
  log : List Ev
  conf : Conf
  run : Run start log conf
  woken : Bool
  phase : conf.phase = .loop woken
  cmdout : conf.sc.curfsm = .cmdout
  read : ReadResult
  fits : read.Fits conf.sc
  wakes : woken = true → read ≠ .eagain
  next : Sc
  operated : (scOperate read conf.sc).res = .ok (next, true)
  ready : next.state = .ready
  /-- The output the machine has recorded. -/
  out : List UInt8
  /-- The prompt it has recorded. -/
  ps1 : List UInt8
  texts : next.fsmCmdout.vars.Holds ⟨out, ps1⟩

/-- All that was recorded is handed over to sc, and then to the user front end. -/
structure NothingDropped (s : Sc) (O P : List UInt8) : Prop where
  outCnt : s.outbuf.cnt = Cmdout.outbufcnt s.fsmCmdout
  out : s.outbuf.Records O
  ps1Cnt : s.ps1buf.cnt = s.fsmCmdout.vars.ps1buf.cnt
  ps1 : s.ps1buf.Records P
  hasreply : scHasreply s = true ↔ O ≠ []
  put : putReply s = ⟨(if O = [] then [] else [.put O]) ++ [.put P], .ok ()⟩

/-- The end-of-data step, and what sc takes over behind it. -/
def handedOver (v : View) : View :=
  { v with
    prog := v.prog.eod, state := .ready, out := untilNul v.prog.eod.outText
    ps1 := untilNul v.prog.eod.ps1Text }

/-- The read buffer is empty, the machine has read the whole answer, and sc takes over
the texts that the end-of-data step leaves. -/
theorem Handover.done (h : Handover) : ∃ v : View, v.prog.which = .cmdout ∧
    v.prog.accepts = true ∧ Cmdout.start.feed (answer h.log) = .ok (v.prog, []) ∧
    h.next.Shows (handedOver v) := by
  obtain ⟨v, hc, hfed⟩ := run_fed h.run
  obtain ⟨res, hop, hag⟩ := scOperate_refines hc.1 h.fits
  have hoperated := h.operated
  generalize (scOperate h.read h.conf.sc).res = x at hag hoperated
  generalize (scOperate h.read h.conf.sc).log = l at hop
  subst hoperated
  cases hag with
  | @ok _ b hab =>
    obtain ⟨v', b⟩ := b
    obtain ⟨hnext, hb⟩ := hab
    dsimp only at hnext hb
    subst hb
    have hready : v'.state = .ready := hnext.state.symm.trans h.ready
    have hwhich : v.prog.which = .cmdout := hc.1.curfsm.symm.trans h.cmdout
    cases hop with
    | write => cases hready
    | fed hst => cases hst.symm.trans hready
    | ack => cases hready
    | done hst hr hrb hacc hwq hout =>
      have hfeed := hfed hst hwhich (by rw [h.phase]; exact nofun)
      rw [hrb] at hfeed
      exact ⟨v, hwhich, hacc, hfeed, hnext⟩

/-- The machine that is current shows what it has recorded. -/
theorem Handover.eod (h : Handover) (hwhich : v.prog.which = .cmdout)
    (hnext : h.next.Shows (handedOver v)) :
    ∃ st, v.prog.eod = .cmdout st ⟨h.out, h.ps1⟩ := by
  have hcur : h.next.curfsm = .cmdout := by
    rw [hnext.curfsm]
    exact (Program.which_take _ _ _).trans hwhich
  have hprog := hnext.prog
  rw [hcur] at hprog
  obtain ⟨x, hx, hholds⟩ := hprog
  have hout : x.out = h.out := hholds.1.counts.unique h.texts.1.counts
  have hps1 : x.ps1 = h.ps1 := hholds.2.counts.unique h.texts.2.counts
  rw [← hout, ← hps1]
  exact ⟨_, hx⟩

/-- **What is recorded are the texts of the answer.** -/
theorem Handover.answered (h : Handover) : Texts (answer h.log) h.out h.ps1 := by
  obtain ⟨v, hwhich, hacc, hfeed, hnext⟩ := h.done
  obtain ⟨st, heod⟩ := h.eod hwhich hnext
  obtain ⟨u, st', x, hu, hprog, hpath⟩ := Cmdout.path_of_feed hfeed
  rw [List.append_nil] at hu
  rw [hprog] at hacc heod
  rw [hu]
  rcases hpath.accepts hacc with ⟨A, hA, rfl, rfl⟩ | ⟨A, B, hAB, rfl, rfl⟩
  · obtain ⟨-, htext⟩ := Program.cmdout.inj heod
    obtain ⟨hout, hps1⟩ := Cmdout.Text.mk.inj htext
    exact .inl ⟨hout.symm, hps1 ▸ hA⟩
  · obtain ⟨-, htext⟩ := Program.cmdout.inj heod
    obtain ⟨hout, hps1⟩ := Cmdout.Text.mk.inj htext
    exact .inr (hout ▸ hps1 ▸ hAB)

/-- What sc hands over ends at the first NUL. -/
theorem Handover.texts_eq (h : Handover) :
    ∃ v, h.next.Shows v ∧ v.out = untilNul h.out ∧ v.ps1 = untilNul h.ps1 := by
  obtain ⟨v, hwhich, -, -, hnext⟩ := h.done
  obtain ⟨st, heod⟩ := h.eod hwhich hnext
  refine ⟨_, hnext, ?_, ?_⟩
  · rw [handedOver, heod]
    rfl
  · rw [handedOver, heod]
    rfl

theorem notMem_of_untilNul_eq {xs : List UInt8} (h : untilNul xs = xs) : 0 ∉ xs := by
  rw [← h]
  exact notMem_untilNul xs

theorem NothingDropped.noNul {h : Handover} (hd : NothingDropped h.next h.out h.ps1) :
    0 ∉ h.out ∧ 0 ∉ h.ps1 := by
  obtain ⟨v, hshows, hout, hps1⟩ := h.texts_eq
  have ho := hshows.outbuf.counts.unique hd.out.counts
  have hp := hshows.ps1buf.counts.unique hd.ps1.counts
  rw [hout] at ho
  rw [hps1] at hp
  exact ⟨notMem_of_untilNul_eq ho, notMem_of_untilNul_eq hp⟩

theorem nothingDropped_of_noNul (h : Handover) (hO : 0 ∉ h.out) (hP : 0 ∉ h.ps1) :
    NothingDropped h.next h.out h.ps1 := by
  obtain ⟨v, hshows, hout, hps1⟩ := h.texts_eq
  rw [untilNul_of_notMem hO] at hout
  rw [untilNul_of_notMem hP] at hps1
  have hreply := putReply_spec hshows (by rwa [hout]) (by rwa [hps1])
  have houtbuf := hshows.outbuf
  have hps1buf := hshows.ps1buf
  rw [hout] at houtbuf
  rw [hps1] at hps1buf
  refine ⟨houtbuf.2.trans h.texts.1.2.symm, houtbuf, hps1buf.2.trans h.texts.2.2.symm, hps1buf,
    ?_, ?_⟩
  · rw [scHasreply, bne_iff_ne]
    exact houtbuf.counts.cnt_eq_zero.not
  · rw [hreply, replies, hout, hps1]

/-- **Nothing of an answer is dropped exactly when** there is no NUL in its texts. -/
theorem nothingDropped_iff (h : Handover) : Texts (answer h.log) h.out h.ps1 ∧
    (NothingDropped h.next h.out h.ps1 ↔ 0 ∉ h.out ∧ 0 ∉ h.ps1) :=
  ⟨h.answered, NothingDropped.noNul, fun ⟨hO, hP⟩ => nothingDropped_of_noNul h hO hP⟩

/-- Every output and prompt can be the answer to a command. -/
theorem exists_handover {d O P : List UInt8} (hd : IsOutput d O P) :
    ∃ h : Handover, answer h.log = d ∧ h.out = O ∧ h.ps1 = P := by
  obtain ⟨c₀, h₀⟩ := exists_afterNewline
  obtain ⟨v₀, hc₀, hst, hrb, hwq, hout, hprog⟩ := h₀.shows
  obtain ⟨l₀, c', hrun₀, hs₀, -⟩ := h₀
  have hall := Program.feed_all (Cmdout.feed_output hd)
  obtain ⟨c₁, n, hrun₁, hc₁⟩ := reads_bytes hc₀ hst
    (by rw [hprog]; exact Cmdout.which_start_ne)
    (by rw [hprog, hrb]; exact hall) rfl []
  have hfits := fits_eagain c₁.sc
  obtain ⟨s, hs, hshows⟩ := scOperate_of_operates hc₁.1 hfits
    (.done hst rfl rfl rfl hwq hout)
  have hcur : s.curfsm = .cmdout := hshows.curfsm
  have htexts := hshows.prog
  rw [hcur] at htexts
  obtain ⟨x, hx, hholds⟩ := htexts
  have heod : Program.cmdout .fin ⟨O, P⟩ = .cmdout s.fsmCmdout.curst x := hx
  rw [← (Program.cmdout.inj heod).2] at hholds
  have hrun : Run c₀ (bytewise d) c₁ := hrun₁.map Prod.fst fun _ _ _ hs => hs.step
  refine ⟨⟨_, c₁, (hrun₀.snoc hs₀).trans hrun, false, hc₁.2.1, hc₁.1.curfsm, .eagain, hfits, nofun,
    s, by rw [hs], hshows.state, O, P, hholds⟩, ?_, rfl, rfl⟩
  -- the machine was reset when the newline was written
  dsimp only
  rw [answer_bytewise, answer, List.foldl_append]
  rfl

/-- A NUL in the output: nothing of it is handed over. -/
theorem not_nothingDropped_nul :
    ∃ h : Handover, answer h.log = [ESC, 65, 0, 111, ESC, 65, 112, ESC, 65] ∧
      ¬ NothingDropped h.next h.out h.ps1 := by
  have he : Eseqs [ESC, 65] := .one rfl
  have hd : IsOutput [ESC, 65, 0, 111, ESC, 65, 112, ESC, 65] [0, 111] [112] :=
    ⟨_, _, _, he, ⟨by simp, by decide⟩, he, .one (by decide), he, rfl⟩
  obtain ⟨h, hanswer, hO, -⟩ := exists_handover hd
  refine ⟨h, hanswer, fun hdropped => ?_⟩
  have := hdropped.noNul.1
  rw [hO] at this
  exact this (by decide)

end Core

end Swh
