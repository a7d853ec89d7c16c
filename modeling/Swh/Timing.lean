/-
The result of a command, and when its answer arrives.

sc takes an answer for complete when a read finds the pipe empty while its machine
accepts the end of data, which the machine does behind the output already.

* `timing` — the answer `E+ O E+ P E+` is read to an end under every schedule of
  reads; its result is the output `O` and the prompt `P` unless some read finds the
  pipe empty right behind the output, and then it is no output and the prompt `O`.
-/
import Swh.Wire
import Swh.CmdoutGrammar
import Swh.InitPhase

namespace Swh

open Ansiseq (ESC)

theorem Cmdout.which_start_ne : Cmdout.start.which ≠ .init := nofun

/-- A read finds the pipe empty when the output, and no more than escape
sequences, has been delivered. -/
def Early (O : List UInt8) (l : List Ev) : Prop :=
  ∃ before after, l = before ++ .eagain :: after ∧ IsPrompt (received before) O

variable {l l' : List Ev} {d p w O P : List UInt8}

theorem not_early_iff : ¬ Early O l ↔
    EachEvent (fun before e => e = .eagain → ¬ IsPrompt (received before) O) l := by
  constructor
  · rintro h before e after heq rfl hprompt
    exact h ⟨before, after, heq, hprompt⟩
  · rintro h ⟨before, after, heq, hprompt⟩
    exact h before _ after heq rfl hprompt

theorem not_early_concat {e : Ev} (h : ¬ Early O l)
    (he : e = .eagain → ¬ IsPrompt (received l) O) : ¬ Early O (l ++ [e]) :=
  not_early_iff.mpr ((not_early_iff.mp h).concat he)

namespace Core

/-- The newline that ends a line was just written. -/
def AfterNewline (c : Conf) : Prop :=
  ∃ l c', Run start l c' ∧ Step c' [.wrote NEWLINE, .reset .cmdout] c ∧ c.sc.writebuf.cnt = 0

/-- The result of a command whose answer has the output `O` and the prompt `P`. -/
structure Result (O P : List UInt8) (l : List Ev) (s : Sc) : Prop where
  inTime : ¬ Early O l → s.outbuf.Records O ∧ s.ps1buf.Records P
  early : Early O l → s.outbuf.Records [] ∧ s.ps1buf.Records O

variable {c c' c₀ : Conf} {v v' : View} {ph ph' : Phase} {w' : List UInt8}
  {o : Option (List UInt8)}

theorem AfterNewline.shows (h : AfterNewline c) : ∃ v, c.Shows (v, .loop false) ∧
    v.state = .busy ∧ v.rb = [] ∧ v.wq = [] ∧ v.out = [] ∧ v.prog = Cmdout.start := by
  obtain ⟨l, c', hrun, hs, hcnt⟩ := h
  obtain ⟨⟨v', ph'⟩, -, hc'⟩ := run_refines start_shows hrun
  obtain ⟨v, ph, hm, hc⟩ := hc'.step hs
  obtain ⟨wq, hst, hwq, rfl, rfl⟩ := hm.of_wrote (List.mem_cons_self)
  have hne : v'.state ≠ .ready ∧ v'.state ≠ .busy := by rw [hst]; exact ⟨nofun, nofun⟩
  have hsane := hc'.sane
  exact ⟨_, hc, rfl, hsane.rb hne.2, hc.1.writebuf.cnt_eq_zero.mp hcnt, hsane.out hne.1, rfl⟩

/-- The answer `d` is being read. -/
structure Answering (O d : List UInt8) (l : List Ev) (v : View) (ph : Phase)
    (w : List UInt8) : Prop where
  state : v.state = .busy
  wq : v.wq = []
  delivered : received l ++ w = d
  fed : Cmdout.start.feed (received l) = .ok (v.prog, v.rb)
  late : ¬ Early O l
  phase : ph = .select ∨ ∃ k, ph = .loop k
  awake : ph = .select ∨ ph = .loop true → w ≠ []

/-- The answer was taken for complete. -/
structure Answered (O P : List UInt8) (l : List Ev) (v : View) : Prop where
  state : v.state = .ready
  inTime : ¬ Early O l → v.out = O ∧ v.ps1 = P
  early : Early O l → v.out = [] ∧ v.ps1 = O

/-- The output is not complete as long as the machine needs data. -/
theorem Answering.not_prompt (h : Answering O d l v ph w)
    (hmore : v.rb ≠ [] ∨ v.prog.accepts = false) : ¬ IsPrompt (received l) O := by
  intro hprompt
  have hfeed := Program.feed_all (Cmdout.feed_prompt hprompt)
  rw [h.fed] at hfeed
  simp only [Except.ok.injEq, Prod.mk.injEq] at hfeed
  rcases hmore with hmore | hmore
  · exact hmore hfeed.2
  · rw [hfeed.1] at hmore
    cases hmore

/-- Once all is delivered, the machine accepts the end of data. -/
theorem Answering.complete (h : Answering O d l v ph []) (hd : IsOutput d O P) :
    v.prog.accepts = true ∧ v.rb = [] := by
  have hfeed := Program.feed_all (Cmdout.feed_output hd)
  rw [← h.delivered, List.append_nil, h.fed] at hfeed
  simp only [Except.ok.injEq, Prod.mk.injEq] at hfeed
  rw [hfeed.1]
  exact ⟨rfl, hfeed.2⟩

/-- The machine accepts and nothing is left over: the answer is taken for complete. -/
theorem Answering.done (h : Answering O d l v ph w) (hd : IsOutput d O P) (hO : 0 ∉ O)
    (hP : 0 ∉ P) (hrb : v.rb = []) (hacc : v.prog.accepts = true) (v' : View)
    (hv' : v' = { v with
      prog := v.prog.eod, state := .ready, out := untilNul v.prog.eod.outText
      ps1 := untilNul v.prog.eod.ps1Text }) :
    Answered O P (l ++ [.eagain, .eod v.prog.which 0 true, .ready]) v' := by
  have hfed := h.fed
  have hdel := h.delivered
  rw [hrb] at hfed
  rw [← hdel] at hd
  subst hv'
  -- the pipe was empty behind the output, or behind the whole answer
  rcases Cmdout.accepts_prefix hd hfed hacc with ⟨hprompt, hg⟩ | ⟨houtput, hg⟩
  · have hearly : Early O (l ++ [.eagain, .eod v.prog.which 0 true, .ready]) :=
      ⟨l, _, rfl, hprompt⟩
    refine ⟨rfl, fun hlate => absurd hearly hlate, fun _ => ⟨?_, ?_⟩⟩
    · rw [hg]; rfl
    · rw [hg]; exact untilNul_of_notMem hO
  · have hlate : ¬ Early O (l ++ [.eagain, .eod v.prog.which 0 true, .ready]) := by
      have hfirst := not_early_concat (e := .eagain) h.late
        fun _ => Cmdout.not_isPrompt_of_isOutput houtput
      rw [List.append_cons, List.append_cons (_ ++ _)]
      exact not_early_concat (not_early_concat hfirst nofun) nofun
    refine ⟨rfl, fun _ => ⟨?_, ?_⟩, fun hearly => absurd hearly hlate⟩
    · rw [hg]; exact untilNul_of_notMem hO
    · rw [hg]; exact untilNul_of_notMem hP

/-- A turn with data eats some of the answer. -/
theorem Answering.data (h : Answering O d l v ph (o.getD [] ++ w')) (hd : IsOutput d O P)
    (hdata : v.data o ≠ []) {g : Program} {rest : List UInt8}
    (hfeed : v.prog.feed (v.data o) = .ok (g, rest))
    (hph : ph' = .loop false ∨ ph' = .select ∧ rest = v.data o) :
    Answering O d (l ++ [readEv o])
      { v with nodataflag := false, rb := rest, prog := g } ph' w' := by
  have hrecv : received (l ++ [readEv o]) = received l ++ o.getD [] := by
    rw [received_append, received_readEv]
  have hfed : Cmdout.start.feed (received l ++ o.getD []) = .ok (g, rest) := by
    rw [Program.feed_append h.fed]
    exact hfeed
  refine ⟨h.state, h.wq, ?_, by rw [hrecv]; exact hfed, ?_, ?_, fun hph' hw => ?_⟩
  · rw [hrecv, List.append_assoc, h.delivered]
  · refine not_early_concat h.late fun ho => h.not_prompt (.inl fun hrb => ?_)
    -- there was something to feed, and it did not come from the pipe
    rcases o with _ | bs
    · exact hdata (by rw [View.data, hrb]; rfl)
    · cases ho
  · rcases hph with rfl | ⟨rfl, -⟩
    · exact .inr ⟨false, rfl⟩
    · exact .inl rfl
  · have hall := Program.feed_all (Cmdout.feed_output hd)
    rw [← h.delivered, hw, List.append_nil, hfed] at hall
    simp only [Except.ok.injEq, Prod.mk.injEq] at hall
    rcases hph with rfl | ⟨-, hsame⟩
    · rcases hph' with hph' | hph' <;> cases hph'
    · exact hdata (hsame.symm.trans hall.2)

theorem Answering.reads (h : Answering O d l v ph w) (hd : IsOutput d O P) (hO : 0 ∉ O)
    (hP : 0 ∉ P) (hc : c.Shows (v, ph)) (hs : Reads (c, w) l' (c', w')) :
    ∃ v' ph', c'.Shows (v', ph') ∧
      (Answering O d (l ++ l') v' ph' w' ∨ Answered O P (l ++ l') v') := by
  have hne : v.prog.which ≠ .init := by
    rw [Program.which_feed h.fed]
    exact Cmdout.which_start_ne
  -- no part of the answer leads to the error state
  have hfeeds : ∀ o w', w = o.getD [] ++ w' →
      ∃ g rest, v.prog.feed (v.data o) = .ok (g, rest) ∧ g.error = false := fun o w' hw => by
    have hall := Program.feed_all (Cmdout.feed_output hd)
    rw [← h.delivered, hw, ← List.append_assoc] at hall
    obtain ⟨g, rest, hfeed, herr, -⟩ := Program.feed_prefix hall rfl
    rw [Program.feed_append h.fed] at hfeed
    exact ⟨g, rest, hfeed, herr⟩
  obtain ⟨v', ph', hc', hturn⟩ := hs.turn hc (Program.settle_of_ne_init hne) hfeeds
  refine ⟨v', ph', hc', ?_⟩
  cases hturn with
  | wake hw =>
    rw [List.append_nil]
    exact .inl ⟨h.state, h.wq, h.delivered, h.fed, h.late, .inr ⟨true, rfl⟩, fun _ => hw⟩
  | data hdata hfeed hph =>
    have hgne := Program.which_feed hfeed ▸ hne
    rw [reaction_of_ne_init hgne, Program.settle_of_ne_init hgne]
    exact .inl (h.data hd hdata hfeed hph)
  | wait hrb hacc =>
    have hrecv : received (l ++ [.eagain]) = received l := by simp [received]
    refine .inl ⟨h.state, h.wq, by rw [hrecv]; exact h.delivered, by rw [hrecv]; exact h.fed,
      not_early_concat h.late fun _ => h.not_prompt (.inr hacc), .inl rfl, fun _ hw => ?_⟩
    subst hw
    rw [(h.complete hd).1] at hacc
    cases hacc
  | ack hrb hacc hwq => exact absurd h.wq hwq
  | done hrb hacc hwq => exact .inr (h.done hd hO hP hrb hacc _ rfl)

theorem Answered.not_reads (h : Answered O P l v) (hc : c.Shows (v, ph)) :
    ¬ Reads (c, w) l' (c', w') := by
  intro hs
  have hbusy := hs.busy hc
  rw [h.state] at hbusy
  cases hbusy

theorem Answered.result {s : Sc} (h : Answered O P l v) (hs : s.Shows v) : Result O P l s where
  inTime hlate := by
    obtain ⟨hout, hps1⟩ := h.inTime hlate
    exact ⟨hout ▸ hs.outbuf, hps1 ▸ hs.ps1buf⟩
  early hearly := by
    obtain ⟨hout, hps1⟩ := h.early hearly
    exact ⟨hout ▸ hs.outbuf, hps1 ▸ hs.ps1buf⟩

/-- As long as the answer is being read, something can happen. -/
theorem Answering.can_read (h : Answering O d l v ph w) (hc : c.Shows (v, ph)) :
    ∃ l' q, Reads (c, w) l' q := by
  obtain ⟨l', q, hs, -⟩ := hc.can_read h.state h.phase h.awake
  exact ⟨l', q, hs⟩

theorem run_answers (h₀ : AfterNewline c₀) (hd : IsOutput d O P) (hO : 0 ∉ O) (hP : 0 ∉ P)
    (h : Runs Reads (c₀, d) l (c, w)) : ∃ v ph, c.Shows (v, ph) ∧
      (Answering O d l v ph w ∨ Answered O P l v) := by
  obtain ⟨v₀, hc₀, hst, hrb, hwq, hout, hprog⟩ := h₀.shows
  have hstart : Answering O d [] v₀ (.loop false) d :=
    ⟨hst, hwq, rfl, by rw [hprog, hrb]; exact Program.feed_nil _,
      fun ⟨before, after, heq, _⟩ => by simp at heq, .inr ⟨false, rfl⟩,
      fun hph => by rcases hph with hph | hph <;> cases hph⟩
  refine Runs.invariant (J := fun l q => ∃ v ph, q.1.Shows (v, ph) ∧
    (Answering O d l v ph q.2 ∨ Answered O P l v)) (i := []) ?_
    ⟨v₀, _, hc₀, .inl hstart⟩ h
  rintro l ⟨c, w⟩ l' ⟨c', w'⟩ ⟨v, ph, hc, ha | ha⟩ hs
  · exact ha.reads hd hO hP hc hs
  · exact absurd hs (ha.not_reads hc)

/-- Reading comes to an end. -/
theorem acc_reads {v₀ : View} {ph₀ : Phase} (hc : c.Shows (v₀, ph₀)) (w : List UInt8) :
    Acc (fun q' q => ∃ l, Reads q l q') (c, w) := by
  refine Runs.acc wellFounded_lt (fun q => ∃ v ph, q.1.Shows (v, ph))
    (fun q => 3 * q.2.length + rank q.1.phase q.1.sc.state) ?_ ⟨v₀, ph₀, hc⟩
  rintro ⟨c, w⟩ l ⟨c', w'⟩ ⟨v, ph, hc⟩ hs
  obtain ⟨v', ph', -, hc'⟩ := hc.step hs.step
  exact ⟨⟨v', ph', hc'⟩, hs.lt hc⟩

/-- A read can find the pipe empty wherever the machine accepts the end of data. -/
theorem run_complete (h₀ : AfterNewline c₀) {g : Program}
    (hfeed : Cmdout.start.feed p = .ok (g, [])) (hacc : g.accepts = true) (w : List UInt8) :
    ∃ l c, Runs Reads (c₀, p ++ w) l (c, w) ∧ c.sc.state = .ready ∧
      c.sc.outbuf.Records (untilNul g.eod.outText) ∧
      c.sc.ps1buf.Records (untilNul g.eod.ps1Text) := by
  obtain ⟨v₀, hc₀, hst, hrb, hwq, hout, hprog⟩ := h₀.shows
  have herr := (Program.accepts_iff.mp hacc).1
  obtain ⟨c₁, n, hrun, hc₁⟩ := reads_bytes hc₀ hst (by rw [hprog]; exact Cmdout.which_start_ne)
    (by rw [hprog, hrb]; exact hfeed) herr w
  obtain ⟨c₂, hs, hc₂⟩ := hc₁.dry hst (.done hst rfl rfl hacc hwq hout) w
  exact ⟨_, c₂, hrun.snoc hs, hc₂.1.state, hc₂.1.outbuf, hc₂.1.ps1buf⟩

/-- An empty line can be sent. -/
theorem exists_afterNewline : ∃ c, AfterNewline c := by
  obtain ⟨c₁, hrun, hc₁⟩ := run_chat isChat_x (by decide)
  obtain ⟨c₂, hs₂, hc₂⟩ := hc₁.hand rfl
  obtain ⟨c₃, hs₃, hc₃⟩ := hc₂.write (List.cons_ne_nil NEWLINE [])
  obtain ⟨c₄, hs₄, hc₄⟩ := hc₃.operate_eagain nofun (.write rfl rfl)
  exact ⟨c₄, _, c₃, (hrun.snoc hs₂).snoc hs₃, hs₄, hc₄.1.writebuf.cnt_eq_zero.mpr rfl⟩

/-- **The result of a command, under every schedule of reads.**  The schedules are
finite; while sc is busy it can go on; and when it is ready the result is the output
and the prompt of the answer, unless a read found the pipe empty right behind the
output: then sc became ready there, without output and with `O` for a prompt. -/
theorem timing (h₀ : AfterNewline c₀) (hd : IsOutput d O P) (hO : 0 ∉ O) (hP : 0 ∉ P) :
    Acc (fun q' q => ∃ l, Reads q l q') (c₀, d) ∧
    ∀ l c w, Runs Reads (c₀, d) l (c, w) →
      (c.sc.state = .busy ∧ ¬ Early O l ∧ ∃ l' q, Reads (c, w) l' q) ∨
        (c.sc.state = .ready ∧ Result O P l c.sc) := by
  obtain ⟨v₀, hc₀, -⟩ := h₀.shows
  refine ⟨acc_reads hc₀ d, fun l c w h => ?_⟩
  obtain ⟨v, ph, hc, ha | ha⟩ := run_answers h₀ hd hO hP h
  · exact .inl ⟨hc.1.state.trans ha.state, ha.late, ha.can_read hc⟩
  · exact .inr ⟨hc.1.state.trans ha.state, ha.result hc.1⟩

/-- The answer with output "o" and prompt "p". -/
def answerOP : List UInt8 := [ESC, 65, 111, ESC, 65, 112, ESC, 65]

theorem isOutput_answerOP : IsOutput answerOP [111] [112] := by
  have he : Eseqs [ESC, 65] := .one rfl
  exact ⟨_, _, _, he, .one (by decide), he, .one (by decide), he, rfl⟩

/-- The schedules of this answer end. -/
theorem timing_answerOP : ∃ c₀, AfterNewline c₀ ∧
    Acc (fun q' q => ∃ l, Reads q l q') (c₀, answerOP) := by
  obtain ⟨c₀, h₀⟩ := exists_afterNewline
  exact ⟨c₀, h₀, (timing h₀ isOutput_answerOP (by decide) (by decide)).1⟩

/-- Two schedules of this answer have different results. -/
theorem timing_depends : ∃ c₀, AfterNewline c₀ ∧ IsOutput answerOP [111] [112] ∧
    (∃ l c w, Runs Reads (c₀, answerOP) l (c, w) ∧ c.sc.state = .ready ∧
      c.sc.outbuf.Records [111] ∧ c.sc.ps1buf.Records [112]) ∧
    ∃ l c w, Runs Reads (c₀, answerOP) l (c, w) ∧ c.sc.state = .ready ∧
      c.sc.outbuf.Records [] ∧ c.sc.ps1buf.Records [111] := by
  obtain ⟨c₀, h₀⟩ := exists_afterNewline
  have he : Eseqs [ESC, 65] := .one rfl
  have hprompt : IsPrompt [ESC, 65, 111, ESC, 65] [111] :=
    ⟨_, _, he, .one (by decide), he, rfl⟩
  have hall := Program.feed_all (Cmdout.feed_output isOutput_answerOP)
  have hpart := Program.feed_all (Cmdout.feed_prompt hprompt)
  obtain ⟨l, c, hrun, hready, hout, hps1⟩ := run_complete h₀ hall rfl []
  obtain ⟨l', c', hrun', hready', hout', hps1'⟩ := run_complete h₀ hpart rfl [112, ESC, 65]
  exact ⟨c₀, h₀, isOutput_answerOP, ⟨l, c, [], hrun, hready, hout, hps1⟩,
    ⟨l', c', _, hrun', hready', hout', hps1'⟩⟩

end Core

end Swh
