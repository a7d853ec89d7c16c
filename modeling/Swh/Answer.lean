/-
Reading an answer of the switch to its end.

`Program.Completes` says that a machine reads what is left of an answer and then
accepts the end of data, with the output and the prompt it will hand over.

* `Program.Completes.split` — an answer may be fed in two parts;
* `Reading.reads` — a turn of the busy loop goes on reading the answer, or ends it
  when all of it was read, unless a read finds the pipe empty at a `Cut`.
-/
import Swh.Wire
import Swh.CmdoutGrammar
import Swh.InitGrammar

namespace Swh

open Ansiseq (ESC)

namespace Program

/-! ### The flags of the init machine do not matter -/

@[simp] theorem settle_settle (g : Program) : g.settle.settle = g.settle := by
  cases g <;> rfl

@[simp] theorem settle_start (m : CurFsm) : (start m).settle = start m := by
  cases m <;> rfl

@[simp] theorem accepts_settle (g : Program) : g.settle.accepts = g.accepts := by
  cases g <;> rfl

theorem settle_take (g : Program) (t : HpTok) (c : Option UInt8) :
    (g.settle.take t c).settle = (g.take t c).settle := by
  rcases g with ⟨st, P, k, r⟩ | ⟨st, x⟩ | st
  · simp only [settle, take]
    cases (Init.delta st t).2 <;> rfl
  · rfl
  · rfl

theorem feed_settle {g g' : Program} {d r : List UInt8} (h : g.feed d = .ok (g', r)) :
    ∃ g'', g.settle.feed d = .ok (g'', r) ∧ g''.settle = g'.settle := by
  -- programs that differ in their flags only stay so, token by token
  have hsim := TokenStream.feed_sim (L := hpLexer) (M := machine) (N := machine)
    (R := fun g h => g.settle = h.settle)
    (fun {g h} heq => by
      show g.error = h.error
      rw [← error_settle g, heq, error_settle])
    (fun {g h} t heq _ => .ok (by
      show (g.take t.1 (some t.2)).settle = (h.take t.1 (some t.2)).settle
      rw [← settle_take g, heq, settle_take]))
    (show g.settle.settle = g.settle from settle_settle g) d
  rw [show (TokenStream.feed hpLexer machine g d).res = .ok (g', r) from h] at hsim
  obtain ⟨⟨g'', r'⟩, hfeed, hset, rfl⟩ := hsim.exists_ok_left
  exact ⟨g'', hfeed, hset⟩

/-! ### Complete answers -/

/-- Reading `d` to its end leads to a state that accepts the end of data, with
output `o` and prompt `p` for the handover. -/
def Completes (g : Program) (d o p : List UInt8) : Prop :=
  ∃ g', g.feed d = .ok (g', []) ∧ g'.accepts = true ∧ untilNul g'.eod.outText = o ∧
    untilNul g'.eod.ps1Text = p

variable {g : Program} {d e o p : List UInt8}

theorem eod_texts_of_settle {g h : Program} (heq : g.settle = h.settle) :
    g.eod.outText = h.eod.outText ∧ g.eod.ps1Text = h.eod.ps1Text := by
  have hsame : ∀ g : Program, g.settle.eod.outText = g.eod.outText ∧
      g.settle.eod.ps1Text = g.eod.ps1Text := by
    intro g
    rcases g with ⟨st, P, k, r⟩ | ⟨st, x⟩ | st
    · cases st <;> exact ⟨rfl, rfl⟩
    · exact ⟨rfl, rfl⟩
    · exact ⟨rfl, rfl⟩
  rw [← (hsame g).1, ← (hsame g).2, heq, (hsame h).1, (hsame h).2]
  exact ⟨rfl, rfl⟩

theorem Completes.settle (h : g.Completes d o p) : g.settle.Completes d o p := by
  obtain ⟨g', hfeed, hacc, hout, hps1⟩ := h
  obtain ⟨g'', hfeed', hset⟩ := feed_settle hfeed
  obtain ⟨ho, hp⟩ := eod_texts_of_settle hset
  refine ⟨g'', hfeed', ?_, by rw [ho, hout], by rw [hp, hps1]⟩
  rw [← accepts_settle, hset, accepts_settle, hacc]

/-- **An answer may be fed in two parts.** -/
theorem Completes.split (h : g.Completes (d ++ e) o p) :
    ∃ g' r, g.feed d = .ok (g', r) ∧ g'.error = false ∧ g'.Completes (r ++ e) o p := by
  obtain ⟨g₂, hfeed, hacc, htexts⟩ := h
  obtain ⟨g₁, r, hfirst, herr, hrest⟩ := feed_prefix hfeed (accepts_iff.mp hacc).1
  exact ⟨g₁, r, hfirst, herr, g₂, hrest, hacc, htexts⟩

/-- Nothing is left to be read. -/
theorem Completes.of_nil (h : g.Completes [] o p) :
    g.accepts = true ∧ untilNul g.eod.outText = o ∧ untilNul g.eod.ps1Text = p := by
  obtain ⟨g', hfeed, hacc, hout, hps1⟩ := h
  rw [feed_nil] at hfeed
  cases hfeed
  exact ⟨hacc, hout, hps1⟩

/-- An answer does not end within a token. -/
theorem Completes.eq_nil (h : g.Completes d o p) (hd : hpScan d = .more) : d = [] := by
  obtain ⟨g', hfeed, -⟩ := h
  rw [feed_more hd] at hfeed
  simp only [Except.ok.injEq, Prod.mk.injEq] at hfeed
  exact hfeed.2

end Program

/-! ### The answers of the switch -/

/-- The echo of a character: the input tokenizes as `E T E+`. -/
def IsEcho (d : List UInt8) : Prop :=
  ∃ e t u, Eseq e ∧ t ≠ ESC ∧ Eseqs u ∧ d = e ++ t :: u

theorem IsEcho.feed {d : List UInt8} (h : IsEcho d) :
    (Program.start .inchar).feed d = .ok (.inchar .cm2, []) := by
  obtain ⟨e, t, u, he, ht, hu, rfl⟩ := h
  have hT : (Program.inchar .cm1).feed ([t] ++ (u ++ [])) =
      (Program.inchar .inc).feed (u ++ []) := Program.feed_token rfl (hpScan_rest ht []) _
  have hE : (Program.inchar .inc).feed (u ++ []) = .ok (.inchar .cm2, []) := by
    rw [Program.feed_eseqs (.inchar .cm2) hu rfl rfl rfl rfl, Program.feed_nil]
  rw [Program.feed_token (t := (.eseq, ESC)) rfl he.scan]
  rw [List.append_nil, List.singleton_append] at hT
  exact hT.trans (by rwa [List.append_nil] at hE)

/-- The shortest echo. -/
theorem isEcho_char {x : UInt8} (hx : x ≠ ESC) : IsEcho [ESC, 65, x, ESC, 65] :=
  ⟨[ESC, 65], x, [ESC, 65], rfl, hx, .one rfl, rfl⟩

theorem IsEcho.completes {d : List UInt8} (h : IsEcho d) :
    (Program.start .inchar).Completes d [] [] :=
  ⟨_, h.feed, rfl, rfl, rfl⟩

theorem IsChat.completes {d P : List UInt8} (h : IsChat d P) (hP : 0 ∉ P) :
    (Program.start .init).Completes d [] P :=
  ⟨_, Program.feed_all (Init.feed_chat h), rfl, rfl, untilNul_of_notMem hP⟩

/-- The shortest answer with nothing but a prompt. -/
theorem isPrompt_x : IsPrompt [ESC, 65, 36, ESC, 65] [36] :=
  ⟨[ESC, 65], [ESC, 65], .one rfl, .one (by decide), .one rfl, rfl⟩

theorem IsPrompt.completes {d P : List UInt8} (h : IsPrompt d P) (hP : 0 ∉ P) :
    (Program.start .cmdout).Completes d [] P :=
  ⟨_, Program.feed_all (Cmdout.feed_prompt h), rfl, rfl, untilNul_of_notMem hP⟩

theorem IsOutput.completes {d O P : List UInt8} (h : IsOutput d O P) (hO : 0 ∉ O)
    (hP : 0 ∉ P) : (Program.start .cmdout).Completes d O P :=
  ⟨_, Program.feed_all (Cmdout.feed_output h), rfl, untilNul_of_notMem hO, untilNul_of_notMem hP⟩

/-! ### Turns of the busy loop -/

theorem puts_fed (o : Option (List UInt8)) (g : Program) :
    puts (readEv o :: g.reaction) = [] ∧ queuedBytes (readEv o :: g.reaction) = [] := by
  rcases g with ⟨st, P, k, r⟩ | ⟨st, x⟩ | st
  · cases o <;> cases k <;> cases r <;> exact ⟨rfl, rfl⟩
  · cases o <;> exact ⟨rfl, rfl⟩
  · cases o <;> exact ⟨rfl, rfl⟩

namespace Core

/-- A part of the answer is still on its way, but the machine of sc would take what
it has read for all of it. -/
def Cut (s : Sc) (w : List UInt8) : Prop :=
  s.readbuf.cnt = 0 ∧ w ≠ [] ∧ (curFeedNull s 0).res = .ok (s, 1)

/-- The answer, of which `w` is on the wire, is being read; it will hand over the
output `o` and the prompt `p`. -/
structure Reading (v : View) (ph : Phase) (w o p : List UInt8) : Prop where
  state : v.state = .busy
  settled : v.prog.settle = v.prog
  phase : ph = .select ∨ ∃ k, ph = .loop k
  awake : ph = .select ∨ ph = .loop true → w ≠ []
  completes : v.prog.Completes (v.rb ++ w) o p

/-- The answer was read; what comes next depends on whether bytes are queued. -/
structure ReadUp (v v' : View) (o p : List UInt8) : Prop where
  state : v'.state = if v.wq = [] then .ready else .writing
  texts : v.wq = [] → v'.out = o ∧ v'.ps1 = p

variable {c c' : Conf} {v : View} {ph ph' : Phase} {l : List Ev} {w w' o p : List UInt8}
  {x : Option (List UInt8)}

/-- The answer to the byte that was just written, from its start. -/
theorem reading_start (hst : v.state = .busy) (hrb : v.rb = [])
    {m : CurFsm} (hprog : v.prog = .start m) (h : (Program.start m).Completes w o p) :
    Reading v (.loop false) w o p where
  state := hst
  settled := by rw [hprog, Program.settle_start]
  phase := .inr ⟨false, rfl⟩
  awake hph := by rcases hph with hph | hph <;> cases hph
  completes := by rwa [hprog, hrb, List.nil_append]

/-- What there is of the answer can be fed. -/
theorem Reading.feeds (h : Reading v ph w o p) (x : Option (List UInt8)) (w' : List UInt8)
    (hw : w = x.getD [] ++ w') : ∃ g rest, v.prog.feed (v.data x) = .ok (g, rest) ∧
      g.error = false ∧ g.Completes (rest ++ w') o p := by
  have hcompl := h.completes
  rw [hw, ← List.append_assoc] at hcompl
  exact hcompl.split

/-- A turn with data eats some of the answer. -/
theorem Reading.data (h : Reading v ph (x.getD [] ++ w') o p) (hd : v.data x ≠ [])
    {g : Program} {rest : List UInt8} (hfeed : v.prog.feed (v.data x) = .ok (g, rest))
    (hph : ph' = .loop false ∨ ph' = .select ∧ rest = v.data x) :
    Reading { v with nodataflag := false, rb := rest, prog := g.settle } ph' w' o p := by
  obtain ⟨g', rest', hfeed', herr, hrest⟩ := h.feeds x w' rfl
  rw [hfeed] at hfeed'
  cases hfeed'
  refine ⟨h.state, g.settle_settle, ?_, fun hph' hnil => ?_, hrest.settle⟩
  · rcases hph with rfl | ⟨rfl, -⟩
    · exact .inr ⟨false, rfl⟩
    · exact .inl rfl
  · -- what is left over is no whole token, so it is not all that is left
    rw [hnil, List.append_nil] at hrest
    have hrest' := hrest.eq_nil (Program.scan_rest hfeed herr)
    rcases hph with rfl | ⟨-, hsame⟩
    · rcases hph' with hph' | hph' <;> cases hph'
    · exact hd (by rw [← hsame, hrest'])

/-- Where the machine accepts and nothing is left over the answer was read up, unless it
is cut. -/
theorem Reading.complete (h : Reading v ph w o p) (hc : c.Shows (v, ph)) (hrb : v.rb = [])
    (hacc : v.prog.accepts = true) (hlucky : ¬ Cut c.sc w) :
    w = [] ∧ untilNul v.prog.eod.outText = o ∧ untilNul v.prog.eod.ps1Text = p := by
  have hw : w = [] := by
    -- with some of the answer on the wire this would be a `Cut`
    by_contra hne
    have hprobe := curFeedNull_probe hc.1
    rw [if_pos hacc] at hprobe
    exact hlucky ⟨hc.1.readbuf.cnt_eq_zero.mpr hrb, hne, by rw [hprobe]; rfl⟩
  have hcompl := h.completes
  rw [hrb, hw] at hcompl
  exact ⟨hw, hcompl.of_nil.2⟩

/-- **One turn.**  It goes on reading the answer or has read it up. -/
theorem Reading.reads (h : Reading v ph w o p) (hc : c.Shows (v, ph))
    (hs : Reads (c, w) l (c', w')) (hlucky : .eagain ∈ l → ¬ Cut c.sc w) :
    puts l = [] ∧ queuedBytes l = [] ∧ ∃ v' ph', c'.Shows (v', ph') ∧ v'.wq = v.wq ∧
      (Reading v' ph' w' o p ∨ ph' = .loop false ∧ w' = [] ∧ ReadUp v v' o p) := by
  obtain ⟨v', ph', hc', hturn⟩ := hs.turn hc h.settled fun x w' hw => by
    obtain ⟨g, rest, hfeed, herr, -⟩ := h.feeds x w' hw
    exact ⟨g, rest, hfeed, herr⟩
  cases hturn with
  | wake hw => exact ⟨rfl, rfl, v, _, hc', rfl, .inl ⟨h.state, h.settled, .inr ⟨true, rfl⟩,
      fun _ => hw, h.completes⟩⟩
  | @data k x g rest ph' w' hd hfeed hph =>
    obtain ⟨hputs, hqueued⟩ := puts_fed x g
    exact ⟨hputs, hqueued, _, _, hc', rfl, .inl (h.data hd hfeed hph)⟩
  -- with nothing on the wire the machine would accept the end of data
  | wait hrb hacc =>
    refine ⟨rfl, rfl, _, _, hc', rfl, .inl ⟨h.state, h.settled, .inl rfl, fun _ hw => ?_,
      h.completes⟩⟩
    have hcompl := h.completes
    rw [hrb, hw] at hcompl
    rw [hcompl.of_nil.1] at hacc
    cases hacc
  | ack hrb hacc hwq =>
    obtain ⟨hw, -⟩ := h.complete hc hrb hacc (hlucky (by simp))
    exact ⟨rfl, rfl, _, _, hc', rfl, .inr ⟨rfl, hw, by rw [if_neg hwq],
      fun hnil => absurd hnil hwq⟩⟩
  | done hrb hacc hwq =>
    obtain ⟨hw, htexts⟩ := h.complete hc hrb hacc (hlucky (by simp))
    exact ⟨rfl, rfl, _, _, hc', rfl, .inr ⟨rfl, hw, by rw [if_pos hwq], fun _ => htexts⟩⟩

/-- As long as the answer is being read, there is a turn that does not cut it. -/
theorem Reading.can_read (h : Reading v ph w o p) (hc : c.Shows (v, ph)) :
    ∃ l q, Reads (c, w) l q ∧ (.eagain ∈ l → ¬ Cut c.sc w) := by
  obtain ⟨l, q, hs, hdry⟩ := hc.can_read h.state h.phase h.awake
  exact ⟨l, q, hs, fun hmem hcut => hcut.2.1 (hdry hmem)⟩

/-- The next byte is written, and its answer comes byte by byte. -/
theorem Conf.Shows.exchange {b : UInt8} {wq d : List UInt8} (hc : c.Shows (v, .loop false))
    (hst : v.state = .writing) (hwq : v.wq = b :: wq)
    (h : (Program.start (select b)).Completes d o p) :
    ∃ c' v', Run c ([.wrote b, .reset (select b)] ++ bytewise d ++
        .eagain :: .eod (select b) 0 true :: if wq = [] then [.ready] else []) c' ∧
      c'.Shows (v', .loop false) ∧ v'.wq = wq ∧
      v'.state = (if wq = [] then .ready else .writing) ∧ (wq = [] → v'.out = o ∧ v'.ps1 = p) := by
  have hbusy : v.state ≠ .busy := by rw [hst]; nofun
  have hready : v.state ≠ .ready := by rw [hst]; nofun
  obtain ⟨g, hfeed, hacc, htexts⟩ := h
  have hwhich : g.which = select b := (Program.which_feed hfeed).trans (Program.which_start _)
  obtain ⟨c₁, hs₁, hc₁⟩ := hc.operate_eagain hready (.write hst hwq)
  obtain ⟨c₂, n, hrun₂, hc₂⟩ := reads_bytes hc₁ rfl (which_select_ne b)
    (by rw [hc.sane.rb hbusy]; exact hfeed) (Program.accepts_iff.mp hacc).1 []
  have hrun : Run c ([.wrote b, .reset (select b)] ++ bytewise d) c₂ :=
    (Runs.single hs₁).trans (hrun₂.map Prod.fst fun _ _ _ hs => hs.step)
  by_cases hnil : wq = []
  · obtain ⟨c₃, hs₃, hc₃⟩ := hc₂.operate_eagain nofun
      (.done rfl rfl rfl hacc hnil (hc.sane.out hready))
    refine ⟨c₃, _, ?_, hc₃, rfl, ?_, fun _ => htexts⟩
    · have hlast := hrun.snoc hs₃
      dsimp only at hlast
      rw [hwhich] at hlast
      rwa [if_pos hnil]
    · rw [if_pos hnil]
  · obtain ⟨c₃, hs₃, hc₃⟩ := hc₂.operate_eagain nofun
      (.ack rfl rfl rfl hacc hnil)
    refine ⟨c₃, _, ?_, hc₃, rfl, ?_, fun h => absurd h hnil⟩
    · have hlast := hrun.snoc hs₃
      dsimp only at hlast
      rw [hwhich] at hlast
      rwa [if_neg hnil]
    · rw [if_neg hnil]

end Core

end Swh
