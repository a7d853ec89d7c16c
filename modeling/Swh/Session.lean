/-
A whole session.

The switch greets with an opening chat, echoes every character and answers every
line; the user types lines.  `Session.Step` is the main loop between the two, with
the line buffer of the front end and the buffer of `core_run`.  How the streams
are cut into reads and when a pipe is empty is up to the environment, but for a
`Cut` of an answer.

* `session` — no session stops, none is endless, and one that cannot go on has
  handed all prompts and outputs to the user, has written all lines to the switch
  and waits for the user.
-/
import Swh.Answer
import Swh.Timing
import Swh.Transmission
import Swh.UcIa
import Mathlib.Data.Prod.Lex

namespace Swh

/-- A line of the user and the answer of the switch to its newline, which has
output or just a prompt. -/
structure Command where
  line : List UInt8
  reply : List UInt8
  /-- Empty if there is none. -/
  out : List UInt8
  ps1 : List UInt8
  noNewline : NEWLINE ∉ line
  noNul : 0 ∉ line
  fits : line.length + 1 < UcIa.BUFSZ
  form : (out = [] ∧ IsPrompt reply ps1) ∨ IsOutput reply out ps1
  outNul : 0 ∉ out
  ps1Nul : 0 ∉ ps1

/-- What the user types. -/
def Command.typed (m : Command) : List UInt8 := m.line ++ [NEWLINE]

/-- What is handed over when the output is `o` and the prompt `p`. -/
def handed (o p : List UInt8) : List (List UInt8) := (if o = [] then [] else [o]) ++ [p]

/-- What the user gets to see. -/
def Command.shown (m : Command) : List (List UInt8) := handed m.out m.ps1

theorem Command.completes (m : Command) :
    (Program.start .cmdout).Completes m.reply m.out m.ps1 := by
  rcases m.form with ⟨hout, h⟩ | h
  · rw [hout]
    exact h.completes m.ps1Nul
  · exact h.completes m.outNul m.ps1Nul

/-- What the switch sends when events are logged, if the commands `due` are still to
be answered. -/
inductive Answers : List Ev → List Command → List UInt8 → List Command → Prop
  | silent {l due} (h : ∀ c, .wrote c ∉ l) : Answers l due [] due
  | echo {l due c a} (h : .wrote c ∈ l) (hc : c ≠ NEWLINE) (ha : IsEcho a) : Answers l due a due
  | reply {l m due} (h : .wrote NEWLINE ∈ l) : Answers l (m :: due) m.reply due

/-- The program and both sides. -/
structure Session where
  conf : Core.Conf
  /-- `buf` in `core_run`. -/
  buf : Block UInt8
  /-- The read buffer of the front end. -/
  uc : Buf
  /-- Sent by the switch, but not read yet. -/
  wire : List UInt8
  /-- Typed by the user, but not read yet. -/
  keys : List UInt8
  /-- The commands the switch has not answered yet. -/
  due : List Command

namespace Session

open Ansiseq (ESC)
open Swh.Core (Conf Phase Reads Cut Reading ReadUp reading_start)

/-- The session before anything was read. -/
def start (chat : List UInt8) (cmds : List Command) : Session where
  conf := Core.start
  buf := .alloc UcIa.BUFSZ (by decide)
  uc := UcIa.init
  wire := chat
  keys := cmds.flatMap Command.typed
  due := cmds

/-- The steps of a session. -/
inductive Step : Session → List Ev → Session → Prop
  /-- A turn of the loop while sc is busy. -/
  | reads {s : Session} {l c w} (h : Reads (s.conf, s.wire) l (c, w))
      (hlucky : .eagain ∈ l → ¬ Cut s.conf.sc s.wire) : Step s l { s with conf := c, wire := w }
  /-- A turn of the loop while it is not, and the answer of the switch. -/
  | turn {s : Session} {k l c a due} (hst : s.conf.sc.state ≠ .busy)
      (hph : s.conf.phase = .loop k) (h : Core.Step s.conf l c) (ha : Answers l s.due a due) :
      Step s l { s with conf := c, wire := s.wire ++ a, due := due }
  /-- There is no line, and the front end reads. -/
  | hasdata {s : Session} {b keys} (bs : List UInt8) (hph : s.conf.phase = .user)
      (hno : UcIa.newline s.uc = .ok none) (hkeys : s.keys = bs ++ keys) (hbs : bs ≠ [])
      (hfits : s.uc.cnt + bs.length ≤ UcIa.READBUFSZ)
      (h : UcIa.readMore (.bytes bs) s.uc = .ok b) : Step s [] { s with uc := b, keys := keys }
  /-- There is one, and it is queued. -/
  | getdata {s : Session} {p buf b str} (hph : s.conf.phase = .user)
      (hline : UcIa.newline s.uc = .ok (some p))
      (h : UcIa.takeLine s.buf s.uc = .ok (b, buf, str)) :
      Step s (scWrite str s.conf.sc).log { s with
        conf := Core.queued s.conf.sc (scWrite str s.conf.sc).res, buf := buf, uc := b }

/-- Where a session is: `w` is on the wire, `typed` are the bytes of the user that were
not queued yet, and `owed` is what the user is still to get. -/
inductive Stage (v : View) (ph : Phase) :
    List UInt8 → List UInt8 → List Command → List (List UInt8) → Prop
  /-- The last answer to what is queued is being read. -/
  | answer {w o p due} (h : Reading v ph w o p) (hwq : v.wq = []) :
      Stage v ph w (due.flatMap Command.typed) due (handed o p ++ due.flatMap Command.shown)
  /-- The echo of a character is. -/
  | echo {w o p t m due} (h : Reading v ph w o p) (hwq : v.wq = t ++ [NEWLINE])
      (ht : NEWLINE ∉ t) : Stage v ph w (due.flatMap Command.typed) (m :: due)
        ((m :: due).flatMap Command.shown)
  | writing {t m due k} (hst : v.state = .writing) (hph : ph = .loop k)
      (hwq : v.wq = t ++ [NEWLINE]) (ht : NEWLINE ∉ t) :
      Stage v ph [] (due.flatMap Command.typed) (m :: due) ((m :: due).flatMap Command.shown)
  | ready {due k} (hst : v.state = .ready) (hph : ph = .loop k) :
      Stage v ph [] (due.flatMap Command.typed) due
        (handed v.out v.ps1 ++ due.flatMap Command.shown)
  | user {due} (hst : v.state = .ready) (hph : ph = .user) :
      Stage v ph [] (due.flatMap Command.typed) due (due.flatMap Command.shown)

variable {v v' : View} {ph ph' : Phase} {w w' typed u : List UInt8} {due due' : List Command}
  {owed : List (List UInt8)} {c c' : Conf} {l : List Ev}

theorem Stage.live (h : Stage v ph w typed due owed) (e : Stop) : ph ≠ .stopped e := by
  rintro rfl
  cases h with
  | answer h => rcases h.phase with hph | ⟨k, hph⟩ <;> cases hph
  | echo h => rcases h.phase with hph | ⟨k, hph⟩ <;> cases hph
  | writing _ hph => cases hph
  | ready _ hph => cases hph
  | user _ hph => cases hph

/-- A turn of the busy loop. -/
theorem Stage.reads (h : Stage v ph w typed due owed) (hc : c.Shows (v, ph))
    (hs : Reads (c, w) l (c', w')) (hlucky : .eagain ∈ l → ¬ Cut c.sc w) :
    puts l = [] ∧ queuedBytes l = [] ∧ ∃ v' ph', c'.Shows (v', ph') ∧ v'.wq = v.wq ∧
      Stage v' ph' w' typed due owed := by
  have hbusy := hs.busy hc
  cases h with
  | answer h hwq =>
    obtain ⟨hputs, hqueued, v', ph', hc', hwq', hnext⟩ := h.reads hc hs hlucky
    refine ⟨hputs, hqueued, v', ph', hc', hwq', ?_⟩
    rcases hnext with hreading | ⟨hph, rfl, hup⟩
    · exact .answer hreading (hwq'.trans hwq)
    · obtain ⟨rfl, rfl⟩ := hup.texts hwq
      exact .ready (hup.state.trans (if_pos hwq)) hph
  | echo h hwq ht =>
    obtain ⟨hputs, hqueued, v', ph', hc', hwq', hnext⟩ := h.reads hc hs hlucky
    refine ⟨hputs, hqueued, v', ph', hc', hwq', ?_⟩
    rcases hnext with hreading | ⟨hph, rfl, hup⟩
    · exact .echo hreading (hwq'.trans hwq) ht
    · exact .writing (hup.state.trans (if_neg (by simp [hwq]))) hph (hwq'.trans hwq) ht
  | writing hst => rw [hst] at hbusy; cases hbusy
  | ready hst => rw [hst] at hbusy; cases hbusy
  | user hst => rw [hst] at hbusy; cases hbusy

/-- A byte is written and the switch answers. -/
theorem Stage.write {t a : List UInt8} {b : UInt8} {wq : List UInt8} {m : Command}
    (hst : v.state = .busy) (hrb : v.rb = []) (hwq : b :: wq = t ++ [NEWLINE])
    (ht : NEWLINE ∉ t) (hprog : v.prog = .start (select b)) (hv : v.wq = wq)
    (ha : Answers [.wrote b, .reset (select b)] (m :: due) a due') :
    Stage v (.loop false) a (due.flatMap Command.typed) due'
      ((m :: due).flatMap Command.shown) := by
  cases ha with
  | silent h => exact absurd (List.mem_cons_self) (h b)
  | @echo _ b' _ hb hne hecho =>
    obtain rfl : b' = b := by simpa using hb
    -- a byte that is no newline is one of the line
    rcases t with _ | ⟨x, t⟩
    · exact absurd (List.cons.inj hwq).1 hne
    · obtain ⟨rfl, rfl⟩ := List.cons.inj hwq
      have hselect : select b' = .inchar := if_neg hne
      exact .echo (reading_start hst hrb hprog (hselect ▸ hecho.completes)) hv
        fun hmem => ht (List.mem_cons_of_mem b' hmem)
  | reply hb =>
    obtain rfl : NEWLINE = b := by simpa using hb
    have hnil : wq = [] := by
      rcases t with _ | ⟨x, t⟩
      · exact (List.cons.inj hwq).2
      · obtain ⟨rfl, -⟩ := List.cons.inj hwq
        exact absurd List.mem_cons_self ht
    exact .answer (reading_start hst hrb hprog m.completes) (hv.trans hnil)

theorem puts_replies (v : View) : puts (Core.replies v) = handed v.out v.ps1 := by
  rw [Core.replies, handed]
  split <;> rfl

theorem queuedBytes_replies (v : View) : queuedBytes (Core.replies v) = [] := by
  rw [Core.replies]
  split <;> rfl

/-- A turn of the loop while sc is not busy. -/
theorem Stage.turn {k : Bool} {a : List UInt8} (h : Stage v (.loop k) w typed due owed)
    (hc : c.Shows (v, .loop k)) (hst : v.state ≠ .busy) (hs : Core.Step c l c')
    (ha : Answers l due a due') : ∃ v' ph' owed', c'.Shows (v', ph') ∧
      Stage v' ph' (w ++ a) typed due' owed' ∧ owed = puts l ++ owed' ∧ queuedBytes l = [] ∧
      (v'.wq.length < v.wq.length ∨ v'.wq = v.wq ∧ a = [] ∧ ph' = .user) := by
  obtain ⟨v', ph', hm, hc'⟩ := hc.step hs
  have hsane := hc.sane
  cases h with
  | answer h => exact absurd h.state hst
  | echo h => exact absurd h.state hst
  | @writing t m due k hst' hph hwq ht =>
    obtain ⟨b, wq, hcons⟩ := List.exists_cons_of_ne_nil (show t ++ [NEWLINE] ≠ [] by simp)
    obtain ⟨rfl, rfl, rfl⟩ := hm.of_writing hst' (hwq.trans hcons)
    refine ⟨_, _, _, hc', .write rfl (hsane.rb hst) hcons.symm ht rfl rfl ha, rfl, rfl, .inl ?_⟩
    rw [hwq, hcons]
    exact Nat.lt_succ_self _
  | ready hst' =>
    obtain ⟨rfl, rfl, rfl⟩ := hm.of_ready hst'
    cases ha with
    | silent =>
      refine ⟨_, _, _, hc', .user hst' rfl, ?_, queuedBytes_replies _, .inr ⟨rfl, rfl, rfl⟩⟩
      rw [puts_replies]
    | @echo _ b _ hb => exact absurd hb (Core.wrote_notMem_replies b _)
    | reply hb => exact absurd hb (Core.wrote_notMem_replies NEWLINE _)
  | user hst' hph => cases hph

/-- A line is what stands before the first newline. -/
theorem append_newline_inj {x y xs ys : List UInt8} (hx : NEWLINE ∉ x) (hy : NEWLINE ∉ y)
    (h : x ++ NEWLINE :: xs = y ++ NEWLINE :: ys) : x = y ∧ xs = ys := by
  rcases List.append_eq_append_iff.mp h with ⟨a, rfl, ha⟩ | ⟨a, rfl, ha⟩
  · cases a with
    | nil => exact ⟨(List.append_nil x).symm, (List.cons.inj ha).2⟩
    | cons b a => exact absurd (by simp [(List.cons.inj ha).1]) hy
  · cases a with
    | nil => exact ⟨List.append_nil y, (List.cons.inj ha).2.symm⟩
    | cons b a => exact absurd (by simp [(List.cons.inj ha).1]) hx

/-- The line at the front of what the user has typed. -/
theorem Stage.line {keys line rest : List UInt8}
    (h : Stage v .user w (u ++ keys) due owed) (hl : UcIa.Line u line rest) :
    ∃ m due', due = m :: due' ∧ line = m.line ∧ rest ++ keys = due'.flatMap Command.typed ∧
      w = [] ∧ owed = due.flatMap Command.shown ∧ v.state = .ready := by
  generalize htyped : u ++ keys = typed at h
  cases h with
  | answer h => rcases h.phase with hph | ⟨k, hph⟩ <;> cases hph
  | echo h => rcases h.phase with hph | ⟨k, hph⟩ <;> cases hph
  | writing _ hph => cases hph
  | ready _ hph => cases hph
  | user hst =>
    rw [hl.split, List.append_assoc, List.cons_append] at htyped
    rcases due with _ | ⟨m, due⟩
    · simp at htyped
    · rw [List.flatMap_cons, Command.typed, List.append_assoc, List.singleton_append] at htyped
      obtain ⟨rfl, hrest⟩ := append_newline_inj hl.noNewline m.noNewline htyped
      exact ⟨m, due, rfl, rfl, hrest, rfl, rfl, hst⟩

/-! ### Steps -/

/-- The program and both sides, where `u` is in the read buffer of the front end and
`owed` is what the user is still to get. -/
structure Shows (s : Session) (v : View) (u : List UInt8) (owed : List (List UInt8)) : Prop where
  conf : s.conf.Shows (v, s.conf.phase)
  uc : UcIa.Shows s.uc u
  buf : s.buf.size = UcIa.BUFSZ
  stage : Stage v s.conf.phase s.wire (u ++ s.keys) s.due owed

/-- What is still to be done: the bytes to be sent, those of them to be queued, and the
turns until then. -/
def left (s : Session) : Lex (ℕ × Lex (ℕ × ℕ)) :=
  toLex (s.keys.length + s.uc.cnt + s.conf.sc.writebuf.cnt,
    toLex (s.keys.length + s.uc.cnt,
      s.keys.length + 3 * s.wire.length + Core.rank s.conf.phase s.conf.sc.state))

theorem left_lt_iff {s s' : Session} : s'.left < s.left ↔
    s'.keys.length + s'.uc.cnt + s'.conf.sc.writebuf.cnt <
        s.keys.length + s.uc.cnt + s.conf.sc.writebuf.cnt ∨
      s'.keys.length + s'.uc.cnt + s'.conf.sc.writebuf.cnt =
        s.keys.length + s.uc.cnt + s.conf.sc.writebuf.cnt ∧
      (s'.keys.length + s'.uc.cnt < s.keys.length + s.uc.cnt ∨
        s'.keys.length + s'.uc.cnt = s.keys.length + s.uc.cnt ∧
        s'.keys.length + 3 * s'.wire.length + Core.rank s'.conf.phase s'.conf.sc.state <
          s.keys.length + 3 * s.wire.length + Core.rank s.conf.phase s.conf.sc.state) := by
  rw [left, left, Prod.Lex.toLex_lt_toLex, Prod.Lex.toLex_lt_toLex]

variable {s s' : Session}

/-- What a step does to what is still to be handed over, queued and done. -/
structure Advances (s : Session) (u : List UInt8) (owed : List (List UInt8)) (l : List Ev)
    (s' : Session) : Prop where
  shows : ∃ v' u' owed', s'.Shows v' u' owed' ∧ owed = puts l ++ owed' ∧
    u ++ s.keys = queuedBytes l ++ (u' ++ s'.keys)
  run : Core.Run s.conf l s'.conf
  less : s'.left < s.left

theorem Shows.reads {c : Conf} (h : s.Shows v u owed) (hs : Reads (s.conf, s.wire) l (c, w))
    (hlucky : .eagain ∈ l → ¬ Cut s.conf.sc s.wire) :
    Advances s u owed l { s with conf := c, wire := w } := by
  obtain ⟨hputs, hqueued, v', ph', hc', hwq, hstage⟩ := h.stage.reads h.conf hs hlucky
  obtain rfl : c.phase = ph' := hc'.2.1
  refine ⟨⟨v', u, owed, ⟨hc', h.uc, h.buf, hstage⟩, ?_, ?_⟩, .single hs.step, ?_⟩
  · rw [hputs, List.nil_append]
  · rw [hqueued, List.nil_append]
  · have hlt := hs.lt h.conf
    have hcnt := hc'.cnt
    rw [hwq, ← h.conf.cnt] at hcnt
    exact left_lt_iff.mpr (by dsimp only; omega)

theorem Shows.turn {k : Bool} {c : Conf} {a : List UInt8} (h : s.Shows v u owed)
    (hst : s.conf.sc.state ≠ .busy) (hph : s.conf.phase = .loop k) (hs : Core.Step s.conf l c)
    (ha : Answers l s.due a due) :
    Advances s u owed l { s with conf := c, wire := s.wire ++ a, due := due } := by
  have hc := h.conf
  have hstage := h.stage
  rw [hph] at hc hstage
  have hst' : v.state ≠ .busy := by rwa [← hc.1.state]
  obtain ⟨v', ph', owed', hc', hnext, howed, hqueued, hless⟩ := hstage.turn hc hst' hs ha
  obtain rfl : c.phase = ph' := hc'.2.1
  refine ⟨⟨v', u, owed', ⟨hc', h.uc, h.buf, hnext⟩, howed, ?_⟩, .single hs, ?_⟩
  · rw [hqueued, List.nil_append]
  · have hcnt := hc.cnt
    have hcnt' := hc'.cnt
    refine left_lt_iff.mpr ?_
    -- a byte was written, or the reply was handed over and the user is next
    rcases hless with hlt | ⟨hwq, rfl, huser⟩
    · exact .inl (by dsimp only; omega)
    · have hrank : Core.rank s.conf.phase s.conf.sc.state = 1 := by
        rw [hph]
        exact Core.rank_loop k hst
      have hrank' : Core.rank c.phase c.sc.state = 0 := by rw [huser]; rfl
      rw [hwq] at hcnt'
      exact .inr ⟨by dsimp only; omega, .inr ⟨rfl, by
        rw [List.append_nil]
        dsimp only
        omega⟩⟩

theorem Shows.hasdata {b : Buf} {bs keys : List UInt8} (h : s.Shows v u owed)
    (hkeys : s.keys = bs ++ keys) (hbs : bs ≠ []) (hfits : s.uc.cnt + bs.length ≤ UcIa.READBUFSZ)
    (hb : UcIa.readMore (.bytes bs) s.uc = .ok b) :
    Advances s u owed [] { s with uc := b, keys := keys } := by
  obtain ⟨b', hb', hshows⟩ := UcIa.readMore_shows h.uc hbs hfits
  rw [hb'] at hb
  cases hb
  have htyped : u ++ s.keys = (u ++ bs) ++ keys := by rw [hkeys, List.append_assoc]
  refine ⟨⟨v, u ++ bs, owed, ⟨h.conf, hshows, h.buf, htyped ▸ h.stage⟩, rfl, htyped⟩,
    .refl _, left_lt_iff.mpr ?_⟩
  have hcnt := h.uc.records.2
  have hcnt' := hshows.records.2
  have hpos := List.length_pos_iff.mpr hbs
  have hlen := congrArg List.length hkeys
  rw [List.length_append] at hcnt' hlen
  dsimp only
  omega

/-- A line in the read buffer of the front end can be taken. -/
theorem Shows.line {line rest : List UInt8} (h : s.Shows v u owed) (hph : s.conf.phase = .user)
    (hl : UcIa.Line u line rest) : ∃ m due b buf, s.due = m :: due ∧ line = m.line ∧
      rest ++ s.keys = due.flatMap Command.typed ∧ s.wire = [] ∧
      owed = s.due.flatMap Command.shown ∧ v.state = .ready ∧
      UcIa.takeLine s.buf s.uc = .ok (b, buf, m.line ++ [NEWLINE]) ∧ UcIa.Shows b rest ∧
      buf.size = UcIa.BUFSZ := by
  have hstage := h.stage
  rw [hph] at hstage
  obtain ⟨m, due, hdue, rfl, hrest, hwire, howed, hst⟩ := hstage.line hl
  obtain ⟨b, buf, htake, hshows, hsize⟩ := UcIa.takeLine_spec h.uc hl (by
    rw [h.buf]
    exact m.fits)
  exact ⟨m, due, b, buf, hdue, rfl, hrest, hwire, howed, hst, htake, hshows, hsize.trans h.buf⟩

theorem Shows.getdata {p : ℕ} {buf : Block UInt8} {b : Buf} {str : List UInt8}
    (h : s.Shows v u owed) (hph : s.conf.phase = .user)
    (hline : UcIa.newline s.uc = .ok (some p))
    (hb : UcIa.takeLine s.buf s.uc = .ok (b, buf, str)) :
    Advances s u owed (scWrite str s.conf.sc).log { s with
      conf := Core.queued s.conf.sc (scWrite str s.conf.sc).res, buf := buf, uc := b } := by
  -- `strchr` has found a newline
  obtain ⟨line, rest, hl⟩ : ∃ line rest, UcIa.Line u line rest := by
    by_contra hno
    rw [UcIa.newline_none (fun line rest hl => hno ⟨line, rest, hl⟩) h.uc] at hline
    cases hline
  obtain ⟨m, due, b', buf', hdue, rfl, hrest, hwire, howed, hst, htake, hshows, hsize⟩ :=
    h.line hph hl
  rw [htake] at hb
  cases hb
  have hc := h.conf
  rw [hph] at hc
  have hstr : m.line ++ [NEWLINE] ≠ [] := by simp
  obtain ⟨hlog, hs, hc'⟩ := hc.queued hstr
  rw [hlog]
  have htyped : u = m.typed ++ rest := by rw [hl.split, Command.typed, List.append_cons]
  refine ⟨⟨_, rest, owed, ⟨hc'.self, hshows, hsize, ?_⟩, rfl, ?_⟩, .single hs,
    left_lt_iff.mpr ?_⟩
  · dsimp only
    rw [hc'.2.1, hrest, hwire, howed, hdue]
    exact .writing rfl rfl rfl m.noNewline
  · rw [htyped, List.append_assoc]
    simp [queuedBytes, Command.typed]
  · have hwq := hc.sane.ready hst
    have hcnt := h.uc.records.2
    have hcnt' := hshows.records.2
    have hold := hc.cnt
    have hnew := hc'.cnt
    rw [hwq, List.length_nil] at hold
    have hlen := congrArg List.length htyped
    rw [List.length_append, Command.typed] at hlen
    have hpos := List.length_pos_iff.mpr hstr
    dsimp only at hnew ⊢
    omega

/-- **One step.**  It hands over and queues what is next, and leaves less to be done. -/
theorem Step.advances (h : s.Shows v u owed) (hs : Step s l s') : Advances s u owed l s' := by
  cases hs with
  | reads hs hlucky => exact h.reads hs hlucky
  | turn hst hph hs ha => exact h.turn hst hph hs ha
  | hasdata bs hph hno hkeys hbs hfits hb => exact h.hasdata hkeys hbs hfits hb
  | getdata hph hline hb => exact h.getdata hph hline hb

/-! ### Where a session cannot go on -/

/-- The switch has an answer to every byte. -/
theorem exists_answers (b : UInt8) (m : Command) (due : List Command) :
    ∃ a due', Answers [.wrote b, .reset (select b)] (m :: due) a due' := by
  by_cases hb : b = NEWLINE
  · exact ⟨m.reply, due, .reply (hb ▸ List.mem_cons_self)⟩
  · have hecho : IsEcho [ESC, 65, 120, ESC, 65] :=
      ⟨[ESC, 65], 120, [ESC, 65], rfl, by decide, .one rfl, rfl⟩
    exact ⟨_, m :: due, .echo List.mem_cons_self hb hecho⟩

/-- What is in the read buffer without a line leaves room for more. -/
theorem room_of_no_line {keys : List UInt8} (hno : ∀ line rest, ¬ UcIa.Line u line rest)
    (hkeys : keys ≠ []) (h : u ++ keys = due.flatMap Command.typed) :
    u.length + 1 ≤ UcIa.READBUFSZ := by
  -- the buffer holds a part of the next line, which is short
  rcases due with _ | ⟨m, due⟩
  · exact absurd (List.append_eq_nil_iff.mp h).2 hkeys
  · rw [List.flatMap_cons, Command.typed, List.append_assoc, List.singleton_append] at h
    have hfits : m.line.length + 1 < 512 := m.fits
    have hle : u.length ≤ m.line.length := by
      rcases List.append_eq_append_iff.mp h with ⟨a, ha, -⟩ | ⟨a, rfl, ha⟩
      · rw [ha, List.length_append]
        exact Nat.le_add_right _ _
      · cases a with
        | nil => simp
        | cons x a =>
          obtain ⟨rfl, -⟩ := List.cons.inj ha
          exact absurd ⟨rfl, m.noNewline, m.noNul⟩ (hno m.line a)
    rw [UcIa.READBUFSZ]
    omega

/-- **A session that cannot go on** has nothing left to do. -/
theorem Shows.of_stuck (h : s.Shows v u owed) (hstuck : ∀ l s', ¬ Step s l s') :
    s.conf.phase = .user ∧ v.state = .ready ∧ owed = [] ∧ u ++ s.keys = [] := by
  have hline : s.conf.phase = .user → ∀ line rest, ¬ UcIa.Line u line rest := by
    intro hph line rest hl
    obtain ⟨m, due, b, buf, -, -, -, -, -, -, htake, -⟩ := h.line hph hl
    exact hstuck _ _ (.getdata hph (hl.newline h.uc) htake)
  obtain ⟨hc, huc, -, hstage⟩ := h
  generalize hph : s.conf.phase = ph at hc hstage
  generalize hwire : s.wire = w at hstage
  generalize hdue : s.due = due at hstage
  generalize htyped : u ++ s.keys = typed at hstage ⊢
  have hturn : ∀ {k l c a due'}, v.state ≠ .busy → ph = .loop k → Core.Step s.conf l c →
      ¬ Answers l due a due' := fun hst hloop hs ha =>
    hstuck _ _ (.turn (by rwa [hc.1.state]) (hph.trans hloop) hs (hdue ▸ ha))
  -- in every stage but the last one there is something to do
  cases hstage with
  | answer h hwq =>
    subst hwire
    obtain ⟨l, ⟨c, w⟩, hs, hlucky⟩ := h.can_read hc
    exact absurd (.reads hs hlucky) (hstuck _ _)
  | echo h hwq ht =>
    subst hwire
    obtain ⟨l, ⟨c, w⟩, hs, hlucky⟩ := h.can_read hc
    exact absurd (.reads hs hlucky) (hstuck _ _)
  | @writing t m due k hst hloop hwq ht =>
    subst hloop
    obtain ⟨b, wq, hcons⟩ := List.exists_cons_of_ne_nil (show t ++ [NEWLINE] ≠ [] by simp)
    obtain ⟨c', hs, -⟩ := hc.operate (r := .bytes [0]) (by simp [hst]) (Core.fits_byte hc.1 0)
      (fun _ => nofun) (.write hst (hwq.trans hcons))
    obtain ⟨a, due', ha⟩ := exists_answers b m due
    exact absurd ha (hturn (by simp [hst]) rfl hs)
  | ready hst hloop =>
    subst hloop
    obtain ⟨c', hs, -⟩ := hc.hand hst
    exact absurd (.silent (Core.wrote_notMem_replies · v)) (hturn (by simp [hst]) rfl hs)
  | user hst huser =>
    subst huser
    have hno := hline hph
    have hkeys : s.keys = [] := by
      by_contra hne
      have hroom := room_of_no_line hno hne htyped
      obtain ⟨b, keys, hcons⟩ := List.exists_cons_of_ne_nil hne
      have hfits : s.uc.cnt + [b].length ≤ UcIa.READBUFSZ := by
        rwa [huc.records.2]
      obtain ⟨b', hb', -⟩ := UcIa.readMore_shows huc (List.cons_ne_nil b []) hfits
      exact hstuck _ _ (.hasdata [b] hph (UcIa.newline_none hno huc) hcons (by simp) hfits hb')
    rcases due with _ | ⟨m, due⟩
    · exact ⟨rfl, hst, rfl, rfl⟩
    · refine absurd ⟨?_, m.noNewline, m.noNul⟩ (hno m.line (due.flatMap Command.typed))
      rw [hkeys, List.append_nil] at htyped
      rw [htyped, List.flatMap_cons, Command.typed, List.append_assoc, List.singleton_append]

/-! ### Runs -/

section Runs

variable {chat P : List UInt8} {cmds : List Command}

/-- What a run has done so far, against all there is to do. -/
structure Follows (P : List UInt8) (cmds : List Command) (l : List Ev) (s : Session) : Prop where
  shows : ∃ v u owed, s.Shows v u owed ∧ P :: cmds.flatMap Command.shown = puts l ++ owed ∧
    cmds.flatMap Command.typed = queuedBytes l ++ (u ++ s.keys)
  run : Core.Run Core.start l s.conf

theorem follows_start (hchat : IsChat chat P) (hP : 0 ∉ P) (cmds : List Command) :
    Follows P cmds [] (start chat cmds) where
  shows := by
    refine ⟨.init, [], P :: cmds.flatMap Command.shown,
      ⟨Core.start_shows, UcIa.init_shows, rfl, ?_⟩, rfl, rfl⟩
    exact .answer (reading_start (m := .init) rfl rfl rfl (hchat.completes hP)) rfl
  run := .refl _

theorem Follows.step {l' : List Ev} (h : Follows P cmds l s) (hs : Step s l' s') :
    Follows P cmds (l ++ l') s' ∧ s'.left < s.left := by
  obtain ⟨v, u, owed, hshows, hputs, hqueued⟩ := h.shows
  obtain ⟨⟨v', u', owed', hshows', howed, htyped⟩, hrun, hless⟩ := hs.advances hshows
  refine ⟨⟨⟨v', u', owed', hshows', ?_, ?_⟩, h.run.trans hrun⟩, hless⟩
  · rw [hputs, howed, puts_append, List.append_assoc]
  · rw [hqueued, htyped, queuedBytes_append, List.append_assoc]

theorem Follows.runs (h : Follows P cmds [] s) (hrun : Runs Step s l s') :
    Follows P cmds l s' :=
  Runs.invariant (J := Follows P cmds) (i := []) (fun _ _ _ _ hJ hs => (hJ.step hs).1) h hrun

/-- A session comes to an end. -/
theorem acc_start (hchat : IsChat chat P) (hP : 0 ∉ P) (cmds : List Command) :
    Acc (fun s' s => ∃ l, Step s l s') (start chat cmds) :=
  Runs.acc wellFounded_lt (fun s => ∃ l, Follows P cmds l s) left
    (fun _ l' _ ⟨l, h⟩ hs => ⟨⟨l ++ l', (h.step hs).1⟩, (h.step hs).2⟩)
    ⟨[], follows_start hchat hP cmds⟩

/-- **A whole session.**  No session is endless.  In every session core_run goes on;
the user is handed the prompt of the opening chat and then for each line the output, if
there is any, and the prompt of its answer, and nothing else; the switch gets the key,
the report and the lines.  A session that cannot go on has done all of this and waits
for the user. -/
theorem session (hchat : IsChat chat P) (hP : 0 ∉ P) (cmds : List Command) :
    Acc (fun s' s => ∃ l, Step s l s') (start chat cmds) ∧
    ∀ l s, Runs Step (start chat cmds) l s →
      (∀ e, s.conf.phase ≠ .stopped e) ∧ puts l <+: P :: cmds.flatMap Command.shown ∧
      written l <+: 0x78 :: REPORT ++ cmds.flatMap Command.typed ∧
      ((∀ l' s', ¬ Step s l' s') → s.conf.phase = .user ∧
        puts l = P :: cmds.flatMap Command.shown ∧
        written l = 0x78 :: REPORT ++ cmds.flatMap Command.typed) := by
  refine ⟨acc_start hchat hP cmds, fun l s hrun => ?_⟩
  have hfollows := (follows_start hchat hP cmds).runs hrun
  obtain ⟨v, u, owed, hshows, hputs, hqueued⟩ := hfollows.shows
  obtain ⟨hwritten, hall⟩ := Core.run_written hfollows.run hshows.stage.live
  refine ⟨hshows.stage.live, ⟨owed, hputs.symm⟩, ?_, fun hstuck => ?_⟩
  · refine hwritten.trans ((List.prefix_append_right_inj _).mpr ?_)
    exact ⟨u ++ s.keys, hqueued.symm⟩
  · obtain ⟨hph, hst, rfl, hnil⟩ := hshows.of_stuck hstuck
    rw [List.append_nil] at hputs
    rw [hnil, List.append_nil] at hqueued
    exact ⟨hph, hputs.symm, hqueued ▸ hall (hshows.conf.1.state.trans hst)⟩

end Runs

/-- A line "a", and an answer with an output. -/
def commandOP : Command where
  line := [97]
  reply := Core.answerOP
  out := [111]
  ps1 := [112]
  noNewline := by decide
  noNul := by decide
  fits := by decide
  form := .inr Core.isOutput_answerOP
  outNul := by decide
  ps1Nul := by decide

/-- There is a session with this line that gets to its end. -/
theorem session_commandOP : ∃ chat l s, IsChat chat [36] ∧
    Runs Step (start chat [commandOP]) l s ∧ s.conf.phase = .user ∧
    puts l = [[36], [111], [112]] ∧ written l = 0x78 :: REPORT ++ [97, NEWLINE] := by
  obtain ⟨hacc, hall⟩ := session isChat_x (by decide) [commandOP]
  obtain ⟨l, s, hrun, hstuck⟩ := Runs.exists_end hacc
  exact ⟨_, l, s, isChat_x, hrun, (hall l s hrun).2.2.2 hstuck⟩

end Session

end Swh
