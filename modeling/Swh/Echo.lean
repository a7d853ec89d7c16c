/-
The echo of a line.

After each byte of the line the switch sends an echo `E T E+`; the pieces of one
echo may arrive late, and before the next one.  The machine takes an echo for
complete where a read finds the pipe empty behind the first escape sequence of its
end; if there is more to come (`Cut`), that is eaten by the machine of the next byte,
which has no place for it.

* `echo_phase` — without a `Cut` all echoes are consumed and all bytes are written;
* `not_echo_phase_cut` — with one the error state can be reached.
-/
import Swh.Answer
import Swh.BusyLoop
import Swh.InitPhase

namespace Swh.Core

open Ansiseq (ESC)

/-- The user front end delivers a line, which may also be a part of one: there is no
newline in it. -/
structure LineQueued where
  log : List Ev
  user : Conf
  run : Run start log user
  phase : user.phase = .user
  line : List UInt8
  line_ne_nil : line ≠ []
  noNewline : NEWLINE ∉ line

/-- Where the loop goes after `sc_write`. -/
def LineQueued.conf (b : LineQueued) : Conf := queued b.user.sc (scWrite b.line b.user.sc).res

/-- A turn of the busy loop: a read, or a byte that is written and will be echoed. -/
inductive Echoes : Conf × List UInt8 → List Ev → Conf × List UInt8 → Prop
  | reads {q l q'} (h : Reads q l q') : Echoes q l q'
  | writes {s k w a} (r : ReadResult) (hst : s.state = .writing) (ha : IsEcho a) :
      Echoes (⟨s, .loop k⟩, w) (scOperate r s).log (operated s (scOperate r s).res, w ++ a)

/-- A turn in which no read finds the pipe empty at a `Cut`. -/
def Uncut (q : Conf × List UInt8) (l : List Ev) (q' : Conf × List UInt8) : Prop :=
  Echoes q l q' ∧ (.eagain ∈ l → ¬ Cut q.1.sc q.2)

/-- Under every schedule of turns the line is sent and its echoes are consumed. -/
structure EchoPhase (b : LineQueued) (turn : Conf × List UInt8 → List Ev →
    Conf × List UInt8 → Prop) : Prop where
  ends : Acc (fun q' q => ∃ l, turn q l q') (b.conf, [])
  sends : ∀ l q, Runs turn (b.conf, []) l q → sent l <+: b.line
  noError : ∀ l q, Runs turn (b.conf, []) l q →
    curError q.1.sc = false ∧ ∀ e, q.1.phase ≠ .stopped e
  all : ∀ l q, Runs turn (b.conf, []) l q → (∀ l' q', ¬ turn q l' q') →
    q.1.sc.state = .ready ∧ sent l = b.line ∧ q.2 = [] ∧ q.1.sc.readbuf.cnt = 0

/-- Where the echo phase is, with `w` on the wire. -/
inductive EchoStage (v : View) (ph : Phase) : List UInt8 → Prop
  | writing {k} (hst : v.state = .writing) (hph : ph = .loop k) : EchoStage v ph []
  | reading {w} (h : Reading v ph w [] []) : EchoStage v ph w
  | done (hst : v.state = .ready) (hph : ph = .loop false) : EchoStage v ph []

/-- The bytes of the line are sent, or they are still queued. -/
def Echoing (line : List UInt8) (l : List Ev) (q : Conf × List UInt8) : Prop :=
  ∃ v ph, q.1.Shows (v, ph) ∧ EchoStage v ph q.2 ∧ sent l ++ v.wq = line

variable {c c' : Conf} {v v' : View} {ph ph' : Phase} {l l' : List Ev} {w w' line : List UInt8}
  {q q' : Conf × List UInt8}

theorem EchoStage.not_stopped (h : EchoStage v ph w) (e : Stop) : ph ≠ .stopped e := by
  rintro rfl
  cases h with
  | writing _ h => cases h
  | reading h => rcases h.phase with h | ⟨k, h⟩ <;> cases h
  | done _ h => cases h

/-- A turn that reads sends nothing. -/
theorem Reads.sent_eq_nil (hc : c.Shows (v, ph)) (h : Reads (c, w) l (c', w')) :
    sent l = [] := by
  obtain ⟨v', ph', hm, -⟩ := hc.step h.step
  rw [sent, List.filterMap_eq_nil_iff]
  intro e he
  cases e with
  | wrote b =>
    obtain ⟨-, hst, -⟩ := hm.of_wrote he
    rw [h.busy hc] at hst
    cases hst
  | _ => rfl

/-- A turn that reads goes on with the echo or has read it up. -/
theorem Echoing.reads (hq : Echoing line l (c, w)) (hs : Reads (c, w) l' (c', w'))
    (huncut : .eagain ∈ l' → ¬ Cut c.sc w) : Echoing line (l ++ l') (c', w') := by
  obtain ⟨v, ph, hc, hstage, hsent⟩ := hq
  dsimp only at hc hstage
  have hbusy := hs.busy hc
  cases hstage with
  | writing hst => rw [hst] at hbusy; cases hbusy
  | done hst => rw [hst] at hbusy; cases hbusy
  | reading hreading =>
    obtain ⟨-, -, v', ph', hc', hwq, hnext⟩ := hreading.reads hc hs huncut
    have hsent' : sent (l ++ l') ++ v'.wq = line := by
      rw [sent_append, hs.sent_eq_nil hc, List.append_nil, hwq, hsent]
    rcases hnext with hreading' | ⟨hph, rfl, hup⟩
    · exact ⟨v', ph', hc', .reading hreading', hsent'⟩
    · -- the echo was read up
      refine ⟨v', ph', hc', ?_, hsent'⟩
      by_cases hnil : v.wq = []
      · exact .done (hup.state.trans (if_pos hnil)) hph
      · exact .writing (hup.state.trans (if_neg hnil)) hph

/-- A turn that writes the next byte starts to read its echo. -/
theorem Echoing.writes {s : Sc} {k : Bool} {a : List UInt8} (hline : NEWLINE ∉ line)
    (hq : Echoing line l (⟨s, .loop k⟩, w)) (r : ReadResult) (hst : s.state = .writing)
    (ha : IsEcho a) :
    Echoing line (l ++ (scOperate r s).log) (operated s (scOperate r s).res, w ++ a) := by
  obtain ⟨v, ph, hc, hstage, hsent⟩ := hq
  dsimp only at hc hstage
  obtain ⟨-, b, wq, hwq, hl, hc'⟩ := written_spec hc r hst
  have hv : v.state = .writing := hc.1.state.symm.trans hst
  have hb : select b = .inchar := by
    refine if_neg ?_
    rintro rfl
    exact hline (by rw [← hsent, hwq]; simp)
  have hw : w = [] := by
    cases hstage with
    | writing => rfl
    | done => rfl
    | reading hreading => cases hreading.state.symm.trans hv
  refine ⟨_, _, hc', ?_, ?_⟩
  · dsimp only
    rw [hw, List.nil_append]
    exact .reading (reading_start rfl (hc.sane.rb (by simp [hv])) rfl (hb ▸ ha.completes))
  · rw [sent_append, hl, ← hsent, hwq]
    simp [sent]

/-- **One turn** of the echo phase. -/
theorem Uncut.echoing (hline : NEWLINE ∉ line) (hq : Echoing line l q) (h : Uncut q l' q') :
    Echoing line (l ++ l') q' ∧ toDo q' 0 < toDo q 0 := by
  have ⟨v, ph, hc, _⟩ := hq
  obtain ⟨hturn, huncut⟩ := h
  cases hturn with
  | reads hs => exact ⟨hq.reads hs huncut, hs.less hc 0⟩
  | writes r hst ha => exact ⟨hq.writes hline r hst ha, written_less hc r hst _ _ 0 0⟩

theorem LineQueued.shows (b : LineQueued) : ∃ v, v.state = .writing ∧ v.wq = b.line ∧
    v.rb = [] ∧ b.conf.Shows (v, .loop false) := by
  obtain ⟨⟨v, ph⟩, -, hc⟩ := run_refines start_shows b.run
  obtain rfl : ph = .user := hc.2.1.symm.trans b.phase
  obtain ⟨-, -, hc'⟩ := hc.queued b.line_ne_nil
  have hready := hc.sane.user rfl
  exact ⟨{ v with wq := b.line, state := .writing, out := [] }, rfl, rfl,
    hc.sane.rb (by simp [hready]), hc'⟩

theorem echoing_start (b : LineQueued) : Echoing b.line [] (b.conf, []) := by
  obtain ⟨v, hst, hwq, -, hc⟩ := b.shows
  exact ⟨v, _, hc, .writing hst rfl, hwq⟩

theorem echoing_of_run (b : LineQueued) (h : Runs Uncut (b.conf, []) l q) :
    Echoing b.line l q :=
  h.invariant (J := Echoing b.line) (i := [])
    (fun _ _ _ _ hq hs => (hs.echoing b.noNewline hq).1) (echoing_start b)

/-- Where nothing can be done any more, the echo phase is over. -/
theorem Echoing.done (hq : Echoing line l q) (hend : ∀ l' q', ¬ Uncut q l' q') :
    q.1.sc.state = .ready ∧ sent l = line ∧ q.2 = [] ∧ q.1.sc.readbuf.cnt = 0 := by
  obtain ⟨⟨s, ph'⟩, w⟩ := q
  obtain ⟨v, ph, hc, hstage, hsent⟩ := hq
  dsimp only at hc hstage ⊢
  obtain rfl : ph' = ph := hc.2.1
  cases hstage with
  | writing hst hph =>
    subst hph
    have hst' : s.state = .writing := hc.1.state.trans hst
    -- any echo will do
    have hecho := isEcho_char (x := 65) (by decide)
    exact absurd ⟨.writes .eagain hst' hecho, fun _ hcut => hcut.2.1 rfl⟩ (hend _ _)
  | reading hreading =>
    obtain ⟨l', q', hs, huncut⟩ := hreading.can_read hc
    exact absurd ⟨.reads hs, huncut⟩ (hend l' q')
  | done hst hph =>
    have hwq := hc.sane.ready hst
    rw [hwq, List.append_nil] at hsent
    exact ⟨hc.1.state.trans hst, hsent, rfl,
      hc.1.readbuf.cnt_eq_zero.mpr (hc.sane.rb (by simp [hst]))⟩

/-- **The echo phase, without a `Cut`**: it comes to an end, the error state is not
reached, and in the end the line was written and all echoes are consumed. -/
theorem echo_phase (b : LineQueued) : EchoPhase b Uncut where
  ends := by
    refine Runs.acc wellFounded_lt (fun q => ∃ l, Echoing b.line l q) (toDo · 0) ?_
      ⟨[], echoing_start b⟩
    rintro q l' q' ⟨l, hq⟩ hs
    obtain ⟨hq', hless⟩ := hs.echoing b.noNewline hq
    exact ⟨⟨_, hq'⟩, hless⟩
  sends := by
    intro l q h
    obtain ⟨v, -, -, -, hsent⟩ := echoing_of_run b h
    exact ⟨v.wq, hsent⟩
  noError := by
    intro l q h
    obtain ⟨v, ph, hc, hstage, -⟩ := echoing_of_run b h
    refine ⟨by rw [curError_eq hc.1, hc.sane.noError], fun e he => hstage.not_stopped e ?_⟩
    exact hc.2.1.symm.trans he
  all := fun l q h => (echoing_of_run b h).done

/-! ### An echo that is cut -/

/-- A turn that reads one byte, of which the machine makes an error. -/
theorem Conf.Shows.fails (hc : c.Shows (v, ph)) (hst : v.state = .busy)
    (hph : ph = .select ∨ ∃ k, ph = .loop k) {x : UInt8} {g : Program}
    (hfeed : v.prog.feed (v.rb ++ [x]) = .ok (g, [])) (herr : g.error = true) (w : List UInt8) :
    ∃ l c', Runs Reads (c, x :: w) l (c', w) ∧ c'.phase = .stopped (.panic .fsmError) := by
  have hlt : ([] : List UInt8).length < (v.data (some [x])).length := by simp [View.data]
  have hop : v.Operates (.bytes [x]) _ _ := .fsmError (o := some [x]) hst rfl hfeed hlt herr
  -- the read behind the test for data, or the one behind `selectfd`
  have hread : ∀ (s : Sc) (k : Bool), s.Shows v →
      ∃ l c', Reads (⟨s, .loop k⟩, x :: w) l (c', w) ∧ c'.phase = .stopped (.panic .fsmError) := by
    intro s k hshows
    have hfits := fits_byte hshows x
    obtain ⟨res, hop', hag⟩ := scOperate_refines hshows hfits
    obtain ⟨-, rfl⟩ := hop.unique hop'
    refine ⟨_, _, .piece (w := w) [x] (hshows.state.trans hst) (by simp) hfits, ?_⟩
    generalize (scOperate (.bytes [x]) s).res = y at hag
    cases hag
    rfl
  obtain ⟨s, ph'⟩ := c
  obtain rfl : ph' = ph := hc.2.1
  rcases hph with rfl | ⟨k, rfl⟩
  · obtain ⟨l, c', hs, hphase⟩ := hread s true hc.1
    exact ⟨_, c', (Runs.single (.wake (by simp))).snoc hs, hphase⟩
  · obtain ⟨l, c', hs, hphase⟩ := hread s k hc.1
    exact ⟨_, c', .single hs, hphase⟩

/-- Any line can be queued. -/
theorem exists_lineQueued (line : List UInt8) (hne : line ≠ []) (hline : NEWLINE ∉ line) :
    ∃ b : LineQueued, b.line = line := by
  obtain ⟨c₁, hrun, hc₁⟩ := run_chat isChat_x (by decide)
  obtain ⟨c₂, hs₂, hc₂⟩ := hc₁.hand rfl
  exact ⟨⟨_, c₂, hrun.snoc hs₂, hc₂.2.1, line, hne, hline⟩, rfl⟩

/-- The next byte of the line is written, and its echo is on the wire. -/
theorem Conf.Shows.written (hc : c.Shows (v, .loop false)) (hst : v.state = .writing)
    {x : UInt8} {wq : List UInt8} (hwq : v.wq = x :: wq) (hx : x ≠ NEWLINE) {a : List UInt8}
    (ha : IsEcho a) (w : List UInt8) : ∃ l c', Echoes (c, w) l (c', w ++ a) ∧
      c'.Shows ({ v with wq := wq, prog := .start .inchar, state := .busy }, .loop false) := by
  obtain ⟨s, ph⟩ := c
  obtain rfl : ph = .loop false := hc.2.1
  have hst' : s.state = .writing := hc.1.state.trans hst
  obtain ⟨-, b, wq', hwq', -, hc'⟩ := written_spec hc .eagain hst'
  rw [hwq] at hwq'
  obtain ⟨rfl, rfl⟩ := List.cons.inj hwq'
  rw [select, if_neg hx] at hc'
  exact ⟨_, _, .writes .eagain hst' ha, hc'⟩

/-- An echo can be taken for complete where a shorter one would be. -/
theorem Conf.Shows.cut (hc : c.Shows (v, .loop false)) (hst : v.state = .busy)
    (hrb : v.rb = []) (hwq : v.wq ≠ []) (hprog : v.prog = .start .inchar) {p : List UInt8}
    (hp : IsEcho p) (w : List UInt8) : ∃ l c' n, Runs Reads (c, p ++ w) l (c', w) ∧
      c'.Shows ({ v with nodataflag := n, rb := [], prog := .inchar .fin, state := .writing },
        .loop false) := by
  have hfeed : v.prog.feed (v.rb ++ p) = .ok (.inchar .cm2, []) := by
    rw [hprog, hrb]
    exact hp.feed
  obtain ⟨c₁, n, hrun, hc₁⟩ := reads_bytes hc hst (by simp [hprog]) hfeed rfl w
  obtain ⟨c₂, hs, hc₂⟩ := hc₁.dry hst (.ack hst rfl rfl rfl hwq) w
  exact ⟨_, c₂, n, hrun.snoc hs, hc₂⟩

/-- **An echo that is cut**: its last escape sequence comes late.  The machine of the
next byte reads it, and then the first one of the next echo. -/
theorem exists_cut : ∃ b : LineQueued, b.line = [97, 98] ∧
    ∃ l q, Runs Echoes (b.conf, []) l q ∧ q.1.phase = .stopped (.panic .fsmError) := by
  have he : Eseq [ESC, 65] := rfl
  have hlong : IsEcho [ESC, 65, 97, ESC, 65, ESC, 65] :=
    ⟨_, 97, _, he, by decide, .cons he (.one he), rfl⟩
  obtain ⟨b, hline⟩ := exists_lineQueued [97, 98] (by simp) (by decide)
  refine ⟨b, hline, ?_⟩
  obtain ⟨v, hst, hwq, hrb, hc⟩ := b.shows
  rw [hline] at hwq
  obtain ⟨l₁, c₁, hs₁, hc₁⟩ := hc.written hst hwq (by decide) hlong []
  -- the pipe is empty behind the first escape sequence of the end
  obtain ⟨l₂, c₂, n₂, hrun₂, hc₂⟩ := hc₁.cut rfl hrb (by simp) rfl
    (isEcho_char (x := 97) (by decide)) [ESC, 65]
  obtain ⟨l₃, c₃, hs₃, hc₃⟩ := hc₂.written rfl rfl (by decide)
    (isEcho_char (x := 98) (by decide)) [ESC, 65]
  -- the other one is eaten by the next machine
  have hone : (Program.start .inchar).feed ([] ++ [ESC, 65]) = .ok (.inchar .cm1, []) :=
    (Program.feed_token (d := []) rfl he.scan).trans (Program.feed_nil _)
  obtain ⟨c₄, n₄, hrun₄, hc₄⟩ := reads_bytes hc₃ rfl nofun hone rfl
    [ESC, 65, 98, ESC, 65]
  -- which has no place for the one that opens the next echo
  have hesc : (Program.inchar .cm1).feed ([] ++ [ESC]) = .ok (.inchar .cm1, [ESC]) :=
    Program.feed_more rfl _
  obtain ⟨c₅, ph₅, hrun₅, hc₅, hph₅⟩ := hc₄.read_byte rfl (.inr ⟨false, rfl⟩) nofun hesc rfl
    [65, 98, ESC, 65]
  have hbad : (Program.inchar .cm1).feed ([ESC] ++ [65]) = .ok (.inchar .err, []) :=
    (Program.feed_token (d := []) rfl he.scan).trans (Program.feed_nil _)
  obtain ⟨l₆, c₆, hrun₆, hphase⟩ := hc₅.fails rfl
    (hph₅.elim (fun h => .inr ⟨false, h⟩) (fun h => .inl h.1)) hbad rfl [98, ESC, 65]
  have hreads : ∀ {q l q'}, Runs Reads q l q' → Runs Echoes q l q' :=
    fun h => h.mono fun _ _ _ => .reads
  exact ⟨_, _, ((((((Runs.single hs₁).trans (hreads hrun₂)).snoc hs₃).trans
    (hreads hrun₄)).trans (hreads hrun₅)).trans (hreads hrun₆)), hphase⟩

/-- A line of two bytes, of which the echo of the first is cut, leads to the error
state. -/
theorem not_echo_phase_cut : ∃ b : LineQueued, b.line = [97, 98] ∧ ¬ EchoPhase b Echoes := by
  obtain ⟨b, hline, l, q, hrun, hphase⟩ := exists_cut
  exact ⟨b, hline, fun h => (h.noError l q hrun).2 _ hphase⟩

end Swh.Core
