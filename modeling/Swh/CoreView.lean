/-
The main loop, without buffers.

`Moves` is the loop of core.c on views.  `Sane` is what holds between its steps:
it ties the state of sc to its queues, its flag and the place in the loop.

* `Moves.sane` — every move keeps it;
* `step_refines`, `run_refines` — the loop of the source makes these moves, and
  logs the same events;
* `run_invariant` — what every move keeps holds in every reachable state.
-/
import Swh.Core
import Swh.ScView

namespace Swh.Core

/-- What the loop hands to the user front end when sc is ready. -/
def replies (v : View) : List Ev := (if v.out = [] then [] else [.put v.out]) ++ [.put v.ps1]

/-- One step of the loop on views. -/
inductive Moves : View × Phase → List Ev → View × Phase → Prop
  | operate {v v' : View} {w b l} (r : ReadResult) (hst : v.state ≠ .ready)
      (hwoken : w = true → r ≠ .eagain) (h : v.Operates r l (.ok (v', b))) :
      Moves (v, .loop w) l (v', if b then .loop false else .select)
  | stop {v : View} {w l e} (r : ReadResult) (hst : v.state ≠ .ready)
      (hwoken : w = true → r ≠ .eagain) (h : v.Operates r l (.error e)) :
      Moves (v, .loop w) l (v, .stopped e)
  | wake {v : View} : Moves (v, .select) [] (v, .loop true)
  | hand {v : View} {w} (hst : v.state = .ready) : Moves (v, .loop w) (replies v) (v, .user)
  | write {v : View} (str : List UInt8) (hstr : str ≠ []) :
      Moves (v, .user) [.queued str]
        ({ v with wq := str, state := .writing, out := [] }, .loop false)

/-- What holds between the steps of the loop. -/
structure Sane (v : View) (ph : Phase) : Prop where
  state : v.state = .busy ∨ v.state = .ready ∨ v.state = .writing
  writing : v.state = .writing → v.wq ≠ []
  ready : v.state = .ready → v.wq = []
  out : v.state ≠ .ready → v.out = []
  /-- Only a busy sc has received bytes that it has not consumed. -/
  rb : v.state ≠ .busy → v.rb = []
  /-- They are no complete token yet. -/
  stuck : hpScan v.rb = .more
  noError : v.prog.error = false
  select : ph = .select ∨ ph = .loop true → v.state = .busy
  user : ph = .user → v.state = .ready
  /-- The flag is set while sc waits for data that its machine needs. -/
  flag : v.nodataflag = true → v.state = .busy ∧ v.rb = [] ∧ v.prog.accepts = false
  flagPhase : v.nodataflag = true → ph = .select ∨ ph = .loop true ∨ ∃ e, ph = .stopped e
  outNul : 0 ∉ v.out
  ps1Nul : 0 ∉ v.ps1

theorem sane_init : Sane .init (.loop false) where
  state := .inl rfl
  writing := nofun
  ready := nofun
  out _ := rfl
  rb _ := rfl
  stuck := rfl
  noError := rfl
  select h := by rcases h with h | h <;> cases h
  user := nofun
  flag := nofun
  flagPhase := nofun
  outNul := by simp [View.init]
  ps1Nul := by simp [View.init]

theorem notMem_untilNul (xs : List UInt8) : 0 ∉ untilNul xs := fun h => by
  have := List.mem_takeWhile_imp h
  simp at this

/-- A machine in its accepting state is not in its error state. -/
theorem error_of_accepting {g : Program} (h : g.accepting = true) : g.error = false := by
  rcases g with ⟨st, x⟩ | ⟨st, x⟩ | st <;> cases st <;> first | rfl | cases h

theorem error_start (m : CurFsm) : (Program.start m).error = false := by
  cases m <;> rfl

/-- No read result of a woken loop stands for an empty pipe. -/
theorem ne_none_of_woken {r : ReadResult} {o : Option (List UInt8)} (hr : xread r = .ok o)
    (h : r ≠ .eagain) : o ≠ none := by
  rintro rfl
  rcases r with (_ | ⟨c, cs⟩) | _ | _
  · cases hr
  · cases hr
  · exact h rfl
  · cases hr

variable {v v' : View} {ph ph' : Phase} {l : List Ev}

/-- The flag is not set any more when a call finds no data. -/
theorem Sane.not_flag {w : Bool} {r : ReadResult} (h : Sane v (.loop w))
    (hwoken : w = true → r ≠ .eagain) (hr : xread r = .ok none) : v.nodataflag = false := by
  rw [← Bool.not_eq_true]
  intro hflag
  -- the flag is set on the way to `selectfd` only, and the read behind that finds data
  rcases h.flagPhase hflag with hph | hph | ⟨e, hph⟩
  · cases hph
  · cases hph
    exact ne_none_of_woken hr (hwoken rfl) rfl
  · cases hph

/-- Nor is it set while the machine accepts the end of data. -/
theorem Sane.not_flag_of_accepts (h : Sane v ph) (hacc : v.prog.accepts = true) :
    v.nodataflag = false := by
  rw [← Bool.not_eq_true]
  intro hflag
  rw [(h.flag hflag).2.2] at hacc
  cases hacc

theorem Sane.not_flag_of_idle (h : Sane v ph) (hst : v.state ≠ .busy) : v.nodataflag = false := by
  rw [← Bool.not_eq_true]
  intro hflag
  exact hst (h.flag hflag).1

/-- An answer is being read. -/
theorem Sane.of_busy (hst : v.state = .busy) (hout : v.out = []) (hstuck : hpScan v.rb = .more)
    (herr : v.prog.error = false) (hps1 : 0 ∉ v.ps1) (huser : ph ≠ .user)
    (hflag : v.nodataflag = true → ph = .select ∧ v.rb = [] ∧ v.prog.accepts = false) :
    Sane v ph where
  state := .inl hst
  writing hw := by simp [hst] at hw
  ready hr := by simp [hst] at hr
  out _ := hout
  rb hne := absurd hst hne
  stuck := hstuck
  noError := herr
  select _ := hst
  user h := absurd h huser
  flag hf := ⟨hst, (hflag hf).2⟩
  flagPhase hf := .inl (hflag hf).1
  outNul := by simp [hout]
  ps1Nul := hps1

/-- Nothing is to be read. -/
theorem Sane.of_idle (hst : v.state = .ready ∧ v.wq = [] ∨ v.state = .writing ∧ v.wq ≠ [])
    (hout : v.state = .writing → v.out = []) (hrb : v.rb = []) (herr : v.prog.error = false)
    (houtNul : 0 ∉ v.out) (hps1 : 0 ∉ v.ps1)
    (hph : ph = .loop false ∨ ph = .user ∧ v.state = .ready) (hflag : v.nodataflag = false) :
    Sane v ph where
  state := hst.elim (fun h => .inr (.inl h.1)) (fun h => .inr (.inr h.1))
  writing hw := by
    rcases hst with ⟨hr, -⟩ | ⟨-, hwq⟩
    · simp [hr] at hw
    · exact hwq
  ready hr := by
    rcases hst with ⟨-, hwq⟩ | ⟨hw, -⟩
    · exact hwq
    · simp [hw] at hr
  out hne := hst.elim (fun h => absurd h.1 hne) (fun h => hout h.1)
  rb _ := hrb
  stuck := by rw [hrb]; rfl
  noError := herr
  select h := by
    rcases hph with rfl | ⟨rfl, -⟩
    · rcases h with h | h <;> cases h
    · rcases h with h | h <;> cases h
  user h := by
    rcases hph with rfl | ⟨-, hr⟩
    · cases h
    · exact hr
  flag hf := by simp [hflag] at hf
  flagPhase hf := by simp [hflag] at hf
  outNul := houtNul
  ps1Nul := hps1

/-- A call of `sc_operate` keeps the loop sane. -/
theorem Sane.operates {w b : Bool} {r : ReadResult} (h : Sane v (.loop w))
    (hop : v.Operates r l (.ok (v', b))) : Sane v' (if b then .loop false else .select) := by
  cases hop with
  | @write c wq hst hwq =>
    have hflag := h.not_flag_of_idle (by simp [hst])
    exact .of_busy rfl (h.out (by simp [hst])) h.stuck (error_start _) h.ps1Nul nofun
      fun hf => absurd hf (by simp [hflag])
  | starved hst hr hd hfeed =>
    exact .of_busy hst (h.out (by simp [hst])) (Program.scan_rest hfeed h.noError) h.noError
      h.ps1Nul nofun nofun
  | @fed o g rest hst hr hfeed hlt herr =>
    exact .of_busy hst (h.out (by simp [hst])) (Program.scan_rest hfeed herr)
      ((Program.error_settle g).trans herr) h.ps1Nul nofun nofun
  | wait hst hr hrb hacc hflag =>
    exact .of_busy hst (h.out (by simp [hst])) h.stuck h.noError h.ps1Nul nofun
      fun _ => ⟨rfl, hrb, hacc⟩
  | ack hst hr hrb hacc hwq =>
    have hout := h.out (by simp [hst])
    exact .of_idle (.inr ⟨rfl, hwq⟩) (fun _ => hout) hrb
      (error_of_accepting (Program.accepts_iff.mp hacc).2) h.outNul h.ps1Nul (.inl rfl)
      (h.not_flag_of_accepts hacc)
  | done hst hr hrb hacc hwq hout =>
    exact .of_idle (.inl ⟨rfl, hwq⟩) nofun hrb
      (error_of_accepting (Program.accepts_iff.mp hacc).2) (notMem_untilNul _)
      (notMem_untilNul _) (.inl rfl) (h.not_flag_of_accepts hacc)

theorem Sane.stops (h : Sane v ph) (e : Stop) : Sane v (.stopped e) :=
  { h with
    select := fun hph => by rcases hph with hph | hph <;> cases hph
    user := nofun
    flagPhase := fun _ => .inr (.inr ⟨e, rfl⟩) }

/-- **Every move keeps the loop sane.** -/
theorem Moves.sane (h : Sane v ph) (hm : Moves (v, ph) l (v', ph')) : Sane v' ph' := by
  cases hm with
  | operate r hst hwoken hop => exact h.operates hop
  | stop r hst hwoken hop => exact h.stops _
  | wake =>
    exact { h with
      select := fun _ => h.select (.inl rfl)
      user := nofun
      flagPhase := fun _ => .inr (.inl rfl) }
  -- sc stays ready while the front end is asked
  | hand hst =>
    exact .of_idle (.inl ⟨hst, h.ready hst⟩) (fun hw => by simp [hst] at hw)
      (h.rb (by simp [hst])) h.noError h.outNul h.ps1Nul (.inr ⟨rfl, hst⟩)
      (h.not_flag_of_idle (by simp [hst]))
  | write str hstr =>
    have hst := h.user rfl
    exact .of_idle (.inr ⟨rfl, hstr⟩) (fun _ => rfl) (h.rb (by simp [hst])) h.noError
      (by simp) h.ps1Nul (.inl rfl) (h.not_flag_of_idle (by simp [hst]))

theorem wrote_notMem_fed (c : UInt8) (o : Option (List UInt8)) (g : Program) :
    .wrote c ∉ readEv o :: g.reaction := by
  intro h
  rcases List.mem_cons.mp h with h | h
  · cases o <;> cases h
  · rcases mem_reaction h with h | h <;> cases h

theorem wrote_notMem_replies (c : UInt8) (v : View) : .wrote c ∉ replies v := by
  rw [replies]
  split <;> simp

/-- A byte is written only by a call in state `WRITING`. -/
theorem Moves.of_wrote {c : UInt8} (hm : Moves (v, ph) l (v', ph')) (hc : .wrote c ∈ l) :
    ∃ wq, v.state = .writing ∧ v.wq = c :: wq ∧ ph' = .loop false ∧
      v' = { v with wq := wq, prog := .start (select c), state := .busy } := by
  cases hm with
  | operate r hst hwoken hop =>
    cases hop with
    | @write c' wq hst hwq =>
      obtain rfl : c = c' := by simpa using hc
      exact ⟨wq, hst, hwq, rfl, rfl⟩
    | @starved o => exact absurd hc (wrote_notMem_fed c o (.inchar .sta))
    | @fed o g => exact absurd hc (wrote_notMem_fed c o g)
    | _ => simp at hc
  | stop r hst hwoken hop =>
    cases hop with
    | @malformed o => exact absurd hc (wrote_notMem_fed c o (.inchar .sta))
    | @fsmError o g => exact absurd hc (wrote_notMem_fed c o g)
    | _ => simp at hc
  | wake => cases hc
  | hand => exact absurd hc (wrote_notMem_replies c v)
  | write => simp at hc

/-- A call in state `WRITING` writes the next byte. -/
theorem Moves.of_writing {b : UInt8} {wq : List UInt8} {w : Bool} (hst : v.state = .writing)
    (hwq : v.wq = b :: wq) (hm : Moves (v, .loop w) l (v', ph')) :
    l = [.wrote b, .reset (select b)] ∧ ph' = .loop false ∧
      v' = { v with wq := wq, prog := .start (select b), state := .busy } := by
  cases hm with
  | operate r _ _ hop =>
    obtain ⟨rfl, hres⟩ := hop.unique (.write hst hwq)
    cases hres
    exact ⟨rfl, rfl, rfl⟩
  | stop r _ _ hop =>
    obtain ⟨-, hres⟩ := hop.unique (.write hst hwq)
    cases hres
  | hand hready =>
    rw [hst] at hready
    cases hready

theorem Moves.of_ready {w : Bool} (hst : v.state = .ready)
    (hm : Moves (v, .loop w) l (v', ph')) : l = replies v ∧ v' = v ∧ ph' = .user := by
  cases hm with
  | operate r hne => exact absurd hst hne
  | stop r hne => exact absurd hst hne
  | hand => exact ⟨rfl, rfl, rfl⟩

/-! ### The loop of the source makes these moves -/

theorem scBusy_iff {s : Sc} : scBusy s = true ↔ s.state ≠ .ready ∧ s.state ≠ .offline := by
  simp [scBusy, scReady, scOffline]

theorem scGetreply_spec {s : Sc} (h : s.Shows v) (hout : 0 ∉ v.out) : scGetreply s = .ok v.out :=
  (cstring_of_records h.outbuf.1).trans (congrArg _ (untilNul_of_notMem hout))

theorem scGetps1_spec {s : Sc} (h : s.Shows v) (hps1 : 0 ∉ v.ps1) : scGetps1 s = .ok v.ps1 :=
  (cstring_of_records h.ps1buf.1).trans (congrArg _ (untilNul_of_notMem hps1))

theorem putReply_spec {s : Sc} (h : s.Shows v) (hout : 0 ∉ v.out) (hps1 : 0 ∉ v.ps1) :
    putReply s = ⟨replies v, .ok ()⟩ := by
  have hrep := scGetreply_spec h hout
  have hprompt := scGetps1_spec h hps1
  have hcnt := h.outbuf.counts.cnt_eq_zero
  rw [putReply, scHasreply, hrep, hprompt, replies]
  by_cases hnil : v.out = []
  · rw [if_neg (by simp [hcnt.mpr hnil]), if_pos hnil]
    rfl
  · rw [if_pos (by simp [hcnt, hnil]), if_neg hnil]
    rfl

/-- **The loop of the source makes the moves of the loop on views.** -/
theorem step_refines {c c' : Conf} (hs : Step c l c') (hshows : c.sc.Shows v)
    (hsane : Sane v c.phase) : ∃ v', Moves (v, c.phase) l (v', c'.phase) ∧ c'.sc.Shows v' := by
  cases hs with
  | @operate s w r hbusy hfits hwoken =>
    have hst : v.state ≠ .ready := by rw [← hshows.state]; exact (scBusy_iff.mp hbusy).1
    obtain ⟨res, hop, hag⟩ := scOperate_refines hshows hfits
    generalize (scOperate r s).res = x at hag ⊢
    cases hag with
    | @ok a b hab =>
      obtain ⟨s', b₁⟩ := a
      obtain ⟨v', b₂⟩ := b
      obtain ⟨hs', rfl⟩ := hab
      have hmove := Moves.operate r hst hwoken hop
      cases b₁
      · exact ⟨v', hmove, hs'⟩
      · exact ⟨v', hmove, hs'⟩
    | error e => exact ⟨v, .stop r hst hwoken hop, hshows⟩
  | wake => exact ⟨v, .wake, hshows⟩
  -- nothing ever takes sc offline
  | offline hoff =>
    have hst : v.state = .offline := by rw [← hshows.state]; exact of_decide_eq_true hoff
    rcases hsane.state with h | h | h <;> rw [hst] at h <;> cases h
  | @hand s w hbusy hon =>
    have hready : v.state = .ready := by
      by_contra hne
      have : scBusy s = true :=
        scBusy_iff.mpr ⟨by rwa [hshows.state], of_decide_eq_false hon⟩
      rw [hbusy] at this
      cases this
    rw [putReply_spec hshows hsane.outNul hsane.ps1Nul]
    exact ⟨v, .hand hready, hshows⟩
  | write str hstr =>
    have hready := hsane.user rfl
    obtain ⟨s', hs', hshows'⟩ := scWrite_refines hshows hready (hsane.ready hready) str
    rw [hs']
    exact ⟨_, .write str hstr, hshows'⟩

/-- The state of the loop shows a sane view. -/
def Conf.Shows (c : Conf) (q : View × Phase) : Prop :=
  c.sc.Shows q.1 ∧ c.phase = q.2 ∧ Sane q.1 q.2

theorem start_shows : start.Shows (.init, .loop false) := ⟨scInit_shows, rfl, sane_init⟩

theorem Conf.Shows.sane {c : Conf} (hc : c.Shows (v, ph)) : Sane v ph := hc.2.2

theorem Conf.Shows.self {c : Conf} (hc : c.Shows (v, ph)) : c.Shows (v, c.phase) := by
  rwa [show c.phase = ph from hc.2.1]

theorem Conf.Shows.cnt {c : Conf} (hc : c.Shows (v, ph)) : c.sc.writebuf.cnt = v.wq.length :=
  hc.1.writebuf.2

theorem Conf.Shows.step {c c' : Conf} (hc : c.Shows (v, ph)) (hs : Step c l c') :
    ∃ v' ph', Moves (v, ph) l (v', ph') ∧ c'.Shows (v', ph') := by
  obtain ⟨hshows, rfl, hsane⟩ := hc
  obtain ⟨v', hmove, hshows'⟩ := step_refines hs hshows hsane
  exact ⟨v', c'.phase, hmove, hshows', rfl, hmove.sane hsane⟩

/-- **Runs of the source are runs on views.** -/
theorem run_refines {c c' : Conf} {q : View × Phase} (hc : c.Shows q) (h : Run c l c') :
    ∃ q', Runs Moves q l q' ∧ c'.Shows q' := by
  refine Runs.simulate ?_ hc h
  rintro c ⟨v, ph⟩ l c' hc hs
  obtain ⟨v', ph', hmove, hc'⟩ := hc.step hs
  exact ⟨(v', ph'), hmove, hc'⟩

/-- **Invariant rule**: what holds at the start and is kept by every move of a sane loop
holds after every run of the source. -/
theorem run_invariant {J : List Ev → View → Phase → Prop} (hinit : J [] .init (.loop false))
    (hmoves : ∀ {l v ph l' v' ph'}, Sane v ph → J l v ph → Moves (v, ph) l' (v', ph') →
      J (l ++ l') v' ph')
    {c : Conf} (h : Run start l c) : ∃ v, c.Shows (v, c.phase) ∧ J l v c.phase := by
  obtain ⟨⟨v, ph⟩, hrun, hc⟩ := run_refines start_shows h
  have hinv : Sane v ph ∧ J l v ph := by
    refine hrun.invariant (J := fun l q => Sane q.1 q.2 ∧ J l q.1 q.2) (i := []) ?_
      ⟨sane_init, hinit⟩
    rintro l ⟨v, ph⟩ l' ⟨v', ph'⟩ ⟨hs, hJ⟩ hm
    exact ⟨hm.sane hs, hmoves hs hJ hm⟩
  obtain rfl : c.phase = ph := hc.2.1
  exact ⟨v, hc, hinv.2⟩

/-! ### The loop of the source can make these moves -/

theorem fits_eagain (s : Sc) : ReadResult.eagain.Fits s := fun _ h => by cases h

/-- There is always room for one byte. -/
theorem fits_byte {s : Sc} (h : s.Shows v) (b : UInt8) : (ReadResult.bytes [b]).Fits s := by
  rintro bs ⟨⟩
  exact (readRoom_counts h.readbuf).2.2

variable {c : Conf}

theorem Conf.Shows.busy {w : Bool} {s : Sc} (hc : Conf.Shows ⟨s, .loop w⟩ (v, .loop w))
    (hst : v.state ≠ .ready) : scBusy s = true := by
  have hoff : v.state ≠ .offline := by
    rcases hc.sane.state with h | h | h <;> rw [h] <;> nofun
  exact scBusy_iff.mpr (by rw [hc.1.state]; exact ⟨hst, hoff⟩)

/-- Where the loop gets when `sc_operate` does what the relation says. -/
theorem Conf.Shows.operated {w b : Bool} {r : ReadResult} {s : Sc}
    (hc : Conf.Shows ⟨s, .loop w⟩ (v, .loop w)) (hfits : r.Fits s)
    (hop : v.Operates r l (.ok (v', b))) :
    (scOperate r s).log = l ∧
      (operated s (scOperate r s).res).Shows (v', if b then .loop false else .select) := by
  obtain ⟨s', hs', hshows'⟩ := scOperate_of_operates hc.1 hfits hop
  have hsane' := hc.sane.operates hop
  rw [hs']
  cases b
  · exact ⟨rfl, hshows', rfl, hsane'⟩
  · exact ⟨rfl, hshows', rfl, hsane'⟩

theorem Conf.Shows.operate {w b : Bool} {r : ReadResult} (hc : c.Shows (v, .loop w))
    (hst : v.state ≠ .ready) (hfits : r.Fits c.sc) (hwoken : w = true → r ≠ .eagain)
    (hop : v.Operates r l (.ok (v', b))) :
    ∃ c', Step c l c' ∧ c'.Shows (v', if b then .loop false else .select) := by
  obtain ⟨s, ph⟩ := c
  obtain rfl : ph = .loop w := hc.2.1
  obtain ⟨hl, hc'⟩ := hc.operated hfits hop
  exact ⟨_, hl ▸ Step.operate r (hc.busy hst) hfits hwoken, hc'⟩

/-- The same with nothing to read. -/
theorem Conf.Shows.operate_eagain {b : Bool} (hc : c.Shows (v, .loop false))
    (hst : v.state ≠ .ready) (hop : v.Operates .eagain l (.ok (v', b))) :
    ∃ c', Step c l c' ∧ c'.Shows (v', if b then .loop false else .select) :=
  hc.operate hst (fits_eagain c.sc) (fun h => by cases h) hop

theorem Conf.Shows.hand {w : Bool} (hc : c.Shows (v, .loop w)) (hst : v.state = .ready) :
    ∃ c', Step c (replies v) c' ∧ c'.Shows (v, .user) := by
  obtain ⟨s, ph⟩ := c
  obtain ⟨hshows, hph, hsane⟩ := hc
  obtain rfl : ph = .loop w := hph
  have hstep := Step.hand (s := s) (w := w) (by rw [scBusy, scReady, hshows.state, hst]; rfl)
    (by rw [scOffline, hshows.state, hst]; rfl)
  rw [putReply_spec hshows hsane.outNul hsane.ps1Nul] at hstep
  exact ⟨_, hstep, hshows, rfl, (Moves.hand hst).sane hsane⟩

/-- Where the loop gets when the front end delivers `str`. -/
theorem Conf.Shows.queued (hc : c.Shows (v, .user)) {str : List UInt8} (hstr : str ≠ []) :
    (scWrite str c.sc).log = [.queued str] ∧
      Step c [.queued str] (queued c.sc (scWrite str c.sc).res) ∧
      (queued c.sc (scWrite str c.sc).res).Shows
        ({ v with wq := str, state := .writing, out := [] }, .loop false) := by
  obtain ⟨s, ph⟩ := c
  obtain ⟨hshows, hph, hsane⟩ := hc
  obtain rfl : ph = .user := hph
  have hready := hsane.user rfl
  obtain ⟨s', hs', hshows'⟩ := scWrite_refines hshows hready (hsane.ready hready) str
  have hstep := Step.write (s := s) str hstr
  rw [hs'] at hstep ⊢
  exact ⟨rfl, hstep, hshows', rfl, (Moves.write str hstr).sane hsane⟩

theorem Conf.Shows.write (hc : c.Shows (v, .user)) {str : List UInt8} (hstr : str ≠ []) :
    ∃ c', Step c [.queued str] c' ∧
      c'.Shows ({ v with wq := str, state := .writing, out := [] }, .loop false) :=
  ⟨_, (hc.queued hstr).2⟩

end Swh.Core
