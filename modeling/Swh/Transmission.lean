/-
sc transmits in lock-step with the switch, and loses nothing.

* `transmission` — in every run the bytes written so far are the first of those
  that were queued; a byte is written only after the one before it was
  acknowledged, and sc becomes ready only when all were written and acknowledged.

The proof follows the log: `Awaiting` says what stands behind the last byte
written while its answer is being read, and `Acked` what stands there after it.
-/
import Swh.Answer
import Swh.InitPhase

namespace Swh

/-- Behind the last byte written the machine for it was reset, and no other since. -/
def LastByte (l : List Ev) (c : UInt8) (since : List Ev) : Prop :=
  ∃ before, l = before ++ .wrote c :: .reset (select c) :: since ∧
    (∀ c', .wrote c' ∉ since) ∧ ∀ m, .reset m ∉ since

/-- The last byte written, if any, was acknowledged: the machine that was reset
for it has taken an end-of-data step into its accepting state, with nothing left
in the read buffer. -/
def Acked (l : List Ev) : Prop :=
  (∀ c, .wrote c ∉ l) ∨ ∃ c since, LastByte l c since ∧ .eod (select c) 0 true ∈ since

/-- What must hold before an event happens. -/
def LockStep (before : List Ev) : Ev → Prop
  | .wrote c => Acked before ∧ sent before ++ [c] <+: queuedBytes before
  | .ready => Acked before ∧ sent before = queuedBytes before
  | _ => True

/-- Events that neither write nor queue a byte, and reset no machine. -/
def Ev.quiet : Ev → Bool
  | .wrote _ | .reset _ | .queued _ => false
  | _ => true

variable {l l' : List Ev} {c : UInt8} {since : List Ev}

/-! ### Quiet events change nothing -/

theorem sent_quiet (h : ∀ e ∈ l, e.quiet = true) : sent l = [] := by
  rw [sent, List.filterMap_eq_nil_iff]
  intro e he
  have := h e he
  cases e <;> first | rfl | cases this

theorem queuedBytes_quiet (h : ∀ e ∈ l, e.quiet = true) : queuedBytes l = [] := by
  rw [queuedBytes, List.flatMap_eq_nil_iff]
  intro e he
  have := h e he
  cases e <;> first | rfl | cases this

theorem notMem_quiet {e : Ev} (he : e.quiet = false) (h : ∀ e ∈ l, e.quiet = true) : e ∉ l :=
  fun hmem => by rw [h e hmem] at he; cases he

theorem LastByte.quiet (h : LastByte l c since) (hl : ∀ e ∈ l', e.quiet = true) :
    LastByte (l ++ l') c (since ++ l') := by
  obtain ⟨before, rfl, hwrote, hreset⟩ := h
  refine ⟨before, by simp, fun c' hc' => ?_, fun m hm => ?_⟩
  · rcases List.mem_append.mp hc' with hc' | hc'
    · exact hwrote c' hc'
    · exact notMem_quiet rfl hl hc'
  · rcases List.mem_append.mp hm with hm | hm
    · exact hreset m hm
    · exact notMem_quiet rfl hl hm

theorem Acked.append_quiet (h : Acked l) (hl : ∀ e ∈ l', e.quiet = true) : Acked (l ++ l') := by
  rcases h with h | ⟨c, since, hlast, hack⟩
  · refine .inl fun c hc => ?_
    rcases List.mem_append.mp hc with hc | hc
    · exact h c hc
    · exact notMem_quiet rfl hl hc
  · exact .inr ⟨c, since ++ l', hlast.quiet hl, List.mem_append_left _ hack⟩

theorem lockStep_quiet (h : EachEvent LockStep l) (hl : ∀ e ∈ l', e.quiet = true)
    (hready : .ready ∉ l') : EachEvent LockStep (l ++ l') := by
  induction l' using List.reverseRecOn with
  | nil => rwa [List.append_nil]
  | append_singleton l' e ih =>
    rw [List.mem_append, not_or, List.mem_singleton] at hready
    rw [← List.append_assoc]
    refine (ih (fun x hx => hl x (List.mem_append_left _ hx)) hready.1).concat ?_
    have hquiet := hl e (List.mem_append_right _ (List.mem_singleton_self e))
    cases e with
    | wrote c => cases hquiet
    | ready => exact absurd rfl hready.2
    | _ => trivial

/-- What is read and the reaction to it are quiet. -/
theorem quiet_fed (o : Option (List UInt8)) (g : Program) :
    (∀ e ∈ readEv o :: g.reaction, e.quiet = true) ∧ .ready ∉ readEv o :: g.reaction := by
  refine ⟨fun e he => ?_, fun he => ?_⟩
  · rcases List.mem_cons.mp he with rfl | he
    · cases o <;> rfl
    · rcases mem_reaction he with rfl | rfl <;> rfl
  · rcases List.mem_cons.mp he with he | he
    · cases o <;> cases he
    · rcases mem_reaction he with he | he <;> cases he

namespace Core

/-- While sc is busy: the current machine is the one reset for the last byte, or
the init machine if none was written. -/
def Awaiting (l : List Ev) (m : CurFsm) : Prop :=
  ((∀ c, .wrote c ∉ l) ∧ m = .init) ∨ ∃ c since, LastByte l c since ∧ m = select c

theorem Awaiting.quiet {m : CurFsm} (h : Awaiting l m) (hl : ∀ e ∈ l', e.quiet = true) :
    Awaiting (l ++ l') m := by
  rcases h with ⟨h, hm⟩ | ⟨c, since, hlast, hm⟩
  · refine .inl ⟨fun c hc => ?_, hm⟩
    rcases List.mem_append.mp hc with hc | hc
    · exact h c hc
    · exact notMem_quiet rfl hl hc
  · exact .inr ⟨c, since ++ l', hlast.quiet hl, hm⟩

/-- The end-of-data step of the current machine acknowledges the last byte. -/
theorem Awaiting.acked {m : CurFsm} (h : Awaiting l m) :
    Acked (l ++ [.eagain, .eod m 0 true]) := by
  have hquiet : ∀ e ∈ [Ev.eagain, Ev.eod m 0 true], e.quiet = true := by simp [Ev.quiet]
  rcases h with ⟨h, -⟩ | ⟨c, since, hlast, rfl⟩
  · exact Acked.append_quiet (.inl h) hquiet
  · exact .inr ⟨c, _, hlast.quiet hquiet, by simp⟩

/-- The log of a run, against the state it leads to. -/
structure Transmits (l : List Ev) (v : View) : Prop where
  queue : queuedBytes l = sent l ++ v.wq
  busy : v.state = .busy → Awaiting l v.prog.which
  acked : v.state ≠ .busy → Acked l
  steps : EachEvent LockStep l

theorem transmits_init : Transmits [] .init where
  queue := rfl
  busy _ := .inl ⟨by simp, rfl⟩
  acked h := absurd rfl h
  steps := .nil

variable {v v' : View} {ph ph' : Phase}

theorem queue_quiet (h : queuedBytes l = sent l ++ v.wq) (hl : ∀ e ∈ l', e.quiet = true) :
    queuedBytes (l ++ l') = sent (l ++ l') ++ v.wq := by
  rw [queuedBytes_append, sent_append, sent_quiet hl, queuedBytes_quiet hl, List.append_nil,
    List.append_nil, h]

/-- Quiet events in which sc keeps its queue, its state and its machine. -/
theorem Transmits.quiet (h : Transmits l v) (hl : ∀ e ∈ l', e.quiet = true)
    (hready : .ready ∉ l') (hwq : v'.wq = v.wq) (hst : v'.state = v.state)
    (hprog : v'.prog.which = v.prog.which) : Transmits (l ++ l') v' where
  queue := hwq ▸ queue_quiet h.queue hl
  busy hb := hprog ▸ (h.busy (hst ▸ hb)).quiet hl
  acked hb := (h.acked (hst ▸ hb)).append_quiet hl
  steps := lockStep_quiet h.steps hl hready

/-- What one call of `sc_operate` logs. -/
theorem Transmits.operates {r : ReadResult} {b : Bool} (h : Transmits l v)
    (hop : v.Operates r l' (.ok (v', b))) : Transmits (l ++ l') v' := by
  cases hop with
  | @write c wq hst hwq =>
    -- sc writes only when it is not busy, so the byte before was acknowledged
    have hacked := h.acked (by simp [hst])
    have hqueue := h.queue
    rw [hwq] at hqueue
    have hstep : LockStep l (.wrote c) := ⟨hacked, wq, by rw [hqueue]; simp⟩
    refine ⟨?_, fun _ => ?_, fun hb => absurd rfl hb, ?_⟩
    · rw [queuedBytes_append, sent_append, hqueue]
      simp [sent, queuedBytes]
    · exact .inr ⟨c, [], ⟨l, rfl, by simp, by simp⟩, Program.which_start _⟩
    · rw [List.append_cons]
      exact (h.steps.concat hstep).concat trivial
  | @starved o =>
    obtain ⟨hquiet, hready⟩ := quiet_fed o (.inchar .sta)
    exact h.quiet hquiet hready rfl rfl rfl
  | @fed o g rest hst hr hfeed hlt herr =>
    obtain ⟨hquiet, hready⟩ := quiet_fed o g
    exact h.quiet hquiet hready rfl rfl
      ((Program.which_settle g).trans (Program.which_feed hfeed))
  | wait => exact h.quiet (by simp [Ev.quiet]) (by simp) rfl rfl rfl
  | ack hst hr hrb hacc hwq =>
    have hquiet : ∀ e ∈ [Ev.eagain, Ev.eod v.prog.which 0 true], e.quiet = true := by
      simp [Ev.quiet]
    exact ⟨queue_quiet h.queue hquiet, nofun, fun _ => (h.busy hst).acked,
      lockStep_quiet h.steps hquiet (by simp)⟩
  | done hst hr hrb hacc hwq hout =>
    have hquiet : ∀ e ∈ [Ev.eagain, Ev.eod v.prog.which 0 true], e.quiet = true := by
      simp [Ev.quiet]
    have hlast : ∀ e ∈ [Ev.ready], e.quiet = true := by simp [Ev.quiet]
    have hacked := (h.busy hst).acked
    have hqueue := queue_quiet h.queue hquiet
    have hstep : LockStep (l ++ [Ev.eagain, .eod v.prog.which 0 true]) .ready :=
      ⟨hacked, by rw [hqueue, hwq, List.append_nil]⟩
    rw [show l ++ [Ev.eagain, .eod v.prog.which 0 true, .ready]
      = l ++ [Ev.eagain, .eod v.prog.which 0 true] ++ [.ready] by simp]
    exact ⟨queue_quiet hqueue hlast, nofun, fun _ => hacked.append_quiet hlast,
      (lockStep_quiet h.steps hquiet (by simp)).concat hstep⟩

/-- What a call that stops has logged before. -/
theorem Transmits.stops {r : ReadResult} {e : Stop} (h : Transmits l v)
    (hop : v.Operates r l' (.error e)) : Transmits (l ++ l') v := by
  have hquiet : (∀ e ∈ l', e.quiet = true) ∧ .ready ∉ l' := by
    cases hop with
    | @malformed o => exact quiet_fed o (.inchar .sta)
    | @fsmError o g => exact quiet_fed o g
    | meh => exact ⟨by simp [Ev.quiet], by simp⟩
    | outbufNotEmpty => exact ⟨by simp [Ev.quiet], by simp⟩
    | _ => exact ⟨by simp, by simp⟩
  exact h.quiet hquiet.1 hquiet.2 rfl rfl rfl

theorem Transmits.moves (hsane : Sane v ph) (h : Transmits l v)
    (hm : Moves (v, ph) l' (v', ph')) : Transmits (l ++ l') v' := by
  cases hm with
  | operate r hst hwoken hop => exact h.operates hop
  | stop r hst hwoken hop => exact h.stops hop
  | wake => rwa [List.append_nil]
  | hand hst =>
    refine h.quiet (fun e he => ?_) (fun he => ?_) rfl rfl rfl
    · rw [replies] at he
      split at he
      · rw [List.mem_singleton.mp he]; rfl
      · rcases List.mem_pair.mp he with rfl | rfl <;> rfl
    · rw [replies] at he
      split at he
      · cases List.mem_singleton.mp he
      · rcases List.mem_pair.mp he with he | he <;> cases he
  | write str hstr =>
    have hst := hsane.user rfl
    have hqueue := h.queue
    rw [hsane.ready hst, List.append_nil] at hqueue
    have hacked := h.acked (by simp [hst])
    refine ⟨?_, by simp, fun _ => ?_, h.steps.concat trivial⟩
    · rw [queuedBytes_append, sent_append, hqueue]
      simp [sent, queuedBytes]
    · rcases hacked with hnone | ⟨c, since, ⟨before, rfl, hwrote, hreset⟩, hack⟩
      · exact .inl (by simpa using hnone)
      · exact .inr ⟨c, since ++ [.queued str], ⟨before, by simp, by simpa using hwrote,
          by simpa using hreset⟩, by simp [hack]⟩

theorem run_transmits {c : Conf} (h : Run start l c) :
    ∃ v, c.Shows (v, c.phase) ∧ Transmits l v :=
  run_invariant (J := fun l v _ => Transmits l v) transmits_init
    (fun hsane ht hm => ht.moves hsane hm) h

/-- Every moment of the run: what was sent is the beginning of what was queued. -/
theorem sent_prefix_of_lockStep (h : EachEvent LockStep l) : sent l <+: queuedBytes l := by
  -- on the last event, since each one is guarded by those before it
  induction l using List.reverseRecOn with
  | nil => exact List.prefix_refl _
  | append_singleton l e ih =>
    have hl : EachEvent LockStep l := fun before x after heq =>
      h before x (after ++ [e]) (by rw [heq]; simp)
    have hlast := h l e [] rfl
    rw [sent_append, queuedBytes_append]
    cases e with
    | wrote c => simpa [queuedBytes, sent] using hlast.2
    | queued str => simpa [sent, queuedBytes] using (ih hl).trans (List.prefix_append _ str)
    | _ => simpa [sent, queuedBytes] using ih hl

/-- **Lock-step, loss-free transmission.**  At every moment of every run the bytes
written are a prefix of those queued; before each of them, and before sc becomes
ready, the byte before was acknowledged; and sc becomes ready with none left. -/
theorem transmission {c : Conf} (h : Run start l c) :
    (∀ m, m <+: l → sent m <+: queuedBytes m) ∧ EachEvent LockStep l := by
  obtain ⟨v, -, ht⟩ := run_transmits h
  refine ⟨fun m hm => sent_prefix_of_lockStep ?_, ht.steps⟩
  obtain ⟨rest, rfl⟩ := hm
  exact fun before e after heq => ht.steps before e (after ++ rest) (by rw [heq]; simp)

theorem prefix_greeting (st : Init.St) : Init.greeting st <+: 0x78 :: REPORT := by
  cases st <;> decide

/-- The bytes that are written are the key, the report and those that were queued. -/
theorem run_written {c : Conf} (h : Run start l c) (hlive : ∀ e, c.phase ≠ .stopped e) :
    written l <+: 0x78 :: REPORT ++ queuedBytes l ∧
      (c.sc.state = .ready → written l = 0x78 :: REPORT ++ queuedBytes l) := by
  obtain ⟨v, hshows, ho⟩ := run_opens h
  obtain ⟨v', hshows', ht⟩ := run_transmits h
  have hsent : sent l <+: queuedBytes l := sent_prefix_of_lockStep ht.steps
  by_cases hopening : v.prog.which = .init ∧ v.state = .busy
  · -- nothing was sent yet, and of the greeting perhaps not all
    obtain ⟨q, st, P, -, -, -, -, hcount⟩ := ho.busy hlive hopening.1 hopening.2
    refine ⟨?_, fun hready => ?_⟩
    · rw [hcount.bytes]
      exact (prefix_greeting st).trans (List.prefix_append _ _)
    · rw [hshows.1.state, hopening.2] at hready
      cases hready
  · have hgreeted : Greeted l := by
      by_cases hinit : v.prog.which = .init
      · obtain ⟨P, -, -, -, -, -, hcount⟩ := ho.done hinit fun hst => hopening ⟨hinit, hst⟩
        exact hcount.greeted
      · exact ho.later hinit
    have hwritten : written l = 0x78 :: REPORT ++ sent l := hgreeted.bytes
    refine ⟨hwritten ▸ (List.prefix_append_right_inj _).mpr hsent, fun hready => ?_⟩
    rw [hshows'.1.state] at hready
    rw [hwritten, ht.queue, hshows'.sane.ready hready, List.append_nil]

/-- A line of two bytes is sent, the second one behind the echo of the first. -/
theorem transmission_line : ∃ l c, Run start l c ∧ sent l = [97, NEWLINE] ∧
    c.sc.state = .ready ∧ (∀ m, m <+: l → sent m <+: queuedBytes m) ∧ EachEvent LockStep l := by
  obtain ⟨c₁, hrun₁, hc₁⟩ := run_answered [97, NEWLINE] isChat_x (by decide) (by decide)
  obtain ⟨c₂, v₂, hrun₂, hc₂, hwq₂, hst₂, -⟩ := hc₁.exchange rfl rfl
    (isEcho_char (x := 97) (by decide)).completes
  obtain ⟨c₃, v₃, hrun₃, hc₃, -, hst₃, -⟩ :=
    hc₂.exchange hst₂ hwq₂ (isPrompt_x.completes (by decide))
  have hrun := (hrun₁.trans hrun₂).trans hrun₃
  exact ⟨_, c₃, hrun, rfl, hc₃.1.state.trans hst₃, transmission hrun⟩

end Core

end Swh
