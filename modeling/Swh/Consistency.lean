/-
The complaints of sc about its own state are unreachable.

sc checks in eight places that it is used as it was meant to be.  In no run of the
main loop, whatever the switch sends and however it is cut into reads, does one
of these checks fail (`consistency`).
-/
import Swh.InitPhase

namespace Swh

/-- The panics that stand for an inconsistency in swh itself. -/
def Panic.ofConsistency : Panic → Bool
  | .operateReady | .operateOffline | .invalidState _ | .writeOutsideReady | .writebufNotEmpty
  | .noNewline | .outbufNotEmpty | .meh => true
  | _ => false

/-- What the variables of sc have in common in all states. -/
structure Consistent (s : Sc) : Prop where
  writing : s.state = .writing → 0 < s.writebuf.cnt
  ready : s.state = .ready → s.writebuf.cnt = 0
  outbuf : s.state ≠ .ready → s.outbuf.cnt = 0
  /-- The machine does not accept the end of data: the probe says so. -/
  nodataflag : s.nodataflag = true →
    s.state = .busy ∧ s.readbuf.cnt = 0 ∧ curFeedNull s 0 = pure (s, 0)

namespace Core

variable {v : View} {ph : Phase} {l : List Ev} {c : Conf}

theorem Sane.consistent {s : Sc} (h : Sane v ph) (hs : s.Shows v) : Consistent s where
  writing hst := by
    rw [hs.state] at hst
    exact Nat.pos_of_ne_zero fun h0 => h.writing hst (hs.writebuf.cnt_eq_zero.mp h0)
  ready hst := by
    rw [hs.state] at hst
    exact hs.writebuf.cnt_eq_zero.mpr (h.ready hst)
  outbuf hst := by
    rw [hs.state] at hst
    exact hs.outbuf.counts.cnt_eq_zero.mpr (h.out hst)
  nodataflag hflag := by
    rw [hs.nodataflag] at hflag
    obtain ⟨hst, hrb, hacc⟩ := h.flag hflag
    refine ⟨by rw [hs.state, hst], hs.readbuf.cnt_eq_zero.mpr hrb, ?_⟩
    rw [curFeedNull_probe hs, hacc]
    rfl

/-- The loop may stop for what the switch sent, but not for a state of sc. -/
def Excused : Phase → Prop
  | .stopped (.panic e) => e.ofConsistency = false
  | _ => True

theorem Moves.excused {v' : View} {ph' : Phase} (hsane : Sane v ph) (hex : Excused ph)
    (h : Moves (v, ph) l (v', ph')) : Excused ph' := by
  cases h with
  | @operate _ _ w b => cases b <;> trivial
  | wake => trivial
  | hand => trivial
  | write => trivial
  | @stop _ w _ e r hst hwoken hop =>
    -- what the switch sent may stop the loop; the other stops contradict `Sane`
    cases hop with
    | noNewline hst hwq => exact absurd hwq (hsane.writing hst)
    | ready hst' => exact absurd hst' hst
    | offline hst' =>
      rcases hsane.state with h | h | h <;> rw [hst'] at h <;> cases h
    | invalid hst' =>
      rcases hsane.state with h | h | h <;> rw [hst'] at h <;> cases h
    | readFails hst' hr =>
      rcases r with (_ | ⟨c, cs⟩) | _ | _ <;> cases hr <;> rfl
    | malformed hst' hr hd hfeed =>
      rcases Program.feed_error_cases hfeed with ⟨f, rfl⟩ | ⟨c, k, s, rfl⟩
      · trivial
      · rfl
    | fsmError => rfl
    -- twice without data, which `selectfd` rules out
    | meh hst' hr hrb hacc hflag =>
      rw [hsane.not_flag hwoken hr] at hflag
      cases hflag
    | outbufNotEmpty hst' hr hrb hacc hwq hout =>
      exact absurd (hsane.out hst) hout

/-- **The consistency panics are unreachable**, and the variables of sc are
consistent in every reachable state. -/
theorem consistency (h : Run start l c) :
    (∀ e, c.phase = .stopped (.panic e) → e.ofConsistency = false) ∧ Consistent c.sc := by
  obtain ⟨v, ⟨hshows, -, hsane⟩, hex⟩ := run_invariant (J := fun _ _ ph => Excused ph) trivial
    (fun hsane hex hm => hm.excused hsane hex) h
  refine ⟨fun e he => ?_, hsane.consistent hshows⟩
  rw [he] at hex
  exact hex

/-- sc is ready behind the opening chat, and writes when the user has answered. -/
theorem consistency_chat :
    (∃ l c, Run start l c ∧ c.sc.state = .ready ∧
      (∀ e, c.phase = .stopped (.panic e) → e.ofConsistency = false) ∧ Consistent c.sc) ∧
    ∃ l c, Run start l c ∧ c.sc.state = .writing ∧
      (∀ e, c.phase = .stopped (.panic e) → e.ofConsistency = false) ∧ Consistent c.sc := by
  obtain ⟨c₁, hrun₁, hc₁⟩ := run_chat isChat_x (by decide)
  obtain ⟨c₂, hrun₂, hc₂⟩ :=
    run_answered [97, NEWLINE] isChat_x (by decide) (by decide)
  exact ⟨⟨_, c₁, hrun₁, hc₁.1.state, consistency hrun₁⟩,
    _, c₂, hrun₂, hc₂.1.state, consistency hrun₂⟩

end Core

end Swh
