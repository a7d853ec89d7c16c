/-
What sc forgets.

When it is the user's turn, nothing that was said before matters any more: not the
answers, not the prompts, not what the machines have recorded.  Only the read buffer may
have become larger, so that more can be read at once.

* `Like.operates`, `Alike.step` — what is different is written before it is read again;
* `history` — two runs that have come to the user's turn go on in the same ways.
-/
import Swh.Memory

namespace Swh

/-- What a call of `sc_operate` that returns does to the size of the read buffer. -/
theorem size_scOperate {s s' : Sc} {r : ReadResult} {b : Bool}
    (h : (scOperate r s).res = .ok (s', b)) : s'.readbuf.mem.size =
      if s.state = .busy then (readRoom s).mem.size else s.readbuf.mem.size := by
  rcases scOperate_sizes h with ⟨hst, hkeeps⟩ | ⟨hst, hkeeps | hfills⟩
  · rw [if_neg (by simp [hst])]
    exact hkeeps.readbuf
  · rw [if_pos hst]
    exact hkeeps.readbuf
  · rw [if_pos hst]
    exact hfills.readbuf

/-- A call that the relation ends. -/
theorem scOperate_of_error {s : Sc} {v : View} {r : ReadResult} {l : List Ev} {e : Stop}
    (h : s.Shows v) (hr : r.Fits s) (hop : v.Operates r l (.error e)) :
    scOperate r s = ⟨l, .error e⟩ := by
  obtain ⟨res, hop', hag⟩ := scOperate_refines h hr
  obtain ⟨hl, rfl⟩ := hop.unique hop'
  have hres : (scOperate r s).res = .error e := by
    generalize (scOperate r s).res = x at hag
    cases hag
    rfl
  exact Logged.ext hl.symm hres

/-- The read buffer of `s'` is that of `s`, or larger by as many doublings as it takes. -/
def Roomier (s s' : Sc) : Prop := ∃ k, s'.readbuf.mem.size = s.readbuf.mem.size * 2 ^ k

theorem Roomier.readRoom {s s' : Sc} (h : Roomier s s') (hcnt : s'.readbuf.cnt = s.readbuf.cnt) :
    ∃ k, (readRoom s').mem.size = (readRoom s).mem.size * 2 ^ k := by
  obtain ⟨k, hk⟩ := h
  rw [size_readRoom, size_readRoom, hcnt]
  by_cases hfull : s.readbuf.mem.size ≤ s.readbuf.cnt
  · rw [if_pos hfull]
    by_cases hfull' : s'.readbuf.mem.size ≤ s.readbuf.cnt
    · exact ⟨k, by rw [if_pos hfull', hk, Nat.mul_right_comm]⟩
    · -- it is not full, so it is larger to begin with
      rw [if_neg hfull', hk]
      cases k with
      | zero =>
        rw [pow_zero, mul_one] at hk
        exact absurd (hk ▸ hfull) hfull'
      | succ k => exact ⟨k, by rw [pow_succ', mul_assoc]⟩
  · rw [if_neg hfull, if_neg, hk]
    · exact ⟨k, rfl⟩
    · have := Nat.le_mul_of_pos_right s.readbuf.mem.size (Nat.two_pow_pos k)
      omega

theorem Roomier.fits {s s' : Sc} {r : ReadResult} (h : Roomier s s')
    (hcnt : s'.readbuf.cnt = s.readbuf.cnt) (hr : r.Fits s) : r.Fits s' := by
  obtain ⟨k, hk⟩ := h.readRoom hcnt
  have hle := Nat.le_mul_of_pos_right (Swh.readRoom s).mem.size (Nat.two_pow_pos k)
  intro bs hbs
  have := hr bs hbs
  rw [hcnt, hk]
  omega

theorem Roomier.operates {s s₁ s' s₁' : Sc} {r : ReadResult} {b : Bool} (h : Roomier s s')
    (hcnt : s'.readbuf.cnt = s.readbuf.cnt) (hst : s'.state = s.state)
    (hs : (scOperate r s).res = .ok (s₁, b)) (hs' : (scOperate r s').res = .ok (s₁', b)) :
    Roomier s₁ s₁' := by
  obtain ⟨k, hk⟩ := h.readRoom hcnt
  rw [Roomier, size_scOperate hs, size_scOperate hs', hst]
  split
  · exact ⟨k, hk⟩
  · exact h

namespace Core

/-- The views differ only in what will be written before it is read again. -/
structure Like (v v' : View) (ph : Phase) : Prop where
  nodataflag : v'.nodataflag = v.nodataflag
  state : v'.state = v.state
  rb : v'.rb = v.rb
  wq : v'.wq = v.wq
  /-- The machine is reset before it is fed. -/
  prog : v.state = .busy → v'.prog = v.prog
  /-- The texts are fetched before they are handed over. -/
  texts : v.state = .ready → ph ≠ .user → v'.out = v.out ∧ v'.ps1 = v.ps1

variable {v v₁ v' : View} {ph ph' : Phase} {l : List Ev}

theorem Like.data (h : Like v v' ph) (o : Option (List UInt8)) : v'.data o = v.data o := by
  rw [View.data, View.data, h.rb]

/-- A call of `sc_operate` does the same to both. -/
theorem Like.operates {w b : Bool} {r : ReadResult} (h : Like v v' (.loop w))
    (hsane' : Sane v' (.loop w)) (hop : v.Operates r l (.ok (v₁, b))) :
    ∃ v₁', v'.Operates r l (.ok (v₁', b)) ∧
      Like v₁ v₁' (if b then .loop false else .select) := by
  have hflag := h.nodataflag
  have hstate := h.state
  have hrb := h.rb
  have hwq := h.wq
  cases hop with
  | write hst hc =>
    exact ⟨_, .write (hstate.trans hst) (hwq.trans hc), hflag, rfl, hrb, rfl, fun _ => rfl, nofun⟩
  | starved hst hr hd hfeed =>
    have hprog := h.prog hst
    refine ⟨_, .starved (hstate.trans hst) hr (by rwa [h.data]) (by rwa [hprog, h.data]), rfl,
      hstate, h.data _, hwq, fun _ => hprog, fun hready => ?_⟩
    cases hst.symm.trans hready
  | fed hst hr hfeed hlt herr =>
    have hprog := h.prog hst
    refine ⟨_, .fed (hstate.trans hst) hr (by rwa [hprog, h.data]) (by rwa [h.data]) herr, rfl,
      hstate, rfl, hwq, fun _ => rfl, fun hready => ?_⟩
    cases hst.symm.trans hready
  | wait hst hr hnil hacc hno =>
    have hprog := h.prog hst
    refine ⟨_, .wait (hstate.trans hst) hr (hrb.trans hnil) (by rwa [hprog]) (hflag.trans hno),
      rfl, hstate, hrb, hwq, fun _ => hprog, fun hready => ?_⟩
    cases hst.symm.trans hready
  | ack hst hr hnil hacc hne =>
    have hprog := h.prog hst
    have hop' := View.Operates.ack (v := v') (r := r) (hstate.trans hst) hr (hrb.trans hnil)
      (by rwa [hprog]) (by rwa [hwq])
    rw [hprog] at hop'
    exact ⟨_, hop', hflag, rfl, hrb, hwq, nofun, nofun⟩
  | done hst hr hnil hacc hno hout =>
    have hprog := h.prog hst
    have hop' := View.Operates.done (v := v') (r := r) (hstate.trans hst) hr (hrb.trans hnil)
      (by rwa [hprog]) (hwq.trans hno) (hsane'.out (by simp [hstate, hst]))
    rw [hprog] at hop'
    exact ⟨_, hop', hflag, rfl, hrb, hwq, nofun, fun _ _ => ⟨rfl, rfl⟩⟩

/-- And stops in the same way. -/
theorem Like.stops {w : Bool} {r : ReadResult} {e : Stop} (h : Like v v' (.loop w))
    (hsane : Sane v (.loop w)) (hop : v.Operates r l (.error e)) :
    v'.Operates r l (.error e) := by
  have hstate := h.state
  cases hop with
  | noNewline hst hnil => exact .noNewline (hstate.trans hst) (h.wq.trans hnil)
  | ready hst => exact .ready (hstate.trans hst)
  | offline hst => exact .offline (hstate.trans hst)
  | invalid hst => exact .invalid (hstate.trans hst)
  | readFails hst hr => exact .readFails (hstate.trans hst) hr
  | malformed hst hr hd hfeed =>
    exact .malformed (hstate.trans hst) hr (by rwa [h.data]) (by rwa [h.prog hst, h.data])
  | fsmError hst hr hfeed hlt herr =>
    exact .fsmError (hstate.trans hst) hr (by rwa [h.prog hst, h.data]) (by rwa [h.data]) herr
  | meh hst hr hnil hacc hflag =>
    exact .meh (hstate.trans hst) hr (h.rb.trans hnil) (by rwa [h.prog hst])
      (h.nodataflag.trans hflag)
  | outbufNotEmpty hst hr hnil hacc hwq hout => exact absurd (hsane.out (by simp [hst])) hout

/-! ### Runs -/

/-- Both loops stand at the same place, with views that differ only in what does not
matter. -/
structure Alike (c c' : Conf) : Prop where
  phase : c'.phase = c.phase
  room : Roomier c.sc c'.sc
  views : ∃ v v', c.Shows (v, c.phase) ∧ c'.Shows (v', c.phase) ∧ Like v v' c.phase

theorem operated_ok (s s' : Sc) (b : Bool) :
    operated s (.ok (s', b)) = ⟨s', if b then .loop false else .select⟩ := by
  cases b <;> rfl

theorem readbuf_queued (str : List UInt8) (s : Sc) :
    (queued s (scWrite str s).res).sc.readbuf = s.readbuf := by
  rcases h : (scWrite str s).res with e | s'
  · rfl
  · exact (scWrite_sizes h).1

variable {s s' : Sc} {w : Bool} {c c' c₁ : Conf}

/-- A call of `sc_operate`. -/
theorem Alike.operate {r : ReadResult} (hc : Conf.Shows ⟨s, .loop w⟩ (v, .loop w))
    (hc' : Conf.Shows ⟨s', .loop w⟩ (v', .loop w)) (hlike : Like v v' (.loop w))
    (hroom : Roomier s s') (hready : v.state ≠ .ready) (hfits : r.Fits s) :
    r.Fits s' ∧ (scOperate r s').log = (scOperate r s).log ∧
      Alike (operated s (scOperate r s).res) (operated s' (scOperate r s').res) := by
  have hcnt : s'.readbuf.cnt = s.readbuf.cnt := by
    rw [hc.1.readbuf.2, hc'.1.readbuf.2, hlike.rb]
  have hst : s'.state = s.state := by
    rw [hc.1.state, hc'.1.state, hlike.state]
  have hfits' := hroom.fits hcnt hfits
  refine ⟨hfits', ?_⟩
  obtain ⟨res, hop, hag⟩ := scOperate_refines hc.1 hfits
  rcases hres : (scOperate r s).res with e | ⟨s₁, b⟩
  · rw [hres] at hag
    cases hag
    rw [scOperate_of_error hc'.1 hfits' (hlike.stops hc.sane hop)]
    exact ⟨rfl, rfl, hroom, v, v', ⟨hc.1, rfl, hc.sane.stops e⟩,
      ⟨hc'.1, rfl, hc'.sane.stops e⟩, { hlike with texts := fun h => absurd h hready }⟩
  · rw [hres] at hag
    obtain ⟨⟨v₁, b'⟩, rfl, hs₁, hb⟩ := hag.exists_ok_right
    dsimp only at hs₁ hb
    subst hb
    obtain ⟨v₁', hop', hlike'⟩ := hlike.operates hc'.sane hop
    obtain ⟨s₁', hres', hs₁'⟩ := scOperate_of_operates hc'.1 hfits' hop'
    rw [hres', operated_ok, operated_ok]
    exact ⟨rfl, rfl, hroom.operates hcnt hst hres (by rw [hres']), v₁, v₁',
      ⟨hs₁, rfl, hc.sane.operates hop⟩, ⟨hs₁', rfl, hc'.sane.operates hop'⟩, hlike'⟩

/-- The texts are handed over. -/
theorem Alike.hand (hc : Conf.Shows ⟨s, .loop w⟩ (v, .loop w))
    (hc' : Conf.Shows ⟨s', .loop w⟩ (v', .loop w)) (hlike : Like v v' (.loop w))
    (hroom : Roomier s s') (hready : v.state = .ready) :
    (putReply s').log = (putReply s).log ∧
      Alike (handed s (putReply s).res) (handed s' (putReply s').res) := by
  have hready' : v'.state = .ready := hlike.state.trans hready
  obtain ⟨hout, hps1⟩ := hlike.texts hready nofun
  rw [putReply_spec hc.1 hc.sane.outNul hc.sane.ps1Nul,
    putReply_spec hc'.1 hc'.sane.outNul hc'.sane.ps1Nul]
  refine ⟨by rw [replies, replies, hout, hps1], rfl, hroom, v, v', ⟨hc.1, rfl, ?_⟩,
    ⟨hc'.1, rfl, ?_⟩, { hlike with texts := fun _ h => absurd rfl h }⟩
  · exact (Moves.hand hready).sane hc.sane
  · exact (Moves.hand hready').sane hc'.sane

/-- **What one loop does the other can do as well.** -/
theorem Alike.step {l : List Ev} (h : Alike c c') (hs : Step c l c₁) :
    ∃ c₁', Step c' l c₁' ∧ Alike c₁ c₁' := by
  obtain ⟨s', ph⟩ := c'
  obtain ⟨hph, hroom, v, v', hc, hc', hlike⟩ := h
  dsimp only at hph hroom
  subst hph
  have hst : s'.state = c.sc.state := by
    rw [hc.1.state, hc'.1.state, hlike.state]
  cases hs with
  | @operate s w r hbusy hfits hwoken =>
    have hready : v.state ≠ .ready := by
      rw [← hc.1.state]
      exact (scBusy_iff.mp hbusy).1
    obtain ⟨hfits', hlog, halike⟩ := Alike.operate hc hc' hlike hroom hready hfits
    refine ⟨_, hlog ▸ Step.operate r ?_ hfits' hwoken, halike⟩
    rw [scBusy_iff, hst]
    exact scBusy_iff.mp hbusy
  | wake =>
    exact ⟨_, .wake, rfl, hroom, v, v', ⟨hc.1, rfl, Moves.wake.sane hc.sane⟩,
      ⟨hc'.1, rfl, Moves.wake.sane hc'.sane⟩,
      { hlike with texts := fun h _ => hlike.texts h (by simp) }⟩
  | @offline s w hoff =>
    have hoff' : scOffline s = true := hoff
    rw [scOffline, ← hst] at hoff
    have hstop := Sane.stops hc.sane (.panic .scOffline)
    have hstop' := Sane.stops hc'.sane (.panic .scOffline)
    refine ⟨_, .offline hoff, rfl, hroom, v, v', ⟨hc.1, rfl, hstop⟩, ⟨hc'.1, rfl, hstop'⟩,
      { hlike with texts := fun h _ => hlike.texts h (by simp) }⟩
  | @hand s w hbusy hon =>
    have hready : v.state = .ready := by
      by_contra hne
      rw [scBusy_iff.mpr ⟨by rwa [hc.1.state], of_decide_eq_false hon⟩] at hbusy
      cases hbusy
    obtain ⟨hlog, halike⟩ := Alike.hand hc hc' hlike hroom hready
    refine ⟨_, hlog ▸ Step.hand ?_ ?_, halike⟩
    · rwa [scBusy, scReady, scOffline, hst]
    · rwa [scOffline, hst]
  | @write s str hstr =>
    obtain ⟨hlog, -, hshows⟩ := hc.queued hstr
    obtain ⟨hlog', hstep', hshows'⟩ := hc'.queued hstr
    refine ⟨_, hlog ▸ hstep', ?_, ?_, { v with wq := str, state := .writing, out := [] },
      { v' with wq := str, state := .writing, out := [] }, hshows.self, ?_, ?_⟩
    · rw [hshows.2.1, hshows'.2.1]
    · rw [Roomier, readbuf_queued, readbuf_queued]
      exact hroom
    · rw [hshows.2.1]
      exact hshows'
    · exact ⟨hlike.nodataflag, rfl, hlike.rb, rfl, (fun h => by cases h),
        (fun h => by cases h)⟩

/-- At the user's turn all views are alike. -/
theorem alike_of_user {l l' : List Ev} (h : Run start l c) (h' : Run start l' c')
    (hu : c.phase = .user) (hu' : c'.phase = .user)
    (hroom : c.sc.readbuf.mem.size ≤ c'.sc.readbuf.mem.size) : Alike c c' := by
  obtain ⟨v, hc, -⟩ := run_opens h
  obtain ⟨v', hc', -⟩ := run_opens h'
  rw [hu] at hc
  rw [hu'] at hc'
  have hready := hc.sane.user rfl
  have hready' := hc'.sane.user rfl
  refine ⟨hu'.trans hu.symm, ?_, v, v', by rwa [hu], by rwa [hu],
    ⟨?_, hready'.trans hready.symm, ?_, ?_, ?_, ?_⟩⟩
  · -- both sizes are powers of two times the first one
    obtain ⟨j, hj⟩ := (run_doubled h).readbuf
    obtain ⟨k, hk⟩ := (run_doubled h').readbuf
    rw [hj, hk] at hroom
    have hjk : j ≤ k := (Nat.pow_le_pow_iff_right (by decide)).mp
      (Nat.le_of_mul_le_mul_left hroom scInit.readbuf.mem.size_pos)
    exact ⟨k - j, by rw [hk, hj, mul_assoc, ← pow_add, Nat.add_sub_cancel' hjk]⟩
  · rw [hc.sane.not_flag_of_idle (by simp [hready]), hc'.sane.not_flag_of_idle (by simp [hready'])]
  · rw [hc.sane.rb (by simp [hready]), hc'.sane.rb (by simp [hready'])]
  · rw [hc.sane.ready hready, hc'.sane.ready hready']
  · exact fun hbusy => by cases hready.symm.trans hbusy
  · exact fun _ hne => absurd hu hne

/-- **At the user's turn the past is forgotten.**  Whatever was said in two runs up to
there: what can happen behind the one can happen behind the other as well, event by
event, if the read buffer there is not smaller. -/
theorem history {l₁ l₂ l : List Ev} {c₂ : Conf} (h₁ : Run start l₁ c₁) (h₂ : Run start l₂ c₂)
    (hu₁ : c₁.phase = .user) (hu₂ : c₂.phase = .user)
    (hroom : c₁.sc.readbuf.mem.size ≤ c₂.sc.readbuf.mem.size) (h : Run c₁ l c) :
    ∃ c', Run c₂ l c' ∧ c'.phase = c.phase ∧ c'.sc.state = c.sc.state := by
  obtain ⟨c', hrun, halike⟩ := Runs.simulate (fun c c' l c₁ => Alike.step)
    (alike_of_user h₁ h₂ hu₁ hu₂ hroom) h
  obtain ⟨v, v', hc, hc', hlike⟩ := halike.views
  exact ⟨c', hrun, halike.phase, by rw [hc.1.state, hc'.1.state, hlike.state]⟩

/-- Two chats with different prompts, and an empty line behind both. -/
theorem history_newline : ∃ l₁ l₂ c₁ c₂, Run start l₁ c₁ ∧ Run start l₂ c₂ ∧
    puts l₁ ≠ puts l₂ ∧ (∃ c, Run c₁ [.queued [NEWLINE]] c) ∧
    ∃ c', Run c₂ [.queued [NEWLINE]] c' ∧ c'.sc.state = .writing := by
  have he : Eseqs [Ansiseq.ESC, 65] := .one rfl
  have ht : Plain [120] := .one (by decide)
  have hchat : IsChat [120, Ansiseq.ESC, 65, 120, Ansiseq.ESC, 65, 120, Ansiseq.ESC, 65, 37,
      Ansiseq.ESC, 65] [37] :=
    ⟨[120], _, [120], _, [120], _, _, ht, he, ht, he, ht, he, .one (by decide), he, rfl⟩
  obtain ⟨a₁, hrun₁, ha₁⟩ := run_chat isChat_x (by decide)
  obtain ⟨a₂, hrun₂, ha₂⟩ := run_chat hchat (by decide)
  obtain ⟨b₁, hs₁, hb₁⟩ := ha₁.hand rfl
  obtain ⟨b₂, hs₂, hb₂⟩ := ha₂.hand rfl
  obtain ⟨d₁, hw₁, hd₁⟩ := hb₁.write (List.cons_ne_nil NEWLINE [])
  obtain ⟨d₂, hw₂, hd₂⟩ := hb₂.write (List.cons_ne_nil NEWLINE [])
  have h₁ := hrun₁.snoc hs₁
  have h₂ := hrun₂.snoc hs₂
  rcases le_total b₁.sc.readbuf.mem.size b₂.sc.readbuf.mem.size with hle | hle
  · obtain ⟨c', hrun, -, hst⟩ := history h₁ h₂ hb₁.2.1 hb₂.2.1 hle (.single hw₁)
    exact ⟨_, _, b₁, b₂, h₁, h₂, by decide, ⟨d₁, .single hw₁⟩, c', hrun,
      hst.trans hd₁.1.state⟩
  · obtain ⟨c', hrun, -, hst⟩ := history h₂ h₁ hb₂.2.1 hb₁.2.1 hle (.single hw₂)
    exact ⟨_, _, b₂, b₁, h₂, h₁, by decide, ⟨d₂, .single hw₂⟩, c', hrun,
      hst.trans hd₂.1.state⟩

end Core

end Swh
