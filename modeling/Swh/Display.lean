/-
What the user gets to see.

The texts that sc records are bytes of the switch, in the order in which they
came.  `Displays` follows them from the read buffer through the recorders to the
front end.

* `Program.texts_feed` — a feed adds plain bytes of what it reads to the texts, in order;
* `display` — in every run, what is handed to the front end can be read off what
  the switch sent by leaving bytes out; the escape character and NUL are left out.
-/
import Swh.InitPhase
import Swh.Answer

namespace Swh

open Ansiseq (ESC)

/-! ### What a program has recorded -/

namespace Program

/-- Output and prompt, as they will be shown. -/
def texts (g : Program) : List UInt8 := g.outText ++ g.ps1Text

/-- As long as output is recorded there is no prompt yet. -/
def Ordered : Program → Prop
  | cmdout st x => st = .sta ∨ st = .cm1 ∨ st = .out ∨ st = .cm2 → x.ps1 = []
  | _ => True

variable {g g' : Program} {d r : List UInt8}

theorem ordered_start (m : CurFsm) : (start m).Ordered := by
  cases m with
  | init => trivial
  | cmdout => exact fun _ => rfl
  | inchar => trivial

@[simp] theorem texts_start (m : CurFsm) : (start m).texts = [] := by
  cases m <;> rfl

@[simp] theorem texts_settle (g : Program) : g.settle.texts = g.texts := by
  cases g <;> rfl

theorem Ordered.settle (h : g.Ordered) : g.settle.Ordered := by
  cases g <;> exact h

/-- An escape sequence is not recorded. -/
theorem texts_eseq (h : g.Ordered) (c : Option UInt8) :
    (g.take .eseq c).Ordered ∧ (g.take .eseq c).texts = g.texts := by
  rcases g with ⟨st, x⟩ | ⟨st, x⟩ | st
  · cases st <;> exact ⟨trivial, rfl⟩
  · cases st <;> exact ⟨fun _ => h (by simp_all [Cmdout.delta, row]), rfl⟩
  · exact ⟨trivial, rfl⟩

/-- A plain byte is recorded behind what there is, or not at all. -/
theorem texts_rest (h : g.Ordered) (c : UInt8) : (g.take .rest (some c)).Ordered ∧
    ((g.take .rest (some c)).texts = g.texts ∨ (g.take .rest (some c)).texts = g.texts ++ [c]) := by
  rcases g with ⟨st, x⟩ | ⟨st, ⟨out, ps1⟩⟩ | st
  · cases st <;> first | exact ⟨trivial, .inl rfl⟩ | exact ⟨trivial, .inr rfl⟩
  · cases st with
    | cm1 | out =>
      obtain rfl : ps1 = [] := h (by simp)
      exact ⟨fun _ => rfl, .inr (by simp [texts, take, outText, ps1Text, Cmdout.delta, row,
        Cmdout.Text.act, charOf])⟩
    | cm2 | ps1 =>
      refine ⟨fun hst => ?_, .inr (List.append_assoc _ _ _).symm⟩
      simp [Cmdout.delta, row] at hst
    | sta | cm3 | fin | err =>
      refine ⟨fun hst => ?_, .inl rfl⟩
      simp [Cmdout.delta, row] at hst
  · exact ⟨trivial, .inl rfl⟩

/-- **A feed records plain bytes of what it consumes**, in order. -/
theorem texts_feed (hg : g.Ordered) (hesc : ESC ∉ g.texts) {q : List UInt8}
    (hq : g.texts.Sublist q) (h : g.feed d = .ok (g', r)) :
    ∃ u, d = u ++ r ∧ g'.Ordered ∧ ESC ∉ g'.texts ∧ g'.texts.Sublist (q ++ u) := by
  refine feed_invariant (I := fun q g => g.Ordered ∧ ESC ∉ g.texts ∧ g.texts.Sublist q) ?_
    ⟨hg, hesc, hq⟩ h
  rintro q g u t ⟨hg, hesc, hq⟩ - ht
  rcases scan_cases ht with ⟨-, rfl⟩ | ⟨c, hc, rfl, rfl⟩
  · obtain ⟨hord, htexts⟩ := texts_eseq hg (some ESC)
    exact ⟨hord, by rwa [htexts], by rw [htexts]; exact hq.trans (List.sublist_append_left _ _)⟩
  · obtain ⟨hord, htexts | htexts⟩ := texts_rest hg c
    · exact ⟨hord, by rwa [htexts], by rw [htexts]; exact hq.trans (List.sublist_append_left _ _)⟩
    · refine ⟨hord, ?_, by rw [htexts]; exact hq.append (.refl _)⟩
      rw [htexts, List.mem_append, List.mem_singleton, not_or]
      exact ⟨hesc, Ne.symm hc⟩

theorem ordered_eod (g : Program) : g.eod.Ordered := by
  rcases g with ⟨st, x⟩ | ⟨st, x⟩ | st
  · trivial
  · cases st <;> exact fun hst => by simp [Cmdout.delta, row] at hst
  · trivial

/-- What is handed over at the end of data was recorded. -/
theorem texts_eod (g : Program) :
    (untilNul g.eod.outText ++ untilNul g.eod.ps1Text).Sublist g.texts := by
  have hcut : ∀ g : Program, (untilNul g.outText ++ untilNul g.ps1Text).Sublist g.texts :=
    fun g => (List.takeWhile_sublist _).append (List.takeWhile_sublist _)
  rcases g with ⟨st, x⟩ | ⟨st, x⟩ | st
  · cases st <;> exact hcut (.init _ x)
  · cases st with
    -- the output becomes the prompt
    | cm2 => exact (List.takeWhile_sublist _).trans (List.sublist_append_left _ _)
    | _ => exact hcut (.cmdout _ x)
  · exact hcut (.inchar st)

end Program

namespace Core

/-! ### What is on its way to the front end -/

/-- The texts that may still be shown: what the machine has recorded, or what sc has
taken over from it. -/
def pending (v : View) : Phase → List UInt8
  | .user => []
  | .stopped _ => []
  | _ =>
    match v.state with
    | .busy => v.prog.texts
    | .ready => v.out ++ v.ps1
    | _ => []

/-- Plain bytes of what was received were shown, in order. -/
structure Shown (l : List Ev) : Prop where
  sublist : (puts l).flatten.Sublist (received l)
  plain : ∀ b ∈ (puts l).flatten, b ≠ ESC ∧ b ≠ 0

/-- And so will be those that are pending, with `q` what the machines have consumed. -/
def Pending (l : List Ev) (v : View) (ph : Phase) : Prop :=
  v.prog.Ordered ∧ ESC ∉ pending v ph ∧
    ∃ q, received l = q ++ v.rb ∧ ((puts l).flatten ++ pending v ph).Sublist q

/-- The log of a run, against the state it leads to. -/
structure Displays (l : List Ev) (v : View) (ph : Phase) : Prop where
  shown : Shown l
  pending : (∀ e, ph ≠ .stopped e) → Pending l v ph

variable {c : Conf} {v v' : View} {ph ph' : Phase} {l l' : List Ev}

theorem displays_init : Displays [] .init (.loop false) where
  shown := ⟨List.nil_sublist _, by simp [puts]⟩
  pending _ := ⟨trivial, by simp [pending, View.init], [], rfl, List.nil_sublist _⟩

/-- A call of `sc_operate` shows nothing. -/
theorem puts_operates {r : ReadResult} {res : Except Stop (View × Bool)}
    (h : v.Operates r l res) : puts l = [] := by
  cases h with
  | @starved o | @malformed o => cases o <;> rfl
  | @fed o g | @fsmError o g => exact (puts_fed o g).1
  | _ => rfl

theorem Shown.silent (h : Shown l) (hl : puts l' = []) : Shown (l ++ l') := by
  have hputs : puts (l ++ l') = puts l := by rw [puts_append, hl, List.append_nil]
  refine ⟨?_, by rw [hputs]; exact h.plain⟩
  rw [hputs, received_append]
  exact h.sublist.trans (List.sublist_append_left _ _)

/-- A call that shows nothing, and after which nothing else is pending than before. -/
theorem Pending.silent (h : Pending l v ph) (hl : puts l' = [])
    (hrb : v'.rb = v.rb ++ received l') (hord : v'.prog.Ordered)
    (hpending : (pending v' ph').Sublist (pending v ph)) : Pending (l ++ l') v' ph' := by
  obtain ⟨-, hesc, q, hrecv, hsub⟩ := h
  refine ⟨hord, fun hmem => hesc (hpending.subset hmem), q, ?_, ?_⟩
  · rw [received_append, hrecv, hrb, List.append_assoc]
  · rw [puts_append, hl, List.append_nil]
    exact ((List.Sublist.refl _).append hpending).trans hsub

/-- A call that feeds the machine. -/
theorem Pending.feed {w : Bool} {o : Option (List UInt8)} {g : Program} {rest : List UInt8}
    (h : Pending l v (.loop w)) (hst : v.state = .busy)
    (hfeed : v.prog.feed (v.data o) = .ok (g, rest)) :
    Pending (l ++ readEv o :: g.reaction)
      { v with nodataflag := false, rb := rest, prog := g.settle } (.loop false) := by
  obtain ⟨hord, hesc, q, hrecv, hsub⟩ := h
  have hbusy : pending v (.loop w) = v.prog.texts := by simp [pending, hst]
  rw [hbusy] at hesc hsub
  -- what was shown comes from the front of what was consumed
  obtain ⟨q₁, q₂, rfl, hshown, htexts⟩ := List.append_sublist_iff.mp hsub
  obtain ⟨u, hu, hord', hesc', hsub'⟩ := Program.texts_feed hord hesc htexts hfeed
  have hnew : pending { v with nodataflag := false, rb := rest, prog := g.settle }
      (.loop false) = g.texts := by simp [pending, hst]
  refine ⟨hord'.settle, by rwa [hnew], q₁ ++ q₂ ++ u, ?_, ?_⟩
  · rw [received_append, ← List.singleton_append, received_append, received_readEv,
      received_reaction, List.append_nil, hrecv, List.append_assoc, List.append_assoc _ u]
    exact congrArg _ hu
  · rw [hnew, puts_append, (puts_fed o g).1, List.append_nil, List.append_assoc]
    exact hshown.append hsub'

theorem Pending.operates {w b : Bool} {r : ReadResult} (h : Pending l v (.loop w))
    (hop : v.Operates r l' (.ok (v', b))) :
    Pending (l ++ l') v' (if b then .loop false else .select) := by
  have hputs := puts_operates hop
  cases hop with
  | write hst hwq =>
    refine h.silent hputs (List.append_nil _).symm (Program.ordered_start _) ?_
    simp [pending]
  | @starved o hst hr hd hfeed =>
    refine h.silent hputs ?_ h.1 (by simp [pending, hst])
    rw [received_readEv]
    rfl
  | fed hst hr hfeed hlt herr => exact h.feed hst hfeed
  | wait hst hr hrb hacc hflag =>
    exact h.silent hputs (List.append_nil _).symm h.1 (by simp [pending, hst])
  | ack hst hr hrb hacc hwq =>
    exact h.silent hputs (List.append_nil _).symm (Program.ordered_eod _) (by simp [pending])
  | done hst hr hrb hacc hwq hout =>
    refine h.silent hputs (List.append_nil _).symm (Program.ordered_eod _) ?_
    simpa [pending, hst] using Program.texts_eod v.prog

/-- What sc has taken over is shown. -/
theorem Pending.hand {w : Bool} (hsane : Sane v (.loop w)) (h : Pending l v (.loop w))
    (hs : Shown l) (hst : v.state = .ready) :
    Shown (l ++ replies v) ∧ Pending (l ++ replies v) v .user := by
  obtain ⟨hord, hesc, q, hrecv, hsub⟩ := h
  have hready : pending v (.loop w) = v.out ++ v.ps1 := by simp [pending, hst]
  have hputs : (puts (l ++ replies v)).flatten = (puts l).flatten ++ (v.out ++ v.ps1) := by
    rw [puts_append, List.flatten_append, replies]
    split
    · rename_i hout
      simp [puts, hout]
    · simp [puts]
  have hnone : received (replies v) = [] := by
    rw [replies]
    split <;> rfl
  rw [hready] at hesc hsub
  refine ⟨⟨?_, ?_⟩, hord, by simp [pending], q, ?_, ?_⟩
  · rw [hputs, received_append, hnone, List.append_nil, hrecv]
    exact hsub.trans (List.sublist_append_left _ _)
  · rw [hputs]
    intro b hb
    rcases List.mem_append.mp hb with hb | hb
    · exact hs.plain b hb
    · refine ⟨fun heq => hesc (heq ▸ hb), fun heq => ?_⟩
      subst heq
      rcases List.mem_append.mp hb with hb | hb
      · exact hsane.outNul hb
      · exact hsane.ps1Nul hb
  · rw [received_append, hnone, List.append_nil, hrecv]
  · rw [hputs, show pending v .user = [] from rfl, List.append_nil]
    exact hsub

theorem Displays.moves (hsane : Sane v ph) (h : Displays l v ph)
    (hm : Moves (v, ph) l' (v', ph')) : Displays (l ++ l') v' ph' := by
  obtain ⟨hs, hp⟩ := h
  cases hm with
  | operate r hst hwoken hop =>
    exact ⟨hs.silent (puts_operates hop), fun _ => (hp nofun).operates hop⟩
  | @stop v w l e r hst hwoken hop =>
    exact ⟨hs.silent (puts_operates hop), fun hlive => absurd rfl (hlive e)⟩
  | wake =>
    rw [List.append_nil]
    exact ⟨hs, fun _ => hp nofun⟩
  | hand hst =>
    obtain ⟨hs', hp'⟩ := (hp nofun).hand hsane hs hst
    exact ⟨hs', fun _ => hp'⟩
  | write str hstr =>
    refine ⟨hs.silent rfl, fun _ => ?_⟩
    exact (hp nofun).silent rfl (List.append_nil _).symm (hp nofun).1 (List.nil_sublist _)

theorem run_displays (h : Run start l c) : ∃ v, c.Shows (v, c.phase) ∧ Displays l v c.phase :=
  run_invariant (J := Displays) displays_init (fun hsane hd hm => hd.moves hsane hm) h

/-- **The display shows plain bytes of the switch, in order.**  Whatever the switch sends:
nothing is shown that it did not send, nothing twice and nothing out of order, and no
escape character and no NUL gets to the terminal of the user. -/
theorem display (h : Run start l c) :
    (puts l).flatten.Sublist (received l) ∧ ∀ b ∈ (puts l).flatten, b ≠ ESC ∧ b ≠ 0 := by
  obtain ⟨v, -, hd⟩ := run_displays h
  exact ⟨hd.shown.sublist, hd.shown.plain⟩

/-- The prompt of the opening chat is shown. -/
theorem display_chat : ∃ l c, Run start l c ∧ puts l = [[36]] ∧
    (puts l).flatten.Sublist (received l) ∧ ∀ b ∈ (puts l).flatten, b ≠ ESC ∧ b ≠ 0 := by
  obtain ⟨c₁, hrun, hc₁⟩ := run_chat isChat_x (by decide)
  obtain ⟨c₂, hs₂, -⟩ := hc₁.hand rfl
  have hrun' := hrun.snoc hs₂
  exact ⟨_, c₂, hrun', rfl, display hrun'⟩

end Core

end Swh
