/-
The opening chat: one key press and one size report, in order.

`Init.Flags` says how the two flags of the init machine go with the states it has
passed.

* `init_phase` — in every run the key is pressed at most once and the size is
  reported at most once, after it, both while the init machine is the current one;
  and when sc becomes ready for the first time both have happened, the chat was of
  the form the table describes, and its prompt is the prompt of sc.
-/
import Swh.CoreView
import Swh.InitGrammar

namespace Swh

open Ansiseq (ESC)

namespace Init

variable {q d r P : List UInt8} {st : St} {x : Text} {g : Program}

/-! ### The flags -/

/-- The states behind the any key. -/
def pastKey : St → Bool
  | .cm2 | .las | .cm3 | .ps1 | .cm4 | .fin => true
  | _ => false

/-- The states behind the report. -/
def pastReport : St → Bool
  | .las | .cm3 | .ps1 | .cm4 | .fin => true
  | _ => false

/-- The bytes this has made sc write. -/
def greeting (st : St) : List UInt8 :=
  (if pastKey st then Ev.key.bytes else []) ++ (if pastReport st then Ev.report.bytes else [])

/-- The flags `k` and `r` in state `st`, when the key was pressed before if `k₀`
and the size was reported before if `r₀`. -/
structure Flags (k₀ r₀ : Bool) (st : St) (k r : Bool) : Prop where
  key : (k₀ && k) = false
  report : (r₀ && r) = false
  order : (r₀ || r) = true → (k₀ || k) = true
  past : st ≠ .err → (k₀ || k) = pastKey st ∧ (r₀ || r) = pastReport st

theorem flags_init (st : St) : Flags (pastKey st) (pastReport st) st false false where
  key := Bool.and_false _
  report := Bool.and_false _
  order h := by cases st <;> simp_all [pastKey, pastReport]
  past _ := ⟨Bool.or_false _, Bool.or_false _⟩

theorem Flags.step {k₀ r₀ : Bool} (h : Flags k₀ r₀ st x.anykey x.report) (t : HpTok)
    (c : Option UInt8) : Flags k₀ r₀ (delta st t).1 (x.act (delta st t).2 c).anykey
      (x.act (delta st t).2 c).report := by
  obtain ⟨ps1, k, r⟩ := x
  obtain ⟨hkey, hreport, horder, hpast⟩ := h
  dsimp only at hkey hreport horder hpast
  -- only two entries of the table set a flag
  cases st <;> cases t <;>
    first
    | exact ⟨hkey, hreport, horder, fun h => absurd rfl h⟩
    | exact ⟨hkey, hreport, horder, fun _ => hpast nofun⟩
    | skip
  · -- the any key
    obtain ⟨hk, hr⟩ := hpast nofun
    simp only [pastKey, pastReport, Bool.or_eq_false_iff] at hk hr
    obtain ⟨rfl, rfl⟩ := hk
    obtain ⟨rfl, rfl⟩ := hr
    exact ⟨rfl, rfl, nofun, fun _ => ⟨rfl, rfl⟩⟩
  · -- the report
    obtain ⟨hk, hr⟩ := hpast nofun
    simp only [pastKey, pastReport, Bool.or_eq_false_iff] at hk hr
    obtain ⟨rfl, rfl⟩ := hr
    exact ⟨hkey, rfl, fun _ => hk, fun _ => ⟨hk, rfl⟩⟩

/-- Adding up what happened before and what happens now. -/
theorem Flags.adds {k r : Bool} {st st' : St} (herr : st' ≠ .err)
    (h : Flags (pastKey st) (pastReport st) st' k r) :
    (pastKey st).toNat + k.toNat = (pastKey st').toNat ∧
      (pastReport st).toNat + r.toNat = (pastReport st').toNat ∧
      greeting st ++ ((if k then Ev.key.bytes else []) ++ (if r then Ev.report.bytes else [])) =
        greeting st' := by
  obtain ⟨hk, hr⟩ := h.past herr
  have hkey := h.key
  have hreport := h.report
  have horder : pastReport st = true → pastKey st = true := by cases st <;> decide
  rw [greeting, greeting, ← hk, ← hr]
  generalize pastKey st = k₀ at *
  generalize pastReport st = r₀ at *
  cases k₀ <;> cases r₀ <;> cases k <;> cases r <;> simp_all

/-- A feed of the init machine goes along a path, and sets the flags accordingly. -/
theorem feed_path (hpath : Path q st P)
    (h : (Program.init st ⟨P, false, false⟩).feed d = .ok (g, r)) :
    ∃ u st' x, d = u ++ r ∧ g = .init st' x ∧ Path (q ++ u) st' x.ps1 ∧
      Flags (pastKey st) (pastReport st) st' x.anykey x.report := by
  obtain ⟨u, hd, st', x, hg, hpath', hflags⟩ := Program.feed_invariant
    (I := fun q g => ∃ st' x, g = .init st' x ∧ Path q st' x.ps1 ∧
      Flags (pastKey st) (pastReport st) st' x.anykey x.report) (q := q)
    (by
      rintro q _ u t ⟨st', x, rfl, hp, hf⟩ - ht
      rcases scan_cases ht with ⟨he, rfl⟩ | ⟨c, hc, rfl, rfl⟩
      · exact ⟨_, _, rfl, hp.eseq he, hf.step _ _⟩
      · exact ⟨_, _, rfl, hp.rest hc, hf.step _ _⟩)
    ⟨st, ⟨P, false, false⟩, rfl, hpath, flags_init st⟩ h
  exact ⟨u, st', x, hd, hg, hpath', hflags⟩

end Init

/-! ### Runs -/

/-- What must hold before the key is pressed or the size is reported. -/
def OnceInOrder (before : List Ev) : Ev → Prop
  | .key => .key ∉ before ∧ ∀ m, .reset m ∉ before
  | .report => .report ∉ before ∧ .key ∈ before ∧ ∀ m, .reset m ∉ before
  | _ => True

variable {l l' : List Ev}

theorem received_readEv (o : Option (List UInt8)) : received [readEv o] = o.getD [] := by
  cases o <;> simp [received, readEv]

theorem received_reaction (g : Program) : received g.reaction = [] := by
  rcases g with ⟨st, ⟨P, k, r⟩⟩ | ⟨st, x⟩ | st
  · cases k <;> cases r <;> rfl
  · rfl
  · rfl

theorem reaction_of_ne_init {g : Program} (h : g.which ≠ .init) : g.reaction = [] := by
  rcases g with ⟨st, x⟩ | ⟨st, x⟩ | st
  · exact absurd rfl h
  · rfl
  · rfl

theorem notMem_reset_fed (o : Option (List UInt8)) (g : Program) (m : CurFsm) :
    .reset m ∉ readEv o :: g.reaction := by
  intro h
  rcases List.mem_cons.mp h with h | h
  · cases o <;> cases h
  · rcases mem_reaction h with h | h <;> cases h

theorem once_foreign (h : EachEvent OnceInOrder l) (hkey : .key ∉ l') (hreport : .report ∉ l') :
    EachEvent OnceInOrder (l ++ l') := by
  induction l' using List.reverseRecOn with
  | nil => rwa [List.append_nil]
  | append_singleton l' e ih =>
    rw [List.mem_append, not_or, List.mem_singleton] at hkey hreport
    rw [← List.append_assoc]
    refine (ih hkey.1 hreport.1).concat ?_
    cases e with
    | key => exact absurd rfl hkey.2
    | report => exact absurd rfl hreport.2
    | _ => trivial

namespace Core

open Init

/-- How often the key was pressed and the size was reported, and the bytes this
took, by the state of the init machine. -/
structure Counted (l : List Ev) (st : St) : Prop where
  key : l.count .key = (pastKey st).toNat
  report : l.count .report = (pastReport st).toNat
  bytes : written l = greeting st
  silent : sent l = []

/-- Both have happened, and all other bytes that were written were queued ones. -/
structure Greeted (l : List Ev) : Prop where
  key : l.count .key = 1
  report : l.count .report = 1
  bytes : written l = greeting .fin ++ sent l

/-- The opening chat is over: it had the form of the table, its prompt is the
prompt of sc, and no reply is pending. -/
def Opened (l : List Ev) (v : View) : Prop :=
  ∃ P, IsChat (received l) P ∧ v.prog = .init .fin ⟨P, false, false⟩ ∧ v.ps1 = untilNul P ∧
    v.out = [] ∧ v.rb = [] ∧ Counted l .fin

/-- The opening chat is being read. -/
def Opening (l : List Ev) (v : View) : Prop :=
  ∃ q st P, received l = q ++ v.rb ∧ v.prog = .init st ⟨P, false, false⟩ ∧ Path q st P ∧
    v.wq = [] ∧ Counted l st

/-- The log of a run, against the state it leads to. -/
structure Opens (l : List Ev) (v : View) (ph : Phase) : Prop where
  steps : EachEvent OnceInOrder l
  which : v.prog.which = .init ↔ ∀ m, .reset m ∉ l
  busy : (∀ e, ph ≠ .stopped e) → v.prog.which = .init → v.state = .busy → Opening l v
  done : v.prog.which = .init → v.state ≠ .busy → Opened l v
  later : v.prog.which ≠ .init → Greeted l

theorem opens_init : Opens [] .init (.loop false) where
  steps := .nil
  which := ⟨fun _ => by simp, fun _ => rfl⟩
  busy _ _ _ := ⟨[], .sta, [], rfl, rfl, .sta, rfl, ⟨rfl, rfl, rfl, rfl⟩⟩
  done _ h := absurd rfl h
  later h := absurd rfl h

variable {v v' : View} {ph ph' : Phase} {o : Option (List UInt8)} {st : St} {x : Text}

/-- The reaction to what was read comes once and in order. -/
theorem once_react (h : EachEvent OnceInOrder l) (hreset : ∀ m, .reset m ∉ l)
    (hcount : Counted l st) {st' : St}
    (hflags : Flags (pastKey st) (pastReport st) st' x.anykey x.report) :
    EachEvent OnceInOrder (l ++ readEv o :: (Program.init st' x).reaction) := by
  obtain ⟨P, k, r⟩ := x
  obtain ⟨hkey, hreport, horder, -⟩ := hflags
  dsimp only at hkey hreport horder
  have hread : EachEvent OnceInOrder (l ++ [readEv o]) := h.concat (by cases o <;> trivial)
  have hread' : readEv o ≠ .key ∧ readEv o ≠ .report ∧ ∀ m, readEv o ≠ .reset m := by
    cases o <;> exact ⟨nofun, nofun, nofun⟩
  have hnokey : pastKey st = false → .key ∉ l := fun hp =>
    List.count_eq_zero.mp (by rw [hcount.key, hp]; rfl)
  have hnoreport : pastReport st = false → .report ∉ l := fun hp =>
    List.count_eq_zero.mp (by rw [hcount.report, hp]; rfl)
  have hpressed : pastKey st = true → .key ∈ l := fun hp =>
    List.count_pos_iff.mp (by rw [hcount.key, hp]; exact Nat.one_pos)
  -- a flag is set only if its event has not happened yet
  have hk : k = true → OnceInOrder (l ++ [readEv o]) .key := by
    rintro rfl
    rw [Bool.and_true] at hkey
    exact ⟨by simp [hnokey hkey, hread'.1.symm],
      fun m => by simp [hreset m, (hread'.2.2 m).symm]⟩
  -- the report may follow the key of the same call, which is then in `l''`
  have hr : ∀ l'', r = true → (.report ∉ l'' ∧ ∀ m, .reset m ∉ l'') →
      (pastKey st = false → .key ∈ l'') → OnceInOrder (l ++ readEv o :: l'') .report := by
    rintro l'' rfl ⟨hl, hl'⟩ hk
    rw [Bool.and_true] at hreport
    refine ⟨by simp [hnoreport hreport, hread'.2.1.symm, hl], ?_,
      fun m => by simp [hreset m, (hread'.2.2 m).symm, hl' m]⟩
    rcases hp : pastKey st with _ | _
    · exact List.mem_append_right _ (List.mem_cons_of_mem _ (hk hp))
    · exact List.mem_append_left _ (hpressed hp)
  rw [List.append_cons]
  cases k with
  | false =>
    cases r with
    | false => simpa [Program.reaction] using hread
    | true =>
      refine hread.concat (hr [] rfl ⟨by simp, by simp⟩ fun hp => ?_)
      rw [hp] at horder
      exact absurd (horder (Bool.or_true _)) (by simp)
  | true =>
    cases r with
    | false => exact hread.concat (hk rfl)
    | true =>
      rw [show (Program.init st' ⟨P, true, true⟩).reaction = [Ev.key] ++ [.report] from rfl,
        ← List.append_assoc]
      refine (hread.concat (hk rfl)).concat ?_
      rw [List.append_assoc]
      exact hr [.key] rfl ⟨by simp, by simp⟩ fun _ => by simp

/-- Events that neither concern the init machine nor write what was queued. -/
structure Foreign (l : List Ev) : Prop where
  key : .key ∉ l
  report : .report ∉ l
  sent : sent l = []

/-- Only the key, the report and queued bytes are written. -/
theorem written_eq_sent (hkey : .key ∉ l) (hreport : .report ∉ l) : written l = sent l := by
  induction l with
  | nil => rfl
  | cons e l ih =>
    rw [List.mem_cons, not_or] at hkey hreport
    have htail := ih hkey.2 hreport.2
    rw [written, List.flatMap_cons, ← written, htail]
    cases e with
    | key => exact absurd rfl hkey.1
    | report => exact absurd rfl hreport.1
    | _ => rfl

theorem Foreign.written (h : Foreign l) : written l = [] :=
  (written_eq_sent h.key h.report).trans h.sent

theorem Counted.foreign (h : Counted l st) (hl : Foreign l') : Counted (l ++ l') st where
  key := by rw [List.count_append, List.count_eq_zero.mpr hl.key, h.key]; rfl
  report := by rw [List.count_append, List.count_eq_zero.mpr hl.report, h.report]; rfl
  bytes := by rw [written_append, hl.written, List.append_nil, h.bytes]
  silent := by rw [sent_append, h.silent, hl.sent]; rfl

theorem Counted.greeted (h : Counted l .fin) : Greeted l :=
  ⟨h.key, h.report, by rw [h.bytes, h.silent, List.append_nil]⟩

theorem Greeted.other (h : Greeted l) (hkey : .key ∉ l') (hreport : .report ∉ l') :
    Greeted (l ++ l') where
  key := by rw [List.count_append, List.count_eq_zero.mpr hkey, h.key]
  report := by rw [List.count_append, List.count_eq_zero.mpr hreport, h.report]
  bytes := by rw [written_append, sent_append, h.bytes, written_eq_sent hkey hreport,
    List.append_assoc]

theorem foreign_readEv (o : Option (List UInt8)) : Foreign [readEv o] := by
  cases o <;> exact ⟨by simp [readEv], by simp [readEv], rfl⟩

theorem counted_reaction (st : St) (x : Text) :
    (Program.init st x).reaction.count .key = x.anykey.toNat ∧
    (Program.init st x).reaction.count .report = x.report.toNat ∧
    written (Program.init st x).reaction =
      (if x.anykey then Ev.key.bytes else []) ++ (if x.report then Ev.report.bytes else []) ∧
    sent (Program.init st x).reaction = [] := by
  obtain ⟨P, k, r⟩ := x
  cases k <;> cases r <;> exact ⟨rfl, rfl, rfl, rfl⟩

/-- The counts follow the states. -/
theorem counted_react (hcount : Counted l st) {st' : St} (herr : st' ≠ .err)
    (hflags : Flags (pastKey st) (pastReport st) st' x.anykey x.report) :
    Counted (l ++ readEv o :: (Program.init st' x).reaction) st' := by
  obtain ⟨hk, hr, hb⟩ := hflags.adds herr
  obtain ⟨hk', hr', hb', hs'⟩ := counted_reaction st' x
  have hread := hcount.foreign (foreign_readEv o)
  rw [List.append_cons]
  refine ⟨?_, ?_, ?_, ?_⟩
  · rw [List.count_append, hread.key, hk', hk]
  · rw [List.count_append, hread.report, hr', hr]
  · rw [written_append, hread.bytes, hb', hb]
  · rw [sent_append, hread.silent, hs']
    rfl

theorem Opened.foreign (h : Opened l v) (hl : Foreign l') (hrecv : received l' = [])
    (hprog : v'.prog = v.prog) (hps1 : v'.ps1 = v.ps1) (hout : v'.out = []) (hrb : v'.rb = v.rb) :
    Opened (l ++ l') v' := by
  obtain ⟨P, hchat, hg, hp, -, hr, hcount⟩ := h
  refine ⟨P, ?_, hprog.trans hg, hps1.trans hp, hout, hrb.trans hr, hcount.foreign hl⟩
  rwa [received_append, hrecv, List.append_nil]

theorem notMem_reset_append (hl : ∀ m, .reset m ∉ l') :
    (∀ m, .reset m ∉ l) ↔ ∀ m, .reset m ∉ l ++ l' :=
  forall_congr' fun m => by simp [hl m]

/-- A call in which the init machine is not the current one any more. -/
theorem Opens.other (h : Opens l v ph) (hkey : .key ∉ l') (hreport : .report ∉ l')
    (hl' : ∀ m, .reset m ∉ l') (hv : v.prog.which ≠ .init) (hv' : v'.prog.which = v.prog.which) :
    Opens (l ++ l') v' ph' where
  steps := once_foreign h.steps hkey hreport
  which := by rw [hv', h.which, notMem_reset_append hl']
  busy _ hw := absurd (hv' ▸ hw) hv
  done hw := absurd (hv' ▸ hw) hv
  later _ := (h.later hv).other hkey hreport

/-- A call after which the init machine is still reading. -/
theorem Opens.opening (hsteps : EachEvent OnceInOrder l) (hreset : ∀ m, .reset m ∉ l)
    (hw : v.prog.which = .init) (hst : v.state = .busy) (h : Opening l v) : Opens l v ph where
  steps := hsteps
  which := ⟨fun _ => hreset, fun _ => hw⟩
  busy _ _ _ := h
  done _ hne := absurd hst hne
  later hne := absurd hw hne

theorem Opens.opened (hsteps : EachEvent OnceInOrder l) (hreset : ∀ m, .reset m ∉ l)
    (hw : v.prog.which = .init) (hst : v.state ≠ .busy) (h : Opened l v) : Opens l v ph where
  steps := hsteps
  which := ⟨fun _ => hreset, fun _ => hw⟩
  busy _ _ hb := absurd hb hst
  done _ _ := h
  later hne := absurd hw hne

/-- A call that leaves the machine as it is, whatever it has read. -/
theorem Opens.awaits (h : Opens l v ph) (hlive : ∀ e, ph ≠ .stopped e) (hst : v.state = .busy)
    (hl : Foreign l') (hreset : ∀ m, .reset m ∉ l') (hrb : v'.rb = v.rb ++ received l')
    (hst' : v'.state = .busy) (hprog : v'.prog = v.prog) (hwq : v'.wq = v.wq) :
    Opens (l ++ l') v' ph' := by
  by_cases hw : v.prog.which = .init
  · obtain ⟨q, st, P, hrecv, hg, hpath, hnil, hcount⟩ := h.busy hlive hw hst
    refine .opening (once_foreign h.steps hl.key hl.report)
      ((notMem_reset_append hreset).mp (h.which.mp hw)) (hprog ▸ hw) hst'
      ⟨q, st, P, ?_, hprog.trans hg, hpath, hwq.trans hnil, hcount.foreign hl⟩
    rw [received_append, hrecv, hrb, List.append_assoc]
  · exact h.other hl.key hl.report hreset hw (by rw [hprog])

/-- The first byte that is written ends the opening phase. -/
theorem Opens.write {c : UInt8} {wq : List UInt8} (h : Opens l v ph) (hst : v.state = .writing) :
    Opens (l ++ [.wrote c, .reset (select c)])
      { v with wq := wq, prog := .start (select c), state := .busy } ph' := by
  have hwhich := which_select_ne c
  have hgreeted : Greeted l := by
    by_cases hw : v.prog.which = .init
    · obtain ⟨P, -, -, -, -, -, hcount⟩ := h.done hw (by simp [hst])
      exact hcount.greeted
    · exact h.later hw
  refine ⟨once_foreign h.steps (by simp) (by simp), ⟨fun hw => absurd hw hwhich, fun hw => ?_⟩,
    fun _ hw => absurd hw hwhich, fun hw => absurd hw hwhich,
    fun _ => hgreeted.other (by simp) (by simp)⟩
  exact absurd (by simp) (hw (select c))

/-- A feed of the machine, whichever it is. -/
theorem Opens.feed {o : Option (List UInt8)} {g : Program} {rest : List UInt8}
    (h : Opens l v ph) (hlive : ∀ e, ph ≠ .stopped e) (hst : v.state = .busy)
    (hfeed : v.prog.feed (v.data o) = .ok (g, rest)) (herr : g.error = false) :
    Opens (l ++ readEv o :: g.reaction)
      { v with nodataflag := false, rb := rest, prog := g.settle } ph' := by
  have hwhich : g.settle.which = v.prog.which :=
    (Program.which_settle g).trans (Program.which_feed hfeed)
  have hreset := notMem_reset_fed o g
  by_cases hw : v.prog.which = .init
  · -- what was received is the path so far, with this feed behind it
    obtain ⟨q, st, P, hrecv, hg, hpath, hwq, hcount⟩ := h.busy hlive hw hst
    rw [hg] at hfeed
    obtain ⟨u, st', x, hdata, rfl, hpath', hflags⟩ := feed_path hpath hfeed
    have hnone := h.which.mp hw
    refine .opening (once_react h.steps hnone hcount hflags)
      ((notMem_reset_append hreset).mp hnone) rfl hst
      ⟨q ++ u, st', x.ps1, ?_, rfl, hpath', hwq,
        counted_react hcount (of_decide_eq_false herr) hflags⟩
    rw [received_append, ← List.singleton_append, received_append, received_readEv,
      received_reaction, List.append_nil, hrecv, List.append_assoc, List.append_assoc,
      ← hdata]
    rfl
  · have hquiet : g.reaction = [] := reaction_of_ne_init (by rwa [Program.which_feed hfeed])
    have hread := foreign_readEv o
    rw [hquiet] at hreset ⊢
    exact h.other hread.key hread.report hreset hw hwhich

/-- The end of data: the chat is over, or it was over before. -/
theorem Opens.ready (h : Opens l v ph) (hlive : ∀ e, ph ≠ .stopped e) (hst : v.state = .busy)
    (hrb : v.rb = []) (hacc : v.prog.accepts = true) :
    Opens (l ++ [.eagain, .eod v.prog.which 0 true, .ready])
      { v with
        prog := v.prog.eod, state := .ready, out := untilNul v.prog.eod.outText
        ps1 := untilNul v.prog.eod.ps1Text } ph' := by
  have hforeign : Foreign [.eagain, .eod v.prog.which 0 true, .ready] :=
    ⟨by simp, by simp, rfl⟩
  by_cases hw : v.prog.which = .init
  · obtain ⟨q, st, P, hrecv, hg, hpath, -, hcount⟩ := h.busy hlive hw hst
    rw [hg] at hacc
    -- the end of data is accepted in `S_CM4` only, behind a whole chat
    obtain rfl := accepts_iff_cm4.mp hacc
    rw [hrb, List.append_nil] at hrecv
    have hcount' := hcount.foreign hforeign
    refine .opened (once_foreign h.steps hforeign.key hforeign.report)
      ((notMem_reset_append (by simp)).mp (h.which.mp hw))
      ((Program.which_take _ _ _).trans hw) (by simp)
      ⟨P, ?_, ?_, ?_, ?_, hrb, ⟨hcount'.key, hcount'.report, hcount'.bytes, hcount'.silent⟩⟩
    · rw [received_append, hrecv, show received [Ev.eagain, .eod v.prog.which 0 true, .ready] = []
        from rfl, List.append_nil]
      exact hpath.chat
    · rw [hg]; rfl
    · rw [hg]; rfl
    · rw [hg]; rfl
  · exact h.other (by simp) (by simp) (by simp) hw (Program.which_take _ _ _)

theorem Opens.operates {w b : Bool} {r : ReadResult}
    (h : Opens l v (.loop w)) (hop : v.Operates r l' (.ok (v', b))) :
    Opens (l ++ l') v' (if b then .loop false else .select) := by
  have hlive : ∀ e, Phase.loop w ≠ .stopped e := by simp
  cases hop with
  | write hst hwq => exact h.write hst
  | @starved o hst hr hd hfeed =>
    exact h.awaits hlive hst (foreign_readEv o) (notMem_reset_fed o (.inchar .sta))
      (by rw [received_readEv]; rfl) hst rfl rfl
  | fed hst hr hfeed hlt herr => exact h.feed hlive hst hfeed herr
  | wait hst hr hrb hacc hflag =>
    have hforeign : Foreign [.eagain] := ⟨by simp, by simp, rfl⟩
    exact h.awaits hlive hst hforeign (by simp) (List.append_nil v.rb).symm hst rfl rfl
  | ack hst hr hrb hacc hwq =>
    -- while the init machine reads nothing is queued
    have hw : v.prog.which ≠ .init := by
      intro hw
      obtain ⟨q, st, P, -, -, -, hwq', -⟩ := h.busy hlive hw hst
      exact hwq hwq'
    exact h.other (by simp) (by simp) (by simp) hw (Program.which_take _ _ _)
  | done hst hr hrb hacc hwq hout => exact h.ready hlive hst hrb hacc

/-- What a call that stops has logged before. -/
theorem Opens.stops {w : Bool} {r : ReadResult} {e : Stop} (h : Opens l v (.loop w))
    (hop : v.Operates r l' (.error e)) : Opens (l ++ l') v (.stopped e) := by
  have hdead : ∀ {p : Prop}, (∀ e', Phase.stopped e ≠ .stopped e') → p := fun hne =>
    absurd rfl (hne e)
  have hbusy : v.state = .busy → .key ∉ l' → .report ∉ l' → (∀ m, .reset m ∉ l') →
      Opens (l ++ l') v (.stopped e) := fun hst hkey hreport hl' =>
    ⟨once_foreign h.steps hkey hreport, h.which.trans (notMem_reset_append hl'), hdead,
      fun _ hne => absurd hst hne, fun hw => (h.later hw).other hkey hreport⟩
  have hsilent : Opens (l ++ []) v (.stopped e) := by
    rw [List.append_nil]
    exact ⟨h.steps, h.which, hdead, h.done, h.later⟩
  cases hop with
  | @malformed o _ hst hr hd hfeed =>
    have hread := foreign_readEv o
    exact hbusy hst hread.key hread.report (notMem_reset_fed o (.inchar .sta))
  | @fsmError o g rest hst hr hfeed hlt herr =>
    have hreset := notMem_reset_fed o g
    by_cases hw : v.prog.which = .init
    · obtain ⟨q, st, P, -, hg, hpath, -, hcount⟩ := h.busy (by simp) hw hst
      rw [hg] at hfeed
      obtain ⟨u, st', x, -, rfl, -, hflags⟩ := feed_path hpath hfeed
      exact ⟨once_react h.steps (h.which.mp hw) hcount hflags,
        h.which.trans (notMem_reset_append hreset), hdead, fun _ hne => absurd hst hne,
        fun hne => absurd hw hne⟩
    · have hquiet : g.reaction = [] := reaction_of_ne_init (by rwa [Program.which_feed hfeed])
      have hread := foreign_readEv o
      rw [hquiet] at hreset hbusy ⊢
      exact hbusy hst hread.key hread.report hreset
  | meh hst => exact hbusy hst (by simp) (by simp) (by simp)
  | outbufNotEmpty hst => exact hbusy hst (by simp) (by simp) (by simp)
  | _ => exact hsilent

/-- A move that leaves the current machine alone, when sc is not busy. -/
theorem Opens.foreign (h : Opens l v ph) (hst : v.state ≠ .busy) (hl : Foreign l')
    (hreset : ∀ m, .reset m ∉ l') (hrecv : received l' = []) (hst' : v'.state ≠ .busy)
    (hprog : v'.prog = v.prog) (hps1 : v'.ps1 = v.ps1)
    (hout : v'.out = v.out ∨ v'.out = []) (hrb : v'.rb = v.rb) : Opens (l ++ l') v' ph' := by
  by_cases hw : v.prog.which = .init
  · obtain ⟨P, hchat, hg, hp, hnil, hr, hcount⟩ := h.done hw hst
    have hnil' : v'.out = [] := hout.elim (fun heq => heq.trans hnil) id
    exact .opened (once_foreign h.steps hl.key hl.report)
      ((notMem_reset_append hreset).mp (h.which.mp hw)) (hprog ▸ hw) hst'
      (Opened.foreign ⟨P, hchat, hg, hp, hnil, hr, hcount⟩ hl hrecv hprog hps1 hnil' hrb)
  · exact h.other hl.key hl.report hreset hw (by rw [hprog])

theorem Opens.moves (hsane : Sane v ph) (h : Opens l v ph) (hm : Moves (v, ph) l' (v', ph')) :
    Opens (l ++ l') v' ph' := by
  cases hm with
  | operate r hst hwoken hop => exact h.operates hop
  | stop r hst hwoken hop => exact h.stops hop
  | wake =>
    rw [List.append_nil]
    exact ⟨h.steps, h.which, fun _ => h.busy (by simp), h.done, h.later⟩
  | hand hst =>
    have hforeign : Foreign (replies v) ∧ (∀ m, .reset m ∉ replies v) ∧
        received (replies v) = [] := by
      rw [replies]
      split <;> exact ⟨⟨by simp, by simp, rfl⟩, by simp, rfl⟩
    exact h.foreign (by simp [hst]) hforeign.1 hforeign.2.1 hforeign.2.2
      (by simp [hst]) rfl rfl (.inl rfl) rfl
  | write str hstr =>
    exact h.foreign (by simp [hsane.user rfl]) ⟨by simp, by simp, rfl⟩ (by simp) rfl
      (by simp)
      rfl rfl (.inr rfl) rfl

/-- **Runs, seen from the opening chat.** -/
theorem run_opens {c : Conf} (h : Run start l c) :
    ∃ v, c.Shows (v, c.phase) ∧ Opens l v c.phase :=
  run_invariant opens_init (fun hsane hopens hm => hopens.moves hsane hm) h

/-- sc when the opening chat is over. -/
def greeted (P : List UInt8) : View :=
  { View.init with state := .ready, ps1 := untilNul P, prog := .init .fin ⟨P, false, false⟩ }

/-- sc when the opening chat was read. -/
def chatted (P : List UInt8) : View :=
  { View.init with prog := .init .cm4 ⟨P, false, false⟩ }

/-- A chat that is read in one piece is answered. -/
theorem operates_chat {d P : List UInt8} (h : IsChat d P) :
    View.init.Operates (.bytes d) [.read d, .key, .report] (.ok (chatted P, true)) := by
  have hfeed := Program.feed_all (feed_chat h)
  obtain ⟨b, d, rfl⟩ := List.exists_cons_of_ne_nil h.ne_nil
  exact .fed (v := .init) (o := some (b :: d)) rfl rfl hfeed (Nat.succ_pos _) rfl

/-- And when nothing is left of it, sc is ready. -/
theorem operates_chatted (P : List UInt8) : (chatted P).Operates .eagain
    [.eagain, .eod .init 0 true, .ready] (.ok (greeted P, true)) :=
  .done rfl rfl rfl rfl rfl rfl

theorem fits_start {d : List UInt8} (hlen : d.length ≤ READBUFSZ) :
    (ReadResult.bytes d).Fits scInit := by
  rintro _ ⟨⟩
  rw [show scInit.readbuf.cnt = 0 from rfl, Nat.zero_add]
  exact hlen

/-- A chat that arrives in one piece makes sc ready. -/
theorem run_chat {d P : List UInt8} (h : IsChat d P) (hlen : d.length ≤ READBUFSZ) :
    ∃ c, Run start [.read d, .key, .report, .eagain, .eod .init 0 true, .ready] c ∧
      c.Shows (greeted P, .loop false) := by
  obtain ⟨c₁, hs₁, hc₁⟩ := start_shows.operate nofun (fits_start hlen) nofun (operates_chat h)
  obtain ⟨c₂, hs₂, hc₂⟩ := hc₁.operate_eagain nofun (operates_chatted P)
  exact ⟨c₂, (Runs.single hs₁).snoc hs₂, hc₂⟩

/-- And behind it the user answers the prompt. -/
theorem run_answered {d P : List UInt8} (str : List UInt8) (h : IsChat d P)
    (hlen : d.length ≤ READBUFSZ) (hstr : str ≠ []) :
    ∃ c, Run start ([.read d, .key, .report, .eagain, .eod .init 0 true, .ready] ++
        [.put (untilNul P)] ++ [.queued str]) c ∧
      c.Shows ({ greeted P with wq := str, state := .writing }, .loop false) := by
  obtain ⟨c₁, hrun, hc₁⟩ := run_chat h hlen
  obtain ⟨c₂, hs₂, hc₂⟩ := hc₁.hand rfl
  obtain ⟨c₃, hs₃, hc₃⟩ := hc₂.write hstr
  exact ⟨c₃, (hrun.snoc hs₂).snoc hs₃, hc₃⟩

/-- sc after the opening chat `received l`. -/
structure Ready (l : List Ev) (s : Sc) : Prop where
  keyOnce : l.count .key = 1
  reportOnce : l.count .report = 1
  /-- The prompt recorder holds the prompt of the chat, and so does sc. -/
  chat : ∃ P, IsChat (received l) P ∧ s.fsmInit.vars.ps1buf.Records P ∧
    s.ps1buf.Records (untilNul P) ∧ (0 ∉ P → s.ps1buf.Records P)
  noReply : scHasreply s = false
  consumed : s.readbuf.cnt = 0

theorem Opened.ready {v : View} {s : Sc} (h : Opened l v) (hs : s.Shows v) : Ready l s := by
  obtain ⟨P, hchat, hg, hps1, hout, hrb, hcount⟩ := h
  have hcur : s.curfsm = .init := by rw [hs.curfsm, hg]; rfl
  have hrec : s.ps1buf.Records (untilNul P) := hps1 ▸ hs.ps1buf
  have hprog := hs.prog
  rw [hcur, hg] at hprog
  obtain ⟨x, hx, hholds⟩ := hprog
  obtain ⟨-, rfl⟩ := Program.init.inj hx
  refine ⟨hcount.key, hcount.report, ⟨P, hchat, hholds.1, hrec, fun h0 => ?_⟩, ?_,
    hs.readbuf.cnt_eq_zero.mpr hrb⟩
  · rwa [untilNul_of_notMem h0] at hrec
  · rw [scHasreply, hs.outbuf.counts.cnt_eq_zero.mpr hout]
    rfl

/-- **One key press and one size report, in order.**  In every run the key is
pressed and the size reported at most once, in this order, and while no machine
was reset yet, which is while the init machine is the current one; and when the
init phase is over both have happened, after a chat of the form of the table. -/
theorem init_phase {c : Conf} (h : Run start l c) :
    EachEvent OnceInOrder l ∧ (c.sc.curfsm = .init ↔ ∀ m, .reset m ∉ l) ∧
      (c.sc.state = .ready → c.sc.curfsm = .init → Ready l c.sc) := by
  obtain ⟨v, hshows, ho⟩ := run_opens h
  have hsc : c.sc.Shows v := hshows.1
  refine ⟨ho.steps, by rw [hsc.curfsm]; exact ho.which, fun hst hcur => ?_⟩
  rw [hsc.state] at hst
  rw [hsc.curfsm] at hcur
  exact (ho.done hcur (by simp [hst])).ready hsc

/-- A chat that arrives in one piece: the key was pressed once. -/
theorem init_phase_chat : ∃ l c, Run start l c ∧ c.sc.state = .ready ∧ c.sc.curfsm = .init ∧
    Ready l c.sc := by
  obtain ⟨c, hrun, hc⟩ := run_chat isChat_x (by decide)
  have hst : c.sc.state = .ready := hc.1.state
  have hcur : c.sc.curfsm = .init := hc.1.curfsm
  exact ⟨_, c, hrun, hst, hcur, (init_phase hrun).2.2 hst hcur⟩

end Core

end Swh
