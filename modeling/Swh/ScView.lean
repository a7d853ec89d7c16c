/-
What sc does, without buffers.

A `View` is what the variables of sc say: the bytes in its buffers as lists, and
the current machine as a program.  `View.Operates` lists all that one call of
`sc_operate` can do to it, guard by guard; results about sc are case analyses of
this relation.

* `scOperate_refines`, `scWrite_refines` — the calls of the source do to the
  variables what the relation says, and log the same events.
-/
import Swh.Sc
import Swh.Program

namespace Swh

namespace Program

/-- Which machine runs the program. -/
def which : Program → CurFsm
  | init _ _ => .init
  | cmdout _ _ => .cmdout
  | inchar _ => .inchar

/-- The machine right after it was reset. -/
def start : CurFsm → Program
  | .init => init .sta ⟨[], false, false⟩
  | .cmdout => cmdout .sta ⟨[], []⟩
  | .inchar => inchar .sta

/-- What the flags of the init machine make sc write. -/
def reaction : Program → List Ev
  | init _ x => (if x.anykey then [.key] else []) ++ (if x.report then [.report] else [])
  | _ => []

/-- The flags are cleared as they are read. -/
def settle : Program → Program
  | init st x => init st ⟨x.ps1, false, false⟩
  | g => g

@[simp] theorem which_take (g : Program) (t : HpTok) (c : Option UInt8) :
    (g.take t c).which = g.which := by
  cases g <;> rfl

@[simp] theorem which_settle (g : Program) : g.settle.which = g.which := by
  cases g <;> rfl

@[simp] theorem which_start (m : CurFsm) : (start m).which = m := by
  cases m <;> rfl

@[simp] theorem error_settle (g : Program) : g.settle.error = g.error := by
  cases g <;> rfl

theorem which_feed {g g' : Program} {d r : List UInt8} (h : g.feed d = .ok (g', r)) :
    g'.which = g.which := by
  obtain ⟨-, -, h⟩ := feed_invariant (I := fun _ g' => g'.which = g.which) (q := [])
    (fun q g₁ u t hq _ _ => by rw [which_take, hq]) rfl h
  exact h

end Program

/-- The variables of sc, with lists for its buffers. -/
structure View where
  nodataflag : Bool
  state : ScState
  /-- Received, but not consumed yet. -/
  rb : List UInt8
  /-- Queued, but not written yet. -/
  wq : List UInt8
  out : List UInt8
  ps1 : List UInt8
  prog : Program

/-- The machine `oper_writing` selects for a byte. -/
def select (c : UInt8) : CurFsm := if c = NEWLINE then .cmdout else .inchar

/-- It is not the init machine again. -/
theorem which_select_ne (c : UInt8) : (Program.start (select c)).which ≠ .init := by
  rw [Program.which_start, select]
  split <;> simp

/-- The event of a read. -/
def readEv : Option (List UInt8) → Ev
  | none => .eagain
  | some bs => .read bs

theorem mem_reaction {g : Program} {e : Ev} (h : e ∈ g.reaction) : e = .key ∨ e = .report := by
  rcases g with ⟨st, x⟩ | ⟨st, x⟩ | st
  · rcases List.mem_append.mp h with h | h <;> split at h
    · exact .inl (List.mem_singleton.mp h)
    · cases h
    · exact .inr (List.mem_singleton.mp h)
    · cases h
  · cases h
  · cases h

namespace View

/-- The view when the program starts. -/
def init : View := ⟨false, .busy, [], [], [], [], .start .init⟩

/-- The data `oper_busy` works on: what was left over and what was read. -/
def data (v : View) (o : Option (List UInt8)) : List UInt8 := v.rb ++ o.getD []

theorem data_eq_nil {v : View} {r : ReadResult} {o : Option (List UInt8)} (hr : xread r = .ok o)
    (hd : v.data o = []) : v.rb = [] ∧ o = none := by
  obtain ⟨hrb, ho⟩ := List.append_eq_nil_iff.mp hd
  rcases o with _ | bs
  · exact ⟨hrb, rfl⟩
  · exact absurd ho (xread_some hr)

/-- **All that `sc_operate` can do**: the events and the outcome of a call whose
read, if it comes to that, has the result `r`. -/
inductive Operates (v : View) (r : ReadResult) : List Ev → Except Stop (View × Bool) → Prop
  | write {c wq} (hst : v.state = .writing) (hwq : v.wq = c :: wq) :
      Operates v r [.wrote c, .reset (select c)]
        (.ok ({ v with wq := wq, prog := .start (select c), state := .busy }, true))
  | noNewline (hst : v.state = .writing) (hwq : v.wq = []) :
      Operates v r [] (.error (.panic .noNewline))
  | ready (hst : v.state = .ready) : Operates v r [] (.error (.panic .operateReady))
  | offline (hst : v.state = .offline) : Operates v r [] (.error (.panic .operateOffline))
  | invalid {st} (hst : v.state = .other st) :
      Operates v r [] (.error (.panic (.invalidState st)))
  | readFails {e} (hst : v.state = .busy) (hr : xread r = .error e) : Operates v r [] (.error e)
  -- there is data
  | malformed {o e} (hst : v.state = .busy) (hr : xread r = .ok o) (hd : v.data o ≠ [])
      (hfeed : v.prog.feed (v.data o) = .error e) : Operates v r [readEv o] (.error e)
  | starved {o} (hst : v.state = .busy) (hr : xread r = .ok o) (hd : v.data o ≠ [])
      (hfeed : v.prog.feed (v.data o) = .ok (v.prog, v.data o)) :
      Operates v r [readEv o] (.ok ({ v with nodataflag := false, rb := v.data o }, false))
  | fed {o g rest} (hst : v.state = .busy) (hr : xread r = .ok o)
      (hfeed : v.prog.feed (v.data o) = .ok (g, rest)) (hlt : rest.length < (v.data o).length)
      (herr : g.error = false) :
      Operates v r (readEv o :: g.reaction)
        (.ok ({ v with nodataflag := false, rb := rest, prog := g.settle }, true))
  | fsmError {o g rest} (hst : v.state = .busy) (hr : xread r = .ok o)
      (hfeed : v.prog.feed (v.data o) = .ok (g, rest)) (hlt : rest.length < (v.data o).length)
      (herr : g.error = true) :
      Operates v r (readEv o :: g.reaction) (.error (.panic .fsmError))
  -- there is none
  | wait (hst : v.state = .busy) (hr : xread r = .ok none) (hrb : v.rb = [])
      (hacc : v.prog.accepts = false) (hflag : v.nodataflag = false) :
      Operates v r [.eagain] (.ok ({ v with nodataflag := true }, false))
  | meh (hst : v.state = .busy) (hr : xread r = .ok none) (hrb : v.rb = [])
      (hacc : v.prog.accepts = false) (hflag : v.nodataflag = true) :
      Operates v r [.eagain] (.error (.panic .meh))
  | ack (hst : v.state = .busy) (hr : xread r = .ok none) (hrb : v.rb = [])
      (hacc : v.prog.accepts = true) (hwq : v.wq ≠ []) :
      Operates v r [.eagain, .eod v.prog.which 0 true]
        (.ok ({ v with prog := v.prog.eod, state := .writing }, true))
  | outbufNotEmpty (hst : v.state = .busy) (hr : xread r = .ok none) (hrb : v.rb = [])
      (hacc : v.prog.accepts = true) (hwq : v.wq = []) (hout : v.out ≠ []) :
      Operates v r [.eagain, .eod v.prog.which 0 true] (.error (.panic .outbufNotEmpty))
  | done (hst : v.state = .busy) (hr : xread r = .ok none) (hrb : v.rb = [])
      (hacc : v.prog.accepts = true) (hwq : v.wq = []) (hout : v.out = []) :
      Operates v r [.eagain, .eod v.prog.which 0 true, .ready]
        (.ok ({ v with
          prog := v.prog.eod, state := .ready, out := untilNul v.prog.eod.outText
          ps1 := untilNul v.prog.eod.ps1Text }, true))

end View

/-- The variables of sc say what the view says. -/
structure Sc.Shows (s : Sc) (v : View) : Prop where
  nodataflag : s.nodataflag = v.nodataflag
  state : s.state = v.state
  readbuf : s.readbuf.Counts v.rb
  writebuf : s.writebuf.Counts v.wq
  outbuf : s.outbuf.Records v.out
  ps1buf : s.ps1buf.Records v.ps1
  prog : match s.curfsm with
    | .init => Init.Shows s.fsmInit v.prog
    | .cmdout => Cmdout.Shows s.fsmCmdout v.prog
    | .inchar => Inchar.Shows s.fsmInchar v.prog

variable {s : Sc} {v : View}

theorem scInit_shows : scInit.Shows .init where
  nodataflag := rfl
  state := rfl
  readbuf := (Buf.xmalloc_records _ _).counts
  writebuf := (Buf.xmalloc_records _ _).counts
  outbuf := Buf.xmalloc_records _ _
  ps1buf := Buf.xmalloc_records _ _
  prog := ⟨_, rfl, Init.init_holds⟩

/-! ### Calls on the current machine -/

theorem Sc.Shows.curfsm (h : s.Shows v) : s.curfsm = v.prog.which := by
  have hprog := h.prog
  cases hc : s.curfsm with
  | init =>
    rw [hc] at hprog
    obtain ⟨x, hx, -⟩ := hprog
    rw [hx]
    rfl
  | cmdout =>
    rw [hc] at hprog
    obtain ⟨x, hx, -⟩ := hprog
    rw [hx]
    rfl
  | inchar =>
    rw [hc] at hprog
    rw [show v.prog = _ from hprog]
    rfl

theorem curFeed_spec (h : s.Shows v) (d : List UInt8) :
    (curFeed s d).log = [] ∧
      Agree (fun a b => a.1.Shows { v with prog := b.1 } ∧ a.2 ≤ d.length ∧ b.2 = d.drop a.2)
        (curFeed s d).res (v.prog.feed d) := by
  have hprog := h.prog
  -- the same for each machine `f`; `k` puts the machine and the parser back
  have key : ∀ {σ ρ α : Type} [DecidableEq σ] {f : Fsm σ HpTok α ρ}
      {S : Mach σ ρ → Program → Prop} (hf : ShowsPrograms f S) {m : Mach σ ρ}
      (hm : S m v.prog) (k : Mach σ ρ × Parser × ℕ → Sc)
      (hk : ∀ q g, S q.1 g → (k q).Shows { v with prog := g }),
      ((f.fsmFeed m s.parser d).silent >>= fun q => (pure (k q, q.2.2) :
        Logged Ev Stop (Sc × ℕ))).log = [] ∧
      Agree (fun a b => a.1.Shows { v with prog := b.1 } ∧ a.2 ≤ d.length ∧ b.2 = d.drop a.2)
        ((f.fsmFeed m s.parser d).silent >>= fun q => (pure (k q, q.2.2) :
          Logged Ev Stop (Sc × ℕ))).res (v.prog.feed d) := by
    intro σ ρ α _ f S hf m hm k hk
    have hsim := hf.feed_sim hm s.parser d
    generalize hx : (f.fsmFeed m s.parser d).res = x at hsim
    generalize v.prog.feed d = y at hsim
    have hx' : ((f.fsmFeed m s.parser d).silent : Logged Ev Stop _).res = x := hx
    cases hsim with
    | ok hab =>
      rw [Logged.bind_of_ok hx']
      exact ⟨rfl, .ok ⟨hk _ _ hab.1, hab.2⟩⟩
    | error e =>
      rw [Logged.bind_of_error hx']
      exact ⟨rfl, .error e⟩
  rw [curFeed]
  cases hc : s.curfsm with
  | init =>
    rw [hc] at hprog
    exact key init_shows hprog _ fun q g hg =>
      ⟨h.nodataflag, h.state, h.readbuf, h.writebuf, h.outbuf, h.ps1buf, by simpa [hc] using hg⟩
  | cmdout =>
    rw [hc] at hprog
    exact key cmdout_shows hprog _ fun q g hg =>
      ⟨h.nodataflag, h.state, h.readbuf, h.writebuf, h.outbuf, h.ps1buf, by simpa [hc] using hg⟩
  | inchar =>
    rw [hc] at hprog
    exact key inchar_shows hprog _ fun q g hg =>
      ⟨h.nodataflag, h.state, h.readbuf, h.writebuf, h.outbuf, h.ps1buf, by simpa [hc] using hg⟩

theorem curFeedNull_probe (h : s.Shows v) :
    curFeedNull s 0 = pure (s, if v.prog.accepts then 1 else 0) := by
  have hprog := h.prog
  rw [curFeedNull]
  cases hc : s.curfsm with
  | init =>
    rw [hc] at hprog
    dsimp only
    rw [init_shows.probe hprog, ← hc]
    rfl
  | cmdout =>
    rw [hc] at hprog
    dsimp only
    rw [cmdout_shows.probe hprog, ← hc]
    rfl
  | inchar =>
    rw [hc] at hprog
    dsimp only
    rw [inchar_shows.probe hprog, ← hc]
    rfl

theorem curFeedNull_commit (h : s.Shows v) (hg : v.prog.error = false) :
    ∃ s', curFeedNull s 1 = pure (s', 1) ∧ s'.Shows { v with prog := v.prog.eod } := by
  have hprog := h.prog
  rw [curFeedNull]
  cases hc : s.curfsm with
  | init =>
    rw [hc] at hprog
    obtain ⟨m, hm, hshows⟩ := init_shows.commit hprog hg
    refine ⟨{ s with fsmInit := m }, ?_, ⟨h.nodataflag, h.state, h.readbuf, h.writebuf,
      h.outbuf, h.ps1buf, by simpa [hc] using hshows⟩⟩
    dsimp only
    rw [Logged.silent_bind_of_ok hm, ← hc]
  | cmdout =>
    rw [hc] at hprog
    obtain ⟨m, hm, hshows⟩ := cmdout_shows.commit hprog hg
    refine ⟨{ s with fsmCmdout := m }, ?_, ⟨h.nodataflag, h.state, h.readbuf, h.writebuf,
      h.outbuf, h.ps1buf, by simpa [hc] using hshows⟩⟩
    dsimp only
    rw [Logged.silent_bind_of_ok hm, ← hc]
  | inchar =>
    rw [hc] at hprog
    obtain ⟨m, hm, hshows⟩ := inchar_shows.commit hprog hg
    refine ⟨{ s with fsmInchar := m }, ?_, ⟨h.nodataflag, h.state, h.readbuf, h.writebuf,
      h.outbuf, h.ps1buf, by simpa [hc] using hshows⟩⟩
    dsimp only
    rw [Logged.silent_bind_of_ok hm, ← hc]

theorem curError_eq (h : s.Shows v) : curError s = v.prog.error := by
  have hprog := h.prog
  rw [curError]
  cases hc : s.curfsm with
  | init => rw [hc] at hprog; exact init_shows.error hprog
  | cmdout => rw [hc] at hprog; exact cmdout_shows.error hprog
  | inchar => rw [hc] at hprog; exact inchar_shows.error hprog

theorem curAccepting_eq (h : s.Shows v) : curAccepting s = v.prog.accepting := by
  have hprog := h.prog
  rw [curAccepting]
  cases hc : s.curfsm with
  | init => rw [hc] at hprog; exact init_shows.accepting hprog
  | cmdout => rw [hc] at hprog; exact cmdout_shows.accepting hprog
  | inchar => rw [hc] at hprog; exact inchar_shows.accepting hprog

theorem curOut_eq (h : s.Shows v) : curOut s = .ok (untilNul v.prog.outText) := by
  have hprog := h.prog
  rw [curOut]
  cases hc : s.curfsm with
  | init =>
    rw [hc] at hprog
    obtain ⟨x, hx, -⟩ := hprog
    rw [hx]
    rfl
  | cmdout =>
    rw [hc] at hprog
    obtain ⟨x, hx, hholds⟩ := hprog
    rw [hx]
    exact cstring_of_records hholds.1.1
  | inchar =>
    rw [hc] at hprog
    rw [show v.prog = _ from hprog]
    rfl

theorem curPs1_eq (h : s.Shows v) : curPs1 s = .ok (untilNul v.prog.ps1Text) := by
  have hprog := h.prog
  rw [curPs1]
  cases hc : s.curfsm with
  | init =>
    rw [hc] at hprog
    obtain ⟨x, hx, hholds⟩ := hprog
    rw [hx]
    exact cstring_of_records hholds.1.1
  | cmdout =>
    rw [hc] at hprog
    obtain ⟨x, hx, hholds⟩ := hprog
    rw [hx]
    exact cstring_of_records hholds.2.1
  | inchar =>
    rw [hc] at hprog
    rw [show v.prog = _ from hprog]
    rfl

/-! ### Reading -/

/-- There is always room for at least one byte. -/
theorem readRoom_counts {xs : List UInt8} (h : s.readbuf.Counts xs) :
    (readRoom s).Counts xs ∧ (readRoom s).cnt = s.readbuf.cnt ∧
      s.readbuf.cnt < (readRoom s).mem.size := by
  have hle := h.cnt_le
  rw [readRoom]
  split
  · have hgrow := (le_size_growbuf s.readbuf.mem (s.readbuf.mem.size * 2)).1
    have hpos := s.readbuf.mem.size_pos
    refine ⟨Buf.grow_counts h _, rfl, ?_⟩
    show s.readbuf.cnt < (growbuf s.readbuf.mem (s.readbuf.mem.size * 2)).size
    omega
  · exact ⟨h, rfl, by omega⟩

theorem readMore_spec (h : s.Shows v) {r : ReadResult} (hr : r.Fits s) {o : Option (List UInt8)}
    (ho : xread r = .ok o) :
    ∃ s', readMore r s = ⟨[readEv o], .ok (s', (o.getD []).length)⟩ ∧
      s'.Shows { v with rb := v.data o } := by
  obtain ⟨hcounts, hcnt, -⟩ := readRoom_counts h.readbuf
  rw [readMore, ho]
  rcases o with _ | bs
  · refine ⟨{ s with readbuf := readRoom s }, rfl, ⟨h.nodataflag, h.state, ?_, h.writebuf,
      h.outbuf, h.ps1buf, h.prog⟩⟩
    rw [View.data, Option.getD_none, List.append_nil]
    exact hcounts
  · obtain ⟨b, hb, hcounts', -⟩ := Buf.append_counts bs hcounts
      (by rw [hcnt]; exact hr bs (xread_bytes ho))
    refine ⟨{ s with readbuf := b }, ?_, ⟨h.nodataflag, h.state, hcounts', h.writebuf,
      h.outbuf, h.ps1buf, h.prog⟩⟩
    dsimp only
    rw [hb]
    rfl

theorem readMore_error {r : ReadResult} {e : Stop} (hr : xread r = .error e) :
    readMore r s = Logged.fail e := by
  rw [readMore, hr]

/-! ### Writing -/

theorem programFor_spec (h : s.Shows v) (c : UInt8) :
    ∃ s', programFor c s = ⟨[.reset (select c)], .ok s'⟩ ∧
      s'.Shows { v with prog := .start (select c) } := by
  rw [programFor, select]
  split
  · exact ⟨_, rfl, ⟨h.nodataflag, h.state, h.readbuf, h.writebuf, h.outbuf, h.ps1buf,
      ⟨_, rfl, Cmdout.reset_holds _⟩⟩⟩
  · exact ⟨_, rfl, ⟨h.nodataflag, h.state, h.readbuf, h.writebuf, h.outbuf, h.ps1buf, rfl⟩⟩

/-- An outcome of the source and one of the relation. -/
def Refines (v : View) (r : ReadResult) (x : Logged Ev Stop (Sc × Bool)) : Prop :=
  ∃ res, v.Operates r x.log res ∧ Agree (fun a b => a.1.Shows b.1 ∧ a.2 = b.2) x.res res

theorem operWriting_refines (h : s.Shows v) (hst : v.state = .writing) (r : ReadResult) :
    Refines v r (operWriting s) := by
  rw [operWriting]
  rcases hwq : v.wq with _ | ⟨c, wq⟩
  · rw [if_pos (h.writebuf.cnt_eq_zero.mpr hwq)]
    exact ⟨_, .noNewline hst hwq, .error _⟩
  · have hcounts := h.writebuf
    rw [hwq] at hcounts
    have hload : s.writebuf.mem.load 0 = some c := Block.load_of_holds hcounts.1 (by simp)
    obtain ⟨b, hb, hcounts', -⟩ := shiftbuf_counts [c] wq hcounts
    have hshift : Sc.Shows { s with writebuf := b } { v with wq := wq } :=
      ⟨h.nodataflag, h.state, h.readbuf, hcounts', h.outbuf, h.ps1buf, h.prog⟩
    obtain ⟨s', hs', hprog⟩ := programFor_spec hshift c
    rw [if_neg (by rw [hcounts.cnt_eq_zero]; simp), hload, access_some, Logged.lift_ok_bind,
      Logged.tell_bind, show shiftbuf s.writebuf 1 = .ok b from hb, Logged.lift_ok_bind, hs',
      Logged.bind_of_ok rfl]
    exact ⟨_, .write hst hwq, .ok ⟨⟨hprog.nodataflag, rfl, hprog.readbuf, hprog.writebuf,
      hprog.outbuf, hprog.ps1buf, hprog.prog⟩, rfl⟩⟩

/-! ### Data in the read buffer -/

/-- The two flags are read and cleared, set or not. -/
theorem res_reactInit (s : Sc) :
    (reactInit s).res = .ok { s with fsmInit := (Init.report (Init.anykey s.fsmInit).2).2 } := by
  rw [reactInit, Init.anykey, Init.report]
  cases s.fsmInit.vars.anykey <;> cases s.fsmInit.vars.report <;> rfl

theorem reactInit_spec (h : s.Shows v) (hc : s.curfsm = .init) :
    ∃ s', reactInit s = ⟨v.prog.reaction, .ok s'⟩ ∧ s'.Shows { v with prog := v.prog.settle } := by
  have hprog := h.prog
  rw [hc] at hprog
  obtain ⟨x, hx, hps1, hkey, hrep⟩ := hprog
  have hsettle : s.fsmInit.vars.anykey = x.anykey ∧ s.fsmInit.vars.report = x.report :=
    ⟨hkey, hrep⟩
  refine ⟨{ s with fsmInit := (Init.report (Init.anykey s.fsmInit).2).2 }, ?_, ?_⟩
  · rw [reactInit, Init.anykey, Init.report, hx, Program.reaction, ← hkey, ← hrep]
    rcases s.fsmInit.vars.anykey <;> rcases s.fsmInit.vars.report <;> rfl
  · refine ⟨h.nodataflag, h.state, h.readbuf, h.writebuf, h.outbuf, h.ps1buf, ?_⟩
    rw [hx]
    simp only [hc]
    exact ⟨⟨x.ps1, false, false⟩, rfl, hps1, rfl, rfl⟩

/-- Whatever the current machine is, sc reacts to its flags. -/
theorem react_spec (h : s.Shows v) :
    ∃ s', react s = ⟨v.prog.reaction, .ok s'⟩ ∧
      s'.Shows { v with prog := v.prog.settle } := by
  rw [react]
  by_cases hc : s.curfsm = .init
  · rw [if_pos hc]
    exact reactInit_spec h hc
  · rw [if_neg hc]
    rw [h.curfsm] at hc
    have hnone : v.prog.reaction = [] ∧ v.prog.settle = v.prog := by
      rcases hg : v.prog with ⟨st, x⟩ | ⟨st, x⟩ | st
      · rw [hg] at hc; exact absurd rfl hc
      · exact ⟨rfl, rfl⟩
      · exact ⟨rfl, rfl⟩
    rw [hnone.1, hnone.2]
    exact ⟨s, rfl, h⟩

/-- `oper_busy` on the data in the read buffer. -/
theorem busyData_spec (h : s.Shows v) (hrb : v.rb ≠ []) :
    (∃ e, v.prog.feed v.rb = .error e ∧ busyData s = Logged.fail e) ∨
    (v.prog.feed v.rb = .ok (v.prog, v.rb) ∧ ∃ s', busyData s = ⟨[], .ok (s', false)⟩ ∧
      s'.Shows { v with nodataflag := false }) ∨
    (∃ g rest, v.prog.feed v.rb = .ok (g, rest) ∧ rest.length < v.rb.length ∧
      ((g.error = true ∧ busyData s = ⟨g.reaction, .error (.panic .fsmError)⟩) ∨
        (g.error = false ∧ ∃ s', busyData s = ⟨g.reaction, .ok (s', true)⟩ ∧
          s'.Shows { v with nodataflag := false, rb := rest, prog := g.settle }))) := by
  have hflag : Sc.Shows { s with nodataflag := false } { v with nodataflag := false } :=
    ⟨rfl, h.state, h.readbuf, h.writebuf, h.outbuf, h.ps1buf, h.prog⟩
  obtain ⟨hlog, hfeed⟩ := curFeed_spec hflag v.rb
  rw [busyData, h.readbuf.read, Logged.lift_ok_bind]
  generalize hx : curFeed { s with nodataflag := false } v.rb = x at hlog hfeed ⊢
  obtain ⟨l, res⟩ := x
  obtain rfl : l = [] := hlog
  dsimp only at hfeed
  -- a malformed sequence stops the call before sc reacts to anything
  rcases hg : v.prog.feed v.rb with e | ⟨g, rest⟩
  · rw [show res = .error e from hfeed.error_iff.mpr hg]
    exact .inl ⟨e, rfl, rfl⟩
  · rw [hg] at hfeed
    obtain ⟨⟨s₁, n⟩, rfl, hshows, hn, hrest⟩ := hfeed.exists_ok_left
    dsimp only at hshows hn hrest
    rw [Logged.bind_of_ok rfl]
    dsimp only
    rcases Nat.eq_zero_or_pos n with rfl | hpos
    · -- nothing was consumed
      rw [List.drop_zero] at hrest
      obtain ⟨rfl, rfl⟩ := Program.feed_state_eq hg (by rw [hrest])
      exact .inr (.inl ⟨rfl, s₁, rfl, hshows⟩)
    · have hlen : rest.length < v.rb.length := by
        rw [hrest, List.length_drop]
        have := List.length_pos_iff.mpr hrb
        omega
      obtain ⟨s₂, hreact, hshows₂⟩ := react_spec hshows
      have hcounts := hshows₂.readbuf
      obtain ⟨b, hb, hcounts', -⟩ := shiftbuf_counts (b := s₂.readbuf) (v.rb.take n)
        rest (by rw [hrest, List.take_append_drop]; exact hcounts)
      rw [List.length_take, Nat.min_eq_left hn] at hb
      have hfinal : Sc.Shows { s₂ with readbuf := b }
          { v with nodataflag := false, rb := rest, prog := g.settle } :=
        ⟨hshows₂.nodataflag, hshows₂.state, hcounts', hshows₂.writebuf, hshows₂.outbuf,
          hshows₂.ps1buf, hshows₂.prog⟩
      -- clearing the flags does not touch the state of the machine
      have herr : curError { s₂ with readbuf := b } = g.error :=
        (curError_eq hfinal).trans (Program.error_settle g)
      refine .inr (.inr ⟨g, rest, rfl, hlen, ?_⟩)
      rw [if_neg (by omega), hreact, Logged.bind_of_ok rfl, hb, Logged.lift_ok_bind, herr,
        List.nil_append]
      rcases hge : g.error with _ | _
      · refine .inr ⟨rfl, _, ?_, hfinal⟩
        rw [if_neg (by simp)]
        simp
      · refine .inl ⟨rfl, ?_⟩
        rw [if_pos rfl]
        simp

/-! ### No data -/

theorem copyString_spec (b : Buf) (str : List UInt8) :
    ∃ b', copyString b str = .ok b' ∧ b'.Records str := by
  have hroom := (le_size_growbuf b.mem (str.length + 1)).1
  obtain ⟨m, hm, hsize, hholds⟩ := Block.write_holds (b := growbuf b.mem (str.length + 1))
    str Block.holds_nil (by rw [List.length_nil]; omega)
  obtain ⟨m', hm', -, hholds'⟩ := Block.store_of_holds hholds
    (by rw [List.nil_append, hsize]; omega) 0
  rw [List.nil_append] at hm'
  refine ⟨⟨m', str.length⟩, ?_, hholds', rfl⟩
  rw [copyString, show (growbuf b.mem (str.length + 1)).write 0 str = some m from hm,
    access_some]
  show (access (m.store str.length 0)).bind _ = _
  rw [hm']
  rfl

/-- Output and prompt are fetched as C strings. -/
theorem handover_spec (h : s.Shows v) (hout : v.out = []) :
    ∃ s', handover s = ⟨[.ready], .ok (s', true)⟩ ∧ s'.Shows { v with
      state := .ready, out := untilNul v.prog.outText, ps1 := untilNul v.prog.ps1Text } := by
  have hcnt : s.outbuf.cnt = 0 := h.outbuf.counts.cnt_eq_zero.mpr hout
  obtain ⟨b, hb, hrec⟩ := copyString_spec s.outbuf (untilNul v.prog.outText)
  obtain ⟨b', hb', hrec'⟩ := copyString_spec s.ps1buf (untilNul v.prog.ps1Text)
  refine ⟨{ s with outbuf := b, ps1buf := b', state := .ready }, ?_,
    ⟨h.nodataflag, rfl, h.readbuf, h.writebuf, hrec, hrec', h.prog⟩⟩
  rw [handover, if_neg (by simp [hcnt]), curOut_eq h, Logged.lift_ok_bind, hb,
    Logged.lift_ok_bind, curPs1_eq h, Logged.lift_ok_bind, hb', Logged.lift_ok_bind]
  rfl

theorem busyNodata_refines (h : s.Shows v) (hst : v.state = .busy) (hrb : v.rb = [])
    {r : ReadResult} (hr : xread r = .ok none) :
    ∃ l res, busyNodata s = ⟨l, res⟩ ∧ Refines v r ⟨.eagain :: l, res⟩ := by
  rw [busyNodata, curFeedNull_probe h, Logged.pure_bind]
  dsimp only
  by_cases hacc : v.prog.accepts = true
  · obtain ⟨hg, haccepting⟩ := Program.accepts_iff.mp hacc
    obtain ⟨s', hs', hshows⟩ := curFeedNull_commit h hg
    have hcnt : s'.readbuf.cnt = 0 := hshows.readbuf.cnt_eq_zero.mpr hrb
    have hev : Ev.eod s'.curfsm s'.readbuf.cnt (curAccepting s')
        = .eod v.prog.which 0 true := by
      rw [curAccepting_eq hshows, hcnt, hshows.curfsm, haccepting]
      exact congrArg (Ev.eod · 0 true) (Program.which_take _ _ _)
    rw [hacc, if_pos rfl, if_pos (by decide), hs', Logged.pure_bind, Logged.tell_bind, hev]
    dsimp only
    by_cases hwq : v.wq = []
    · rw [if_neg (by simp [hshows.writebuf.cnt_eq_zero.mpr hwq])]
      by_cases hout : v.out = []
      · obtain ⟨s'', hs'', hshows'⟩ := handover_spec hshows hout
        rw [hs'']
        exact ⟨_, _, rfl, _, .done hst hr hrb hacc hwq hout, .ok ⟨hshows', rfl⟩⟩
      · have hne : s'.outbuf.cnt ≠ 0 := fun h0 => hout (hshows.outbuf.counts.cnt_eq_zero.mp h0)
        rw [handover, if_pos hne]
        exact ⟨_, _, rfl, _, .outbufNotEmpty hst hr hrb hacc hwq hout, .error _⟩
    · have hne : s'.writebuf.cnt ≠ 0 := fun h0 => hwq (hshows.writebuf.cnt_eq_zero.mp h0)
      rw [if_pos hne]
      exact ⟨_, _, rfl, _, .ack hst hr hrb hacc hwq, .ok ⟨⟨hshows.nodataflag, rfl,
        hshows.readbuf, hshows.writebuf, hshows.outbuf, hshows.ps1buf, hshows.prog⟩, rfl⟩⟩
  · rw [if_neg hacc, if_neg (by simp)]
    rw [Bool.not_eq_true] at hacc
    rcases hflag : v.nodataflag with _ | _
    · rw [h.nodataflag, hflag, if_pos rfl]
      exact ⟨_, _, rfl, _, .wait hst hr hrb hacc hflag, .ok ⟨⟨rfl, h.state, h.readbuf,
        h.writebuf, h.outbuf, h.ps1buf, h.prog⟩, rfl⟩⟩
    · rw [h.nodataflag, hflag, if_neg (by simp)]
      exact ⟨_, _, rfl, _, .meh hst hr hrb hacc hflag, .error _⟩

/-! ### Whole calls -/

theorem operBusy_refines (h : s.Shows v) (hst : v.state = .busy) {r : ReadResult}
    (hr : r.Fits s) : Refines v r (operBusy r s) := by
  rw [operBusy]
  rcases ho : xread r with e | o
  · rw [readMore_error ho]
    exact ⟨_, .readFails hst ho, .error e⟩
  · obtain ⟨s', hs', hshows⟩ := readMore_spec h hr ho
    rw [hs', Logged.bind_of_ok rfl]
    dsimp only
    -- `read_more() || s_readbufcnt`
    by_cases hd : v.data o = []
    · obtain ⟨hrb, rfl⟩ := View.data_eq_nil ho hd
      have hview : { v with rb := v.data none } = v := by rw [hd, ← hrb]
      rw [hview] at hshows
      rw [if_neg (by simp [hshows.readbuf.cnt_eq_zero.mpr hrb])]
      obtain ⟨l, res, hl, href⟩ := busyNodata_refines hshows hst hrb ho
      rw [hl]
      exact href
    · have hne : s'.readbuf.cnt ≠ 0 := fun h0 => hd (hshows.readbuf.cnt_eq_zero.mp h0)
      rw [if_pos (.inr hne)]
      rcases busyData_spec hshows hd with ⟨e, hfeed, hbusy⟩ | ⟨hfeed, s₁, hbusy, hs₁⟩ |
        ⟨g, rest, hfeed, hlt, hcase⟩
      · rw [hbusy]
        exact ⟨_, .malformed hst ho hd hfeed, .error e⟩
      · rw [hbusy]
        exact ⟨_, .starved hst ho hd hfeed, .ok ⟨hs₁, rfl⟩⟩
      · rcases hcase with ⟨herr, hbusy⟩ | ⟨herr, s₁, hbusy, hs₁⟩
        · rw [hbusy]
          exact ⟨_, .fsmError hst ho hfeed hlt herr, .error _⟩
        · rw [hbusy]
          exact ⟨_, .fed hst ho hfeed hlt herr, .ok ⟨hs₁, rfl⟩⟩

/-- **`sc_operate` does what the relation allows.** -/
theorem scOperate_refines (h : s.Shows v) {r : ReadResult} (hr : r.Fits s) :
    Refines v r (scOperate r s) := by
  rw [scOperate, h.state]
  rcases hst : v.state with _ | _ | _ | _ | st
  · exact operBusy_refines h hst hr
  · exact ⟨_, .ready hst, .error _⟩
  · exact operWriting_refines h hst r
  · exact ⟨_, .offline hst, .error _⟩
  · exact ⟨_, .invalid hst, .error _⟩

/-- **`sc_write` queues a string when sc is ready** and nothing is queued yet. -/
theorem scWrite_refines (h : s.Shows v) (hst : v.state = .ready) (hwq : v.wq = [])
    (str : List UInt8) : ∃ s', scWrite str s = ⟨[.queued str], .ok s'⟩ ∧
      s'.Shows { v with wq := str, state := .writing, out := [] } := by
  have hcounts := Buf.grow_counts h.writebuf (s.writebuf.cnt + str.length + 1)
  rw [hwq] at hcounts
  have hroom := (le_size_growbuf s.writebuf.mem (s.writebuf.cnt + str.length + 1)).1
  have hcnt : s.writebuf.cnt = 0 := h.writebuf.cnt_eq_zero.mpr hwq
  obtain ⟨b, hb, hb', hsize⟩ := Buf.append_counts str hcounts (by
    show s.writebuf.cnt + _ ≤ (growbuf s.writebuf.mem _).size
    omega)
  obtain ⟨m, hm, -, hholds⟩ := Block.store_of_holds hb'.1 (by
    rw [hsize, List.nil_append]
    show _ < (growbuf s.writebuf.mem _).size
    omega) 0
  rw [← hb'.2] at hm
  refine ⟨{ s with writebuf := ⟨m, b.cnt⟩, state := .writing, outbuf := s.outbuf.clear }, ?_,
    ⟨h.nodataflag, rfl, h.readbuf, ⟨hholds.of_append, hb'.2⟩, Buf.clear_records _, h.ps1buf,
      h.prog⟩⟩
  rw [scWrite, if_neg (by rw [h.state, hst]; simp), if_neg (by simp [hcnt]), hb,
    Logged.lift_ok_bind, hm, access_some, Logged.lift_ok_bind]
  rfl

/-- Only an empty pipe is logged as one. -/
theorem View.Operates.eagain {r : ReadResult} {l : List Ev} {res : Except Stop (View × Bool)}
    (hop : v.Operates r l res) (h : .eagain ∈ l) : xread r = .ok none := by
  have hnone : ∀ {o : Option (List UInt8)} {g : Program}, .eagain ∈ readEv o :: g.reaction →
      o = none := fun {o g} hmem => by
    rcases List.mem_cons.mp hmem with heq | hmem
    · cases o
      · rfl
      · cases heq
    · rcases mem_reaction hmem with heq | heq <;> cases heq
  cases hop with
  | malformed hst hr => exact hnone (g := .inchar .sta) h ▸ hr
  | starved hst hr => exact hnone (g := .inchar .sta) h ▸ hr
  | fed hst hr => exact hnone h ▸ hr
  | fsmError hst hr => exact hnone h ▸ hr
  | wait hst hr => exact hr
  | meh hst hr => exact hr
  | ack hst hr => exact hr
  | outbufNotEmpty hst hr => exact hr
  | done hst hr => exact hr
  | _ => simp at h

/-- While sc is busy it writes none of the queued bytes. -/
theorem View.Operates.wq_of_busy {r : ReadResult} {l : List Ev} {v' : View} {b : Bool}
    (hst : v.state = .busy) (hop : v.Operates r l (.ok (v', b))) : v'.wq = v.wq := by
  cases hop with
  | write hst' =>
    rw [hst] at hst'
    cases hst'
  | _ => rfl

/-! ### The relation leaves nothing open -/

/-- What a call does is determined by the view and the result of the read. -/
theorem View.Operates.unique {r : ReadResult} {l l' : List Ev}
    {res res' : Except Stop (View × Bool)} (h : v.Operates r l res) (h' : v.Operates r l' res') :
    l = l' ∧ res = res' := by
  cases h <;> cases h' <;> simp_all [View.data] <;> subst_vars <;> simp_all

/-- A call that the relation allows is the one the source makes. -/
theorem scOperate_of_operates (h : s.Shows v) {r : ReadResult} (hr : r.Fits s) {l : List Ev}
    {v' : View} {b : Bool} (hop : v.Operates r l (.ok (v', b))) :
    ∃ s', scOperate r s = ⟨l, .ok (s', b)⟩ ∧ s'.Shows v' := by
  obtain ⟨res, hop', hag⟩ := scOperate_refines h hr
  obtain ⟨hl, rfl⟩ := hop.unique hop'
  obtain ⟨⟨s', b'⟩, hres, hs', rfl⟩ := hag.exists_ok_left
  exact ⟨s', Logged.ext hl.symm hres, hs'⟩

end Swh
