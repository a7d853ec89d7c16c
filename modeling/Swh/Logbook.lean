/-
The program over a kernel.

`Core.Step` and `System.Step` leave it to the environment what `read(2)` returns, and take
for granted that what is written arrives.  Here sc and the front end read with `xread`, and sc
writes with `xwrite`, over a kernel that interrupts calls and writes less than it is asked to.

* `Follows.step` — a step over the kernel is a step of the program, and is entered;
* `logbook` — the transcripts tell all that was read and written, in order, and that is a
  run of the program.
-/
import Swh.Journal
import Swh.System

namespace Swh.Logbook

open Transcript (Source Op Entry After Reads EOF READ_ERROR records appended pieces)
open UcIa (FrontEnd)
open Ansiseq (ESC)

/-- The program, and what has been read and written. -/
structure Process where
  sys : System
  io : Transcript.State

/-- What `xread` comes to is what the callers make of a result of `read(2)`. -/
inductive Sees : Except Transcript.Stop (Option (List UInt8)) → ReadResult → Prop
  | got (b : UInt8) (bs : List UInt8) : Sees (.ok (some (b :: bs))) (.bytes (b :: bs))
  | eagain : Sees (.ok none) .eagain
  | eof : Sees (.error .readEOF) (.bytes [])
  | error : Sees (.error .read) .error

/-- The calls of `xwrite` that the events stand for. -/
def writes (stdin : ℤ) (l : List Ev) : List Op :=
  l.filterMap fun e => if e.bytes = [] then none else some (.xwrite stdin e.bytes)

/-- `remain` in `read_more` of sc -/
def remain (s : Sc) : ℕ := (readRoom s).mem.size - s.readbuf.cnt

/-- The front end is about to read, at the head of the loop of `uc_hasdata`. -/
structure Asks (s : System) (fe : FrontEnd) : Prop where
  phase : s.conf.phase = .user
  uc : s.uc = (fe, .hasdata)
  wait : fe.phase = .select true

/-- One step of the program.  ssh has the other ends of `stdin` and `stdout`. -/
inductive Step (k : Source) (stdin stdout : ℤ) : Process → List Ev → Process → Prop
  /-- `sc_operate` in state BUSY. -/
  | busy {s w uc buf io io₁ io₂ x} (r : ReadResult) (hst : s.state = .busy)
      (hread : Stops (Transcript.xread k stdout (remain s)) io x io₁) (hsees : Sees x r)
      (hfits : r.Fits s) (hwoken : w = true → r ≠ .eagain)
      (hwrite : Stops (Transcript.perform k (writes stdin (scOperate r s).log)) io₁ (.ok ()) io₂) :
      Step k stdin stdout ⟨⟨⟨s, .loop w⟩, uc, buf⟩, io⟩ (scOperate r s).log
        ⟨⟨Core.operated s (scOperate r s).res, uc, buf⟩, io₂⟩
  /-- What else the program does, it does without reading. -/
  | other {s s' l io io'} (h : System.Step s l s')
      (hst : s.conf.sc.state = .busy → s.conf.phase = .select) (hno : ∀ fe, ¬ Asks s fe)
      (hwrite : Stops (Transcript.perform k (writes stdin l)) io (.ok ()) io') :
      Step k stdin stdout ⟨s, io⟩ l ⟨s', io'⟩
  /-- `read_more` of the front end. -/
  | typed {s fe io io' x bs rest} (hask : Asks s fe)
      (hread : Stops (Transcript.xread k 0 (UcIa.READBUFSZ - fe.buf.cnt)) io x io')
      (hsees : Sees x (.bytes bs)) (hr : UcIa.Readable fe bs rest) :
      Step k stdin stdout ⟨s, io⟩ []
        ⟨{ s with uc := UcIa.next (UcIa.more true bs rest fe).2 }, io'⟩
  | eof {s fe io io' x} (hask : Asks s fe)
      (hread : Stops (Transcript.xread k 0 (UcIa.READBUFSZ - fe.buf.cnt)) io x io')
      (hsees : Sees x (.bytes [])) (hin : fe.input = []) :
      Step k stdin stdout ⟨s, io⟩ []
        ⟨{ s with uc := ({ fe with phase := .stopped (.panic .readEof) }, .hasdata) }, io'⟩
  /-- It panics on an error, and on `EAGAIN`. -/
  | hangup {s fe io io' x} {r : ReadResult} (hask : Asks s fe)
      (hread : Stops (Transcript.xread k 0 (UcIa.READBUFSZ - fe.buf.cnt)) io x io')
      (hsees : Sees x r) (hr : ∀ bs, r ≠ .bytes bs) :
      Step k stdin stdout ⟨s, io⟩ []
        ⟨{ s with uc := ({ fe with phase := .stopped (.panic .read) }, .hasdata) }, io'⟩

/-! ### What is entered -/

/-- The entries of the transcripts for the events and for the bytes `u` that are typed, in
the order in which they are read and written. -/
inductive Entered (stdin stdout : ℤ) : List Ev → List UInt8 → List Entry → Prop
  | nil : Entered stdin stdout [] [] []
  | typed {l u es} (bs : List UInt8) (h : Entered stdin stdout l u es) :
      Entered stdin stdout l (bs ++ u) (⟨0, true, bs⟩ :: es)
  | read {l u es} (bs : List UInt8) (h : Entered stdin stdout l u es) :
      Entered stdin stdout (.read bs :: l) u (⟨stdout, true, bs⟩ :: es)
  /-- What an event writes may have been written in pieces. -/
  | other {l u es e} (ps : List (List UInt8)) (hps : ps.flatten = e.bytes)
      (he : ∀ bs, e ≠ .read bs) (h : Entered stdin stdout l u es) :
      Entered stdin stdout (e :: l) u (ps.map (⟨stdin, false, ·⟩) ++ es)

/-- The program has not stopped. -/
structure Live (s : System) : Prop where
  conf : ∀ e, s.conf.phase ≠ .stopped e
  uc : ∀ e, s.uc.1.phase ≠ .stopped e

/-- What is entered when a read fails, which ends the program. -/
inductive Last (s : System) : List Entry → Prop
  | nil : Last s []
  | eof (fd : ℤ) (h : ¬ Live s) : Last s [⟨fd, true, EOF⟩]
  | error (fd : ℤ) (h : ¬ Live s) : Last s [⟨fd, true, READ_ERROR⟩]

variable {k : Source} {stdin stdout : ℤ} {l l' : List Ev} {u u' : List UInt8}
  {es es' m : List Entry} {fds : Set ℤ}

theorem Entered.append (h : Entered stdin stdout l u es) (h' : Entered stdin stdout l' u' es') :
    Entered stdin stdout (l ++ l') (u ++ u') (es ++ es') := by
  induction h with
  | nil => exact h'
  | typed bs _ ih =>
    rw [List.append_assoc]
    exact ih.typed bs
  | read bs _ ih => exact ih.read bs
  | other ps hps he _ ih =>
    rw [List.append_assoc]
    exact ih.other ps hps he

/-- What was read from a descriptor. -/
def readFrom (fd : ℤ) (es : List Entry) : List (List UInt8) :=
  (es.filter fun e => e.reading && e.fd == fd).map Entry.data

theorem readFrom_append (fd : ℤ) (es es' : List Entry) :
    readFrom fd (es ++ es') = readFrom fd es ++ readFrom fd es' := by
  rw [readFrom, List.filter_append, List.map_append]
  rfl

theorem readFrom_pieces (fd : ℤ) (ps : List (List UInt8)) :
    readFrom fd (ps.map (⟨stdin, false, ·⟩)) = [] := by
  induction ps with
  | nil => rfl
  | cons p ps ih => exact ih

/-- An entry of a read is found under its own descriptor. -/
theorem flatten_readFrom_cons (fd fd' : ℤ) (bs : List UInt8) (es : List Entry) :
    (readFrom fd (⟨fd', true, bs⟩ :: es)).flatten
      = (if fd' = fd then bs else []) ++ (readFrom fd es).flatten := by
  split
  · next h => simp [readFrom, h]
  · next h => simp [readFrom, h]

/-- The entries of the switch say what was received. -/
theorem Entered.received (h : Entered stdin stdout l u es) (hne : stdout ≠ 0) :
    (readFrom stdout es).flatten = Swh.received l := by
  induction h with
  | nil => rfl
  | typed bs _ ih => rw [flatten_readFrom_cons, if_neg hne.symm, List.nil_append, ih]
  | read bs _ ih =>
    rw [flatten_readFrom_cons, if_pos rfl, ih]
    rfl
  | @other l u es e ps hps he _ ih =>
    rw [readFrom_append, readFrom_pieces, List.nil_append, ih]
    cases e with
    | read bs => exact absurd rfl (he bs)
    | _ => rfl

/-- The entries of the user say what was typed. -/
theorem Entered.input (h : Entered stdin stdout l u es) (hne : stdout ≠ 0) :
    (readFrom 0 es).flatten = u := by
  induction h with
  | nil => rfl
  | typed bs _ ih => rw [flatten_readFrom_cons, if_pos rfl, ih]
  | read bs _ ih => rw [flatten_readFrom_cons, if_neg hne, List.nil_append, ih]
  | other ps hps he _ ih => rw [readFrom_append, readFrom_pieces, List.nil_append, ih]

/-- The entries for the switch say what was written. -/
theorem Entered.written (h : Entered stdin stdout l u es) :
    (Transcript.written stdin es).flatten = Swh.written l := by
  induction h with
  | nil => rfl
  | typed bs _ ih => exact ih
  | read bs _ ih => exact ih
  | @other l u es e ps hps he _ ih =>
    rw [Transcript.written_append, List.flatten_append, ih, Transcript.flatten_written_pieces,
      if_pos rfl, hps]
    rfl

/-- What is entered when a read fails was not written. -/
theorem Last.written {s : System} (h : Last s m) (fd : ℤ) : Transcript.written fd m = [] := by
  cases h <;> rfl

/-! ### The calls -/

theorem writes_cons (e : Ev) (l : List Ev) : writes stdin (e :: l)
    = if e.bytes = [] then writes stdin l else .xwrite stdin e.bytes :: writes stdin l := by
  rw [writes, List.filterMap_cons]
  split
  · next h => rw [if_pos (by by_contra hne; rw [if_neg hne] at h; cases h)]; rfl
  · next h =>
    by_cases hnil : e.bytes = []
    · rw [if_pos hnil] at h
      cases h
    · rw [if_neg hnil] at h
      rw [if_neg hnil, ← Option.some.inj h]
      rfl

theorem writes_keeps (hk : ∀ fd ∈ fds, k.toKernel.Delivers fd) (hin : stdin ∈ fds)
    (hl : ∀ e ∈ l, ∀ bs, e ≠ .read bs) (io : Transcript.State) :
    ∃ io' es, Stops (Transcript.perform k (writes stdin l)) io (.ok ()) io' ∧
      After fds io io' [] es ∧ Entered stdin stdout l [] es := by
  induction l generalizing io with
  | nil => exact ⟨io, [], ⟨0, fun _ _ => rfl⟩, .refl fds io, .nil⟩
  | cons e l ih =>
    have he := hl e (.head _)
    replace ih := ih fun e he => hl e (.tail _ he)
    rw [writes_cons]
    split
    · next hnil =>
      obtain ⟨io', es, hstops, hafter, hentered⟩ := ih io
      exact ⟨io', es, hstops, hafter, hentered.other [] hnil.symm he⟩
    · obtain ⟨io₁, ps, hret, hps, hafter₁⟩ := Transcript.xwrite_keeps hk hin e.bytes io
      obtain ⟨io', es, hstops, hafter, hentered⟩ := ih io₁
      exact ⟨io', _, hret.stops hstops, hafter₁.trans hafter, hentered.other ps hps he⟩

/-- What is written is entered. -/
theorem written_entered (hk : ∀ fd ∈ fds, k.toKernel.Delivers fd) (hin : stdin ∈ fds)
    (hl : ∀ e ∈ l, ∀ bs, e ≠ .read bs) {io io' : Transcript.State}
    (h : Stops (Transcript.perform k (writes stdin l)) io (.ok ()) io') :
    ∃ es, After fds io io' [] es ∧ Entered stdin stdout l [] es := by
  obtain ⟨io₁, es, hstops, hafter, hentered⟩ := writes_keeps hk hin hl io
  obtain ⟨-, rfl⟩ := h.unique hstops
  exact ⟨es, hafter, hentered⟩

/-- What is read is entered. -/
theorem read_entered (hk : ∀ fd ∈ fds, k.toKernel.Delivers fd) {fd : ℤ} (hfd : fd ∈ fds)
    (hread : ∀ i fd n, ∃ j ≥ i, k.read j fd n ≠ .eintr) {n : ℕ} {io io' : Transcript.State}
    {x : Except Transcript.Stop (Option (List UInt8))}
    (h : Stops (Transcript.xread k fd n) io x io') :
    ∃ reads es, After fds io io' reads es ∧ Reads fd reads es x := by
  obtain ⟨io₁, y, reads, es, hstops, hreads, hafter⟩ := Transcript.xread_keeps hk hfd hread n io
  obtain ⟨rfl, rfl⟩ := h.unique hstops
  exact ⟨reads, es, hafter, hreads⟩

/-! ### One step of the program -/

variable {v : View} {r : ReadResult} {c c' : Core.Conf} {s s' : System} {input : List UInt8}

/-- A busy sc reads, and what it does then is not reading. -/
theorem operates_busy {res : Except Stop (View × Bool)} (h : v.Operates r l res)
    (hst : v.state = .busy) : (∃ e, xread r = .error e ∧ l = [] ∧ res = .error e) ∨
      ∃ o l', xread r = .ok o ∧ l = readEv o :: l' ∧ ∀ e ∈ l', ∀ bs, e ≠ .read bs := by
  have hreact : ∀ {g : Program}, ∀ e ∈ g.reaction, ∀ bs, e ≠ .read bs := by
    rintro g e he bs rfl
    rcases mem_reaction he with h | h <;> cases h
  cases h with
  | write hst' | noNewline hst' | ready hst' | offline hst' | invalid hst' =>
    cases hst.symm.trans hst'
  | readFails _ hr => exact .inl ⟨_, hr, rfl, rfl⟩
  | @malformed o _ _ hr => exact .inr ⟨o, [], hr, rfl, by simp⟩
  | @starved o _ hr => exact .inr ⟨o, [], hr, rfl, by simp⟩
  | @fed o g _ _ hr => exact .inr ⟨o, _, hr, rfl, hreact⟩
  | @fsmError o g _ _ hr => exact .inr ⟨o, _, hr, rfl, hreact⟩
  | wait _ hr | meh _ hr => exact .inr ⟨none, [], hr, rfl, by simp⟩
  | ack _ hr | outbufNotEmpty _ hr | done _ hr => exact .inr ⟨none, _, hr, rfl, by simp⟩

theorem operate_busy {s : Sc} (h : s.Shows v) (hfits : r.Fits s) (hst : s.state = .busy) :
    (∃ e, xread r = .error e ∧ (scOperate r s).log = [] ∧ (scOperate r s).res = .error e) ∨
      ∃ o l', xread r = .ok o ∧ (scOperate r s).log = readEv o :: l' ∧
        ∀ e ∈ l', ∀ bs, e ≠ .read bs := by
  obtain ⟨res, hop, hagree⟩ := scOperate_refines h hfits
  refine (operates_busy hop (h.state.symm.trans hst)).imp_left ?_
  rintro ⟨e, hr, hlog, rfl⟩
  exact ⟨e, hr, hlog, hagree.error_iff.mpr rfl⟩

/-- The rest of the loop does not read. -/
theorem core_quiet (hc : c.Shows (v, c.phase)) (h : Core.Step c l c')
    (hst : c.sc.state = .busy → c.phase = .select) : ∀ e ∈ l, ∀ bs, e ≠ .read bs := by
  obtain ⟨v', ph', hmove, -⟩ := hc.step h
  have hop : ∀ {w r res}, c.phase = .loop w → v.Operates r l res → ∀ e ∈ l, ∀ bs, e ≠ .read bs := by
    intro w r res hph hop
    have hbusy : v.state ≠ .busy := fun hb => by
      cases hph.symm.trans (hst (hc.1.state.trans hb))
    cases hop with
    | write => simp
    | noNewline | ready | offline | invalid => simp
    | _ => exact absurd ‹v.state = .busy› hbusy
  generalize hq : (v, c.phase) = q at hmove
  cases hmove with
  | operate r _ _ h' | stop r _ _ h' =>
    obtain ⟨rfl, hph⟩ := Prod.mk.inj hq
    exact hop hph h'
  | wake => simp
  | hand =>
    rw [Core.replies]
    split <;> simp
  | write str hstr => simp

theorem scWrite_log (str : List UInt8) (s : Sc) : ∀ e ∈ (scWrite str s).log, e = .queued str := by
  rw [scWrite]
  split_ifs
  · exact fun _ h => absurd h List.not_mem_nil
  · exact fun _ h => absurd h List.not_mem_nil
  · rcases (s.writebuf.grow (s.writebuf.cnt + str.length + 1)).append str with e | b
    · exact fun _ h => absurd h List.not_mem_nil
    · rw [Logged.lift_ok_bind]
      rcases access (b.mem.store b.cnt 0) with e | m
      · exact fun _ h => absurd h List.not_mem_nil
      · exact fun _ h => List.mem_singleton.mp h

/-- Nor does the front end, except when it asks, and then it takes nothing. -/
theorem other_quiet (hrun : Runs System.Step (System.start input) l s) (h : System.Step s l' s')
    (hst : s.conf.sc.state = .busy → s.conf.phase = .select) (hno : ∀ fe, ¬ Asks s fe) :
    (∀ e ∈ l', ∀ bs, e ≠ .read bs) ∧ s'.uc.1.input = s.uc.1.input := by
  cases h with
  | core hph hcore =>
    obtain ⟨v, hc, -⟩ := Core.run_opens (System.carries_run hrun).run
    exact ⟨core_quiet hc hcore hst, rfl⟩
  | @hasdata c fe uc es buf hph hask =>
    refine ⟨by simp, ?_⟩
    cases hask with
    | hasdata hp => exact (UcIa.search_buf true fe).2
    | read hp hr => exact absurd ⟨hph, rfl, hp⟩ (hno fe)
  | eof hph hwait hin => exact absurd ⟨hph, rfl, hwait⟩ (hno _)
  | getdata hph hidle hfetch hcopy =>
    refine ⟨fun e he bs => ?_, rfl⟩
    rw [scWrite_log _ _ e he]
    exact nofun
  | overrun | fault => exact ⟨by simp, rfl⟩

theorem more_input (block : Bool) (bs rest : List UInt8) (fe : FrontEnd) :
    (UcIa.more block bs rest fe).2.input = rest := by
  rw [UcIa.more]
  split
  · rfl
  · exact (UcIa.search_buf block _).2

theorem Asks.live {fe : FrontEnd} (h : Asks s fe) : Live s := by
  refine ⟨fun e he => ?_, fun e he => ?_⟩
  · cases h.phase.symm.trans he
  · rw [h.uc] at he
    cases h.wait.symm.trans he

/-- The front end has only stopped where it was asked. -/
def Halts (s : System) : Prop := ∀ e, s.uc.1.phase = .stopped e → s.conf.phase = .user

theorem live_of_step (h : Halts s) (hs : System.Step s l s') : Live s := by
  cases hs with
  | core hph hcore =>
    refine ⟨?_, fun e he => hph (h e he)⟩
    cases hcore <;> exact nofun
  | hasdata hph hask =>
    exact ⟨fun e he => (nomatch hph.symm.trans he), System.live_of_alternates hask⟩
  | eof hph hwait =>
    exact ⟨fun e he => (nomatch hph.symm.trans he), fun e he => (nomatch hwait.symm.trans he)⟩
  | getdata hph hidle | overrun hph hidle | fault hph hidle =>
    exact ⟨fun e he => (nomatch hph.symm.trans he), fun e he => (nomatch hidle.symm.trans he)⟩

theorem halts_step (hlive : Live s) (hs : System.Step s l s') : Halts s' := by
  cases hs with
  | core hph hcore => exact fun e he => absurd he (hlive.uc e)
  | hasdata hph | eof hph | overrun hph | fault hph => exact fun _ _ => hph
  | getdata hph hidle => exact fun e he => nomatch hidle.symm.trans he

/-- When the front end stops, no line is queued. -/
theorem stops_quiet (hlive : Live s) (hs : System.Step s l s') {e : Stop}
    (he : s'.uc.1.phase = .stopped e) : l = [] := by
  cases hs with
  | core hph hcore => exact absurd he (hlive.uc e)
  | getdata hph hidle => cases hidle.symm.trans he
  | hasdata | eof | overrun | fault => rfl

/-! ### One step over the kernel -/

variable {reads : List (ℤ × Transcript.ReadResult)}
  {x : Except Transcript.Stop (Option (List UInt8))}

/-- The entry of a read that sc goes on with. -/
theorem entered_of_ok {o : Option (List UInt8)} (h : Reads stdout reads es x) (hsees : Sees x r)
    (hr : xread r = .ok o) (h' : Entered stdin stdout l u es') :
    Entered stdin stdout (readEv o :: l) u (es ++ es') := by
  induction h with
  | eintr _ ih => exact ih hsees
  | eagain =>
    cases hsees
    obtain rfl := Except.ok.inj hr
    exact h'.other [] rfl fun _ h => by cases h
  | got b bs =>
    cases hsees
    obtain rfl := Except.ok.inj hr
    exact h'.read (b :: bs)
  | eof => cases hsees; cases hr
  | error => cases hsees; cases hr

/-- The entry of what the front end reads. -/
theorem typed_of_reads {bs : List UInt8} (h : Reads 0 reads es x) (hsees : Sees x (.bytes bs))
    (hbs : bs ≠ []) : Entered stdin stdout [] bs es := by
  induction h with
  | eintr _ ih => exact ih hsees
  | got b bs =>
    cases hsees
    have hentered : Entered stdin stdout [] (b :: bs ++ []) [⟨0, true, b :: bs⟩] :=
      .typed (b :: bs) .nil
    rwa [List.append_nil] at hentered
  | eof => cases hsees; exact absurd rfl hbs
  | eagain => cases hsees
  | error => cases hsees

/-- The entry of a read that the program does not go on after. -/
theorem last_of_reads {fd : ℤ} (h : Reads fd reads es x) (hsees : Sees x r)
    (hr : ∀ bs, bs ≠ [] → r ≠ .bytes bs) (hstop : ¬ Live s) : Last s es := by
  induction h with
  | eintr _ ih => exact ih hsees
  | eagain => exact .nil
  | got b bs =>
    cases hsees
    exact absurd rfl (hr _ (List.cons_ne_nil b bs))
  | eof => exact .eof fd hstop
  | error => exact .error fd hstop

/-- From `io₀` on the program has done `l`, with `u` typed, and has entered it. -/
structure Follows (fds : Set ℤ) (stdin stdout : ℤ) (input : List UInt8) (io₀ : Transcript.State)
    (l : List Ev) (p : Process) (u : List UInt8) (es m : List Entry) : Prop where
  run : Runs System.Step (System.start input) l p.sys ∨
    ∃ s fe, Asks s fe ∧ Runs System.Step (System.start input) l s ∧
      p.sys = { s with uc := ({ fe with phase := .stopped (.panic .read) }, .hasdata) }
  halts : Halts p.sys
  after : ∃ reads, After fds io₀ p.io reads (es ++ m)
  entered : Entered stdin stdout l u es
  last : Last p.sys m
  left : u ++ p.sys.uc.1.input = input
  typed : ∃ ls, System.Taken u l ls

variable {p p' : Process} {io io₀ io' : Transcript.State} {es₁ m₁ : List Entry} {u₁ : List UInt8}

theorem Follows.live (h : Follows fds stdin stdout input io₀ l p u es m) (hlive : Live p.sys) :
    Runs System.Step (System.start input) l p.sys ∧ m = [] := by
  refine ⟨h.run.resolve_right ?_, ?_⟩
  · rintro ⟨s, fe, -, -, heq⟩
    rw [heq] at hlive
    exact hlive.uc _ rfl
  · have hlast := h.last
    cases hlast with
    | nil => rfl
    | eof fd hstop | error fd hstop => exact absurd hlive hstop

/-- What is typed is behind the lines, unless the front end stops. -/
theorem typed_step (hrun : Runs System.Step (System.start input) l s) (hlive : Live s)
    (hs : System.Step s l' s') (hleft : u ++ s'.uc.1.input = input)
    (htyped : ∃ ls, System.Taken u l ls) : ∃ ls, System.Taken u (l ++ l') ls := by
  by_cases hstop : ∃ e, s'.uc.1.phase = .stopped e
  · obtain ⟨e, he⟩ := hstop
    rwa [stops_quiet hlive hs he, List.append_nil]
  · obtain ⟨ls, htaken, hgoes, -⟩ := (System.carries_run (hrun.snoc hs)).lines
    obtain ⟨xs, -, hall⟩ := hgoes fun e he => hstop ⟨e, he⟩
    rw [← hleft, ← List.append_assoc] at hall
    exact ⟨ls, htaken.passed, htaken.plain, xs, List.append_cancel_right hall⟩

/-- One more step, which may be the last. -/
theorem Follows.extend (h : Follows fds stdin stdout input io₀ l p u es m)
    (hs : System.Step p.sys l' s') (hafter : After fds p.io io' reads (es₁ ++ m₁))
    (hentered : Entered stdin stdout l' u₁ es₁) (hlast : Last s' m₁)
    (hleft : u₁ ++ s'.uc.1.input = p.sys.uc.1.input) :
    Follows fds stdin stdout input io₀ (l ++ l') ⟨s', io'⟩ (u ++ u₁) (es ++ es₁) m₁ := by
  have hlive := live_of_step h.halts hs
  obtain ⟨hrun, rfl⟩ := h.live hlive
  have hleft' : u ++ u₁ ++ s'.uc.1.input = input := by
    rw [List.append_assoc, hleft, h.left]
  refine ⟨.inl (hrun.snoc hs), halts_step hlive hs, ?_, h.entered.append hentered, hlast, hleft',
    typed_step hrun hlive hs hleft' ?_⟩
  swap
  · obtain ⟨ls, htaken⟩ := h.typed
    exact ⟨ls, htaken.mono (List.prefix_append _ _)⟩
  obtain ⟨reads, hbefore⟩ := h.after
  rw [List.append_nil] at hbefore
  rw [List.append_assoc]
  exact ⟨_, hbefore.trans hafter⟩

theorem Follows.extend_nil (h : Follows fds stdin stdout input io₀ l p u es m)
    (hs : System.Step p.sys l' s') (hafter : After fds p.io io' reads es₁)
    (hentered : Entered stdin stdout l' u₁ es₁) (hleft : u₁ ++ s'.uc.1.input = p.sys.uc.1.input) :
    Follows fds stdin stdout input io₀ (l ++ l') ⟨s', io'⟩ (u ++ u₁) (es ++ es₁) [] :=
  h.extend hs (by rwa [List.append_nil]) hentered .nil hleft

theorem Follows.extend_last (h : Follows fds stdin stdout input io₀ l p u es m)
    (hs : System.Step p.sys [] s') (hafter : After fds p.io io' reads m₁) (hlast : Last s' m₁)
    (hleft : s'.uc.1.input = p.sys.uc.1.input) :
    Follows fds stdin stdout input io₀ l ⟨s', io'⟩ u es m₁ := by
  have h' : Follows fds stdin stdout input io₀ (l ++ []) ⟨s', io'⟩ (u ++ []) (es ++ []) m₁ :=
    h.extend hs hafter .nil hlast hleft
  rwa [List.append_nil, List.append_nil, List.append_nil] at h'

section Step

variable (hk : ∀ fd ∈ fds, k.toKernel.Delivers fd)
  (hread : ∀ i fd n, ∃ j ≥ i, k.read j fd n ≠ .eintr)
  (hin : stdin ∈ fds) (hout : stdout ∈ fds) (h0 : 0 ∈ fds)
include hk hread hin hout h0

/-- **A step over the kernel** is a step of the program, and is entered. -/
theorem Follows.step (h : Follows fds stdin stdout input io₀ l p u es m)
    (hs : Step k stdin stdout p l' p') :
    ∃ u' es' m', Follows fds stdin stdout input io₀ (l ++ l') p' u' es' m' := by
  cases hs with
  | @busy s w uc buf io io₁ io₂ x r hst hstops hsees hfits hwoken hwrite =>
    have hbusy : scBusy s = true := Core.scBusy_iff.mpr (by rw [hst]; exact ⟨nofun, nofun⟩)
    have hstep : System.Step ⟨⟨s, .loop w⟩, uc, buf⟩ _ _ :=
      .core (fun hph => by cases hph) (.operate r hbusy hfits hwoken)
    obtain ⟨hrun, -⟩ := h.live (live_of_step h.halts hstep)
    obtain ⟨v, hc, -⟩ := Core.run_opens (System.carries_run hrun).run
    obtain ⟨reads₁, es₁, hafter₁, hreads₁⟩ := read_entered hk hout hread hstops
    rcases operate_busy hc.1 hfits hst with ⟨e, hr, hlog, hres⟩ | ⟨o, l₂, hr, hlog, hl₂⟩
    · -- the read fails, and the program stops
      rw [hlog] at hwrite
      obtain ⟨-, rfl⟩ := hwrite.unique ⟨0, fun _ _ => rfl⟩
      rw [hlog] at hstep ⊢
      rw [List.append_nil]
      refine ⟨_, _, _, h.extend_last hstep hafter₁ (last_of_reads hreads₁ hsees ?_ ?_) rfl⟩
      · rintro bs hbs rfl
        obtain ⟨b, bs, rfl⟩ := List.exists_cons_of_ne_nil hbs
        cases hr
      · rw [hres]
        exact fun hlive => hlive.conf e rfl
    · rw [hlog] at hwrite
      have hnil : (readEv o).bytes = [] := by cases o <;> rfl
      rw [writes_cons, if_pos hnil] at hwrite
      obtain ⟨es₂, hafter₂, hentered₂⟩ := written_entered hk hin hl₂ hwrite
      have hentered := entered_of_ok hreads₁ hsees hr hentered₂
      rw [← hlog] at hentered
      exact ⟨_, _, _, h.extend_nil hstep (hafter₁.trans hafter₂) hentered rfl⟩
  | @other s s' l' io io' hstep hst hno hwrite =>
    obtain ⟨hrun, -⟩ := h.live (live_of_step h.halts hstep)
    obtain ⟨hquiet, hinput⟩ := other_quiet hrun hstep hst hno
    obtain ⟨es₁, hafter₁, hentered₁⟩ := written_entered hk hin hquiet hwrite
    exact ⟨_, _, _, h.extend_nil hstep hafter₁ hentered₁ hinput⟩
  | @typed s fe io io' x bs rest hask hstops hsees hr =>
    obtain ⟨reads₁, es₁, hafter₁, hreads₁⟩ := read_entered hk h0 hread hstops
    obtain ⟨c, uc, buf⟩ := s
    obtain rfl : uc = (fe, .hasdata) := hask.uc
    have hstep : System.Step ⟨c, (fe, .hasdata), buf⟩ []
        ⟨c, UcIa.next (UcIa.more true bs rest fe).2, buf⟩ :=
      .hasdata hask.phase (.read hask.wait hr)
    have hinput := more_input true bs rest fe
    by_cases hbs : bs = []
    · -- there is no room left in the buffer
      subst hbs
      refine ⟨u, es, es₁, ?_⟩
      rw [List.append_nil]
      exact h.extend_last hstep hafter₁ (last_of_reads hreads₁ hsees
        (fun bs hbs h => hbs (ReadResult.bytes.inj h).symm) fun hlive => hlive.uc _ rfl)
        (hinput.trans hr.input.symm)
    · refine ⟨_, _, _, h.extend_nil hstep hafter₁ (typed_of_reads hreads₁ hsees hbs) ?_⟩
      exact (congrArg (bs ++ ·) hinput).trans hr.input.symm
  | @eof s fe io io' x hask hstops hsees hnone =>
    obtain ⟨reads₁, es₁, hafter₁, hreads₁⟩ := read_entered hk h0 hread hstops
    obtain ⟨c, uc, buf⟩ := s
    obtain rfl : uc = (fe, .hasdata) := hask.uc
    refine ⟨u, es, es₁, ?_⟩
    rw [List.append_nil]
    exact h.extend_last (.eof hask.phase hask.wait hnone) hafter₁ (last_of_reads hreads₁ hsees
      (fun bs hbs h => hbs (ReadResult.bytes.inj h).symm) fun hlive => hlive.uc _ rfl) rfl
  | @hangup s fe io io' x r hask hstops hsees hr =>
    obtain ⟨reads₁, es₁, hafter₁, hreads₁⟩ := read_entered hk h0 hread hstops
    obtain ⟨hrun, rfl⟩ := h.live hask.live
    obtain ⟨reads, hafter⟩ := h.after
    rw [List.append_nil] at hafter
    have hleft : u ++ fe.input = input := by
      rw [← h.left]
      exact congrArg (fun uc => u ++ uc.1.input) hask.uc.symm
    rw [List.append_nil]
    exact ⟨u, es, es₁, .inr ⟨s, fe, hask, hrun, rfl⟩, fun _ _ => hask.phase,
      ⟨_, hafter.trans hafter₁⟩, h.entered,
      last_of_reads hreads₁ hsees (fun bs _ => hr bs) fun hlive => hlive.uc _ rfl, hleft, h.typed⟩

/-- Every run over the kernel is a run of the program, and entered. -/
theorem follows_run (h : Runs (Step k stdin stdout) ⟨System.start input, io₀⟩ l p) :
    ∃ u es m, Follows fds stdin stdout input io₀ l p u es m := by
  refine h.invariant (J := fun l p => ∃ u es m, Follows fds stdin stdout input io₀ l p u es m)
    (i := []) ?_ ⟨[], [], [], ?_⟩
  · rintro l p l' p' ⟨u, es, m, hfollows⟩ hs
    exact hfollows.step hk hread hin hout h0 hs
  · exact ⟨.inl (.refl _), fun e he => (by cases he), ⟨[], .refl fds io₀⟩, .nil, .nil, rfl,
      [], .nil, nofun, List.nil_prefix⟩

end Step

/-! ### The logbook -/

/-- What a run over the kernel leaves behind, if the program has done `l`, where the kernel
was called `calls` times and `es` was entered, and `m` at the very end:

* it is a run of the program, up to a read of the front end that fails, and what it has read
  and written was entered in that order;
* a record of every entry, and of nothing else, is appended to the transcripts;
* the entries of the switch are what sc has read, and what is displayed is part of them;
* the entries of fd 0 are what was typed so far, and the lines that were queued are the first
  of it, but for the last byte of one of 512;
* the entries for the switch are what it has got: the key, the report and those lines, as far
  as they were answered, and all of them once the user is asked for another. -/
structure Tells (stdin stdout : ℤ) (input : List UInt8) (io₀ : Transcript.State) (l : List Ev)
    (p : Process) (es m : List Entry) (calls : List Transcript.Call) : Prop where
  run : Runs System.Step (System.start input) l p.sys ∨
    ∃ s fe, Asks s fe ∧ Runs System.Step (System.start input) l s ∧
      p.sys = { s with uc := ({ fe with phase := .stopped (.panic .read) }, .hasdata) }
  entered : Entered stdin stdout l (readFrom 0 es).flatten es
  last : Last p.sys m
  log : p.io.world.log = io₀.world.log ++ calls
  transcribed : ∃ tvs : List Transcript.Timeval, tvs.length = (es ++ m).length ∧
    appended calls = records io₀.world.seq (es ++ m) tvs
  received : (readFrom stdout es).flatten = Swh.received l
  displayed : (puts l).flatten.Sublist (readFrom stdout es).flatten
  typed : (readFrom 0 es).flatten ++ p.sys.uc.1.input = input
  queued : ∃ ls, System.Taken (readFrom 0 es).flatten l ls
  delivered : pieces stdin calls = Transcript.written stdin es
  written : (∀ e, p.sys.conf.phase ≠ .stopped e) →
    (pieces stdin calls).flatten <+: 0x78 :: REPORT ++ (lines l).flatten
  asked : p.sys.conf.phase = .user →
    (pieces stdin calls).flatten = 0x78 :: REPORT ++ (lines l).flatten

theorem Follows.core (h : Follows fds stdin stdout input io₀ l p u es m) :
    Core.Run Core.start l p.sys.conf := by
  rcases h.run with hrun | ⟨s, fe, -, hrun, heq⟩
  · exact (System.carries_run hrun).run
  · rw [heq]
    exact (System.carries_run hrun).run

/-- **The logbook.**  Whatever the kernel, the switch and the user do, the transcripts tell
what was read and what was written, in order, and those are the reads and the writes of a run
of the program. -/
theorem logbook (hk : ∀ fd ∈ fds, k.toKernel.Delivers fd)
    (hread : ∀ i fd n, ∃ j ≥ i, k.read j fd n ≠ .eintr) (hin : stdin ∈ fds)
    (hout : stdout ∈ fds) (h0 : 0 ∈ fds) (hne : stdout ≠ 0)
    (h : Runs (Step k stdin stdout) ⟨System.start input, io₀⟩ l p) :
    ∃ es m calls, Tells stdin stdout input io₀ l p es m calls := by
  obtain ⟨u, es, m, hfollows⟩ := follows_run hk hread hin hout h0 h
  have hrun := hfollows.core
  have hentered := hfollows.entered
  obtain ⟨reads, hafter⟩ := hfollows.after
  obtain ⟨calls, hcalls, hkeeps⟩ := hafter.calls
  obtain ⟨v, hc, hshown⟩ := Core.run_displays hrun
  have hdelivered : pieces stdin calls = Transcript.written stdin es := by
    rw [hkeeps.pieces hin, Transcript.written_append, hfollows.last.written, List.append_nil]
  have hwritten : (pieces stdin calls).flatten = Swh.written l := by
    rw [hdelivered, hentered.written]
  have htyped := hentered.input hne
  refine ⟨es, m, calls, hfollows.run, by rwa [htyped], hfollows.last, hcalls,
    hkeeps.appended ⟨0, h0⟩, hentered.received hne, ?_, ?_, ?_, hdelivered, fun hlive => ?_,
    fun hph => ?_⟩
  · rw [hentered.received hne]
    exact hshown.shown.sublist
  · rw [htyped]
    exact hfollows.left
  · rw [htyped]
    exact hfollows.typed
  · rw [hwritten, System.flatten_lines]
    exact (Core.run_written hrun hlive).1
  · rw [hwritten, System.flatten_lines]
    exact (Core.run_written hrun fun e he => by cases hph.symm.trans he).2
      (hc.1.state.trans (hc.sane.user hph))

/-! ### A run -/

/-- What `read(2)` has said when a caller of `xread` makes `r` of it. -/
def said : ReadResult → Transcript.ReadResult
  | .bytes bs => .got bs
  | .eagain => .eagain
  | .error => .error

/-- Whatever `read(2)` says is seen. -/
theorem xread_sees (hk : ∀ fd ∈ fds, k.toKernel.Delivers fd) {fd : ℤ} (hfd : fd ∈ fds) {n : ℕ}
    (h : k.read io.reads.length fd n = said r) :
    ∃ x io', Stops (Transcript.xread k fd n) io x io' ∧ Sees x r ∧
      io'.reads = io.reads ++ [(fd, said r)] := by
  have hne : k.read io.reads.length fd n ≠ .eintr := by
    rw [h]
    cases r <;> nofun
  obtain ⟨io', x, es, hstops, hreads, hafter⟩ := Transcript.xread_last hk hfd hne
  rw [h] at hreads hafter
  refine ⟨x, io', hstops, ?_, hafter.reads⟩
  rcases r with (_ | ⟨b, bs⟩) | _ | _
  · cases hreads
    exact .eof
  · cases hreads
    exact .got b bs
  · cases hreads
    exact .eagain
  · cases hreads
    exact .error

section Run

variable (hk : ∀ fd ∈ fds, k.toKernel.Delivers fd) (hin : stdin ∈ fds) (hout : stdout ∈ fds)
include hk hin

/-- What is to be written gets written, and nothing is read meanwhile. -/
theorem exists_writes (hl : ∀ e ∈ l, ∀ bs, e ≠ .read bs) (io : Transcript.State) :
    ∃ io', Stops (Transcript.perform k (writes stdin l)) io (.ok ()) io' ∧
      io'.reads = io.reads := by
  obtain ⟨io', es, hstops, hafter, -⟩ := @writes_keeps k stdin 0 l fds hk hin hl io
  exact ⟨io', hstops, hafter.reads.trans (List.append_nil _)⟩

/-- What is done without reading can be done over the kernel. -/
theorem exists_other (h : System.Step s l s')
    (hst : s.conf.sc.state = .busy → s.conf.phase = .select) (hno : ∀ fe, ¬ Asks s fe)
    (hl : ∀ e ∈ l, ∀ bs, e ≠ .read bs) (io : Transcript.State) :
    ∃ io', Step k stdin stdout ⟨s, io⟩ l ⟨s', io'⟩ ∧ io'.reads = io.reads := by
  obtain ⟨io', hstops, hreads⟩ := exists_writes hk hin hl io
  exact ⟨io', .other h hst hno hstops, hreads⟩

/-- As the rest of the loop. -/
theorem exists_core (uc : FrontEnd × UcIa.Call) (buf : Block UInt8) (hc : c.Shows (v, c.phase))
    (h : Core.Step c l c') (hph : c.phase ≠ .user) (hst : c.sc.state ≠ .busy)
    (io : Transcript.State) :
    ∃ io', Step k stdin stdout ⟨⟨c, uc, buf⟩, io⟩ l ⟨⟨c', uc, buf⟩, io'⟩ ∧ io'.reads = io.reads :=
  exists_other hk hin (.core hph h) (fun hbusy => absurd hbusy hst) (fun _ hask => hph hask.phase)
    (core_quiet hc h fun hbusy => absurd hbusy hst) io

include hout

/-- So can what is done with what the kernel has to read. -/
theorem exists_busy (uc : FrontEnd × UcIa.Call) (buf : Block UInt8) {s : Sc} {w b : Bool}
    {v v' : View} (hc : Core.Conf.Shows ⟨s, .loop w⟩ (v, .loop w)) (hst : v.state = .busy)
    (h : k.read io.reads.length stdout (remain s) = said r) (hfits : r.Fits s)
    (hwoken : w = true → r ≠ .eagain) (hop : v.Operates r l (.ok (v', b))) :
    ∃ c io', Step k stdin stdout ⟨⟨⟨s, .loop w⟩, uc, buf⟩, io⟩ l ⟨⟨c, uc, buf⟩, io'⟩ ∧
      c.Shows (v', if b then .loop false else .select) ∧
      io'.reads = io.reads ++ [(stdout, said r)] := by
  obtain ⟨x, io₁, hread, hsees, hreads⟩ := xread_sees hk hout h
  obtain ⟨rfl, hc'⟩ := hc.operated hfits hop
  obtain ⟨io₂, hwrite, hreads₂⟩ : ∃ io₂, Stops (Transcript.perform k
      (writes stdin (scOperate r s).log)) io₁ (.ok ()) io₂ ∧ io₂.reads = io₁.reads := by
    rcases operates_busy hop hst with ⟨e, -, -, he⟩ | ⟨o, l', -, hlog, hl'⟩
    · cases he
    · have hnil : (readEv o).bytes = [] := by cases o <;> rfl
      rw [hlog, writes_cons, if_pos hnil]
      exact exists_writes hk hin hl' io₁
  exact ⟨_, io₂, .busy r (hc.1.state.trans hst) hread hsees hfits hwoken hwrite, hc',
    hreads₂.trans hreads⟩

omit hin hout in
/-- And what the front end is asked to read. -/
theorem exists_typed (h0 : 0 ∈ fds) {fe : FrontEnd} {bs rest : List UInt8} (hask : Asks s fe)
    (hr : UcIa.Readable fe bs rest)
    (h : k.read io.reads.length 0 (UcIa.READBUFSZ - fe.buf.cnt) = said (.bytes bs)) :
    ∃ io', Step k stdin stdout ⟨s, io⟩ []
      ⟨{ s with uc := UcIa.next (UcIa.more true bs rest fe).2 }, io'⟩ := by
  obtain ⟨x, io', hread, hsees, -⟩ := xread_sees hk h0 h
  exact ⟨io', .typed hask hread hsees hr⟩

end Run

/-- A kernel that has the opening chat to read, and then a line of the user. -/
def talk : Source where
  toKernel := Transcript.kernel₀
  read i _ n :=
    if i = 0 then .got ([120, ESC, 65, 120, ESC, 65, 120, ESC, 65, 36, ESC, 65].take n)
    else if i = 2 then .got ([97, NEWLINE].take n)
    else .eagain

theorem talk_delivers : ∀ fd ∈ ({0, 3, 5} : Set ℤ), talk.toKernel.Delivers fd := by
  rintro fd (rfl | rfl | rfl) <;> exact Transcript.kernel₀_delivers_of_ne (by decide)

theorem talk_goesOn (i : ℕ) (fd : ℤ) (n : ℕ) : ∃ j ≥ i, talk.read j fd n ≠ .eintr := by
  refine ⟨i, le_refl i, ?_⟩
  rw [talk]
  dsimp only
  split_ifs <;> nofun

theorem fd_mem : (3 : ℤ) ∈ ({0, 3, 5} : Set ℤ) ∧ (5 : ℤ) ∈ ({0, 3, 5} : Set ℤ) ∧
    (0 : ℤ) ∈ ({0, 3, 5} : Set ℤ) := by
  simp

/-- sc is greeted, and the user is asked. -/
theorem talk_asked (buf : Block UInt8) : ∃ l c io,
    Runs (Step talk 3 5) ⟨⟨Core.start, (UcIa.start [97, NEWLINE], .hasdata), buf⟩, ⟨⟨[], 0⟩, []⟩⟩ l
      ⟨⟨c, (⟨UcIa.init, [97, NEWLINE], .select true⟩, .hasdata), buf⟩, io⟩ ∧
      c.Shows (Core.greeted [36], .user) ∧ lines l = [] ∧ sent l = [] ∧ io.reads.length = 2 := by
  have hk := talk_delivers
  obtain ⟨hin, hout, -⟩ := fd_mem
  obtain ⟨⟨s₁, ph₁⟩, io₁, hs₁, hc₁, hr₁⟩ := exists_busy hk hin hout
    (UcIa.start [97, NEWLINE], .hasdata) buf Core.start_shows rfl
    (show talk.read (Transcript.State.reads ⟨⟨[], 0⟩, []⟩).length 5 (remain scInit)
      = said (.bytes _) from rfl) (Core.fits_start (by decide)) nofun (Core.operates_chat isChat_x)
  obtain rfl : ph₁ = .loop false := hc₁.2.1
  obtain ⟨⟨s₂, ph₂⟩, io₂, hs₂, hc₂, hr₂⟩ := exists_busy hk hin hout
    (UcIa.start [97, NEWLINE], .hasdata) buf hc₁ rfl
    (show talk.read io₁.reads.length 5 (remain s₁) = said .eagain by rw [hr₁]; rfl)
    nofun nofun (Core.operates_chatted [36])
  obtain rfl : ph₂ = .loop false := hc₂.2.1
  obtain ⟨c₃, hcore₃, hc₃⟩ := hc₂.hand rfl
  obtain ⟨io₃, hs₃, hr₃⟩ := exists_core hk hin (UcIa.start [97, NEWLINE], .hasdata) buf hc₂ hcore₃
    nofun (by rw [hc₂.1.state]; nofun) io₂
  -- `strchr` finds nothing in the empty buffer
  have hask : System.Step ⟨c₃, (UcIa.start [97, NEWLINE], .hasdata), buf⟩ [] _ :=
    .hasdata hc₃.2.1 (.hasdata rfl)
  rw [UcIa.search_none UcIa.init_shows UcIa.not_line_nil] at hask
  obtain ⟨io₄, hs₄, hr₄⟩ := exists_other hk hin hask
    (fun h => by cases hc₃.1.state.symm.trans h) (fun fe h => by cases h.uc; cases h.wait)
    (by simp) io₃
  refine ⟨_, c₃, io₄, (((Runs.single hs₁).snoc hs₂).snoc hs₃).snoc hs₄, hc₃, rfl, rfl, ?_⟩
  rw [hr₄, hr₃, hr₂, hr₁]
  rfl

/-- The user types a line, and its first byte is written. -/
theorem logbook_line : ∃ l p es m calls,
    Runs (Step talk 3 5) ⟨System.start [97, NEWLINE], ⟨⟨[], 0⟩, []⟩⟩ l p ∧
      lines l = [[97, NEWLINE]] ∧ sent l = [97] ∧
      Tells 3 5 [97, NEWLINE] ⟨⟨[], 0⟩, []⟩ l p es m calls := by
  have hk := talk_delivers
  obtain ⟨hin, hout, h0⟩ := fd_mem
  obtain ⟨l, c, io, hrun, hc, hnone, hnothing, hreads⟩ :=
    talk_asked (.alloc UcIa.BUFSZ System.BUFSZ_pos)
  have hne : [97, NEWLINE] ≠ [] := List.cons_ne_nil 97 [NEWLINE]
  have hl : UcIa.Line [97, NEWLINE] [97] [] := ⟨rfl, by decide, by decide⟩
  -- the line is read
  let fe : FrontEnd := ⟨UcIa.init, [97, NEWLINE], .select true⟩
  have hask : Asks ⟨c, (fe, .hasdata), .alloc UcIa.BUFSZ System.BUFSZ_pos⟩ fe := ⟨hc.2.1, rfl, rfl⟩
  have hr : UcIa.Readable fe [97, NEWLINE] [] :=
    ⟨(List.append_nil _).symm, hne, by decide, fun _ => hne⟩
  obtain ⟨io₁, hs₁⟩ := exists_typed hk h0 hask hr
    (show talk.read io.reads.length 0 _ = said (.bytes [97, NEWLINE]) by rw [hreads]; rfl)
  obtain ⟨b, hb, hmore⟩ := UcIa.more_bytes (c := fe) UcIa.init_shows hne (by decide) true []
  rw [hmore, UcIa.search_line hb ⟨_, _, hl⟩] at hs₁
  -- and queued
  obtain ⟨c₂, b₂, buf₂, hfetch, -, hc₂⟩ :=
    System.run_fetched ⟨b, [], .idle⟩ (.alloc UcIa.BUFSZ System.BUFSZ_pos) hc rfl rfl rfl hb hl
      (⟨by decide, NEWLINE, rfl, fun _ => rfl⟩ : System.Passed [97] [97, NEWLINE])
  obtain ⟨io₂, hs₂, -⟩ := exists_other hk hin hfetch (fun h => by cases hc.1.state.symm.trans h)
    (fun fe h => by cases h.uc) (by simp) io₁
  -- and its first byte is written
  obtain ⟨c₃, hcore, -⟩ := hc₂.operate_eagain nofun (.write rfl rfl)
  obtain ⟨io₃, hs₃, -⟩ := exists_core hk hin (⟨b₂, [], .idle⟩, .hasdata) buf₂ hc₂.self hcore
    (by rw [hc₂.2.1]; nofun) (by rw [hc₂.1.state]; nofun) io₂
  have hrun' := ((hrun.snoc hs₁).snoc hs₂).snoc hs₃
  obtain ⟨es, m, calls, htells⟩ := logbook hk talk_goesOn hin hout h0 (by decide) hrun'
  refine ⟨_, _, es, m, calls, hrun', ?_, ?_, htells⟩
  · rw [lines_append, lines_append, lines_append, hnone]
    rfl
  · rw [sent_append, sent_append, sent_append, hnothing]
    rfl

end Swh.Logbook
