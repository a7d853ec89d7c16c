/-
Reading, and the transcript of the whole conversation (common/common.c).

`xread` records what it reads the way `xwrite` records what it writes, so the transcripts
are a journal of all that a program reads and writes, in whatever order it does so, up to
the end of its input if it gets there.

* `perform_transcript` — whatever is read and written, the records that are appended to
  the transcripts are the pieces that were read and the pieces that were written, in order.
-/
import Swh.Transcript
import Mathlib.Data.Set.Insert

namespace Swh.Transcript

/-! ### Reading -/

/-- What `read(2)` says; where it reads nothing, that is the end of the file. -/
inductive ReadResult
  | got (bs : List UInt8)
  | eintr
  | eagain
  | error
  deriving DecidableEq, Repr

/-- What a kernel that can also be read from will do at the `i`th call of `read(2)`. -/
structure Source extends Kernel where
  read : ℕ → ℤ → ℕ → ReadResult

/-- What has been read, besides the calls that write. -/
structure State where
  world : World
  reads : List (ℤ × ReadResult)

/-- Why a call does not return. -/
inductive Stop
  | halt (h : Halt)
  /-- "read" -/
  | read
  /-- "read: EOF" -/
  | readEOF
  deriving DecidableEq, Repr

abbrev Input := ExceptT Stop (StateM State)

/-- What writes leaves alone what has been read. -/
def output {α : Type} (x : Sys α) : Input α :=
  ExceptT.mk fun s => match x.run.run s.world with
    | (.ok a, w) => (.ok a, { s with world := w })
    | (.error h, w) => (.error (.halt h), { s with world := w })

def READ_ERROR : List UInt8 := ascii "[READ ERROR]"

def EOF : List UInt8 := ascii "[EOF]"

variable (k : Source)

/-- `read(fd, dest, destsz)` -/
def read (fd : ℤ) (destsz : ℕ) : Input ReadResult := do
  let s ← get
  let r := k.read s.reads.length fd destsz
  set { s with reads := s.reads ++ [(fd, r)] }
  pure r

/-- `xread`, with what it has put at `dest` -/
def xread (fd : ℤ) (destsz : ℕ) : ℕ → Input (Option (List UInt8))
  | 0 => throw (.halt .noFuel)
  | fuel + 1 => do
    match ← read k fd destsz with
    | .eintr => xread fd destsz fuel
    | .error => do
        output (tscribe k.toKernel (tsnam fd) READ_ERROR true fuel)
        throw .read
    | .eagain => pure none
    | .got [] => do
        output (tscribe k.toKernel (tsnam fd) EOF true fuel)
        throw .readEOF
    | .got (b :: bs) => do
        output (tscribe k.toKernel (tsnam fd) (b :: bs) true fuel)
        pure (some (b :: bs))

/-- A call of `xread` or of `xwrite`. -/
inductive Op
  | xread (fd : ℤ) (destsz : ℕ)
  | xwrite (fd : ℤ) (data : List UInt8)
  deriving DecidableEq, Repr

def Op.fd : Op → ℤ
  | .xread fd _ => fd
  | .xwrite fd _ => fd

/-- The calls that a program makes, one after the other. -/
def perform : List Op → ℕ → Input Unit
  | [], _ => pure ()
  | .xread fd destsz :: ops, fuel => do
      let _ ← xread k fd destsz fuel
      perform ops fuel
  | .xwrite fd data :: ops, fuel => do
      output (xwrite k.toKernel fd data fuel)
      perform ops fuel

/-! ### The journal -/

/-- What is recorded of a call: what was read, or a piece of what was written. -/
structure Entry where
  fd : ℤ
  reading : Bool
  data : List UInt8
  deriving DecidableEq, Repr

/-- What a call of `xread` comes to where `read(2)` says `reads`, and what is recorded. -/
inductive Reads (fd : ℤ) : List (ℤ × ReadResult) → List Entry →
    Except Stop (Option (List UInt8)) → Prop
  | eintr {reads : List (ℤ × ReadResult)} {es : List Entry}
      {r : Except Stop (Option (List UInt8))} (h : Reads fd reads es r) :
      Reads fd ((fd, .eintr) :: reads) es r
  | eagain : Reads fd [(fd, .eagain)] [] (.ok none)
  | got (b : UInt8) (bs : List UInt8) :
      Reads fd [(fd, .got (b :: bs))] [⟨fd, true, b :: bs⟩] (.ok (some (b :: bs)))
  | eof : Reads fd [(fd, .got [])] [⟨fd, true, EOF⟩] (.error .readEOF)
  | error : Reads fd [(fd, .error)] [⟨fd, true, READ_ERROR⟩] (.error .read)

/-- **The journal** of a program that makes the calls `ops`, where `read(2)` says `reads`, up
to the end `r` that it comes to: an entry for whatever a call reads, and one for each piece
of what it writes. -/
inductive Journal : List Op → List (ℤ × ReadResult) → List Entry → Except Stop Unit → Prop
  | nil : Journal [] [] [] (.ok ())
  | xread {fd : ℤ} {destsz : ℕ} {ops : List Op} {reads reads' : List (ℤ × ReadResult)}
      {es es' : List Entry} {bs : Option (List UInt8)} {r : Except Stop Unit}
      (h : Reads fd reads es (.ok bs)) (h' : Journal ops reads' es' r) :
      Journal (.xread fd destsz :: ops) (reads ++ reads') (es ++ es') r
  | stop {fd : ℤ} {destsz : ℕ} {ops : List Op} {reads : List (ℤ × ReadResult)}
      {es : List Entry} {e : Stop} (h : Reads fd reads es (.error e)) :
      Journal (.xread fd destsz :: ops) reads es (.error e)
  | xwrite {fd : ℤ} (ps : List (List UInt8)) {ops : List Op} {reads : List (ℤ × ReadResult)}
      {es : List Entry} {r : Except Stop Unit} (h : Journal ops reads es r) :
      Journal (.xwrite fd ps.flatten :: ops) reads (ps.map (⟨fd, false, ·⟩) ++ es) r

/-! ### What is kept of it -/

/-- The record of an entry, at a time and with a sequence number. -/
def Entry.record (e : Entry) (tv : Timeval) (seq : UInt64) : Record :=
  ⟨tsnam e.fd, timestr tv seq, e.reading, e.data⟩

/-- The records of entries, numbered from `seq` on, and the files they go to. -/
def records : UInt64 → List Entry → List Timeval → List (List UInt8 × List UInt8)
  | seq, e :: es, tv :: tvs =>
    (tsPath (tsnam e.fd), (e.record tv seq).bytes) :: records (seq + 1) es tvs
  | _, _, _ => []

/-- Calls that leave the descriptors `fds` alone, but for delivering to them what is written
there, and append the record of every entry. -/
inductive Keeps (fds : Set ℤ) : UInt64 → List Entry → List Call → Prop
  | nil (seq : UInt64) : Keeps fds seq [] []
  | interrupted {seq : UInt64} {es : List Entry} {l : List Call} (fd : ℤ)
      (h : Keeps fds seq es l) : Keeps fds seq es (.interrupted fd :: l)
  | reading {seq : UInt64} {e : Entry} {es : List Entry} {tv : Timeval} {l l' : List Call}
      (he : e.reading = true) (hr : ∀ fd ∈ fds, Recorded fd (e.record tv seq) l)
      (h : Keeps fds (seq + 1) es l') : Keeps fds seq (e :: es) (l ++ l')
  | writing {seq : UInt64} {e : Entry} {es : List Entry} {tv : Timeval} {l l' : List Call}
      (he : e.reading = false) (hr : ∀ fd ∈ fds, Recorded fd (e.record tv seq) l)
      (h : Keeps fds (seq + 1) es l') :
      Keeps fds seq (e :: es) (.wrote e.fd e.data :: (l ++ l'))

/-- The pieces written to a descriptor. -/
def written (fd : ℤ) (es : List Entry) : List (List UInt8) :=
  (es.filter fun e => !e.reading && e.fd == fd).map Entry.data

variable {k} {fds : Set ℤ} {fd : ℤ} {seq : UInt64} {e : Entry} {es es' : List Entry}
  {l l' : List Call} {data name : List UInt8} {bc destsz : ℕ} {w : World} {s s' s'' : State}
  {reads reads' : List (ℤ × ReadResult)} {ops : List Op}

theorem add_ofNat_succ (seq : UInt64) (n : ℕ) :
    seq + UInt64.ofNat (n + 1) = seq + 1 + UInt64.ofNat n := by
  rw [UInt64.ofNat_add, UInt64.add_comm (UInt64.ofNat n), UInt64.add_assoc]
  rfl

theorem Keeps.append (h : Keeps fds seq es l)
    (h' : Keeps fds (seq + UInt64.ofNat es.length) es' l') :
    Keeps fds seq (es ++ es') (l ++ l') := by
  induction h with
  | nil seq => simpa using h'
  | interrupted fd _ ih => exact .interrupted fd (ih h')
  | reading he hr _ ih =>
    rw [List.length_cons, add_ofNat_succ] at h'
    rw [List.append_assoc]
    exact .reading he hr (ih h')
  | writing he hr _ ih =>
    rw [List.length_cons, add_ofNat_succ] at h'
    rw [List.cons_append, List.cons_append, List.append_assoc]
    exact .writing he hr (ih h')

/-- **What is appended to the transcripts** is a record for every entry, and no other. -/
theorem Keeps.appended (hne : fds.Nonempty) (h : Keeps fds seq es l) :
    ∃ tvs : List Timeval, tvs.length = es.length ∧
      Transcript.appended l = records seq es tvs := by
  obtain ⟨fd, hfd⟩ := hne
  induction h with
  | nil seq => exact ⟨[], rfl, rfl⟩
  | interrupted fd _ ih => exact ih
  | @reading seq e es tv l l' _ hr _ ih =>
    obtain ⟨tvs, hlen, ih⟩ := ih
    refine ⟨tv :: tvs, congrArg (· + 1) hlen, ?_⟩
    rw [(hr fd hfd).appended, ih]
    rfl
  | @writing seq e es tv l l' _ hr _ ih =>
    obtain ⟨tvs, hlen, ih⟩ := ih
    refine ⟨tv :: tvs, congrArg (· + 1) hlen, ?_⟩
    show Transcript.appended (l ++ l') = _
    rw [(hr fd hfd).appended, ih]
    rfl

/-- **What is delivered** to a descriptor is what the entries say was written there. -/
theorem Keeps.pieces (hfd : fd ∈ fds) (h : Keeps fds seq es l) :
    Transcript.pieces fd l = written fd es := by
  induction h with
  | nil seq => rfl
  | interrupted fd _ ih => exact ih
  | @reading seq e es tv l l' he hr _ ih =>
    rw [pieces_append, (hr fd hfd).pieces, List.nil_append, ih, written, written,
      List.filter_cons_of_neg (by simp [he])]
  | @writing seq e es tv l l' he hr _ ih =>
    by_cases hf : e.fd = fd
    · rw [hf, pieces_wrote, pieces_append, (hr fd hfd).pieces, List.nil_append, ih, written,
        written, List.filter_cons_of_pos (by simp [he, hf]), List.map_cons]
    · rw [pieces_wrote_ne hf, pieces_append, (hr fd hfd).pieces, List.nil_append, ih, written,
        written, List.filter_cons_of_neg (by simp [hf])]

/-! ### One record -/

/-- **`tscribe`** appends a record with the next number, and leaves the descriptors that
are in use alone. -/
theorem tscribe_numbered (hne : fds.Nonempty) (hk : ∀ fd ∈ fds, k.toKernel.Delivers fd)
    (name data : List UInt8) (reading : Bool) (w : World) :
    ∃ w' tv l, Returns (tscribe k.toKernel name data reading) w () w' ∧
      w'.log = w.log ++ l ∧ w'.seq = w.seq + 1 ∧
      ∀ fd ∈ fds, Recorded fd ⟨name, timestr tv w.seq, reading, data⟩ l := by
  obtain ⟨fd, hfd⟩ := hne
  obtain ⟨tv, htv⟩ := (hk fd hfd).gettimeofday w.log.length
  let w₁ : World := { w.add [.gettimeofday] with seq := w.seq + 1 }
  obtain ⟨fd', hfd', -⟩ := (hk fd hfd).openAppend w₁.log.length
  let w₂ : World := w₁.add [.opened (tsPath name) fd']
  have hwrite := ywrite_returns (hk fd hfd) fd'
  obtain ⟨l₁, hret₁, hl₁⟩ := hwrite (timestr tv w.seq) 0 w₂
  obtain ⟨l₂, hret₂, hl₂⟩ := hwrite (header reading) 0 (w₂.add l₁)
  obtain ⟨l₃, hret₃, hl₃⟩ := hwrite data 0 ((w₂.add l₁).add l₂)
  obtain ⟨l₄, hret₄, hl₄⟩ := hwrite (ascii "\n\n") 0 (((w₂.add l₁).add l₂).add l₃)
  have hclose := close_spec fd' (w := (((w₂.add l₁).add l₂).add l₃).add l₄)
    ((hk fd hfd).close _)
  have hret : Returns (tscribe k.toKernel name data reading) w () _ :=
    .succ (fun fuel => by rw [tscribe])
      (.bind (.const (gettimeofday_spec htv)) (.bind (.const rfl) (.bind (.const rfl)
        (.bind (.const (openAppend_spec name (tsPath name) hfd')) (.bind hret₁ (.bind hret₂
          (.bind hret₃ (.bind hret₄ (.const hclose)))))))))
  refine ⟨_, tv, .gettimeofday :: .opened (tsPath name) fd' ::
    ((l₁ ++ (l₂ ++ (l₃ ++ l₄))) ++ [.closed fd']), hret, ?_, rfl, fun fd hfd => ?_⟩
  · simp [World.add, w₂, w₁]
  · obtain ⟨fd'', hfd'', hne⟩ := (hk fd hfd).openAppend w₁.log.length
    obtain rfl : fd' = fd'' := Option.some.inj (hfd'.symm.trans hfd'')
    exact ⟨fd', l₁ ++ (l₂ ++ (l₃ ++ l₄)), hne, hl₁.append (hl₂.append (hl₃.append hl₄)), rfl⟩

/-! ### Calls of `xread` and `xwrite` -/

/-- From `s` to `s'` the entries are recorded. -/
structure After (fds : Set ℤ) (s s' : State) (reads : List (ℤ × ReadResult))
    (es : List Entry) : Prop where
  calls : ∃ l, s'.world.log = s.world.log ++ l ∧ Keeps fds s.world.seq es l
  reads : s'.reads = s.reads ++ reads
  seq : s'.world.seq = s.world.seq + UInt64.ofNat es.length

theorem After.trans (h : After fds s s' reads es) (h' : After fds s' s'' reads' es') :
    After fds s s'' (reads ++ reads') (es ++ es') := by
  obtain ⟨l, hl, hkeeps⟩ := h.calls
  obtain ⟨l', hl', hkeeps'⟩ := h'.calls
  refine ⟨⟨l ++ l', by rw [hl', hl, List.append_assoc], hkeeps.append ?_⟩,
    by rw [h'.reads, h.reads, List.append_assoc], ?_⟩
  · rw [← h.seq]
    exact hkeeps'
  · rw [h'.seq, h.seq, List.length_append, UInt64.ofNat_add, UInt64.add_assoc]

theorem After.refl (fds : Set ℤ) (s : State) : After fds s s [] [] :=
  ⟨⟨[], (List.append_nil _).symm, .nil _⟩, (List.append_nil _).symm,
    (UInt64.add_zero _).symm⟩

/-- What writes returns, and leaves alone what has been read. -/
theorem output_returns {α : Type} {f : ℕ → Sys α} {a : α} {w' : World}
    (h : Returns f s.world a w') :
    Returns (fun fuel => output (f fuel)) s a { s with world := w' } := by
  obtain ⟨n, hn⟩ := h
  refine ⟨n, fun fuel hfuel => ?_⟩
  show (match (f fuel).run.run s.world with
    | (.ok a, w) => (.ok a, { s with world := w })
    | (.error h, w) => (.error (.halt h), { s with world := w }) : Except Stop α × State) = _
  rw [hn fuel hfuel]

/-- The record of something that was read. -/
theorem output_tscribe (hne : fds.Nonempty) (hk : ∀ fd ∈ fds, k.toKernel.Delivers fd)
    (fd : ℤ) (data : List UInt8) (s : State) :
    ∃ s', Returns (fun fuel => output (tscribe k.toKernel (tsnam fd) data true fuel)) s () s' ∧
      After fds s s' [] [⟨fd, true, data⟩] := by
  obtain ⟨w', tv, l, hret, hlog, hseq, hr⟩ := tscribe_numbered hne hk (tsnam fd) data true s.world
  refine ⟨_, output_returns hret, ⟨l ++ [], ?_, @Keeps.reading _ _ _ _ tv _ _ rfl hr (.nil _)⟩,
    (List.append_nil _).symm, hseq⟩
  rw [List.append_nil]
  exact hlog

/-- **`ywrite` with a transcript**: every piece is delivered and recorded. -/
theorem ywrite_keeps (hk : ∀ fd ∈ fds, k.toKernel.Delivers fd) (hfd : fd ∈ fds)
    (data : List UInt8) (bc : ℕ) (w : World) :
    ∃ (w' : World) (ps : List (List UInt8)) (l : List Call),
      Returns (ywriteFrom k.toKernel fd data true bc) w () w' ∧
      w'.log = w.log ++ l ∧ w'.seq = w.seq + UInt64.ofNat ps.length ∧
      ps.flatten = data.drop bc ∧ Keeps fds w.seq (ps.map (⟨fd, false, ·⟩)) l := by
  induction hn : data.length - bc using Nat.strong_induction_on generalizing bc w with
  | _ n ih =>
    subst hn
    rcases Nat.lt_or_ge bc data.length with hlt | hge
    · have hlen : 0 < (data.drop bc).length := by rw [List.length_drop]; omega
      refine (hk fd hfd).retry fd hlen (P := fun w => ∃ (w' : World)
        (ps : List (List UInt8)) (l : List Call),
          Returns (ywriteFrom k.toKernel fd data true bc) w () w' ∧ w'.log = w.log ++ l ∧
          w'.seq = w.seq + UInt64.ofNat ps.length ∧ ps.flatten = data.drop bc ∧
          Keeps fds w.seq (ps.map (⟨fd, false, ·⟩)) l) ?_ ?_ w
      · rintro w he ⟨w', ps, l, hret, hlog, hseq, hdata, hl⟩
        refine ⟨w', ps, .interrupted fd :: l, returns_eintr hlt he hret, ?_, hseq, hdata,
          .interrupted fd hl⟩
        rw [hlog, World.add, List.append_assoc]
        rfl
      · intro w r hr hle
        let p := (data.drop bc).take (r + 1)
        obtain ⟨w₁, tv, l₁, hret₁, hlog₁, hseq₁, hr₁⟩ := tscribe_numbered ⟨fd, hfd⟩ hk
          (tsnam fd) p false (w.add [.wrote fd p])
        obtain ⟨w', ps, l, hret, hlog, hseq, hdata, hl⟩ := ih _ (by omega) (bc + (r + 1)) w₁ rfl
        rw [hseq₁] at hseq hl
        refine ⟨w', p :: ps, _, returns_transcribed hlt hr hret₁ hret, ?_, ?_, ?_,
          @Keeps.writing _ _ _ _ tv _ _ rfl hr₁ hl⟩
        · rw [hlog, hlog₁, World.add, List.append_assoc, List.append_assoc]
          rfl
        · rw [List.length_cons, add_ofNat_succ]
          exact hseq
        · rw [List.flatten_cons, hdata]
          exact take_append_drop_add data bc (r + 1)
    · refine ⟨w, [], [], returns_done hge, by simp, (UInt64.add_zero _).symm, ?_, .nil _⟩
      rw [List.drop_eq_nil_of_le hge]
      rfl

/-- A call of `xwrite`. -/
theorem xwrite_keeps (hk : ∀ fd ∈ fds, k.toKernel.Delivers fd) (hfd : fd ∈ fds)
    (data : List UInt8) (s : State) :
    ∃ (s' : State) (ps : List (List UInt8)),
      Returns (fun fuel => output (xwrite k.toKernel fd data fuel)) s () s' ∧
      ps.flatten = data ∧ After fds s s' [] (ps.map (⟨fd, false, ·⟩)) := by
  obtain ⟨w', ps, l, hret, hlog, hseq, hdata, hl⟩ := ywrite_keeps hk hfd data 0 s.world
  refine ⟨_, ps, output_returns hret, hdata, ⟨l, hlog, hl⟩, (List.append_nil _).symm, ?_⟩
  rw [List.length_map]
  exact hseq

/-- What `read(2)` says is remembered. -/
theorem read_returns {x : ReadResult} (h : k.read s.reads.length fd destsz = x) :
    Returns (fun _ => read k fd destsz) s x { s with reads := s.reads ++ [(fd, x)] } := by
  subst h
  exact .const rfl

theorem After.read (fds : Set ℤ) (s : State) (x : ℤ × ReadResult) :
    After fds s { s with reads := s.reads ++ [x] } [x] [] :=
  ⟨⟨[], (List.append_nil _).symm, .nil _⟩, rfl, (UInt64.add_zero _).symm⟩

/-- What it says is recorded, unless it was interrupted. -/
theorem xread_last (hk : ∀ fd ∈ fds, k.toKernel.Delivers fd) (hfd : fd ∈ fds)
    (hne : k.read s.reads.length fd destsz ≠ .eintr) :
    ∃ (s' : State) (r : Except Stop (Option (List UInt8))) (es : List Entry),
      Stops (xread k fd destsz) s r s' ∧
        Reads fd [(fd, k.read s.reads.length fd destsz)] es r ∧
        After fds s s' [(fd, k.read s.reads.length fd destsz)] es := by
  have hafter := After.read fds s
  rcases h : k.read s.reads.length fd destsz with ⟨_ | ⟨b, bs⟩⟩ | _ | _ | _
  · obtain ⟨s', hret, hs'⟩ := output_tscribe ⟨fd, hfd⟩ hk fd EOF
      { s with reads := s.reads ++ [(fd, .got [])] }
    exact ⟨s', _, _, .succ (fun fuel => by rw [xread])
      ((read_returns h).stops (hret.stops ⟨0, fun _ _ => rfl⟩)), .eof, (hafter _).trans hs'⟩
  · obtain ⟨s', hret, hs'⟩ := output_tscribe ⟨fd, hfd⟩ hk fd (b :: bs)
      { s with reads := s.reads ++ [(fd, .got (b :: bs))] }
    exact ⟨s', _, _, .succ (fun fuel => by rw [xread])
      ((read_returns h).stops (hret.stops ⟨0, fun _ _ => rfl⟩)), .got b bs, (hafter _).trans hs'⟩
  · exact absurd h hne
  · exact ⟨_, _, _, .succ (fun fuel => by rw [xread])
      ((read_returns h).stops ⟨0, fun _ _ => rfl⟩), .eagain, hafter _⟩
  · obtain ⟨s', hret, hs'⟩ := output_tscribe ⟨fd, hfd⟩ hk fd READ_ERROR
      { s with reads := s.reads ++ [(fd, .error)] }
    exact ⟨s', _, _, .succ (fun fuel => by rw [xread])
      ((read_returns h).stops (hret.stops ⟨0, fun _ _ => rfl⟩)), .error, (hafter _).trans hs'⟩

/-- **`xread`** goes on until it is not interrupted, and what it has read is recorded. -/
theorem xread_keeps (hk : ∀ fd ∈ fds, k.toKernel.Delivers fd) (hfd : fd ∈ fds)
    (hread : ∀ i fd n, ∃ j ≥ i, k.read j fd n ≠ .eintr) (destsz : ℕ) (s : State) :
    ∃ (s' : State) (r : Except Stop (Option (List UInt8))) (reads : List (ℤ × ReadResult))
      (es : List Entry), Stops (xread k fd destsz) s r s' ∧ Reads fd reads es r ∧
        After fds s s' reads es := by
  obtain ⟨j, hj, hne⟩ := hread s.reads.length fd destsz
  -- on the number of calls of `read(2)` until one that is not interrupted
  obtain ⟨d, rfl⟩ := Nat.exists_eq_add_of_le hj
  clear hj
  induction d generalizing s with
  | zero =>
    obtain ⟨s', r, es, h⟩ := xread_last hk hfd hne
    exact ⟨s', r, _, es, h⟩
  | succ d ih =>
    by_cases h : k.read s.reads.length fd destsz = .eintr
    · obtain ⟨s', r, reads, es, hstops, hreads, hafter⟩ :=
        ih { s with reads := s.reads ++ [(fd, .eintr)] } (by
          rw [List.length_append, List.length_singleton, Nat.add_assoc, Nat.add_comm 1 d]
          exact hne)
      exact ⟨s', r, _, es, .succ (fun fuel => by rw [xread]) ((read_returns h).stops hstops),
        .eintr hreads, (After.read fds s _).trans hafter⟩
    · obtain ⟨s', r, es, h⟩ := xread_last hk hfd h
      exact ⟨s', r, _, es, h⟩

/-! ### All the calls -/

/-- What a result of `read(2)` adds to the transcript. -/
def readEntries : ℤ × ReadResult → List Entry
  | (fd, .got []) => [⟨fd, true, EOF⟩]
  | (fd, .got (b :: bs)) => [⟨fd, true, b :: bs⟩]
  | (fd, .error) => [⟨fd, true, READ_ERROR⟩]
  | (_, .eintr) | (_, .eagain) => []

/-- What a call writes to a descriptor. -/
def Op.dataTo (fd : ℤ) : Op → List UInt8
  | .xread _ _ => []
  | .xwrite fd' data => if fd' = fd then data else []

theorem Reads.entries {r : Except Stop (Option (List UInt8))} (h : Reads fd reads es r) :
    es = reads.flatMap readEntries := by
  induction h with
  | eintr _ ih => exact ih
  | eagain => rfl
  | got b bs => rfl
  | eof => rfl
  | error => rfl

theorem readEntries_reading (x : ℤ × ReadResult) : ∀ e ∈ readEntries x, e.reading = true := by
  obtain ⟨fd, ⟨_ | ⟨b, bs⟩⟩ | _ | _ | _⟩ := x <;> simp [readEntries]

theorem filter_reading (reads : List (ℤ × ReadResult)) :
    (reads.flatMap readEntries).filter Entry.reading = reads.flatMap readEntries := by
  refine List.filter_eq_self.mpr fun e he => ?_
  obtain ⟨x, -, he⟩ := List.mem_flatMap.mp he
  exact readEntries_reading x e he

theorem written_readEntries (fd : ℤ) (reads : List (ℤ × ReadResult)) :
    written fd (reads.flatMap readEntries) = [] := by
  rw [written, List.filter_eq_nil_iff.mpr, List.map_nil]
  intro e he
  obtain ⟨x, -, he⟩ := List.mem_flatMap.mp he
  simp [readEntries_reading x e he]

@[simp] theorem written_append (fd : ℤ) (es es' : List Entry) :
    written fd (es ++ es') = written fd es ++ written fd es' := by
  rw [written, List.filter_append, List.map_append]
  rfl

/-- The pieces written to `fd'`. -/
theorem flatten_written_pieces (fd fd' : ℤ) (ps : List (List UInt8)) :
    (written fd (ps.map (⟨fd', false, ·⟩))).flatten = if fd' = fd then ps.flatten else [] := by
  split
  · next h => simp [written, List.filter_map, Function.comp_def, h]
  · next h => simp [written, List.filter_map, Function.comp_def, h]

variable {r : Except Stop Unit}

/-- **What was read**, whatever else is recorded in between. -/
theorem Journal.reading (h : Journal ops reads es r) :
    es.filter Entry.reading = reads.flatMap readEntries := by
  induction h with
  | nil => rfl
  | xread h _ ih => rw [List.filter_append, ih, h.entries, filter_reading, List.flatMap_append]
  | stop h => rw [h.entries, filter_reading]
  | xwrite ps _ ih => simp [List.filter_append, ih]

/-- **What was written** is what the calls were given, up to the one that did not return. -/
theorem Journal.writing (h : Journal ops reads es r) :
    ∃ done, done <+: ops ∧ (r = .ok () → done = ops) ∧
      ∀ fd, (written fd es).flatten = done.flatMap (Op.dataTo fd) := by
  induction h with
  | nil => exact ⟨[], List.prefix_rfl, fun _ => rfl, fun fd => rfl⟩
  | xread h _ ih =>
    obtain ⟨done, hpre, hall, hdone⟩ := ih
    refine ⟨_ :: done, List.cons_prefix_cons.mpr ⟨rfl, hpre⟩, fun hr => by rw [hall hr],
      fun fd => ?_⟩
    rw [written_append, h.entries, written_readEntries, List.nil_append, hdone]
    rfl
  | stop h =>
    refine ⟨[], List.nil_prefix, nofun, fun fd => ?_⟩
    rw [h.entries, written_readEntries]
    rfl
  | xwrite ps _ ih =>
    obtain ⟨done, hpre, hall, hdone⟩ := ih
    refine ⟨_ :: done, List.cons_prefix_cons.mpr ⟨rfl, hpre⟩, fun hr => by rw [hall hr],
      fun fd => ?_⟩
    rw [written_append, List.flatten_append, flatten_written_pieces, hdone]
    rfl

/-- Nothing that a program reads or writes is missing from the transcripts, and nothing else
is in them: its calls come to the end `r` of the journal `es`, which is appended to the
transcripts with consecutive numbers, and of which what was written has been delivered. -/
structure Kept (fds : Set ℤ) (ops : List Op) (r : Except Stop Unit) (s s' : State)
    (reads : List (ℤ × ReadResult)) (es : List Entry) (l : List Call) : Prop where
  journal : Journal ops reads es r
  reading : es.filter Entry.reading = reads.flatMap readEntries
  writing : ∃ done, done <+: ops ∧ (r = .ok () → done = ops) ∧
    ∀ fd, (written fd es).flatten = done.flatMap (Op.dataTo fd)
  reads : s'.reads = s.reads ++ reads
  calls : s'.world.log = s.world.log ++ l
  delivered : ∀ fd ∈ fds, pieces fd l = written fd es
  transcribed : ∃ tvs : List Timeval, tvs.length = es.length ∧
    appended l = records s.world.seq es tvs

/-- The calls of a program, one after the other. -/
theorem perform_keeps (hk : ∀ fd ∈ fds, k.toKernel.Delivers fd)
    (hread : ∀ i fd n, ∃ j ≥ i, k.read j fd n ≠ .eintr) (ops : List Op)
    (hops : ∀ op ∈ ops, op.fd ∈ fds) (s : State) :
    ∃ (s' : State) (r : Except Stop Unit) (reads : List (ℤ × ReadResult)) (es : List Entry),
      Stops (perform k ops) s r s' ∧ Journal ops reads es r ∧ After fds s s' reads es := by
  induction ops generalizing s with
  | nil => exact ⟨s, _, _, _, ⟨0, fun _ _ => rfl⟩, .nil, .refl fds s⟩
  | cons op ops ih =>
    have hfd := hops op (.head _)
    replace ih := ih fun op hop => hops op (.tail _ hop)
    cases op with
    | xread fd destsz =>
      obtain ⟨s₁, r₁, reads₁, es₁, hstops₁, hreads₁, hafter₁⟩ :=
        xread_keeps hk hfd hread destsz s
      cases r₁ with
      | error e =>
        exact ⟨s₁, .error e, reads₁, es₁, hstops₁.throw, .stop hreads₁, hafter₁⟩
      | ok bs =>
        obtain ⟨s₂, r, reads₂, es₂, hstops₂, hjournal, hafter₂⟩ := ih s₁
        exact ⟨s₂, r, _, _, Returns.stops hstops₁ hstops₂, .xread hreads₁ hjournal,
          hafter₁.trans hafter₂⟩
    | xwrite fd data =>
      obtain ⟨s₁, ps, hret, rfl, hafter₁⟩ := xwrite_keeps hk hfd data s
      obtain ⟨s₂, r, reads₂, es₂, hstops₂, hjournal, hafter₂⟩ := ih s₁
      exact ⟨s₂, r, _, _, hret.stops hstops₂, .xwrite ps hjournal, hafter₁.trans hafter₂⟩

/-- **The transcripts are the conversation.** -/
theorem perform_transcript (hne : fds.Nonempty) (hk : ∀ fd ∈ fds, k.toKernel.Delivers fd)
    (hread : ∀ i fd n, ∃ j ≥ i, k.read j fd n ≠ .eintr) (ops : List Op)
    (hops : ∀ op ∈ ops, op.fd ∈ fds) (s : State) :
    ∃ s' r reads es l, Stops (perform k ops) s r s' ∧ Kept fds ops r s s' reads es l := by
  obtain ⟨s', r, reads, es, hstops, hjournal, hafter⟩ := perform_keeps hk hread ops hops s
  obtain ⟨l, hl, hkeeps⟩ := hafter.calls
  exact ⟨s', r, reads, es, l, hstops, hjournal, hjournal.reading, hjournal.writing,
    hafter.reads, hl, fun fd hfd => hkeeps.pieces hfd, hkeeps.appended hne⟩

/-- A kernel that interrupts every other call, and has three bytes to read before the end. -/
def source₀ : Source where
  toKernel := kernel₀
  read i _ n := if i % 2 = 0 then .eintr else if i = 1 then .got ([0x61, 0x62, 0x63].take n)
    else .got []

theorem kernel₀_delivers_of_ne {fd : ℤ} (hne : 4 ≠ fd) : kernel₀.Delivers fd :=
  { kernel₀_delivers with openAppend := fun _ => ⟨4, rfl, hne⟩ }

theorem source₀_goesOn (i : ℕ) (fd : ℤ) (n : ℕ) : ∃ j ≥ i, source₀.read j fd n ≠ .eintr := by
  refine ⟨2 * i + 1, by omega, ?_⟩
  show (if (2 * i + 1) % 2 = 0 then _ else _) ≠ _
  rw [if_neg (by omega)]
  split <;> nofun

/-- Three bytes are read, a command is written, and then there is nothing more to read. -/
theorem perform_transcript_chat : ∃ s' r reads es l,
    Stops (perform source₀ [.xread 5 80, .xwrite 3 (ascii "show\n"), .xread 5 80])
      ⟨⟨[], 0⟩, []⟩ r s' ∧
    Kept {3, 5} [.xread 5 80, .xwrite 3 (ascii "show\n"), .xread 5 80] r ⟨⟨[], 0⟩, []⟩ s'
      reads es l :=
  perform_transcript ⟨3, .inl rfl⟩
    (by rintro fd (rfl | rfl) <;> exact kernel₀_delivers_of_ne (by decide)) source₀_goesOn _
    (by rintro op (_ | ⟨_, _ | ⟨_, _ | ⟨_, ⟨⟩⟩⟩⟩) <;> simp [Op.fd]) _

end Swh.Transcript
