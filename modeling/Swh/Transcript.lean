/-
Writing, and the transcript of what was written (common/common.c).

`ywrite` writes all of its data, and `tscribe` appends a record of every piece that
was written to a file, by means of `ywrite`; a flag keeps them from going round in
circles.  What the kernel does is a parameter, and every call of it is logged.

* `xwrite_transcribed` — all bytes are delivered, and the records in the transcript
  are the pieces that were.
-/
import Swh.Lib.Fuel
import Mathlib.Data.List.Basic

namespace Swh.Transcript

/-- What `write(2)` says. -/
inductive WriteResult
  | wrote (r : ℕ)
  | eintr
  | error
  deriving DecidableEq, Repr

/-- `struct timeval` -/
structure Timeval where
  sec : UInt64
  usec : ℕ

/-- What the kernel will do at the `i`th call, and the byte it finds behind the string
literal "[WRITE ERR]". -/
structure Kernel where
  write : ℕ → ℤ → ℕ → WriteResult
  gettimeofday : ℕ → Option Timeval
  openAppend : ℕ → Option ℤ
  close : ℕ → Bool
  behind : UInt8

/-- A call of the kernel. -/
inductive Call
  | gettimeofday
  | opened (path : List UInt8) (fd : ℤ)
  /-- `write(2)` delivers bytes. -/
  | wrote (fd : ℤ) (bs : List UInt8)
  | interrupted (fd : ℤ)
  | failed (fd : ℤ)
  | closed (fd : ℤ)
  deriving DecidableEq, Repr

/-- The calls so far, and `s_seq`. -/
structure World where
  log : List Call
  seq : UInt64

/-- Why a call does not return. -/
inductive Halt
  /-- "gettimeofday" -/
  | gettimeofday
  /-- "cannot open transcript file /tmp/transcript.%s" -/
  | openAppend (name : List UInt8)
  /-- "close" -/
  | close
  /-- "write" -/
  | write
  /-- "write: 0" -/
  | writeZero
  /-- The loops of the model have gone round too often. -/
  | noFuel
  deriving DecidableEq, Repr

abbrev Sys := ExceptT Halt (StateM World)

/-! ### The calls -/

def World.add (w : World) (l : List Call) : World := { w with log := w.log ++ l }

/-- The kernel is called. -/
def call (c : Call) : Sys Unit := modify fun w => w.add [c]

variable (k : Kernel)

/-- `write(fd, data, len)` -/
def write (fd : ℤ) (data : List UInt8) : Sys WriteResult := do
  let w ← get
  match k.write w.log.length fd data.length with
  | .wrote r => do
      call (.wrote fd (data.take r))
      pure (.wrote r)
  | .eintr => do
      call (.interrupted fd)
      pure .eintr
  | .error => do
      call (.failed fd)
      pure .error

def gettimeofday : Sys Timeval := do
  let w ← get
  match k.gettimeofday w.log.length with
  | some tv => do
      call .gettimeofday
      pure tv
  | none => throw .gettimeofday

/-- `open(path, O_WRONLY | O_APPEND | O_CREAT, 0700)` -/
def openAppend (name path : List UInt8) : Sys ℤ := do
  let w ← get
  match k.openAppend w.log.length with
  | some fd => do
      call (.opened path fd)
      pure fd
  | none => throw (.openAppend name)

def close (fd : ℤ) : Sys Unit := do
  let w ← get
  if k.close w.log.length then call (.closed fd) else throw .close

/-! ### The texts -/

def ascii (s : String) : List UInt8 := s.toList.map fun ch => ch.toNat.toUInt8

/-- `snprintf` to a buffer of `size` bytes: there must be room for a NUL. -/
def snprintf (size : ℕ) (s : List UInt8) : List UInt8 := s.take (size - 1)

/-- `%u` -/
def unsigned (n : ℕ) : List UInt8 := (Nat.toDigits 10 n).map fun ch => ch.toNat.toUInt8

/-- `%04u` -/
def unsigned4 (n : ℕ) : List UInt8 :=
  List.replicate (4 - (unsigned n).length) 0x30 ++ unsigned n

/-- `%d` -/
def signed (n : ℤ) : List UInt8 :=
  if n < 0 then 0x2D :: unsigned n.natAbs else unsigned n.natAbs

/-- "swh_ts.fd%d" -/
def tsnam (fd : ℤ) : List UInt8 := snprintf 16 (ascii "swh_ts.fd" ++ signed fd)

/-- "/tmp/transcript.%s" -/
def tsPath (name : List UInt8) : List UInt8 := snprintf 256 (ascii "/tmp/transcript." ++ name)

/-- "%lu.%04u/%lu: " -/
def timestr (tv : Timeval) (seq : UInt64) : List UInt8 :=
  snprintf 32 (unsigned tv.sec.toNat ++ ascii "." ++ unsigned4 (tv.usec / 1000) ++ ascii "/" ++
    unsigned seq.toNat ++ ascii ": ")

/-- The line before the data. -/
def header (reading : Bool) : List UInt8 :=
  if reading then ascii "READ data+2x newline:\n" else ascii "WRITE data+2x newline:\n"

/-- The 13 bytes from the start of "[WRITE ERR]", of which the last one is behind it. -/
def WRITE_ERR : List UInt8 := ascii "[WRITE ERR]" ++ [0, k.behind]

/-- "[WRITE 0]" -/
def WRITE_0 : List UInt8 := ascii "[WRITE 0]"

/-! ### Writing -/

mutual

/-- The `while` loop of `ywrite`: the bytes from index `bc` on are still to be written. -/
def ywriteFrom (fd : ℤ) (data : List UInt8) (transscribe : Bool) (bc : ℕ) : ℕ → Sys Unit
  | 0 => throw .noFuel
  | fuel + 1 =>
    if bc < data.length then do
      match ← write k fd (data.drop bc) with
      | .eintr => ywriteFrom fd data transscribe bc fuel
      | .error => do
          if transscribe then tscribe (tsnam fd) (WRITE_ERR k) false fuel
          throw .write
      | .wrote 0 => do
          if transscribe then tscribe (tsnam fd) WRITE_0 false fuel
          throw .writeZero
      | .wrote r => do
          if transscribe then tscribe (tsnam fd) ((data.drop bc).take r) false fuel
          ywriteFrom fd data transscribe (bc + r) fuel
    else pure ()

/-- `tscribe`; what it writes itself is not transcribed. -/
def tscribe (name data : List UInt8) (reading : Bool) : ℕ → Sys Unit
  | 0 => throw .noFuel
  | fuel + 1 => do
    let tv ← gettimeofday k
    let w ← get
    set { w with seq := w.seq + 1 }
    let fd ← openAppend k name (tsPath name)
    ywriteFrom fd (timestr tv w.seq) false 0 fuel
    ywriteFrom fd (header reading) false 0 fuel
    ywriteFrom fd data false 0 fuel
    ywriteFrom fd (ascii "\n\n") false 0 fuel
    close k fd

end

/-- `ywrite` -/
def ywrite (fd : ℤ) (data : List UInt8) (transscribe : Bool) (fuel : ℕ) : Sys Unit :=
  ywriteFrom k fd data transscribe 0 fuel

/-- `xwrite` -/
def xwrite (fd : ℤ) (data : List UInt8) (fuel : ℕ) : Sys Unit := ywrite k fd data true fuel

/-! ### One call of `write(2)` -/

variable {k} {fd : ℤ} {data : List UInt8} {t : Bool} {bc : ℕ} {w w' w'' : World}

theorem write_eintr (h : k.write w.log.length fd data.length = .eintr) :
    (write k fd data).run.run w = (.ok .eintr, w.add [.interrupted fd]) := by
  show ((match k.write w.log.length fd data.length with
    | .wrote r => _ | .eintr => _ | .error => _ : Sys WriteResult)).run.run w = _
  rw [h]
  rfl

theorem write_wrote {r : ℕ} (h : k.write w.log.length fd data.length = .wrote r) :
    (write k fd data).run.run w = (.ok (.wrote r), w.add [.wrote fd (data.take r)]) := by
  show ((match k.write w.log.length fd data.length with
    | .wrote r => _ | .eintr => _ | .error => _ : Sys WriteResult)).run.run w = _
  rw [h]
  rfl

/-- All of the data was written. -/
theorem returns_done (h : data.length ≤ bc) : Returns (ywriteFrom k fd data t bc) w () w := by
  have hret : Returns (fun _ => (pure () : Sys Unit)) w () w := .const rfl
  exact .succ (fun fuel => by rw [ywriteFrom, if_neg (Nat.not_lt.mpr h)]) hret

/-- The loop goes round again. -/
theorem returns_eintr (hlt : bc < data.length)
    (h : k.write w.log.length fd (data.drop bc).length = .eintr)
    (hnext : Returns (ywriteFrom k fd data t bc) (w.add [.interrupted fd]) () w') :
    Returns (ywriteFrom k fd data t bc) w () w' :=
  .succ (fun fuel => by rw [ywriteFrom, if_pos hlt]) (.bind (.const (write_eintr h)) hnext)

/-- A piece was written. -/
theorem returns_wrote {r : ℕ} (hlt : bc < data.length)
    (h : k.write w.log.length fd (data.drop bc).length = .wrote (r + 1))
    (hnext : Returns (ywriteFrom k fd data false (bc + (r + 1)))
      (w.add [.wrote fd ((data.drop bc).take (r + 1))]) () w') :
    Returns (ywriteFrom k fd data false bc) w () w' :=
  .succ (fun fuel => by rw [ywriteFrom, if_pos hlt]) (.bind (.const (write_wrote h)) hnext)

/-- A piece was written, and is transcribed. -/
theorem returns_transcribed {r : ℕ} (hlt : bc < data.length)
    (h : k.write w.log.length fd (data.drop bc).length = .wrote (r + 1))
    (hts : Returns (tscribe k (tsnam fd) ((data.drop bc).take (r + 1)) false)
      (w.add [.wrote fd ((data.drop bc).take (r + 1))]) () w')
    (hnext : Returns (ywriteFrom k fd data true (bc + (r + 1))) w' () w'') :
    Returns (ywriteFrom k fd data true bc) w () w'' :=
  .succ (fun fuel => by rw [ywriteFrom, if_pos hlt])
    (.bind (.const (write_wrote h)) (.bind hts hnext))

/-! ### All of it is written -/

/-- Calls of `write(2)` are interrupted or deliver a part of what they are asked to, but
they are not interrupted forever; nothing else goes wrong, and the transcript is opened
on a descriptor that is not in use. -/
structure Kernel.Delivers (k : Kernel) (fd : ℤ) : Prop where
  write : ∀ i fd n, 0 < n →
    k.write i fd n = .eintr ∨ ∃ r, k.write i fd n = .wrote r ∧ 0 < r ∧ r ≤ n
  goesOn : ∀ i fd n, ∃ j ≥ i, k.write j fd n ≠ .eintr
  gettimeofday : ∀ i, ∃ tv, k.gettimeofday i = some tv
  openAppend : ∀ i, ∃ fd', k.openAppend i = some fd' ∧ fd' ≠ fd
  close : ∀ i, k.close i = true

@[simp] theorem World.add_nil (w : World) : w.add [] = w := by rw [add, List.append_nil]

@[simp] theorem World.add_add (w : World) (l l' : List Call) :
    (w.add l).add l' = w.add (l ++ l') := by rw [add, add, add, List.append_assoc]

variable {fd' : ℤ} {bs bs' : List UInt8} {l l' : List Call}

/-- **Retrying**: what holds where a call of `write(2)` delivers something holds where it
is interrupted, if it is carried back over an interruption. -/
theorem Kernel.Delivers.retry (hk : k.Delivers fd') (fd : ℤ) {n : ℕ} (hn : 0 < n) {P : World → Prop}
    (hint : ∀ w, k.write w.log.length fd n = .eintr → P (w.add [.interrupted fd]) → P w)
    (hwrote : ∀ w r, k.write w.log.length fd n = .wrote (r + 1) → r < n → P w) (w : World) :
    P w := by
  obtain ⟨j, hj, hne⟩ := hk.goesOn w.log.length fd n
  -- on the number of calls until one that is not interrupted
  obtain ⟨d, rfl⟩ := Nat.exists_eq_add_of_le hj
  clear hj
  induction d generalizing w with
  | zero =>
    rcases hk.write w.log.length fd n hn with he | ⟨r, hr, hpos, hle⟩
    · exact absurd he hne
    · obtain ⟨r, rfl⟩ := Nat.exists_eq_succ_of_ne_zero hpos.ne'
      exact hwrote w r hr hle
  | succ d ih =>
    rcases hk.write w.log.length fd n hn with he | ⟨r, hr, hpos, hle⟩
    · refine hint w he (ih _ ?_)
      rw [World.add, List.length_append, List.length_singleton, Nat.add_assoc, Nat.add_comm 1 d]
      exact hne
    · obtain ⟨r, rfl⟩ := Nat.exists_eq_succ_of_ne_zero hpos.ne'
      exact hwrote w r hr hle

/-- The calls that deliver `bs` to `fd`. -/
inductive Writes (fd : ℤ) : List UInt8 → List Call → Prop
  | nil : Writes fd [] []
  | interrupted {bs : List UInt8} {l : List Call} (h : Writes fd bs l) :
      Writes fd bs (.interrupted fd :: l)
  | wrote {bs : List UInt8} {l : List Call} (p : List UInt8) (h : Writes fd bs l) :
      Writes fd (p ++ bs) (.wrote fd p :: l)

theorem Writes.append (h : Writes fd bs l) (h' : Writes fd bs' l') :
    Writes fd (bs ++ bs') (l ++ l') := by
  induction h with
  | nil => exact h'
  | interrupted _ ih => exact .interrupted ih
  | wrote p _ ih =>
    rw [List.append_assoc]
    exact .wrote p ih

/-- The first piece of what is left, and the rest. -/
theorem take_append_drop_add (data : List UInt8) (bc r : ℕ) :
    (data.drop bc).take r ++ data.drop (bc + r) = data.drop bc := by
  rw [← List.drop_drop, List.take_append_drop]

/-- **`ywrite` without a transcript** writes all of its data. -/
theorem ywrite_returns (hk : k.Delivers fd') (fd : ℤ) (data : List UInt8) (bc : ℕ) (w : World) :
    ∃ l, Returns (ywriteFrom k fd data false bc) w () (w.add l) ∧ Writes fd (data.drop bc) l := by
  induction hn : data.length - bc using Nat.strong_induction_on generalizing bc w with
  | _ n ih =>
    subst hn
    rcases Nat.lt_or_ge bc data.length with hlt | hge
    · have hlen : 0 < (data.drop bc).length := by rw [List.length_drop]; omega
      refine hk.retry fd hlen (P := fun w => ∃ l,
        Returns (ywriteFrom k fd data false bc) w () (w.add l) ∧ Writes fd (data.drop bc) l) ?_ ?_ w
      · rintro w he ⟨l, hret, hl⟩
        rw [World.add_add] at hret
        exact ⟨_, returns_eintr hlt he hret, .interrupted hl⟩
      · intro w r hr hle
        obtain ⟨l, hret, hl⟩ := ih _ (by omega) (bc + (r + 1))
          (w.add [.wrote fd ((data.drop bc).take (r + 1))]) rfl
        rw [World.add_add] at hret
        have hwrites := Writes.wrote ((data.drop bc).take (r + 1)) hl
        rw [take_append_drop_add] at hwrites
        exact ⟨_, returns_wrote hlt hr hret, hwrites⟩
    · refine ⟨[], ?_, ?_⟩
      · rw [World.add_nil]
        exact returns_done hge
      · rw [List.drop_eq_nil_of_le hge]
        exact .nil

/-! ### Records -/

/-- A record in a transcript. -/
structure Record where
  name : List UInt8
  timestr : List UInt8
  reading : Bool
  data : List UInt8

/-- What it looks like in the file. -/
def Record.bytes (r : Record) : List UInt8 :=
  r.timestr ++ (header r.reading ++ (r.data ++ ascii "\n\n"))

/-- The calls that append a record to its file, on a descriptor other than `fd`. -/
def Recorded (fd : ℤ) (r : Record) (l : List Call) : Prop :=
  ∃ fd' l', fd' ≠ fd ∧ Writes fd' r.bytes l' ∧
    l = .gettimeofday :: .opened (tsPath r.name) fd' :: (l' ++ [.closed fd'])

theorem gettimeofday_spec {tv : Timeval} (h : k.gettimeofday w.log.length = some tv) :
    (gettimeofday k).run.run w = (.ok tv, w.add [.gettimeofday]) := by
  show ((match k.gettimeofday w.log.length with | some tv => _ | none => _ : Sys Timeval)).run.run w
    = _
  rw [h]
  rfl

theorem openAppend_spec (name path : List UInt8) (h : k.openAppend w.log.length = some fd) :
    (openAppend k name path).run.run w = (.ok fd, w.add [.opened path fd]) := by
  show ((match k.openAppend w.log.length with | some fd => _ | none => _ : Sys ℤ)).run.run w = _
  rw [h]
  rfl

theorem close_spec (fd : ℤ) (h : k.close w.log.length = true) :
    (close k fd).run.run w = (.ok (), w.add [.closed fd]) := by
  show ((if k.close w.log.length then _ else _ : Sys Unit)).run.run w = _
  rw [h]
  rfl

/-- **`tscribe`** appends a record, and its writes are not transcribed. -/
theorem tscribe_returns (hk : k.Delivers fd) (name data : List UInt8) (reading : Bool)
    (w : World) : ∃ w' ts l, Returns (tscribe k name data reading) w () w' ∧
      w'.log = w.log ++ l ∧ Recorded fd ⟨name, ts, reading, data⟩ l := by
  obtain ⟨tv, htv⟩ := hk.gettimeofday w.log.length
  let w₁ : World := { w.add [.gettimeofday] with seq := w.seq + 1 }
  obtain ⟨fd', hfd', hne⟩ := hk.openAppend w₁.log.length
  let w₂ : World := w₁.add [.opened (tsPath name) fd']
  obtain ⟨l₁, hret₁, hl₁⟩ := ywrite_returns hk fd' (timestr tv w.seq) 0 w₂
  obtain ⟨l₂, hret₂, hl₂⟩ := ywrite_returns hk fd' (header reading) 0 (w₂.add l₁)
  obtain ⟨l₃, hret₃, hl₃⟩ := ywrite_returns hk fd' data 0 ((w₂.add l₁).add l₂)
  obtain ⟨l₄, hret₄, hl₄⟩ := ywrite_returns hk fd' (ascii "\n\n") 0 (((w₂.add l₁).add l₂).add l₃)
  have hclose := close_spec fd' (w := (((w₂.add l₁).add l₂).add l₃).add l₄) (hk.close _)
  refine ⟨_, timestr tv w.seq, _, .succ (fun fuel => by rw [tscribe])
    (.bind (.const (gettimeofday_spec htv)) (.bind (.const rfl) (.bind (.const rfl)
      (.bind (.const (openAppend_spec name (tsPath name) hfd')) (.bind hret₁ (.bind hret₂
        (.bind hret₃ (.bind hret₄ (.const hclose))))))))), ?_,
    fd', l₁ ++ (l₂ ++ (l₃ ++ l₄)), hne, hl₁.append (hl₂.append (hl₃.append hl₄)), rfl⟩
  simp [World.add, w₂, w₁]

/-! ### The transcript -/

/-- The calls of a transcribed write to `fd`, with the records they append: each piece
that is delivered is followed by its record. -/
inductive Transcribed (fd : ℤ) : List Record → List Call → Prop
  | nil : Transcribed fd [] []
  | interrupted {rs : List Record} {l : List Call} (h : Transcribed fd rs l) :
      Transcribed fd rs (.interrupted fd :: l)
  | piece {r : Record} {rs : List Record} {l l' : List Call} (hname : r.name = tsnam fd)
      (hreading : r.reading = false) (hr : Recorded fd r l) (h : Transcribed fd rs l') :
      Transcribed fd (r :: rs) (.wrote fd r.data :: (l ++ l'))

/-- **`ywrite` with a transcript**: the pieces are all of the data, and each has a record. -/
theorem ywrite_transcribed (hk : k.Delivers fd) (data : List UInt8) (bc : ℕ) (w : World) :
    ∃ w' rs l, Returns (ywriteFrom k fd data true bc) w () w' ∧ w'.log = w.log ++ l ∧
      Transcribed fd rs l ∧ (rs.map Record.data).flatten = data.drop bc := by
  induction hn : data.length - bc using Nat.strong_induction_on generalizing bc w with
  | _ n ih =>
    subst hn
    rcases Nat.lt_or_ge bc data.length with hlt | hge
    · have hlen : 0 < (data.drop bc).length := by rw [List.length_drop]; omega
      refine hk.retry fd hlen (P := fun w => ∃ w' rs l,
        Returns (ywriteFrom k fd data true bc) w () w' ∧ w'.log = w.log ++ l ∧
          Transcribed fd rs l ∧ (rs.map Record.data).flatten = data.drop bc) ?_ ?_ w
      · rintro w he ⟨w', rs, l, hret, hlog, hl, hdata⟩
        refine ⟨w', rs, .interrupted fd :: l, returns_eintr hlt he hret, ?_, .interrupted hl, hdata⟩
        rw [hlog, World.add, List.append_assoc]
        rfl
      · intro w r hr hle
        obtain ⟨w₁, ts, l₁, hret₁, hlog₁, hl₁⟩ := tscribe_returns hk (tsnam fd)
          ((data.drop bc).take (r + 1)) false (w.add [.wrote fd ((data.drop bc).take (r + 1))])
        obtain ⟨w', rs, l, hret, hlog, hl, hdata⟩ := ih _ (by omega) (bc + (r + 1)) w₁ rfl
        refine ⟨w', _, _, returns_transcribed hlt hr hret₁ hret, ?_, .piece rfl rfl hl₁ hl, ?_⟩
        · rw [hlog, hlog₁, World.add, List.append_assoc, List.append_assoc]
          rfl
        · rw [List.map_cons, List.flatten_cons, hdata, take_append_drop_add]
    · refine ⟨w, [], [], returns_done hge, by simp, .nil, ?_⟩
      rw [List.drop_eq_nil_of_le hge]
      rfl

/-- The pieces that were delivered to `fd`, in order. -/
def pieces (fd : ℤ) (l : List Call) : List (List UInt8) :=
  l.filterMap fun
    | .wrote fd' bs => if fd' = fd then some bs else none
    | _ => none

/-- What was appended to which file, from every `open` to the next `close`. -/
def appended : List Call → List (List UInt8 × List UInt8)
  | [] => []
  | .opened path fd :: l =>
    (path, (pieces fd (l.takeWhile (· != Call.closed fd))).flatten) :: appended l
  | _ :: l => appended l

@[simp] theorem pieces_append (l l' : List Call) :
    pieces fd (l ++ l') = pieces fd l ++ pieces fd l' := List.filterMap_append

@[simp] theorem pieces_wrote (bs : List UInt8) (l : List Call) :
    pieces fd (.wrote fd bs :: l) = bs :: pieces fd l := by simp [pieces]

theorem pieces_wrote_ne (hne : fd' ≠ fd) (bs : List UInt8) (l : List Call) :
    pieces fd (.wrote fd' bs :: l) = pieces fd l := by simp [pieces, hne]

theorem Writes.pieces (h : Writes fd bs l) : (pieces fd l).flatten = bs := by
  induction h with
  | nil => rfl
  | interrupted _ ih => exact ih
  | wrote p _ ih => rw [pieces_wrote, List.flatten_cons, ih]

theorem Writes.pieces_ne (h : Writes fd' bs l) (hne : fd' ≠ fd) : Transcript.pieces fd l = [] := by
  induction h with
  | nil => rfl
  | interrupted _ ih => exact ih
  | wrote p _ ih => rw [pieces_wrote_ne hne, ih]

/-- No file is opened or closed meanwhile. -/
theorem Writes.appended (h : Writes fd bs l) (rest : List Call) :
    appended (l ++ rest) = appended rest ∧ (l ++ rest).takeWhile (· != Call.closed fd) =
      l ++ rest.takeWhile (· != Call.closed fd) := by
  induction h with
  | nil => exact ⟨rfl, rfl⟩
  | interrupted _ ih => exact ⟨ih.1, congrArg (_ :: ·) ih.2⟩
  | wrote p _ ih => exact ⟨ih.1, congrArg (_ :: ·) ih.2⟩

theorem Recorded.pieces {r : Record} (h : Recorded fd r l) : Transcript.pieces fd l = [] := by
  obtain ⟨fd', l', hne, hl', rfl⟩ := h
  show Transcript.pieces fd (l' ++ [.closed fd']) = []
  rw [pieces_append, hl'.pieces_ne hne]
  rfl

theorem Recorded.appended {r : Record} (h : Recorded fd r l) (rest : List Call) :
    Transcript.appended (l ++ rest) =
      (tsPath r.name, r.bytes) :: Transcript.appended rest := by
  obtain ⟨fd', l', hne, hl', rfl⟩ := h
  have happ := hl'.appended (Call.closed fd' :: rest)
  rw [List.takeWhile_cons_of_neg (by simp), List.append_nil] at happ
  show (tsPath r.name, (Transcript.pieces fd' (((l' ++ [Call.closed fd']) ++ rest).takeWhile
    (· != Call.closed fd'))).flatten) ::
      Transcript.appended ((l' ++ [Call.closed fd']) ++ rest) = _
  rw [List.append_assoc, List.singleton_append, happ.1, happ.2, hl'.pieces]
  rfl

theorem Transcribed.pieces {rs : List Record} (h : Transcribed fd rs l) :
    Transcript.pieces fd l = rs.map Record.data := by
  induction h with
  | nil => rfl
  | interrupted _ ih => exact ih
  | piece _ _ hr _ ih =>
    rw [pieces_wrote, pieces_append, hr.pieces, List.nil_append, ih]
    rfl

theorem Transcribed.appended {rs : List Record} (h : Transcribed fd rs l) :
    Transcript.appended l = rs.map fun r => (tsPath (tsnam fd), r.bytes) := by
  induction h with
  | nil => rfl
  | interrupted _ ih => exact ih
  | @piece r rs l l' hname _ hr _ ih =>
    show Transcript.appended (l ++ l') = _
    rw [hr.appended, hname, ih]
    rfl

theorem Transcribed.reading {rs : List Record} (h : Transcribed fd rs l) :
    ∀ r ∈ rs, r.reading = false := by
  induction h with
  | nil => simp
  | interrupted _ ih => exact ih
  | piece _ hreading _ _ ih => exact List.forall_mem_cons.mpr ⟨hreading, ih⟩

/-- What a call of `xwrite` comes to: the pieces it delivers to `fd` are all of the data
in order, what it appends to the transcript is one record of a write for each, and no
other. -/
structure Complete (fd : ℤ) (data : List UInt8) (l : List Call) (rs : List Record) : Prop where
  delivered : (pieces fd l).flatten = data
  payloads : (rs.map Record.data).flatten = data
  records : appended l = rs.map fun r => (tsPath (tsnam fd), r.bytes)
  writing : ∀ r ∈ rs, r.reading = false
  /-- No write to the transcript is transcribed. -/
  once : rs.map Record.data = pieces fd l

/-- **Writes are complete and faithfully transcribed.** -/
theorem xwrite_transcribed (hk : k.Delivers fd) (data : List UInt8) (w : World) :
    ∃ w' l rs, Returns (xwrite k fd data) w () w' ∧ w'.log = w.log ++ l ∧
      Complete fd data l rs := by
  obtain ⟨w', rs, l, hret, hlog, hl, hdata⟩ := ywrite_transcribed hk data 0 w
  exact ⟨w', l, rs, hret, hlog, by rw [hl.pieces]; exact hdata, hdata, hl.appended, hl.reading,
    hl.pieces.symm⟩

/-- A kernel that interrupts every other call and writes three bytes at a time. -/
def kernel₀ : Kernel where
  write i _ n := if i % 2 = 0 then .eintr else .wrote (min n 3)
  gettimeofday _ := some ⟨1500000000, 123456⟩
  openAppend _ := some 4
  close _ := true
  behind := 0

theorem kernel₀_delivers : kernel₀.Delivers 3 where
  write i fd n hn := by
    by_cases hi : i % 2 = 0
    · exact .inl (if_pos hi)
    · exact .inr ⟨min n 3, if_neg hi, by omega, by omega⟩
  goesOn i fd n := by
    refine ⟨2 * i + 1, by omega, ?_⟩
    show (if (2 * i + 1) % 2 = 0 then _ else _) ≠ _
    rw [if_neg (by omega)]
    nofun
  gettimeofday i := ⟨_, rfl⟩
  openAppend i := ⟨4, rfl, by decide⟩
  close i := rfl

/-- The report of the terminal size is written in four pieces. -/
theorem xwrite_transcribed_report : ∃ w' l rs,
    Returns (xwrite kernel₀ 3 (ascii "\x1b[9999;130R")) ⟨[], 0⟩ () w' ∧ w'.log = [] ++ l ∧
      Complete 3 (ascii "\x1b[9999;130R") l rs :=
  xwrite_transcribed kernel₀_delivers _ ⟨[], 0⟩

end Swh.Transcript
