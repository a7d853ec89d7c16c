/-
The switch communication subsystem (sc.c).

`Sc` holds the file-scope variables, the three machines and the parser of escape
sequences among them.  A call logs what it reads and writes and what it does to
the current machine.  What `read(2)` would return is an argument of the calls that
may read.
-/
import Swh.Hp

namespace Swh

open Ansiseq

/-- What `s_curfsm` points to. -/
inductive CurFsm
  | init | cmdout | inchar
  deriving DecidableEq, Repr

/-- `s_state`; `other` stands for an `int` that is none of the four. -/
inductive ScState
  | busy | ready | writing | offline
  | other (st : ℤ)
  deriving DecidableEq, Repr

/-- What happens during a run. -/
inductive Ev
  /-- `read(2)` delivers bytes of the switch. -/
  | read (bs : List UInt8)
  /-- `read(2)` finds the pipe empty. -/
  | eagain
  /-- A queued byte is written to the switch. -/
  | wrote (c : UInt8)
  /-- The any key is pressed. -/
  | key
  /-- The terminal size is reported. -/
  | report
  /-- A machine becomes the current one and is reset. -/
  | reset (m : CurFsm)
  /-- The current machine takes an end-of-data step while `buffered` bytes are
  in the read buffer. -/
  | eod (m : CurFsm) (buffered : ℕ) (accepting : Bool)
  /-- sc becomes ready. -/
  | ready
  /-- A string is queued by `sc_write`. -/
  | queued (str : List UInt8)
  /-- Data is handed to the user front end. -/
  | put (data : List UInt8)
  deriving DecidableEq, Repr

/-- "\033[9999;130R" -/
def REPORT : List UInt8 := [0x1B, 0x5B, 0x39, 0x39, 0x39, 0x39, 0x3B, 0x31, 0x33, 0x30, 0x52]

/-- The bytes an event writes to ssh's standard input. -/
def Ev.bytes : Ev → List UInt8
  | .wrote c => [c]
  | .key => [0x78]
  | .report => REPORT
  | _ => []

/-! ### What a log says -/

/-- The bytes read from the switch. -/
def received (l : List Ev) : List UInt8 :=
  l.flatMap fun | .read bs => bs | _ => []

/-- The bytes written to the switch. -/
def written (l : List Ev) : List UInt8 := l.flatMap Ev.bytes

/-- The queued bytes that were written to the switch, in order. -/
def sent (l : List Ev) : List UInt8 :=
  l.filterMap fun | .wrote c => some c | _ => none

/-- The bytes passed to `sc_write`, in order. -/
def queuedBytes (l : List Ev) : List UInt8 :=
  l.flatMap fun | .queued str => str | _ => []

/-- What was handed to the user front end, in order. -/
def puts (l : List Ev) : List (List UInt8) :=
  l.filterMap fun | .put data => some data | _ => none

variable (l l' : List Ev)

@[simp] theorem received_append : received (l ++ l') = received l ++ received l' :=
  List.flatMap_append

@[simp] theorem written_append : written (l ++ l') = written l ++ written l' :=
  List.flatMap_append

@[simp] theorem sent_append : sent (l ++ l') = sent l ++ sent l' := List.filterMap_append

@[simp] theorem queuedBytes_append : queuedBytes (l ++ l') = queuedBytes l ++ queuedBytes l' :=
  List.flatMap_append

@[simp] theorem puts_append : puts (l ++ l') = puts l ++ puts l' := List.filterMap_append

/-! ### The variables -/

/-- `'\n'` -/
def NEWLINE : UInt8 := 0x0A

/-- The file-scope variables. -/
structure Sc where
  nodataflag : Bool
  state : ScState
  readbuf : Buf
  writebuf : Buf
  ps1buf : Buf
  outbuf : Buf
  fsmInit : Mach Init.St Init.Vars
  fsmCmdout : Mach Cmdout.St Cmdout.Vars
  fsmInchar : Mach Inchar.St Unit
  curfsm : CurFsm
  parser : Parser

/-- `READBUFSZ` -/
def READBUFSZ : ℕ := 4096

/-- `WRITEBUFSZ` -/
def WRITEBUFSZ : ℕ := 4096

/-- `PS1BUFSZ` -/
def PS1BUFSZ : ℕ := 128

/-- `OUTBUFSZ` -/
def OUTBUFSZ : ℕ := 4096

/-- `sc_init` -/
def scInit : Sc where
  nodataflag := false
  state := .busy
  readbuf := .xmalloc READBUFSZ (by decide)
  writebuf := .xmalloc WRITEBUFSZ (by decide)
  ps1buf := .xmalloc PS1BUFSZ (by decide)
  outbuf := .xmalloc OUTBUFSZ (by decide)
  fsmInit := Init.init
  fsmCmdout := Cmdout.init
  fsmInchar := Inchar.init
  curfsm := .init
  parser := parser₀

/-! ### Calls on the current machine -/

/-- `fsm_feed(s_curfsm, data, len)` -/
def curFeed (s : Sc) (data : List UInt8) : Logged Ev Stop (Sc × ℕ) :=
  match s.curfsm with
  | .init => do
      let q ← (Init.fsm.fsmFeed s.fsmInit s.parser data).silent
      pure ({ s with fsmInit := q.1, parser := q.2.1 }, q.2.2)
  | .cmdout => do
      let q ← (Cmdout.fsm.fsmFeed s.fsmCmdout s.parser data).silent
      pure ({ s with fsmCmdout := q.1, parser := q.2.1 }, q.2.2)
  | .inchar => do
      let q ← (Inchar.fsm.fsmFeed s.fsmInchar s.parser data).silent
      pure ({ s with fsmInchar := q.1, parser := q.2.1 }, q.2.2)

/-- `fsm_feed(s_curfsm, NULL, len)` -/
def curFeedNull (s : Sc) (len : ℕ) : Logged Ev Stop (Sc × ℕ) :=
  match s.curfsm with
  | .init => do
      let q ← (Init.fsm.fsmFeedNull s.fsmInit len).silent
      pure ({ s with fsmInit := q.1 }, q.2)
  | .cmdout => do
      let q ← (Cmdout.fsm.fsmFeedNull s.fsmCmdout len).silent
      pure ({ s with fsmCmdout := q.1 }, q.2)
  | .inchar => do
      let q ← (Inchar.fsm.fsmFeedNull s.fsmInchar len).silent
      pure ({ s with fsmInchar := q.1 }, q.2)

/-- `fsm_error(s_curfsm)` -/
def curError (s : Sc) : Bool :=
  match s.curfsm with
  | .init => Init.fsm.fsmError s.fsmInit
  | .cmdout => Cmdout.fsm.fsmError s.fsmCmdout
  | .inchar => Inchar.fsm.fsmError s.fsmInchar

/-- `fsm_accepting(s_curfsm)` -/
def curAccepting (s : Sc) : Bool :=
  match s.curfsm with
  | .init => Init.fsm.fsmAccepting s.fsmInit
  | .cmdout => Cmdout.fsm.fsmAccepting s.fsmCmdout
  | .inchar => Inchar.fsm.fsmAccepting s.fsmInchar

/-! ### Reading and writing -/

/-- The read buffer with room for at least one byte. -/
def readRoom (s : Sc) : Buf :=
  if s.readbuf.mem.size - s.readbuf.cnt = 0 then s.readbuf.grow (s.readbuf.mem.size * 2)
  else s.readbuf

/-- A read returns no more bytes than it was asked for. -/
def ReadResult.Fits (r : ReadResult) (s : Sc) : Prop :=
  ∀ bs, r = .bytes bs → s.readbuf.cnt + bs.length ≤ (readRoom s).mem.size

/-- `read_more`: the number of bytes read, zero for `EAGAIN`. -/
def readMore (r : ReadResult) (s : Sc) : Logged Ev Stop (Sc × ℕ) :=
  match xread r with
  | .error e => Logged.fail e
  | .ok none => do
      Logged.tell .eagain
      pure ({ s with readbuf := readRoom s }, 0)
  | .ok (some bs) => do
      Logged.tell (.read bs)
      let b ← Logged.lift ((readRoom s).append bs)
      pure ({ s with readbuf := b }, bs.length)

/-- Reset and program the machine that is to eat the answer to a byte. -/
def programFor (c : UInt8) (s : Sc) : Logged Ev Stop Sc :=
  if c = NEWLINE then do
    Logged.tell (.reset .cmdout)
    pure { s with curfsm := .cmdout, fsmCmdout := Cmdout.fsm.fsmReset s.fsmCmdout }
  else do
    Logged.tell (.reset .inchar)
    pure { s with curfsm := .inchar, fsmInchar := Inchar.fsm.fsmReset s.fsmInchar }

/-- `oper_writing` -/
def operWriting (s : Sc) : Logged Ev Stop (Sc × Bool) :=
  if s.writebuf.cnt = 0 then Logged.fail (.panic .noNewline)
  else do
    let c ← Logged.lift (access (s.writebuf.mem.load 0))
    Logged.tell (.wrote c)
    let b ← Logged.lift (shiftbuf s.writebuf 1)
    -- the answer to this byte is eaten by a machine that was reset for it
    let s ← programFor c { s with writebuf := b }
    pure ({ s with state := .busy }, true)

/-- Press the any key and report the terminal size if the init machine says so. -/
def reactInit (s : Sc) : Logged Ev Stop Sc := do
  -- each flag is cleared as it is read, so it is acted on once
  let k := Init.anykey s.fsmInit
  if k.1 then Logged.tell .key
  let r := Init.report k.2
  if r.1 then Logged.tell .report
  pure { s with fsmInit := r.2 }

/-- Only the init machine has something to react to. -/
def react (s : Sc) : Logged Ev Stop Sc := if s.curfsm = .init then reactInit s else pure s

/-- `oper_busy` when there is data in the read buffer. -/
def busyData (s : Sc) : Logged Ev Stop (Sc × Bool) := do
  let data ← Logged.lift (access (s.readbuf.mem.read 0 s.readbuf.cnt))
  let q ← curFeed { s with nodataflag := false } data
  if q.2 = 0 then pure (q.1, false) -- need more data
  else do
    let s ← react q.1
    let b ← Logged.lift (shiftbuf s.readbuf q.2)
    let s := { s with readbuf := b }
    if curError s then Logged.fail (.panic .fsmError) else pure (s, true)

/-- Copy a C string to a buffer: `growbuf`, `memcpy` and a NUL. -/
def copyString (b : Buf) (str : List UInt8) : Except Stop Buf := do
  let m ← access ((growbuf b.mem (str.length + 1)).write 0 str)
  let m ← access (m.store str.length 0)
  .ok ⟨m, str.length⟩

/-- `fsm_cmdout_outbuf` if it is the current machine, "" otherwise. -/
def curOut (s : Sc) : Except Stop (List UInt8) :=
  match s.curfsm with
  | .cmdout => cstring s.fsmCmdout.vars.outbuf.mem
  | _ => .ok []

/-- `fsm_init_ps1buf` or `fsm_cmdout_ps1buf`, "" otherwise. -/
def curPs1 (s : Sc) : Except Stop (List UInt8) :=
  match s.curfsm with
  | .init => cstring s.fsmInit.vars.ps1buf.mem
  | .cmdout => cstring s.fsmCmdout.vars.ps1buf.mem
  | .inchar => .ok []

/-- The last part of `oper_busy`: fetch output and prompt, and become ready. -/
def handover (s : Sc) : Logged Ev Stop (Sc × Bool) :=
  if s.outbuf.cnt ≠ 0 then Logged.fail (.panic .outbufNotEmpty)
  else do
    -- `strlen` ends both texts at their first NUL
    let out ← Logged.lift (curOut s)
    let outbuf ← Logged.lift (copyString s.outbuf out)
    let ps1 ← Logged.lift (curPs1 s)
    let ps1buf ← Logged.lift (copyString s.ps1buf ps1)
    Logged.tell .ready
    pure ({ s with outbuf := outbuf, ps1buf := ps1buf, state := .ready }, true)

/-- `oper_busy` when there is no data. -/
def busyNodata (s : Sc) : Logged Ev Stop (Sc × Bool) := do
  -- probe first; the step itself is taken only if it is accepted
  let q ← curFeedNull s 0
  if q.2 ≠ 0 then do
    let q ← curFeedNull q.1 1
    Logged.tell (.eod q.1.curfsm q.1.readbuf.cnt (curAccepting q.1))
    if q.1.writebuf.cnt ≠ 0 then pure ({ q.1 with state := .writing }, true)
    else handover q.1
  else if q.1.nodataflag = false then pure ({ q.1 with nodataflag := true }, false)
  else Logged.fail (.panic .meh)

/-- `oper_busy` -/
def operBusy (r : ReadResult) (s : Sc) : Logged Ev Stop (Sc × Bool) := do
  let q ← readMore r s
  if q.2 ≠ 0 ∨ q.1.readbuf.cnt ≠ 0 then busyData q.1 else busyNodata q.1

/-- `sc_operate`; the result is whether it should be called again at once. -/
def scOperate (r : ReadResult) (s : Sc) : Logged Ev Stop (Sc × Bool) :=
  match s.state with
  | .writing => operWriting s
  | .busy => operBusy r s
  | .ready => Logged.fail (.panic .operateReady)
  | .offline => Logged.fail (.panic .operateOffline)
  | .other st => Logged.fail (.panic (.invalidState st))

/-- `sc_write` -/
def scWrite (str : List UInt8) (s : Sc) : Logged Ev Stop Sc :=
  if s.state ≠ .ready then Logged.fail (.panic .writeOutsideReady)
  else if s.writebuf.cnt ≠ 0 then Logged.fail (.panic .writebufNotEmpty)
  else do
    -- room for the string and a NUL, which is not counted
    let b ← Logged.lift ((s.writebuf.grow (s.writebuf.cnt + str.length + 1)).append str)
    let m ← Logged.lift (access (b.mem.store b.cnt 0))
    Logged.tell (.queued str)
    pure { s with writebuf := ⟨m, b.cnt⟩, state := .writing, outbuf := s.outbuf.clear }

/-- `sc_hasreply` -/
def scHasreply (s : Sc) : Bool := s.outbuf.cnt != 0

/-- The C string `sc_getreply` points to. -/
def scGetreply (s : Sc) : Except Stop (List UInt8) := cstring s.outbuf.mem

/-- The C string `sc_getps1` points to. -/
def scGetps1 (s : Sc) : Except Stop (List UInt8) := cstring s.ps1buf.mem

/-- `sc_ready` -/
def scReady (s : Sc) : Bool := decide (s.state = .ready)

/-- `sc_offline` -/
def scOffline (s : Sc) : Bool := decide (s.state = .offline)

/-- `sc_busy` -/
def scBusy (s : Sc) : Bool := !scReady s && !scOffline s

end Swh
