/-
The machines for HP gear (back/hp/fsm_init_hp.c, fsm_cmdout_hp.c,
fsm_inchar_hp.c) and what their recorders record.

Each machine is a table over the tokens of `fsmHpMktok` and a few actions on
file-scope variables.  The texts in the buffers are what counts: a `Text` record
gives them as lists, and an action does to the lists what its name says
(`Cmdout.action_holds`, `Init.action_holds`).
-/
import Swh.Fsm
import Swh.Common

namespace Swh

/-- One row of a table: the entries for `T_ESEQ`, `T_REST` and `T_EOF`. -/
def row {σ α : Type} (eseq rest eof : σ × α) : HpTok → σ × α
  | .eseq => eseq
  | .rest => rest
  | .eof => eof

/-- What is stored when the argument of an action is converted to a `char`. -/
def charOf (c : Option UInt8) : UInt8 := c.getD 0xFF

/-! ### Recording a character -/

namespace Buf

variable {b : Buf} {xs : List UInt8}

/-- `buf[bufcnt++] = c; buf[bufcnt] = '\0';` -/
def push (b : Buf) (c : UInt8) : Except Stop Buf := do
  let m ← access (b.mem.store b.cnt c)
  let m ← access (m.store (b.cnt + 1) 0)
  .ok ⟨m, b.cnt + 1⟩

/-- `buf = xrealloc(buf, bufsz * 2)` -/
def double (b : Buf) : Buf :=
  ⟨b.mem.realloc (b.mem.size * 2) (Nat.mul_pos b.mem.size_pos Nat.two_pos), b.cnt⟩

/-- `bufcnt = 0; buf[0] = '\0';` -/
def clear (b : Buf) : Buf := ⟨b.mem.storeFirst 0, 0⟩

theorem clear_records (b : Buf) : b.clear.Records [] := ⟨Block.storeFirst_holds _ 0, rfl⟩

theorem double_records (h : b.Records xs) : b.double.Records xs :=
  ⟨Block.realloc_holds _ h.1 (by omega), h.2⟩

theorem push_records (h : b.Counts xs) (hlt : b.cnt + 1 < b.mem.size) (c : UInt8) :
    ∃ b', b.push c = .ok b' ∧ b'.Records (xs ++ [c]) := by
  obtain ⟨hmem, hcnt⟩ := h
  obtain ⟨m, hm, hsize, hholds⟩ := Block.store_of_holds hmem (by omega) c
  have hlen : (xs ++ [c]).length = b.cnt + 1 := by rw [List.length_append, hcnt]; rfl
  obtain ⟨m', hm', -, hholds'⟩ := Block.store_of_holds hholds (by omega) 0
  refine ⟨⟨m', b.cnt + 1⟩, ?_, hholds', hlen.symm⟩
  rw [← hcnt] at hm
  rw [hlen] at hm'
  rw [push, hm, access_some]
  show (access (m.store (b.cnt + 1) 0)).bind _ = _
  rw [hm', access_some]
  rfl

end Buf

/-- The body of `act_recps`: record a character, making room first. -/
def record (c : Option UInt8) (b : Buf) : Except Stop Buf :=
  (if b.mem.size ≤ b.cnt + 1 then b.double else b).push (charOf c)

theorem record_records {b : Buf} {xs : List UInt8} (h : b.Records xs) (c : Option UInt8) :
    ∃ b', record c b = .ok b' ∧ b'.Records (xs ++ [charOf c]) := by
  have hlt := h.cnt_lt
  rw [record]
  -- a full buffer has room for the NUL only
  split
  · refine Buf.push_records (Buf.double_records h).counts ?_ _
    show b.cnt + 1 < b.mem.size * 2
    omega
  · exact Buf.push_records h.counts (by omega) _

/-! ### The opening chat -/

namespace Init

/-- The states `S_STA` to `S_ERR`. -/
inductive St
  /-- Starting state. -/
  | sta
  /-- License and copyright. -/
  | lic
  /-- Escape sequences following the copyright stuff. -/
  | cm1
  /-- Please press the any key. -/
  | any
  /-- Escape sequences following the anykey prompt. -/
  | cm2
  /-- Your last login was. -/
  | las
  /-- Escape sequences following the last login message. -/
  | cm3
  /-- Prompt. -/
  | ps1
  /-- Escape sequences following the prompt. -/
  | cm4
  /-- Accepting state. -/
  | fin
  /-- Error state. -/
  | err
  deriving DecidableEq, Repr

/-- The functions the table points to. -/
inductive Act
  | nop | ak | report | recps
  deriving DecidableEq, Repr

/-- The file-scope variables. -/
structure Vars where
  ps1buf : Buf
  anykey : Bool
  report : Bool

private abbrev ERR : St × Act := (.err, .nop)

/-- The transition table. -/
def delta : St → HpTok → St × Act
  /- (init)  T_ESEQ         T_REST          T_EOF -/
  | .sta => row ERR           (.lic, .nop)    ERR
  | .lic => row (.cm1, .nop)  (.lic, .nop)    ERR
  | .cm1 => row (.cm1, .nop)  (.any, .nop)    ERR
  | .any => row (.cm2, .ak)   (.any, .nop)    ERR
  | .cm2 => row (.cm2, .nop)  (.las, .report) ERR
  | .las => row (.cm3, .nop)  (.las, .nop)    ERR
  | .cm3 => row (.cm3, .nop)  (.ps1, .recps)  ERR
  | .ps1 => row (.cm4, .nop)  (.ps1, .recps)  ERR
  | .cm4 => row (.cm4, .nop)  ERR             (.fin, .nop)
  | .fin => row ERR           ERR             ERR
  | .err => row ERR           ERR             ERR

/-- `tr.action(c)` -/
def action : Act → Option UInt8 → Vars → Except Stop Vars
  | .nop, _, v => .ok v
  | .ak, _, v => .ok { v with anykey := true }
  | .report, _, v => .ok { v with report := true }
  | .recps, c, v => (record c v.ps1buf).map fun b => { v with ps1buf := b }

def reset (v : Vars) : Vars := ⟨v.ps1buf.clear, false, false⟩

/-- The machine `init` makes. -/
def fsm : Fsm St HpTok Act Vars where
  errst := .err
  inist := .sta
  accst := [.fin]
  delta := delta
  action := action
  mktok := fsmHpMktok
  eof := .eof
  toklen := fsmHpMktok_toklen
  reset := reset

/-- `PS1BUFSZ` -/
def PS1BUFSZ : ℕ := 256

/-- `init` -/
def init : Mach St Vars := ⟨.sta, ⟨.xmalloc PS1BUFSZ (by decide), false, false⟩⟩

/-- `anykey`: tell whether the any key has to be pressed, and forget it. -/
def anykey (m : Mach St Vars) : Bool × Mach St Vars :=
  (m.vars.anykey, { m with vars := { m.vars with anykey := false } })

/-- `report`: tell whether the terminal size has to be reported, and forget it. -/
def report (m : Mach St Vars) : Bool × Mach St Vars :=
  (m.vars.report, { m with vars := { m.vars with report := false } })

/-- What is recorded. -/
structure Text where
  ps1 : List UInt8
  anykey : Bool
  report : Bool
  deriving DecidableEq

def Vars.Holds (v : Vars) (x : Text) : Prop :=
  v.ps1buf.Records x.ps1 ∧ v.anykey = x.anykey ∧ v.report = x.report

/-- What an action does to the texts. -/
def Text.act (x : Text) : Act → Option UInt8 → Text
  | .nop, _ => x
  | .ak, _ => { x with anykey := true }
  | .report, _ => { x with report := true }
  | .recps, c => { x with ps1 := x.ps1 ++ [charOf c] }

theorem action_holds {v : Vars} {x : Text} (h : v.Holds x) (a : Act) (c : Option UInt8) :
    ∃ v', action a c v = .ok v' ∧ v'.Holds (x.act a c) := by
  obtain ⟨hps1, hkey, hrep⟩ := h
  cases a with
  | nop => exact ⟨v, rfl, hps1, hkey, hrep⟩
  | ak => exact ⟨{ v with anykey := true }, rfl, hps1, rfl, hrep⟩
  | report => exact ⟨{ v with report := true }, rfl, hps1, hkey, rfl⟩
  | recps =>
    obtain ⟨b, hb, hrec⟩ := record_records hps1 c
    refine ⟨{ v with ps1buf := b }, ?_, hrec, hkey, hrep⟩
    rw [action, hb]
    rfl

theorem init_holds : init.vars.Holds ⟨[], false, false⟩ := ⟨Buf.xmalloc_records _ _, rfl, rfl⟩

end Init

/-! ### Command output -/

namespace Cmdout

/-- The states `S_STA` to `S_ERR`. -/
inductive St
  /-- Starting state. -/
  | sta
  /-- Escape-sequence munching state 1. -/
  | cm1
  /-- Command output, prompt or question. -/
  | out
  /-- Escape-sequence munching state 2. -/
  | cm2
  /-- Prompt. -/
  | ps1
  /-- Escape-sequence munching state 3. -/
  | cm3
  /-- Accepting state. -/
  | fin
  /-- Error state. -/
  | err
  deriving DecidableEq, Repr

/-- The functions the table points to; `recout` is `act_rec`. -/
inductive Act
  | nop | noout | recout | recps
  deriving DecidableEq, Repr

/-- The file-scope variables. -/
structure Vars where
  outbuf : Buf
  ps1buf : Buf

private abbrev ERR : St × Act := (.err, .nop)

/-- The transition table. -/
def delta : St → HpTok → St × Act
  /- (cmdout) T_ESEQ        T_REST          T_EOF -/
  | .sta => row (.cm1, .nop)  ERR             ERR
  | .cm1 => row (.cm1, .nop)  (.out, .recout) ERR
  | .out => row (.cm2, .nop)  (.out, .recout) ERR
  | .cm2 => row (.cm2, .nop)  (.ps1, .recps)  (.fin, .noout)
  | .ps1 => row (.cm3, .nop)  (.ps1, .recps)  ERR
  | .cm3 => row (.cm3, .nop)  ERR             (.fin, .nop)
  | .fin => row ERR           ERR             ERR
  | .err => row ERR           ERR             ERR

/-- Done, we have a question, or just a PS1 change but no real output: the
output becomes the prompt. -/
def actNoout (v : Vars) : Except Stop Vars := do
  let nsz := growSize v.ps1buf.mem.size (v.outbuf.cnt + 1) v.ps1buf.mem.size_pos
  let ps1 :=
    if v.ps1buf.mem.size < nsz then v.ps1buf.mem.realloc nsz
      (lt_of_lt_of_le v.ps1buf.mem.size_pos (le_growSize _ _ _).2)
    else v.ps1buf.mem
  let out ← access (v.outbuf.mem.read 0 v.outbuf.cnt)
  let ps1 ← access (ps1.write 0 out)
  let ps1 ← access (ps1.store v.outbuf.cnt 0)
  .ok ⟨v.outbuf.clear, ⟨ps1, v.outbuf.cnt⟩⟩

/-- Room for a character and a NUL.  Other than in `act_recps`, a buffer that is
moved gets its NUL at once. -/
def makeRoom (b : Buf) : Except Stop Buf :=
  if b.mem.size ≤ b.cnt + 1 then do
    let m ← access (b.double.mem.store b.cnt 0)
    .ok ⟨m, b.cnt⟩
  else .ok b

/-- Record this character to the output buffer. -/
def actRec (c : Option UInt8) (v : Vars) : Except Stop Vars := do
  let b ← makeRoom v.outbuf
  let b ← b.push (charOf c)
  .ok { v with outbuf := b }

/-- `tr.action(c)` -/
def action : Act → Option UInt8 → Vars → Except Stop Vars
  | .nop, _, v => .ok v
  | .noout, _, v => actNoout v
  | .recout, c, v => actRec c v
  | .recps, c, v => (record c v.ps1buf).map fun b => { v with ps1buf := b }

def reset (v : Vars) : Vars := ⟨v.outbuf.clear, v.ps1buf.clear⟩

/-- The machine `init` makes. -/
def fsm : Fsm St HpTok Act Vars where
  errst := .err
  inist := .sta
  accst := [.fin]
  delta := delta
  action := action
  mktok := fsmHpMktok
  eof := .eof
  toklen := fsmHpMktok_toklen
  reset := reset

/-- `OUTBUFSZ` -/
def OUTBUFSZ : ℕ := 4096

/-- `PS1BUFSZ` -/
def PS1BUFSZ : ℕ := 256

/-- `init` -/
def init : Mach St Vars :=
  ⟨.sta, ⟨.xmalloc OUTBUFSZ (by decide), .xmalloc PS1BUFSZ (by decide)⟩⟩

/-- What is recorded. -/
structure Text where
  out : List UInt8
  ps1 : List UInt8
  deriving DecidableEq

def Vars.Holds (v : Vars) (x : Text) : Prop :=
  v.outbuf.Records x.out ∧ v.ps1buf.Records x.ps1

/-- What an action does to the texts. -/
def Text.act (x : Text) : Act → Option UInt8 → Text
  | .nop, _ => x
  | .noout, _ => ⟨[], x.out⟩
  | .recout, c => { x with out := x.out ++ [charOf c] }
  | .recps, c => { x with ps1 := x.ps1 ++ [charOf c] }

theorem actNoout_holds {v : Vars} {x : Text} (h : v.Holds x) :
    ∃ v', actNoout v = .ok v' ∧ v'.Holds ⟨[], x.out⟩ := by
  obtain ⟨hout, hps1⟩ := h
  have hgrow := le_growSize v.ps1buf.mem.size (v.outbuf.cnt + 1) v.ps1buf.mem.size_pos
  -- whether it is moved or not, the prompt buffer has room for the output and a NUL
  obtain ⟨m, hm, hroom⟩ : ∃ m : Block UInt8,
      (if v.ps1buf.mem.size < growSize v.ps1buf.mem.size (v.outbuf.cnt + 1)
            v.ps1buf.mem.size_pos
        then v.ps1buf.mem.realloc (growSize v.ps1buf.mem.size (v.outbuf.cnt + 1)
            v.ps1buf.mem.size_pos) (lt_of_lt_of_le v.ps1buf.mem.size_pos hgrow.2)
        else v.ps1buf.mem) = m ∧ v.outbuf.cnt + 1 ≤ m.size := by
    split
    · exact ⟨_, rfl, hgrow.1⟩
    · exact ⟨_, rfl, by omega⟩
  have hcnt := hout.2
  obtain ⟨m₁, hm₁, hsize₁, hholds₁⟩ := Block.write_holds (b := m) x.out
    Block.holds_nil (by rw [← hcnt, List.length_nil]; omega)
  obtain ⟨m₂, hm₂, -, hholds₂⟩ := Block.store_of_holds hholds₁
    (by rw [List.nil_append, ← hcnt]; omega) 0
  refine ⟨⟨v.outbuf.clear, ⟨m₂, v.outbuf.cnt⟩⟩, ?_, Buf.clear_records _, hholds₂, hcnt⟩
  rw [List.nil_append, ← hcnt] at hm₂
  rw [actNoout, hm, hout.counts.read]
  show (access (m.write 0 x.out)).bind _ = _
  rw [show m.write 0 x.out = some m₁ from hm₁, access_some]
  show (access (m₁.store v.outbuf.cnt 0)).bind _ = _
  rw [hm₂]
  rfl

theorem makeRoom_counts {b : Buf} {xs : List UInt8} (h : b.Records xs) :
    ∃ b', makeRoom b = .ok b' ∧ b'.Counts xs ∧ b'.cnt + 1 < b'.mem.size := by
  have hlt := h.cnt_lt
  rw [makeRoom]
  split
  · have hdouble := (Buf.double_records h).counts
    have hsize : b.double.mem.size = b.mem.size * 2 := rfl
    obtain ⟨m, hm, hsize', hholds⟩ := Block.store_of_holds hdouble.1
      (by rw [← hdouble.2, hsize]; show b.cnt < _; omega) 0
    rw [← hdouble.2] at hm
    refine ⟨⟨m, b.cnt⟩, ?_, ⟨hholds.of_append, h.2⟩, ?_⟩
    · rw [show b.double.mem.store b.cnt 0 = some m from hm]
      rfl
    · show b.cnt + 1 < m.size
      omega
  · exact ⟨b, rfl, h.counts, by omega⟩

theorem actRec_holds {v : Vars} {x : Text} (h : v.Holds x) (c : Option UInt8) :
    ∃ v', actRec c v = .ok v' ∧ v'.Holds { x with out := x.out ++ [charOf c] } := by
  obtain ⟨b, hb, hcounts, hroom⟩ := makeRoom_counts h.1
  obtain ⟨b', hb', hrec⟩ := Buf.push_records hcounts hroom (charOf c)
  refine ⟨{ v with outbuf := b' }, ?_, hrec, h.2⟩
  rw [actRec, hb]
  show (b.push (charOf c)).bind _ = _
  rw [hb']
  rfl

theorem action_holds {v : Vars} {x : Text} (h : v.Holds x) (a : Act) (c : Option UInt8) :
    ∃ v', action a c v = .ok v' ∧ v'.Holds (x.act a c) := by
  cases a with
  | nop => exact ⟨v, rfl, h⟩
  | noout => exact actNoout_holds h
  | recout => exact actRec_holds h c
  | recps =>
    obtain ⟨b, hb, hrec⟩ := record_records h.2 c
    refine ⟨{ v with ps1buf := b }, ?_, h.1, hrec⟩
    rw [action, hb]
    rfl

theorem reset_holds (v : Vars) : (reset v).Holds ⟨[], []⟩ :=
  ⟨Buf.clear_records _, Buf.clear_records _⟩

end Cmdout

/-! ### The echo of a character -/

namespace Inchar

/-- The states `S_STA` to `S_ERR`. -/
inductive St
  /-- Starting state. -/
  | sta
  /-- Escape sequences preceding the character echo. -/
  | cm1
  /-- Input character echo. -/
  | inc
  /-- Escape sequences following the character echo. -/
  | cm2
  /-- Accepting state. -/
  | fin
  /-- Error state. -/
  | err
  deriving DecidableEq, Repr

/-- The one function the table points to. -/
inductive Act
  | nop
  deriving DecidableEq, Repr

private abbrev ERR : St × Act := (.err, .nop)

/-- The transition table. -/
def delta : St → HpTok → St × Act
  /- (inchar) T_ESEQ        T_REST          T_EOF -/
  | .sta => row (.cm1, .nop)  ERR             ERR
  | .cm1 => row ERR           (.inc, .nop)    ERR
  | .inc => row (.cm2, .nop)  ERR             ERR
  | .cm2 => row (.cm2, .nop)  ERR             (.fin, .nop)
  | .fin => row ERR           ERR             ERR
  | .err => row ERR           ERR             ERR

/-- The machine `init` makes; it has no variables. -/
def fsm : Fsm St HpTok Act Unit where
  errst := .err
  inist := .sta
  accst := [.fin]
  delta := delta
  action _ _ v := .ok v
  mktok := fsmHpMktok
  eof := .eof
  toklen := fsmHpMktok_toklen
  reset v := v

/-- `init` -/
def init : Mach St Unit := ⟨.sta, ()⟩

end Inchar

end Swh
