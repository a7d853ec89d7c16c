/-
The escape sequence eater (back/ansiseq.c).

`eatone` runs the table `delta` over the classes `mktok` gives to the bytes
until a sequence is complete.  The actions keep their state in file-scope
variables, the `Parser`, which survives from one call to the next.

A store outside `argv` and a number that is no `int` have no meaning in C.  The
actions note them in `faults` and go on with the array unchanged and the number
as it is, so that each kind can be looked at by itself; a call that met one is
`undefined` as a whole.
-/
import Swh.Basic
import Mathlib.Tactic.Common

namespace Swh.Ansiseq

/-- The states `S_STA` to `S_ERR`. -/
inductive St
  /-- Starting state. -/
  | sta
  /-- Escape character seen. -/
  | esc
  /-- CSI state. -/
  | csi
  /-- `]` state. -/
  | sqc
  /-- `()#` state. -/
  | pph
  /-- Okay state. -/
  | fin
  /-- Error state. -/
  | err
  deriving DecidableEq, Repr

/-- The number a state is `#define`d as. -/
def St.code : St → ℕ
  | .sta => 0 | .esc => 1 | .csi => 2 | .sqc => 3 | .pph => 4 | .fin => 5 | .err => 6

/-- The token classes `T_ESCP` to `T_REST`. -/
inductive Tok
  | escp | cchr | ndig | bell | strm | hash | oprn | cprn | osqb | csqb | qmrk | smcl | rest
  deriving DecidableEq, Repr

/-- The number a token class is `#define`d as. -/
def Tok.code : Tok → ℕ
  | .escp => 0 | .cchr => 1 | .ndig => 2 | .bell => 3 | .strm => 4 | .hash => 5 | .oprn => 6
  | .cprn => 7 | .osqb => 8 | .csqb => 9 | .qmrk => 10 | .smcl => 11 | .rest => 12

/-- The functions the table points to. -/
inductive Act
  | nop | begin | stor | mkctl | mkpar | mkstr | setcls | ext
  deriving DecidableEq, Repr

section Table

open St Act

private abbrev ERR : St × Act := (err, nop)

/-- The transition table, one row for each of `S_STA` to `S_PPH`. -/
def delta : List (List (St × Act)) :=
  /- T_ESCP, T_CCHR, T_NDIG, T_BELL, T_STRM, T_HASH, T_OPRN, T_CPRN, T_OSQ, T_CSQB, T_QMRK,
     T_SMCL, T_REST -/
  [ /- S_STA -/
    [(esc, begin), ERR, ERR, ERR, ERR, ERR, ERR, ERR, ERR, ERR, ERR, ERR, ERR],
    /- S_ESC -/
    [(esc, begin), (fin, mkctl), (fin, mkctl), ERR, ERR, (pph, setcls), (pph, setcls),
      (pph, setcls), (csi, setcls), (sqc, setcls), ERR, ERR, ERR],
    /- S_CSI -/
    [(esc, begin), (fin, mkctl), (csi, mkpar), ERR, ERR, ERR, ERR, ERR, ERR, ERR, (csi, ext),
      (csi, stor), ERR],
    /- S_SQC -/
    [(esc, begin), (sqc, mkstr), (sqc, mkstr), (fin, nop), (fin, nop), (sqc, mkstr),
      (sqc, mkstr), (sqc, mkstr), (sqc, mkstr), (sqc, mkstr), (sqc, mkstr), (sqc, mkstr),
      (sqc, mkstr)],
    /- S_PPH -/
    [(esc, begin), (fin, mkctl), (fin, mkctl), ERR, ERR, ERR, ERR, ERR, ERR, ERR, ERR, ERR,
      ERR] ]

end Table

/-- `delta[st][t]`; the table has no row for `S_FIN` and `S_ERR`. -/
def transition (st : St) (t : Tok) : Option (St × Act) :=
  delta[st.code]?.bind fun row => row[t.code]?

/-! ### The classifier -/

/-- `'\033'` -/
def ESC : UInt8 := 0x1B

/-- "ABC...Zabc...z<=>" -/
def CCHRS : List UInt8 :=
  ['A', 'B', 'C', 'D', 'E', 'F', 'G', 'H', 'I', 'J', 'K', 'L', 'M', 'N', 'O', 'P', 'Q', 'R', 'S',
   'T', 'U', 'V', 'W', 'X', 'Y', 'Z', 'a', 'b', 'c', 'd', 'e', 'f', 'g', 'h', 'i', 'j', 'k', 'l',
   'm', 'n', 'o', 'p', 'q', 'r', 's', 't', 'u', 'v', 'w', 'x', 'y', 'z', '<', '=', '>'].map
    fun ch => ch.toNat.toUInt8

/-- The value of a character constant: `char` is signed, so that of a byte from
0x80 on is negative. -/
def charConst (b : UInt8) : ℤ := if b.toNat < 128 then b.toNat else b.toNat - 256

/-- `isdigit` -/
def isdigit (c : UInt8) : Bool := 48 ≤ c.toNat && c.toNat ≤ 57

/-- Classify a byte.  The `case` labels are character constants. -/
def mktok (c : UInt8) : Tok :=
  let v : ℤ := c.toNat
  if v = 0 then .rest
  else if isdigit c then .ndig
  else if c ∈ CCHRS then .cchr
  else if v = charConst 0x1B then .escp
  else if v = charConst 0x07 then .bell
  else if v = charConst 0x9C then .strm
  else if v = charConst 0x23 then .hash
  else if v = charConst 0x28 then .oprn
  else if v = charConst 0x29 then .cprn
  else if v = charConst 0x5B then .osqb
  else if v = charConst 0x5D then .csqb
  else if v = charConst 0x3F then .qmrk
  else if v = charConst 0x3B then .smcl
  else .rest

/-! ### The actions -/

/-- `MAX_ANSISEQ_PARAMS` -/
abbrev MAX_ANSISEQ_PARAMS : ℕ := 8

/-- `MAX_OSC_STR_SZ` -/
abbrev MAX_OSC_STR_SZ : ℕ := 256

/-- The value of a parameter that is left out. -/
def ABSENT : ℤ := INT_MIN

end Ansiseq

/-- `struct ansiseq` -/
structure Ansiseq where
  cls : UInt8
  cmd : UInt8
  strarg : Vector UInt8 Ansiseq.MAX_OSC_STR_SZ
  ext : Bool
  argv : Vector ℤ Ansiseq.MAX_ANSISEQ_PARAMS
  argc : ℤ
  deriving DecidableEq

/-- The file-scope variables of ansiseq.c, and the faults met so far. -/
structure Parser where
  curseq : Ansiseq
  parmv : ℤ
  gotparm : Bool
  faults : List Fault
  deriving DecidableEq

namespace Ansiseq

/-- `s_protoseq`: nothing calls `ansiseq_init`, so it stays all zero. -/
def protoseq : Ansiseq where
  cls := 0
  cmd := 0
  strarg := Vector.replicate _ 0
  ext := false
  argv := Vector.replicate _ 0
  argc := 0

/-- The parser as the program starts: all of it is in static storage. -/
def parser₀ : Parser := ⟨protoseq, 0, false, []⟩

def actBegin (p : Parser) : Parser :=
  { p with curseq := protoseq, gotparm := false, parmv := 0 }

/-- `s_curseq.argv[s_curseq.argc++] = v` -/
def storeArgv (v : ℤ) (p : Parser) : Parser :=
  let s := p.curseq
  if h : 0 ≤ s.argc ∧ s.argc.toNat < MAX_ANSISEQ_PARAMS then
    { p with curseq := { s with argv := s.argv.set s.argc.toNat v h.2, argc := s.argc + 1 } }
  else
    { p with curseq := { s with argc := s.argc + 1 },
             faults := p.faults ++ [.argvStore s.argc] }

def actStor (c : UInt8) (p : Parser) : Parser :=
  let p' :=
    if c = 0x3B then storeArgv (if p.gotparm then p.parmv else ABSENT) p
    else if p.gotparm then storeArgv p.parmv p
    else p
  { p' with parmv := 0, gotparm := false }

def actMkctl (c : UInt8) (p : Parser) : Parser :=
  let p' := if p.gotparm then actStor 0 p else p
  { p' with curseq := { p'.curseq with cmd := c } }

def actMkpar (c : UInt8) (p : Parser) : Parser :=
  let v := p.parmv * 10 + ((c.toNat : ℤ) - 48)
  { p with parmv := v, gotparm := true,
           faults := if INT_MIN ≤ v ∧ v ≤ INT_MAX then p.faults
                     else p.faults ++ [.parmOverflow v] }

/-- `strlen` of the string argument; without a NUL it runs on past the array,
and is no smaller than its size. -/
def strargLen (s : Ansiseq) : ℕ := s.strarg.toList.findIdx (· == 0)

def actMkstr (c : UInt8) (p : Parser) : Parser :=
  let len := strargLen p.curseq
  if h : len + 1 ≥ MAX_OSC_STR_SZ then p
  else { p with curseq := { p.curseq with
    strarg := p.curseq.strarg.set len c (Nat.lt_of_succ_lt (Nat.lt_of_not_ge h)) } }

def actSetcls (c : UInt8) (p : Parser) : Parser :=
  { p with curseq := { p.curseq with cls := c } }

def actExt (p : Parser) : Parser :=
  { p with curseq := { p.curseq with ext := true } }

/-- `tr.action(c)` -/
def Act.run : Act → UInt8 → Parser → Parser
  | .nop, _, p => p
  | .begin, _, p => actBegin p
  | .stor, c, p => actStor c p
  | .mkctl, c, p => actMkctl c p
  | .mkpar, c, p => actMkpar c p
  | .mkstr, c, p => actMkstr c p
  | .setcls, c, p => actSetcls c p
  | .ext, _, p => actExt p

/-! ### The loop -/

/-- The `while` loop: the bytes from index `i` on are still to be read.  `none`
is the result -1. -/
def eatoneLoop : List UInt8 → ℕ → St → Parser → Parser × Except Stop (Option ℕ)
  | [], _, _, p => (p, .ok none)
  | c :: d, i, st, p =>
    match transition st (mktok c) with
    | none => (p, .error (.undefined (.tableRow st.code)))
    | some (st', a) =>
      -- the action comes before the new state is looked at
      let p' := a.run c p
      if st' = .err then (p', .error (.panic (.ansiseq c (i + 1) st.code)))
      else if st' = .fin then (p', .ok (some (i + 1)))
      else eatoneLoop d (i + 1) st' p'

/-- What a call comes to: nothing that C gives a meaning to after a fault, or
when the length does not fit the `int` that is returned. -/
def settle (faults : List Fault) (r : Except Stop (Option ℕ)) : Except Stop (Option ℕ) :=
  match faults, r with
  | f :: _, _ => .error (.undefined f)
  | [], .ok (some n) => if (n : ℤ) ≤ INT_MAX then r else .error (.undefined (.intReturn n))
  | [], _ => r

/-- `ansiseq_eatone(data, len, dst)`: the length of the escape sequence at the
start of the data, `none` (-1) if there is not enough of it.  `*dst` would be
the parser's `curseq`. -/
def eatone (data : List UInt8) (p : Parser) : Parser × Except Stop (Option ℕ) :=
  let r := eatoneLoop data 0 .sta { p with faults := [] }
  (r.1, settle r.1.faults r.2)

end Swh.Ansiseq
