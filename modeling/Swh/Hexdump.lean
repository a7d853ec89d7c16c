/-
`hexdump` (common/common.c).

A line is built in `char line[79]` and handed to `H`.  `lineText` is what it should
say: an offset, sixteen columns and the characters.

* `length_lineText` — how long that is, whatever the width of the offset;
* `dataLine_holds` — both kinds of lines are built as they should be, and fit;
* `columnsOf_lineText` — the columns of a line can be read back;
* `hexdump_eq` — what a dump prints;
* `hexdump_spells` — all data is shown, on as few lines as it takes.
-/
import Swh.Common
import Mathlib.Data.Nat.Digits.Lemmas

namespace Swh.Hexdump

/-! ### Formats -/

/-- Plain text. -/
def ascii (s : String) : List UInt8 := s.toList.map fun c => UInt8.ofNat c.toNat

/-- `' '` -/
def SPACE : UInt8 := 0x20

def hexDigit (n : ℕ) : UInt8 := UInt8.ofNat (if n < 10 then 0x30 + n else 0x57 + n)

/-- `%02x` of a byte -/
def percent02x (x : UInt8) : List UInt8 := [hexDigit (x.toNat / 16), hexDigit (x.toNat % 16)]

/-- `%#08x`: the prefix counts for the width, and zero has none. -/
def percentSharp08x (v : UInt32) : List UInt8 :=
  let digits := (Nat.digits 16 v.toNat).reverse.map hexDigit
  if v = 0 then List.replicate 8 0x30
  else ascii "0x" ++ List.replicate (6 - digits.length) 0x30 ++ digits

/-- `isprint` in the locale a C program starts in, which this one keeps. -/
def isprint (x : UInt8) : Bool := decide (0x20 ≤ x ∧ x ≤ 0x7E)

/-- The character column. -/
def glyph (x : UInt8) : UInt8 := if isprint x then x else 0x5F

/-! ### The line buffer -/

/-- Bytes per line. -/
def BPL : ℕ := 16

/-- `sizeof line` -/
def LINESZ : ℕ := 2 + 8 + 1 + (3 * BPL + 1) + (1 + BPL + 1 + 1)

/-- `char line[]; char *lnend;` -/
structure Cursor where
  line : Block UInt8
  lnend : ℕ

/-- `lnend += sprintf(lnend, ...)`, which also stores a NUL. -/
def sprintf (text : List UInt8) (q : Cursor) : Except Stop Cursor := do
  let m ← access (q.line.write q.lnend (text ++ [0]))
  .ok ⟨m, q.lnend + text.length⟩

/-- `*lnend++ = x` -/
def put (x : UInt8) (q : Cursor) : Except Stop Cursor := do
  let m ← access (q.line.store q.lnend x)
  .ok ⟨m, q.lnend + 1⟩

/-- `if (c % 8 == 7) *lnend++ = ' '` -/
def gap (c : ℕ) (q : Cursor) : Except Stop Cursor := if c % 8 = 7 then put SPACE q else .ok q

/-- " %02x" of `d[co+c]` -/
def byteColumn (d : List UInt8) (co c : ℕ) : Except Stop (List UInt8) := do
  let x ← access d[co + c]?
  .ok (SPACE :: percent02x x)

/-- A column of the last line, which has only `remain` bytes. -/
def restColumn (d : List UInt8) (remain co c : ℕ) : Except Stop (List UInt8) :=
  if c < remain then byteColumn d co c else .ok (ascii " --")

/-- The first loop of a line: `n` columns from `c` on, with a gap behind each eight. -/
def columns (column : ℕ → Except Stop (List UInt8)) (c : ℕ) : ℕ → Cursor → Except Stop Cursor
  | 0, q => .ok q
  | n + 1, q => do
    let text ← column c
    let q ← sprintf text q
    let q ← gap c q
    columns column (c + 1) n q

/-- The second loop: `n` characters from `d[co+c]` on. -/
def chars (d : List UInt8) (co c : ℕ) : ℕ → Cursor → Except Stop Cursor
  | 0, q => .ok q
  | n + 1, q => do
    let x ← access d[co + c]?
    let q ← put (glyph x) q
    chars d co (c + 1) n q

/-- One line, with `n` bytes of data from `co` on. -/
def dataLine (column : ℕ → Except Stop (List UInt8)) (d : List UInt8) (co n : ℕ)
    (line : Block UInt8) : Except Stop (Block UInt8) := do
  let q ← sprintf (percentSharp08x (UInt32.ofNat co) ++ [SPACE]) ⟨line, 0⟩
  let q ← columns column 0 BPL q
  let q ← put SPACE q
  let q ← chars d co 0 n q
  access (q.line.store q.lnend 0)

/-! ### The dump -/

/-- The `payload` of `log_log`: no more of a message than fits, and on one line. -/
def payload (text : List UInt8) : List UInt8 :=
  (text.take 4095).map fun x => if x = 0x0A ∨ x = 0x0D then 0x24 else x

/-- `H(...)` -/
def H (text : List UInt8) : Logged (List UInt8) Stop Unit := Logged.tell (payload text)

/-- `H("%s", line)` -/
def printLine (line : Block UInt8) : Logged (List UInt8) Stop Unit := do
  let text ← Logged.lift (cstring line)
  H text

/-- The loop over the full lines. -/
def fullLines (d : List UInt8) : ℕ → ℕ → Block UInt8 → Logged (List UInt8) Stop (ℕ × Block UInt8)
  | 0, co, line => pure (co, line)
  | l + 1, co, line => do
    let line ← Logged.lift (dataLine (byteColumn d co) d co BPL line)
    printLine line
    fullLines d l (co + BPL) line

/-- The last line, when the data does not end with a full one; `co` is behind the data then. -/
def lastLine (d : List UInt8) (co : ℕ) (line : Block UInt8) : Logged (List UInt8) Stop ℕ :=
  let remain := d.length % BPL
  if remain ≠ 0 then do
    let line ← Logged.lift (dataLine (restColumn d remain co) d co remain line)
    printLine line
    pure (co + remain)
  else pure co

def header (d : List UInt8) (name : Option (List UInt8)) : List UInt8 :=
  ascii "Hexdump '" ++ name.getD (ascii "unnamed") ++ ascii "', " ++ ascii (toString d.length)
    ++ ascii " bytes:"

/-- `hexdump`; what it logs are the lines that are printed when the log level allows it. -/
def hexdump (d : List UInt8) (name : Option (List UInt8)) : Logged (List UInt8) Stop Unit := do
  H (header d name)
  let q ← fullLines d (d.length / BPL) 0 (.alloc LINESZ (by decide))
  let co ← lastLine d q.1 q.2
  H (percentSharp08x (UInt32.ofNat co) ++ ascii " (end)")

/-! ### What a line says -/

/-- The data of the line at `co`. -/
def chunk (d : List UInt8) (co : ℕ) : List UInt8 := (d.drop co).take BPL

/-- What stands in a column that has no byte to show. -/
def FILLER : List UInt8 := ascii "--"

def cell : Option UInt8 → List UInt8
  | some x => percent02x x
  | none => FILLER

def gapText (c : ℕ) : List UInt8 := if c % 8 = 7 then [SPACE] else []

/-- The text of `n` columns from `c` on. -/
def columnsText (xs : List UInt8) (c : ℕ) : ℕ → List UInt8
  | 0 => []
  | n + 1 => SPACE :: cell xs[c]? ++ gapText c ++ columnsText xs (c + 1) n

/-- The line at `co`, with the data `xs`. -/
def lineText (co : ℕ) (xs : List UInt8) : List UInt8 :=
  percentSharp08x (UInt32.ofNat co) ++ [SPACE] ++ columnsText xs 0 BPL ++ [SPACE] ++ xs.map glyph

theorem length_cell (o : Option UInt8) : (cell o).length = 2 := by
  cases o <;> rfl

/-- Three bytes for each column and one for each gap. -/
theorem length_columnsText (xs : List UInt8) (c n : ℕ) :
    (columnsText xs c n).length = 3 * n + ((c + n) / 8 - c / 8) := by
  induction n generalizing c with
  | zero => simp [columnsText]
  | succ n ih =>
    rw [columnsText, List.length_append, List.length_append, List.length_cons, length_cell, ih,
      gapText]
    split
    · rw [List.length_singleton]
      omega
    · rw [List.length_nil]
      omega

/-- Eight digits, or what the value takes with its prefix. -/
theorem length_percentSharp08x (v : UInt32) :
    (percentSharp08x v).length = max 8 ((Nat.digits 16 v.toNat).length + 2) := by
  rw [percentSharp08x]
  split
  · next h =>
    subst h
    simp
  · simp [ascii]
    omega

example : (percentSharp08x 0, percentSharp08x 0x10) = (ascii "00000000", ascii "0x000010") := by
  decide

theorem length_digits_le (v : UInt32) : (Nat.digits 16 v.toNat).length ≤ 8 :=
  (Nat.digits_length_le_iff (by decide) _).2 v.toNat_lt

theorem length_percentSharp08x_le (v : UInt32) : (percentSharp08x v).length ≤ 10 := by
  have hdigits := length_digits_le v
  rw [length_percentSharp08x]
  omega

theorem length_lineText (co : ℕ) (xs : List UInt8) :
    (lineText co xs).length = (percentSharp08x (UInt32.ofNat co)).length + 52 + xs.length := by
  simp only [lineText, List.length_append, List.length_singleton, List.length_map,
    length_columnsText, BPL]

/-- A line and its NUL fit. -/
theorem length_lineText_lt (co : ℕ) {xs : List UInt8} (h : xs.length ≤ BPL) :
    (lineText co xs).length < LINESZ := by
  have := length_percentSharp08x_le (UInt32.ofNat co)
  rw [length_lineText, LINESZ]
  rw [BPL] at h ⊢
  omega

/-- The buffer has no byte to spare: a full line fills it as soon as its offset has eight
digits. -/
theorem length_lineText_eq_iff (co : ℕ) {xs : List UInt8} (h : xs.length = BPL) :
    (lineText co xs).length + 1 = LINESZ ↔ 0x10000000 ≤ (UInt32.ofNat co).toNat := by
  have hdigits := length_digits_le (UInt32.ofNat co)
  have hlast := Nat.lt_digits_length_iff (b := 16) (k := 7) (by decide) (UInt32.ofNat co).toNat
  rw [length_lineText, length_percentSharp08x, LINESZ, h, BPL]
  omega

/-! ### Printable text -/

/-- `isgraph`: a space is not. -/
def isgraph (x : UInt8) : Bool := isprint x && x != SPACE

theorem isprint_of_isgraph {x : UInt8} (h : isgraph x = true) : isprint x = true :=
  (Bool.and_eq_true_iff.1 h).1

theorem ne_space_of_isgraph {x : UInt8} (h : isgraph x = true) : x ≠ SPACE :=
  bne_iff_ne.1 (Bool.and_eq_true_iff.1 h).2

theorem isgraph_hexDigit : ∀ n < 16, isgraph (hexDigit n) = true := by decide

theorem isgraph_cell (o : Option UInt8) : ∀ y ∈ cell o, isgraph y = true := by
  rcases o with _ | x
  · exact List.all_eq_true.1 (by decide)
  · have hx := x.toNat_lt
    simp only [cell, percent02x, List.forall_mem_cons]
    exact ⟨isgraph_hexDigit _ (by omega), isgraph_hexDigit _ (by omega), by simp⟩

theorem isgraph_percentSharp08x (v : UInt32) : ∀ y ∈ percentSharp08x v, isgraph y = true := by
  rw [percentSharp08x]
  split
  · exact List.all_eq_true.1 (by decide)
  · rw [List.forall_mem_append, List.forall_mem_append]
    refine ⟨⟨List.all_eq_true.1 (by decide), fun y hy => ?_⟩, fun y hy => ?_⟩
    · rw [List.eq_of_mem_replicate hy]
      decide
    · obtain ⟨n, hn, rfl⟩ := List.mem_map.1 hy
      exact isgraph_hexDigit n (Nat.digits_lt_base (by decide) (List.mem_reverse.1 hn))

theorem isprint_percentSharp08x (v : UInt32) : ∀ y ∈ percentSharp08x v, isprint y = true :=
  fun y hy => isprint_of_isgraph (isgraph_percentSharp08x v y hy)

theorem isprint_space : ∀ y ∈ [SPACE], isprint y = true := List.all_eq_true.1 (by decide)

theorem isprint_columnsText (xs : List UInt8) (c n : ℕ) :
    ∀ y ∈ columnsText xs c n, isprint y = true := by
  induction n generalizing c with
  | zero => simp [columnsText]
  | succ n ih =>
    have hcell : ∀ y ∈ cell xs[c]?, isprint y = true :=
      fun y hy => isprint_of_isgraph (isgraph_cell _ y hy)
    have hgap : ∀ y ∈ gapText c, isprint y = true := by
      rw [gapText]
      split
      · exact isprint_space
      · exact List.forall_mem_nil _
    rw [columnsText, List.forall_mem_append, List.forall_mem_append, List.forall_mem_cons]
    exact ⟨⟨⟨by decide, hcell⟩, hgap⟩, ih (c + 1)⟩

theorem isprint_glyph (x : UInt8) : isprint (glyph x) = true := by
  rw [glyph]
  split
  · assumption
  · decide

/-- A line is printable, so nothing ends it early and `log_log` changes nothing in it. -/
theorem isprint_lineText (co : ℕ) (xs : List UInt8) : ∀ y ∈ lineText co xs, isprint y = true := by
  simp only [lineText, List.forall_mem_append]
  refine ⟨⟨⟨⟨isprint_percentSharp08x _, isprint_space⟩, isprint_columnsText xs 0 BPL⟩,
    isprint_space⟩, fun y hy => ?_⟩
  obtain ⟨x, -, rfl⟩ := List.mem_map.1 hy
  exact isprint_glyph x

theorem payload_of_isprint {text : List UInt8} (h : ∀ y ∈ text, isprint y = true)
    (hlen : text.length ≤ 4095) : payload text = text := by
  rw [payload, List.take_of_length_le hlen]
  refine (List.map_congr_left fun y hy => if_neg ?_).trans (List.map_id text)
  rintro (rfl | rfl) <;> exact absurd (h _ hy) (by decide)

theorem cstring_of_isprint {m : Block UInt8} {text : List UInt8}
    (h : ∀ y ∈ text, isprint y = true) (hm : m.Holds (text ++ [0])) : cstring m = .ok text := by
  rw [cstring_of_records hm, untilNul_of_notMem]
  intro h0
  exact absurd (h 0 h0) (by decide)

/-! ### Building a line -/

/-- The text `xs` has been built, in a buffer that is as large as `line`. -/
def Cursor.Built (q : Cursor) (xs : List UInt8) : Prop :=
  q.line.Holds xs ∧ q.lnend = xs.length ∧ q.line.size = LINESZ

variable {q : Cursor} {d ys : List UInt8}

theorem sprintf_built (text : List UInt8) (h : q.Built ys)
    (hroom : (ys ++ text).length < LINESZ) :
    ∃ r, sprintf text q = .ok r ∧ r.Built (ys ++ text) := by
  obtain ⟨hholds, hlnend, hsize⟩ := h
  rw [List.length_append] at hroom
  obtain ⟨m, hm, hmsize, hmholds⟩ := Block.write_holds (text ++ [0]) hholds
    (by rw [List.length_append, List.length_singleton]; omega)
  rw [← List.append_assoc] at hmholds
  refine ⟨⟨m, q.lnend + text.length⟩, ?_, hmholds.of_append, ?_, hmsize.trans hsize⟩
  · rw [sprintf, hlnend, hm]
    rfl
  · rw [List.length_append, hlnend]

theorem put_built (x : UInt8) (h : q.Built ys) (hroom : (ys ++ [x]).length < LINESZ) :
    ∃ r, put x q = .ok r ∧ r.Built (ys ++ [x]) := by
  obtain ⟨hholds, hlnend, hsize⟩ := h
  rw [List.length_append, List.length_singleton] at hroom
  obtain ⟨m, hm, hmsize, hmholds⟩ := Block.store_of_holds hholds (by omega) x
  refine ⟨⟨m, q.lnend + 1⟩, ?_, hmholds, ?_, hmsize.trans hsize⟩
  · rw [put, hlnend, hm]
    rfl
  · rw [List.length_append, hlnend, List.length_singleton]

theorem gap_built (c : ℕ) (h : q.Built ys) (hroom : (ys ++ gapText c).length < LINESZ) :
    ∃ r, gap c q = .ok r ∧ r.Built (ys ++ gapText c) := by
  rw [gapText] at hroom ⊢
  rw [gap]
  split
  · next hc =>
    rw [if_pos hc] at hroom
    exact put_built SPACE h hroom
  · exact ⟨q, rfl, by rwa [List.append_nil]⟩

/-- The first loop appends its columns. -/
theorem columns_built (xs : List UInt8) (c n : ℕ) {column : ℕ → Except Stop (List UInt8)}
    (hcolumn : ∀ i < c + n, column i = .ok (SPACE :: cell xs[i]?)) (h : q.Built ys)
    (hroom : (ys ++ columnsText xs c n).length < LINESZ) :
    ∃ r, columns column c n q = .ok r ∧ r.Built (ys ++ columnsText xs c n) := by
  induction n generalizing c q ys with
  | zero => exact ⟨q, rfl, by rwa [columnsText, List.append_nil]⟩
  | succ n ih =>
    rw [columnsText, ← List.append_assoc, ← List.append_assoc] at hroom ⊢
    have hroom' := hroom
    rw [List.length_append, List.length_append] at hroom'
    obtain ⟨q₁, hq₁, hbuilt₁⟩ := sprintf_built (SPACE :: cell xs[c]?) h (by omega)
    obtain ⟨q₂, hq₂, hbuilt₂⟩ := gap_built c hbuilt₁ (by rw [List.length_append]; omega)
    obtain ⟨r, hr, hbuilt⟩ := ih (c + 1) (fun i hi => hcolumn i (by omega)) hbuilt₂ hroom
    refine ⟨r, ?_, hbuilt⟩
    rw [columns, hcolumn c (by omega)]
    show (sprintf _ q >>= _) = _
    rw [hq₁]
    show (gap c q₁ >>= _) = _
    rw [hq₂]
    exact hr

/-- The second loop appends its characters. -/
theorem chars_built (co c n : ℕ) (hn : co + c + n ≤ d.length) (h : q.Built ys)
    (hroom : ys.length + n < LINESZ) :
    ∃ r, chars d co c n q = .ok r ∧ r.Built (ys ++ ((d.drop (co + c)).take n).map glyph) := by
  induction n generalizing c q ys with
  | zero => exact ⟨q, rfl, by simpa using h⟩
  | succ n ih =>
    have hlt : co + c < d.length := by omega
    obtain ⟨q₁, hq₁, hbuilt₁⟩ := put_built (glyph d[co + c]) h (by simp; omega)
    obtain ⟨r, hr, hbuilt⟩ := ih (c + 1) (by omega) hbuilt₁ (by simp; omega)
    refine ⟨r, ?_, ?_⟩
    · rw [chars, List.getElem?_eq_getElem hlt]
      show (put (glyph d[co + c]) q >>= _) = _
      rw [hq₁]
      exact hr
    · rw [List.drop_eq_getElem_cons hlt, List.take_succ_cons, List.map_cons]
      simpa [Nat.add_assoc] using hbuilt

theorem byteColumn_eq {co c : ℕ} (hc : c < (chunk d co).length) :
    byteColumn d co c = .ok (SPACE :: cell (chunk d co)[c]?) := by
  have hget : (chunk d co)[c]? = d[co + c]? := by
    rw [chunk, List.length_take] at hc
    rw [chunk, List.getElem?_take_of_lt (by omega), List.getElem?_drop]
  obtain ⟨x, hx⟩ : ∃ x, (chunk d co)[c]? = some x := ⟨_, List.getElem?_eq_getElem hc⟩
  rw [byteColumn, ← hget, hx]
  rfl

theorem restColumn_eq (co c : ℕ) :
    restColumn d (chunk d co).length co c = .ok (SPACE :: cell (chunk d co)[c]?) := by
  rw [restColumn]
  split
  · next hc => exact byteColumn_eq hc
  · next hc =>
    rw [List.getElem?_eq_none (by omega)]
    rfl

theorem length_chunk (d : List UInt8) (co : ℕ) :
    (chunk d co).length = min BPL (d.length - co) := by
  rw [chunk, List.length_take, List.length_drop]

theorem length_chunk_le (d : List UInt8) (co : ℕ) : (chunk d co).length ≤ BPL :=
  List.length_take_le _ _

/-- A line is built as it should be, without a store outside the buffer. -/
theorem dataLine_holds (d : List UInt8) (co : ℕ) {column : ℕ → Except Stop (List UInt8)}
    {line : Block UInt8}
    (hcolumn : ∀ c < BPL, column c = .ok (SPACE :: cell (chunk d co)[c]?))
    (hco : co ≤ d.length) (hsize : line.size = LINESZ) :
    ∃ m, dataLine column d co (chunk d co).length line = .ok m ∧ m.size = LINESZ ∧
      m.Holds (lineText co (chunk d co) ++ [0]) := by
  have hroom := length_lineText_lt co (length_chunk_le d co)
  have hlen := hroom
  rw [lineText] at hlen
  simp only [List.length_append, List.length_map] at hlen
  have hend : co + 0 + (chunk d co).length ≤ d.length := by
    rw [length_chunk]
    omega
  have hdata : (d.drop (co + 0)).take (chunk d co).length = chunk d co := by
    rw [Nat.add_zero, chunk, List.length_take, ← List.take_take, List.take_length]
  -- the four parts of the line, and the NUL
  have h₀ : Cursor.Built ⟨line, 0⟩ [] := ⟨Block.holds_nil, rfl, hsize⟩
  obtain ⟨q₁, hq₁, h₁⟩ := sprintf_built (percentSharp08x (UInt32.ofNat co) ++ [SPACE]) h₀
    (by simp only [List.nil_append, List.length_append]; omega)
  rw [List.nil_append] at h₁
  obtain ⟨q₂, hq₂, h₂⟩ := columns_built (chunk d co) 0 BPL
    (fun i hi => hcolumn i (by omega)) h₁ (by simp only [List.length_append]; omega)
  obtain ⟨q₃, hq₃, h₃⟩ := put_built SPACE h₂ (by simp only [List.length_append]; omega)
  obtain ⟨q₄, hq₄, h₄⟩ := chars_built co 0 (chunk d co).length hend h₃
    (by simp only [List.length_append]; omega)
  rw [hdata] at h₄
  obtain ⟨hholds, hlnend, hsize₄⟩ := h₄
  obtain ⟨m, hm, hmsize, hmholds⟩ := Block.store_of_holds hholds (hsize₄ ▸ hroom) 0
  refine ⟨m, ?_, hmsize.trans hsize₄, hmholds⟩
  rw [dataLine, hq₁]
  show (columns column 0 BPL q₁ >>= _) = _
  rw [hq₂]
  show (put SPACE q₂ >>= _) = _
  rw [hq₃]
  show (chars d co 0 _ q₃ >>= _) = _
  rw [hq₄]
  show access (q₄.line.store q₄.lnend 0) = _
  rw [hlnend, hm, access_some]

/-! ### The lines of a dump -/

/-- Line `k` of a dump. -/
def dumpLine (d : List UInt8) (k : ℕ) : List UInt8 := lineText (BPL * k) (chunk d (BPL * k))

/-- As many lines as the data takes. -/
def dump (d : List UInt8) : List (List UInt8) :=
  (List.range ((d.length + BPL - 1) / BPL)).map (dumpLine d)

theorem length_dumpLine_lt (d : List UInt8) (k : ℕ) : (dumpLine d k).length < LINESZ :=
  length_lineText_lt _ (length_chunk_le d _)

theorem printLine_eq {k : ℕ} {line : Block UInt8} (h : line.Holds (dumpLine d k ++ [0])) :
    printLine line = ⟨[dumpLine d k], .ok ()⟩ := by
  have hprint := isprint_lineText (BPL * k) (chunk d (BPL * k))
  have hlen : (dumpLine d k).length ≤ 4095 := (length_dumpLine_lt d k).le.trans (by decide)
  rw [printLine, cstring_of_isprint hprint h, Logged.lift_ok_bind, H,
    payload_of_isprint hprint hlen]
  rfl

/-- The loop over the full lines prints the lines from `k` on. -/
theorem fullLines_eq (k l : ℕ) {line : Block UInt8} (hl : BPL * (k + l) ≤ d.length)
    (hsize : line.size = LINESZ) :
    ∃ m, fullLines d l (BPL * k) line
      = ⟨(List.range' k l).map (dumpLine d), .ok (BPL * (k + l), m)⟩ ∧ m.size = LINESZ := by
  induction l generalizing k line with
  | zero => exact ⟨line, rfl, hsize⟩
  | succ l ih =>
    have hlen : (chunk d (BPL * k)).length = BPL := by
      rw [length_chunk, BPL] at *
      omega
    obtain ⟨m₁, hm₁, hsize₁, hholds⟩ := dataLine_holds d (BPL * k)
      (fun c hc => byteColumn_eq (by rwa [hlen])) (by rw [BPL] at *; omega) hsize
    obtain ⟨m, hm, hmsize⟩ := ih (k + 1) (by rwa [Nat.add_right_comm]) hsize₁
    refine ⟨m, ?_, hmsize⟩
    rw [hlen] at hm₁
    rw [fullLines, hm₁, Logged.lift_ok_bind, printLine_eq hholds, Logged.bind_of_ok rfl,
      ← Nat.mul_succ, hm, List.range'_succ, List.map_cons, Nat.add_right_comm]
    rfl

/-- Then the line of the remaining data is printed, if there is any. -/
theorem lastLine_eq (d : List UInt8) {line : Block UInt8} (hsize : line.size = LINESZ) :
    lastLine d (BPL * (d.length / BPL)) line = ⟨(List.range' (d.length / BPL)
      ((d.length + BPL - 1) / BPL - d.length / BPL)).map (dumpLine d), .ok d.length⟩ := by
  have hend := Nat.div_add_mod d.length BPL
  rw [lastLine]
  split
  · next hrest =>
    have hlen : (chunk d (BPL * (d.length / BPL))).length = d.length % BPL := by
      rw [length_chunk, BPL] at *
      omega
    have hcount : (d.length + BPL - 1) / BPL - d.length / BPL = 1 := by
      rw [BPL] at *
      omega
    obtain ⟨m, hm, -, hholds⟩ := dataLine_holds d (BPL * (d.length / BPL))
      (fun c _ => restColumn_eq _ c) (Nat.mul_div_le _ _) hsize
    rw [hlen] at hm
    rw [hm, Logged.lift_ok_bind, printLine_eq hholds, Logged.bind_of_ok rfl, hcount, hend]
    rfl
  · next hrest =>
    have hcount : (d.length + BPL - 1) / BPL - d.length / BPL = 0 := by
      rw [BPL] at *
      omega
    rw [not_not.1 hrest, Nat.add_zero] at hend
    rw [hcount, hend]
    rfl

/-- The full lines, and the one that may follow. -/
theorem dump_eq (d : List UInt8) :
    dump d = (List.range' 0 (d.length / BPL)).map (dumpLine d) ++ (List.range' (d.length / BPL)
      ((d.length + BPL - 1) / BPL - d.length / BPL)).map (dumpLine d) := by
  have hle : d.length / BPL ≤ (d.length + BPL - 1) / BPL := by
    rw [BPL]
    omega
  have happend := List.range'_append_1 (s := 0) (m := d.length / BPL)
    (n := (d.length + BPL - 1) / BPL - d.length / BPL)
  rw [Nat.zero_add, Nat.add_sub_cancel' hle] at happend
  rw [dump, ← List.map_append, happend, List.range_eq_range']

/-- **What a dump prints**, for all data: no line leaves its buffer. -/
theorem hexdump_eq (d : List UInt8) (name : Option (List UInt8)) :
    hexdump d name = ⟨payload (header d name) :: dump d ++
      [percentSharp08x (UInt32.ofNat d.length) ++ ascii " (end)"], .ok ()⟩ := by
  have halloc : (Block.alloc LINESZ (by decide) : Block UInt8).size = LINESZ := rfl
  obtain ⟨m, hm, hsize⟩ := fullLines_eq 0 (d.length / BPL)
    (by rw [Nat.zero_add]; exact Nat.mul_div_le _ _) halloc
  rw [Nat.zero_add] at hm
  have hend : H (percentSharp08x (UInt32.ofNat d.length) ++ ascii " (end)")
      = Logged.tell (percentSharp08x (UInt32.ofNat d.length) ++ ascii " (end)") := by
    rw [H, payload_of_isprint]
    · exact List.forall_mem_append.2
        ⟨isprint_percentSharp08x _, List.all_eq_true.1 (by decide)⟩
    · have := length_percentSharp08x_le (UInt32.ofNat d.length)
      simp [ascii]
      omega
  rw [hexdump]
  show (Logged.tell _ >>= fun _ => fullLines d _ (BPL * 0) _ >>= _) = _
  rw [hm, Logged.tell_bind, Logged.bind_of_ok rfl, lastLine_eq d hsize, Logged.bind_of_ok rfl, hend,
    dump_eq, ← List.append_assoc]
  rfl

/-! ### Reading a dump -/

/-- The next `n` columns of a line: each is two bytes, behind some spaces. -/
def readColumns : ℕ → List UInt8 → List (List UInt8)
  | 0, _ => []
  | n + 1, s =>
    let s := s.dropWhile (· == SPACE)
    s.take 2 :: readColumns n (s.drop 2)

/-- The columns of a line: they stand behind the offset. -/
def columnsOf (line : List UInt8) : List (List UInt8) :=
  readColumns BPL (line.dropWhile (· != SPACE))

def unhexDigit (x : UInt8) : Option ℕ :=
  if 0x30 ≤ x ∧ x ≤ 0x39 then some (x.toNat - 0x30)
  else if 0x61 ≤ x ∧ x ≤ 0x66 then some (x.toNat - 0x57)
  else none

/-- The byte that two hex digits spell. -/
def unhex : List UInt8 → Option UInt8
  | [h, l] => do
    let h ← unhexDigit h
    let l ← unhexDigit l
    some (UInt8.ofNat (16 * h + l))
  | _ => none

/-- What the columns of the lines spell, in order. -/
def spelled (lines : List (List UInt8)) : Option (List UInt8) :=
  ((lines.flatMap columnsOf).filter (· ≠ FILLER)).mapM unhex

theorem unhexDigit_hexDigit : ∀ n < 16, unhexDigit (hexDigit n) = some n := by decide

theorem unhex_percent02x (x : UInt8) : unhex (percent02x x) = some x := by
  have hx := x.toNat_lt
  rw [percent02x, unhex, unhexDigit_hexDigit _ (by omega), unhexDigit_hexDigit _ (by omega)]
  show some (UInt8.ofNat (16 * (x.toNat / 16) + x.toNat % 16)) = some x
  rw [Nat.div_add_mod, UInt8.ofNat_toNat]

theorem unhex_FILLER : unhex FILLER = none := by decide

theorem readColumns_columnsText (xs ws rest : List UInt8) (c n : ℕ)
    (hws : ∀ y ∈ ws, y = SPACE) :
    readColumns n (ws ++ (columnsText xs c n ++ rest))
      = (List.range' c n).map fun i => cell xs[i]? := by
  -- the gap behind a column is skipped when the next one is read
  induction n generalizing c ws with
  | zero => rfl
  | succ n ih =>
    obtain ⟨a, b, hab⟩ := List.length_eq_two.1 (length_cell xs[c]?)
    have ha : a ≠ SPACE := ne_space_of_isgraph (isgraph_cell xs[c]? a (by simp [hab]))
    have hgap : ∀ y ∈ gapText c, y = SPACE := by
      rw [gapText]
      split <;> simp
    have hskip : (ws ++ (columnsText xs c (n + 1) ++ rest)).dropWhile (· == SPACE)
        = cell xs[c]? ++ (gapText c ++ (columnsText xs (c + 1) n ++ rest)) := by
      rw [columnsText, List.dropWhile_append_of_pos (by simpa using hws), hab]
      simp [ha]
    rw [readColumns, hskip, List.range'_succ, List.map_cons, ← ih (gapText c) (c + 1) hgap, hab]
    rfl

/-- **The columns of a line**: its data, and fillers. -/
theorem columnsOf_lineText (co : ℕ) {xs : List UInt8} (h : xs.length ≤ BPL) :
    columnsOf (lineText co xs)
      = xs.map percent02x ++ List.replicate (BPL - xs.length) FILLER := by
  have hskip : (lineText co xs).dropWhile (· != SPACE)
      = [SPACE] ++ (columnsText xs 0 BPL ++ ([SPACE] ++ xs.map glyph)) := by
    have hoffset : ∀ y ∈ percentSharp08x (UInt32.ofNat co), (y != SPACE) = true :=
      fun y hy => bne_iff_ne.2 (ne_space_of_isgraph (isgraph_percentSharp08x _ y hy))
    rw [lineText, List.append_assoc, List.append_assoc, List.append_assoc,
      List.dropWhile_append_of_pos hoffset]
    rfl
  rw [columnsOf, hskip, readColumns_columnsText xs [SPACE] _ 0 BPL (by simp)]
  refine List.ext_getElem ?_ fun i hi hi' => ?_
  · simp
    omega
  · rw [List.getElem_map, List.getElem_range'_1, Nat.zero_add]
    rcases Nat.lt_or_ge i xs.length with hlt | hge
    · rw [List.getElem_append_left (by simpa using hlt), List.getElem_map,
        List.getElem?_eq_getElem hlt]
      rfl
    · rw [List.getElem_append_right (by simpa using hge), List.getElem_replicate,
        List.getElem?_eq_none hge]
      rfl

theorem percent02x_ne_FILLER (x : UInt8) : percent02x x ≠ FILLER := by
  intro h
  have hx := unhex_percent02x x
  rw [h, unhex_FILLER] at hx
  cases hx

/-- The bytes of a line, without the fillers. -/
theorem bytes_dumpLine (d : List UInt8) (k : ℕ) :
    (columnsOf (dumpLine d k)).filter (· ≠ FILLER) = (chunk d (BPL * k)).map percent02x := by
  rw [dumpLine, columnsOf_lineText _ (length_chunk_le d _), List.filter_append,
    List.filter_eq_self.2, List.filter_replicate_of_neg (by simp), List.append_nil]
  intro y hy
  obtain ⟨x, -, rfl⟩ := List.mem_map.1 hy
  exact decide_eq_true (percent02x_ne_FILLER x)

/-- The first lines show the first bytes, and nothing else. -/
theorem bytes_dumpLines (d : List UInt8) (n : ℕ) :
    (((List.range n).map (dumpLine d)).flatMap columnsOf).filter (· ≠ FILLER)
      = (d.take (BPL * n)).map percent02x := by
  induction n with
  | zero => rfl
  | succ n ih =>
    rw [List.range_succ, List.map_append, List.flatMap_append, List.filter_append, ih,
      List.map_singleton, List.flatMap_singleton, bytes_dumpLine, ← List.map_append, chunk,
      Nat.mul_succ, List.take_add]

theorem length_dump (d : List UInt8) : (dump d).length = (d.length + BPL - 1) / BPL := by
  rw [dump, List.length_map, List.length_range]

theorem spelled_dump (d : List UInt8) : spelled (dump d) = some d := by
  have hall : d.length ≤ BPL * ((d.length + BPL - 1) / BPL) := by
    rw [BPL]
    omega
  rw [spelled, dump, bytes_dumpLines, List.take_of_length_le hall, List.mapM_map]
  have hunhex : (fun x => unhex (percent02x x)) = pure := funext unhex_percent02x
  show d.mapM (fun x => unhex (percent02x x)) = some d
  rw [hunhex]
  exact (List.mapM_pure (f := id)).trans (congrArg some d.map_id)

/-- Line `k` starts with its offset. -/
theorem offset_dump {line : List UInt8} {k : ℕ} (h : (dump d)[k]? = some line) :
    percentSharp08x (UInt32.ofNat (BPL * k)) ++ [SPACE] <+: line := by
  rw [dump, List.getElem?_map] at h
  obtain ⟨j, hj, rfl⟩ := Option.map_eq_some_iff.1 h
  obtain rfl : k = j := by simpa using (List.getElem?_eq_some_iff.1 hj).2
  rw [dumpLine, lineText, List.append_assoc, List.append_assoc]
  exact List.prefix_append _ _

/-- **A dump shows every byte once.**  For all data, of any length, no store leaves `line`,
the data lines are as many as they have to be, each starts with its offset and fits with its
NUL into the 79 bytes, and their hex columns spell the data. -/
theorem hexdump_spells (d : List UInt8) (name : Option (List UInt8)) :
    ∃ lines, hexdump d name = ⟨payload (header d name) :: lines ++
        [percentSharp08x (UInt32.ofNat d.length) ++ ascii " (end)"], .ok ()⟩ ∧
      lines.length = (d.length + BPL - 1) / BPL ∧
      (∀ k line, lines[k]? = some line →
        percentSharp08x (UInt32.ofNat (BPL * k)) ++ [SPACE] <+: line) ∧
      (∀ line ∈ lines, line.length + 1 ≤ LINESZ) ∧ LINESZ = 79 ∧
      spelled lines = some d := by
  refine ⟨dump d, hexdump_eq d name, length_dump d, fun k line => offset_dump,
    fun line hline => ?_, rfl, spelled_dump d⟩
  obtain ⟨k, -, rfl⟩ := List.mem_map.1 hline
  exact length_dumpLine_lt d k

end Swh.Hexdump
