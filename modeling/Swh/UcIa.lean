/-
The interactive user front end (front/ia/uc_ia.c), and how the main loop takes a
line from it.

The read buffer is a static array with a counter.  `uc_ia_hasdata` reads until
there is a whole line; `uc_ia_getdata` hands it out.

* `getdata_line`, `getdata_none` — what `uc_ia_getdata` does with and without a line;
* `handover_iff` — it returns the number of bytes it stored exactly when the line
  is shorter than the room for it, which in the main loop are 512 bytes.
-/
import Swh.Sc
import Mathlib.Logic.Relation

namespace Swh.UcIa

/-- `READBUFSZ` -/
def READBUFSZ : ℕ := 4095

/-- `s_readbuf[READBUFSZ + 1]` and `s_readbufcnt`, which are zero at first. -/
def init : Buf := ⟨.fill (READBUFSZ + 1) (by decide) 0, 0⟩

/-- `strchr(s_readbuf, '\n')` -/
def newline (b : Buf) : Except Stop (Option ℕ) := strchr b.mem NEWLINE

/-- `read_more`, for the bytes that `read(2)` returns. -/
def readMore (r : ReadResult) (b : Buf) : Except Stop Buf := do
  match ← xread r with
  | none => .error (.panic .read)
  | some bs => do
    let b ← b.append bs
    let m ← access (b.mem.store b.cnt 0)
    .ok ⟨m, b.cnt⟩

/-- `uc_ia_getdata`: the bytes it stores from `dest` on, and what it returns. -/
def getdata (destsz : ℕ) (b : Buf) : Except Stop (Buf × List UInt8 × ℕ) := do
  match ← newline b with
  | none => .ok (b, [], 0)
  | some p => do
    let len := p + 1
    let copy := if len ≥ destsz then destsz - 1 else len -- data truncated
    let stored ← access (b.mem.read 0 copy)
    let b ← shiftbuf b len
    let m ← access (b.mem.store b.cnt 0)
    .ok (⟨m, b.cnt⟩, stored, len)

/-- The calls of the front end: a turn of the loop in `uc_ia_hasdata` that finds
no line and reads, and `uc_ia_getdata`.  `read(2)` returns at most what it is asked
for. -/
inductive Step : Buf → Buf → Prop
  | hasdata {b b'} (bs : List UInt8) (hno : newline b = .ok none)
      (hfits : b.cnt + bs.length ≤ READBUFSZ) (h : readMore (.bytes bs) b = .ok b') : Step b b'
  | getdata {b b' stored n} (destsz : ℕ) (hsz : 0 < destsz)
      (h : getdata destsz b = .ok (b', stored, n)) : Step b b'

/-- The contents the read buffer can have. -/
def Reachable : Buf → Prop := Relation.ReflTransGen Step init

/-! ### The buffer as a list -/

/-- The buffer holds the bytes `xs`. -/
structure Shows (b : Buf) (xs : List UInt8) : Prop where
  records : b.Records xs
  size : b.mem.size = READBUFSZ + 1

/-- `xs` starts with a line that `strchr` finds. -/
structure Line (xs line rest : List UInt8) : Prop where
  split : xs = line ++ NEWLINE :: rest
  noNewline : NEWLINE ∉ line
  noNul : 0 ∉ line

variable {b b' : Buf} {xs line rest bs stored : List UInt8} {destsz n : ℕ}

theorem init_shows : Shows init [] := ⟨⟨Block.fill_holds _ 0, rfl⟩, rfl⟩

theorem Line.newline (hl : Line xs line rest) (h : Shows b xs) :
    newline b = .ok (some line.length) := by
  have hholds := h.records.1
  rw [hl.split, List.append_assoc, List.cons_append, List.append_cons] at hholds
  refine strchr_of_holds (fun x hx => ⟨?_, ?_⟩) (.inl rfl) hholds.of_append
  · exact fun h0 => hl.noNewline (h0 ▸ hx)
  · exact fun h0 => hl.noNul (h0 ▸ hx)

theorem newline_none (hno : ∀ line rest, ¬ Line xs line rest) (h : Shows b xs) :
    newline b = .ok none := by
  let p : UInt8 → Bool := fun x => x != NEWLINE && x != 0
  have hw : ∀ x ∈ xs.takeWhile p, x ≠ NEWLINE ∧ x ≠ 0 := fun x hx => by
    simpa [p] using List.mem_takeWhile_imp hx
  have hsplit := List.takeWhile_append_dropWhile (p := p) (l := xs)
  have hholds := h.records.1
  rcases hd : xs.dropWhile p with _ | ⟨y, zs⟩
  · rw [hd, List.append_nil] at hsplit
    rw [hsplit] at hw
    exact strchr_of_holds hw (.inr rfl) hholds
  · rw [hd] at hsplit
    -- the search stops at a newline, which would end a line, or at a NUL
    have hy : y ≠ NEWLINE := by
      rintro rfl
      exact hno _ zs ⟨hsplit.symm, fun hm => (hw _ hm).1 rfl, fun hm => (hw _ hm).2 rfl⟩
    have hp := List.dropWhile_get_zero_not p xs (by rw [hd]; exact Nat.succ_pos _)
    obtain rfl : y = 0 := by simpa [hd, p, hy] using hp
    rw [← hsplit, List.append_assoc, List.cons_append, List.append_cons] at hholds
    exact strchr_of_holds hw (.inr rfl) hholds.of_append

theorem readMore_shows (h : Shows b xs) (hbs : bs ≠ []) (hfits : b.cnt + bs.length ≤ READBUFSZ) :
    ∃ b', readMore (.bytes bs) b = .ok b' ∧ Shows b' (xs ++ bs) := by
  obtain ⟨c, bs, rfl⟩ := List.exists_cons_of_ne_nil hbs
  obtain ⟨b₁, hb₁, hcounts, hsize⟩ := Buf.append_counts (c :: bs) h.records.counts
    (by rw [h.size]; omega)
  have hcnt : b.cnt = xs.length := h.records.2
  obtain ⟨m, hm, hsize', hholds⟩ := Block.store_of_holds hcounts.1
    (by rw [hsize, h.size, List.length_append]; omega) 0
  rw [← hcounts.2] at hm
  refine ⟨⟨m, b₁.cnt⟩, ?_, ⟨hholds, hcounts.2⟩, hsize'.trans (hsize.trans h.size)⟩
  rw [readMore]
  show (b.append (c :: bs) >>= _) = _
  rw [hb₁]
  show (access (b₁.mem.store b₁.cnt 0) >>= _) = _
  rw [hm]
  rfl

/-- How many bytes of a line are stored. -/
def copied (len destsz : ℕ) : ℕ := if len ≥ destsz then destsz - 1 else len

/-- **A line is handed out**, as far as there is room for it, and dropped. -/
theorem getdata_line (h : Shows b xs) (hl : Line xs line rest) (destsz : ℕ) :
    ∃ b', getdata destsz b = .ok (b', (line ++ [NEWLINE]).take (copied (line.length + 1) destsz),
      line.length + 1) ∧ Shows b' rest := by
  have hnl := hl.newline h
  have hrec : b.Records ((line ++ [NEWLINE]) ++ rest) := by
    have := h.records
    rwa [hl.split, List.append_cons] at this
  generalize hk : copied (line.length + 1) destsz = k
  have hlen : (line ++ [NEWLINE]).length = line.length + 1 := by simp
  -- what is stored is the line, or as much of it as there is room for
  have hread : b.mem.read 0 k = some ((line ++ [NEWLINE]).take k) := by
    have hle : k ≤ (line ++ [NEWLINE]).length := by
      rw [hlen, ← hk, copied]
      split <;> omega
    have hholds := hrec.1.of_append.of_append
    rw [← List.take_append_drop k (line ++ [NEWLINE])] at hholds
    have := Block.read_prefix hholds.of_append
    rwa [List.length_take, Nat.min_eq_left hle] at this
  obtain ⟨c, hc, hcounts, hsize⟩ := shiftbuf_counts _ _ hrec.counts
  have hroom := hrec.cnt_lt
  have hcnt := hrec.2
  rw [List.length_append] at hcnt
  obtain ⟨m, hm, hsize', hholds⟩ := Block.store_of_holds hcounts.1 (by rw [hsize]; omega) 0
  rw [hlen] at hc
  rw [← hcounts.2] at hm
  refine ⟨⟨m, c.cnt⟩, ?_, ⟨hholds, hcounts.2⟩, hsize'.trans (hsize.trans h.size)⟩
  rw [getdata, hnl]
  show (access (b.mem.read 0 (copied (line.length + 1) destsz)) >>= _) = _
  rw [hk, hread]
  show (shiftbuf b (line.length + 1) >>= _) = _
  rw [hc]
  show (access (c.mem.store c.cnt 0) >>= _) = _
  rw [hm]
  rfl

theorem getdata_none (h : Shows b xs) (hno : ∀ line rest, ¬ Line xs line rest) (destsz : ℕ) :
    getdata destsz b = .ok (b, [], 0) := by
  rw [getdata, newline_none hno h]
  rfl

theorem Step.shows (h : Shows b xs) (hs : Step b b') : ∃ xs', Shows b' xs' := by
  cases hs with
  | hasdata bs hno hfits hmore =>
    rcases eq_or_ne bs [] with rfl | hbs
    · cases hmore
    · obtain ⟨b₁, hb₁, hshows⟩ := readMore_shows h hbs hfits
      rw [hb₁] at hmore
      cases hmore
      exact ⟨_, hshows⟩
  | getdata destsz hsz hget =>
    by_cases hl : ∃ line rest, Line xs line rest
    · obtain ⟨line, rest, hl⟩ := hl
      obtain ⟨b₁, hb₁, hshows⟩ := getdata_line h hl destsz
      rw [hb₁] at hget
      cases hget
      exact ⟨_, hshows⟩
    · rw [getdata_none h (fun line rest hl' => hl ⟨line, rest, hl'⟩)] at hget
      cases hget
      exact ⟨_, h⟩

theorem Reachable.shows (h : Reachable b) : ∃ xs, Shows b xs := by
  induction h with
  | refl => exact ⟨[], init_shows⟩
  | tail _ hs ih =>
    obtain ⟨xs, hxs⟩ := ih
    exact hs.shows hxs

/-! ### The contract -/

/-- The length of the line `uc_ia_getdata` finds, with its newline. -/
def lineLen (b : Buf) : Option ℕ :=
  match newline b with
  | .ok (some p) => some (p + 1)
  | _ => none

/-- What every front end promises: `getdata` returns the number of bytes it has
written to `dest`, and there are at most `destsz` of them. -/
def Contract (destsz : ℕ) (b : Buf) : Prop :=
  ∃ b' stored, getdata destsz b = .ok (b', stored, stored.length) ∧ stored.length ≤ destsz

/-- `sizeof buf` in `core_run` -/
def BUFSZ : ℕ := 512

/-- The bytes of `buf` that `core_run` passes to `sc_write`, as many as
`uc_getdata` returned, are among those that it stored. -/
def PassesStored (b : Buf) : Prop :=
  ∃ b' stored n, getdata BUFSZ b = .ok (b', stored, n) ∧ n ≤ stored.length

theorem le_copied_iff {len : ℕ} (hsz : 0 < destsz) : len ≤ copied len destsz ↔ len < destsz := by
  rw [copied]
  split <;> omega

theorem copied_le (len destsz : ℕ) : copied len destsz ≤ len ∧ copied len destsz ≤ destsz := by
  rw [copied]
  split <;> omega

/-- What `uc_ia_getdata` returns, next to how much it stores. -/
theorem getdata_cases (h : Reachable b) (destsz : ℕ) :
    (lineLen b = none ∧ getdata destsz b = .ok (b, [], 0)) ∨
      ∃ b' stored n, lineLen b = some n ∧ getdata destsz b = .ok (b', stored, n) ∧
        stored.length = copied n destsz := by
  obtain ⟨xs, hxs⟩ := h.shows
  -- `strchr` finds a line or it does not
  by_cases hl : ∃ line rest, Line xs line rest
  · obtain ⟨line, rest, hl⟩ := hl
    obtain ⟨b', hget, -⟩ := getdata_line hxs hl destsz
    refine .inr ⟨b', _, _, ?_, hget, ?_⟩
    · rw [lineLen, hl.newline hxs]
    · rw [List.length_take, List.length_append, List.length_singleton,
        Nat.min_eq_left (copied_le _ _).1]
  · have hno : ∀ line rest, ¬ Line xs line rest := fun line rest hl' => hl ⟨line, rest, hl'⟩
    exact .inl ⟨by rw [lineLen, newline_none hno hxs], getdata_none hxs hno destsz⟩

theorem contract_iff (h : Reachable b) (hsz : 0 < destsz) :
    Contract destsz b ↔ ∀ len, lineLen b = some len → len < destsz := by
  rcases getdata_cases h destsz with ⟨hnone, hget⟩ | ⟨b', stored, n, hlen, hget, hstored⟩
  · refine ⟨fun _ len hlen => ?_, fun _ => ⟨b, [], hget, Nat.zero_le _⟩⟩
    rw [hnone] at hlen
    cases hlen
  · constructor
    · rintro ⟨b₁, stored₁, hget₁, -⟩ len hlen₁
      rw [hget] at hget₁
      cases hget₁
      rw [hlen] at hlen₁
      cases hlen₁
      exact (le_copied_iff hsz).mp hstored.le
    · intro hlt
      have heq : stored.length = n :=
        le_antisymm (hstored ▸ (copied_le n destsz).1)
          (hstored ▸ (le_copied_iff hsz).mpr (hlt n hlen))
      exact ⟨b', stored, heq ▸ hget, hstored ▸ (copied_le n destsz).2⟩

theorem passesStored_iff (h : Reachable b) :
    PassesStored b ↔ ∀ len, lineLen b = some len → len < BUFSZ := by
  have hsz : 0 < BUFSZ := by decide
  rcases getdata_cases h BUFSZ with ⟨hnone, hget⟩ | ⟨b', stored, n, hlen, hget, hstored⟩
  · refine ⟨fun _ len hlen => ?_, fun _ => ⟨b, [], 0, hget, Nat.zero_le _⟩⟩
    rw [hnone] at hlen
    cases hlen
  · constructor
    · rintro ⟨b₁, stored₁, n₁, hget₁, hle⟩ len hlen₁
      rw [hget] at hget₁
      cases hget₁
      rw [hlen] at hlen₁
      cases hlen₁
      exact (le_copied_iff hsz).mp (hstored ▸ hle)
    · intro hlt
      exact ⟨b', stored, n, hget, hstored ▸ (le_copied_iff hsz).mpr (hlt n hlen)⟩

/-- **The hand-over of a line keeps its contract exactly when the line is shorter
than the room for it.** -/
theorem handover_iff (h : Reachable b) (hsz : 0 < destsz) :
    (Contract destsz b ↔ ∀ len, lineLen b = some len → len < destsz) ∧
      (PassesStored b ↔ ∀ len, lineLen b = some len → len < BUFSZ) :=
  ⟨contract_iff h hsz, passesStored_iff h⟩

/-- What the user types first is found in the buffer. -/
theorem reachable_typed (bs : List UInt8) (hbs : bs ≠ []) (hlen : bs.length ≤ READBUFSZ) :
    ∃ b, Reachable b ∧ Shows b bs := by
  have hno : newline init = .ok none :=
    newline_none (fun line rest hl => by have := hl.split; simp at this) init_shows
  obtain ⟨b, hb, hshows⟩ := readMore_shows init_shows hbs (by rwa [init, Nat.zero_add])
  exact ⟨b, .single (.hasdata bs hno (by rwa [init, Nat.zero_add]) hb), hshows⟩

/-- `n` times the letter 'a' and a newline are a line. -/
theorem line_replicate (n : ℕ) :
    Line (List.replicate n 97 ++ [NEWLINE]) (List.replicate n 97) [] := by
  have hmem : ∀ x ∈ List.replicate n (97 : UInt8), x = 97 := fun x => List.eq_of_mem_replicate
  exact ⟨rfl, fun h => absurd (hmem _ h) (by decide), fun h => absurd (hmem _ h) (by decide)⟩

/-- The longest line for which there is room in `buf` is handed out as it should. -/
theorem handover_longest : ∃ b, Reachable b ∧ lineLen b = some 511 ∧ Contract BUFSZ b ∧
    PassesStored b := by
  have hl := line_replicate 510
  have hline : (List.replicate 510 (97 : UInt8)).length = 510 := List.length_replicate
  generalize List.replicate 510 (97 : UInt8) = line at hl hline
  obtain ⟨b, hb, hshows⟩ := reachable_typed (line ++ [NEWLINE]) (by simp)
    (by rw [List.length_append, hline]; decide)
  have hlen : lineLen b = some 511 := by rw [lineLen, hl.newline hshows, hline]
  have hshort : ∀ len, lineLen b = some len → len < BUFSZ := by
    intro len hlen'
    rw [hlen] at hlen'
    cases hlen'
    decide
  obtain ⟨hcontract, hpasses⟩ := handover_iff hb (show 0 < BUFSZ by decide)
  exact ⟨b, hb, hlen, hcontract.mpr hshort, hpasses.mpr hshort⟩

/-- A line of 512 bytes is handed out as one of 512, of which 511 were stored. -/
theorem not_handover_long : ∃ b b', Reachable b ∧
    getdata BUFSZ b = .ok (b', List.replicate 511 97, 512) ∧ ¬ Contract BUFSZ b ∧
    ¬ PassesStored b := by
  have hl := line_replicate 511
  have hline : (List.replicate 511 (97 : UInt8)).length = 511 := List.length_replicate
  generalize List.replicate 511 (97 : UInt8) = line at hl hline ⊢
  have hlen : (line ++ [NEWLINE]).length = 512 := by
    rw [List.length_append, hline, List.length_singleton]
  obtain ⟨b, hb, hshows⟩ := reachable_typed (line ++ [NEWLINE]) (by simp)
    (by rw [hlen]; decide)
  obtain ⟨b', hget, -⟩ := getdata_line hshows hl BUFSZ
  rw [hline, show copied (511 + 1) BUFSZ = 511 from rfl, ← hline, List.take_left, hline] at hget
  refine ⟨b, b', hb, hget, ?_, ?_⟩
  · rintro ⟨b₁, stored, hget₁, -⟩
    rw [hget] at hget₁
    simp only [Except.ok.injEq, Prod.mk.injEq] at hget₁
    obtain ⟨-, rfl, h512⟩ := hget₁
    rw [hline] at h512
    cases h512
  · rintro ⟨b₁, stored, n, hget₁, hle⟩
    rw [hget] at hget₁
    simp only [Except.ok.injEq, Prod.mk.injEq] at hget₁
    obtain ⟨-, rfl, rfl⟩ := hget₁
    rw [hline] at hle
    exact absurd hle (by decide)

/-! ### The main loop takes a line -/

/-- What `core_run` does with `buf`: `uc_getdata` stores to it, and `sc_write` copies
as many bytes of it as `uc_getdata` returned. -/
def takeLine (buf : Block UInt8) (b : Buf) : Except Stop (Buf × Block UInt8 × List UInt8) := do
  let q ← getdata buf.size b
  let buf ← access (buf.write 0 q.2.1)
  if q.2.2 = 0 then .error (.panic .ucNoData)
  else do
    let str ← access (buf.read 0 q.2.2)
    .ok (q.1, buf, str)

/-- A line that fits is passed on as it was typed. -/
theorem takeLine_spec {buf : Block UInt8} (h : Shows b xs) (hl : Line xs line rest)
    (hlen : line.length + 1 < buf.size) :
    ∃ b' buf', takeLine buf b = .ok (b', buf', line ++ [NEWLINE]) ∧ Shows b' rest ∧
      buf'.size = buf.size := by
  obtain ⟨b', hget, hshows⟩ := getdata_line h hl buf.size
  have hcopied : copied (line.length + 1) buf.size = (line ++ [NEWLINE]).length := by
    rw [copied, if_neg (by omega), List.length_append, List.length_singleton]
  rw [hcopied, List.take_length] at hget
  obtain ⟨buf', hwrite, hsize, hholds⟩ := Block.write_holds (b := buf)
    (line ++ [NEWLINE]) Block.holds_nil (by simpa using hlen.le)
  have hread := Block.read_prefix hholds
  rw [List.nil_append, List.length_append, List.length_singleton] at hread
  refine ⟨b', buf', ?_, hshows, hsize⟩
  have hwrite' : buf.write 0 (line ++ [NEWLINE]) = some buf' := hwrite
  simp only [takeLine, hget, bind, Except.bind, hwrite', access_some, Nat.succ_ne_zero,
    if_false, hread]

end Swh.UcIa
