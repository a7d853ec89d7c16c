/-
The interactive user front end against a stream of user input.

`Calls` are the calls of `uc_ia_hasdata` and `uc_ia_getdata` in any order, while
`read(2)` cuts the stream into pieces as it likes; `Alternates` is the order in which
the main loop makes them.  fd 0 stays open all the while.

* `reassembles_iff` — the lines of the stream are handed out one by one, unless one
  of them has a NUL in it;
* `asksForBytes_iff` — `read(2)` is never asked for no bytes at all, unless the stream
  overruns the buffer (`Overruns`).
-/
import Swh.UcIa
import Swh.Lib.Runs

namespace Swh.UcIa

/-! ### The calls and the stream -/

/-- Where the front end is. -/
inductive Phase
  /-- Between two calls. -/
  | idle
  /-- In `uc_ia_hasdata(block)`, at the head of its loop. -/
  | select (block : Bool)
  | stopped (e : Stop)
  deriving DecidableEq

structure FrontEnd where
  buf : Buf
  /-- What can still be read from fd 0. -/
  input : List UInt8
  phase : Phase

inductive Event
  /-- `read(2)` is asked for up to `remain` bytes. -/
  | read (remain : ℕ)
  /-- `uc_ia_hasdata` returns. -/
  | hasdata (r : Bool)
  /-- `uc_ia_getdata` stores bytes to `dest` and returns `n`. -/
  | getdata (stored : List UInt8) (n : ℕ)
  deriving DecidableEq

/-- `if (strchr(s_readbuf, '\n')) return 1;`, or else on to `selectfd`. -/
def search (block : Bool) (c : FrontEnd) : List Event × FrontEnd :=
  match newline c.buf with
  | .error e => ([], { c with phase := .stopped e })
  | .ok (some _) => ([.hasdata true], { c with phase := .idle })
  | .ok none => ([], { c with phase := .select block })

/-- `read_more()` where `read(2)` returns `bs`, and the search behind it. -/
def more (block : Bool) (bs rest : List UInt8) (c : FrontEnd) : List Event × FrontEnd :=
  let remain := READBUFSZ - c.buf.cnt
  match readMore (.bytes bs) c.buf with
  | .error e => ([.read remain], { c with input := rest, phase := .stopped e })
  | .ok b =>
    let r := search block { c with buf := b, input := rest }
    (.read remain :: r.1, r.2)

/-- `uc_ia_getdata(dest, destsz)` -/
def take (destsz : ℕ) (c : FrontEnd) : List Event × FrontEnd :=
  match getdata destsz c.buf with
  | .error e => ([], { c with phase := .stopped e })
  | .ok (b, stored, n) => ([.getdata stored n], { c with buf := b })

/-- `select(2)` says that there is something to read, and `read(2)` returns `bs`: at
least one byte if it is asked for any, and at most as many as it is asked for. -/
structure Readable (c : FrontEnd) (bs rest : List UInt8) : Prop where
  input : c.input = bs ++ rest
  ready : c.input ≠ []
  fits : bs.length ≤ READBUFSZ - c.buf.cnt
  nonempty : READBUFSZ - c.buf.cnt ≠ 0 → bs ≠ []

/-- Any call, or the next turn of the loop of `uc_ia_hasdata`. -/
inductive Calls : FrontEnd → List Event → FrontEnd → Prop
  | hasdata {c} (block : Bool) (h : c.phase = .idle) :
      Calls c (search block c).1 (search block c).2
  | read {c block bs rest} (h : c.phase = .select block) (hr : Readable c bs rest) :
      Calls c (more block bs rest c).1 (more block bs rest c).2
  | nothing {c} (h : c.phase = .select false) : Calls c [.hasdata false] { c with phase := .idle }
  | getdata {c} (destsz : ℕ) (hsz : 0 < destsz) (h : c.phase = .idle) :
      Calls c (take destsz c).1 (take destsz c).2

/-- Before the first call. -/
def start (input : List UInt8) : FrontEnd := ⟨init, input, .idle⟩

/-- The call that comes next, or is under way. -/
inductive Call
  | hasdata | getdata
  deriving DecidableEq

/-- A line is asked for once `uc_ia_hasdata` has returned. -/
def next (c : FrontEnd) : FrontEnd × Call := (c, if c.phase = .idle then .getdata else .hasdata)

/-- `uc_ia_hasdata(true)` and `uc_ia_getdata(dest, 512)` in turns. -/
inductive Alternates : FrontEnd × Call → List Event → FrontEnd × Call → Prop
  | hasdata {c} (h : c.phase = .idle) :
      Alternates (c, .hasdata) (search true c).1 (next (search true c).2)
  | read {c bs rest} (h : c.phase = .select true) (hr : Readable c bs rest) :
      Alternates (c, .hasdata) (more true bs rest c).1 (next (more true bs rest c).2)
  | getdata {c} (h : c.phase = .idle) :
      Alternates (c, .getdata) (take BUFSZ c).1 ((take BUFSZ c).2, .hasdata)

theorem Alternates.calls {c c' : FrontEnd × Call} {l : List Event} (h : Alternates c l c') :
    Calls c.1 l c'.1 := by
  cases h with
  | hasdata h => exact .hasdata true h
  | read h hr => exact .read h hr
  | getdata h => exact .getdata BUFSZ (by decide) h

/-- What was handed out. -/
def handed (l : List Event) : List (List UInt8 × ℕ) :=
  l.filterMap fun
    | .getdata stored n => some (stored, n)
    | _ => none

theorem handed_append (l l' : List Event) : handed (l ++ l') = handed l ++ handed l' :=
  List.filterMap_append

/-! ### Single steps -/

section Steps

variable {c : FrontEnd} {xs bs rest line : List UInt8} {block : Bool}

theorem search_line (h : Shows c.buf xs) (hl : ∃ line rest, Line xs line rest) (block : Bool) :
    search block c = ([.hasdata true], { c with phase := .idle }) := by
  obtain ⟨line, rest, hl⟩ := hl
  rw [search, hl.newline h]

theorem search_none (h : Shows c.buf xs) (hno : ∀ line rest, ¬ Line xs line rest) (block : Bool) :
    search block c = ([], { c with phase := .select block }) := by
  rw [search, newline_none hno h]

theorem handed_search (block : Bool) (c : FrontEnd) : handed (search block c).1 = [] := by
  rw [search]
  split <;> rfl

theorem search_buf (block : Bool) (c : FrontEnd) :
    (search block c).2.buf = c.buf ∧ (search block c).2.input = c.input := by
  rw [search]
  split <;> exact ⟨rfl, rfl⟩

theorem more_bytes (h : Shows c.buf xs) (hbs : bs ≠ []) (hfits : bs.length ≤ READBUFSZ - c.buf.cnt)
    (block : Bool) (rest : List UInt8) : ∃ b, Shows b (xs ++ bs) ∧
      more block bs rest c = (.read (READBUFSZ - c.buf.cnt) ::
        (search block ⟨b, rest, c.phase⟩).1, (search block ⟨b, rest, c.phase⟩).2) := by
  have hlt := h.records.cnt_lt
  rw [h.size] at hlt
  obtain ⟨b, hb, hshows⟩ := readMore_shows h hbs (by omega)
  refine ⟨b, hshows, ?_⟩
  rw [more, hb]

/-- There is no room left: nothing is read, and that is taken for the end of the file. -/
theorem more_nil (block : Bool) (rest : List UInt8) (c : FrontEnd) :
    more block [] rest c = ([.read (READBUFSZ - c.buf.cnt)],
      { c with input := rest, phase := .stopped (.panic .readEof) }) := rfl

theorem take_line (h : Shows c.buf xs) (hl : Line xs line rest) (destsz : ℕ) :
    ∃ b, Shows b rest ∧ take destsz c
      = ([.getdata ((line ++ [NEWLINE]).take (copied (line.length + 1) destsz)) (line.length + 1)],
        { c with buf := b }) := by
  obtain ⟨b, hb, hshows⟩ := getdata_line h hl destsz
  refine ⟨b, hshows, ?_⟩
  rw [take, hb]

theorem take_none (h : Shows c.buf xs) (hno : ∀ line rest, ¬ Line xs line rest) (destsz : ℕ) :
    take destsz c = ([.getdata [] 0], c) := by
  rw [take, getdata_none h hno]

end Steps

/-! ### No read for no bytes -/

theorem Line.append {xs line rest : List UInt8} (h : Line xs line rest) (ys : List UInt8) :
    Line (xs ++ ys) line (rest ++ ys) :=
  ⟨by rw [h.split, List.append_assoc, List.cons_append], h.noNewline, h.noNul⟩

/-- What is left of the stream behind lines that `strchr` finds in it. -/
inductive Behind (input : List UInt8) : List UInt8 → Prop
  | refl : Behind input input
  | line {xs line rest} (h : Behind input xs) (hl : Line xs line rest) : Behind input rest

/-- More than the buffer holds comes behind a line, and no line is found in what it
does hold. -/
def Overruns (input : List UInt8) : Prop :=
  ∃ rest, Behind input rest ∧ READBUFSZ < rest.length ∧
    ∀ line r, ¬ Line (rest.take READBUFSZ) line r

/-- Whatever is called and however the stream is cut, each read asks for some bytes,
and the end of the file is never seen. -/
structure AsksForBytes (input : List UInt8) : Prop where
  asks : ∀ l c, Runs Calls (start input) l c → ∀ n, .read n ∈ l → 1 ≤ n
  noEof : ∀ l c, Runs Calls (start input) l c → c.phase ≠ .stopped (.panic .readEof)

/-- The front end has made its way to the bytes behind a line. -/
structure At (input : List UInt8) (c : FrontEnd) (xs : List UInt8) : Prop where
  shows : Shows c.buf xs
  behind : Behind input (xs ++ c.input)
  waits : ∀ block, c.phase = .select block → ∀ line rest, ¬ Line xs line rest
  running : ∀ e, c.phase ≠ .stopped e

variable {input xs bs rest : List UInt8} {c c' : FrontEnd} {l : List Event}

theorem at_of_idle (h : Shows c.buf xs) (hb : Behind input (xs ++ c.input))
    (hp : c.phase = .idle) : At input c xs := by
  refine ⟨h, hb, fun block hs => ?_, fun e hs => ?_⟩
  · rw [hp] at hs
    cases hs
  · rw [hp] at hs
    cases hs

theorem start_at (input : List UInt8) : At input (start input) [] :=
  at_of_idle init_shows .refl rfl

theorem search_at (h : Shows c.buf xs) (hb : Behind input (xs ++ c.input)) (block : Bool) :
    At input (search block c).2 xs ∧ ∀ n, .read n ∉ (search block c).1 := by
  by_cases hl : ∃ line rest, Line xs line rest
  · rw [search_line h hl]
    exact ⟨at_of_idle h hb rfl, by simp⟩
  · have hno : ∀ line rest, ¬ Line xs line rest := fun line rest hl' => hl ⟨line, rest, hl'⟩
    rw [search_none h hno]
    exact ⟨⟨h, hb, fun _ _ => hno, by simp⟩, by simp⟩

/-- A full buffer, and more to read. -/
theorem At.overruns (h : At input c xs) {block : Bool} (hp : c.phase = .select block)
    (hready : c.input ≠ []) (hfull : READBUFSZ - c.buf.cnt = 0) : Overruns input := by
  have hlt := h.shows.records.cnt_lt
  have hcnt := h.shows.records.2
  rw [h.shows.size] at hlt
  have hlen : xs.length = READBUFSZ := by omega
  refine ⟨_, h.behind, ?_, ?_⟩
  · have := List.length_pos_iff.mpr hready
    rw [List.length_append]
    omega
  · rw [← hlen, List.take_left]
    exact h.waits block hp

theorem Calls.at (hno : ¬ Overruns input) (h : At input c xs) (hs : Calls c l c') :
    (∃ xs', At input c' xs') ∧ ∀ n, .read n ∈ l → 1 ≤ n := by
  cases hs with
  | hasdata block hp =>
    obtain ⟨hat, hl⟩ := search_at h.shows h.behind block
    exact ⟨⟨xs, hat⟩, fun n hn => absurd hn (hl n)⟩
  | @read block bs rest hp hr =>
    have hroom : READBUFSZ - c.buf.cnt ≠ 0 := fun hfull =>
      hno (h.overruns hp hr.ready hfull)
    obtain ⟨b, hb, hmore⟩ := more_bytes h.shows (hr.nonempty hroom) hr.fits block rest
    have hbehind := h.behind
    rw [hr.input, ← List.append_assoc] at hbehind
    obtain ⟨hat, hl⟩ := search_at (c := ⟨b, rest, c.phase⟩) hb hbehind block
    rw [hmore]
    refine ⟨⟨_, hat⟩, fun n hn => ?_⟩
    rcases List.mem_cons.mp hn with hn | hn
    · cases hn
      exact Nat.pos_of_ne_zero hroom
    · exact absurd hn (hl n)
  | nothing hp => exact ⟨⟨xs, at_of_idle h.shows h.behind rfl⟩, by simp⟩
  | getdata destsz hsz hp =>
    by_cases hl : ∃ line rest, Line xs line rest
    · obtain ⟨line, rest, hl⟩ := hl
      obtain ⟨b, hb, htake⟩ := take_line h.shows hl destsz
      rw [htake]
      exact ⟨⟨rest, at_of_idle hb (h.behind.line (hl.append _)) hp⟩, by simp⟩
    · rw [take_none h.shows fun line rest hl' => hl ⟨line, rest, hl'⟩]
      exact ⟨⟨xs, h⟩, by simp⟩

theorem asksForBytes_of_not_overruns (hno : ¬ Overruns input) : AsksForBytes input := by
  have hrun : ∀ l c, Runs Calls (start input) l c →
      (∃ xs, At input c xs) ∧ ∀ n, .read n ∈ l → 1 ≤ n := by
    intro l c h
    refine h.invariant (J := fun l c => (∃ xs, At input c xs) ∧ ∀ n, .read n ∈ l → 1 ≤ n)
      (i := []) ?_ ⟨⟨[], start_at input⟩, by simp⟩
    rintro l c l' c' ⟨⟨xs, hat⟩, hl⟩ hs
    obtain ⟨hat', hl'⟩ := hs.at hno hat
    refine ⟨hat', fun n hn => ?_⟩
    rcases List.mem_append.mp hn with hn | hn
    · exact hl n hn
    · exact hl' n hn
  refine ⟨fun l c h => (hrun l c h).2, fun l c h => ?_⟩
  obtain ⟨⟨xs, hat⟩, -⟩ := hrun l c h
  exact hat.running _

theorem not_line_nil (line rest : List UInt8) : ¬ Line [] line rest := by
  intro hl
  have := hl.split
  simp at this

/-- With an empty buffer, some bytes can be read in one go. -/
theorem exists_read (h : Shows c.buf []) (hp : c.phase = .idle) (hin : c.input = bs ++ rest)
    (hbs : bs ≠ []) (hle : bs.length ≤ READBUFSZ) :
    ∃ l b, Shows b bs ∧ Runs Calls c l (search true ⟨b, rest, .select true⟩).2 := by
  have hcnt : c.buf.cnt = 0 := h.records.2
  have hwait := Calls.hasdata true hp
  rw [search_none h not_line_nil] at hwait
  have hfits : bs.length ≤ READBUFSZ - c.buf.cnt := by rw [hcnt]; exact hle
  have hready : c.input ≠ [] := by
    rw [hin]
    exact List.append_ne_nil_of_left_ne_nil hbs _
  obtain ⟨b, hb, hmore⟩ := more_bytes (c := { c with phase := .select true }) h hbs hfits true rest
  have hread := Calls.read (c := { c with phase := .select true }) rfl
    ⟨hin, hready, hfits, fun _ => hbs⟩
  rw [hmore] at hread
  exact ⟨_, b, hb, (Runs.single hwait).snoc hread⟩

/-- A stream that overruns the empty buffer, in one read of all that fits. -/
theorem exists_overrun (h : Shows c.buf []) (hp : c.phase = .idle)
    (hlen : READBUFSZ < c.input.length)
    (hno : ∀ line r, ¬ Line (c.input.take READBUFSZ) line r) :
    ∃ l c', Runs Calls c l c' ∧ c'.phase = .stopped (.panic .readEof) := by
  have htake : (c.input.take READBUFSZ).length = READBUFSZ := by
    rw [List.length_take]
    omega
  have hne : c.input.take READBUFSZ ≠ [] := by
    intro hnil
    rw [hnil] at htake
    cases htake
  obtain ⟨l, b, hb, hrun⟩ := exists_read h hp (List.take_append_drop READBUFSZ c.input).symm hne
    htake.le
  rw [search_none hb hno] at hrun
  -- `select(2)` reports the rest of the stream, for which there is no room
  have hfull : READBUFSZ - b.cnt = 0 := by
    rw [hb.records.2, htake, Nat.sub_self]
  have hrest : c.input.drop READBUFSZ ≠ [] := by
    intro hnil
    have := List.drop_eq_nil_iff.mp hnil
    omega
  have hnone : Readable ⟨b, c.input.drop READBUFSZ, .select true⟩ [] (c.input.drop READBUFSZ) :=
    ⟨rfl, hrest, Nat.zero_le _, fun hroom => absurd hfull hroom⟩
  have hread := Calls.read rfl hnone
  rw [more_nil] at hread
  exact ⟨_, _, hrun.snoc hread, rfl⟩

/-- Every line of the stream can be reached, unless one before it is too long. -/
theorem Behind.exists_run (h : Behind input xs) :
    (∃ l c, Runs Calls (start input) l c ∧ Shows c.buf [] ∧ c.input = xs ∧ c.phase = .idle) ∨
      ∃ l c, Runs Calls (start input) l c ∧ c.phase = .stopped (.panic .readEof) := by
  induction h with
  | refl => exact .inl ⟨[], start input, .refl _, init_shows, rfl, rfl⟩
  | @line xs line rest _ hl ih =>
    obtain ⟨l, c, hrun, hb, hin, hp⟩ | hstopped := ih
    · rw [hl.split] at hin
      by_cases hle : line.length + 1 ≤ READBUFSZ
      · -- the line is read, found and taken
        obtain ⟨l', b, hb', hrun'⟩ := exists_read hb hp (hin.trans (List.append_cons ..))
          (List.append_ne_nil_of_right_ne_nil _ (List.cons_ne_nil _ _)) (by simpa using hle)
        have hline : Line (line ++ [NEWLINE]) line [] := ⟨rfl, hl.noNewline, hl.noNul⟩
        rw [search_line hb' ⟨_, _, hline⟩] at hrun'
        obtain ⟨b', hb'', htake⟩ := take_line (c := ⟨b, rest, .idle⟩) hb' hline BUFSZ
        have hget := Calls.getdata (c := ⟨b, rest, .idle⟩) BUFSZ (by decide) rfl
        rw [htake] at hget
        exact .inl ⟨_, _, (hrun.trans hrun').snoc hget, hb'', rfl, rfl⟩
      · refine .inr ?_
        obtain ⟨l', c', hrun', hc'⟩ := exists_overrun hb hp (by rw [hin]; simp; omega) (by
          intro line' r hl'
          have hmem : NEWLINE ∈ c.input.take READBUFSZ := by rw [hl'.split]; simp
          rw [hin, List.take_append_of_le_length (by omega)] at hmem
          exact hl.noNewline (List.mem_of_mem_take hmem))
        exact ⟨_, c', hrun.trans hrun', hc'⟩
    · exact .inr hstopped

theorem AsksForBytes.not_overruns (h : AsksForBytes input) : ¬ Overruns input := by
  rintro ⟨rest, hbehind, hlen, hno⟩
  obtain ⟨l, c, hrun, hb, rfl, hp⟩ | ⟨l, c, hrun, hc⟩ := hbehind.exists_run
  · obtain ⟨l', c', hrun', hc'⟩ := exists_overrun hb hp hlen hno
    exact h.noEof _ c' (hrun.trans hrun') hc'
  · exact h.noEof l c hrun hc

/-- **A read for no bytes is never made exactly when** the stream does not overrun
the buffer. -/
theorem asksForBytes_iff (input : List UInt8) : AsksForBytes input ↔ ¬ Overruns input :=
  ⟨AsksForBytes.not_overruns, asksForBytes_of_not_overruns⟩

/-- One byte more than the buffer holds, with no newline among them. -/
theorem not_asksForBytes_long : ¬ AsksForBytes (List.replicate 4096 97) := by
  refine fun h => h.not_overruns ⟨_, .refl, ?_, fun line r hl => ?_⟩
  · rw [List.length_replicate]
    decide
  · have hmem : NEWLINE ∈ (List.replicate 4096 (97 : UInt8)).take READBUFSZ := by
      rw [hl.split]
      simp
    have := List.eq_of_mem_replicate (List.mem_of_mem_take hmem)
    exact absurd this (by decide)

/-! ### Lines in, lines out -/

/-- What the user types: lines that fit into the 511 bytes that `core_run` has room
for, and the beginning of another. -/
structure Typed where
  lines : List (List UInt8)
  tail : List UInt8
  noNewline : ∀ x ∈ lines, NEWLINE ∉ x
  short : ∀ x ∈ lines, x.length + 1 ≤ 511
  tail_noNewline : NEWLINE ∉ tail
  tail_short : tail.length + 1 ≤ 511

/-- The stream of lines, and the beginning of another. -/
def joined (lines : List (List UInt8)) (tail : List UInt8) : List UInt8 :=
  (lines.map (· ++ [NEWLINE])).flatten ++ tail

def Typed.bytes (s : Typed) : List UInt8 := joined s.lines s.tail

/-- Lines as they should be handed out: whole, and with their lengths. -/
def whole (lines : List (List UInt8)) : List (List UInt8 × ℕ) :=
  lines.map fun x => (x ++ [NEWLINE], x.length + 1)

/-- Before the first call. -/
def begin (s : Typed) : FrontEnd × Call := (start s.bytes, .hasdata)

/-- The lines of the stream are handed out, one by one and whole; `uc_ia_hasdata` does
not wait while there is one in the buffer; and it comes to the last of them. -/
structure Reassembles (s : Typed) : Prop where
  inOrder : ∀ l c, Runs Alternates (begin s) l c → handed l <+: whole s.lines
  noWait : ∀ l c block, Runs Alternates (begin s) l c → c.1.phase = .select block →
    ∃ xs, Shows c.1.buf xs ∧ NEWLINE ∉ xs
  running : ∀ l c e, Runs Alternates (begin s) l c → c.1.phase ≠ .stopped e
  ends : Acc (fun c' c => ∃ l, Alternates c l c') (begin s)
  all : ∀ l c, Runs Alternates (begin s) l c → (∀ l' c', ¬ Alternates c l' c') →
    handed l = whole s.lines

theorem joined_cons (x : List UInt8) (lines : List (List UInt8)) (tail : List UInt8) :
    joined (x :: lines) tail = x ++ NEWLINE :: joined lines tail := by
  simp [joined]

/-- What is in the buffer is a line and more, or the beginning of one. -/
theorem joined_split {lines : List (List UInt8)} {tail xs ys : List UInt8}
    (h : xs ++ ys = joined lines tail) (hlines : ∀ x ∈ lines, NEWLINE ∉ x)
    (htail : NEWLINE ∉ tail) :
    (∃ x lines' rest, lines = x :: lines' ∧ xs = x ++ NEWLINE :: rest ∧
      rest ++ ys = joined lines' tail) ∨
    (NEWLINE ∉ xs ∧ (xs <+: tail ∨ ∃ x ∈ lines, xs <+: x)) := by
  rcases lines with _ | ⟨x, lines⟩
  · have hpre : xs <+: tail := ⟨ys, h⟩
    exact .inr ⟨fun hm => htail (hpre.subset hm), .inl hpre⟩
  · rw [joined_cons] at h
    have hx := hlines x (List.mem_cons_self ..)
    rcases List.append_eq_append_iff.mp h with ⟨u, hu, -⟩ | ⟨u, rfl, hu⟩
    · have hpre : xs <+: x := ⟨u, hu.symm⟩
      exact .inr ⟨fun hm => hx (hpre.subset hm), .inr ⟨x, List.mem_cons_self .., hpre⟩⟩
    · rcases u with _ | ⟨b, rest⟩
      · rw [List.append_nil]
        exact .inr ⟨hx, .inr ⟨x, List.mem_cons_self .., List.prefix_refl x⟩⟩
      · obtain ⟨rfl, hrest⟩ := List.cons_eq_cons.mp hu
        exact .inl ⟨x, lines, rest, rfl, rfl, hrest.symm⟩

/-- The lines `todo` are still to be handed out, and `xs` is in the buffer. -/
structure Keeps (s : Typed) (l : List Event) (c : FrontEnd) (xs : List UInt8)
    (todo : List (List UInt8)) : Prop where
  shows : Shows c.buf xs
  left : xs ++ c.input = joined todo s.tail
  lines : ∃ done, s.lines = done ++ todo ∧ handed l = whole done

/-- Where the two calls can be: a line is in the buffer when it is asked for, and
there is none during the wait. -/
def InTurn (c : FrontEnd × Call) (xs : List UInt8) : Prop :=
  (c.1.phase = .idle ∧ c.2 = .hasdata) ∨
  (c.1.phase = .idle ∧ c.2 = .getdata ∧ NEWLINE ∈ xs) ∨
  (c.1.phase = .select true ∧ c.2 = .hasdata ∧ NEWLINE ∉ xs)

/-- What is left to do: unread bytes count most, then those in the buffer. -/
def work (c : FrontEnd × Call) : ℕ :=
  5 * c.1.input.length + 3 * c.1.buf.cnt +
    match c.1.phase, c.2 with
    | .idle, .hasdata => 2
    | .idle, .getdata => 1
    | _, _ => 0

section Keeps

variable {s : Typed} {todo : List (List UInt8)} {k k' : Call}

theorem Keeps.mem_lines (h : Keeps s l c xs todo) {x : List UInt8} (hx : x ∈ todo) :
    x ∈ s.lines := by
  obtain ⟨done, hdone, -⟩ := h.lines
  rw [hdone]
  exact List.mem_append_right _ hx

/-- The first line of the buffer, if it has one, is the next to be handed out. -/
theorem Keeps.split (hnul : ∀ x ∈ s.lines, 0 ∉ x) (h : Keeps s l c xs todo) :
    (∃ x todo' rest, todo = x :: todo' ∧ Line xs x rest ∧ rest ++ c.input = joined todo' s.tail) ∨
      NEWLINE ∉ xs ∧ xs.length < 511 := by
  rcases joined_split h.left (fun x hx => s.noNewline x (h.mem_lines hx)) s.tail_noNewline with
    ⟨x, todo', rest, rfl, hxs, hrest⟩ | ⟨hno, hpre⟩
  · have hx := h.mem_lines (List.mem_cons_self ..)
    exact .inl ⟨x, todo', rest, rfl, ⟨hxs, s.noNewline x hx, hnul x hx⟩, hrest⟩
  · refine .inr ⟨hno, ?_⟩
    rcases hpre with hpre | ⟨x, hx, hpre⟩
    · exact lt_of_le_of_lt hpre.length_le s.tail_short
    · exact lt_of_le_of_lt hpre.length_le (s.short x (h.mem_lines hx))

theorem Keeps.congr {l' : List Event} (h : Keeps s l c xs todo) (hl : handed l' = []) :
    Keeps s (l ++ l') c xs todo :=
  ⟨h.shows, h.left, by rw [handed_append, hl, List.append_nil]; exact h.lines⟩

/-- A search, and what is known behind it. -/
theorem Keeps.search (hnul : ∀ x ∈ s.lines, 0 ∉ x) (h : Keeps s l c xs todo) :
    Keeps s l (search true c).2 xs todo ∧ InTurn (next (search true c).2) xs ∧
      work (next (search true c).2) ≤ 5 * c.input.length + 3 * c.buf.cnt + 1 := by
  rcases h.split hnul with ⟨x, todo', rest, rfl, hl, -⟩ | ⟨hno, -⟩
  · rw [search_line h.shows ⟨x, rest, hl⟩]
    refine ⟨⟨h.shows, h.left, h.lines⟩, .inr (.inl ⟨rfl, rfl, ?_⟩), le_refl _⟩
    rw [hl.split]
    simp
  · have hline : ∀ line rest, ¬ Line xs line rest := fun line rest hl =>
      hno (by rw [hl.split]; simp)
    rw [search_none h.shows hline]
    exact ⟨⟨h.shows, h.left, h.lines⟩, .inr (.inr ⟨rfl, rfl, hno⟩), Nat.le_succ _⟩

/-- During the wait there is room, for what is in the buffer is only the beginning of a
line. -/
theorem Keeps.room (hnul : ∀ x ∈ s.lines, 0 ∉ x) (h : Keeps s l c xs todo) (hno : NEWLINE ∉ xs) :
    xs.length < 511 := by
  rcases h.split hnul with ⟨x, todo', rest, -, hl, -⟩ | ⟨-, hlt⟩
  · exact absurd (by rw [hl.split]; simp) hno
  · exact hlt

theorem InTurn.noNewline {d : FrontEnd × Call} {block : Bool} (h : InTurn d xs)
    (hp : d.1.phase = .select block) : NEWLINE ∉ xs := by
  rcases h with ⟨hi, -⟩ | ⟨hi, -⟩ | ⟨-, -, hno⟩
  · cases hi.symm.trans hp
  · cases hi.symm.trans hp
  · exact hno

/-- A read, and the search behind it. -/
theorem Keeps.read (hnul : ∀ x ∈ s.lines, 0 ∉ x) {bs rest : List UInt8} (h : Keeps s l c xs todo)
    (hno : NEWLINE ∉ xs) (hp : c.phase = .select true) (hr : Readable c bs rest) :
    Keeps s (l ++ (more true bs rest c).1) (more true bs rest c).2 (xs ++ bs) todo ∧
      InTurn (next (more true bs rest c).2) (xs ++ bs) ∧
      work (next (more true bs rest c).2) < work (c, .hasdata) := by
  have hroom := h.room hnul hno
  have hcnt : c.buf.cnt = xs.length := h.shows.records.2
  have hbs := hr.nonempty (by rw [hcnt, READBUFSZ]; omega)
  obtain ⟨b, hb, hmore⟩ := more_bytes h.shows hbs hr.fits true rest
  have hleft := h.left
  rw [hr.input, ← List.append_assoc] at hleft
  have hmid : Keeps s l ⟨b, rest, c.phase⟩ (xs ++ bs) todo := ⟨hb, hleft, h.lines⟩
  obtain ⟨hkeeps, hturn, hwork⟩ := hmid.search hnul
  rw [hmore]
  refine ⟨hkeeps.congr (handed_search _ _), hturn, lt_of_le_of_lt hwork ?_⟩
  have hpos := List.length_pos_iff.mpr hbs
  have hcnt' : b.cnt = xs.length + bs.length := by rw [hb.records.2, List.length_append]
  rw [work, hp, hr.input, List.length_append]
  show 5 * rest.length + 3 * b.cnt + 1 < _ + 3 * c.buf.cnt + 0
  omega

/-- The first line of the buffer is handed out. -/
theorem Keeps.getdata {x : List UInt8} {rest : List UInt8} (h : Keeps s l c xs (x :: todo))
    (hl : Line xs x rest) (hleft : rest ++ c.input = joined todo s.tail) (hp : c.phase = .idle) :
    Keeps s (l ++ (take BUFSZ c).1) (take BUFSZ c).2 rest todo ∧
      (take BUFSZ c).2.phase = .idle ∧
      work ((take BUFSZ c).2, .hasdata) < work (c, .getdata) := by
  obtain ⟨b, hb, htake⟩ := take_line h.shows hl BUFSZ
  have hlen := s.short x (h.mem_lines (List.mem_cons_self ..))
  have hall : (x ++ [NEWLINE]).take (copied (x.length + 1) BUFSZ) = x ++ [NEWLINE] := by
    rw [copied, if_neg (by rw [BUFSZ]; omega)]
    exact List.take_of_length_le (by simp)
  rw [hall] at htake
  obtain ⟨done, hdone, hhanded⟩ := h.lines
  rw [htake]
  refine ⟨⟨hb, hleft, done ++ [x], by simp [hdone], ?_⟩, hp, ?_⟩
  · rw [handed_append, hhanded, whole, whole, List.map_append]
    rfl
  · have hcnt : c.buf.cnt = x.length + 1 + rest.length := by
      rw [h.shows.records.2, hl.split, List.length_append, List.length_cons]
      omega
    have hcnt' : b.cnt = rest.length := hb.records.2
    rw [work, work, hp]
    show 5 * c.input.length + 3 * b.cnt + 2 < 5 * c.input.length + 3 * c.buf.cnt + 1
    omega

/-- **One step of the alternation.** -/
theorem Alternates.keeps (hnul : ∀ x ∈ s.lines, 0 ∉ x) {l' : List Event}
    (h : Keeps s l c xs todo) (hturn : InTurn (c, k) xs) (hs : Alternates (c, k) l' (c', k')) :
    (∃ xs' todo', Keeps s (l ++ l') c' xs' todo' ∧ InTurn (c', k') xs') ∧
      work (c', k') < work (c, k) := by
  generalize hd : (c', k') = d at hs
  cases hs with
  | hasdata hp =>
    obtain ⟨hkeeps, hturn', hwork⟩ := h.search hnul
    rw [← hd] at hturn' hwork
    obtain ⟨rfl, rfl⟩ := Prod.mk.inj hd
    refine ⟨⟨xs, todo, hkeeps.congr (handed_search _ _), hturn'⟩, lt_of_le_of_lt hwork ?_⟩
    rw [work, hp]
    exact Nat.lt_succ_self _
  | read hp hr =>
    obtain ⟨hkeeps, hturn', hwork⟩ := h.read hnul (hturn.noNewline hp) hp hr
    rw [← hd] at hturn' hwork
    obtain ⟨rfl, rfl⟩ := Prod.mk.inj hd
    exact ⟨⟨_, todo, hkeeps, hturn'⟩, hwork⟩
  | getdata hp =>
    obtain ⟨rfl, rfl⟩ := Prod.mk.inj hd
    have hmem : NEWLINE ∈ xs := by
      rcases hturn with ⟨-, hi⟩ | ⟨-, -, hmem⟩ | ⟨-, hi, -⟩
      · cases hi
      · exact hmem
      · cases hi
    rcases h.split hnul with ⟨x, todo', rest, rfl, hl, hleft⟩ | ⟨hno, -⟩
    · obtain ⟨hkeeps, hidle, hwork⟩ := h.getdata hl hleft hp
      exact ⟨⟨rest, todo', hkeeps, .inl ⟨hidle, rfl⟩⟩, hwork⟩
    · exact absurd hmem hno

theorem keeps_of_run (hnul : ∀ x ∈ s.lines, 0 ∉ x) {d : FrontEnd × Call}
    (h : Runs Alternates (begin s) l d) : ∃ xs todo, Keeps s l d.1 xs todo ∧ InTurn d xs := by
  have hbegin : ∃ xs todo, Keeps s [] (begin s).1 xs todo ∧ InTurn (begin s) xs :=
    ⟨[], s.lines, ⟨init_shows, rfl, [], rfl, rfl⟩, .inl ⟨rfl, rfl⟩⟩
  refine h.invariant (J := fun l d => ∃ xs todo, Keeps s l d.1 xs todo ∧ InTurn d xs) (i := []) ?_
    hbegin
  rintro l ⟨c, k⟩ l' ⟨c', k'⟩ ⟨xs, todo, hkeeps, hturn⟩ hs
  exact (hs.keeps hnul hkeeps hturn).1

/-- When nothing is left to do, the user has typed no more lines. -/
theorem Keeps.done {d : FrontEnd × Call} (h : Keeps s l d.1 xs todo) (hturn : InTurn d xs)
    (hend : ∀ l' d', ¬ Alternates d l' d') : todo = [] := by
  obtain ⟨c, k⟩ := d
  rcases hturn with ⟨hp, hk⟩ | ⟨hp, hk, -⟩ | ⟨hp, hk, hno⟩ <;> dsimp only at hp hk <;> subst hk
  · exact absurd (.hasdata hp) (hend _ _)
  · exact absurd (.getdata hp) (hend _ _)
  · rcases hin : c.input with _ | ⟨b, rest⟩
    · rcases todo with _ | ⟨x, todo⟩
      · rfl
      · have hleft := h.left
        rw [hin, List.append_nil, joined_cons] at hleft
        rw [hleft] at hno
        simp at hno
    · -- a byte that can be read is read
      by_cases hroom : READBUFSZ - c.buf.cnt = 0
      · have hnone : Readable c [] c.input :=
          ⟨rfl, by simp [hin], Nat.zero_le _, fun h => absurd hroom h⟩
        exact absurd (.read hp hnone) (hend _ _)
      · have hone : Readable c [b] rest :=
          ⟨hin, by simp [hin], Nat.pos_of_ne_zero hroom, fun _ => List.cons_ne_nil _ _⟩
        exact absurd (.read hp hone) (hend _ _)

theorem reassembles_of_noNul (hnul : ∀ x ∈ s.lines, 0 ∉ x) : Reassembles s where
  inOrder := by
    intro l c h
    obtain ⟨xs, todo, hkeeps, -⟩ := keeps_of_run hnul h
    obtain ⟨done, hdone, hhanded⟩ := hkeeps.lines
    rw [hhanded, hdone, whole, whole, List.map_append]
    exact List.prefix_append _ _
  noWait := by
    intro l c block h hp
    obtain ⟨xs, todo, hkeeps, hturn⟩ := keeps_of_run hnul h
    exact ⟨xs, hkeeps.shows, hturn.noNewline hp⟩
  running := by
    intro l c e h hp
    obtain ⟨xs, todo, -, hturn⟩ := keeps_of_run hnul h
    rcases hturn with ⟨hi, -⟩ | ⟨hi, -⟩ | ⟨hi, -⟩ <;> cases hi.symm.trans hp
  ends := by
    refine Runs.acc Nat.lt_wfRel.wf (fun d => ∃ l xs todo, Keeps s l d.1 xs todo ∧ InTurn d xs) work
      ?_ ⟨[], keeps_of_run hnul (.refl _)⟩
    rintro ⟨c, k⟩ l' ⟨c', k'⟩ ⟨l, xs, todo, hkeeps, hturn⟩ hs
    obtain ⟨hnext, hwork⟩ := hs.keeps hnul hkeeps hturn
    exact ⟨⟨l ++ l', hnext⟩, hwork⟩
  all := by
    intro l c h hend
    obtain ⟨xs, todo, hkeeps, hturn⟩ := keeps_of_run hnul h
    obtain ⟨done, hdone, hhanded⟩ := hkeeps.lines
    rw [hhanded, hdone, hkeeps.done hturn hend, List.append_nil]

end Keeps

theorem Calls.noNul (h : Shows c.buf xs) (hs : Calls c l c') :
    (∃ xs', Shows c'.buf xs') ∧ ∀ q ∈ handed l, 0 ∉ q.1 := by
  cases hs with
  | hasdata block hp =>
    rw [(search_buf block c).1, handed_search]
    exact ⟨⟨xs, h⟩, by simp⟩
  | @read block bs rest hp hr =>
    rcases eq_or_ne bs [] with rfl | hbs
    · exact ⟨⟨xs, h⟩, by simp [more_nil, handed]⟩
    · obtain ⟨b, hb, hmore⟩ := more_bytes h hbs hr.fits block rest
      have hsearch : handed (.read (READBUFSZ - c.buf.cnt) ::
          (search block ⟨b, rest, c.phase⟩).1) = [] := handed_search block _
      rw [hmore, (search_buf block _).1, hsearch]
      exact ⟨⟨_, hb⟩, by simp⟩
  | nothing hp => exact ⟨⟨xs, h⟩, by simp [handed]⟩
  | getdata destsz hsz hp =>
    by_cases hline : ∃ line rest, Line xs line rest
    · obtain ⟨line, rest, hline⟩ := hline
      obtain ⟨b, hb, htake⟩ := take_line h hline destsz
      rw [htake]
      refine ⟨⟨rest, hb⟩, fun q hq h0 => ?_⟩
      rw [List.mem_singleton.mp hq] at h0
      rcases List.mem_append.mp (List.mem_of_mem_take h0) with h0 | h0
      · exact hline.noNul h0
      · exact absurd (List.mem_singleton.mp h0) (by decide)
    · rw [take_none h fun line rest hl' => hline ⟨line, rest, hl'⟩]
      exact ⟨⟨xs, h⟩, by simp [handed]⟩

/-- Whatever is called, no NUL is ever handed out. -/
theorem handed_noNul (h : Runs Calls (start input) l c) : ∀ q ∈ handed l, 0 ∉ q.1 := by
  refine (h.invariant (J := fun l c => (∃ xs, Shows c.buf xs) ∧ ∀ q ∈ handed l, 0 ∉ q.1)
    (i := []) ?_ ⟨⟨[], init_shows⟩, by simp [handed]⟩).2
  rintro l c l' c' ⟨⟨xs, hxs⟩, hl⟩ hs
  obtain ⟨hshows, hl'⟩ := hs.noNul hxs
  refine ⟨hshows, fun q hq => ?_⟩
  rw [handed_append] at hq
  exact (List.mem_append.mp hq).elim (hl q) (hl' q)

/-- All lines come out in the end, so that none of them has a NUL. -/
theorem Reassembles.noNul {s : Typed} (h : Reassembles s) : ∀ x ∈ s.lines, 0 ∉ x := by
  obtain ⟨l, d, hrun, hend⟩ := Runs.exists_end h.ends
  have hcalls : Runs Calls _ l d.1 := hrun.map Prod.fst fun _ _ _ hs => hs.calls
  intro x hx h0
  have hmem : (x ++ [NEWLINE], x.length + 1) ∈ handed l := by
    rw [h.all l d hrun hend]
    exact List.mem_map_of_mem hx
  exact handed_noNul hcalls _ hmem (List.mem_append_left _ h0)

/-- **The lines are reassembled exactly when** none of them has a NUL in it. -/
theorem reassembles_iff (s : Typed) : Reassembles s ↔ ∀ x ∈ s.lines, 0 ∉ x :=
  ⟨Reassembles.noNul, reassembles_of_noNul⟩

/-- One line, which has a NUL in it. -/
def nulLine : Typed where
  lines := [[97, 0, 98]]
  tail := []
  noNewline := by
    intro x hx
    rw [List.mem_singleton.mp hx]
    decide
  short := by
    intro x hx
    rw [List.mem_singleton.mp hx]
    decide
  tail_noNewline := List.not_mem_nil
  tail_short := by decide

/-- It is never found, although its newline has been read. -/
theorem not_reassembles_nul : ¬ Reassembles nulLine :=
  fun h => h.noNul [97, 0, 98] (List.mem_singleton_self _) (by decide)

end Swh.UcIa
