/-
The program as a whole.

`core_run` between ssh and the interactive front end, whatever the switch sends and
whatever the user types, however both are cut into reads.  Apart from `Session`, where the
switch gives proper answers, nothing is assumed of either side.

* `system` — all that ever gets to the switch is the key, the report and the lines that the
  user has typed, but for the last byte of those that are too long by one, all that is
  displayed was received, and nothing is lost on the way;
* `system_eof` — when the user closes fd 0, only an unfinished line is lost.
-/
import Swh.Session
import Swh.UcIaStream
import Swh.Display
import Swh.Dialogue

namespace Swh

open Ansiseq (ESC)
open UcIa (FrontEnd Shows Line Behind At Alternates BUFSZ joined)

/-- The main loop and the front end. -/
structure System where
  conf : Core.Conf
  /-- The front end, and which of its calls comes next. -/
  uc : FrontEnd × UcIa.Call
  /-- `buf` in `core_run`. -/
  buf : Block UInt8

namespace System

theorem BUFSZ_pos : 0 < BUFSZ := by decide

/-- Before the loop is entered, when the user will type `input`. -/
def start (input : List UInt8) : System where
  conf := Core.start
  uc := (UcIa.start input, .hasdata)
  buf := .alloc BUFSZ BUFSZ_pos

/-- `uc_getdata(buf, sizeof buf)`, and the tests of what it returns. -/
def fetch (buf : Block UInt8) (b : Buf) : Except Stop (Buf × Block UInt8 × ℕ) := do
  let q ← UcIa.getdata buf.size b
  let buf ← access (buf.write 0 q.2.1)
  if q.2.2 = 0 then .error (.panic .ucNoData) else .ok (q.1, buf, q.2.2)

/-- One step of the program. -/
inductive Step : System → List Ev → System → Prop
  /-- The loop of `core_run`, up to its call of `uc_hasdata`. -/
  | core {c c' uc buf l} (hph : c.phase ≠ .user) (h : Core.Step c l c') :
      Step ⟨c, uc, buf⟩ l ⟨c', uc, buf⟩
  /-- In `uc_hasdata(true)`. -/
  | hasdata {c fe uc l buf} (hph : c.phase = .user) (h : Alternates (fe, .hasdata) l uc) :
      Step ⟨c, (fe, .hasdata), buf⟩ [] ⟨c, uc, buf⟩
  /-- The user has closed fd 0. -/
  | eof {c} {fe : FrontEnd} {buf} (hph : c.phase = .user) (hwait : fe.phase = .select true)
      (hin : fe.input = []) : Step ⟨c, (fe, .hasdata), buf⟩ []
        ⟨c, ({ fe with phase := .stopped (.panic .readEof) }, .hasdata), buf⟩
  /-- `uc_getdata` and `sc_write`, which copies as many bytes of `buf` as `uc_getdata` has
  returned, stored or not. -/
  | getdata {c} {fe : FrontEnd} {b buf buf' n str} (hph : c.phase = .user)
      (hidle : fe.phase = .idle) (h : fetch buf fe.buf = .ok (b, buf', n))
      (hcopy : buf'.Copies n str) :
      Step ⟨c, (fe, .getdata), buf⟩ (scWrite str c.sc).log
        ⟨Core.queued c.sc (scWrite str c.sc).res, ({ fe with buf := b }, .hasdata), buf'⟩
  /-- `buf` is not that large. -/
  | overrun {c} {fe : FrontEnd} {b buf buf' n} (hph : c.phase = .user)
      (hidle : fe.phase = .idle) (h : fetch buf fe.buf = .ok (b, buf', n))
      (hlong : buf'.size < n) :
      Step ⟨c, (fe, .getdata), buf⟩ []
        ⟨c, ({ fe with buf := b, phase := .stopped (.undefined .memory) }, .getdata), buf'⟩
  | fault {c} {fe : FrontEnd} {buf e} (hph : c.phase = .user) (hidle : fe.phase = .idle)
      (h : fetch buf fe.buf = .error e) :
      Step ⟨c, (fe, .getdata), buf⟩ []
        ⟨c, ({ fe with phase := .stopped e }, .getdata), buf⟩

/-! ### The lines that are queued -/

variable {l l' : List Ev} {v v' : View} {ph ph' : Core.Phase} {c c' : Core.Conf}

theorem lines_quiet (h : ∀ e ∈ l, e.quiet = true) : lines l = [] := by
  refine List.filterMap_eq_nil_iff.mpr fun e he => ?_
  have := h e he
  cases e <;> first | rfl | cases this

theorem flatten_lines (l : List Ev) : (lines l).flatten = queuedBytes l := by
  induction l with
  | nil => rfl
  | cons e l ih =>
    cases e with
    | queued str => exact congrArg (str ++ ·) ih
    | _ => exact ih

/-- Only `sc_write` queues a line. -/
theorem lines_moves (hm : Core.Moves (v, ph) l (v', ph')) (hph : ph ≠ .user) : lines l = [] := by
  cases hm with
  | operate r hst hwoken hop =>
    cases hop with
    | @starved o => exact lines_quiet (quiet_fed o (.inchar .sta)).1
    | @fed o g => exact lines_quiet (quiet_fed o g).1
    | _ => rfl
  | stop r hst hwoken hop =>
    cases hop with
    | @malformed o => exact lines_quiet (quiet_fed o (.inchar .sta)).1
    | @fsmError o g => exact lines_quiet (quiet_fed o g).1
    | _ => rfl
  | wake => rfl
  | hand hst => exact lines_replies v
  | write str hstr => exact absurd rfl hph

theorem lines_step (hc : c.Shows (v, c.phase)) (hph : c.phase ≠ .user) (h : Core.Step c l c') :
    lines l = [] := by
  obtain ⟨v', ph', hmove, -⟩ := hc.step h
  exact lines_moves hmove hph

/-! ### The front end under the loop -/

section FrontEnd

variable {fe : FrontEnd} {uc : FrontEnd × UcIa.Call} {es : List UcIa.Event}
  {buf buf' : Block UInt8} {input xs line rest str : List UInt8}

/-- What the front end knows of the stream, and is about to hand out. -/
structure Holds (input xs : List UInt8) (uc : FrontEnd × UcIa.Call) : Prop where
  pos : At input uc.1 xs
  line : uc.2 = .getdata → ∃ line rest, Line xs line rest

theorem holds_search (h : Shows fe.buf xs) (hb : Behind input (xs ++ fe.input)) :
    Holds input xs (UcIa.next (UcIa.search true fe).2) ∧
      (UcIa.next (UcIa.search true fe).2).1.input = fe.input := by
  refine ⟨⟨(UcIa.search_at h hb true).1, fun hcall => ?_⟩, (UcIa.search_buf true fe).2⟩
  by_contra hno
  rw [UcIa.search_none h fun line rest hl => hno ⟨line, rest, hl⟩] at hcall
  cases hcall

theorem live_of_alternates {uc' : FrontEnd × UcIa.Call} (hs : Alternates uc es uc')
    (e : Stop) : uc.1.phase ≠ .stopped e := by
  cases hs with
  | hasdata hp => exact fun h => nomatch hp.symm.trans h
  | read hp _ => exact fun h => nomatch hp.symm.trans h
  | getdata hp => exact fun h => nomatch hp.symm.trans h

/-- `uc_hasdata` loses nothing of the stream. -/
theorem Holds.hasdata (h : Holds input xs (fe, .hasdata)) (hs : Alternates (fe, .hasdata) es uc) :
    (fe.phase = .select true ∧ UcIa.READBUFSZ - fe.buf.cnt = 0) ∨
      ∃ xs', Holds input xs' uc ∧ xs' ++ uc.1.input = xs ++ fe.input := by
  cases hs with
  | hasdata hp =>
    obtain ⟨hholds, hin⟩ := holds_search h.pos.shows h.pos.behind
    exact .inr ⟨xs, hholds, by rw [hin]⟩
  | @read _ bs rest hp hr =>
    rcases eq_or_ne bs [] with rfl | hbs
    · exact .inl ⟨hp, by_contra fun hroom => hr.nonempty hroom rfl⟩
    · obtain ⟨b, hb, hmore⟩ := UcIa.more_bytes h.pos.shows hbs hr.fits true rest
      have hbehind := h.pos.behind
      rw [show (fe, UcIa.Call.hasdata).1.input = bs ++ rest from hr.input,
        ← List.append_assoc] at hbehind
      obtain ⟨hholds, hin⟩ := @holds_search ⟨b, rest, fe.phase⟩ _ _ hb hbehind
      rw [hmore]
      refine .inr ⟨_, hholds, ?_⟩
      rw [hin, hr.input, List.append_assoc]

/-- A full buffer is taken for the end of the file. -/
theorem stopped_of_full (hs : Alternates (fe, .hasdata) es uc) (hwait : fe.phase = .select true)
    (hfull : UcIa.READBUFSZ - fe.buf.cnt = 0) : uc.1.phase = .stopped (.panic .readEof) := by
  cases hs with
  | hasdata hp => exact nomatch hp.symm.trans hwait
  | @read _ bs rest hp hr =>
    obtain rfl : bs = [] := by
      have := hr.fits
      exact List.length_eq_zero_iff.mp (by omega)
    rfl

/-- A line is fetched: it is dropped by the front end, and as much of it as has room is in
`buf`. -/
theorem fetch_line (hsize : buf.size = BUFSZ) (h : Shows fe.buf xs) (hl : Line xs line rest) :
    ∃ b buf', fetch buf fe.buf = .ok (b, buf', line.length + 1) ∧ Shows b rest ∧
      buf'.size = BUFSZ ∧ buf'.Holds ((line ++ [NEWLINE]).take 511) ∧
      buf'.cell 511 = buf.cell 511 := by
  obtain ⟨b, hget, hshows⟩ := UcIa.getdata_line h hl buf.size
  have hlen : (line ++ [NEWLINE]).length = line.length + 1 := by simp
  have hcopied : (line ++ [NEWLINE]).take (UcIa.copied (line.length + 1) buf.size)
      = (line ++ [NEWLINE]).take 511 := by
    rw [hsize, UcIa.copied, BUFSZ]
    split
    · rfl
    · rw [List.take_of_length_le hlen.le, List.take_of_length_le (by omega)]
  rw [hcopied] at hget
  obtain ⟨buf', hwrite, hsize', hholds⟩ := Block.write_holds (b := buf)
    ((line ++ [NEWLINE]).take 511) Block.holds_nil
    (by rw [hsize, List.length_nil, Nat.zero_add]
        exact (List.length_take_le _ _).trans (by decide))
  have hwrite' : buf.write 0 ((line ++ [NEWLINE]).take 511) = some buf' := hwrite
  have hlast := Block.cell_write hwrite'
    (i := 511) (by rw [Nat.zero_add]; exact List.length_take_le _ _)
  refine ⟨b, buf', ?_, hshows, hsize'.trans hsize, hholds, hlast⟩
  simp only [fetch, hget, bind, Except.bind, hwrite', access_some, Nat.succ_ne_zero, if_false]

/-- The line `x` that was typed, as sc gets it: with its newline, or, if that is the 512th
byte, with any byte for it. -/
def Passed (x str : List UInt8) : Prop :=
  x.length ≤ 511 ∧ ∃ b, str = x ++ [b] ∧ (x.length < 511 → b = NEWLINE)

theorem passed_of_copies (hsize : buf.size = BUFSZ)
    (hholds : buf.Holds ((line ++ [NEWLINE]).take 511))
    (hcopy : buf.Copies (line.length + 1) str) : Passed line str := by
  have hle := hcopy.le
  rw [hsize, BUFSZ] at hle
  have htake := hcopy.take hholds
  rw [List.length_take, List.length_append, List.length_singleton] at htake
  refine ⟨by omega, ?_⟩
  rcases Nat.lt_or_ge line.length 511 with hlt | hge
  · -- all of the line was stored
    have hall : (line ++ [NEWLINE]).length ≤ 511 := by
      rw [List.length_append, List.length_singleton]
      omega
    rw [Nat.min_eq_right (by omega), List.take_of_length_le hcopy.length.le,
      List.take_of_length_le hall, List.take_of_length_le (by simp)] at htake
    exact ⟨NEWLINE, htake, fun _ => rfl⟩
  · have heq : line.length = 511 := by omega
    have hline : line.take (511 + 1) = line := List.take_of_length_le (by omega)
    rw [heq, Nat.min_eq_left (by decide), List.take_left' heq, hline] at htake
    obtain ⟨b, hb⟩ := List.length_eq_one_iff.mp
      (show (str.drop 511).length = 1 by rw [List.length_drop, hcopy.length]; omega)
    refine ⟨b, ?_, fun hlt => absurd hlt (by omega)⟩
    rw [← htake, ← hb]
    exact (List.take_append_drop 511 str).symm

/-- As long as the last byte of `buf` was not stored to, sc may get any byte for it. -/
theorem copies_of_passed (hsize : buf.size = BUFSZ)
    (hholds : buf.Holds ((line ++ [NEWLINE]).take 511)) (hlast : buf.cell 511 = none)
    (h : Passed line str) : buf.Copies (line.length + 1) str := by
  obtain ⟨hle, b, rfl, hb⟩ := h
  rcases hle.lt_or_eq with hlt | heq
  · rw [hb hlt]
    rw [List.take_of_length_le (by rw [List.length_append, List.length_singleton]; omega)]
      at hholds
    have hcopy := Block.copies_of_holds hholds
    rwa [List.length_append, List.length_singleton] at hcopy
  · rw [List.take_left' heq] at hholds
    refine Block.copies_concat hholds ?_ (by rw [heq, hlast]) b
    rw [heq, hsize]
    decide

end FrontEnd

/-! ### Nothing is lost -/

/-- sc was given the lines `ls`, which are the first of what the user has typed. -/
structure Taken (input : List UInt8) (l : List Ev) (ls : List (List UInt8)) : Prop where
  passed : List.Forall₂ Passed ls (lines l)
  plain : ∀ x ∈ ls, NEWLINE ∉ x ∧ 0 ∉ x
  typed : joined ls [] <+: input

/-- What may have stopped the front end: the end of the file, or a full buffer, which is taken
for it; or the line behind `ls` is longer than `buf`. -/
def Ended (input : List UInt8) (ls : List (List UInt8)) (e : Stop) : Prop :=
  e = .panic .readEof ∨ (e = .undefined .memory ∧ ∃ line rest, NEWLINE ∉ line ∧
    511 < line.length ∧ joined ls (line ++ NEWLINE :: rest) = input)

/-- What a run has done so far: the lines that were queued are the first of what the user
has typed, and the rest is still on its way. -/
structure Carries (input : List UInt8) (l : List Ev) (s : System) : Prop where
  run : Core.Run Core.start l s.conf
  size : s.buf.size = BUFSZ
  lines : ∃ ls, Taken input l ls ∧
    ((∀ e, s.uc.1.phase ≠ .stopped e) →
      ∃ xs, Holds input xs s.uc ∧ joined ls [] ++ (xs ++ s.uc.1.input) = input) ∧
    ∀ e, s.uc.1.phase = .stopped e → Ended input ls e

variable {input : List UInt8} {s s' : System} {ls : List (List UInt8)}

theorem joined_nil_append (ls : List (List UInt8)) (ys : List UInt8) :
    joined ls [] ++ ys = joined ls ys := by
  rw [joined, joined, List.append_nil]

theorem joined_concat (ls : List (List UInt8)) (line ys : List UInt8) :
    joined (ls ++ [line]) ys = joined ls (line ++ NEWLINE :: ys) := by
  simp [joined]

theorem Taken.mono {input' : List UInt8} (h : Taken input l ls) (hin : input <+: input') :
    Taken input' l ls :=
  ⟨h.passed, h.plain, h.typed.trans hin⟩

/-- sc is given another line. -/
theorem Taken.concat {line str : List UInt8} (h : Taken input l ls) (hpassed : Passed line str)
    (hplain : NEWLINE ∉ line ∧ 0 ∉ line) (htyped : joined (ls ++ [line]) [] <+: input) :
    Taken input (l ++ [.queued str]) (ls ++ [line]) where
  passed := by
    rw [lines_append]
    exact List.rel_append h.passed (.cons hpassed .nil)
  plain x hx := by
    rcases List.mem_append.mp hx with hx | hx
    · exact h.plain x hx
    · rwa [List.mem_singleton.mp hx]
  typed := htyped

theorem carries_start (input : List UInt8) : Carries input [] (start input) where
  run := .refl _
  size := rfl
  lines := ⟨[], ⟨.nil, nofun, List.nil_prefix⟩,
    fun _ => ⟨[], ⟨UcIa.start_at input, nofun⟩, rfl⟩, nofun⟩

/-- The front end goes on. -/
theorem Carries.ask {c : Core.Conf} {uc uc' : FrontEnd × UcIa.Call} {buf : Block UInt8}
    (h : Carries input l ⟨c, uc, buf⟩) (hwas : ∀ e, uc.1.phase ≠ .stopped e)
    (hleft : ∀ xs, Holds input xs uc → (uc'.1.phase = .stopped (.panic .readEof) ∨
      ∃ xs', Holds input xs' uc' ∧ xs' ++ uc'.1.input = xs ++ uc.1.input)) :
    Carries input (l ++ []) ⟨c, uc', buf⟩ := by
  obtain ⟨hrun, hsize, ls, htaken, hlive, -⟩ := h
  obtain ⟨xs, hholds, htyped⟩ := hlive hwas
  rw [List.append_nil]
  refine ⟨hrun, hsize, ls, htaken, ?_⟩
  rcases hleft xs hholds with heof | ⟨xs', hholds', hleft'⟩
  · refine ⟨fun hlive => absurd heof (hlive _), fun e he => .inl ?_⟩
    cases heof.symm.trans he
    rfl
  · refine ⟨fun _ => ⟨xs', hholds', by rw [hleft']; exact htyped⟩, fun e he => ?_⟩
    exact absurd he (hholds'.pos.running e)

/-- The line behind `ls` is fetched: it has been copied to `buf'`, as far as there is room. -/
structure Fetched (input : List UInt8) (fe : FrontEnd) (buf : Block UInt8)
    (ls : List (List UInt8)) (line rest : List UInt8) (b : Buf) (buf' : Block UInt8) : Prop where
  plain : NEWLINE ∉ line ∧ 0 ∉ line
  typed : joined ls (line ++ NEWLINE :: (rest ++ fe.input)) = input
  behind : Behind input (line ++ NEWLINE :: (rest ++ fe.input))
  fetched : fetch buf fe.buf = .ok (b, buf', line.length + 1)
  shows : Shows b rest
  size : buf'.size = BUFSZ
  holds : buf'.Holds ((line ++ [NEWLINE]).take 511)

/-- Whatever `uc_getdata` is asked for is there. -/
theorem Carries.fetched {c : Core.Conf} {fe : FrontEnd} {buf : Block UInt8}
    (h : Carries input l ⟨c, (fe, .getdata), buf⟩) (hidle : fe.phase = .idle) :
    ∃ ls line rest b buf', Taken input l ls ∧ Fetched input fe buf ls line rest b buf' := by
  obtain ⟨-, hsize, ls, htaken, hlive, -⟩ := h
  obtain ⟨xs, hholds, htyped⟩ := hlive fun e he => nomatch hidle.symm.trans he
  obtain ⟨line, rest, hl⟩ := hholds.line rfl
  obtain ⟨b, buf', hfetch, hshows, hsize', hbuf, -⟩ := fetch_line hsize hholds.pos.shows hl
  have hleft : xs ++ fe.input = line ++ NEWLINE :: (rest ++ fe.input) := by
    rw [hl.split, List.append_assoc, List.cons_append]
  refine ⟨ls, line, rest, b, buf', htaken, ⟨hl.noNewline, hl.noNul⟩, ?_, ?_, hfetch, hshows,
    hsize', hbuf⟩
  · rw [← hleft, ← joined_nil_append]
    exact htyped
  · rw [← hleft]
    exact hholds.pos.behind

theorem Carries.step (h : Carries input l s) (hs : Step s l' s') :
    Carries input (l ++ l') s' := by
  obtain ⟨v, hc, -⟩ := Core.run_transmits h.run
  cases hs with
  | core hph hcore =>
    obtain ⟨hrun, hsize, ls, htaken, hleft⟩ := h
    have hlines : Swh.lines (l ++ l') = Swh.lines l := by
      rw [lines_append, lines_step hc hph hcore, List.append_nil]
    exact ⟨hrun.snoc hcore, hsize, ls, ⟨by rw [hlines]; exact htaken.passed, htaken.plain,
      htaken.typed⟩, hleft⟩
  | hasdata hph hask =>
    refine h.ask (live_of_alternates hask) fun xs hholds => ?_
    obtain ⟨hwait, hfull⟩ | hmore := hholds.hasdata hask
    · exact .inl (stopped_of_full hask hwait hfull)
    · exact .inr hmore
  | eof hph hwait hin =>
    exact h.ask (fun e he => nomatch hwait.symm.trans he) fun xs hholds => .inl rfl
  | @getdata c fe b buf buf' n str hph hidle hfetch hcopy =>
    obtain ⟨ls, line, rest, b', buf₁, htaken, hf⟩ := h.fetched hidle
    cases hfetch.symm.trans hf.fetched
    have hpassed := passed_of_copies hf.size hf.holds hcopy
    have hne : str ≠ [] := by
      rintro rfl
      exact absurd hcopy.length (by simp)
    rw [show (⟨c, (fe, UcIa.Call.getdata), buf⟩ : System).conf.phase = .user from hph] at hc
    obtain ⟨hlog, hstep, -⟩ := hc.queued hne
    have hall : joined (ls ++ [line]) [] ++ (rest ++ fe.input) = input := by
      rw [joined_nil_append, joined_concat]
      exact hf.typed
    rw [hlog]
    refine ⟨h.run.snoc hstep, hf.size, ls ++ [line],
      htaken.concat hpassed hf.plain ⟨_, hall⟩, fun _ => ?_, fun e he => ?_⟩
    · have hbehind := hf.behind.line ⟨rfl, hf.plain.1, hf.plain.2⟩
      exact ⟨rest, ⟨UcIa.at_of_idle hf.shows hbehind hidle, nofun⟩, hall⟩
    · exact nomatch hidle.symm.trans he
  | @overrun c fe b buf buf' n hph hidle hfetch hlong =>
    obtain ⟨ls, line, rest, b', buf₁, htaken, hf⟩ := h.fetched hidle
    cases hfetch.symm.trans hf.fetched
    have hsize := hf.size
    rw [hsize, BUFSZ] at hlong
    rw [List.append_nil]
    refine ⟨h.run, hsize, ls, htaken, fun hlive => absurd rfl (hlive _), fun e he => ?_⟩
    cases he
    exact .inr ⟨rfl, line, rest ++ fe.input, hf.plain.1, by omega, hf.typed⟩
  | @fault c fe buf e hph hidle hfetch =>
    obtain ⟨ls, line, rest, b', buf₁, -, hf⟩ := h.fetched hidle
    cases hfetch.symm.trans hf.fetched

theorem carries_run (h : Runs Step (start input) l s) : Carries input l s :=
  h.invariant (J := Carries input) (i := []) (fun _ _ _ _ hJ hs => hJ.step hs)
    (carries_start input)

/-! ### The end of the input -/

section Typed

variable {t : UcIa.Typed} {fe : FrontEnd} {xs ys rest line : List UInt8}
  {todo : List (List UInt8)} {uc : FrontEnd × UcIa.Call} {es : List UcIa.Event}

/-- The line that `strchr` finds is the next one. -/
theorem line_joined (h : xs ++ ys = UcIa.joined todo t.tail) (htodo : ∀ x ∈ todo, x ∈ t.lines)
    (hl : Line xs line rest) : ∃ todo', todo = line :: todo' ∧
      rest ++ ys = UcIa.joined todo' t.tail := by
  rcases UcIa.joined_split h (fun x hx => t.noNewline x (htodo x hx)) t.tail_noNewline with
    ⟨x, todo', rest', rfl, hxs, hrest⟩ | ⟨hno, -⟩
  · obtain ⟨rfl, rfl⟩ := Session.append_newline_inj hl.noNewline (t.noNewline x (htodo x (.head _)))
      (hl.split.symm.trans hxs)
    exact ⟨todo', rfl, hrest⟩
  · exact absurd (by rw [hl.split]; simp) hno

/-- Behind some of the lines are the others. -/
theorem behind_joined (h : Behind t.bytes xs) :
    ∃ done todo, t.lines = done ++ todo ∧ xs = UcIa.joined todo t.tail := by
  induction h with
  | refl => exact ⟨[], t.lines, rfl, rfl⟩
  | line _ hl ih =>
    obtain ⟨done, todo, hdone, hxs⟩ := ih
    obtain ⟨todo', rfl, hrest⟩ := line_joined ((List.append_nil _).trans hxs)
      (fun x hx => by rw [hdone]; exact List.mem_append_right _ hx) hl
    rw [List.append_nil] at hrest
    exact ⟨done ++ [_], todo', by rw [hdone, List.append_assoc]; rfl, hrest⟩

/-- Where `strchr` finds no line there is the beginning of one, or of what follows them. -/
theorem unfinished (hnul : ∀ x ∈ t.lines, 0 ∉ x) (h : xs ++ ys = UcIa.joined todo t.tail)
    (htodo : ∀ x ∈ todo, x ∈ t.lines) (hno : ∀ line rest, ¬ Line xs line rest) :
    NEWLINE ∉ xs ∧ xs.length < 511 := by
  rcases UcIa.joined_split h (fun x hx => t.noNewline x (htodo x hx)) t.tail_noNewline with
    ⟨x, todo', rest, rfl, hxs, -⟩ | ⟨hnl, hpre | ⟨x, hx, hpre⟩⟩
  · have hx := htodo x (.head _)
    exact absurd ⟨hxs, t.noNewline x hx, hnul x hx⟩ (hno x rest)
  · exact ⟨hnl, lt_of_le_of_lt hpre.length_le t.tail_short⟩
  · exact ⟨hnl, lt_of_le_of_lt hpre.length_le (t.short x (htodo x hx))⟩

/-- Lines can be told apart. -/
theorem joined_inj {ls ms : List (List UInt8)} {tail : List UInt8}
    (h : joined ls tail = joined ms tail) (hls : ∀ x ∈ ls, NEWLINE ∉ x)
    (hms : ∀ x ∈ ms, NEWLINE ∉ x) (htail : NEWLINE ∉ tail) : ls = ms := by
  have hnil : ∀ x ms', tail ≠ joined (x :: ms') tail := by
    intro x ms' heq
    rw [UcIa.joined_cons] at heq
    exact htail (by rw [heq]; simp)
  induction ls generalizing ms with
  | nil =>
    rcases ms with _ | ⟨y, ms⟩
    · rfl
    · exact absurd h (hnil y ms)
  | cons x ls ih =>
    rcases ms with _ | ⟨y, ms⟩
    · exact absurd h.symm (hnil x ls)
    · rw [UcIa.joined_cons, UcIa.joined_cons] at h
      obtain ⟨rfl, hrest⟩ := Session.append_newline_inj (hls x (.head _)) (hms y (.head _)) h
      rw [ih hrest (fun x hx => hls x (.tail _ hx)) fun x hx => hms x (.tail _ hx)]

/-- Lines that are short enough are whole. -/
theorem flatten_passed {ls strs : List (List UInt8)} (h : List.Forall₂ Passed ls strs)
    (hshort : ∀ x ∈ ls, x.length + 1 ≤ 511) : strs.flatten = joined ls [] := by
  induction h with
  | nil => rfl
  | @cons x str ls strs hx _ ih =>
    obtain ⟨-, b, rfl, hb⟩ := hx
    rw [hb (hshort x (.head _)), UcIa.joined_cons, List.flatten_cons,
      ih fun x hx => hshort x (.tail _ hx)]
    simp

/-- The front end has stopped only at the end of the input, when there was no line left. -/
def Ends (t : UcIa.Typed) (l : List Ev) (s : System) : Prop :=
  ∀ e, s.uc.1.phase = .stopped e → e = .panic .readEof ∧ s.conf.phase = .user ∧
    ∃ ls, Taken t.bytes l ls ∧ joined ls t.tail = t.bytes

/-- While the user is awaited, what was read is the beginning of a line. -/
theorem Holds.waits (hnul : ∀ x ∈ t.lines, 0 ∉ x) (h : Holds t.bytes xs uc)
    (hwait : uc.1.phase = .select true) : NEWLINE ∉ xs ∧ xs.length < 511 := by
  obtain ⟨done, todo, hdone, hleft⟩ := behind_joined h.pos.behind
  exact unfinished hnul hleft (fun x hx => by rw [hdone]; exact List.mem_append_right _ hx)
    (h.pos.waits true hwait)

/-- A line that is fetched is one of those. -/
theorem Fetched.short {buf buf' : Block UInt8} {b : Buf}
    (h : Fetched t.bytes fe buf ls line rest b buf') : line.length + 1 ≤ 511 := by
  obtain ⟨done, todo, hdone, hleft⟩ := behind_joined h.behind
  have hl : Line (line ++ NEWLINE :: (rest ++ fe.input)) line (rest ++ fe.input) :=
    ⟨rfl, h.plain.1, h.plain.2⟩
  obtain ⟨todo', rfl, -⟩ := line_joined ((List.append_nil _).trans hleft)
    (fun x hx => by rw [hdone]; exact List.mem_append_right _ hx) hl
  exact t.short line (by rw [hdone]; simp)

theorem Carries.ends (hnul : ∀ x ∈ t.lines, 0 ∉ x) (h : Carries t.bytes l s) (hends : Ends t l s)
    (hs : Step s l' s') : Ends t (l ++ l') s' := by
  cases hs with
  | core hph hcore => exact fun e he => absurd (hends e he).2.1 hph
  | @hasdata c fe uc es buf hph hask =>
    intro e he
    obtain ⟨ls, -, hlive, -⟩ := h.lines
    obtain ⟨xs, hholds, -⟩ := hlive (live_of_alternates hask)
    obtain ⟨hwait, hfull⟩ | ⟨xs', hholds', -⟩ := hholds.hasdata hask
    · -- there is always room for the rest of a line
      obtain ⟨-, hlt⟩ := hholds.waits hnul hwait
      have hcnt : fe.buf.cnt = xs.length := hholds.pos.shows.records.2
      rw [hcnt, UcIa.READBUFSZ] at hfull
      omega
    · exact absurd he (hholds'.pos.running e)
  | @eof c fe buf hph hwait hin =>
    intro e he
    obtain ⟨ls, htaken, hlive, -⟩ := h.lines
    obtain ⟨xs, hholds, htyped⟩ := hlive fun e he => by cases hwait.symm.trans he
    obtain ⟨hnl, -⟩ := hholds.waits hnul hwait
    obtain ⟨done, todo, hdone, hleft⟩ := behind_joined hholds.pos.behind
    rw [hin, List.append_nil] at htyped
    rw [show (fe, UcIa.Call.hasdata).1.input = [] from hin, List.append_nil] at hleft
    rcases todo with _ | ⟨x, todo⟩
    · have hxs : xs = t.tail := hleft
      cases he
      rw [hxs, joined_nil_append] at htyped
      rw [List.append_nil]
      exact ⟨rfl, hph, ls, htaken, htyped⟩
    · rw [hleft, UcIa.joined_cons] at hnl
      exact absurd (by simp) hnl
  | @overrun c fe b buf buf' n hph hidle hfetch hlong =>
    obtain ⟨ls, line, rest, b', buf₁, -, hf⟩ := h.fetched hidle
    cases hfetch.symm.trans hf.fetched
    have hshort := hf.short
    rw [hf.size, BUFSZ] at hlong
    omega
  | fault hph hidle hfetch =>
    obtain ⟨ls, line, rest, b', buf₁, -, hf⟩ := h.fetched hidle
    cases hfetch.symm.trans hf.fetched
  | getdata hph hidle hfetch hcopy => exact fun e he => by cases hidle.symm.trans he

end Typed

/-! ### Runs of the program -/

/-- Runs of the loop in which no line is queued. -/
theorem run_core (hc : c.Shows (v, ph)) (h : Core.Run c l c') (hnone : lines l = [])
    (uc : FrontEnd × UcIa.Call) (buf : Block UInt8) : Runs Step ⟨c, uc, buf⟩ l ⟨c', uc, buf⟩ := by
  induction h with
  | refl => exact .refl _
  | @snoc c₁ c₂ l₁ l₂ h hs ih =>
    rw [lines_append, List.append_eq_nil_iff] at hnone
    refine (ih hnone.1).snoc (.core (fun hph => ?_) hs)
    obtain ⟨⟨v₁, ph₁⟩, -, hc₁⟩ := Core.run_refines hc h
    obtain rfl : ph₁ = .user := hc₁.2.1.symm.trans hph
    obtain ⟨v₂, ph₂, hmove, -⟩ := hc₁.step hs
    cases hmove
    cases hnone.2

/-- The user is asked, behind the opening chat, and types. -/
theorem run_asked (bs : List UInt8) (hbs : bs ≠ []) (hlen : bs.length ≤ UcIa.READBUFSZ) :
    ∃ l c v b, lines l = [] ∧ c.Shows (v, .user) ∧ Shows b bs ∧ Runs Step (start bs) l
        ⟨c, UcIa.next (UcIa.search true ⟨b, [], .select true⟩).2, .alloc BUFSZ BUFSZ_pos⟩ := by
  obtain ⟨c₁, hrun₁, hc₁⟩ := Core.run_chat isChat_x (by decide)
  obtain ⟨c₂, hs₂, hc₂⟩ := hc₁.hand rfl
  have hrun := hrun₁.snoc hs₂
  have hph : c₂.phase = .user := hc₂.2.1
  have hwait : Step ⟨c₂, (UcIa.start bs, .hasdata), .alloc BUFSZ BUFSZ_pos⟩ [] _ :=
    .hasdata hph (.hasdata rfl)
  rw [UcIa.search_none UcIa.init_shows UcIa.not_line_nil] at hwait
  obtain ⟨b, hb, hmore⟩ := UcIa.more_bytes (c := ⟨UcIa.init, bs, .select true⟩) UcIa.init_shows
    hbs hlen true []
  have hread : Step ⟨c₂, (⟨UcIa.init, bs, .select true⟩, .hasdata), .alloc BUFSZ BUFSZ_pos⟩
      [] _ :=
    .hasdata hph (.read rfl ⟨(List.append_nil bs).symm, hbs, hlen, fun _ => hbs⟩)
  rw [hmore] at hread
  have hloop := run_core Core.start_shows hrun rfl (UcIa.start bs, .hasdata)
    (.alloc BUFSZ BUFSZ_pos)
  have hasked := (hloop.snoc hwait).snoc hread
  rw [List.append_nil, List.append_nil] at hasked
  exact ⟨_, c₂, _, b, rfl, hc₂, hb, hasked⟩

/-- A line that is there is fetched and queued. -/
theorem run_fetched (fe : FrontEnd) (buf : Block UInt8) {xs line rest str : List UInt8}
    (hc : c.Shows (v, .user)) (hidle : fe.phase = .idle) (hsize : buf.size = BUFSZ)
    (hlast : buf.cell 511 = none) (h : Shows fe.buf xs) (hl : Line xs line rest)
    (hpassed : Passed line str) :
    ∃ c' b buf', Step ⟨c, (fe, .getdata), buf⟩ [.queued str]
        ⟨c', ({ fe with buf := b }, .hasdata), buf'⟩ ∧ Shows b rest ∧
      c'.Shows ({ v with wq := str, state := .writing, out := [] }, .loop false) := by
  obtain ⟨b, buf', hfetch, hshows, hsize', hholds, hcell⟩ := fetch_line hsize h hl
  have hcopy := copies_of_passed hsize' hholds (hcell.trans hlast) hpassed
  have hne : str ≠ [] := by
    obtain ⟨-, b, rfl, -⟩ := hpassed
    exact List.append_ne_nil_of_right_ne_nil line (List.cons_ne_nil b [])
  obtain ⟨hlog, -, hc'⟩ := hc.queued hne
  have hstep := Step.getdata hc.2.1 hidle hfetch hcopy
  rw [hlog] at hstep
  exact ⟨_, b, buf', hstep, hshows, hc'⟩

/-! ### The program -/

/-- What the program has done with `input`:

* `sc_write` is given what the user has typed, one line at a time, in order and unchanged but
  for the last byte of a line of 512, and what it was not given yet is still to be read or in
  the buffer of the front end;
* the front end stops only at the end of the file, where its buffer is full, or at a line of
  more than 512 bytes;
* what is written to the switch is the key, the report and what `sc_write` was given, and all
  of that is before the user is asked for another line;
* what is displayed are bytes that the switch sent, in order, without escapes and NULs. -/
structure Faithful (input : List UInt8) (l : List Ev) (s : System) : Prop where
  lines : ∃ ls, Taken input l ls ∧
    ((∀ e, s.uc.1.phase ≠ .stopped e) →
      ∃ xs, Shows s.uc.1.buf xs ∧ joined ls [] ++ (xs ++ s.uc.1.input) = input) ∧
    ∀ e, s.uc.1.phase = .stopped e → Ended input ls e
  written : (∀ e, s.conf.phase ≠ .stopped e) →
    Swh.written l <+: 0x78 :: REPORT ++ (Swh.lines l).flatten
  asked : s.conf.phase = .user → Swh.written l = 0x78 :: REPORT ++ (Swh.lines l).flatten
  displayed : (puts l).flatten.Sublist (received l)
  plain : ∀ b ∈ (puts l).flatten, b ≠ ESC ∧ b ≠ 0

/-- **The program as a whole**, whatever the switch sends, whatever the user types and
however both are cut. -/
theorem system (h : Runs Step (start input) l s) : Faithful input l s := by
  have hcarries := carries_run h
  have hrun := hcarries.run
  obtain ⟨v, hc, hshown⟩ := Core.run_displays hrun
  obtain ⟨ls, htaken, hleft, hended⟩ := hcarries.lines
  refine ⟨⟨ls, htaken, fun hlive => ?_, hended⟩, fun hlive => ?_, fun hph => ?_,
    hshown.shown.sublist, hshown.shown.plain⟩
  · obtain ⟨xs, hholds, hall⟩ := hleft hlive
    exact ⟨xs, hholds.pos.shows, hall⟩
  · rw [flatten_lines]
    exact (Core.run_written hrun hlive).1
  · rw [flatten_lines]
    have hlive : ∀ e, s.conf.phase ≠ .stopped e := fun e he => nomatch hph.symm.trans he
    exact (Core.run_written hrun hlive).2 (hc.1.state.trans (hc.sane.user hph))

/-- A line is typed and queued.  If it has 512 bytes, the last one may become any byte. -/
theorem system_line :
    (∃ l s, Runs Step (start [0x61, NEWLINE]) l s ∧ lines l = [[0x61, NEWLINE]] ∧
      Faithful [0x61, NEWLINE] l s) ∧
    ∀ b : UInt8, ∃ l s, Runs Step (start (List.replicate 511 0x61 ++ [NEWLINE])) l s ∧
      lines l = [List.replicate 511 0x61 ++ [b]] ∧
      Faithful (List.replicate 511 0x61 ++ [NEWLINE]) l s := by
  have hqueued : ∀ line str : List UInt8, Line (line ++ [NEWLINE]) line [] → Passed line str →
      ∃ l s, Runs Step (start (line ++ [NEWLINE])) l s ∧ lines l = [str] ∧
        Faithful (line ++ [NEWLINE]) l s := by
    intro line str hl hpassed
    have hlen := hpassed.1
    obtain ⟨l, c, v, b, hnone, hc, hb, hrun⟩ := run_asked (line ++ [NEWLINE]) (by simp)
      (by rw [List.length_append, List.length_singleton, UcIa.READBUFSZ]; omega)
    rw [UcIa.search_line hb ⟨_, _, hl⟩] at hrun
    obtain ⟨c', b', buf', hstep, -⟩ := run_fetched ⟨b, [], .idle⟩ (.alloc BUFSZ BUFSZ_pos)
      hc rfl rfl rfl hb hl hpassed
    have hrun' := hrun.snoc hstep
    refine ⟨_, _, hrun', ?_, system hrun'⟩
    rw [lines_append, hnone]
    rfl
  refine ⟨hqueued [0x61] [0x61, NEWLINE] ⟨rfl, by decide, by decide⟩
    ⟨by decide, NEWLINE, rfl, fun _ => rfl⟩, fun b => ?_⟩
  have hlen : (List.replicate 511 (0x61 : UInt8)).length = 511 := List.length_replicate
  exact hqueued _ _ (UcIa.line_replicate 511) ⟨hlen.le, b, rfl, fun hlt => absurd hlen hlt.ne⟩

/-- **The end of the input.**  The user may type what he likes, in lines that fit and without
NULs, and close fd 0: the program does not end before it is asked for the next line, and
by then all lines have been written to the switch.  Only an unfinished line is lost. -/
theorem system_eof {t : UcIa.Typed} (hnul : ∀ x ∈ t.lines, 0 ∉ x)
    (h : Runs Step (start t.bytes) l s) {e : Stop} (hstop : s.uc.1.phase = .stopped e) :
    e = .panic .readEof ∧ written l = 0x78 :: REPORT ++ UcIa.joined t.lines [] := by
  have hrun : Carries t.bytes l s ∧ Ends t l s := by
    refine h.invariant (J := fun l s => Carries t.bytes l s ∧ Ends t l s) (i := []) ?_
      ⟨carries_start t.bytes, fun e he => nomatch he⟩
    rintro l s l' s' ⟨hcarries, hends⟩ hs
    exact ⟨hcarries.step hs, hcarries.ends hnul hends hs⟩
  obtain ⟨rfl, hph, ls, htaken, hall⟩ := hrun.2 e hstop
  obtain rfl : ls = t.lines :=
    joined_inj hall (fun x hx => (htaken.plain x hx).1) t.noNewline t.tail_noNewline
  obtain ⟨v, hc, -⟩ := Core.run_transmits hrun.1.run
  refine ⟨rfl, ?_⟩
  rw [(Core.run_written hrun.1.run fun e he => nomatch hph.symm.trans he).2
    (hc.1.state.trans (hc.sane.user hph)), ← flatten_lines, flatten_passed htaken.passed t.short]

/-- The user closes fd 0 in the middle of the second line. -/
theorem system_eof_unfinished : ∃ l s, Runs Step (start [0x61, NEWLINE, 0x62]) l s ∧
    s.uc.1.phase = .stopped (.panic .readEof) ∧
    written l = 0x78 :: REPORT ++ [0x61, NEWLINE] := by
  obtain ⟨l, c, v, b, -, hc, hb, hrun⟩ := run_asked [0x61, NEWLINE, 0x62] (by decide) (by decide)
  have hl : Line [0x61, NEWLINE, 0x62] [0x61] [0x62] := ⟨rfl, by decide, by decide⟩
  rw [UcIa.search_line hb ⟨_, _, hl⟩] at hrun
  have hpassed : Passed [0x61] [0x61, NEWLINE] := ⟨by decide, NEWLINE, rfl, fun _ => rfl⟩
  obtain ⟨c₁, b₁, buf₁, hstep₁, hb₁, hc₁⟩ :=
    run_fetched ⟨b, [], .idle⟩ (.alloc BUFSZ BUFSZ_pos) hc rfl rfl rfl hb hl hpassed
  -- the line is answered
  obtain ⟨c₂, v₂, hrun₂, hc₂, hwq₂, hst₂, -⟩ := hc₁.exchange rfl rfl
    (isEcho_char (x := 0x61) (by decide)).completes
  obtain ⟨c₃, v₃, hrun₃, hc₃, -, hst₃, -⟩ :=
    hc₂.exchange hst₂ hwq₂ (isPrompt_x.completes (by decide))
  obtain ⟨c₄, hs₄, hc₄⟩ := hc₃.hand hst₃
  have hanswered := run_core hc₁ ((hrun₂.trans hrun₃).snoc hs₄)
    (by rw [lines_append, lines_replies]; rfl) (⟨b₁, [], .idle⟩, .hasdata) buf₁
  -- and the user is asked again
  have hno : ∀ line rest, ¬ Line [0x62] line rest := fun line rest hl => by
    have hmem : NEWLINE ∈ [(0x62 : UInt8)] := by rw [hl.split]; simp
    exact absurd hmem (by decide)
  have hask : Step ⟨c₄, (⟨b₁, [], .idle⟩, .hasdata), buf₁⟩ [] _ := .hasdata hc₄.2.1 (.hasdata rfl)
  rw [UcIa.search_none hb₁ hno] at hask
  have hrun' := ((hrun.snoc hstep₁).trans hanswered).snoc hask
  have hend := hrun'.snoc (.eof hc₄.2.1 rfl rfl)
  have heof := system_eof
    (t := ⟨[[0x61]], [0x62], by decide, by decide, by decide, by decide⟩) (by decide) hend rfl
  exact ⟨_, _, hend, rfl, heof.2⟩

end System

end Swh
