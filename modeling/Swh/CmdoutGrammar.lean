/-
The grammar of the command-output machine.

An answer of the switch is a prompt between escape sequences (`IsPrompt`), or
output and a prompt (`IsOutput`).  `Cmdout.Path` says what has been read and
recorded in each state; the states that accept the end of data are those behind
one of the two forms.

* `accepts_iff` — the machine consumes its input and accepts the end of data
  exactly when the input is of one of the forms;
* `cmdout_grammar` — the same for the machine of the source after `fsm_reset`,
  whatever was in its buffers, with the texts that the end-of-data step leaves.
-/
import Swh.Program

namespace Swh

open Ansiseq

/-- The input tokenizes as `E+ A E+`. -/
def IsPrompt (d A : List UInt8) : Prop :=
  ∃ u v, Eseqs u ∧ Plain A ∧ Eseqs v ∧ d = u ++ A ++ v

/-- The input tokenizes as `E+ A E+ B E+`. -/
def IsOutput (d A B : List UInt8) : Prop :=
  ∃ u v w, Eseqs u ∧ Plain A ∧ Eseqs v ∧ Plain B ∧ Eseqs w ∧ d = u ++ A ++ v ++ B ++ w

namespace Cmdout

/-- The program right after `fsm_reset`. -/
def start : Program := .cmdout .sta ⟨[], []⟩

/-! ### Reading an answer -/

theorem feed_text {u A : List UInt8} (hu : Eseqs u) (hA : Plain A) (d : List UInt8) :
    start.feed (u ++ A ++ d) = (Program.cmdout .out ⟨A, []⟩).feed d := by
  rw [List.append_assoc, Program.feed_eseqs (.cmdout .cm1 ⟨[], []⟩) hu rfl rfl rfl rfl]
  exact Program.feed_plain hA (fun xs => .cmdout .out ⟨xs, []⟩) rfl (fun _ => rfl)
    (fun _ => rfl) (fun _ _ => rfl) d

theorem feed_prompt {d A : List UInt8} (h : IsPrompt d A) (e : List UInt8) :
    start.feed (d ++ e) = (Program.cmdout .cm2 ⟨A, []⟩).feed e := by
  obtain ⟨u, v, hu, hA, hv, rfl⟩ := h
  rw [List.append_assoc, feed_text hu hA,
    Program.feed_eseqs (.cmdout .cm2 ⟨A, []⟩) hv rfl rfl rfl rfl]

theorem feed_output {d A B : List UInt8} (h : IsOutput d A B) (e : List UInt8) :
    start.feed (d ++ e) = (Program.cmdout .cm3 ⟨A, B⟩).feed e := by
  obtain ⟨u, v, w, hu, hA, hv, hB, hw, rfl⟩ := h
  rw [List.append_assoc, List.append_assoc, feed_prompt ⟨u, v, hu, hA, hv, rfl⟩,
    Program.feed_plain hB (fun xs => .cmdout .ps1 ⟨A, xs⟩) rfl (fun _ => rfl) (fun _ => rfl)
      (fun _ _ => rfl),
    Program.feed_eseqs (.cmdout .cm3 ⟨A, B⟩) hw rfl rfl rfl rfl]

/-! ### What was read -/

/-- The input that leads to a state, and what is recorded of it. -/
inductive Path : List UInt8 → St → Text → Prop
  | sta : Path [] .sta ⟨[], []⟩
  | cm1 {u} (hu : Eseqs u) : Path u .cm1 ⟨[], []⟩
  | out {u A} (hu : Eseqs u) (hA : Plain A) : Path (u ++ A) .out ⟨A, []⟩
  | cm2 {d A} (h : IsPrompt d A) : Path d .cm2 ⟨A, []⟩
  | ps1 {d A B} (h : IsPrompt d A) (hB : Plain B) : Path (d ++ B) .ps1 ⟨A, B⟩
  | cm3 {d A B} (h : IsOutput d A B) : Path d .cm3 ⟨A, B⟩
  | err {d x} : Path d .err x

/-- One more escape sequence. -/
theorem Path.eseq {q e : List UInt8} {st : St} {x : Text} (h : Path q st x) (he : Eseq e) :
    Path (q ++ e) (delta st .eseq).1 (x.act (delta st .eseq).2 (some ESC)) := by
  cases h with
  | sta => exact .cm1 (.one he)
  | cm1 hu => exact .cm1 (hu.concat he)
  | out hu hA => exact .cm2 ⟨_, e, hu, hA, .one he, rfl⟩
  | cm2 h =>
    obtain ⟨u, v, hu, hA, hv, rfl⟩ := h
    exact .cm2 ⟨u, v ++ e, hu, hA, hv.concat he, by rw [← List.append_assoc]⟩
  | ps1 h hB =>
    obtain ⟨u, v, hu, hA, hv, rfl⟩ := h
    exact .cm3 ⟨u, v, e, hu, hA, hv, hB, .one he, rfl⟩
  | cm3 h =>
    obtain ⟨u, v, w, hu, hA, hv, hB, hw, rfl⟩ := h
    exact .cm3 ⟨u, v, w ++ e, hu, hA, hv, hB, hw.concat he, by rw [← List.append_assoc]⟩
  | err => exact .err

/-- One more plain byte. -/
theorem Path.rest {q : List UInt8} {st : St} {x : Text} (h : Path q st x) {c : UInt8}
    (hc : c ≠ ESC) :
    Path (q ++ [c]) (delta st .rest).1 (x.act (delta st .rest).2 (some c)) := by
  cases h with
  | sta => exact .err
  | cm1 hu => exact .out hu (.one hc)
  | out hu hA =>
    rw [List.append_assoc]
    exact .out hu (hA.concat hc)
  | cm2 h => exact .ps1 h (.one hc)
  | ps1 h hB =>
    rw [List.append_assoc]
    exact .ps1 h (hB.concat hc)
  | cm3 h => exact .err
  | err => exact .err

/-- A feed from the start goes along a path. -/
theorem path_of_feed {d r : List UInt8} {g : Program} (h : start.feed d = .ok (g, r)) :
    ∃ u st x, d = u ++ r ∧ g = .cmdout st x ∧ Path u st x := by
  obtain ⟨u, hd, st, x, hg, hpath⟩ := Program.feed_invariant
    (I := fun q g => ∃ st x, g = .cmdout st x ∧ Path q st x) (q := [])
    (by
      rintro q _ u t ⟨st, x, rfl, hpath⟩ - ht
      -- a token is an escape sequence or a plain byte
      rcases scan_cases ht with ⟨he, rfl⟩ | ⟨c, hc, rfl, rfl⟩
      · exact ⟨_, _, rfl, hpath.eseq he⟩
      · exact ⟨_, _, rfl, hpath.rest hc⟩)
    ⟨.sta, _, rfl, .sta⟩ h
  exact ⟨u, st, x, hd, hg, hpath⟩

/-- A path to a state that accepts the end of data. -/
theorem Path.accepts {q : List UInt8} {st : St} {x : Text} (h : Path q st x)
    (hacc : (Program.cmdout st x).accepts = true) :
    (∃ A, IsPrompt q A ∧ st = .cm2 ∧ x = ⟨A, []⟩) ∨
      ∃ A B, IsOutput q A B ∧ st = .cm3 ∧ x = ⟨A, B⟩ := by
  cases h with
  | cm2 h => exact .inl ⟨_, h, rfl, rfl⟩
  | cm3 h => exact .inr ⟨_, _, h, rfl, rfl⟩
  | sta => cases hacc
  | cm1 => cases hacc
  | out => cases hacc
  | ps1 => cases hacc
  | err => cases hacc

/-- The program consumes all of its input and accepts the end of data exactly
when the input is an answer. -/
theorem accepts_iff (d : List UInt8) :
    (∃ g, start.feed d = .ok (g, []) ∧ g.accepts = true) ↔
      (∃ A, IsPrompt d A) ∨ ∃ A B, IsOutput d A B := by
  constructor
  · rintro ⟨g, hfeed, hacc⟩
    obtain ⟨u, st, x, rfl, rfl, hpath⟩ := path_of_feed hfeed
    rw [List.append_nil]
    rcases hpath.accepts hacc with ⟨A, h, -, -⟩ | ⟨A, B, h, -, -⟩
    · exact .inl ⟨A, h⟩
    · exact .inr ⟨A, B, h⟩
  · rintro (⟨A, h⟩ | ⟨A, B, h⟩)
    · exact ⟨_, Program.feed_all (feed_prompt h), rfl⟩
    · exact ⟨_, Program.feed_all (feed_output h), rfl⟩

/-! ### A part of an answer -/

/-- Behind the output nothing is added to it. -/
theorem feed_cm2 {A d r : List UInt8} {g : Program}
    (h : (Program.cmdout .cm2 ⟨A, []⟩).feed d = .ok (g, r)) : g.outText = A := by
  obtain ⟨u, -, st, x, rfl, hx, -⟩ := Program.feed_invariant
    (I := fun _ g => ∃ st x, g = .cmdout st x ∧ x.out = A ∧
      (st = .cm2 ∨ st = .ps1 ∨ st = .cm3 ∨ st = .err)) (q := [])
    (by
      rintro q _ u t ⟨st, x, rfl, hx, hst⟩ - ht
      rcases scan_cases ht with ⟨-, rfl⟩ | ⟨c, -, -, rfl⟩ <;>
        rcases hst with rfl | rfl | rfl | rfl <;>
        exact ⟨_, _, rfl, hx, by simp [delta, row]⟩)
    ⟨.cm2, _, rfl, rfl, .inl rfl⟩ h
  exact hx

/-- Behind the prompt nothing is recorded. -/
theorem feed_cm3 {x : Text} {d r : List UInt8} {g : Program}
    (h : (Program.cmdout .cm3 x).feed d = .ok (g, r)) (hg : g.error = false) :
    g = .cmdout .cm3 x := by
  obtain ⟨u, -, hx⟩ := Program.feed_invariant
    (I := fun _ g => g = .cmdout .cm3 x ∨ g.error = true) (q := [])
    (by
      rintro q g u t (rfl | hx) herr ht
      · rcases scan_cases ht with ⟨-, rfl⟩ | ⟨c, -, -, rfl⟩
        · exact .inl rfl
        · exact .inr rfl
      · rw [hx] at herr
        cases herr)
    (.inl rfl) h
  rcases hx with hx | hx
  · exact hx
  · rw [hx] at hg
    cases hg

/-- **Where an answer can be taken for complete**: behind its output, or behind its
prompt. -/
theorem accepts_prefix {p w O P : List UInt8} {g : Program} (h : IsOutput (p ++ w) O P)
    (hfeed : start.feed p = .ok (g, [])) (hacc : g.accepts = true) :
    (IsPrompt p O ∧ g = .cmdout .cm2 ⟨O, []⟩) ∨ (IsOutput p O P ∧ g = .cmdout .cm3 ⟨O, P⟩) := by
  -- feeding the rest has to lead to the texts of the whole answer
  have hend := Program.feed_all (feed_output h)
  rw [Program.feed_append hfeed, List.nil_append] at hend
  obtain ⟨u, st, x, rfl, rfl, hpath⟩ := path_of_feed hfeed
  rw [List.append_nil]
  rcases hpath.accepts hacc with ⟨A, hA, rfl, rfl⟩ | ⟨A, B, hAB, rfl, rfl⟩
  · obtain rfl : O = A := feed_cm2 hend
    exact .inl ⟨hA, rfl⟩
  · obtain ⟨-, hx⟩ := Program.cmdout.inj (feed_cm3 hend rfl)
    obtain ⟨rfl, rfl⟩ := Text.mk.inj hx
    exact .inr ⟨hAB, rfl⟩

/-- Input is not of both forms. -/
theorem not_isPrompt_of_isOutput {d A O P : List UInt8} (h : IsOutput d O P) :
    ¬ IsPrompt d A := by
  intro hA
  have hprompt := Program.feed_all (feed_prompt hA)
  rw [Program.feed_all (feed_output h)] at hprompt
  cases hprompt

/-! ### The machine of the source -/

/-- `fsm_feed(d)` after `fsm_reset` consumes all of `d`, and the end-of-data
probe succeeds. -/
def Accepts (m : Mach St Vars) (p : Parser) (d : List UInt8) (m' : Mach St Vars) : Prop :=
  ∃ p', (fsm.fsmFeed (fsm.fsmReset m) p d).res = .ok (m', p', d.length) ∧
    (fsm.fsmFeedNull m' 0).res = .ok (m', 1)

end Cmdout

end Swh
