/-
The grammar of the init machine.

`IsChat` is the opening chat as the table of fsm_init_hp.c describes it, and
`Init.Path` says what has been read in each state.

* `feed_chat` — the machine reads every such chat to its end;
* `Path.chat` — only such a chat is followed by the end of data.
-/
import Swh.Program

namespace Swh

open Ansiseq (ESC)

/-- The input tokenizes as `T+ E+ T+ E+ T+ E+ P E+`. -/
def IsChat (d P : List UInt8) : Prop :=
  ∃ t₁ e₁ t₂ e₂ t₃ e₃ e₄, Plain t₁ ∧ Eseqs e₁ ∧ Plain t₂ ∧ Eseqs e₂ ∧ Plain t₃ ∧ Eseqs e₃ ∧
    Plain P ∧ Eseqs e₄ ∧ d = t₁ ++ e₁ ++ t₂ ++ e₂ ++ t₃ ++ e₃ ++ P ++ e₄

theorem IsChat.ne_nil {d P : List UInt8} (h : IsChat d P) : d ≠ [] := by
  obtain ⟨t₁, e₁, t₂, e₂, t₃, e₃, e₄, ht₁, -, -, -, -, -, -, -, rfl⟩ := h
  simp [ht₁.1]

/-- A chat with any prompt. -/
theorem isChat_prompt {P : List UInt8} (hP : Plain P) :
    IsChat ([120, ESC, 65, 120, ESC, 65, 120, ESC, 65] ++ P ++ [ESC, 65]) P := by
  have he : Eseqs [ESC, 65] := .one rfl
  have ht : Plain [120] := .one (by decide)
  exact ⟨[120], _, [120], _, [120], _, _, ht, he, ht, he, ht, he, hP, he, rfl⟩

/-- The shortest chat. -/
theorem isChat_x : IsChat [120, ESC, 65, 120, ESC, 65, 120, ESC, 65, 36, ESC, 65] [36] :=
  isChat_prompt (.one (by decide))

namespace Init

/-- The program right after `init`. -/
def start : Program := .init .sta ⟨[], false, false⟩

/-- Reading an opening chat. -/
theorem feed_chat {d P : List UInt8} (h : IsChat d P) (e : List UInt8) :
    start.feed (d ++ e) = (Program.init .cm4 ⟨P, true, true⟩).feed e := by
  obtain ⟨t₁, e₁, t₂, e₂, t₃, e₃, e₄, ht₁, he₁, ht₂, he₂, ht₃, he₃, hP, he₄, rfl⟩ := h
  simp only [List.append_assoc]
  rw [start, Program.feed_plain ht₁ (fun _ => .init .lic ⟨[], false, false⟩) rfl (fun _ => rfl)
      (fun _ => rfl) (fun _ _ => rfl),
    Program.feed_eseqs (.init .cm1 ⟨[], false, false⟩) he₁ rfl rfl rfl rfl,
    Program.feed_plain ht₂ (fun _ => .init .any ⟨[], false, false⟩) rfl (fun _ => rfl)
      (fun _ => rfl) (fun _ _ => rfl),
    Program.feed_eseqs (.init .cm2 ⟨[], true, false⟩) he₂ rfl rfl rfl rfl,
    Program.feed_plain ht₃ (fun _ => .init .las ⟨[], true, true⟩) rfl (fun _ => rfl)
      (fun _ => rfl) (fun _ _ => rfl),
    Program.feed_eseqs (.init .cm3 ⟨[], true, true⟩) he₃ rfl rfl rfl rfl,
    Program.feed_plain hP (fun xs => .init .ps1 ⟨xs, true, true⟩) rfl (fun _ => rfl)
      (fun _ => rfl) (fun _ _ => rfl),
    Program.feed_eseqs (.init .cm4 ⟨P, true, true⟩) he₄ rfl rfl rfl rfl]

/-! ### What was read -/

/-- The input that leads to a state, and the prompt recorded of it. -/
inductive Path : List UInt8 → St → List UInt8 → Prop
  | sta : Path [] .sta []
  | lic {t} (ht : Plain t) : Path t .lic []
  | cm1 {t e} (ht : Plain t) (he : Eseqs e) : Path (t ++ e) .cm1 []
  | any {q t} (hq : Path q .cm1 []) (ht : Plain t) : Path (q ++ t) .any []
  | cm2 {q e} (hq : Path q .any []) (he : Eseqs e) : Path (q ++ e) .cm2 []
  | las {q t} (hq : Path q .cm2 []) (ht : Plain t) : Path (q ++ t) .las []
  | cm3 {q e} (hq : Path q .las []) (he : Eseqs e) : Path (q ++ e) .cm3 []
  | ps1 {q P} (hq : Path q .cm3 []) (hP : Plain P) : Path (q ++ P) .ps1 P
  | cm4 {q e P} (hq : Path q .ps1 P) (he : Eseqs e) : Path (q ++ e) .cm4 P
  | err {q P} : Path q .err P

variable {q P : List UInt8} {st : St} {x : Text}

theorem Path.eseq {e : List UInt8} (h : Path q st x.ps1) (he : Eseq e) :
    Path (q ++ e) (delta st .eseq).1 (x.act (delta st .eseq).2 (some ESC)).ps1 := by
  obtain ⟨P, k, r⟩ := x
  dsimp only at h
  cases h with
  | sta => exact .err
  | lic ht => exact .cm1 ht (.one he)
  | cm1 ht he' =>
    rw [List.append_assoc]
    exact .cm1 ht (he'.concat he)
  | any hq ht => exact .cm2 (.any hq ht) (.one he)
  | cm2 hq he' =>
    rw [List.append_assoc]
    exact .cm2 hq (he'.concat he)
  | las hq ht => exact .cm3 (.las hq ht) (.one he)
  | cm3 hq he' =>
    rw [List.append_assoc]
    exact .cm3 hq (he'.concat he)
  | ps1 hq hP' => exact .cm4 (.ps1 hq hP') (.one he)
  | cm4 hq he' =>
    rw [List.append_assoc]
    exact .cm4 hq (he'.concat he)
  | err => exact .err

theorem Path.rest {c : UInt8} (h : Path q st x.ps1) (hc : c ≠ ESC) :
    Path (q ++ [c]) (delta st .rest).1 (x.act (delta st .rest).2 (some c)).ps1 := by
  obtain ⟨P, k, r⟩ := x
  dsimp only at h
  cases h with
  | sta => exact .lic (.one hc)
  | lic ht => exact .lic (ht.concat hc)
  | cm1 ht he => exact .any (.cm1 ht he) (.one hc)
  | any hq ht =>
    rw [List.append_assoc]
    exact .any hq (ht.concat hc)
  | cm2 hq he => exact .las (.cm2 hq he) (.one hc)
  | las hq ht =>
    rw [List.append_assoc]
    exact .las hq (ht.concat hc)
  | cm3 hq he =>
    exact .ps1 (.cm3 hq he) (.one hc)
  | ps1 hq hP' =>
    rw [List.append_assoc]
    exact .ps1 hq (hP'.concat hc)
  | cm4 hq he => exact .err
  | err => exact .err

/-- Only a complete chat is followed by the end of data. -/
theorem Path.chat (h : Path q .cm4 P) : IsChat q P := by
  -- each state has one way in from the one before it
  obtain _ | _ | _ | _ | _ | _ | _ | _ | ⟨hps1, he₄⟩ := h
  obtain _ | _ | _ | _ | _ | _ | _ | ⟨hcm3, hP⟩ := hps1
  obtain _ | _ | _ | _ | _ | _ | ⟨hlas, he₃⟩ := hcm3
  obtain _ | _ | _ | _ | _ | ⟨hcm2, ht₃⟩ := hlas
  obtain _ | _ | _ | _ | ⟨hany, he₂⟩ := hcm2
  obtain _ | _ | _ | ⟨hcm1, ht₂⟩ := hany
  obtain _ | _ | ⟨ht₁, he₁⟩ := hcm1
  exact ⟨_, _, _, _, _, _, _, ht₁, he₁, ht₂, he₂, ht₃, he₃, hP, he₄, rfl⟩

theorem accepts_iff_cm4 {st : St} {x : Text} : (Program.init st x).accepts = true ↔ st = .cm4 := by
  cases st <;> simp [Program.accepts, Program.eod, Program.take, Program.error,
    Program.accepting, delta, row]

end Init

end Swh
