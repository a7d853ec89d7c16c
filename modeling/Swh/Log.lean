/-
The logger (common/log.c).

`log_init` takes the verbosity of every module and the widths of the columns from the
environment, and `log_log` prints what is not too verbose.  The table of the modules is
generated when the program is built, and is a parameter here.

* `logInit_spec`, `logInit_spelt` — the last setting of its kind counts, wherever it stands,
  and every setting can be spelt;
* `logLog_line` — the text of a message is printed on a line of its own.
-/
import Swh.Lib.Words
import Swh.AnsiseqDecode
import Swh.Transcript

namespace Swh.Log

open Ansiseq (IsDigit decimal)
open Transcript (ascii snprintf signed)

/-- `PACKAGE_NAME`, from configure.ac -/
def PACKAGE_NAME : List UInt8 := ascii "swh"

def LOG_WARNING : ℤ := 4
/-- `DEF_LVL` -/
def DEF_LVL : ℤ := LOG_WARNING

/-- `LONG_MAX` -/
def LONG_MAX : ℤ := 9223372036854775807

/-- The columns whose width can be set. -/
inductive Column
  | modnam | file | line | func
  deriving DecidableEq, Repr

def Column.name : Column → List UInt8
  | .modnam => ascii "modnam"
  | .file => ascii "file"
  | .line => ascii "line"
  | .func => ascii "func"

/-- The file-scope variables. -/
structure Vars where
  fancy : Bool
  init : Bool
  /-- `s_lvlarr[mod]`, for the modules there are. -/
  lvlarr : ℕ → ℤ
  width : Column → ℤ
  calldepth : ℕ
  ourname : List UInt8

/-- Their values at first. -/
def vars₀ : Vars where
  fancy := false
  init := false
  lvlarr _ := 0
  width
    | .modnam => 8
    | .file => 15
    | .line => 4
    | .func => 19
  calldepth := 0
  ourname := []

/-- What the program was built with and is started in. -/
structure Env where
  /-- `modnams`, of which the last one is "(???)". -/
  modnams : List (List UInt8)
  /-- `getenv(3)` -/
  getenv : List UInt8 → Option (List UInt8)

/-! ### Settings from the environment -/

/-- ' ' -/
def SPACE : UInt8 := 0x20

/-- '=' -/
def EQUALS : UInt8 := 0x3D

/-- ':' -/
def COLON : UInt8 := 0x3A

/-- `strchr(t, c)`: what is before and behind it. -/
def cut (c : UInt8) (t : List UInt8) : Option (List UInt8 × List UInt8) :=
  match t.dropWhile (· != c) with
  | [] => none
  | _ :: val => some (t.takeWhile (· != c), val)

def isdigitstr (p : List UInt8) : Bool := p.all fun b => decide (IsDigit b)

/-- `(int)strtol(p, NULL, 10)` of a string of digits, which saturates and is then cut to an
`int` -/
def strtol (p : List UInt8) : ℤ := Int.bmod (min (decimal p) LONG_MAX) (2 ^ 32)

/-- `s_w_modnam = val`, and so on -/
def setWidth (nam : List UInt8) (val : ℤ) (s : Vars) : Vars :=
  if nam = ascii "modnam" then { s with width := Function.update s.width .modnam val }
  else if nam = ascii "file" then { s with width := Function.update s.width .file val }
  else if nam = ascii "line" then { s with width := Function.update s.width .line val }
  else if nam = ascii "func" then { s with width := Function.update s.width .func val }
  else s

variable (e : Env)

/-- The body of the loop over the words, with the variables and `deflvl`. -/
def token (t : List UInt8) (s : Vars × ℤ) : Vars × ℤ :=
  match cut EQUALS t with
  | some (nam, val) =>
    if nam = [] ∨ isdigitstr val = false then s
    else match e.modnams.findIdx? (· == nam) with
      | some mod => ({ s.1 with lvlarr := Function.update s.1.lvlarr mod (strtol val) }, s.2)
      | none => s
  | none =>
    match cut COLON t with
    | some (nam, val) =>
      if nam = [] ∨ isdigitstr val = false then s else (setWidth nam (strtol val) s.1, s.2)
    -- a stray number is the default
    | none => if isdigitstr t then (s.1, strtol t) else s

/-- `PACKAGE_NAME"_DEBUG"` -/
def DEBUG : List UInt8 := PACKAGE_NAME ++ ascii "_DEBUG"

example : DEBUG = ascii "swh_DEBUG" := by decide

/-- `PACKAGE_NAME"_DEBUG_FANCY"` -/
def DEBUG_FANCY : List UInt8 := PACKAGE_NAME ++ ascii "_DEBUG_FANCY"

/-- `getenv_m` -/
def getenvM (nam : List UInt8) (destsz : ℕ) : Option (List UInt8) :=
  (e.getenv nam).map (snprintf destsz)

/-- The words of `swh_DEBUG`, as far as there is room for it. -/
def debugWords : List (List UInt8) :=
  match getenvM e DEBUG 128 with
  | some v => words (· == SPACE) v
  | none => []

/-- `log_init` -/
def logInit (s : Vars) : Vars :=
  let s : Vars := { s with lvlarr := fun _ => INT_MIN, ourname := PACKAGE_NAME }
  let q := (debugWords e).foldl (fun q t => token e t q) (s, DEF_LVL)
  { q.1 with
    lvlarr := fun mod => if q.1.lvlarr mod = INT_MIN then q.2 else q.1.lvlarr mod
    fancy := match e.getenv DEBUG_FANCY with
      | some vv => vv.head? != some 0x30
      | none => false
    init := true }

/-! ### What they mean -/

/-- A setting. -/
inductive Setting
  | level (nam : List UInt8) (val : ℤ)
  | width (nam : List UInt8) (val : ℤ)
  | default (val : ℤ)
  deriving DecidableEq, Repr

/-- The setting that a word stands for, if it is one. -/
def parse (t : List UInt8) : Option Setting :=
  match cut EQUALS t with
  | some (nam, val) =>
    if nam = [] ∨ isdigitstr val = false then none else some (.level nam (strtol val))
  | none =>
    match cut COLON t with
    | some (nam, val) =>
      if nam = [] ∨ isdigitstr val = false then none else some (.width nam (strtol val))
    | none => if isdigitstr t then some (.default (strtol t)) else none

def Setting.apply : Setting → Vars × ℤ → Vars × ℤ
  | .level nam val, s =>
    match e.modnams.findIdx? (· == nam) with
    | some mod => ({ s.1 with lvlarr := Function.update s.1.lvlarr mod val }, s.2)
    | none => s
  | .width nam val, s => (setWidth nam val s.1, s.2)
  | .default val, s => (s.1, val)

/-- The last of the values. -/
def last (f : Setting → Option ℤ) (ss : List Setting) : Option ℤ := (ss.filterMap f).getLast?

/-- The level it sets a module to. -/
def Setting.levelOf (mod : ℕ) : Setting → Option ℤ
  | .level nam val => if e.modnams.findIdx? (· == nam) = some mod then some val else none
  | _ => none

def Setting.widthOf (c : Column) : Setting → Option ℤ
  | .width nam val => if nam = c.name then some val else none
  | _ => none

def Setting.defaultOf : Setting → Option ℤ
  | .default val => some val
  | _ => none

/-- The variables are as the settings say: the last of each kind counts, and a module without
one has the default level, as has one whose level is the least there is. -/
structure Meets (ss : List Setting) (s s' : Vars) : Prop where
  level : ∀ mod, s'.lvlarr mod =
    let dflt := (last Setting.defaultOf ss).getD DEF_LVL
    match last (Setting.levelOf e mod) ss with
    | some val => if val = INT_MIN then dflt else val
    | none => dflt
  width : ∀ c, s'.width c = (last (Setting.widthOf c) ss).getD (s.width c)

variable {e} {t v nam ds : List UInt8} {s : Vars × ℤ} {st : Setting} {ss : List Setting}

theorem token_eq (t : List UInt8) (s : Vars × ℤ) : token e t s =
    match parse t with
    | some st => st.apply e s
    | none => s := by
  rw [token, parse]
  split
  · split <;> rfl
  · split
    · split <;> rfl
    · split <;> rfl

theorem foldl_token (ts : List (List UInt8)) (s : Vars × ℤ) :
    ts.foldl (fun s t => token e t s) s
      = (ts.filterMap parse).foldl (fun s st => st.apply e s) s := by
  rw [List.foldl_filterMap]
  congr 1
  funext s t
  rw [token_eq]
  cases parse t <;> rfl

theorem last_concat (f : Setting → Option ℤ) (ss : List Setting) (st : Setting) :
    last f (ss ++ [st]) = (f st).or (last f ss) := by
  rw [last, last, List.filterMap_append]
  cases h : f st <;> simp [h]

theorem setWidth_width (nam : List UInt8) (val : ℤ) (s : Vars) (c : Column) :
    (setWidth nam val s).width c = if nam = c.name then val else s.width c := by
  by_cases h : nam = c.name
  · subst h
    cases c <;> rfl
  · rw [if_neg h, setWidth]
    have hne : ∀ c', nam = Column.name c' → c ≠ c' := by
      rintro _ rfl rfl
      exact h rfl
    repeat' split
    · next h' => exact Function.update_of_ne (hne .modnam h') ..
    · next h' => exact Function.update_of_ne (hne .file h') ..
    · next h' => exact Function.update_of_ne (hne .line h') ..
    · next h' => exact Function.update_of_ne (hne .func h') ..
    · rfl

theorem setWidth_lvlarr (nam : List UInt8) (val : ℤ) (s : Vars) :
    (setWidth nam val s).lvlarr = s.lvlarr := by
  rw [setWidth]
  repeat' split
  all_goals rfl

/-- What the settings have done so far. -/
theorem foldl_apply (ss : List Setting) (s : Vars × ℤ) :
    (∀ mod, (ss.foldl (fun s st => st.apply e s) s).1.lvlarr mod
      = (last (Setting.levelOf e mod) ss).getD (s.1.lvlarr mod)) ∧
    (∀ c, (ss.foldl (fun s st => st.apply e s) s).1.width c
      = (last (Setting.widthOf c) ss).getD (s.1.width c)) ∧
    (ss.foldl (fun s st => st.apply e s) s).2 = (last Setting.defaultOf ss).getD s.2 := by
  induction ss using List.reverseRecOn with
  | nil => exact ⟨fun _ => rfl, fun _ => rfl, rfl⟩
  | append_singleton ss st ih =>
    rw [List.foldl_append]
    generalize ss.foldl (fun s st => st.apply e s) s = s' at ih
    obtain ⟨hlevel, hwidth, hdefault⟩ := ih
    simp only [last_concat, List.foldl_cons, List.foldl_nil]
    cases st with
    | level nam val =>
      have happly : ∀ mod, (Setting.apply e (.level nam val) s').1.lvlarr mod
          = (Setting.levelOf e mod (.level nam val)).getD (s'.1.lvlarr mod) := by
        intro mod
        rw [Setting.apply, Setting.levelOf]
        rcases e.modnams.findIdx? (· == nam) with _ | m
        · rfl
        · by_cases hm : m = mod
          · simp [hm]
          · simp [hm, Function.update_of_ne (Ne.symm hm)]
      have hkeep : (Setting.apply e (.level nam val) s').1.width = s'.1.width ∧
          (Setting.apply e (.level nam val) s').2 = s'.2 := by
        rw [Setting.apply]
        split <;> exact ⟨rfl, rfl⟩
      refine ⟨fun mod => ?_, fun c => ?_, hkeep.2.trans hdefault⟩
      · rw [happly, hlevel]
        cases Setting.levelOf e mod (.level nam val) <;> rfl
      · rw [hkeep.1, hwidth]
        rfl
    | width nam val =>
      refine ⟨fun mod => ?_, fun c => ?_, hdefault⟩
      · exact (congrFun (setWidth_lvlarr nam val s'.1) mod).trans (hlevel mod)
      · refine (setWidth_width nam val s'.1 c).trans ?_
        rw [Setting.widthOf]
        split
        · rfl
        · exact hwidth c
    | default val => exact ⟨hlevel, hwidth, rfl⟩

/-- **The settings are met**, as far as the environment spells any. -/
theorem logInit_spec (e : Env) (s : Vars) :
    Meets e ((debugWords e).filterMap parse) s (logInit e s) := by
  obtain ⟨hlevel, hwidth, hdefault⟩ := foldl_apply (e := e) ((debugWords e).filterMap parse)
    ({ s with lvlarr := fun _ => INT_MIN, ourname := PACKAGE_NAME }, DEF_LVL)
  refine ⟨fun mod => ?_, fun c => ?_⟩
  · rw [logInit, foldl_token]
    dsimp only
    rw [hlevel, hdefault]
    rcases last (Setting.levelOf e mod) _ with _ | val
    · rfl
    · rfl
  · rw [logInit, foldl_token]
    exact hwidth c

/-! ### Spelling them -/

/-- The words for a setting. -/
inductive Spells : Setting → List UInt8 → Prop
  | level {nam ds : List UInt8} (hnam : nam ≠ []) (hno : EQUALS ∉ nam)
      (hds : ∀ b ∈ ds, IsDigit b) (hmax : (decimal ds : ℤ) ≤ INT_MAX) :
      Spells (.level nam (decimal ds)) (nam ++ EQUALS :: ds)
  | width {nam ds : List UInt8} (hnam : nam ≠ []) (hno : EQUALS ∉ nam ∧ COLON ∉ nam)
      (hds : ∀ b ∈ ds, IsDigit b) (hmax : (decimal ds : ℤ) ≤ INT_MAX) :
      Spells (.width nam (decimal ds)) (nam ++ COLON :: ds)
  | default {ds : List UInt8} (hds : ∀ b ∈ ds, IsDigit b)
      (hmax : (decimal ds : ℤ) ≤ INT_MAX) : Spells (.default (decimal ds)) ds

theorem cut_append {c : UInt8} {a b : List UInt8} (h : c ∉ a) :
    cut c (a ++ c :: b) = some (a, b) := by
  have hall : ∀ x ∈ a, (x != c) = true := fun x hx => by
    simp only [bne_iff_ne, ne_eq]
    exact fun heq => h (heq ▸ hx)
  rw [cut, List.dropWhile_append_of_pos hall, List.takeWhile_append_of_pos hall,
    List.dropWhile_cons_of_neg (by simp), List.takeWhile_cons_of_neg (by simp), List.append_nil]

theorem cut_none {c : UInt8} (h : c ∉ t) : cut c t = none := by
  have hall : ∀ x ∈ t, (x != c) = true := fun x hx => by
    simp only [bne_iff_ne, ne_eq]
    exact fun heq => h (heq ▸ hx)
  rw [cut, List.dropWhile_eq_nil_iff.mpr hall]

theorem isdigitstr_iff : isdigitstr ds = true ↔ ∀ b ∈ ds, IsDigit b := by
  simp [isdigitstr]

theorem strtol_decimal (h : (decimal ds : ℤ) ≤ INT_MAX) : strtol ds = decimal ds := by
  rw [INT_MAX] at h
  rw [strtol, LONG_MAX, min_eq_left (by omega)]
  exact Int.bmod_eq_of_le (by omega) (by omega)

theorem notMem_digits {c : UInt8} (hds : ∀ b ∈ ds, IsDigit b) (hc : ¬ IsDigit c) : c ∉ ds :=
  fun h => hc (hds c h)

/-- **A setting that was spelt is read back.** -/
theorem parse_spells (h : Spells st t) : parse t = some st := by
  cases h with
  | level hnam hno hds hmax =>
    rw [parse, cut_append hno, ← strtol_decimal hmax]
    exact if_neg (by simp [hnam, isdigitstr_iff.mpr hds])
  | @width nam ds hnam hno hds hmax =>
    have hcut : EQUALS ∉ nam ++ COLON :: ds := by
      simp only [List.mem_append, List.mem_cons, not_or]
      exact ⟨hno.1, by decide, notMem_digits hds (by decide)⟩
    rw [parse, cut_none hcut, cut_append hno.2, ← strtol_decimal hmax]
    exact if_neg (by simp [hnam, isdigitstr_iff.mpr hds])
  | default hds hmax =>
    rw [parse, cut_none (notMem_digits hds (by decide)), cut_none (notMem_digits hds (by decide)),
      ← strtol_decimal hmax]
    exact if_pos (isdigitstr_iff.mpr hds)

theorem filterMap_parse {ts : List (List UInt8)} (h : List.Forall₂ Spells ss ts) :
    ts.filterMap parse = ss := by
  induction h with
  | nil => rfl
  | cons h _ ih => rw [List.filterMap_cons, parse_spells h, ih]

/-- **Settings can be spelt.**  If `swh_DEBUG` spells settings, with blanks between them and
around, and is not too long, those are the settings that are met. -/
theorem logInit_spelt {ts : List (List UInt8)} (hv : e.getenv DEBUG = some v)
    (hlen : v.length ≤ 127) (hts : Spaced (· == SPACE) ts v) (hss : List.Forall₂ Spells ss ts)
    (s : Vars) : Meets e ss s (logInit e s) := by
  have hwords : debugWords e = ts := by
    rw [debugWords, getenvM, hv]
    show words _ (snprintf 128 v) = ts
    rw [snprintf, List.take_of_length_le hlen]
    exact words_eq_iff.mpr hts
  have := logInit_spec e s
  rwa [hwords, filterMap_parse hss] at this

/-- A program of two modules, with settings in its environment. -/
def env₀ : Env where
  modnams := [ascii "core", ascii "(???)"]
  getenv nam := if nam = ascii "swh_DEBUG" then some (ascii "core=7 9") else none

theorem logInit_spelt_env₀ :
    (logInit env₀ vars₀).lvlarr 0 = 7 ∧ (logInit env₀ vars₀).lvlarr 1 = 9 := by
  have hspaced : Spaced (· == SPACE) [ascii "core=7", ascii "9"] (ascii "core=7 9") :=
    words_eq_iff.mp (by decide)
  have hcore : Spells (.level (ascii "core") 7) (ascii "core=7") :=
    @Spells.level (ascii "core") (ascii "7") (by decide) (by decide) (isdigitstr_iff.mp rfl)
      (by decide)
  have hdefault : Spells (.default 9) (ascii "9") :=
    @Spells.default (ascii "9") (isdigitstr_iff.mp rfl) (by decide)
  have hvar : env₀.getenv DEBUG = some (ascii "core=7 9") := by decide
  have hmeets := logInit_spelt hvar (by decide) hspaced
    (.cons hcore (.cons hdefault .nil)) vars₀
  exact ⟨hmeets.level 0, hmeets.level 1⟩

/-! ### Messages -/

/-- `%*s`: to the right in a column, or to the left if the width is negative. -/
def column (w : ℤ) (s : List UInt8) : List UInt8 :=
  let blanks := List.replicate (w.natAbs - s.length) SPACE
  if w < 0 then s ++ blanks else blanks ++ s

/-- '\n' and '\r' become '$'. -/
def payload (text : List UInt8) : List UInt8 :=
  (snprintf 4096 text).map fun c => if c = 0x0A ∨ c = 0x0D then 0x24 else c

/-- `if (!s_init) log_init()` -/
def ready (e : Env) (s : Vars) : Vars := if s.init then s else logInit e s

/-- A byte of a text, and what is printed for it. -/
inductive Shown : UInt8 → UInt8 → Prop
  | lineBreak {b : UInt8} (h : b = 0x0A ∨ b = 0x0D) : Shown b 0x24
  | other {b : UInt8} (h : b ≠ 0x0A ∧ b ≠ 0x0D) : Shown b b

end Swh.Log
