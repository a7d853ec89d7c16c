/-
The start of the program (init.c, `core_init` of core.c, and the lookups by name).

`getopt` is not ours: the options and the operands that it finds are what `process_args` is
given.

* `init_starts` — which command lines the program starts with, and what it is set to then;
* `floor_isGreatest` — what a verbosity that cannot fall below zero comes to.
-/
import Swh.Log

namespace Swh.Main

open Transcript (ascii snprintf)
open Log (Vars Env logInit vars₀)

/-- What `getopt` returns. -/
inductive Opt
  | s (optarg : List UInt8)
  | S
  | x (optarg : List UInt8)
  | X
  | c
  | v
  | q
  | h
  /-- '?' -/
  | unknown

/-- The ways out before the switch is talked to. -/
inductive Quit
  /-- `exit(0)`, with these lines on stdout. -/
  | listed (names : List (List UInt8))
  /-- `usage` exits with `ec`. -/
  | usage (ec : ℕ)
  /-- "argument missing (switch hostname or address)" -/
  | argumentMissing
  /-- "could not find '%s' to attach" -/
  | notFound (ifname : List UInt8)
  /-- "could not find uc '%s' to attach" -/
  | ucNotFound (ifname : List UInt8)
  /-- The level `v` that `update_logger` computes is no `int`. -/
  | overflow (v : ℤ)

def AUTO : List UInt8 := ascii "auto"
def IA : List UInt8 := ascii "ia"
def HP : List UInt8 := ascii "hp"

/-- frontends.h -/
def frontends : List (List UInt8) := [IA]

/-- backends.h -/
def backends : List (List UInt8) := [HP]

/-- The file-scope variables of init.c, and those of log.c. -/
structure Args where
  /-- `s_ux` -/
  ux : List UInt8
  /-- `s_sx` -/
  sx : List UInt8
  host : List UInt8
  log : Vars

/-- What was attached, as places in the tables of names. -/
structure Attached where
  fsmInit : ℕ
  fsmCmdout : ℕ
  fsmInchar : ℕ
  uc : ℕ
  deriving DecidableEq, Repr

/-! ### The command line -/

/-- `log_setlvl_all` -/
def logSetlvlAll (lvl : ℤ) (s : Vars) : Vars := { s with lvlarr := fun _ => lvl }

/-- `log_setfancy` -/
def logSetfancy (fancy : Bool) (s : Vars) : Vars := { s with fancy := fancy }

/-- `log_set_ourname` -/
def logSetOurname (name : List UInt8) (s : Vars) : Vars := { s with ourname := snprintf 32 name }

/-- `update_logger`; the module this is called `MOD_INIT`. -/
def updateLogger (MOD_INIT : ℕ) (verb fancy : ℤ) (s : Vars) : Except Quit Vars :=
  let v := s.lvlarr MOD_INIT + verb
  if INT_MIN ≤ v ∧ v ≤ INT_MAX then
    let v := if v < 0 then 0 else v
    let fancy := if fancy = -1 then s.fancy else fancy != 0
    .ok (logSetlvlAll v (logSetfancy fancy s))
  else .error (.overflow v)

/-- The body of the loop over the options. -/
def option (MOD_INIT : ℕ) (o : Opt) (a : Args) : Except Quit Args :=
  match o with
  | .s optarg => .ok { a with sx := snprintf 32 optarg }
  | .S => .error (.listed backends)
  | .x optarg => .ok { a with ux := snprintf 32 optarg }
  | .X => .error (.listed frontends)
  | .c => (updateLogger MOD_INIT 0 1 a.log).map fun s => { a with log := s }
  | .v => (updateLogger MOD_INIT 1 (-1) a.log).map fun s => { a with log := s }
  | .q => (updateLogger MOD_INIT (-1) (-1) a.log).map fun s => { a with log := s }
  | .h => .error (.usage 0)
  | .unknown => .error (.usage 1)

/-- The loop over the options. -/
def options (MOD_INIT : ℕ) : List Opt → Args → Except Quit Args
  | [], a => .ok a
  | o :: opts, a => option MOD_INIT o a >>= options MOD_INIT opts

/-- `process_args` -/
def processArgs (MOD_INIT : ℕ) (opts : List Opt) (argv : List (List UInt8)) (a : Args) :
    Except Quit Args := do
  let a ← options MOD_INIT opts a
  match argv with
  | [] => .error .argumentMissing
  | host :: _ =>
    .ok { a with
      host := snprintf 256 host
      ux := if a.ux = AUTO then IA else a.ux
      sx := if a.sx = AUTO then HP else a.sx }

/-- Looking a name up, to attach what has it. -/
def attach (table : List (List UInt8)) (complaint : Quit) (ifname : List UInt8) :
    Except Quit ℕ :=
  match table.findIdx? (· == ifname) with
  | some i => .ok i
  | none => .error complaint

/-- `fsm_init_attach` -/
def fsmInitAttach (ifname : List UInt8) : Except Quit ℕ :=
  attach backends (.notFound ifname) ifname

/-- `fsm_cmdout_attach` -/
def fsmCmdoutAttach (ifname : List UInt8) : Except Quit ℕ :=
  attach backends (.notFound ifname) ifname

/-- `fsm_inchar_attach` -/
def fsmIncharAttach (ifname : List UInt8) : Except Quit ℕ :=
  attach backends (.notFound ifname) ifname

/-- `uc_attach` -/
def ucAttach (ifname : List UInt8) : Except Quit ℕ :=
  attach frontends (.ucNotFound ifname) ifname

/-- `core_init`, with the lookups of `sc_init` -/
def coreInit (frontend backend : List UInt8) : Except Quit Attached := do
  let fsmInit ← fsmInitAttach backend
  let fsmCmdout ← fsmCmdoutAttach backend
  let fsmInchar ← fsmIncharAttach backend
  let uc ← ucAttach frontend
  .ok ⟨fsmInit, fsmCmdout, fsmInchar, uc⟩

/-- What `process_args` begins with. -/
def args₀ (e : Env) : Args := ⟨AUTO, AUTO, [], logSetOurname Log.PACKAGE_NAME (logInit e vars₀)⟩

/-- `init` -/
def init (e : Env) (MOD_INIT : ℕ) (opts : List Opt) (argv : List (List UInt8)) :
    Except Quit (Args × Attached) := do
  let a ← processArgs MOD_INIT opts argv (args₀ e)
  let at' ← coreInit a.ux a.sx
  .ok (a, at')

/-! ### What it comes to -/

/-- The options that end the program. -/
def Opt.leaves : Opt → Bool
  | .S | .X | .h | .unknown => true
  | _ => false

/-- By how much an option makes the program more verbose. -/
def Opt.verb : Opt → Option ℤ
  | .c => some 0
  | .v => some 1
  | .q => some (-1)
  | _ => none

def Opt.sxOf : Opt → Option (List UInt8)
  | .s optarg => some optarg
  | _ => none

def Opt.uxOf : Opt → Option (List UInt8)
  | .x optarg => some optarg
  | _ => none

def Opt.fancy : Opt → Bool
  | .c => true
  | _ => false

/-- The name that was given last. -/
def named (f : Opt → Option (List UInt8)) (opts : List Opt) : List UInt8 :=
  (opts.filterMap f).getLast?.getD AUTO

/-- Steps from `l`, but not below zero. -/
def floor (l : ℤ) (ds : List ℤ) : ℤ := ds.foldl (fun l d => max 0 (l + d)) l

/-- None of the steps leads out of the range of an `int`. -/
def Fits : ℤ → List ℤ → Prop
  | _, [] => True
  | l, d :: ds => (INT_MIN ≤ l + d ∧ l + d ≤ INT_MAX) ∧ Fits (max 0 (l + d)) ds

/-- The command lines that the program starts with, at the level `l` of its environment. -/
structure Accepts (opts : List Opt) (argv : List (List UInt8)) (l : ℤ) : Prop where
  stays : ∀ o ∈ opts, o.leaves = false
  host : argv ≠ []
  frontend : named Opt.uxOf opts = AUTO ∨ named Opt.uxOf opts = IA
  backend : named Opt.sxOf opts = AUTO ∨ named Opt.sxOf opts = HP
  fits : Fits l (opts.filterMap Opt.verb)

/-- What the program is set to.  The first of the options that change how verbose it is makes
all modules as verbose as `MOD_INIT`, and whenever the level would be negative it is zero: so
it is the greatest of what the options make of `MOD_INIT`'s, and what the later ones among
them make of zero. -/
structure Configured (e : Env) (MOD_INIT : ℕ) (opts : List Opt) (argv : List (List UInt8))
    (a : Args) : Prop where
  host : argv.head?.map (snprintf 256) = some a.host
  frontend : a.ux = IA
  backend : a.sx = HP
  plain : opts.filterMap Opt.verb = [] → a.log.lvlarr = (logInit e vars₀).lvlarr
  verbose : ∀ d ds, opts.filterMap Opt.verb = d :: ds → ∀ mod,
    IsGreatest {x | x = (logInit e vars₀).lvlarr MOD_INIT + (d + ds.sum) ∨
      ∃ t, t <:+ ds ∧ x = t.sum} (a.log.lvlarr mod)
  fancy : a.log.fancy = ((logInit e vars₀).fancy || opts.any Opt.fancy)
  width : a.log.width = (logInit e vars₀).width

variable {e : Env} {MOD_INIT : ℕ} {opts : List Opt} {argv : List (List UInt8)}
  {o : Opt} {a a' : Args}

/-! ### The verbosity -/

theorem floor_concat (l d : ℤ) (ds : List ℤ) :
    floor l (ds ++ [d]) = max 0 (floor l ds + d) := by
  rw [floor, List.foldl_append]
  rfl

/-- **A level that cannot fall below zero** is as if it had begun at `l`, or at zero behind
any of the steps, whichever is more. -/
theorem floor_isGreatest (l d : ℤ) (ds : List ℤ) :
    IsGreatest {x | x = l + (d + ds.sum) ∨ ∃ t, t <:+ ds ∧ x = t.sum} (floor l (d :: ds)) := by
  induction ds using List.reverseRecOn with
  | nil =>
    show IsGreatest _ (max 0 (l + d))
    refine ⟨?_, ?_⟩
    · rcases le_total 0 (l + d) with h | h
      · exact .inl (by simp [h])
      · exact .inr ⟨[], List.suffix_refl _, by simp [h]⟩
    · rintro x (rfl | ⟨t, ht, rfl⟩)
      · simp
      · simp [List.suffix_nil.mp ht]
  | append_singleton ds d' ih =>
    rw [← List.cons_append, floor_concat]
    obtain ⟨hmem, hmax⟩ := ih
    refine ⟨?_, ?_⟩
    · rcases le_total 0 (floor l (d :: ds) + d') with h | h
      · rw [max_eq_right h]
        rcases hmem with hx | ⟨t, ht, hx⟩
        · exact .inl (by rw [hx, List.sum_append, List.sum_singleton]; omega)
        · obtain ⟨u, hu⟩ := ht
          exact .inr ⟨t ++ [d'], ⟨u, by rw [← List.append_assoc, hu]⟩,
            by rw [hx, List.sum_append, List.sum_singleton]⟩
      · exact .inr ⟨[], List.nil_suffix, by rw [max_eq_left h]; rfl⟩
    · rintro x (rfl | ⟨t, ht, rfl⟩)
      · have := hmax (.inl rfl)
        rw [List.sum_append, List.sum_singleton]
        exact le_max_of_le_right (by omega)
      · rcases List.suffix_concat_iff.mp ht with rfl | ⟨u, rfl, hu⟩
        · exact le_max_left ..
        · have := hmax (.inr ⟨u, hu, rfl⟩)
          rw [List.sum_append, List.sum_singleton]
          exact le_max_of_le_right (by omega)

theorem fits_append (ds ds' : List ℤ) (l : ℤ) :
    Fits l (ds ++ ds') ↔ Fits l ds ∧ Fits (floor l ds) ds' := by
  induction ds generalizing l with
  | nil => exact ⟨fun h => ⟨trivial, h⟩, fun h => h.2⟩
  | cons d ds ih =>
    rw [List.cons_append, Fits, ih]
    exact and_assoc.symm

/-! ### The options -/

/-- What the options have done. -/
structure Processed (MOD_INIT : ℕ) (opts : List Opt) (a a' : Args) : Prop where
  sx : a'.sx = ((opts.filterMap Opt.sxOf).getLast?.map (snprintf 32)).getD a.sx
  ux : a'.ux = ((opts.filterMap Opt.uxOf).getLast?.map (snprintf 32)).getD a.ux
  level : ∀ mod, a'.log.lvlarr mod = if opts.filterMap Opt.verb = [] then a.log.lvlarr mod
    else floor (a.log.lvlarr MOD_INIT) (opts.filterMap Opt.verb)
  fancy : a'.log.fancy = (a.log.fancy || opts.any Opt.fancy)
  width : a'.log.width = a.log.width

theorem Processed.nil (a : Args) : Processed MOD_INIT [] a a :=
  ⟨rfl, rfl, fun _ => rfl, (Bool.or_false _).symm, rfl⟩

theorem Processed.level_init (h : Processed MOD_INIT opts a a') :
    a'.log.lvlarr MOD_INIT = floor (a.log.lvlarr MOD_INIT) (opts.filterMap Opt.verb) := by
  rw [h.level]
  split
  · next hnil => rw [hnil]; rfl
  · rfl

theorem Processed.append {opts' : List Opt} {a'' : Args} (h : Processed MOD_INIT opts a a')
    (h' : Processed MOD_INIT opts' a' a'') : Processed MOD_INIT (opts ++ opts') a a'' := by
  refine ⟨?_, ?_, fun mod => ?_, ?_, h'.width.trans h.width⟩
  · rw [h'.sx, h.sx, List.filterMap_append, List.getLast?_append]
    cases (opts'.filterMap Opt.sxOf).getLast? <;> rfl
  · rw [h'.ux, h.ux, List.filterMap_append, List.getLast?_append]
    cases (opts'.filterMap Opt.uxOf).getLast? <;> rfl
  · rw [h'.level, List.filterMap_append, h.level_init, h.level]
    rcases opts'.filterMap Opt.verb with _ | ⟨d, ds⟩
    · rw [if_pos rfl, List.append_nil]
    · rw [if_neg (List.cons_ne_nil d ds), if_neg (by simp), floor, floor, floor, List.foldl_append]
  · rw [h'.fancy, h.fancy, List.any_append, Bool.or_assoc]

theorem updateLogger_ok {verb fancy : ℤ} {s s' : Vars}
    (h : updateLogger MOD_INIT verb fancy s = .ok s') :
    s' = { s with
      lvlarr := fun _ => floor (s.lvlarr MOD_INIT) [verb]
      fancy := if fancy = -1 then s.fancy else fancy != 0 } := by
  rw [updateLogger] at h
  dsimp only at h
  split at h
  · rw [← Except.ok.inj h, logSetlvlAll, logSetfancy]
    congr 1
    funext _
    show _ = max 0 _
    split <;> omega
  · cases h

theorem updateLogger_isOk {verb fancy : ℤ} {s : Vars} :
    (∃ s', updateLogger MOD_INIT verb fancy s = .ok s') ↔ Fits (s.lvlarr MOD_INIT) [verb] := by
  rw [updateLogger]
  dsimp only
  split
  · next h => exact ⟨fun _ => ⟨h, trivial⟩, fun _ => ⟨_, rfl⟩⟩
  · next h => exact ⟨nofun, fun h' => absurd h'.1 h⟩

theorem option_processed (h : option MOD_INIT o a = .ok a') : Processed MOD_INIT [o] a a' := by
  have hlog : ∀ {verb fancy : ℤ}, o.verb = some verb → o.sxOf = none → o.uxOf = none →
      (o.fancy = decide (fancy = 1)) → fancy = 1 ∨ fancy = -1 →
      (updateLogger MOD_INIT verb fancy a.log).map (fun s => { a with log := s }) = .ok a' →
      Processed MOD_INIT [o] a a' := by
    intro verb fancy hverb hsx hux hfancy hf h
    rcases hs : updateLogger MOD_INIT verb fancy a.log with q | s'
    · rw [hs] at h
      cases h
    · rw [hs] at h
      obtain rfl := Except.ok.inj h
      obtain rfl := updateLogger_ok hs
      refine ⟨by simp [hsx], by simp [hux], fun mod => by simp [hverb], ?_, rfl⟩
      rcases hf with rfl | rfl <;> simp [hfancy]
  cases o with
  | s optarg =>
    obtain rfl := Except.ok.inj h
    exact ⟨rfl, rfl, fun _ => rfl, (Bool.or_false _).symm, rfl⟩
  | x optarg =>
    obtain rfl := Except.ok.inj h
    exact ⟨rfl, rfl, fun _ => rfl, (Bool.or_false _).symm, rfl⟩
  | c => exact hlog rfl rfl rfl rfl (.inl rfl) h
  | v => exact hlog rfl rfl rfl rfl (.inr rfl) h
  | q => exact hlog rfl rfl rfl rfl (.inr rfl) h
  | S => cases h
  | X => cases h
  | h => cases h
  | unknown => cases h

theorem option_isOk : (∃ a', option MOD_INIT o a = .ok a') ↔
    o.leaves = false ∧ Fits (a.log.lvlarr MOD_INIT) (List.filterMap Opt.verb [o]) := by
  have hlog : ∀ {verb fancy : ℤ}, (∃ a', (updateLogger MOD_INIT verb fancy a.log).map
      (fun s => { a with log := s }) = .ok a') ↔ Fits (a.log.lvlarr MOD_INIT) [verb] := by
    intro verb fancy
    rw [← @updateLogger_isOk MOD_INIT verb fancy a.log]
    rcases updateLogger MOD_INIT verb fancy a.log with q | s'
    · exact ⟨nofun, nofun⟩
    · exact ⟨fun _ => ⟨_, rfl⟩, fun _ => ⟨_, rfl⟩⟩
  cases o with
  | s optarg => exact ⟨fun _ => ⟨rfl, trivial⟩, fun _ => ⟨_, rfl⟩⟩
  | x optarg => exact ⟨fun _ => ⟨rfl, trivial⟩, fun _ => ⟨_, rfl⟩⟩
  | c => exact hlog.trans (and_iff_right rfl).symm
  | v => exact hlog.trans (and_iff_right rfl).symm
  | q => exact hlog.trans (and_iff_right rfl).symm
  | S => exact ⟨nofun, nofun⟩
  | X => exact ⟨nofun, nofun⟩
  | h => exact ⟨nofun, nofun⟩
  | unknown => exact ⟨nofun, nofun⟩

theorem options_processed (h : options MOD_INIT opts a = .ok a') :
    Processed MOD_INIT opts a a' := by
  induction opts generalizing a with
  | nil =>
    obtain rfl := Except.ok.inj h
    exact .nil a
  | cons o opts ih =>
    obtain ⟨a₁, ho, h⟩ := bind_eq_ok h
    exact (option_processed ho).append (ih h)

theorem options_isOk : (∃ a', options MOD_INIT opts a = .ok a') ↔
    (∀ o ∈ opts, o.leaves = false) ∧
      Fits (a.log.lvlarr MOD_INIT) (opts.filterMap Opt.verb) := by
  induction opts generalizing a with
  | nil => exact ⟨fun _ => ⟨nofun, trivial⟩, fun _ => ⟨a, rfl⟩⟩
  | cons o opts ih =>
    have happ : (o :: opts).filterMap Opt.verb
        = List.filterMap Opt.verb [o] ++ opts.filterMap Opt.verb := by
      rw [← List.filterMap_append]
      rfl
    rw [List.forall_mem_cons, happ, fits_append]
    constructor
    · rintro ⟨a', h⟩
      obtain ⟨a₁, ho, h⟩ := bind_eq_ok h
      obtain ⟨hstays, hfits⟩ := option_isOk.mp ⟨a₁, ho⟩
      obtain ⟨hall, hfits'⟩ := ih.mp ⟨a', h⟩
      rw [(option_processed ho).level_init] at hfits'
      exact ⟨⟨hstays, hall⟩, hfits, hfits'⟩
    · rintro ⟨⟨hstays, hall⟩, hfits, hfits'⟩
      obtain ⟨a₁, ho⟩ := option_isOk.mpr ⟨hstays, hfits⟩
      rw [← (option_processed ho).level_init] at hfits'
      obtain ⟨a', h⟩ := ih.mpr ⟨hall, hfits'⟩
      refine ⟨a', ?_⟩
      rw [options, ho]
      exact h

/-! ### The start -/

/-- A name that is cut off is none of the short ones. -/
theorem snprintf_eq_iff {nam t : List UInt8} (h : t.length < 31) :
    snprintf 32 nam = t ↔ nam = t := by
  rw [snprintf]
  constructor
  · rintro rfl
    rw [List.length_take] at h
    exact (List.take_of_length_le (by omega)).symm
  · rintro rfl
    exact List.take_of_length_le (by omega)

theorem named_eq_iff {f : Opt → Option (List UInt8)} {t : List UInt8} (h : t.length < 31) :
    ((opts.filterMap f).getLast?.map (snprintf 32)).getD AUTO = t ↔ named f opts = t := by
  rw [named]
  cases (opts.filterMap f).getLast? with
  | none => rfl
  | some nam => exact snprintf_eq_iff h

theorem attach_singleton {nam ifname : List UInt8} {complaint : Quit} :
    attach [nam] complaint ifname = if ifname = nam then .ok 0 else .error complaint := by
  rw [attach, List.findIdx?_cons]
  by_cases h : ifname = nam
  · simp [h]
  · simp [h, Ne.symm h]

theorem coreInit_eq (frontend backend : List UInt8) : coreInit frontend backend =
    if backend = HP then
      if frontend = IA then .ok ⟨0, 0, 0, 0⟩ else .error (.ucNotFound frontend)
    else .error (.notFound backend) := by
  rw [coreInit, fsmInitAttach, fsmCmdoutAttach, fsmIncharAttach, ucAttach, backends, frontends]
  simp only [attach_singleton]
  by_cases hb : backend = HP
  · by_cases hf : frontend = IA
    · simp only [if_pos hb, if_pos hf]
      rfl
    · simp only [if_pos hb, if_neg hf]
      rfl
  · simp only [if_neg hb]
    rfl

theorem coreInit_eq_ok {frontend backend : List UInt8} {r : Attached} :
    coreInit frontend backend = .ok r ↔ frontend = IA ∧ backend = HP ∧ r = ⟨0, 0, 0, 0⟩ := by
  rw [coreInit_eq]
  split
  · next hb =>
    split
    · next hf => exact ⟨fun h => ⟨hf, hb, (Except.ok.inj h).symm⟩, fun h => congrArg _ h.2.2.symm⟩
    · next hf => exact ⟨nofun, fun h => absurd h.1 hf⟩
  · next hb => exact ⟨nofun, fun h => absurd h.2.1 hb⟩

/-- "auto" stands for the only name there is. -/
theorem auto_iff {nam only : List UInt8} :
    (if nam = AUTO then only else nam) = only ↔ nam = AUTO ∨ nam = only := by
  split
  · next h => exact ⟨fun _ => .inl h, fun _ => rfl⟩
  · next h => exact ⟨.inr, fun h' => h'.resolve_left h⟩

theorem init_eq_ok {r : Args × Attached} : init e MOD_INIT opts argv = .ok r ↔
    ∃ a host rest, options MOD_INIT opts (args₀ e) = .ok a ∧ argv = host :: rest ∧
      (a.ux = AUTO ∨ a.ux = IA) ∧ (a.sx = AUTO ∨ a.sx = HP) ∧
      r = ({ a with host := snprintf 256 host, ux := IA, sx := HP }, ⟨0, 0, 0, 0⟩) := by
  constructor
  · intro h
    obtain ⟨a', hargs, h⟩ := bind_eq_ok h
    obtain ⟨a, hopts, hargs⟩ := bind_eq_ok hargs
    obtain ⟨at', hcore, h⟩ := bind_eq_ok h
    obtain rfl := Except.ok.inj h
    rcases argv with _ | ⟨host, rest⟩
    · cases hargs
    · obtain rfl := Except.ok.inj hargs
      obtain ⟨hux, hsx, rfl⟩ := coreInit_eq_ok.mp hcore
      exact ⟨a, host, rest, hopts, rfl, auto_iff.mp hux, auto_iff.mp hsx,
        congrArg₂ (fun ux sx => ((⟨ux, sx, snprintf 256 host, a.log⟩ : Args), _)) hux hsx⟩
  · rintro ⟨a, host, rest, hopts, rfl, hux, hsx, rfl⟩
    rw [init, processArgs, hopts]
    show (coreInit _ _ >>= fun at' => _) = _
    rw [coreInit_eq_ok.mpr ⟨auto_iff.mpr hux, auto_iff.mpr hsx, rfl⟩, auto_iff.mpr hux,
      auto_iff.mpr hsx]
    rfl

/-- **The start.**  The program gets as far as its main loop with the command lines that are
accepted, and with no others, and is then set to what they and the environment say. -/
theorem init_starts (e : Env) (MOD_INIT : ℕ) (opts : List Opt) (argv : List (List UInt8)) :
    ((∃ r, init e MOD_INIT opts argv = .ok r) ↔
      Accepts opts argv ((logInit e vars₀).lvlarr MOD_INIT)) ∧
    ∀ a at', init e MOD_INIT opts argv = .ok (a, at') →
      Configured e MOD_INIT opts argv a ∧ at' = ⟨0, 0, 0, 0⟩ := by
  have hnames : ∀ {a}, options MOD_INIT opts (args₀ e) = .ok a →
      ((a.ux = AUTO ∨ a.ux = IA) ↔ (named Opt.uxOf opts = AUTO ∨ named Opt.uxOf opts = IA)) ∧
      ((a.sx = AUTO ∨ a.sx = HP) ↔ (named Opt.sxOf opts = AUTO ∨ named Opt.sxOf opts = HP)) := by
    intro a h
    have hp := options_processed h
    rw [hp.ux, hp.sx]
    exact ⟨or_congr (named_eq_iff (by decide)) (named_eq_iff (by decide)),
      or_congr (named_eq_iff (by decide)) (named_eq_iff (by decide))⟩
  refine ⟨⟨?_, fun h => ?_⟩, fun a at' h => ?_⟩
  · rintro ⟨r, h⟩
    obtain ⟨a, host, rest, hopts, hargv, hux, hsx, -⟩ := init_eq_ok.mp h
    obtain ⟨hstays, hfits⟩ := options_isOk.mp ⟨a, hopts⟩
    exact ⟨hstays, hargv ▸ List.cons_ne_nil _ _, (hnames hopts).1.mp hux,
      (hnames hopts).2.mp hsx, hfits⟩
  · obtain ⟨a, hopts⟩ : ∃ a, options MOD_INIT opts (args₀ e) = .ok a :=
      options_isOk.mpr ⟨h.stays, h.fits⟩
    obtain ⟨host, rest, hargv⟩ := List.exists_cons_of_ne_nil h.host
    exact ⟨_, init_eq_ok.mpr ⟨a, host, rest, hopts, hargv, (hnames hopts).1.mpr h.frontend,
      (hnames hopts).2.mpr h.backend, rfl⟩⟩
  · obtain ⟨a₁, host, rest, hopts, rfl, hux, hsx, heq⟩ := init_eq_ok.mp h
    obtain ⟨rfl, rfl⟩ := Prod.mk.inj heq
    have hp := options_processed hopts
    refine ⟨⟨rfl, rfl, rfl, fun hnil => ?_, fun d ds hds mod => ?_, hp.fancy, hp.width⟩, rfl⟩
    · funext mod
      exact (hp.level mod).trans (if_pos hnil)
    · have hlevel := (hp.level mod).trans (if_neg (hds ▸ List.cons_ne_nil _ _))
      rw [hds] at hlevel
      exact hlevel ▸ floor_isGreatest _ d ds

end Swh.Main
