/-
Launching ssh (spawn.c).

Three pipes are made, a child is forked that runs ssh with them for its standard
descriptors, and when SIGCHLD was seen it is waited for.  What the kernel does is up to the
environment, and so is what ssh and the rest of the program do with their other
descriptors.

* `launch_wired` — ssh gets the pipes if and only if 0, 1 and 2 were open;
* `launch_fails` — if there is no room for a pipe, or no process, the pipes made so far stay;
* `lifecycle` — whatever happens in whatever order, each end that is needed is held by the
  process that needs it, the ends of the other one by nobody else, and none is left over,
  but for those with which the program gives up.
-/
import Swh.Lib.Descriptors
import Swh.Transcript
import Mathlib.Logic.Relation

namespace Swh.Spawn

open Transcript (ascii snprintf)

inductive Dir
  | rd | wr
  deriving DecidableEq, Repr

/-- What a descriptor is open on: an end of a pipe that was made here, or something else. -/
inductive Obj
  | pipe (p : ℕ) (d : Dir)
  | other (x : ℕ)
  deriving DecidableEq, Repr

/-- A child; it has no table any more when it has exited. -/
structure Child where
  pid : ℤ
  argv : List (List UInt8)
  table : Option (FdTable Obj)

/-- Where the program is. -/
inductive Phase
  /-- Not in one of the functions of this file. -/
  | elsewhere
  /-- In `wait(2)`. -/
  | waiting
  /-- "waited for %d but got %d (with exit status %d)" -/
  | panicked
  /-- "could not spawn ssh", which is what `sc_start` makes of -1 -/
  | unspawned
  deriving DecidableEq, Repr

/-- The file-scope variables and the processes. -/
structure State where
  /-- `s_stdin[0]` and `s_stdin[1]`, and so on -/
  stdin : ℤ × ℤ
  stdout : ℤ × ℤ
  stderr : ℤ × ℤ
  host : List UInt8
  childpid : ℤ
  sigchld : Bool
  /-- The descriptors of the program. -/
  table : FdTable Obj
  /-- How many pipes were made so far. -/
  pipes : ℕ
  child : Option Child
  phase : Phase

/-- What the kernel does during a call of `spawn_launch`. -/
structure Kernel where
  /-- How many descriptors the process may have. -/
  limit : ℕ
  /-- Whether the system has room for another pipe, at the `i`th call of `pipe(2)`. -/
  room : ℕ → Bool
  fork : Option ℤ
  fork_pos : ∀ r, fork = some r → 0 < r

/-- The `i`th call of `pipe(2)`: the read end and the write end. -/
def pipe (k : Kernel) (i : ℕ) (s : State) : Option ((ℤ × ℤ) × State) :=
  if k.room i then
    (s.table.opens k.limit (.pipe s.pipes .rd)).bind fun r =>
      (r.2.opens k.limit (.pipe s.pipes .wr)).map fun w =>
        ((r.1, w.1), { s with table := w.2, pipes := s.pipes + 1 })
  else none

/-- What the child does with its copy of the table before it runs ssh. -/
def childTable (t : FdTable Obj) (stdin stdout stderr : ℤ × ℤ) : FdTable Obj :=
  let t := ((t.close stdin.2).close stdout.1).close stderr.1
  let t := ((t.close 0).close 1).close 2
  ((t.dup2 stdin.1 0).dup2 stdout.2 1).dup2 stderr.2 2

/-- `spawn_launch`, with what it stores at its arguments unless it returns -1 -/
def launch (k : Kernel) (host : List UInt8) (s : State) : State × Option (ℤ × ℤ × ℤ) :=
  match pipe k 0 s with
  | none => (s, none)
  | some (p, s) =>
    let s := { s with stdin := p }
    match pipe k 1 s with
    | none => (s, none)
    | some (p, s) =>
      let s := { s with stdout := p }
      match pipe k 2 s with
      | none => (s, none)
      | some (p, s) =>
        let s := { s with stderr := p, host := snprintf 256 host }
        match k.fork with
        | none => (s, none)
        | some r =>
          let child : Child := ⟨r, [ascii "/usr/bin/ssh", ascii "-T", s.host],
            some (childTable s.table s.stdin s.stdout s.stderr)⟩
          let t := ((s.table.close s.stdin.1).close s.stdout.2).close s.stderr.2
          ({ s with table := t, child := some child, childpid := r },
            some (s.stdin.2, s.stdout.1, s.stderr.1))

/-- `spawn_kill` -/
def kill (s : State) : State :=
  if s.childpid = 0 then s
  else { s with table := s.table.close s.stdin.2, stdin := (s.stdin.1, -1) }

/-- What `dowait` does when `wait(2)` has returned `p`. -/
def dowait (p : ℤ) (s : State) : State :=
  if p ≠ s.childpid then { s with phase := .panicked }
  else
    let t := (s.table.close s.stdout.1).close s.stderr.1
    { s with
      childpid := 0
      table := if s.stdin.2 ≥ 0 then t.close s.stdin.2 else t
      phase := .elsewhere }

/-- What can happen.  `sc_start` calls `spawn_launch` before the main loop, and nothing else
does, so that there is no child when it is called. -/
inductive Step : State → State → Prop
  /-- `spawn_launch` returns 0. -/
  | launch {s s' k host fds} (hph : s.phase = .elsewhere) (hidle : s.childpid = 0)
      (h : launch k host s = (s', some fds)) : Step s s'
  /-- It returns -1, and `sc_start` panics. -/
  | unspawned {s s' k host} (hph : s.phase = .elsewhere) (hidle : s.childpid = 0)
      (h : launch k host s = (s', none)) : Step s { s' with phase := .unspawned }
  | kill {s} (hph : s.phase = .elsewhere) : Step s (kill s)
  /-- `spawn_operate`, up to the call of `wait(2)`. -/
  | operate {s} (hph : s.phase = .elsewhere) (hsig : s.sigchld = true) :
      Step s { s with sigchld := false, phase := .waiting }
  /-- `wait(2)` returns when the child has exited. -/
  | waited {s c} (hph : s.phase = .waiting) (hchild : s.child = some c) (hexit : c.table = none) :
      Step s (dowait c.pid { s with child := none })
  /-- There is no child. -/
  | echild {s} (hph : s.phase = .waiting) (hchild : s.child = none) : Step s (dowait (-1) s)
  /-- The child exits. -/
  | exit {s c} (hchild : s.child = some c) :
      Step s { s with child := some { c with table := none }, sigchld := true }
  /-- SIGCHLD comes for another reason. -/
  | signal {s} : Step s { s with sigchld := true }
  /-- The rest of the program opens and closes other descriptors. -/
  | files {s} (t : FdTable Obj) (hph : s.phase = .elsewhere)
      (h : ∀ fd p d, t fd = some (.pipe p d) ↔ s.table fd = some (.pipe p d)) :
      Step s { s with table := t }
  /-- ssh does what it likes with those it has. -/
  | ssh {s c t} (t' : FdTable Obj) (hchild : s.child = some c) (ht : c.table = some t)
      (h : ∀ fd p d, t' fd = some (.pipe p d) → ∃ fd', t fd' = some (.pipe p d)) :
      Step s { s with child := some { c with table := some t' } }

/-! ### Three pipes -/

variable {k : Kernel} {i : ℕ} {s s' : State} {p : ℤ × ℤ} {host : List UInt8} {fd fd' : ℤ}
  {x y : Obj}

/-- The ends `p.1` and `p.2` of the pipe `n` are new in `t'`. -/
structure Piped (t : FdTable Obj) (n : ℕ) (p : ℤ × ℤ) (t' : FdTable Obj) : Prop where
  rd : t' p.1 = some (.pipe n .rd)
  wr : t' p.2 = some (.pipe n .wr)
  nonneg : 0 ≤ p.1 ∧ 0 ≤ p.2
  free : t p.1 = none ∧ t p.2 = none
  other : ∀ fd, fd ≠ p.1 → fd ≠ p.2 → t' fd = t fd
  lowest : ∀ fd, 0 ≤ fd → fd < p.1 → t fd ≠ none

theorem pipe_spec (h : pipe k i s = some (p, s')) :
    ∃ t, s' = { s with table := t, pipes := s.pipes + 1 } ∧ Piped s.table s.pipes p t := by
  rw [pipe] at h
  split at h
  · obtain ⟨⟨r, t⟩, hr, h⟩ := Option.bind_eq_some_iff.mp h
    obtain ⟨⟨w, t'⟩, hw, h⟩ := Option.map_eq_some_iff.mp h
    cases h
    dsimp only at hw
    obtain ⟨hr0, hrnone, rfl, hlow⟩ := FdTable.opens_spec hr
    obtain ⟨hw0, hwnone, rfl, -⟩ := FdTable.opens_spec hw
    have hne : w ≠ r := by
      rintro rfl
      rw [Function.update_self] at hwnone
      cases hwnone
    rw [Function.update_of_ne hne] at hwnone
    refine ⟨_, rfl, ?_, Function.update_self .., ⟨hr0, hw0⟩, ⟨hrnone, hwnone⟩, ?_, hlow⟩
    · show Function.update _ w _ r = _
      rw [Function.update_of_ne hne.symm, Function.update_self]
    · intro fd hfr hfw
      show Function.update _ w _ fd = _
      rw [Function.update_of_ne hfw, Function.update_of_ne hfr]
  · cases h

theorem Piped.apply {t t' : FdTable Obj} {n : ℕ} (h : Piped t n p t') : t' fd = some x ↔
    (fd = p.1 ∧ x = .pipe n .rd) ∨ (fd = p.2 ∧ x = .pipe n .wr) ∨ t fd = some x := by
  by_cases h₁ : fd = p.1
  · have := h.free.1
    have hne : p.1 ≠ p.2 := fun heq => by
      have := h.rd
      rw [heq, h.wr] at this
      cases this
    simp_all [h.rd, eq_comm]
  · by_cases h₂ : fd = p.2
    · have := h.free.2
      simp_all [h.wr, eq_comm]
    · rw [h.other fd h₁ h₂]
      simp [h₁, h₂]

/-- From `t₀` on the three pipes `n`, `n + 1` and `n + 2` are made, which gives `t`. -/
structure Opened (t₀ : FdTable Obj) (n : ℕ) (stdin stdout stderr : ℤ × ℤ) (t : FdTable Obj) :
    Prop where
  apply : ∀ fd x, t fd = some x ↔
    (fd = stderr.1 ∧ x = .pipe (n + 2) .rd) ∨ (fd = stderr.2 ∧ x = .pipe (n + 2) .wr) ∨
    (fd = stdout.1 ∧ x = .pipe (n + 1) .rd) ∨ (fd = stdout.2 ∧ x = .pipe (n + 1) .wr) ∨
    (fd = stdin.1 ∧ x = .pipe n .rd) ∨ (fd = stdin.2 ∧ x = .pipe n .wr) ∨ t₀ fd = some x
  nonneg : 0 ≤ stdin.2 ∧ 0 ≤ stdout.1 ∧ 0 ≤ stderr.1
  free : t₀ stdin.1 = none ∧ t₀ stdout.2 = none ∧ t₀ stderr.2 = none
  lowest : 0 ≤ stdin.1 ∧ ∀ fd, 0 ≤ fd → fd < stdin.1 → t₀ fd ≠ none

theorem opened_of_piped {t₀ t₁ t₂ t : FdTable Obj} {n : ℕ} {stdin stdout stderr : ℤ × ℤ}
    (h₁ : Piped t₀ n stdin t₁) (h₂ : Piped t₁ (n + 1) stdout t₂)
    (h₃ : Piped t₂ (n + 2) stderr t) : Opened t₀ n stdin stdout stderr t := by
  have hback₁ : ∀ fd, t₁ fd = none → t₀ fd = none := fun fd h =>
    Option.eq_none_iff_forall_ne_some.mpr fun x hx => by
      rw [h₁.apply.mpr (.inr (.inr hx))] at h
      cases h
  have hback₂ : ∀ fd, t₂ fd = none → t₁ fd = none := fun fd h =>
    Option.eq_none_iff_forall_ne_some.mpr fun x hx => by
      rw [h₂.apply.mpr (.inr (.inr hx))] at h
      cases h
  refine ⟨fun fd x => ?_, ⟨h₁.nonneg.2, h₂.nonneg.1, h₃.nonneg.1⟩,
    ⟨h₁.free.1, hback₁ _ h₂.free.2, hback₁ _ (hback₂ _ h₃.free.2)⟩, h₁.nonneg.1, h₁.lowest⟩
  rw [h₃.apply, h₂.apply, h₁.apply]

/-- What `spawn_launch` does when it returns 0. -/
theorem launch_spec {fds : ℤ × ℤ × ℤ} (h : launch k host s = (s', some fds)) :
    ∃ t r, Opened s.table s.pipes s'.stdin s'.stdout s'.stderr t ∧ 0 < r ∧
      fds = (s'.stdin.2, s'.stdout.1, s'.stderr.1) ∧
      s' = { s with
        stdin := s'.stdin
        stdout := s'.stdout
        stderr := s'.stderr
        host := snprintf 256 host
        table := ((t.close s'.stdin.1).close s'.stdout.2).close s'.stderr.2
        pipes := s.pipes + 3
        childpid := r
        child := some ⟨r, [ascii "/usr/bin/ssh", ascii "-T", snprintf 256 host],
          some (childTable t s'.stdin s'.stdout s'.stderr)⟩ } := by
  rw [launch] at h
  rcases h₁ : pipe k 0 s with _ | ⟨p₁, s₁⟩
  · rw [h₁] at h
    cases h
  obtain ⟨t₁, rfl, hp₁⟩ := pipe_spec h₁
  rw [h₁] at h
  dsimp only at h
  rcases h₂ : pipe k 1 { s with stdin := p₁, table := t₁, pipes := s.pipes + 1 } with _ | ⟨p₂, s₂⟩
  · rw [h₂] at h
    cases h
  obtain ⟨t₂, rfl, hp₂⟩ := pipe_spec h₂
  rw [h₂] at h
  dsimp only at h
  rcases h₃ : pipe k 2 { s with
    stdin := p₁, stdout := p₂, table := t₂, pipes := s.pipes + 1 + 1 } with _ | ⟨p₃, s₃⟩
  · rw [h₃] at h
    cases h
  obtain ⟨t₃, rfl, hp₃⟩ := pipe_spec h₃
  rw [h₃] at h
  dsimp only at h
  rcases hf : k.fork with _ | r
  · rw [hf] at h
    cases h
  rw [hf] at h
  cases h
  exact ⟨t₃, r, opened_of_piped hp₁ hp₂ hp₃, k.fork_pos r hf, rfl, rfl⟩

/-- Both ends of the pipe `n` are open, and those that were. -/
theorem Piped.held {t t' : FdTable Obj} {n : ℕ} (h : Piped t n p t') (q : ℕ) (d : Dir) :
    (∃ fd, t' fd = some (.pipe q d)) ↔ q = n ∨ ∃ fd, t fd = some (.pipe q d) := by
  constructor
  · rintro ⟨fd, hfd⟩
    rcases h.apply.mp hfd with ⟨-, heq⟩ | ⟨-, heq⟩ | hold
    · exact .inl (Obj.pipe.inj heq).1
    · exact .inl (Obj.pipe.inj heq).1
    · exact .inr ⟨fd, hold⟩
  · rintro (rfl | ⟨fd, hold⟩)
    · cases d
      · exact ⟨_, h.rd⟩
      · exact ⟨_, h.wr⟩
    · exact ⟨fd, h.apply.mpr (.inr (.inr hold))⟩

/-- `m` more pipes were made, of which both ends are open. -/
structure Left (s s' : State) (m : ℕ) : Prop where
  pipes : s'.pipes = s.pipes + m
  childpid : s'.childpid = s.childpid
  child : s'.child = s.child
  held : ∀ q d, (∃ fd, s'.table fd = some (.pipe q d)) ↔
    (s.pipes ≤ q ∧ q < s.pipes + m) ∨ ∃ fd, s.table fd = some (.pipe q d)

theorem Left.refl (s : State) : Left s s 0 :=
  ⟨rfl, rfl, rfl, fun q d => by simp⟩

theorem Left.pipe {s₀ : State} {m : ℕ} (h : Left s₀ s m) (hp : pipe k i s = some (p, s')) :
    Left s₀ s' (m + 1) := by
  obtain ⟨t, rfl, hpiped⟩ := pipe_spec hp
  refine ⟨congrArg (· + 1) h.pipes, h.childpid, h.child, fun q d => ?_⟩
  rw [hpiped.held, h.held, h.pipes, ← or_assoc]
  refine or_congr_left ?_
  omega

/-- **What is left when ssh was not launched**: up to three pipes. -/
theorem launch_fails (h : launch k host s = (s', none)) : ∃ m ≤ 3, Left s s' m := by
  rw [launch] at h
  rcases h₁ : pipe k 0 s with _ | ⟨p₁, s₁⟩
  · rw [h₁] at h
    cases h
    exact ⟨0, by decide, .refl s⟩
  have hleft₁ := (Left.refl s).pipe h₁
  rw [h₁] at h
  dsimp only at h
  rcases h₂ : pipe k 1 { s₁ with stdin := p₁ } with _ | ⟨p₂, s₂⟩
  · rw [h₂] at h
    cases h
    exact ⟨1, by decide, hleft₁.pipes, hleft₁.childpid, hleft₁.child, hleft₁.held⟩
  have hleft₂ : Left s s₂ 2 :=
    Left.pipe (s := { s₁ with stdin := p₁ })
      ⟨hleft₁.pipes, hleft₁.childpid, hleft₁.child, hleft₁.held⟩ h₂
  rw [h₂] at h
  dsimp only at h
  rcases h₃ : pipe k 2 { s₂ with stdout := p₂ } with _ | ⟨p₃, s₃⟩
  · rw [h₃] at h
    cases h
    exact ⟨2, by decide, hleft₂.pipes, hleft₂.childpid, hleft₂.child, hleft₂.held⟩
  have hleft₃ : Left s s₃ 3 :=
    Left.pipe (s := { s₂ with stdout := p₂ })
      ⟨hleft₂.pipes, hleft₂.childpid, hleft₂.child, hleft₂.held⟩ h₃
  rw [h₃] at h
  dsimp only at h
  rcases hf : k.fork with _ | r
  · rw [hf] at h
    cases h
    exact ⟨3, le_rfl, hleft₃.pipes, hleft₃.childpid, hleft₃.child, hleft₃.held⟩
  · rw [hf] at h
    cases h

/-! ### What ssh gets -/

section Wired

variable {t₀ t : FdTable Obj} {n : ℕ} {stdin stdout stderr : ℤ × ℤ}

/-- Different objects are on different descriptors. -/
theorem ne_of_open (hx : t fd = some x) (hy : t fd' = some y) (hne : x ≠ y) : fd ≠ fd' := by
  rintro rfl
  exact hne (Option.some.inj (hx.symm.trans hy))

/-- What is open before the pipes are moved to 0, 1 and 2. -/
def closedTable (t : FdTable Obj) (stdin stdout stderr : ℤ × ℤ) : FdTable Obj :=
  (((((t.close stdin.2).close stdout.1).close stderr.1).close 0).close 1).close 2

theorem closedTable_apply : closedTable t stdin stdout stderr fd = some x ↔
    (fd ≠ stdin.2 ∧ fd ≠ stdout.1 ∧ fd ≠ stderr.1) ∧ (fd ≠ 0 ∧ fd ≠ 1 ∧ fd ≠ 2) ∧
      t fd = some x := by
  simp only [closedTable, FdTable.close_apply]
  tauto

theorem childTable_eq : childTable t stdin stdout stderr =
    (((closedTable t stdin stdout stderr).dup2 stdin.1 0).dup2 stdout.2 1).dup2 stderr.2 2 := rfl

/-- ssh has nothing that the program had not, and none of the ends the program keeps. -/
theorem childTable_apply (h : childTable t stdin stdout stderr fd = some x) :
    ∃ j, (j ≠ stdin.2 ∧ j ≠ stdout.1 ∧ j ≠ stderr.1) ∧ t j = some x := by
  rw [childTable_eq] at h
  obtain ⟨j, h⟩ := FdTable.dup2_apply h
  obtain ⟨j, h⟩ := FdTable.dup2_apply h
  obtain ⟨j, h⟩ := FdTable.dup2_apply h
  obtain ⟨hne, -, hj⟩ := closedTable_apply.mp h
  exact ⟨j, hne, hj⟩

/-- The standard descriptors are the pipes. -/
def Wired (c : FdTable Obj) (n : ℕ) : Prop :=
  c 0 = some (.pipe n .rd) ∧ c 1 = some (.pipe (n + 1) .wr) ∧ c 2 = some (.pipe (n + 2) .wr)

/-- The ends that are new are none of 0, 1 and 2 if those were open. -/
theorem wired_of_open (h : Opened t₀ n stdin stdout stderr t)
    (hstd : t₀ 0 ≠ none ∧ t₀ 1 ≠ none ∧ t₀ 2 ≠ none) :
    Wired (childTable t stdin stdout stderr) n := by
  obtain ⟨h0, h1, h2⟩ := hstd
  have hfree : ∀ {fd}, t₀ fd = none → fd ≠ 0 ∧ fd ≠ 1 ∧ fd ≠ 2 := fun hfd =>
    ⟨fun h => h0 (h ▸ hfd), fun h => h1 (h ▸ hfd), fun h => h2 (h ▸ hfd)⟩
  have hw : t stdin.2 = some (.pipe n .wr) := (h.apply _ _).mpr (by simp)
  have hro : t stdout.1 = some (.pipe (n + 1) .rd) := (h.apply _ _).mpr (by simp)
  have hre : t stderr.1 = some (.pipe (n + 2) .rd) := (h.apply _ _).mpr (by simp)
  have hr : t stdin.1 = some (.pipe n .rd) := (h.apply _ _).mpr (by simp)
  have hwo : t stdout.2 = some (.pipe (n + 1) .wr) := (h.apply _ _).mpr (by simp)
  have hwe : t stderr.2 = some (.pipe (n + 2) .wr) := (h.apply _ _).mpr (by simp)
  have hkept : ∀ {fd x}, t₀ fd = none → t fd = some x → x ≠ .pipe n .wr →
      x ≠ .pipe (n + 1) .rd → x ≠ .pipe (n + 2) .rd →
      closedTable t stdin stdout stderr fd = some x := fun hfd hx h₁ h₂ h₃ =>
    closedTable_apply.mpr ⟨⟨ne_of_open hx hw h₁, ne_of_open hx hro h₂, ne_of_open hx hre h₃⟩,
      hfree hfd, hx⟩
  obtain ⟨hfi, hfo, hfe⟩ := h.free
  rw [childTable_eq]
  refine ⟨?_, ?_, ?_⟩
  · rw [FdTable.dup2_ne _ _ (by decide), FdTable.dup2_ne _ _ (by decide)]
    exact FdTable.dup2_self (hkept hfi hr (by simp) (by simp) (by simp))
  · rw [FdTable.dup2_ne _ _ (by decide)]
    refine FdTable.dup2_self ?_
    rw [FdTable.dup2_ne _ _ (hfree hfo).1]
    exact hkept hfo hwo (by simp) (by simp) (by simp)
  · refine FdTable.dup2_self ?_
    rw [FdTable.dup2_ne _ _ (hfree hfe).2.1, FdTable.dup2_ne _ _ (hfree hfe).1]
    exact hkept hfe hwe (by simp) (by simp) (by simp)

/-- If one of them is free, the first new end gets there, and the child closes it. -/
theorem open_of_wired (h : Opened t₀ n stdin stdout stderr t)
    (hwired : Wired (childTable t stdin stdout stderr) n) :
    t₀ 0 ≠ none ∧ t₀ 1 ≠ none ∧ t₀ 2 ≠ none := by
  by_contra hno
  obtain ⟨j, hj0, hj2, hj⟩ : ∃ j : ℤ, 0 ≤ j ∧ j ≤ 2 ∧ t₀ j = none := by
    by_contra hall
    refine hno ⟨fun h => hall ⟨0, ?_, ?_, h⟩, fun h => hall ⟨1, ?_, ?_, h⟩,
      fun h => hall ⟨2, ?_, ?_, h⟩⟩ <;> decide
  have hle : stdin.1 ≤ j := not_lt.mp fun hlt => h.lowest.2 j hj0 hlt hj
  have hclosed : ∀ {fd : ℤ}, 0 ≤ fd → fd ≤ 2 → closedTable t stdin stdout stderr fd = none :=
    fun {fd} h0 h2 => Option.eq_none_iff_forall_ne_some.mpr fun x hx => by
      have := (closedTable_apply.mp hx).2.1
      omega
  have hnone : childTable t stdin stdout stderr 0 = none := by
    rw [childTable_eq, FdTable.dup2_ne _ _ (by decide), FdTable.dup2_ne _ _ (by decide),
      FdTable.dup2_none (hclosed h.lowest.1 (hle.trans hj2))]
    exact hclosed le_rfl (by decide)
  rw [hwired.1] at hnone
  cases hnone

end Wired

/-! ### What the program keeps -/

theorem Opened.kept {t₀ t : FdTable Obj} {n : ℕ} {stdin stdout stderr : ℤ × ℤ}
    (h : Opened t₀ n stdin stdout stderr t) :
    ((t.close stdin.1).close stdout.2).close stderr.2 fd = some x ↔
      (fd = stdin.2 ∧ x = .pipe n .wr) ∨ (fd = stdout.1 ∧ x = .pipe (n + 1) .rd) ∨
      (fd = stderr.1 ∧ x = .pipe (n + 2) .rd) ∨ t₀ fd = some x := by
  have hr : t stdin.1 = some (.pipe n .rd) := (h.apply _ _).mpr (by simp)
  have hwo : t stdout.2 = some (.pipe (n + 1) .wr) := (h.apply _ _).mpr (by simp)
  have hwe : t stderr.2 = some (.pipe (n + 2) .wr) := (h.apply _ _).mpr (by simp)
  obtain ⟨hfi, hfo, hfe⟩ := h.free
  simp only [FdTable.close_apply]
  constructor
  · rintro ⟨he, ho, hi, hx⟩
    rcases (h.apply _ _).mp hx with hx | ⟨hfd, -⟩ | hx | ⟨hfd, -⟩ | ⟨hfd, -⟩ | hx | hx
    · exact .inr (.inr (.inl hx))
    · exact absurd hfd he
    · exact .inr (.inl hx)
    · exact absurd hfd ho
    · exact absurd hfd hi
    · exact .inl hx
    · exact .inr (.inr (.inr hx))
  · intro hx
    have hopen : t fd = some x := by
      refine (h.apply _ _).mpr ?_
      rcases hx with hx | hx | hx | hx <;> simp [hx]
    refine ⟨?_, ?_, ?_, hopen⟩ <;> rintro rfl
    · obtain rfl := Option.some.inj (hopen.symm.trans hwe)
      simp [hfe] at hx
    · obtain rfl := Option.some.inj (hopen.symm.trans hwo)
      simp [hfo] at hx
    · obtain rfl := Option.some.inj (hopen.symm.trans hr)
      simp [hfi] at hx

/-- **Launching.**  The program keeps the writing end of the first pipe and the reading ends
of the others, and ssh has the opposite ends for its standard descriptors if and only if the
program had all three of its own. -/
structure Plumbed (s s' : State) (host : List UInt8) (fds : ℤ × ℤ × ℤ) (c : FdTable Obj) :
    Prop where
  child : ∃ pid, s'.childpid = pid ∧ 0 < pid ∧ s'.child =
    some ⟨pid, [ascii "/usr/bin/ssh", ascii "-T", snprintf 256 host], some c⟩
  kept : ∀ fd x, s'.table fd = some x ↔ (fd = fds.1 ∧ x = .pipe s.pipes .wr) ∨
    (fd = fds.2.1 ∧ x = .pipe (s.pipes + 1) .rd) ∨
    (fd = fds.2.2 ∧ x = .pipe (s.pipes + 2) .rd) ∨ s.table fd = some x
  wired : Wired c s.pipes ↔ s.table 0 ≠ none ∧ s.table 1 ≠ none ∧ s.table 2 ≠ none

theorem launch_wired {fds : ℤ × ℤ × ℤ} (h : launch k host s = (s', some fds)) :
    ∃ c, Plumbed s s' host fds c := by
  obtain ⟨t, r, hopened, hr, rfl, hs'⟩ := launch_spec h
  refine ⟨childTable t s'.stdin s'.stdout s'.stderr, ?_, fun fd x => ?_, ?_⟩
  · rw [hs']
    exact ⟨r, rfl, hr, rfl⟩
  · rw [hs']
    exact hopened.kept
  · exact ⟨open_of_wired hopened, wired_of_open hopened⟩

/-- A program with its three standard descriptors. -/
def state₀ : State where
  stdin := (0, 0)
  stdout := (0, 0)
  stderr := (0, 0)
  host := []
  childpid := 0
  sigchld := false
  table fd := if 0 ≤ fd ∧ fd ≤ 2 then some (.other 0) else none
  pipes := 0
  child := none
  phase := .elsewhere

def kernel₀ : Kernel where
  limit := 16
  room _ := true
  fork := some 100
  fork_pos := by simp

theorem launch_kernel₀ :
    launch kernel₀ [0x61] state₀ = ((launch kernel₀ [0x61] state₀).1, some (4, 5, 7)) :=
  Prod.ext rfl (by decide)

/-- The pipes are 3 and 4, 5 and 6, and 7 and 8. -/
theorem launch_wired_kernel₀ :
    ∃ c, Plumbed state₀ (launch kernel₀ [0x61] state₀).1 [0x61] (4, 5, 7) c :=
  launch_wired launch_kernel₀

/-! ### The life of a child -/

/-- With a child alive, or not yet waited for. -/
structure Attended (s : State) (n : ℕ) : Prop where
  ends : ∀ fd q d, s.table fd = some (.pipe q d) ↔
    (fd = s.stdin.2 ∧ 0 ≤ fd ∧ q = n ∧ d = .wr) ∨ (fd = s.stdout.1 ∧ q = n + 1 ∧ d = .rd) ∨
    (fd = s.stderr.1 ∧ q = n + 2 ∧ d = .rd)
  nonneg : 0 ≤ s.stdout.1 ∧ 0 ≤ s.stderr.1
  killed : 0 ≤ s.stdin.2 ∨ s.stdin.2 = -1
  child : ∃ c, s.child = some c ∧ c.pid = s.childpid ∧ ∀ t, c.table = some t → ∀ fd,
    t fd ≠ some (.pipe n .wr) ∧ t fd ≠ some (.pipe (n + 1) .rd) ∧ t fd ≠ some (.pipe (n + 2) .rd)

/-- What holds whatever has happened. -/
structure Tidy (s : State) : Prop where
  idle : s.childpid = 0 → s.child = none
  closed : s.childpid = 0 → s.phase ≠ .unspawned → ∀ fd q d, s.table fd ≠ some (.pipe q d)
  live : s.childpid ≠ 0 → ∃ n, Attended s n
  panicked : s.phase = .panicked → s.childpid = 0
  unspawned : s.phase = .unspawned → s.childpid = 0 ∧ ∃ n m, m ≤ 3 ∧ s.pipes = n + m ∧
    ∀ q d, (∃ fd, s.table fd = some (.pipe q d)) ↔ n ≤ q ∧ q < n + m

theorem Attended.congr {n : ℕ} {t : FdTable Obj} {sig : Bool} {ph : Phase} (h : Attended s n)
    (ht : ∀ fd q d, t fd = some (.pipe q d) ↔ s.table fd = some (.pipe q d)) :
    Attended { s with table := t, sigchld := sig, phase := ph } n :=
  ⟨fun fd q d => (ht fd q d).trans (h.ends fd q d), h.nonneg, h.killed, h.child⟩

theorem Attended.ne {n : ℕ} (h : Attended s n) :
    s.stdin.2 ≠ s.stdout.1 ∧ s.stdin.2 ≠ s.stderr.1 := by
  have ho : s.table s.stdout.1 = some (.pipe (n + 1) .rd) := (h.ends _ _ _).mpr (by simp)
  have he : s.table s.stderr.1 = some (.pipe (n + 2) .rd) := (h.ends _ _ _).mpr (by simp)
  obtain ⟨ho0, he0⟩ := h.nonneg
  rcases h.killed with h0 | h1
  · have hi : s.table s.stdin.2 = some (.pipe n .wr) := (h.ends _ _ _).mpr (by simp [h0])
    exact ⟨ne_of_open hi ho (by simp), ne_of_open hi he (by simp)⟩
  · omega

/-- The writing end is closed, if it is not closed already. -/
theorem Attended.kill {n : ℕ} (h : Attended s n) : Attended { s with
    table := s.table.close s.stdin.2
    stdin := (s.stdin.1, -1) } n := by
  refine ⟨fun fd q d => ?_, h.nonneg, .inr rfl, h.child⟩
  show s.table.close s.stdin.2 fd = _ ↔ (fd = -1 ∧ _) ∨ _
  rw [FdTable.close_apply, h.ends]
  obtain ⟨ho, he⟩ := h.ne
  constructor
  · rintro ⟨hne, ⟨rfl, -⟩ | hx⟩
    · exact absurd rfl hne
    · exact .inr hx
  · rintro (⟨rfl, h0, -⟩ | hx)
    · exact absurd h0 (by decide)
    · refine ⟨?_, .inr hx⟩
      rcases hx with ⟨rfl, -⟩ | ⟨rfl, -⟩
      · exact ho.symm
      · exact he.symm

/-- All three ends are closed. -/
theorem Attended.dowait {n : ℕ} (h : Attended s n) (fd : ℤ) (q : ℕ) (d : Dir) :
    (dowait s.childpid { s with child := none }).table fd ≠ some (.pipe q d) := by
  intro hx
  rw [Spawn.dowait, if_neg (by simp)] at hx
  have hopen : fd ≠ s.stdout.1 ∧ fd ≠ s.stderr.1 ∧ (0 ≤ s.stdin.2 → fd ≠ s.stdin.2) ∧
      s.table fd = some (.pipe q d) := by
    dsimp only at hx
    split at hx
    · next h0 =>
      obtain ⟨hi, hx⟩ := FdTable.close_apply.mp hx
      obtain ⟨he, hx⟩ := FdTable.close_apply.mp hx
      obtain ⟨ho, hx⟩ := FdTable.close_apply.mp hx
      exact ⟨ho, he, fun _ => hi, hx⟩
    · next h0 =>
      obtain ⟨he, hx⟩ := FdTable.close_apply.mp hx
      obtain ⟨ho, hx⟩ := FdTable.close_apply.mp hx
      exact ⟨ho, he, fun h => absurd h h0, hx⟩
  obtain ⟨ho, he, hi, hx⟩ := hopen
  rcases (h.ends _ _ _).mp hx with ⟨rfl, h0, -⟩ | ⟨rfl, -⟩ | ⟨rfl, -⟩
  · exact hi h0 rfl
  · exact ho rfl
  · exact he rfl

/-- A child that was launched is attended. -/
theorem Plumbed.attended {fds : ℤ × ℤ × ℤ} (h : launch k host s = (s', some fds))
    (hnone : ∀ fd q d, s.table fd ≠ some (.pipe q d)) : Attended s' s.pipes := by
  obtain ⟨t, r, hopened, hr, -, hs'⟩ := launch_spec h
  obtain ⟨hi0, ho0, he0⟩ := hopened.nonneg
  have htable : s'.table = ((t.close s'.stdin.1).close s'.stdout.2).close s'.stderr.2 := by
    rw [hs']
  have hchild : s'.child = some ⟨s'.childpid,
      [ascii "/usr/bin/ssh", ascii "-T", snprintf 256 host],
      some (childTable t s'.stdin s'.stdout s'.stderr)⟩ := by
    rw [hs']
  refine ⟨fun fd q d => ?_, ⟨ho0, he0⟩, .inl hi0, _, hchild, rfl, ?_⟩
  · rw [htable, hopened.kept]
    have := hnone fd q d
    simp only [this, or_false, Obj.pipe.injEq]
    constructor
    · rintro (⟨rfl, hx⟩ | hx)
      · exact .inl ⟨rfl, hi0, hx⟩
      · exact .inr hx
    · rintro (⟨rfl, -, hx⟩ | hx)
      · exact .inl ⟨rfl, hx⟩
      · exact .inr hx
  · rintro _ ⟨⟩ fd
    -- what is an end of the program in the child is one in the program before the fork
    have hno : ∀ x, (∀ j, t j = some x → j = s'.stdin.2 ∨ j = s'.stdout.1 ∨ j = s'.stderr.1) →
        childTable t s'.stdin s'.stdout s'.stderr fd ≠ some x := by
      intro x hx hfd
      obtain ⟨j, ⟨hi, ho, he⟩, hj⟩ := childTable_apply hfd
      rcases hx j hj with h | h | h
      · exact hi h
      · exact ho h
      · exact he h
    refine ⟨hno _ fun j hj => ?_, hno _ fun j hj => ?_, hno _ fun j hj => ?_⟩ <;>
    · have := (hopened.apply _ _).mp hj
      simp only [hnone, or_false, Obj.pipe.injEq, reduceCtorEq, and_false, false_or] at this
      omega

/-- The child is changed. -/
theorem Tidy.child {c : Child} (c' : Child) (h : Tidy s) (hchild : s.child = some c)
    (hpid : c'.pid = c.pid)
    (hends : ∀ n, Attended s n → ∀ t, c'.table = some t → ∀ fd, t fd ≠ some (.pipe n .wr) ∧
      t fd ≠ some (.pipe (n + 1) .rd) ∧ t fd ≠ some (.pipe (n + 2) .rd)) (sig : Bool) :
    Tidy { s with child := some c', sigchld := sig } := by
  have hne : s.childpid ≠ 0 := fun h0 => by
    rw [h.idle h0] at hchild
    cases hchild
  refine ⟨fun h0 => absurd h0 hne, fun h0 => absurd h0 hne, fun _ => ?_, h.panicked, h.unspawned⟩
  obtain ⟨n, hn⟩ := h.live hne
  obtain ⟨c₀, hc₀, hpid₀, -⟩ := hn.child
  obtain rfl : c = c₀ := Option.some.inj (hchild.symm.trans hc₀)
  exact ⟨n, hn.ends, hn.nonneg, hn.killed, _, rfl, hpid.trans hpid₀, hends n hn⟩

theorem Step.tidy (h : Tidy s) (hs : Step s s') : Tidy s' := by
  cases hs with
  | @launch _ k host fds hph hidle hlaunch =>
    have hatt := Plumbed.attended hlaunch (h.closed hidle (by rw [hph]; decide))
    obtain ⟨t, r, -, hr, -, hs'⟩ := launch_spec hlaunch
    have hpid : s'.childpid ≠ 0 := by
      rw [hs']
      exact hr.ne'
    have hphase : s'.phase = .elsewhere := by rw [hs', hph]
    exact ⟨fun h0 => absurd h0 hpid, fun h0 => absurd h0 hpid, fun _ => ⟨_, hatt⟩,
      fun hp => (nomatch hphase.symm.trans hp), fun hp => (nomatch hphase.symm.trans hp)⟩
  | @unspawned s₁ k host hph hidle hlaunch =>
    obtain ⟨m, hm, hleft⟩ := launch_fails hlaunch
    have hpid : s₁.childpid = 0 := hleft.childpid.trans hidle
    have hclosed := h.closed hidle (by rw [hph]; decide)
    refine ⟨fun _ => hleft.child.trans (h.idle hidle), fun _ hno => absurd rfl hno,
      fun hne => absurd hpid hne, nofun, fun _ => ⟨hpid, s.pipes, m, hm, hleft.pipes, ?_⟩⟩
    intro q d
    refine (hleft.held q d).trans (or_iff_left ?_)
    rintro ⟨fd, hfd⟩
    exact hclosed fd q d hfd
  | kill hph =>
    rw [Spawn.kill]
    split
    · exact h
    · next hne =>
      obtain ⟨n, hn⟩ := h.live hne
      exact ⟨fun h0 => absurd h0 hne, fun h0 => absurd h0 hne, fun _ => ⟨n, hn.kill⟩,
        fun hp => (nomatch hph.symm.trans hp), fun hp => (nomatch hph.symm.trans hp)⟩
  | operate hph hsig =>
    refine ⟨h.idle, fun h0 _ => h.closed h0 (by rw [hph]; decide), fun hne => ?_, nofun, nofun⟩
    obtain ⟨n, hn⟩ := h.live hne
    exact ⟨n, hn.congr fun _ _ _ => Iff.rfl⟩
  | @waited c hph hchild hexit =>
    have hne : s.childpid ≠ 0 := fun h0 => by
      rw [h.idle h0] at hchild
      cases hchild
    obtain ⟨n, hn⟩ := h.live hne
    obtain ⟨c', hc', hpid, -⟩ := hn.child
    obtain rfl : c = c' := Option.some.inj (hchild.symm.trans hc')
    rw [hpid]
    have hnone := hn.dowait
    have heq : (dowait s.childpid { s with child := none }).childpid = 0 ∧
        (dowait s.childpid { s with child := none }).child = none ∧
        (dowait s.childpid { s with child := none }).phase = .elsewhere := by
      rw [Spawn.dowait, if_neg (by simp)]
      exact ⟨rfl, rfl, rfl⟩
    exact ⟨fun _ => heq.2.1, fun _ _ => hnone, fun h0 => absurd heq.1 h0, fun _ => heq.1,
      fun hp => nomatch heq.2.2.symm.trans hp⟩
  | echild hph hchild =>
    have h0 : s.childpid = 0 := by
      by_contra hne
      obtain ⟨n, hn⟩ := h.live hne
      obtain ⟨c, hc, -⟩ := hn.child
      cases hchild.symm.trans hc
    rw [Spawn.dowait, if_pos (by rw [h0]; decide)]
    exact ⟨h.idle, fun h0 _ => h.closed h0 (by rw [hph]; decide), fun hne => absurd h0 hne,
      fun _ => h0, nofun⟩
  | @exit c hchild => exact h.child { c with table := none } hchild rfl nofun true
  | signal =>
    refine ⟨h.idle, h.closed, fun hne => ?_, h.panicked, h.unspawned⟩
    obtain ⟨n, hn⟩ := h.live hne
    exact ⟨n, hn.congr fun _ _ _ => Iff.rfl⟩
  | files t hph ht =>
    refine ⟨h.idle, fun h0 hno fd q d hx => ?_, fun hne => ?_, h.panicked,
      fun hp => nomatch hph.symm.trans hp⟩
    · exact h.closed h0 hno fd q d ((ht fd q d).mp hx)
    · obtain ⟨n, hn⟩ := h.live hne
      exact ⟨n, hn.congr ht⟩
  | @ssh c t t' hchild ht hends =>
    refine h.child { c with table := some t' } hchild rfl (fun n hn => ?_) s.sigchld
    obtain ⟨c', hc', -, hown⟩ := hn.child
    obtain rfl : c = c' := Option.some.inj (hchild.symm.trans hc')
    have hno : ∀ q d, (∀ fd, t fd ≠ some (.pipe q d)) → ∀ fd, t' fd ≠ some (.pipe q d) := by
      intro q d hq fd hfd
      obtain ⟨fd', hfd'⟩ := hends fd q d hfd
      exact hq fd' hfd'
    rintro _ ⟨⟩ fd
    exact ⟨hno _ _ (fun fd => (hown t ht fd).1) fd, hno _ _ (fun fd => (hown t ht fd).2.1) fd,
      hno _ _ (fun fd => (hown t ht fd).2.2) fd⟩

/-- Before the first call. -/
structure Fresh (s : State) : Prop where
  childpid : s.childpid = 0
  child : s.child = none
  table : ∀ fd q d, s.table fd ≠ some (.pipe q d)
  phase : s.phase = .elsewhere

theorem Fresh.tidy (h : Fresh s) : Tidy s where
  idle _ := h.child
  closed _ _ := h.table
  live hne := absurd h.childpid hne
  panicked hp := nomatch h.phase.symm.trans hp
  unspawned hp := nomatch h.phase.symm.trans hp

/-- A process has the object open. -/
def Held (s : State) (x : Obj) : Prop :=
  (∃ fd, s.table fd = some x) ∨
    ∃ c t fd, s.child = some c ∧ c.table = some t ∧ t fd = some x

/-- What can be relied on at any time.

* Without a child there is no end of a pipe left, unless the program gives up.
* With one, ssh sees the end of its input exactly when the program has closed its writing end,
  and once ssh has exited the program sees the end of its output.
* The program waits in vain only for a second SIGCHLD.
* Where it has given up there is no child, and both ends of up to three pipes are open. -/
structure Reliable (s : State) : Prop where
  noneLeft : s.childpid = 0 → s.phase ≠ .unspawned → ∀ q d, ¬ Held s (.pipe q d)
  endOfInput : s.childpid ≠ 0 → ∃ n, (Held s (.pipe n .wr) ↔ 0 ≤ s.stdin.2) ∧
    (∀ fd, s.table fd = some (.pipe n .wr) → fd = s.stdin.2) ∧
    s.table s.stdout.1 = some (.pipe (n + 1) .rd) ∧
    s.table s.stderr.1 = some (.pipe (n + 2) .rd) ∧
    ((∀ c, s.child = some c → c.table = none) →
      ¬ Held s (.pipe (n + 1) .wr) ∧ ¬ Held s (.pipe (n + 2) .wr))
  panicked : s.phase = .panicked → s.childpid = 0
  unspawned : s.phase = .unspawned → s.childpid = 0 ∧ ∃ n m, m ≤ 3 ∧ s.pipes = n + m ∧
    ∀ q d, Held s (.pipe q d) ↔ n ≤ q ∧ q < n + m

theorem Tidy.reliable (h : Tidy s) : Reliable s where
  noneLeft h0 hno q d := by
    rintro (⟨fd, hfd⟩ | ⟨c, t, fd, hc, -, -⟩)
    · exact h.closed h0 hno fd q d hfd
    · cases (h.idle h0).symm.trans hc
  endOfInput hne := by
    obtain ⟨n, hn⟩ := h.live hne
    obtain ⟨c, hc, -, hown⟩ := hn.child
    refine ⟨n, ⟨?_, fun h0 => ?_⟩, fun fd hfd => ?_, (hn.ends _ _ _).mpr (by simp),
      (hn.ends _ _ _).mpr (by simp), fun hexit => ⟨?_, ?_⟩⟩
    · rintro (⟨fd, hfd⟩ | ⟨c', t, fd, hc', ht, hfd⟩)
      · have := (hn.ends _ _ _).mp hfd
        simp at this
        omega
      · obtain rfl : c = c' := Option.some.inj (hc.symm.trans hc')
        exact absurd hfd (hown t ht fd).1
    · exact .inl ⟨_, (hn.ends _ _ _).mpr (.inl ⟨rfl, h0, rfl, rfl⟩)⟩
    · have := (hn.ends _ _ _).mp hfd
      simp at this
      exact this.1
    all_goals
      rintro (⟨fd, hfd⟩ | ⟨c', t, fd, hc', ht, hfd⟩)
      · have := (hn.ends _ _ _).mp hfd
        simp at this
      · cases (hexit c' hc').symm.trans ht
  panicked := h.panicked
  unspawned hp := by
    obtain ⟨h0, n, m, hm, hpipes, hheld⟩ := h.unspawned hp
    refine ⟨h0, n, m, hm, hpipes, fun q d => (or_iff_left ?_).trans (hheld q d)⟩
    rintro ⟨c, t, fd, hc, -, -⟩
    cases (h.idle h0).symm.trans hc

/-- **The life of a child**, whatever happens in whatever order. -/
theorem lifecycle {s₀ : State} (h₀ : Fresh s₀) (h : Relation.ReflTransGen Step s₀ s) :
    Reliable s := by
  have htidy : Tidy s := by
    induction h with
    | refl => exact h₀.tidy
    | tail _ hs ih => exact hs.tidy ih
  exact htidy.reliable

theorem fresh_state₀ : Fresh state₀ where
  childpid := rfl
  child := rfl
  table fd q d h := by
    simp only [state₀] at h
    split at h <;> cases h
  phase := rfl

/-- The third pipe is one too many. -/
def kernel₁ : Kernel where
  limit := 16
  room i := i != 2
  fork := some 100
  fork_pos := by simp

/-- ssh is launched and told the end of its input, exits, and is waited for; or it is not
launched. -/
theorem lifecycle_kernel₀ :
    (∃ s, Relation.ReflTransGen Step state₀ s ∧ s.pipes = 3 ∧ s.childpid = 0 ∧ Reliable s) ∧
    ∃ s, Relation.ReflTransGen Step state₀ s ∧ s.pipes = 2 ∧ s.phase = .unspawned ∧
      Reliable s := by
  have hrun : Relation.ReflTransGen Step state₀ _ :=
    ((((Relation.ReflTransGen.single (.launch rfl rfl launch_kernel₀)).tail (.kill rfl)).tail
      (.exit rfl)).tail (.operate rfl rfl)).tail (.waited rfl rfl rfl)
  have hfails : launch kernel₁ [0x61] state₀ = ((launch kernel₁ [0x61] state₀).1, none) :=
    Prod.ext rfl rfl
  have hgiveUp : Relation.ReflTransGen Step state₀ _ := .single (.unspawned rfl rfl hfails)
  exact ⟨⟨_, hrun, rfl, rfl, lifecycle fresh_state₀ hrun⟩,
    _, hgiveUp, rfl, rfl, lifecycle fresh_state₀ hgiveUp⟩

end Swh.Spawn
