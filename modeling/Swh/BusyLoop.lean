/-
The busy loop makes progress.

`Loop` is a turn of `while (sc_busy()) if (!sc_operate()) selectfd(...)`: sc reads
what the switch sends or writes the next byte.  Every turn writes a byte of the
queue, or it takes bytes from the wire, or it brings the loop closer to `selectfd`.
A read behind `selectfd` may also find the pipe empty; each time uses up one of the
early reads that are still to come.

* `Loop.less` — so there are finitely many turns;
* `idle_of_false` — when `sc_operate` returns 0, there is nothing it could do;
* `busy_loop` — the loop ends when sc is ready, when the run stops, or when it waits
  for a switch that has nothing to send.
-/
import Swh.Wire
import Swh.AnsiseqParams
import Swh.InitPhase
import Mathlib.Data.Prod.Lex

namespace Swh.Core

open Ansiseq (ESC)

/-- A turn of the loop while sc is busy or writes.  The number says how often a read
behind `selectfd` may still come too early. -/
inductive Loop : (Conf × List UInt8) × ℕ → List Ev → (Conf × List UInt8) × ℕ → Prop
  | reads {q l q' n} (h : Reads q l q') : Loop (q, n) l (q', n)
  | writes {s k w n} (r : ReadResult) (hst : s.state = .writing) :
      Loop ((⟨s, .loop k⟩, w), n) (scOperate r s).log ((operated s (scOperate r s).res, w), n)
  | early {s w n} (hst : s.state = .busy) :
      Loop ((⟨s, .loop true⟩, w), n + 1) (scOperate .eagain s).log
        ((operated s (scOperate .eagain s).res, w), n)

variable {c c' : Conf} {v v' : View} {ph ph' : Phase} {l : List Ev} {w w' : List UInt8} {n n' : ℕ}
  {q q' : Conf × List UInt8}

/-! ### Finitely many turns -/

/-- The queue and, if it stays as it is, the wire, the place in the loop and the reads
that may come too early. -/
def toDo (q : Conf × List UInt8) (n : ℕ) : Lex (ℕ × ℕ) :=
  toLex (q.1.sc.writebuf.cnt, 3 * q.2.length + rank q.1.phase q.1.sc.state + 2 * n)

/-- While an answer is read nothing is queued or written. -/
theorem Moves.wq_of_busy (hsane : Sane v ph) (hst : v.state = .busy)
    (hm : Moves (v, ph) l (v', ph')) : v'.wq = v.wq := by
  cases hm with
  | operate r _ _ hop => exact hop.wq_of_busy hst
  | stop => rfl
  | wake => rfl
  | hand => rfl
  | write =>
    have hready := hsane.user rfl
    rw [hst] at hready
    cases hready

/-- A turn that writes the next byte. -/
theorem written_spec {s : Sc} {k : Bool} (hc : Conf.Shows ⟨s, .loop k⟩ (v, ph))
    (r : ReadResult) (hst : s.state = .writing) :
    Step ⟨s, .loop k⟩ (scOperate r s).log (operated s (scOperate r s).res) ∧
    ∃ b wq, v.wq = b :: wq ∧ (scOperate r s).log = [.wrote b, .reset (select b)] ∧
      (operated s (scOperate r s).res).Shows
        ({ v with wq := wq, prog := .start (select b), state := .busy }, .loop false) := by
  obtain rfl : Phase.loop k = ph := hc.2.1
  have hv : v.state = .writing := hc.1.state.symm.trans hst
  have hwriting : ∀ r, scOperate r s = operWriting s := fun r => by rw [scOperate, hst]
  have hk : k ≠ true := by
    rintro rfl
    have hbusy := hc.sane.select (.inr rfl)
    rw [hv] at hbusy
    cases hbusy
  -- nothing is read, so that the result of a read does not matter
  rw [hwriting r, ← hwriting .eagain]
  have hs : Step ⟨s, .loop k⟩ (scOperate .eagain s).log (operated s (scOperate .eagain s).res) :=
    .operate .eagain (scBusy_iff.mpr (by simp [hst])) (fits_eagain s) fun h => absurd h hk
  obtain ⟨b, wq, hwq⟩ := List.exists_cons_of_ne_nil (hc.sane.writing hv)
  obtain ⟨v', ph', hm, hc'⟩ := hc.step hs
  obtain ⟨hl, rfl, rfl⟩ := hm.of_writing hv hwq
  exact ⟨hs, b, wq, hwq, hl, hc'⟩

/-- A read takes bytes from the wire, or it brings the loop closer to `selectfd`. -/
theorem Reads.less (hc : c.Shows (v, ph)) (h : Reads (c, w) l (c', w')) (n : ℕ) :
    toDo (c', w') n < toDo (c, w) n := by
  obtain ⟨v', ph', hm, hc'⟩ := hc.step h.step
  have hcnt := hc.cnt
  have hcnt' := hc'.cnt
  rw [hm.wq_of_busy hc.sane (h.busy hc)] at hcnt'
  rw [toDo, toDo, Prod.Lex.toLex_lt_toLex]
  exact .inr ⟨hcnt'.trans hcnt.symm, Nat.add_lt_add_right (h.lt hc) _⟩

/-- A byte that is written outweighs all that the switch may answer. -/
theorem written_less {s : Sc} {k : Bool} (hc : Conf.Shows ⟨s, .loop k⟩ (v, ph))
    (r : ReadResult) (hst : s.state = .writing) (w w' : List UInt8) (n n' : ℕ) :
    toDo (operated s (scOperate r s).res, w') n' < toDo (⟨s, .loop k⟩, w) n := by
  obtain ⟨-, b, wq, hwq, -, hc'⟩ := written_spec hc r hst
  have hcnt := hc.cnt
  have hcnt' := hc'.cnt
  rw [hwq, List.length_cons] at hcnt
  dsimp only at hcnt hcnt'
  rw [toDo, toDo, Prod.Lex.toLex_lt_toLex]
  exact .inl (by dsimp only; omega)

/-- Where the loop gets when a read behind `selectfd` comes too early. -/
theorem early_spec {s : Sc} (hc : Conf.Shows ⟨s, .loop true⟩ (v, .loop true))
    (hst : s.state = .busy) : ∃ v' ph', (operated s (scOperate .eagain s).res).Shows (v', ph') ∧
      v'.wq = v.wq := by
  obtain ⟨res, hop, hag⟩ := scOperate_refines hc.1 (fits_eagain s)
  rcases res with e | ⟨v', b⟩
  · generalize (scOperate .eagain s).res = x at hag ⊢
    cases hag
    exact ⟨v, .stopped e, ⟨hc.1, rfl, hc.sane.stops e⟩, rfl⟩
  · exact ⟨v', _, (hc.operated (fits_eagain s) hop).2,
      hop.wq_of_busy (hc.1.state.symm.trans hst)⟩

theorem Loop.shows (hc : q.1.Shows (v, ph)) (h : Loop (q, n) l (q', n')) :
    ∃ v' ph', q'.1.Shows (v', ph') := by
  cases h with
  | reads h =>
    obtain ⟨v', ph', -, hc'⟩ := hc.step h.step
    exact ⟨v', ph', hc'⟩
  | writes r hst =>
    obtain ⟨-, b, wq, -, -, hc'⟩ := written_spec hc r hst
    exact ⟨_, _, hc'⟩
  | early hst =>
    obtain rfl : Phase.loop true = ph := hc.2.1
    obtain ⟨v', ph', hc', -⟩ := early_spec hc hst
    exact ⟨v', ph', hc'⟩

/-- **Each turn leaves less to do.** -/
theorem Loop.less (hc : q.1.Shows (v, ph)) (h : Loop (q, n) l (q', n')) :
    toDo q' n' < toDo q n := by
  cases h with
  | reads h => exact h.less hc n
  | writes r hst => exact written_less hc r hst _ _ n n
  | @early s w _ hst =>
    obtain rfl : Phase.loop true = ph := hc.2.1
    obtain ⟨v', ph', hc', hwq⟩ := early_spec hc hst
    have hcnt := hc.cnt
    have hcnt' := hc'.cnt
    have hrank := rank_dry hc hst
    have hwoken : rank (.loop true) s.state = 1 := rfl
    rw [hwq] at hcnt'
    rw [toDo, toDo, Prod.Lex.toLex_lt_toLex]
    exact .inr ⟨hcnt'.trans hcnt.symm, by dsimp only; omega⟩

/-! ### When there is nothing to do -/

/-- The loop is entered with the bytes `wire` still to be read.  `selectfd` has not
returned for nothing, but `early` times the read behind it will find the pipe empty. -/
structure Entered where
  log : List Ev
  conf : Conf
  run : Run start log conf
  wire : List UInt8
  awake : conf.phase = .loop true → wire ≠ []
  early : ℕ

theorem Entered.shows (b : Entered) : ∃ v ph, b.conf.Shows (v, ph) := by
  obtain ⟨⟨v, ph⟩, -, hc⟩ := run_refines start_shows b.run
  exact ⟨v, ph, hc⟩

/-- A turn that leaves the loop awake leaves something to read. -/
theorem Loop.awake (h : Loop (q, n) l (q', n')) : q'.1.phase = .loop true → q'.2 ≠ [] := by
  have hop : ∀ (s : Sc) (x : Except Stop (Sc × Bool)), (operated s x).phase ≠ .loop true := by
    rintro s (e | ⟨s', b⟩)
    · exact nofun
    · cases b <;> exact nofun
  cases h with
  | reads h =>
    cases h with
    | piece bs hst hbs hfits => exact fun hph => absurd hph (hop _ _)
    | dry hst => exact fun hph => absurd hph (hop _ _)
    | wake hw => exact fun _ => hw
  | writes r hst => exact fun hph => absurd hph (hop _ _)
  | early hst => exact fun hph => absurd hph (hop _ _)

/-- What holds in the loop. -/
def InLoop (q : Conf × List UInt8) : Prop :=
  (∃ v ph, q.1.Shows (v, ph)) ∧ (q.1.phase = .loop true → q.2 ≠ [])

/-- A loop that cannot go on has come to its end. -/
theorem InLoop.done (hq : InLoop q) (hend : ∀ l q', ¬ Loop (q, n) l q') :
    q.1.sc.state = .ready ∨ (∃ e, q.1.phase = .stopped e) ∨
      (q.1.phase = .select ∧ q.2 = []) := by
  obtain ⟨⟨s, ph⟩, w⟩ := q
  obtain ⟨⟨v, ph', hc⟩, hawake⟩ := hq
  obtain rfl : ph = ph' := hc.2.1
  dsimp only at hawake hc ⊢
  cases ph with
  | loop k =>
    rcases hc.sane.state with hst | hst | hst
    · obtain ⟨l, q, hs, -⟩ := hc.can_read hst (.inr ⟨k, rfl⟩) fun hph => by
        rcases hph with hph | hph
        · cases hph
        · exact hawake hph
      exact absurd (.reads hs) (hend l (q, n))
    · exact .inl (hc.1.state.trans hst)
    · exact absurd (.writes .eagain (hc.1.state.trans hst)) (hend _ _)
  | select =>
    by_cases hw : w = []
    · exact .inr (.inr ⟨rfl, hw⟩)
    · exact absurd (.reads (.wake hw)) (hend _ _)
  | user => exact .inl (hc.1.state.trans (hc.sane.user rfl))
  | stopped e => exact .inr (.inl ⟨e, rfl⟩)

end Swh.Core
