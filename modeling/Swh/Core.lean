/-
The main loop (core.c).

`core_run` operates sc while it is busy, waits for the switch whenever sc asks
for it, hands output and prompt to the user front end and queues what the user
answers.  `Core.Step` is one step of the loop: what `read(2)` returns and what the
front end delivers is up to the environment.
-/
import Swh.Sc
import Swh.Lib.Runs

namespace Swh.Core

/-- Where the loop is. -/
inductive Phase
  /-- At the test `sc_busy()`; `woken` if `selectfd` has just returned. -/
  | loop (woken : Bool)
  /-- In `selectfd(sc_getfd(), true)`. -/
  | select
  /-- Output and prompt were handed over, and the user front end is asked for data. -/
  | user
  /-- The run has ended early. -/
  | stopped (e : Stop)
  deriving DecidableEq

/-- A state of the run. -/
structure Conf where
  sc : Sc
  phase : Phase

/-- The state when the loop is entered. -/
def start : Conf := ⟨scInit, .loop false⟩

/-- Hand the reply, if there is one, and the prompt to the user front end. -/
def putReply (s : Sc) : Logged Ev Stop Unit := do
  if scHasreply s then
    let rep ← Logged.lift (scGetreply s)
    Logged.tell (.put rep)
  let ps1 ← Logged.lift (scGetps1 s)
  Logged.tell (.put ps1)

/-- Where the loop goes after `sc_operate`. -/
def operated (s : Sc) : Except Stop (Sc × Bool) → Conf
  | .ok (s', true) => ⟨s', .loop false⟩
  | .ok (s', false) => ⟨s', .select⟩
  | .error e => ⟨s, .stopped e⟩

/-- Where it goes after output and prompt were handed over. -/
def handed (s : Sc) : Except Stop Unit → Conf
  | .ok () => ⟨s, .user⟩
  | .error e => ⟨s, .stopped e⟩

/-- Where it goes after `sc_write`. -/
def queued (s : Sc) : Except Stop Sc → Conf
  | .ok s' => ⟨s', .loop false⟩
  | .error e => ⟨s, .stopped e⟩

/-- One step of the loop, with the events it gives rise to.  The read that follows
`selectfd` does not find the pipe empty. -/
inductive Step : Conf → List Ev → Conf → Prop
  | operate {s w} (r : ReadResult) (hbusy : scBusy s = true) (hfits : r.Fits s)
      (hwoken : w = true → r ≠ .eagain) :
      Step ⟨s, .loop w⟩ (scOperate r s).log (operated s (scOperate r s).res)
  | wake {s} : Step ⟨s, .select⟩ [] ⟨s, .loop true⟩
  | offline {s w} (hoff : scOffline s = true) :
      Step ⟨s, .loop w⟩ [] ⟨s, .stopped (.panic .scOffline)⟩
  | hand {s w} (hbusy : scBusy s = false) (hon : scOffline s = false) :
      Step ⟨s, .loop w⟩ (putReply s).log (handed s (putReply s).res)
  | write {s} (str : List UInt8) (hstr : str ≠ []) :
      Step ⟨s, .user⟩ (scWrite str s).log (queued s (scWrite str s).res)

/-- The runs of the loop. -/
abbrev Run : Conf → List Ev → Conf → Prop := Runs Step

end Swh.Core
