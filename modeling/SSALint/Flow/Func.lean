/-
The control flow graph of a function: its blocks, with an edge for every target of a terminator.
-/
import SSALint.Flow.Graph
import SSALint.IR.Module

namespace SSALint.Func

/-- The ends of the edges that leave a block; a block that is not there has none. -/
def successors (f : Func) (b : BlockId) : List BlockId :=
  match f.blocks.get? b with
  | some block => block.successors
  | none => []

/-- The control flow graph. -/
def flow (f : Func) : Graph := ⟨f.blocks.keys, f.successors⟩

/-- The blocks that can be reached from the entry, in an order in which a block comes before its
successors unless they lead back to it. -/
def flowOrder (f : Func) : List BlockId :=
  match f.entry? with
  | some entry => f.flow.reversePostorder entry
  | none => []

end SSALint.Func
