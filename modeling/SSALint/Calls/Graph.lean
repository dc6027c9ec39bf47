/-
Direct calls. A function calls what the instructions of its reachable blocks call by name; a call
through a pointer counts for nothing, and neither does a block that control cannot get to.
-/
import SSALint.Flow.Func

namespace SSALint

/-- The functions that a block calls, in order and as often as it does. -/
def Block.calls (b : Block) : List FuncId := b.instrs.filterMap Instr.directCallee?

/-- The functions that the reachable blocks of a function call, in the order in which a search from
the entry comes to the blocks. -/
def Func.calls (f : Func) : List FuncId :=
  match f.entry? with
  | some entry =>
    (f.flow.reachable entry).flatMap fun b => ((f.blocks.get? b).map Block.calls).getD []
  | none => []

/-- The calls of each function. -/
abbrev CallGraph := Table (List FuncId)

/-- The call graph of a module. -/
def Module.callGraph (m : Module) : CallGraph := m.funcs.map Func.calls

namespace CallGraph

/-- The functions that a function calls; one that is not there calls none. -/
def callees (c : CallGraph) (f : FuncId) : List FuncId := (c.get? f).getD []

/-- The call graph as a graph of functions. -/
def graph (c : CallGraph) : Graph := ⟨c.keys, c.callees⟩

end CallGraph
end SSALint
