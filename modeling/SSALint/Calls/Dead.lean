/-
Dead functions: those that a program does not get to from its entry by direct calls. Before a dead
function is removed, every reference to it becomes an undefined pointer, so no id ever dangles.
-/
import SSALint.Calls.Graph
import SSALint.Config
import SSALint.Report

namespace SSALint

/-- What is known about a module before dead functions are removed from it. -/
structure DeadFuncs where
  entry : FuncId
  calls : CallGraph
  /-- The dead functions, ascending. -/
  dead : List FuncId
deriving DecidableEq, Repr

/-- The functions to keep: the entry and what it gets to by calls, at most two in a row or any
number. -/
def CallGraph.live (c : CallGraph) (entry : FuncId) : Reachability → List FuncId
  | .twoHop => entry :: c.callees entry ++ (c.callees entry).flatMap c.callees
  | .transitive => entry :: c.graph.reachable entry

namespace Module

/-- The functions of a module that are not kept, ascending. -/
def deadFuncs (m : Module) (c : CallGraph) (entry : FuncId) (mode : Reachability) : List FuncId :=
  let live := c.live entry mode
  m.funcs.keys.filter fun f => !live.contains f

/-- Finds the dead functions of a module, if the function that it starts in exists. -/
def findDeadFuncs? (m : Module) (config : Config) : Option DeadFuncs :=
  (m.funcNamed? config.entry).map fun entry =>
    let calls := m.callGraph
    ⟨entry, calls, m.deadFuncs calls entry config.reachability⟩

end Module

/-! ## Removal -/

/-- A function that was removed, and how many references to it were replaced. -/
structure RemovedFunc where
  name : String
  uses : Nat
deriving DecidableEq, Repr

/-- A module after the removal of its dead functions. -/
structure Pruned where
  module : Module
  /-- The name of the entry. -/
  entry : String
  removed : List RemovedFunc
deriving DecidableEq, Repr

/-- What takes the place of a reference to a removed function. -/
def undefinedFunc : Value := .const (.undef .ptr)

namespace Module

/-- Replaces the references to a function and removes it. -/
def dropFunc (m : Module) (f : FuncId) : Except Fault (Module × List RemovedFunc) := do
  let uses := m.useCount f
  let (removed, m) ← (m.replaceUses f undefinedFunc).removeFunc f
  return (m, (removed.map fun g => ⟨g.name, uses⟩).toList)

/-- Drops functions one after the other. -/
def dropFuncs (m : Module) : List FuncId → Except Fault (Module × List RemovedFunc)
  | [] => .ok (m, [])
  | f :: fs => do
    let (m, removed) ← m.dropFunc f
    let (m, others) ← m.dropFuncs fs
    return (m, removed ++ others)

/-- Removes the dead functions that were found in a module. -/
def prune (m : Module) (d : DeadFuncs) : Except Fault Pruned := do
  let entry ← m.funcs.get d.entry
  let (m, removed) ← m.dropFuncs d.dead
  return ⟨m, entry.name, removed⟩

end Module

/-- The report on a removal: the names of the entry, of what was removed, and of what is left. -/
def Pruned.report (p : Pruned) : DeadFuncReport where
  entry := p.entry
  removed := p.removed.map (·.name)
  remaining := p.module.funcNames

end SSALint
