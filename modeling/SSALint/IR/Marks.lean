/-
The verifier with marks: a table that tells of each local value of a function whether it was assigned so far. A
mark is written over the one that its key has to hold, so marking can end in a fault, which is told apart from a
violation.
-/
import SSALint.IR.Verify

namespace SSALint

/-- A check that finds a violation or does not, unless a fault cuts it short. -/
abbrev Check (α : Type) := ExceptT Violation (Except Fault) α

/-- A check that cannot be cut short. -/
def Check.ofExcept {α : Type} (x : Except Violation α) : Check α := ExceptT.mk (pure x)

namespace Func

/-- The marks of a function before anything is assigned. -/
def unassigned (f : Func) : Table Bool :=
  f.locals.keys.foldl (fun marks x => marks.insert x false) .empty

/-- Marks a parameter. -/
def markParam (f : Func) (marks : Table Bool) (x : LocalId) : Check (Table Bool) :=
  if f.locals.contains x then ExceptT.lift (marks.replace x true)
  else throw (.paramWithoutLocal f.name x)

/-- Marks the result of an instruction, which has to be there and not to be assigned. -/
def markResult (f : Func) (marks : Table Bool) (i : Instr) : Check (Table Bool) :=
  match i.result with
  | none => pure marks
  | some x =>
    match marks.get? x with
    | some false => pure (marks.insert x true)
    | some true => throw (.assignedTwice f.name x)
    | none => throw (.resultWithoutLocal f.name x)

end Func

namespace Module

/-- Checks a block: the results of its instructions, then its operands, then its targets. -/
def markBlock (m : Module) (f : Func) (marks : Table Bool) (b : Block) : Check (Table Bool) := do
  let marks ← b.instrs.foldlM f.markResult marks
  Check.ofExcept (b.operands.forM (m.verifyValue f))
  Check.ofExcept (b.targets.forM fun target =>
    if f.blocks.contains target then .ok () else .error (.unknownTarget f.name b.id target))
  return marks

/-- Checks a function: its parameters are marked, then its blocks are checked in order. -/
def markFunc (m : Module) (f : Func) : Check Unit := do
  let marks ← f.params.foldlM f.markParam f.unassigned
  let _ ← f.blocks.values.foldlM (m.markBlock f) marks

/-- Checks a module with marks. -/
def verifyMarked (m : Module) : Check Unit := do
  Check.ofExcept ((m.globals.values.filterMap (·.init)).forM (m.verifyValue none))
  m.funcs.values.forM m.markFunc

end Module
end SSALint
