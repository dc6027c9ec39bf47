/-
The verifier: every reference in a module resolves and every local value is assigned once. It goes
through the module in order and stops at the first violation.
-/
import SSALint.IR.Module

namespace SSALint

/-- What a reference leads to that is not there. -/
inductive Dangling where
  | func (id : FuncId)
  | global (id : GlobalId)
  | var (id : LocalId)
deriving DecidableEq, Repr

/-- A violation of the rules for modules, in the function of a name where it lies in one. -/
inductive Violation where
  /-- An operand refers to nothing; outside of functions the owner is missing. -/
  | dangling (owner : Option String) (reference : Dangling)
  | paramWithoutLocal (owner : String) (x : LocalId)
  | resultWithoutLocal (owner : String) (x : LocalId)
  | assignedTwice (owner : String) (x : LocalId)
  | unknownTarget (owner : String) (source target : BlockId)
deriving DecidableEq, Repr

/-- The wording of a reference to nothing; it is told by its id, having no name. -/
def Dangling.message : Dangling → String
  | .func id => s!"reference to removed function f{id}"
  | .global id => s!"reference to unknown global g{id}"
  | .var id => s!"reference to unknown local %{id}"

/-- The wording of a violation, its owner in front. -/
def Violation.message : Violation → String
  | .dangling owner reference => owner.getD "<global>" ++ ": " ++ reference.message
  | .paramWithoutLocal owner x => owner ++ s!": parameter %{x} has no local"
  | .resultWithoutLocal owner x => owner ++ s!": result %{x} has no local"
  | .assignedTwice owner x => owner ++ s!": local %{x} is assigned more than once"
  | .unknownTarget owner source target =>
    owner ++ s!": bb{source} jumps to unknown block bb{target}"

namespace Module

/-- What a value refers to in vain, if it does; without a function no local value is known. -/
def dangling? (m : Module) (f : Option Func) : Value → Option Dangling
  | .symbol (.func id) => if m.funcs.contains id then none else some (.func id)
  | .symbol (.global id) => if m.globals.contains id then none else some (.global id)
  | .var id =>
    if f.any fun f => f.locals.contains id then none else some (.var id)
  | .const _ => none

/-- Checks that a value resolves. -/
def verifyValue (m : Module) (f : Option Func) (v : Value) : Except Violation Unit :=
  match m.dangling? f v with
  | some reference => .error (.dangling (f.map (·.name)) reference)
  | none => .ok ()

/-- Checks the result of an instruction and adds it to the values assigned so far. -/
def verifyResult (f : Func) (assigned : List LocalId) (i : Instr) :
    Except Violation (List LocalId) :=
  match i.result with
  | none => .ok assigned
  | some x =>
    if !f.locals.contains x then .error (.resultWithoutLocal f.name x)
    else if assigned.contains x then .error (.assignedTwice f.name x)
    else .ok (x :: assigned)

/-- Checks a block: the results of its instructions, then its operands, then its targets. -/
def verifyBlock (m : Module) (f : Func) (assigned : List LocalId) (b : Block) :
    Except Violation (List LocalId) := do
  let assigned ← b.instrs.foldlM (verifyResult f) assigned
  b.operands.forM (m.verifyValue f)
  b.targets.forM fun target =>
    if f.blocks.contains target then .ok () else .error (.unknownTarget f.name b.id target)
  return assigned

/-- Checks a function: its parameters, which count as assigned, then its blocks in order. -/
def verifyFunc (m : Module) (f : Func) : Except Violation Unit := do
  f.params.forM fun x =>
    if f.locals.contains x then .ok () else .error (.paramWithoutLocal f.name x)
  let _ ← f.blocks.values.foldlM (m.verifyBlock f) f.params

/-- Checks a module: the initial values of its globals, then its functions in order. -/
def verify (m : Module) : Except Violation Unit := do
  (m.globals.values.filterMap (·.init)).forM (m.verifyValue none)
  m.funcs.values.forM m.verifyFunc

end Module
end SSALint
