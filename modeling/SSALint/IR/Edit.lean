/-
Edits of modules. Each changes one part and leaves the rest alone; an edit of something that is not
there changes nothing. References to what an edit takes away are left dangling, which the verifier
finds.
-/
import SSALint.IR.Module

namespace SSALint

namespace Block

/-- Gives the result of the instruction at a position to a local value, or to none. -/
def setResult (b : Block) (position : Nat) (x : Option LocalId) : Block :=
  { b with instrs := b.instrs.modify position fun i => { i with result := x } }

end Block

namespace Func

/-- Changes a block of a function. -/
def modifyBlock (f : Func) (b : BlockId) (g : Block → Block) : Func :=
  { f with blocks := f.blocks.modify b g }

/-- Takes a block away, whether or not something jumps to it. -/
def eraseBlock (f : Func) (b : BlockId) : Func := { f with blocks := f.blocks.erase b }

/-- Takes a local value away, whether or not it is used. -/
def eraseLocal (f : Func) (x : LocalId) : Func := { f with locals := f.locals.erase x }

/-- Adds a parameter behind the others. -/
def addParam (f : Func) (x : LocalId) : Func := { f with params := f.params ++ [x] }

end Func

namespace Module

/-- Changes a function of a module. -/
def modifyFunc (m : Module) (f : FuncId) (g : Func → Func) : Module :=
  { m with funcs := m.funcs.modify f g }

/-- Changes a block of a function of a module. -/
def modifyBlock (m : Module) (f : FuncId) (b : BlockId) (g : Block → Block) : Module :=
  m.modifyFunc f (·.modifyBlock b g)

/-- Removes a function whether or not it is referenced. -/
def eraseFunc (m : Module) (f : FuncId) : Module := { m with funcs := m.funcs.erase f }

/-- Removes a global whether or not it is referenced. -/
def eraseGlobal (m : Module) (g : GlobalId) : Module := { m with globals := m.globals.erase g }

/-- Gives a function another name; references go by id and stay. -/
def renameFunc (m : Module) (f : FuncId) (name : String) : Module :=
  m.modifyFunc f fun g => { g with name }

/-- Gives a global an initial value. -/
def setInit (m : Module) (g : GlobalId) (v : Value) : Module :=
  { m with globals := m.globals.modify g fun w => { w with init := some v } }

end Module
end SSALint
