/-
Programs as trees of names. The grammar of instructions is that of modules with mentions of names in
the place of ids, so that resolving a program is a renaming.
-/
import SSALint.IR.Operation
import SSALint.Source.Token

namespace SSALint.Source

/-- A value as it is written: local values and symbols by name. -/
abbrev NamedValue := Operand Mention Mention

/-- A result as it is written, with the type that its instruction gives it. -/
structure NamedResult where
  name : Mention
  type : Ty
deriving DecidableEq, Repr

/-- An instruction as it is written. -/
structure NamedInstr where
  result : Option NamedResult
  operation : Operation Mention Mention Mention
deriving DecidableEq, Repr

/-- A block; only the first one of a body may lack a label. -/
structure NamedBlock where
  label : Option Mention
  instrs : List NamedInstr
  terminator : Terminator Mention Mention Mention
deriving DecidableEq, Repr

/-- A parameter as it is written; it may lack a name. -/
structure NamedParam where
  type : Ty
  name : Option Mention
deriving DecidableEq, Repr

/-- What stands before the body of a function. -/
structure Head where
  ret : Ty
  name : Mention
  params : List NamedParam
  variadic : Bool
deriving DecidableEq, Repr

/-- A global variable; external ones have no initial value here. -/
structure NamedGlobal where
  name : Mention
  type : Ty
  init : Option NamedValue
deriving DecidableEq, Repr

/-- One item of a program. -/
inductive Item where
  | global (g : NamedGlobal)
  | declaration (head : Head)
  | definition (head : Head) (blocks : List NamedBlock)
deriving DecidableEq, Repr

/-- The name that an item defines. -/
def Item.name : Item → Mention
  | .global g => g.name
  | .declaration head => head.name
  | .definition head _ => head.name

end SSALint.Source
