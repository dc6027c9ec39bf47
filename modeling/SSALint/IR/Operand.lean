/-
The values that instructions consume. An operand is generic in what a local value and a module
level symbol are called: while a program is still text they are names, and in a module they are ids.
-/
import SSALint.IR.Ty
import SSALint.Double.Shortest

namespace SSALint

/-- The key of a function in its module. -/
abbrev FuncId := Nat
/-- The key of a global in its module. -/
abbrev GlobalId := Nat
/-- The key of a local value in its function. -/
abbrev LocalId := Nat
/-- The key of a block in its function. -/
abbrev BlockId := Nat

/-- A literal. -/
inductive Constant where
  | int (bits : UInt32) (value : Int64)
  | float (type : Ty) (value : Double)
  | null
  | undef (type : Ty)
deriving DecidableEq, Repr

namespace Constant

/-- The type of a literal. -/
def type : Constant → Ty
  | .int bits _ => .int bits
  | .float t _ => t
  | .null => .ptr
  | .undef t => t

/-- The text of a literal without its type. One bit integers are written as truth values. -/
def print : Constant → String
  | .int bits value =>
    if bits = 1 then if value = 0 then "false" else "true" else toString value.toInt
  | .float _ value => value.print
  | .null => "null"
  | .undef _ => "undef"

end Constant

/-- A value that an instruction consumes: a local value, a symbol of the module, or a literal. -/
inductive Operand (L S : Type) where
  | var (name : L)
  | symbol (name : S)
  | const (value : Constant)
deriving DecidableEq, Repr

namespace Operand

variable {L S L' S' : Type}

/-- Renames the local values and the symbols of an operand. -/
def map (f : L → L') (g : S → S') : Operand L S → Operand L' S'
  | .var x => .var (f x)
  | .symbol s => .symbol (g s)
  | .const c => .const c

/-- The local value that an operand is. -/
def var? : Operand L S → Option L
  | .var x => some x
  | _ => none

/-- The symbol that an operand is. -/
def symbol? : Operand L S → Option S
  | .symbol s => some s
  | _ => none

/-- Whether the operand is known before the function runs; references to symbols are. -/
def isConstant : Operand L S → Bool
  | .var _ => false
  | _ => true

end Operand

/-- What a name with an `@` stands for in a module. -/
inductive Symbol where
  | global (id : GlobalId)
  | func (id : FuncId)
deriving DecidableEq, Repr, Inhabited

/-- An operand of a module, where names are ids. -/
abbrev Value := Operand LocalId Symbol

/-- The function that a value refers to, if it is a reference to a function. -/
def Operand.func? : Value → Option FuncId
  | .symbol (.func f) => some f
  | _ => none

end SSALint
