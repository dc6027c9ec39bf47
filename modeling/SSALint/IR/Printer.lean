/-
The text of modules. Names are looked up where the text stands: a local value and a block show by
name inside their function if they have one and by id otherwise, a symbol shows by name as long as
its global or function exists. Types of operands are those that the function gives them, not those
of an earlier text.
-/
import SSALint.IR.Module

namespace SSALint

/-- The place that a text stands in: a module and, inside a function, the function. -/
structure Names where
  module : Module
  func? : Option Func

namespace Names

variable (n : Names)

/-! ## Operands -/

/-- The label of a block, or `bb` and its id if it has none. -/
def label (b : BlockId) : String :=
  match n.func?.bind fun f => (f.blocks.get? b).bind (·.label) with
  | some name => name
  | none => "bb" ++ toString b

/-- A reference to a local value: by name, or by id if it has none here. -/
def localName (x : LocalId) : String :=
  match n.func?.bind fun f => f.localName? x with
  | some name => "%" ++ name
  | none => "%" ++ toString x

/-- A reference to a symbol; one that is no longer there shows by id, with a letter for its kind. -/
def symbol : Symbol → String
  | .global g =>
    match n.module.globals.get? g with
    | some v => "@" ++ v.name
    | none => "@g" ++ toString g
  | .func f =>
    match n.module.funcs.get? f with
    | some v => "@" ++ v.name
    | none => "@f" ++ toString f

/-- The text of a value without its type. -/
def value : Value → String
  | .var x => n.localName x
  | .symbol s => n.symbol s
  | .const c => c.print

/-- The type of a value; outside of a function all but literals count as pointers. -/
def typeOf (v : Value) : Ty :=
  match n.func?, v with
  | some f, v => f.typeOf v
  | none, .const c => c.type
  | none, _ => .ptr

/-- A value after its type. -/
def typed (v : Value) : String := (n.typeOf v).print ++ " " ++ n.value v

/-- Typed values, separated by a comma and a space. -/
def typedList (vs : List Value) : String := ", ".intercalate (vs.map n.typed)

/-- A block as the target of a jump. -/
def target (b : BlockId) : String := "label %" ++ n.label b

/-! ## Instructions -/

/-- The path of member indices that ends an instruction, each after a comma. -/
def path (indices : List UInt32) : String :=
  String.join (indices.map fun i => ", " ++ toString i.toNat)

/-- What two operands under one type look like. -/
def pair (t : Ty) (lhs rhs : Value) : String :=
  t.print ++ " " ++ n.value lhs ++ ", " ++ n.value rhs

/-- One alternative of a `phi`, set off by a space. -/
def incoming (alt : Value × BlockId) : String :=
  " [ " ++ n.value alt.1 ++ ", %" ++ n.label alt.2 ++ " ]"

/-- The text of an operation: its opcode, then types and operands as the opcode calls for them. -/
def operation : Operation LocalId Symbol BlockId → String
  | .alloca t => "alloca " ++ t.print
  | .store value ptr => "store " ++ n.typed value ++ ", " ++ n.typed ptr
  | .load t ptr => "load " ++ t.print ++ ", " ++ n.typed ptr
  | .binary op t lhs rhs => Spelled.spelling op ++ " " ++ n.pair t lhs rhs
  | .icmp pred t lhs rhs => "icmp " ++ Spelled.spelling pred ++ " " ++ n.pair t lhs rhs
  | .fcmp pred t lhs rhs => "fcmp " ++ Spelled.spelling pred ++ " " ++ n.pair t lhs rhs
  | .cast op value t => Spelled.spelling op ++ " " ++ n.typed value ++ " to " ++ t.print
  | .phi t alts => "phi " ++ t.print ++ ",".intercalate (alts.map n.incoming)
  | .select cond whenTrue whenFalse => "select " ++ n.typedList [cond, whenTrue, whenFalse]
  | .getElementPtr t ptr indices =>
    "getelementptr " ++ t.print ++ ", " ++ n.typedList (ptr :: indices)
  | .extractValue aggregate indices => "extractvalue " ++ n.typed aggregate ++ path indices
  | .insertValue aggregate value indices =>
    "insertvalue " ++ n.typedList [aggregate, value] ++ path indices
  | .extractElement vector index => "extractelement " ++ n.typedList [vector, index]
  | .insertElement vector value index => "insertelement " ++ n.typedList [vector, value, index]
  | .call ret callee args =>
    "call " ++ ret.print ++ " " ++ n.value callee ++ "(" ++ n.typedList args ++ ")"

/-- The text of an instruction, the name of its result in front. -/
def instr (i : Instr) : String :=
  match i.result with
  | some x => n.localName x ++ " = " ++ n.operation i.operation
  | none => n.operation i.operation

/-- One case of a `switch`. -/
def switchCase (case : Constant × BlockId) : String :=
  case.1.type.print ++ " " ++ case.1.print ++ ", " ++ n.target case.2

/-- The text of a terminator. -/
def terminator : Terminator LocalId Symbol BlockId → String
  | .br b => "br " ++ n.target b
  | .condBr cond whenTrue whenFalse =>
    "br " ++ n.typed cond ++ ", " ++ n.target whenTrue ++ ", " ++ n.target whenFalse
  | .switch value default cases =>
    "switch " ++ n.typed value ++ ", " ++ n.target default ++ " [" ++
      " ".intercalate (cases.map n.switchCase) ++ "]"
  | .indirectBr address targets =>
    "indirectbr " ++ n.typed address ++ ", [" ++ ", ".intercalate (targets.map n.target) ++ "]"
  | .ret none => "ret void"
  | .ret (some v) => "ret " ++ n.typed v
  | .unreachable => "unreachable"

/-! ## Blocks, functions, modules -/

/-- A line inside a block. -/
def line (text : String) : String := "  " ++ text ++ "\n"

/-- The text of a block: the line of its label, whether it has got one or not, and a line for each instruction. -/
def block (b : Block) : String :=
  n.label b.id ++ ":\n" ++ String.join (b.instrs.map fun i => line (n.instr i)) ++
    line (n.terminator b.terminator)

/-- The text of a global: external, or with its initial value. -/
def global (v : Global) : String :=
  if v.external then "@" ++ v.name ++ " = external global " ++ v.type.print
  else
    "@" ++ v.name ++ " = global " ++ v.type.print ++
      match v.init with
      | some init => " " ++ n.value init
      | none => ""

end Names

namespace Func

/-- One parameter in the head of a function: a declaration states its type alone, which it has to
have a local for. -/
def printParam (f : Func) (m : Module) (x : LocalId) : Except Fault String :=
  if f.isDeclaration then do
    let p ← f.locals.get x
    return p.type.print
  else .ok (Names.typed ⟨m, f⟩ (.var x))

/-- The text of a function, ending in a newline. -/
def print (f : Func) (m : Module) : Except Fault String := do
  let params ← f.params.mapM (f.printParam m)
  let params := if f.variadic then params ++ ["..."] else params
  let head := f.ret.print ++ " @" ++ f.name ++ "(" ++ ", ".intercalate params ++ ")"
  if f.isDeclaration then
    return "declare " ++ head ++ "\n"
  else
    let blocks := f.blocks.values.map (Names.block ⟨m, f⟩)
    return "define " ++ head ++ " \x7b\n" ++ String.join blocks ++ "\x7d\n"

end Func

/-- The text of a module: the globals a line each, then the functions with an empty line before
each one that does not come first. -/
def Module.print (m : Module) : Except Fault String := do
  let globals := m.globals.values.map fun v => Names.global ⟨m, none⟩ v ++ "\n"
  let funcs ← m.funcs.values.mapM (Func.print · m)
  if globals.isEmpty then return "\n".intercalate funcs
  else return String.join globals ++ String.join (funcs.map ("\n" ++ ·))

end SSALint
