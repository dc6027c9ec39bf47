/-
Modules: global variables and functions, a function being a table of blocks and a table of local
values. Blocks, functions and modules list their operands, and one positional substitution of
operands serves every change that is made to them. Main statement: substituting the operands of a
block changes their list as `List.mapIdx` does.
-/
import SSALint.Table
import SSALint.IR.Operation

namespace SSALint

/-- An instruction and the local value that receives its result. -/
structure Instr where
  result : Option LocalId
  operation : Operation LocalId Symbol BlockId
deriving DecidableEq, Repr

/-- A block: instructions in order, then a terminator. -/
structure Block where
  id : BlockId
  label : Option String
  instrs : List Instr
  terminator : Terminator LocalId Symbol BlockId
deriving DecidableEq, Repr

/-- A local value: a parameter or the result of an instruction. Without a name it is written as
its id. -/
structure Local where
  id : LocalId
  type : Ty
  name : Option String
deriving DecidableEq, Repr

/-- A function. One without blocks is declared only; the block of the least id is the one that control enters. -/
@[ext]
structure Func where
  id : FuncId
  name : String
  ret : Ty
  params : List LocalId
  variadic : Bool
  locals : Table Local
  blocks : Table Block
deriving DecidableEq, Repr

/-- A global variable. -/
@[ext]
structure Global where
  id : GlobalId
  name : String
  type : Ty
  init : Option Value
  external : Bool
deriving DecidableEq, Repr

/-- A module: global variables and functions, each under an id. -/
@[ext]
structure Module where
  globals : Table Global
  funcs : Table Func
deriving DecidableEq, Repr

instance : Keyed Block := ⟨Block.id⟩
instance : Keyed Local := ⟨Local.id⟩
instance : Keyed Func := ⟨Func.id⟩
instance : Keyed Global := ⟨Global.id⟩

/-! ## Blocks -/

namespace Instr

/-- The operands of the operation, in the order of the text. -/
def operands (i : Instr) : List Value := i.operation.operands
/-- The blocks that the operation names, in the order of the text. -/
def targets (i : Instr) : List BlockId := i.operation.targets

/-- The function that the instruction calls by name; a call through a pointer has none. -/
def directCallee? (i : Instr) : Option FuncId :=
  match i.operation with
  | .call _ callee _ => callee.func?
  | _ => none

/-- The slot that the instruction makes, if it makes one and keeps its address. -/
def slot? (i : Instr) : Option LocalId :=
  match i.operation with
  | .alloca _ => i.result
  | _ => none

end Instr

namespace Block

/-- The operands of the instructions and of the terminator, in order. -/
def operands (b : Block) : List Value :=
  b.instrs.flatMap Instr.operands ++ b.terminator.operands

/-- The blocks named in the instructions and in the terminator, in order. -/
def targets (b : Block) : List BlockId :=
  b.instrs.flatMap Instr.targets ++ b.terminator.targets

/-- Where control may pass to, as often as the terminator names it. -/
def successors (b : Block) : List BlockId := b.terminator.targets

/-- Substitutes the operands of a row of instructions, positions counted from `start`. -/
def mapInstrOperands (f : Nat → Value → Value) : (start : Nat) → List Instr → List Instr
  | _, [] => []
  | start, i :: is =>
    { i with operation := i.operation.mapOperands fun k => f (start + k) } ::
      mapInstrOperands f (start + i.operands.length) is

/-- Substitutes the operands of a block; `f` is told the position of each in `operands`. -/
def mapOperands (f : Nat → Value → Value) (b : Block) : Block :=
  { b with
    instrs := mapInstrOperands f 0 b.instrs
    terminator :=
      b.terminator.mapOperands fun k => f ((b.instrs.flatMap Instr.operands).length + k) }

/-- Substitutes the targets of a row of instructions, positions counted from `start`. -/
def mapInstrTargets (f : Nat → BlockId → BlockId) : (start : Nat) → List Instr → List Instr
  | _, [] => []
  | start, i :: is =>
    { i with operation := i.operation.mapTargets fun k => f (start + k) } ::
      mapInstrTargets f (start + i.targets.length) is

/-- Substitutes the targets of a block; `f` is told the position of each in `targets`. -/
def mapTargets (f : Nat → BlockId → BlockId) (b : Block) : Block :=
  { b with
    instrs := mapInstrTargets f 0 b.instrs
    terminator :=
      b.terminator.mapTargets fun k => f ((b.instrs.flatMap Instr.targets).length + k) }

/-- Puts `v` in the place of the operand at a position. -/
def setOperand (b : Block) (position : Nat) (v : Value) : Block :=
  b.mapOperands fun k old => if k = position then v else old

/-- Puts `target` in the place of the target at a position. -/
def setTarget (b : Block) (position : Nat) (target : BlockId) : Block :=
  b.mapTargets fun k old => if k = position then target else old

theorem operands_mapInstrOperands (f : Nat → Value → Value) (start : Nat) (is : List Instr) :
    (mapInstrOperands f start is).flatMap Instr.operands =
      (is.flatMap Instr.operands).mapIdx fun k => f (start + k) := by
  induction is generalizing start with
  | nil => rfl
  | cons i is ih =>
    simp [mapInstrOperands, ih, Instr.operands, List.mapIdx_append, Nat.add_comm, Nat.add_left_comm]

@[simp] theorem operands_mapOperands (f : Nat → Value → Value) (b : Block) :
    (b.mapOperands f).operands = b.operands.mapIdx f := by
  simp [mapOperands, operands, operands_mapInstrOperands, List.mapIdx_append, Nat.add_comm]

end Block

/-! ## Functions -/

namespace Func

/-- Whether the function has no body. -/
def isDeclaration (f : Func) : Bool := f.blocks.isEmpty

/-- The block that control enters: the one of least id. -/
def entry? (f : Func) : Option BlockId := f.blocks.keys.head?

/-- Whether a local value is a parameter. -/
def isParam (f : Func) (x : LocalId) : Bool := f.params.contains x

/-- The name of a local value, if the value exists and has one. -/
def localName? (f : Func) (x : LocalId) : Option String := (f.locals.get? x).bind (·.name)

/-- Whether some local value of the function bears a name. -/
def hasLocalNamed (f : Func) (name : String) : Bool :=
  f.locals.values.any fun x => x.name == some name

/-- The type of a value inside the function. Symbols are pointers; a value without a local has no
type to speak of and counts as void. -/
def typeOf (f : Func) : Value → Ty
  | .var x => ((f.locals.get? x).map (·.type)).getD .void
  | .symbol _ => .ptr
  | .const c => c.type

/-- The instructions of all blocks, in the order of the blocks. -/
def instrs (f : Func) : List Instr := f.blocks.values.flatMap (·.instrs)

/-- The operands of all blocks, in the order of the blocks. -/
def operands (f : Func) : List Value := f.blocks.values.flatMap Block.operands

/-- Substitutes every operand of a function. -/
def mapOperands (g : Value → Value) (f : Func) : Func :=
  { f with blocks := f.blocks.map (Block.mapOperands fun _ => g) }

end Func

/-! ## Modules -/

namespace Module

/-- The module with nothing in it. -/
def empty : Module := ⟨.empty, .empty⟩

instance : Inhabited Module := ⟨empty⟩

/-- The function of a name; of several the one of least id. -/
def funcNamed? (m : Module) (name : String) : Option FuncId :=
  (m.funcs.toList.find? fun (_, f) => f.name == name).map (·.1)

/-- The names of the functions in the order of their ids. -/
def funcNames (m : Module) : List String := m.funcs.values.map (·.name)

/-- Every operand: the initial values of the globals, then the operands of the functions. -/
def operands (m : Module) : List Value :=
  m.globals.values.filterMap (·.init) ++ m.funcs.values.flatMap Func.operands

/-- Substitutes every operand of a module. -/
def mapOperands (g : Value → Value) (m : Module) : Module :=
  { globals := m.globals.map fun v => { v with init := v.init.map g }
    funcs := m.funcs.map (Func.mapOperands g) }

/-- Puts `replacement` in the place of every reference to a function. -/
def replaceUses (m : Module) (f : FuncId) (replacement : Value) : Module :=
  m.mapOperands fun v => if v.func? = some f then replacement else v

/-- The number of references to a function. -/
def useCount (m : Module) (f : FuncId) : Nat := m.operands.countP fun v => v.func? == some f

/-- Removes a function that nothing refers to, and tells what was removed. A function that is still
referenced has to stay: its id would dangle. -/
def removeFunc (m : Module) (f : FuncId) : Except Fault (Option Func × Module) :=
  if m.useCount f = 0 then .ok (m.funcs.get? f, { m with funcs := m.funcs.erase f })
  else .error (.stillReferenced f)

end Module
end SSALint
