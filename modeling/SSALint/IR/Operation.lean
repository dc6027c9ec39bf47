/-
Instructions and terminators, generic in what local values (`L`), symbols (`S`) and blocks (`B`) are
called. Each lists its operands and targets in the order of its text, and `mapOperands` and
`mapTargets` substitute them position by position: the list changes as under `List.mapIdx` and
all else stays.
-/
import SSALint.IR.Operand
import SSALint.Text.Spelled

namespace SSALint

/-! ## Opcodes -/

/-- What is done with two values of one type; those that begin with `f` take floating point numbers. -/
inductive BinaryOp where
  | add | sub | mul | udiv | sdiv | urem | srem | shl | lshr | ashr | and | or | xor
  | fadd | fsub | fmul | fdiv | frem
deriving DecidableEq, Repr

instance : Spelled BinaryOp where
  all := [.add, .sub, .mul, .udiv, .sdiv, .urem, .srem, .shl, .lshr, .ashr, .and, .or, .xor,
    .fadd, .fsub, .fmul, .fdiv, .frem]
  spelling
    | .add => "add" | .sub => "sub" | .mul => "mul" | .udiv => "udiv" | .sdiv => "sdiv"
    | .urem => "urem" | .srem => "srem" | .shl => "shl" | .lshr => "lshr" | .ashr => "ashr"
    | .and => "and" | .or => "or" | .xor => "xor" | .fadd => "fadd" | .fsub => "fsub"
    | .fmul => "fmul" | .fdiv => "fdiv" | .frem => "frem"

/-- Predicates on integers: unsigned ones begin with `u`, signed ones with `s`. -/
inductive IntPredicate where
  | eq | ne | ugt | uge | ult | ule | sgt | sge | slt | sle
deriving DecidableEq, Repr

instance : Spelled IntPredicate where
  all := [.eq, .ne, .ugt, .uge, .ult, .ule, .sgt, .sge, .slt, .sle]
  spelling
    | .eq => "eq" | .ne => "ne" | .ugt => "ugt" | .uge => "uge" | .ult => "ult" | .ule => "ule"
    | .sgt => "sgt" | .sge => "sge" | .slt => "slt" | .sle => "sle"

/-- Predicates on floating point numbers: ordered ones begin with `o`, unordered ones with `u`. -/
inductive FloatPredicate where
  | never | oeq | ogt | oge | olt | ole | one | ord
  | ueq | ugt | uge | ult | ule | une | uno | always
deriving DecidableEq, Repr

instance : Spelled FloatPredicate where
  all := [.never, .oeq, .ogt, .oge, .olt, .ole, .one, .ord, .ueq, .ugt, .uge, .ult, .ule, .une,
    .uno, .always]
  spelling
    | .never => "false" | .oeq => "oeq" | .ogt => "ogt" | .oge => "oge" | .olt => "olt"
    | .ole => "ole" | .one => "one" | .ord => "ord" | .ueq => "ueq" | .ugt => "ugt"
    | .uge => "uge" | .ult => "ult" | .ule => "ule" | .une => "une" | .uno => "uno"
    | .always => "true"

/-- The ways to turn a value into one of another type. -/
inductive CastOp where
  | trunc | zext | sext | fptrunc | fpext | fptoui | fptosi | uitofp | sitofp
  | ptrtoint | inttoptr | bitcast
deriving DecidableEq, Repr

instance : Spelled CastOp where
  all := [.trunc, .zext, .sext, .fptrunc, .fpext, .fptoui, .fptosi, .uitofp, .sitofp, .ptrtoint,
    .inttoptr, .bitcast]
  spelling
    | .trunc => "trunc" | .zext => "zext" | .sext => "sext" | .fptrunc => "fptrunc"
    | .fpext => "fpext" | .fptoui => "fptoui" | .fptosi => "fptosi" | .uitofp => "uitofp"
    | .sitofp => "sitofp" | .ptrtoint => "ptrtoint" | .inttoptr => "inttoptr"
    | .bitcast => "bitcast"

/-! ## Instructions and terminators -/

/-- What an instruction does, its result apart. -/
inductive Operation (L S B : Type) where
  /-- A fresh slot of the stack. -/
  | alloca (type : Ty)
  | store (value ptr : Operand L S)
  | load (type : Ty) (ptr : Operand L S)
  | binary (op : BinaryOp) (type : Ty) (lhs rhs : Operand L S)
  | icmp (pred : IntPredicate) (type : Ty) (lhs rhs : Operand L S)
  | fcmp (pred : FloatPredicate) (type : Ty) (lhs rhs : Operand L S)
  | cast (op : CastOp) (value : Operand L S) (result : Ty)
  | phi (type : Ty) (incoming : List (Operand L S × B))
  | select (cond whenTrue whenFalse : Operand L S)
  | getElementPtr (type : Ty) (ptr : Operand L S) (indices : List (Operand L S))
  | extractValue (aggregate : Operand L S) (path : List UInt32)
  | insertValue (aggregate value : Operand L S) (path : List UInt32)
  | extractElement (vector index : Operand L S)
  | insertElement (vector value index : Operand L S)
  /-- A call; it is direct if the callee is a reference to a function. -/
  | call (ret : Ty) (callee : Operand L S) (args : List (Operand L S))
deriving DecidableEq, Repr

/-- How a block ends. -/
inductive Terminator (L S B : Type) where
  | br (target : B)
  | condBr (cond : Operand L S) (whenTrue whenFalse : B)
  | switch (value : Operand L S) (default : B) (cases : List (Constant × B))
  | indirectBr (address : Operand L S) (targets : List B)
  | ret (value : Option (Operand L S))
  | unreachable
deriving DecidableEq, Repr

variable {L S B L' S' B' : Type}

namespace Operation

/-- The word that an instruction begins with. -/
def opcode : Operation L S B → String
  | .alloca _ => "alloca"
  | .store .. => "store"
  | .load .. => "load"
  | .binary op .. => Spelled.spelling op
  | .icmp .. => "icmp"
  | .fcmp .. => "fcmp"
  | .cast op .. => Spelled.spelling op
  | .phi .. => "phi"
  | .select .. => "select"
  | .getElementPtr .. => "getelementptr"
  | .extractValue .. => "extractvalue"
  | .insertValue .. => "insertvalue"
  | .extractElement .. => "extractelement"
  | .insertElement .. => "insertelement"
  | .call .. => "call"

/-- The operands in the order of the text. -/
def operands : Operation L S B → List (Operand L S)
  | .alloca _ => []
  | .store value ptr => [value, ptr]
  | .load _ ptr => [ptr]
  | .binary _ _ lhs rhs => [lhs, rhs]
  | .icmp _ _ lhs rhs => [lhs, rhs]
  | .fcmp _ _ lhs rhs => [lhs, rhs]
  | .cast _ value _ => [value]
  | .phi _ incoming => incoming.map (·.1)
  | .select cond whenTrue whenFalse => [cond, whenTrue, whenFalse]
  | .getElementPtr _ ptr indices => ptr :: indices
  | .extractValue aggregate _ => [aggregate]
  | .insertValue aggregate value _ => [aggregate, value]
  | .extractElement vector index => [vector, index]
  | .insertElement vector value index => [vector, value, index]
  | .call _ callee args => callee :: args

/-- The blocks named in the instruction, in the order of the text. -/
def targets : Operation L S B → List B
  | .phi _ incoming => incoming.map (·.2)
  | _ => []

/-- Substitutes the operands; `f` is told the position of each in `operands`. -/
def mapOperands (f : Nat → Operand L S → Operand L' S') : Operation L S B → Operation L' S' B
  | .alloca t => .alloca t
  | .store value ptr => .store (f 0 value) (f 1 ptr)
  | .load t ptr => .load t (f 0 ptr)
  | .binary op t lhs rhs => .binary op t (f 0 lhs) (f 1 rhs)
  | .icmp p t lhs rhs => .icmp p t (f 0 lhs) (f 1 rhs)
  | .fcmp p t lhs rhs => .fcmp p t (f 0 lhs) (f 1 rhs)
  | .cast op value t => .cast op (f 0 value) t
  | .phi t incoming => .phi t (incoming.mapIdx fun i (v, b) => (f i v, b))
  | .select cond whenTrue whenFalse => .select (f 0 cond) (f 1 whenTrue) (f 2 whenFalse)
  | .getElementPtr t ptr indices =>
    .getElementPtr t (f 0 ptr) (indices.mapIdx fun i v => f (i + 1) v)
  | .extractValue aggregate path => .extractValue (f 0 aggregate) path
  | .insertValue aggregate value path => .insertValue (f 0 aggregate) (f 1 value) path
  | .extractElement vector index => .extractElement (f 0 vector) (f 1 index)
  | .insertElement vector value index => .insertElement (f 0 vector) (f 1 value) (f 2 index)
  | .call ret callee args => .call ret (f 0 callee) (args.mapIdx fun i v => f (i + 1) v)

/-- Substitutes the blocks named; `f` is told the position of each in `targets`. -/
def mapTargets (f : Nat → B → B') : Operation L S B → Operation L S B'
  | .phi t incoming => .phi t (incoming.mapIdx fun i (v, b) => (v, f i b))
  | .alloca t => .alloca t
  | .store value ptr => .store value ptr
  | .load t ptr => .load t ptr
  | .binary op t lhs rhs => .binary op t lhs rhs
  | .icmp p t lhs rhs => .icmp p t lhs rhs
  | .fcmp p t lhs rhs => .fcmp p t lhs rhs
  | .cast op value t => .cast op value t
  | .select cond whenTrue whenFalse => .select cond whenTrue whenFalse
  | .getElementPtr t ptr indices => .getElementPtr t ptr indices
  | .extractValue aggregate path => .extractValue aggregate path
  | .insertValue aggregate value path => .insertValue aggregate value path
  | .extractElement vector index => .extractElement vector index
  | .insertElement vector value index => .insertElement vector value index
  | .call ret callee args => .call ret callee args

@[simp] theorem operands_mapOperands (f : Nat → Operand L S → Operand L' S')
    (o : Operation L S B) : (o.mapOperands f).operands = o.operands.mapIdx f := by
  cases o with
  | phi t incoming => apply List.ext_getElem <;> simp [mapOperands, operands]
  | _ => simp [mapOperands, operands]

@[simp] theorem targets_mapOperands (f : Nat → Operand L S → Operand L' S')
    (o : Operation L S B) : (o.mapOperands f).targets = o.targets := by
  cases o with
  | phi t incoming => apply List.ext_getElem <;> simp [mapOperands, targets]
  | _ => rfl

@[simp] theorem operands_mapTargets (f : Nat → B → B') (o : Operation L S B) :
    (o.mapTargets f).operands = o.operands := by
  cases o with
  | phi t incoming => apply List.ext_getElem <;> simp [mapTargets, operands]
  | _ => rfl

@[simp] theorem targets_mapTargets (f : Nat → B → B') (o : Operation L S B) :
    (o.mapTargets f).targets = o.targets.mapIdx f := by
  cases o with
  | phi t incoming => apply List.ext_getElem <;> simp [mapTargets, targets]
  | _ => rfl

end Operation

namespace Terminator

/-- The operands in the order of the text; the cases of a switch are literals and do not count. -/
def operands : Terminator L S B → List (Operand L S)
  | .br _ => []
  | .condBr cond .. => [cond]
  | .switch value .. => [value]
  | .indirectBr address _ => [address]
  | .ret value => value.toList
  | .unreachable => []

/-- The blocks that control may pass to, in the order of the text and as often as they stand. -/
def targets : Terminator L S B → List B
  | .br target => [target]
  | .condBr _ whenTrue whenFalse => [whenTrue, whenFalse]
  | .switch _ default cases => default :: cases.map (·.2)
  | .indirectBr _ targets => targets
  | .ret _ => []
  | .unreachable => []

/-- Substitutes the operands; `f` is told the position of each in `operands`. -/
def mapOperands (f : Nat → Operand L S → Operand L' S') : Terminator L S B → Terminator L' S' B
  | .br target => .br target
  | .condBr cond whenTrue whenFalse => .condBr (f 0 cond) whenTrue whenFalse
  | .switch value default cases => .switch (f 0 value) default cases
  | .indirectBr address targets => .indirectBr (f 0 address) targets
  | .ret value => .ret (value.map (f 0))
  | .unreachable => .unreachable

/-- Substitutes the targets; `f` is told the position of each in `targets`. -/
def mapTargets (f : Nat → B → B') : Terminator L S B → Terminator L S B'
  | .br target => .br (f 0 target)
  | .condBr cond whenTrue whenFalse => .condBr cond (f 0 whenTrue) (f 1 whenFalse)
  | .switch value default cases =>
    .switch value (f 0 default) (cases.mapIdx fun i (c, b) => (c, f (i + 1) b))
  | .indirectBr address targets => .indirectBr address (targets.mapIdx f)
  | .ret value => .ret value
  | .unreachable => .unreachable

@[simp] theorem operands_mapOperands (f : Nat → Operand L S → Operand L' S')
    (t : Terminator L S B) : (t.mapOperands f).operands = t.operands.mapIdx f := by
  cases t with
  | ret value => cases value <;> simp [mapOperands, operands]
  | _ => simp [mapOperands, operands]

@[simp] theorem targets_mapOperands (f : Nat → Operand L S → Operand L' S')
    (t : Terminator L S B) : (t.mapOperands f).targets = t.targets := by
  cases t <;> rfl

@[simp] theorem operands_mapTargets (f : Nat → B → B') (t : Terminator L S B) :
    (t.mapTargets f).operands = t.operands := by
  cases t <;> rfl

@[simp] theorem targets_mapTargets (f : Nat → B → B') (t : Terminator L S B) :
    (t.mapTargets f).targets = t.targets.mapIdx f := by
  cases t with
  | switch value default cases =>
    simp only [mapTargets, targets, List.mapIdx_cons]
    congr 1
    apply List.ext_getElem <;> simp
  | _ => simp [mapTargets, targets]

end Terminator
end SSALint
