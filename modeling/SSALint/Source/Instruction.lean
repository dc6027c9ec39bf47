/-
The grammar of instructions and terminators. An instruction is an opcode and what the opcode calls
for; with it comes the type of the result, if the instruction has one.
-/
import SSALint.Source.Value

namespace SSALint.Source

/-- An operation with the type of its result. -/
abbrev TypedOperation := Operation Mention Mention Mention × Option Ty

/-- A terminator with names in the place of ids. -/
abbrev NamedTerminator := Terminator Mention Mention Mention

/-! ## Instructions -/

/-- The type of the slot that is made. -/
def alloca : Parser TypedOperation := do
  return (.alloca (← ty), some .ptr)

/-- The type of the value and the slot it is read from. -/
def load : Parser TypedOperation := do
  let t ← ty
  return (.load t (← comma operand), some t)

/-- The value and the slot it is written to. -/
def store : Parser TypedOperation := do
  let v ← operand
  return (.store v (← comma operand), none)

/-- A type and two operands under it. -/
def binary (op : BinaryOp) : Parser TypedOperation := do
  let t ← ty
  let (lhs, rhs) ← pair t
  return (.binary op t lhs rhs, some t)

/-- An operand and the type it is turned into. -/
def cast (op : CastOp) : Parser TypedOperation := do
  let v ← operand
  keyword "to"
  let t ← ty
  return (.cast op v t, some t)

/-- A comparison. The predicate may be any word at first: an unknown one is complained about after
the operands, at the opcode. -/
def compare {P : Type} [Spelled P] (place : List Char) (unknown : Complaint)
    (make : P → Ty → NamedValue → NamedValue → Operation Mention Mention Mention) :
    Parser TypedOperation := do
  blanks
  let pred ← word
  let t ← ty
  let (lhs, rhs) ← pair t
  match Spelled.ofWord? pred with
  | some p => return (make p t lhs rhs, some (.int 1))
  | none => Parser.failAt unknown place

/-- One alternative of a `phi`: `[ value, %block ]`. -/
def incoming (t : Ty) : Parser (NamedValue × Mention) := do
  sign "["
  let v ← value t
  let source ← comma localName
  sign "]"
  return (v, source)

/-- A type and the alternatives under it, one or more. -/
def phi : Parser TypedOperation := do
  let t ← ty
  return (.phi t (← Parser.sepBy1 (sign ",") (incoming t)), some t)

/-- A condition and the two values it chooses from; the first one states the type. -/
def select : Parser TypedOperation := do
  let cond ← operand
  let (t, whenTrue) ← comma typedValue
  return (.select cond whenTrue (← comma operand), some t)

/-- The type that is walked through, the address it begins at and the indices. -/
def elementPtr : Parser TypedOperation := do
  let t ← ty
  let ptr ← comma operand
  return (.getElementPtr t ptr (← commaItems operand), some .ptr)

/-- An address of a part. The word `inbounds` may stand first and says nothing. -/
def getElementPtr : Parser TypedOperation := do
  let _ ← Parser.accepts (keyword "inbounds")
  elementPtr

/-- One member index behind a comma, if there is one. -/
def pathStep : Parser (Option UInt32) := do
  let place ← Parser.here
  if ← Parser.accepts (sign ",") then
    let n ← unsigned
    if n.toNat < UInt32.size then return some n.toUInt32
    else Parser.failAt .indexOutOfRange place
  else return none

/-- A path of member indices, one or more. -/
def path : Parser (List UInt32) := do
  match ← Parser.many pathStep with
  | [] => Parser.fail .expectedIndex
  | indices => return indices

/-- An aggregate and the path to a field of it, which has to be there. -/
def extractValue (place : List Char) : Parser TypedOperation := do
  let (t, aggregate) ← typedValue
  let indices ← path
  match t.at? indices with
  | some field => return (.extractValue aggregate indices, some field)
  | none => Parser.failAt .invalidIndex place

/-- An aggregate, the value for a field of it and the path to the field, which is not looked up. -/
def insertValue : Parser TypedOperation := do
  let (t, aggregate) ← typedValue
  let v ← comma operand
  return (.insertValue aggregate v (← path), some t)

/-- A vector and the index of an element; what is no vector has none. -/
def extractElement (place : List Char) : Parser TypedOperation := do
  let (t, vector) ← typedValue
  let index ← comma operand
  match t.vectorElem? with
  | some elem => return (.extractElement vector index, some elem)
  | none => Parser.failAt .vectorRequired place

/-- A vector, the value for an element of it and the index. -/
def insertElement : Parser TypedOperation := do
  let (t, vector) ← typedValue
  let v ← comma operand
  return (.insertElement vector v (← comma operand), some t)

/-- The type of the result, what is called and the arguments in brackets. -/
def call : Parser TypedOperation := do
  let ret ← ty
  let callee ← value .ptr
  sign "("
  let args ← listUntil ")" operand
  return (.call ret callee args, if ret.isVoid then none else some ret)

/-- What an opcode that begins an instruction calls for; `place` is where the opcode stands. -/
def operationOf? (place : List Char) (opcode : String) : Option (Parser TypedOperation) :=
  match opcode with
  | "alloca" => some alloca
  | "load" => some load
  | "store" => some store
  | "icmp" => some (compare place .unknownIntPredicate .icmp)
  | "fcmp" => some (compare place .unknownFloatPredicate .fcmp)
  | "phi" => some phi
  | "select" => some select
  | "getelementptr" => some getElementPtr
  | "extractvalue" => some (extractValue place)
  | "insertvalue" => some insertValue
  | "extractelement" => some (extractElement place)
  | "insertelement" => some insertElement
  | "call" => some call
  | _ => (Spelled.ofWord? opcode).map binary <|> (Spelled.ofWord? opcode).map cast

/-! ## Terminators -/

/-- A jump to one target, or to one of two on a condition. -/
def branch : Parser NamedTerminator := do
  if let some b ← Parser.attempt target then return .br b
  let cond ← operand
  let whenTrue ← comma target
  return .condBr cond whenTrue (← comma target)

/-- One case of a `switch`, or the bracket that closes the list of cases. -/
def switchCase : Parser (Option (Constant × Mention)) := do
  let place ← Parser.here
  if ← Parser.accepts (sign "]") then return none
  match ← operand with
  | .const c => return some (c, ← comma target)
  | _ => Parser.failAt .caseNotConstant place

/-- The value that is compared, the target when no case has it, and the cases in brackets. -/
def switch : Parser NamedTerminator := do
  let v ← operand
  let default ← comma target
  sign "["
  return .switch v default (← Parser.many switchCase)

/-- An address and the targets that it may be of, in brackets. -/
def indirectBranch : Parser NamedTerminator := do
  let address ← operand
  sign ","
  sign "["
  return .indirectBr address (← listUntil "]" target)

/-- The value that is returned, or the word for none. -/
def ret : Parser NamedTerminator := do
  if ← Parser.accepts (keyword "void") then return .ret none
  return .ret (some (← operand))

/-- What an opcode that begins a terminator calls for. -/
def terminatorOf? (opcode : String) : Option (Parser NamedTerminator) :=
  match opcode with
  | "br" => some branch
  | "switch" => some switch
  | "indirectbr" => some indirectBranch
  | "ret" => some ret
  | "unreachable" => some (return .unreachable)
  | _ => none

/-! ## Lines -/

/-- The name at the left of an equals sign, if there is one. -/
def resultName : Parser (Option Mention) := do
  match ← Parser.attempt localName with
  | some x => sign "="; return some x
  | none => return none

/-- An instruction or a terminator behind the name of its result, if it has got one. -/
def lineBehind (name : Option Mention) : Parser (NamedInstr ⊕ NamedTerminator) := do
  blanks
  let place ← Parser.here
  let opcode ← word
  match terminatorOf? opcode, operationOf? place opcode with
  | some terminator, _ =>
    if name.isSome then Parser.failAt .terminatorWithResult place
    return .inr (← terminator)
  | none, some operation =>
    match name, ← operation with
    | none, (o, _) => return .inl ⟨none, o⟩
    | some x, (o, some t) => return .inl ⟨some ⟨x, t⟩, o⟩
    | some _, (_, none) => Parser.failAt .resultWithoutValue place
  | none, none => Parser.failAt .unknownInstruction place

/-- An instruction or a terminator, with a name for the result where there is a result to name. -/
def line : Parser (NamedInstr ⊕ NamedTerminator) := do
  lineBehind (← resultName)

end SSALint.Source
