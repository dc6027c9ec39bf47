/-
The grammar of programs: globals, declarations and definitions in any order. A body is a row of
blocks, each a label, instructions and a terminator; only the first block may do without its label.
-/
import SSALint.Source.Instruction

namespace SSALint.Source

/-! ## Heads of functions -/

/-- A parameter: a type and, if it is to be used, a name. -/
def param : Parser NamedParam := do
  let t ← ty
  return ⟨t, ← Parser.attempt localName⟩

/-- What stands behind a parameter: a comma before the next one, or the closing bracket. -/
def paramEnd (p : NamedParam) : Parser (NamedParam ⊕ (List NamedParam × Bool)) := do
  if ← Parser.accepts (sign ",") then return .inl p
  sign ")"
  return .inr ([p], false)

/-- A parameter of a list with what stands behind it, or the dots that end the list. -/
def paramStep : Parser (NamedParam ⊕ (List NamedParam × Bool)) := do
  if ← Parser.accepts (sign "...") then
    sign ")"
    return .inr ([], true)
  paramEnd (← param)

/-- A list of parameters with its brackets, and whether it ends in `...`. -/
def params : Parser (List NamedParam × Bool) := do
  sign "("
  if ← Parser.accepts (sign ")") then return ([], false)
  let (params, last, variadic) ← Parser.collect paramStep
  return (params ++ last, variadic)

/-- The head of a function, from the type of its result to the end of its parameters. -/
def head : Parser Head := do
  let ret ← ty
  let name ← symbolName
  let (params, variadic) ← params
  return ⟨ret, name, params, variadic⟩

/-! ## Bodies -/

/-- A line of a block that has no terminator yet. Neither the end of the body nor a label may
come. -/
def openLine : Parser (NamedInstr ⊕ NamedTerminator) := do
  let before ← Parser.here
  blanks
  if ← Parser.accepts (exactly "\x7d") then Parser.fail .openBlock
  if ← Parser.accepts labelName then Parser.failAt .openBlock before
  line

/-- The lines of a block. -/
def block (label : Option Mention) : Parser NamedBlock := do
  let (instrs, terminator) ← Parser.collect openLine
  return ⟨label, instrs, terminator⟩

/-- A block after the first one, or the end of the body. -/
def laterBlock : Parser (Option NamedBlock) := do
  blanks
  if ← Parser.accepts (exactly "\x7d") then return none
  match ← Parser.attempt labelName with
  | some label => return some (← block (some label))
  | none => Parser.fail .expectedLabel

/-- The blocks of a body, from behind the label of the first one. -/
def blocks (label : Option Mention) : Parser (List NamedBlock) := do
  let first ← block label
  return first :: (← Parser.many laterBlock)

/-- A body with its brackets. -/
def body : Parser (List NamedBlock) := do
  sign "\x7b"
  blanks
  if ← Parser.accepts (exactly "\x7d") then Parser.fail .emptyBody
  blocks (← Parser.attempt labelName)

/-! ## Items -/

/-- A global behind the equals sign: external, or with an initial value that is no local value. -/
def globalBehind (name : Mention) : Parser NamedGlobal := do
  let external ← Parser.accepts (keyword "external")
  keyword "global"
  let t ← ty
  if external then return ⟨name, t, none⟩
  let place ← Parser.here
  match ← value t with
  | .var _ => Parser.failAt .initializerNotConstant place
  | init => return ⟨name, t, some init⟩

/-- A global after its name. -/
def global (name : Mention) : Parser NamedGlobal := do
  sign "="
  globalBehind name

/-- An item, right here; the text is not at its end. -/
def itemBehind : Parser (Option Item) := do
  if ← Parser.accepts (keyword "define") then
    let head ← head
    return some (.definition head (← body))
  if ← Parser.accepts (keyword "declare") then
    return some (.declaration (← head))
  match ← Parser.attempt symbolName with
  | some name => return some (.global (← global name))
  | none => Parser.fail .expectedItem

/-- An item, or the end of the text. -/
def item : Parser (Option Item) := do
  blanks
  if (← Parser.here).isEmpty then return none
  itemBehind

/-- The items of a whole text. -/
def program : Parser (List Item) := Parser.many item

end SSALint.Source
