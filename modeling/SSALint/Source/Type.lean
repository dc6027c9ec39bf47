/-
The grammar of types: one word for the simple ones, brackets around the aggregates.
-/
import SSALint.Source.Token
import SSALint.IR.Ty

namespace SSALint.Source

/-- The simple type that a word names. Integer types have a width from 1 to the greatest number of
32 bits. -/
def simpleTy? (name : String) : Option Ty :=
  match name with
  | "void" => some .void
  | "half" => some .half
  | "float" => some .float
  | "double" => some .double
  | "ptr" => some .ptr
  | "label" => some .label
  | _ =>
    match name.toList with
    | 'i' :: width =>
      let bits := digitsValue width
      if width ≠ [] ∧ width.all Char.isDigit ∧ 0 < bits ∧ bits < UInt32.size then
        some (.int (.ofNat bits))
      else none
    | _ => none

/-- A type of one word right here. -/
def simpleTy : Parser Ty := do
  let place ← Parser.here
  match simpleTy? (← word) with
  | some t => return t
  | none => Parser.failAt (.unexpected .token) place

/-- What stands in the brackets of an array or a vector, and the closing one. -/
def elements (closing : String) (make : UInt64 → Ty → Ty) (inner : Parser Ty) : Parser Ty := do
  let length ← unsigned
  keyword "x"
  let elem ← inner
  sign closing
  return make length elem

/-- A type, blanks before, given how the types inside its brackets are read. -/
def tyStep (inner : Parser Ty) : Parser Ty := do
  blanks
  if ← Parser.accepts (exactly "[") then elements "]" .array inner
  else if ← Parser.accepts (exactly "<") then elements ">" .vector inner
  else if ← Parser.accepts (exactly "\x7b") then return .struct (← listUntil "\x7d" inner)
  else simpleTy

/-- A type with less than `depth` levels of aggregates, blanks before. -/
def tyWithin : (depth : Nat) → Parser Ty
  | 0 => Parser.fail (.unexpected .word)
  | depth + 1 => tyStep (tyWithin depth)

/-- A type, blanks before. Every level of aggregates takes a character, so the text that is left
bounds the levels. -/
def ty : Parser Ty := fun s => tyWithin (s.length + 1) s

end SSALint.Source
