/-
The grammar of values. A value is read under a type that was stated before it: the type decides how
a number is written and becomes the type of the literal. Names and words stand under any type.
-/
import SSALint.Source.Type
import SSALint.Source.Tree

namespace SSALint.Source

/-- The literal that a word writes under a type. Truth values are one bit integers and `null` is a
pointer, whatever the type. -/
def literalWord? (t : Ty) (word : String) : Option Constant :=
  match word with
  | "null" => some .null
  | "undef" => some (.undef t)
  | "true" => some (.int 1 1)
  | "false" => some (.int 1 0)
  | _ => none

/-- A literal that is a word, right here. -/
def literalWord (t : Ty) : Parser Constant := do
  match literalWord? t (← word) with
  | some c => return c
  | none => Parser.fail (.unexpected .token)

/-- A number in the notation of its type; types without numbers have none. -/
def number (t : Ty) : Parser Constant :=
  match t with
  | .half | .float | .double => .float t <$> float
  | .int bits => .int bits <$> signed
  | _ => Parser.fail (.unexpected .token)

/-- A literal under a type, right here: a word or a number. -/
def literal (t : Ty) : Parser NamedValue := do
  if let some c ← Parser.attempt (literalWord t) then return .const c
  return .const (← number t)

/-- A value under a type, blanks before. -/
def value (t : Ty) : Parser NamedValue := do
  blanks
  if let some x ← Parser.attempt localName then return .var x
  if let some s ← Parser.attempt symbolName then return .symbol s
  literal t

/-- A type and a value under it. -/
def typedValue : Parser (Ty × NamedValue) := do
  let t ← ty
  return (t, ← value t)

/-- A value behind its type, which is read for the notation only. -/
def operand : Parser NamedValue := return (← typedValue).2

/-- Something behind a comma. -/
def comma {α : Type} (p : Parser α) : Parser α := do
  sign ","
  p

/-- Two values under one type, a comma between them. -/
def pair (t : Ty) : Parser (NamedValue × NamedValue) := do
  let lhs ← value t
  return (lhs, ← comma (value t))

/-- Items, each behind a comma, as many as there are. -/
def commaItems {α : Type} (item : Parser α) : Parser (List α) :=
  Parser.many (Parser.behind (sign ",") item)

/-- A block as the target of a jump. -/
def target : Parser Mention := do
  keyword "label"
  localName

end SSALint.Source
