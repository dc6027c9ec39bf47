/-
Tokens. Blanks and comments may stand before every token and are passed over by the token that
follows them; inside a token there are none.
-/
import SSALint.Source.Parser
import SSALint.Double

namespace SSALint.Source

/-! ## Blanks -/

/-- The characters that separate tokens. -/
def isBlank (c : Char) : Bool := c == ' ' || c == '\t' || c == '\r' || c == '\n'

mutual

/-- The text after all blanks and comments at its front. -/
def skipBlanks : List Char → List Char
  | [] => []
  | c :: s => if c = ';' then skipComment s else if isBlank c then skipBlanks s else c :: s

/-- The text after a comment, which lasts until the end of the line, and the blanks behind it. -/
def skipComment : List Char → List Char
  | [] => []
  | c :: s => if c = '\n' then skipBlanks s else skipComment s

end

/-- Passes over blanks and comments. -/
def blanks : Parser Unit := fun s => .ok ((), skipBlanks s)

/-! ## Fixed tokens -/

/-- The text after a fixed word at its front. -/
def dropWord? : (word s : List Char) → Option (List Char)
  | [], s => some s
  | _ :: _, [] => none
  | w :: word, c :: s => if w = c then dropWord? word s else none

/-- A fixed word right here. -/
def exactly (word : String) : Parser Unit := fun s =>
  match dropWord? word.toList s with
  | some r => .ok ((), r)
  | none => .error ⟨.unexpected .token, s⟩

/-- A character right here. -/
def char (c : Char) : Parser Unit := fun s =>
  match s with
  | d :: r => if d = c then .ok ((), r) else .error ⟨.expectedChar c, s⟩
  | [] => .error ⟨.expectedChar c, s⟩

/-- A sign, blanks before it. -/
def sign (text : String) : Parser Unit := do
  blanks
  exactly text

/-- The characters of words and names. -/
def isWordChar (c : Char) : Bool :=
  c.isAlphanum || c == '_' || c == '.' || c == '$' || c == '-'

/-- No character of a word may be here. -/
def wordEnd : Parser Unit := do
  let s ← Parser.here
  if s.head?.any isWordChar then Parser.fail (.unexpected .wordEnd)

/-- A keyword, blanks before it; no character of a word may follow. -/
def keyword (text : String) : Parser Unit := do
  blanks
  exactly text
  wordEnd

/-- Items between an opening bracket, which is passed already, and the closing one: none, or some
with commas between them. -/
def listUntil {α : Type} (closing : String) (item : Parser α) : Parser (List α) := do
  if ← Parser.accepts (sign closing) then return []
  let items ← Parser.sepBy1 (sign ",") item
  sign closing
  return items

/-! ## Words and names -/

/-- The longest run of characters of a class, of which there has to be one. -/
def run (p : Char → Bool) (missing : Element) : Parser (List Char) := fun s =>
  match s.takeWhile p with
  | [] => .error ⟨.unexpected missing, s⟩
  | cs => .ok (cs, s.dropWhile p)

/-- A word right here. -/
def word : Parser String := String.ofList <$> run isWordChar .word

/-- A name where it stands in the text: the rest of the text begins with it. -/
structure Mention where
  name : String
  rest : List Char
deriving DecidableEq, Repr

/-- A name after its sigil, blanks before; it stands where its sigil does. -/
def sigilName (sigil : Char) : Parser Mention := do
  blanks
  let place ← Parser.here
  char sigil
  return ⟨← word, place⟩

/-- The name of a local value or a label: `%x`. -/
def localName : Parser Mention := sigilName '%'

/-- The name of a global or a function: `@f`. -/
def symbolName : Parser Mention := sigilName '@'

/-- The label at the head of a block: `name:`, blanks before. -/
def labelName : Parser Mention := do
  blanks
  let place ← Parser.here
  let name ← word
  char ':'
  return ⟨name, place⟩

/-! ## Numbers -/

/-- The number that a row of decimal digits writes. -/
def digitsValue (digits : List Char) : Nat :=
  digits.foldl (fun n c => 10 * n + (c.toNat - '0'.toNat)) 0

/-- Decimal digits right here. -/
def digits : Parser (List Char) := run Char.isDigit .digit

/-- An unsigned number of 64 bits, blanks before. -/
def unsigned : Parser UInt64 := do
  blanks
  let place ← Parser.here
  let n := digitsValue (← digits)
  if n < UInt64.size then return .ofNat n
  else Parser.failAt .integerOutOfRange place

/-- An optional sign out of a few. -/
def signOf (signs : List Char) : Parser (Option Char) := fun s =>
  match s with
  | c :: r => if c ∈ signs then .ok (some c, r) else .ok (none, s)
  | [] => .ok (none, s)

/-- A signed number of 64 bits, blanks before; only a minus sign may be written. -/
def signed : Parser Int64 := do
  blanks
  let place ← Parser.here
  let minus ← signOf ['-']
  let n : Int := digitsValue (← digits)
  let n := if minus.isSome then -n else n
  if Int64.minValue.toInt ≤ n ∧ n ≤ Int64.maxValue.toInt then return .ofInt n
  else Parser.failAt .integerOutOfRange place

/-! ## Floating point numbers -/

/-- Hexadecimal digits, of either case. -/
def isHexDigit (c : Char) : Bool :=
  c.isDigit || ('a' ≤ c && c ≤ 'f') || ('A' ≤ c && c ≤ 'F')

/-- The number that a row of hexadecimal digits writes. -/
def hexValue (digits : List Char) : Nat :=
  digits.foldl (fun n c =>
    16 * n + if c.isDigit then c.toNat - '0'.toNat else c.toLower.toNat - 'a'.toNat + 10) 0

/-- Sixteen hexadecimal digits right here. -/
def hexDigits : Parser (List Char) := fun s =>
  let cs := s.take 16
  if cs.length = 16 ∧ cs.all isHexDigit then .ok (cs, s.drop 16)
  else .error ⟨.unexpected .hexDigits, s⟩

/-- The digits after a point right here; without a point there are none. -/
def fraction : Parser (List Char) := fun s =>
  match s with
  | '.' :: r => .ok (r.takeWhile Char.isDigit, r.dropWhile Char.isDigit)
  | _ => .ok ([], s)

/-- An `e` of either case right here, an optional sign and digits. -/
def power : Parser Int := do
  let e ← signOf ['e', 'E']
  if e.isNone then Parser.fail (.unexpected .token)
  let sign ← signOf ['+', '-']
  let n : Int := digitsValue (← digits)
  return if sign = some '-' then -n else n

/-- An exponent right here. Text that only begins like one is left, and the exponent is 0. -/
def exponent : Parser Int := do
  return (← Parser.attempt power).getD 0

/-- A number in decimal notation right here. It is rounded to the nearest double. -/
def decimal : Parser Double := do
  let sign ← signOf ['+', '-']
  let whole ← digits
  let part ← fraction
  let power ← exponent
  let magnitude := Double.ofDecimal (digitsValue (whole ++ part)) (power - part.length)
  return Double.ofMagnitude (sign = some '-') magnitude

/-- A floating point number, blanks before: decimal notation, or `0x` and the sixteen hexadecimal
digits of its bits. Bits that encode no number are refused. -/
def float : Parser Double := do
  blanks
  let place ← Parser.here
  if ← Parser.accepts (exactly "0x") then
    match Double.ofBits? (hexValue (← hexDigits)) with
    | some x => return x
    | none => Parser.failAt .invalidFloat place
  else decimal

end SSALint.Source
