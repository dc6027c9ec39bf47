/-
Places in a text. A place is given by the rest of the text that begins there; its position counts
the lines and characters of the part before it.
-/

namespace SSALint

/-- A line and a column, both counted from 1; columns count characters. -/
structure Position where
  line : Nat
  column : Nat
deriving DecidableEq, Repr

namespace Position

/-- The position just after a piece of text. Only a newline ends a line. -/
def after (passed : List Char) : Position :=
  ⟨passed.count '\n' + 1, (passed.reverse.takeWhile (· ≠ '\n')).length + 1⟩

/-- The position of the place in `text` where `rest` is left. -/
def of (text rest : List Char) : Position := after (text.take (text.length - rest.length))

/-- A position as errors tell it. -/
def print (p : Position) : String := s!"{p.line}:{p.column}"

end Position

/-! ## Words -/

/-- White space in the sense of the Unicode property of that name. -/
def isWhiteSpace (c : Char) : Bool :=
  let n := c.toNat
  (0x9 ≤ n && n ≤ 0xD) || n == 0x20 || n == 0x85 || n == 0xA0 || n == 0x1680 ||
    (0x2000 ≤ n && n ≤ 0x200A) || n == 0x2028 || n == 0x2029 || n == 0x202F || n == 0x205F ||
    n == 0x3000

/-- The first word of a text, words being separated by white space. -/
def firstWord? (text : List Char) : Option String :=
  match (text.dropWhile isWhiteSpace).takeWhile (fun c => !isWhiteSpace c) with
  | [] => none
  | word => some (String.ofList word)

end SSALint
