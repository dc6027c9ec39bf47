/-
Why a text is not a program. A failure is a complaint and the place it is about, which is given by
the rest of the text from there on.
-/
import SSALint.Text.Position

namespace SSALint.Source

/-- A lexical element that was looked for. -/
inductive Element where
  /-- A fixed word or sign. -/
  | token
  /-- The end of a keyword. -/
  | wordEnd
  /-- A decimal digit. -/
  | digit
  /-- A character of an identifier. -/
  | word
  /-- Sixteen hexadecimal digits. -/
  | hexDigits
  /-- Some text, in a repetition. -/
  | progress
deriving DecidableEq, Repr

/-- What is wrong with a text. -/
inductive Complaint where
  | expectedChar (c : Char)
  | unexpected (missing : Element)
  | integerOutOfRange
  | invalidFloat
  | indexOutOfRange
  | expectedIndex
  | unknownIntPredicate
  | unknownFloatPredicate
  | invalidIndex
  | vectorRequired
  | terminatorWithResult
  | resultWithoutValue
  | unknownInstruction
  | caseNotConstant
  | openBlock
  | expectedLabel
  | emptyBody
  | initializerNotConstant
  | expectedItem
deriving DecidableEq, Repr

/-- A complaint and the rest of the text from the place that it is about. -/
structure Failure where
  complaint : Complaint
  rest : List Char
deriving DecidableEq, Repr

/-- The word that stands for a lexical element in a message. -/
def Element.name : Element → String
  | .token => "Tag"
  | .wordEnd => "Not"
  | .digit => "Digit"
  | .word => "TakeWhile1"
  | .hexDigits => "TakeWhileMN"
  | .progress => "Many0"

/-- The wording of a complaint about a place where `found` stands. -/
def Complaint.message (found : String) : Complaint → String
  | .expectedChar c => s!"expected '{c}', found {found}"
  | .unexpected missing => s!"unexpected {found} ({missing.name})"
  | .integerOutOfRange => s!"integer out of range, found {found}"
  | .invalidFloat => s!"invalid floating point literal, found {found}"
  | .indexOutOfRange => s!"aggregate index out of range, found {found}"
  | .expectedIndex => s!"expected aggregate index, found {found}"
  | .unknownIntPredicate => s!"unknown icmp predicate, found {found}"
  | .unknownFloatPredicate => s!"unknown fcmp predicate, found {found}"
  | .invalidIndex => s!"invalid aggregate index, found {found}"
  | .vectorRequired => s!"extractelement requires a vector, found {found}"
  | .terminatorWithResult => s!"terminator does not produce a value, found {found}"
  | .resultWithoutValue => s!"instruction does not produce a value, found {found}"
  | .unknownInstruction => s!"unknown instruction, found {found}"
  | .caseNotConstant => s!"switch case must be a constant, found {found}"
  | .openBlock => s!"block must end with a terminator, found {found}"
  | .expectedLabel => s!"expected label, found {found}"
  | .emptyBody => s!"function body must have at least one block, found {found}"
  | .initializerNotConstant => s!"global initializer must be a constant, found {found}"
  | .expectedItem => s!"expected global, declare or define, found {found}"

/-- The wording of a failure in a text: the position, then the complaint about the word found. -/
def Failure.message (text : List Char) (f : Failure) : String :=
  (Position.of text f.rest).print ++ ": " ++
    f.complaint.message ((firstWord? f.rest).getD "end of input")

end SSALint.Source
