/-
The errors of the analyzer: their causes, kinds and wording.
-/
import SSALint.Source.Read
import SSALint.IR.Verify

namespace SSALint

/-- The kinds of errors that a user can mend. -/
inductive ErrorKind where
  | parse
  | verify
  | missingEntry
deriving DecidableEq, Repr

instance : Spelled ErrorKind where
  all := [.parse, .verify, .missingEntry]
  spelling
    | .parse => "parse"
    | .verify => "verify"
    | .missingEntry => "missing_entry"

/-- A message in front of which its kind is told. -/
def ErrorKind.describe (kind : ErrorKind) (message : String) : String :=
  Spelled.spelling kind ++ " error: " ++ message

/-- Why a run ended early. -/
inductive Error where
  /-- A text is not a module. -/
  | read (text : List Char) (cause : Source.ReadError)
  /-- A module breaks the rules for modules. -/
  | invalid (cause : Violation)
  /-- The function that a program is to start in does not exist. -/
  | missingEntry (name : String)
  /-- A caller broke its promise. -/
  | fault (cause : Fault)
deriving DecidableEq, Repr

namespace Error

/-- The kind of an error; a fault has none. -/
def kind? : Error → Option ErrorKind
  | .read .. => some .parse
  | .invalid _ => some .verify
  | .missingEntry _ => some .missingEntry
  | .fault _ => none

/-- What went wrong, without the kind of the error. -/
def message : Error → String
  | .read text cause => cause.message text
  | .invalid cause => cause.message
  | .missingEntry name => "function @" ++ name ++ " not found"
  | .fault cause => cause.message

/-- An error as a user sees it. -/
def print (e : Error) : String :=
  match e.kind? with
  | some kind => kind.describe e.message
  | none => e.message

end Error
end SSALint
