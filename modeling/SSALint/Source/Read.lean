/-
Reading modules: a text is parsed into a program and the names of the program are resolved. Failures
to parse win over errors in names.
-/
import SSALint.Source.Program
import SSALint.Source.Resolve

namespace SSALint.Source

/-- Why a text is not a module. -/
inductive ReadError where
  | failure (f : Failure)
  | name (e : NameError)
deriving DecidableEq, Repr

/-- The wording of an error in a text. -/
def ReadError.message (text : List Char) : ReadError → String
  | .failure f => f.message text
  | .name e => e.message text

/-- The module that a text writes. -/
def read (text : List Char) : Except ReadError Module :=
  match program text with
  | .error f => .error (.failure f)
  | .ok (items, _) =>
    match resolve items with
    | .error e => .error (.name e)
    | .ok m => .ok m

end SSALint.Source
