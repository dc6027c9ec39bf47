/-
Faults: requests that a caller promised never to make. They are told apart from errors in the
text of a program, which a user can mend.
-/

namespace SSALint

/-- A request outside the contract of the operation that was asked for. -/
inductive Fault where
  /-- A key was read that holds nothing. -/
  | absentKey
  /-- An entry of a row was asked for that lies behind its end. -/
  | outOfBounds (length position : Nat)
  /-- A function was to be removed while an operand still names it. -/
  | stillReferenced (func : Nat)
deriving DecidableEq, Repr

/-- The wording of a fault. -/
def Fault.message : Fault → String
  | .absentKey => "no entry found for key"
  | .outOfBounds length position =>
    s!"index out of bounds: the len is {length} but the index is {position}"
  | .stillReferenced func => s!"function f{func} is still referenced"

end SSALint
