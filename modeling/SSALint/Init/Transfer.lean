/-
What an instruction does to what is known about slots. Making a slot leaves it unassigned, storing
an assigning value to a tracked slot assigns it, and no other instruction matters. Loading from a
tracked slot that is not assigned on every path is an uninitialized read.
-/
import SSALint.Init.Slots
import SSALint.Flow.Func

namespace SSALint

/-- Whether a stored value counts as an assignment: values known before the function runs,
parameters, and values of the types that are stored as they are. -/
def Func.assigns (f : Func) (v : Value) : Bool :=
  let t := f.typeOf v
  v.isConstant || v.var?.any f.isParam || t.isFloat || t.isPtr || t.isInt 8

namespace Slots

/-- What is known after an instruction of a function. -/
def step (f : Func) (l : Slots) (i : Instr) : Slots :=
  match i.operation with
  | .alloca _ =>
    match i.result with
    | some x => l.set x .unassigned
    | none => l
  | .store value (.var x) => if f.assigns value then l.update x .assigned else l
  | _ => l

/-- What is known after a row of instructions. -/
def transfer (f : Func) (l : Slots) (is : List Instr) : Slots := is.foldl (step f) l

/-- The slot that an instruction reads although it is tracked and not known to be assigned. -/
def badRead? (l : Slots) (i : Instr) : Option LocalId :=
  match i.operation with
  | .load _ (.var x) => if (l.get? x).any (· ≠ .assigned) then some x else none
  | _ => none

/-- The uninitialized reads in a row of instructions, in order. -/
def badReads (f : Func) : (l : Slots) → List Instr → List LocalId
  | _, [] => []
  | l, i :: is => (l.badRead? i).toList ++ badReads f (l.step f i) is

end Slots
end SSALint
