/-
Names for the slots that have none, so that a report can tell them apart. The slots of a function
are named `lvar_0`, `lvar_1` and so on in the order of the text, past names that are taken.
-/
import SSALint.IR.Module

namespace SSALint

/-- The name that the number `k` stands for. -/
def slotName (k : Nat) : String := "lvar_" ++ toString k

namespace Func

/-- The slots without a name, in the order of the text. -/
def anonymousSlots (f : Func) : List LocalId :=
  (f.instrs.filterMap Instr.slot?).filter fun x => (f.localName? x).isNone

/-- The first number from `k` on whose name is free. Of more numbers than there are local values one
is free. -/
def freeFrom (f : Func) (k : Nat) : Nat :=
  k + (List.range (f.locals.size + 1)).findIdx fun d => !f.hasLocalNamed (slotName (k + d))

/-- Gives a local value a name. -/
def setLocalName (f : Func) (x : LocalId) (name : String) : Func :=
  { f with locals := f.locals.modify x fun l => { l with name := some name } }

/-- Names slots in order, trying numbers from `k` on. -/
def nameSlots (f : Func) (k : Nat) : List LocalId → Func
  | [] => f
  | x :: xs =>
    let j := f.freeFrom k
    nameSlots (f.setLocalName x (slotName j)) (j + 1) xs

/-- Names the slots without a name, and tells how many there were. -/
def nameAnonymousSlots (f : Func) : Func × Nat :=
  (f.nameSlots 0 f.anonymousSlots, f.anonymousSlots.length)

end Func
end SSALint
