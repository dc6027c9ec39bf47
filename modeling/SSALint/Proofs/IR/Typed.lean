/-
Operations in typed form. An operation states the types of some operands and leaves others to the operands
themselves; a literal fits a stated type if the text of the literal means it there. Operations in typed form
have literals that fit and types that can be written, and the type of the result follows (`resultType?`).
-/
import SSALint.IR.Module

namespace SSALint

namespace Ty

mutual

/-- Some text names the type: integers have bits. -/
def Writable : Ty → Prop
  | .int bits => bits ≠ 0
  | .array _ elem => elem.Writable
  | .vector _ elem => elem.Writable
  | .struct fields => WritableFields fields
  | _ => True

/-- Some text names each of the types. -/
def WritableFields : List Ty → Prop
  | [] => True
  | t :: ts => t.Writable ∧ WritableFields ts

end

mutual

instance decidableWritable : (t : Ty) → Decidable t.Writable
  | .int bits => inferInstanceAs (Decidable (bits ≠ 0))
  | .array _ elem => decidableWritable elem
  | .vector _ elem => decidableWritable elem
  | .struct fields => decidableWritableFields fields
  | .void | .half | .float | .double | .ptr | .label => isTrue trivial

instance decidableWritableFields : (ts : List Ty) → Decidable (WritableFields ts)
  | [] => isTrue trivial
  | t :: ts =>
    have := decidableWritable t
    have := decidableWritableFields ts
    inferInstanceAs (Decidable (t.Writable ∧ WritableFields ts))

end

end Ty

/-- The text of a literal means the literal under a type. Truth values mean one bit integers and `null` a
pointer whatever the type; infinite numbers have no text. -/
def Constant.Fits (t : Ty) : Constant → Prop
  | .int bits value => if bits = 1 then value = 0 ∨ value = 1 else t = .int bits
  | .float type value => type = t ∧ t.isFloat = true ∧ value.magnitude < Double.infinity
  | .null => True
  | .undef type => type = t

instance (t : Ty) : (c : Constant) → Decidable (c.Fits t)
  | .int bits value => inferInstanceAs (Decidable (if bits = 1 then value = 0 ∨ value = 1 else t = .int bits))
  | .float type value =>
    inferInstanceAs (Decidable (type = t ∧ t.isFloat = true ∧ value.magnitude < Double.infinity))
  | .null => isTrue trivial
  | .undef type => inferInstanceAs (Decidable (type = t))

variable {L S B : Type}

namespace Operand

/-- A literal fits the type that is stated for it; names stand under any type. -/
def Fits (t : Ty) : Operand L S → Prop
  | .const c => c.Fits t
  | _ => True

instance (t : Ty) : (v : Operand L S) → Decidable (v.Fits t)
  | .const c => inferInstanceAs (Decidable (c.Fits t))
  | .var _ => isTrue trivial
  | .symbol _ => isTrue trivial

/-- An operand behind its own type. -/
def Typed (typeOf : Operand L S → Ty) (v : Operand L S) : Prop := (typeOf v).Writable ∧ v.Fits (typeOf v)

instance (typeOf : Operand L S → Ty) (v : Operand L S) : Decidable (v.Typed typeOf) :=
  inferInstanceAs (Decidable (_ ∧ _))

end Operand

section

variable (typeOf : Operand L S → Ty)

/-- The types in an operation can be written and its literals fit the types that they stand under; lists that
cannot be empty are not, and what an index leads to exists. -/
def Operation.Typed : Operation L S B → Prop
  | .alloca t => t.Writable
  | .store value ptr => value.Typed typeOf ∧ ptr.Typed typeOf
  | .load t ptr => t.Writable ∧ ptr.Typed typeOf
  | .binary _ t lhs rhs => t.Writable ∧ lhs.Fits t ∧ rhs.Fits t
  | .icmp _ t lhs rhs => t.Writable ∧ lhs.Fits t ∧ rhs.Fits t
  | .fcmp _ t lhs rhs => t.Writable ∧ lhs.Fits t ∧ rhs.Fits t
  | .cast _ value t => value.Typed typeOf ∧ t.Writable
  | .phi t incoming => t.Writable ∧ incoming ≠ [] ∧ ∀ alt ∈ incoming, alt.1.Fits t
  | .select cond whenTrue whenFalse => cond.Typed typeOf ∧ whenTrue.Typed typeOf ∧ whenFalse.Typed typeOf
  | .getElementPtr t ptr indices => t.Writable ∧ ptr.Typed typeOf ∧ ∀ v ∈ indices, v.Typed typeOf
  | .extractValue aggregate path =>
    aggregate.Typed typeOf ∧ path ≠ [] ∧ ((typeOf aggregate).at? path).isSome = true
  | .insertValue aggregate value path => aggregate.Typed typeOf ∧ value.Typed typeOf ∧ path ≠ []
  | .extractElement vector index =>
    vector.Typed typeOf ∧ index.Typed typeOf ∧ (typeOf vector).vectorElem?.isSome = true
  | .insertElement vector value index => vector.Typed typeOf ∧ value.Typed typeOf ∧ index.Typed typeOf
  | .call ret callee args => ret.Writable ∧ callee.Fits .ptr ∧ ∀ v ∈ args, v.Typed typeOf

/-- The type of the result; stores and calls without a value have none. -/
def Operation.resultType? : Operation L S B → Option Ty
  | .alloca _ => some .ptr
  | .store .. => none
  | .load t _ => some t
  | .binary _ t _ _ => some t
  | .icmp .. => some (.int 1)
  | .fcmp .. => some (.int 1)
  | .cast _ _ t => some t
  | .phi t _ => some t
  | .select _ whenTrue _ => some (typeOf whenTrue)
  | .getElementPtr .. => some .ptr
  | .extractValue aggregate path => (typeOf aggregate).at? path
  | .insertValue aggregate _ _ => some (typeOf aggregate)
  | .extractElement vector _ => (typeOf vector).vectorElem?
  | .insertElement vector _ _ => some (typeOf vector)
  | .call ret _ _ => if ret.isVoid then none else some ret

/-- The types in a terminator can be written and its literals fit their own types. -/
def Terminator.Typed : Terminator L S B → Prop
  | .br _ => True
  | .condBr cond _ _ => cond.Typed typeOf
  | .switch value _ cases =>
    value.Typed typeOf ∧ ∀ case ∈ cases, case.1.type.Writable ∧ case.1.Fits case.1.type
  | .indirectBr address _ => address.Typed typeOf
  | .ret value => ∀ v ∈ value, v.Typed typeOf
  | .unreachable => True

/-- The text of a terminator does not begin like another one: a condition that is a label looks like the only
target of a jump, and a value without a type to speak of like a return without one. -/
def Terminator.Distinct : Terminator L S B → Prop
  | .condBr (.var x) _ _ => typeOf (.var x) ≠ .label
  | .ret (some v) => typeOf v ≠ .void
  | _ => True

instance : (o : Operation L S B) → Decidable (o.Typed typeOf)
  | .alloca t => inferInstanceAs (Decidable t.Writable)
  | .binary _ t lhs rhs | .icmp _ t lhs rhs | .fcmp _ t lhs rhs =>
    inferInstanceAs (Decidable (t.Writable ∧ lhs.Fits t ∧ rhs.Fits t))
  | .phi t incoming => inferInstanceAs (Decidable (t.Writable ∧ incoming ≠ [] ∧ ∀ alt ∈ incoming, alt.1.Fits t))
  | .getElementPtr t ptr indices =>
    inferInstanceAs (Decidable (t.Writable ∧ ptr.Typed typeOf ∧ ∀ v ∈ indices, v.Typed typeOf))
  | .extractValue aggregate path =>
    inferInstanceAs (Decidable (aggregate.Typed typeOf ∧ path ≠ [] ∧ ((typeOf aggregate).at? path).isSome = true))
  | .insertValue aggregate value path =>
    inferInstanceAs (Decidable (aggregate.Typed typeOf ∧ value.Typed typeOf ∧ path ≠ []))
  | .call ret callee args =>
    inferInstanceAs (Decidable (ret.Writable ∧ callee.Fits .ptr ∧ ∀ v ∈ args, v.Typed typeOf))
  | .extractElement .. => inferInstanceAs (Decidable (_ ∧ _ ∧ _))
  | .select .. | .insertElement .. => inferInstanceAs (Decidable (_ ∧ _ ∧ _))
  | .store .. | .load .. | .cast .. => inferInstanceAs (Decidable (_ ∧ _))

instance : (t : Terminator L S B) → Decidable (t.Typed typeOf)
  | .br _ | .unreachable => isTrue trivial
  | .condBr .. | .indirectBr .. => inferInstanceAs (Decidable (_ ∧ _))
  | .switch value _ cases =>
    inferInstanceAs (Decidable (value.Typed typeOf ∧ ∀ case ∈ cases, case.1.type.Writable ∧ case.1.Fits case.1.type))
  | .ret value => inferInstanceAs (Decidable (∀ v ∈ value, v.Typed typeOf))

instance : (t : Terminator L S B) → Decidable (t.Distinct typeOf)
  | .condBr (.var x) _ _ => inferInstanceAs (Decidable (typeOf (.var x) ≠ .label))
  | .ret (some v) => inferInstanceAs (Decidable (typeOf v ≠ .void))
  | .condBr (.symbol _) _ _ | .condBr (.const _) _ _ | .ret none => isTrue trivial
  | .br _ | .switch .. | .indirectBr .. | .unreachable => isTrue trivial

end

/-! ## Lines and blocks -/

theorem Func.typeOf_of_get? {f : Func} {x : LocalId} {l : Local} (h : f.locals.get? x = some l) :
    f.typeOf (.var x) = l.type := by
  show ((f.locals.get? x).map (·.type)).getD .void = l.type
  rw [h]
  rfl

/-- The operation is in typed form, and a result has the type that follows. -/
def Instr.Typed (typeOf : Value → Ty) (i : Instr) : Prop :=
  i.operation.Typed typeOf ∧ ∀ x ∈ i.result, i.operation.resultType? typeOf = some (typeOf (.var x))

instance (typeOf : Value → Ty) (i : Instr) : Decidable (i.Typed typeOf) := inferInstanceAs (Decidable (_ ∧ _))

/-- The instructions of a block are in typed form, and so is its terminator. -/
structure Block.Typed (typeOf : Value → Ty) (b : Block) : Prop where
  instrs : ∀ i ∈ b.instrs, i.Typed typeOf
  terminator : b.terminator.Typed typeOf

instance (typeOf : Value → Ty) (b : Block) : Decidable (b.Typed typeOf) :=
  decidable_of_iff ((∀ i ∈ b.instrs, i.Typed typeOf) ∧ b.terminator.Typed typeOf)
    ⟨fun h => ⟨h.1, h.2⟩, fun h => ⟨h.1, h.2⟩⟩

end SSALint
