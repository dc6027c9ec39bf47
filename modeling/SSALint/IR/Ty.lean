/-
Types of values: integers of a stated width, three floating point formats, pointers, labels, and
the aggregates built from them. Widths and lengths are the machine words that the text of a type
can state.
-/

namespace SSALint

/-- The type of a value. -/
inductive Ty where
  | void
  | int (bits : UInt32)
  | half
  | float
  | double
  | ptr
  | label
  | array (length : UInt64) (elem : Ty)
  | vector (length : UInt64) (elem : Ty)
  | struct (fields : List Ty)
deriving Repr, Inhabited

namespace Ty

/-! ## Equality -/

mutual

/-- Decides whether two types are equal. -/
def decEq : (a b : Ty) → Decidable (a = b)
  | .void, b => by cases b <;> first | exact isTrue rfl | exact isFalse (by simp)
  | .half, b => by cases b <;> first | exact isTrue rfl | exact isFalse (by simp)
  | .float, b => by cases b <;> first | exact isTrue rfl | exact isFalse (by simp)
  | .double, b => by cases b <;> first | exact isTrue rfl | exact isFalse (by simp)
  | .ptr, b => by cases b <;> first | exact isTrue rfl | exact isFalse (by simp)
  | .label, b => by cases b <;> first | exact isTrue rfl | exact isFalse (by simp)
  | .int m, b => by
    cases b with
    | int n => exact decidable_of_iff (m = n) (by simp)
    | _ => exact isFalse (by simp)
  | .array m a, b => by
    cases b with
    | array n b =>
      have := decEq a b
      exact decidable_of_iff (m = n ∧ a = b) (by simp)
    | _ => exact isFalse (by simp)
  | .vector m a, b => by
    cases b with
    | vector n b =>
      have := decEq a b
      exact decidable_of_iff (m = n ∧ a = b) (by simp)
    | _ => exact isFalse (by simp)
  | .struct as, b => by
    cases b with
    | struct bs =>
      have := decEqFields as bs
      exact decidable_of_iff (as = bs) (by simp)
    | _ => exact isFalse (by simp)

/-- Decides whether two lists of fields are equal. -/
def decEqFields : (as bs : List Ty) → Decidable (as = bs)
  | [], [] => isTrue rfl
  | [], _ :: _ => isFalse (by simp)
  | _ :: _, [] => isFalse (by simp)
  | a :: as, b :: bs =>
    have := decEq a b
    have := decEqFields as bs
    decidable_of_iff (a = b ∧ as = bs) (by simp)

end

instance : DecidableEq Ty := decEq

/-! ## Kinds of types -/

/-- Whether the type is the integer type of the given width. -/
def isInt (bits : UInt32) : Ty → Bool
  | .int b => b == bits
  | _ => false

/-- Whether the type is one of floating point numbers. -/
def isFloat : Ty → Bool
  | .half | .float | .double => true
  | _ => false

/-- Whether the type is that of pointers. -/
def isPtr : Ty → Bool
  | .ptr => true
  | _ => false

/-- Whether the type is the one that has no values. -/
def isVoid : Ty → Bool
  | .void => true
  | _ => false

/-! ## Parts of aggregates -/

/-- The type of a member of a struct or an array; a vector has none. -/
def field? (t : Ty) (index : UInt32) : Option Ty :=
  match t with
  | .struct fields => fields[index.toNat]?
  | .array length elem => if index.toNat < length.toNat then some elem else none
  | _ => none

/-- The type found by following a path of member indices inward. -/
def at? (t : Ty) (path : List UInt32) : Option Ty := path.foldlM field? t

/-- The type of the elements of a vector. -/
def vectorElem? : Ty → Option Ty
  | .vector _ elem => some elem
  | _ => none

/-! ## Text -/

mutual

/-- The text of a type: words for the simple ones, `[2 x t]`, `<2 x t>` and `{t, u}`. -/
def print : Ty → String
  | .void => "void"
  | .int bits => "i" ++ toString bits.toNat
  | .half => "half"
  | .float => "float"
  | .double => "double"
  | .ptr => "ptr"
  | .label => "label"
  | .array length elem => "[" ++ toString length.toNat ++ " x " ++ elem.print ++ "]"
  | .vector length elem => "<" ++ toString length.toNat ++ " x " ++ elem.print ++ ">"
  | .struct fields => "\x7b" ++ printFields fields ++ "\x7d"

/-- The fields of a struct, separated by a comma and a space. -/
def printFields : List Ty → String
  | [] => ""
  | [t] => t.print
  | t :: u :: ts => t.print ++ ", " ++ printFields (u :: ts)

end

end Ty
end SSALint
