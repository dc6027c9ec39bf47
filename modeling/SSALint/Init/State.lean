/-
What is known about a slot of the stack at a point of a function. The states form a lattice of
height two: below all is `bottom`, above all `top`, and in between two that exclude each other.
-/
import SSALint.Text.Spelled

namespace SSALint

/-- What is known about a slot. -/
inductive InitState where
  /-- Nothing has been said about the slot. -/
  | bottom
  /-- The slot was made and not assigned since. -/
  | unassigned
  /-- The slot was assigned since it was made. -/
  | assigned
  /-- Some paths to here assign the slot and others do not. -/
  | top
deriving DecidableEq, Repr, Inhabited

namespace InitState

instance : Spelled InitState where
  all := [.bottom, .unassigned, .assigned, .top]
  spelling
    | .bottom => "Bottom"
    | .unassigned => "Unassigned"
    | .assigned => "Assigned"
    | .top => "Top"

/-- The least state above two: what is known where two paths meet. -/
def join : InitState → InitState → InitState
  | .bottom, s => s
  | s, .bottom => s
  | .unassigned, .unassigned => .unassigned
  | .assigned, .assigned => .assigned
  | _, _ => .top

theorem join_comm (s t : InitState) : s.join t = t.join s := by cases s <;> cases t <;> rfl

theorem join_assoc (s t u : InitState) : (s.join t).join u = s.join (t.join u) := by
  cases s <;> cases t <;> cases u <;> rfl

@[simp] theorem join_self (s : InitState) : s.join s = s := by cases s <;> rfl

@[simp] theorem bottom_join (s : InitState) : bottom.join s = s := by cases s <;> rfl

end InitState
end SSALint
