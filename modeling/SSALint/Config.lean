/-
The choices that an analysis leaves to its user.
-/
import SSALint.Text.Spelled

namespace SSALint

/-- How often the blocks of a function are visited. -/
inductive Traversal where
  /-- Each block once in stored order. What a later block says is lost on its way back. -/
  | singlePass
  /-- Until nothing changes, and once more to record reads. -/
  | fixpoint
deriving DecidableEq, Repr, Inhabited

/-- Which functions a program keeps. -/
inductive Reachability where
  /-- The entry, what it calls, and what that calls. -/
  | twoHop
  /-- All that the entry can get to by calls. -/
  | transitive
deriving DecidableEq, Repr, Inhabited

instance : Spelled Traversal where
  all := [.singlePass, .fixpoint]
  spelling
    | .singlePass => "single-pass"
    | .fixpoint => "fixpoint"

instance : Spelled Reachability where
  all := [.twoHop, .transitive]
  spelling
    | .twoHop => "two-hop"
    | .transitive => "transitive"

/-- How a module is analyzed. -/
structure Config where
  traversal : Traversal := .singlePass
  reachability : Reachability := .twoHop
  /-- The name of the function that a program starts in. -/
  entry : String := "main"
deriving DecidableEq, Repr, Inhabited

/-- The choices that two switches make; the entry has its usual name. -/
def Config.ofFlags (fixpoint transitive : Bool) : Config where
  traversal := if fixpoint then .fixpoint else .singlePass
  reachability := if transitive then .transitive else .twoHop

end SSALint
