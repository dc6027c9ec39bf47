/-
Directed graphs of numbered nodes and two searches of them. An edge may lead to a node that is not
there; a search passes over it. Both searches work through a list of things to do, which terminates
because a node that is there is entered only once.
-/

namespace SSALint

/-- A graph: the nodes that are there and, for each node, the ends of the edges that leave it. -/
structure Graph where
  nodes : List Nat
  next : Nat → List Nat

namespace Graph

variable (g : Graph)

/-- The number of nodes that are not among those seen. -/
def unseen (seen : List Nat) : Nat := g.nodes.countP fun n => !seen.contains n

theorem unseen_cons_le (n : Nat) (seen : List Nat) : g.unseen (n :: seen) ≤ g.unseen seen := by
  apply List.countP_mono_left
  intro k _
  simp

theorem unseen_cons_lt {n : Nat} {seen : List Nat} (hn : n ∈ g.nodes) (hs : n ∉ seen) :
    g.unseen (n :: seen) < g.unseen seen := by
  unfold unseen
  generalize g.nodes = nodes at hn
  induction nodes with
  | nil => simp at hn
  | cons k nodes ih =>
    have mono : nodes.countP (fun m => !(n :: seen).contains m) ≤
        nodes.countP (fun m => !seen.contains m) := by
      apply List.countP_mono_left
      intro m _
      simp
    by_cases h : k = n
    · subst h
      simp [hs] at mono ⊢
      omega
    · have := ih (by simpa [Ne.symm h] using hn)
      simpa [List.countP_cons, h] using this

/-! ## Predecessors -/

/-- The nodes that an edge leads from to `n`, as often as there are edges. -/
def predecessors (n : Nat) : List Nat :=
  g.nodes.flatMap fun source => ((g.next source).filter (· == n)).map fun _ => source

/-! ## Stack search -/

/-- The nodes on a stack and those reachable from them, in the order in which they are taken from
the stack. Of the ends of a node the last is taken first. -/
def search (seen : List Nat) : (stack : List Nat) → List Nat
  | [] => []
  | n :: stack =>
    if n ∈ seen then search seen stack
    else if n ∈ g.nodes then n :: search (n :: seen) ((g.next n).reverse ++ stack)
    else search (n :: seen) stack
termination_by stack => (g.unseen seen, stack.length)
decreasing_by
  · right; simp
  · left; exact g.unseen_cons_lt ‹_› ‹_›
  · have := g.unseen_cons_le n seen
    simp only [List.length_cons, Prod.lex_def]
    omega

/-- The nodes reachable from `start`, each once. -/
def reachable (start : Nat) : List Nat := g.search [] [start]

/-! ## Depth first search -/

/-- A step of a depth first search. -/
inductive Visit where
  | enter (node : Nat)
  | leave (node : Nat)
deriving DecidableEq, Repr

/-- The nodes in the order in which a depth first search leaves them. Entering a node calls for
entering the ends of its edges in order and then leaving it. -/
def postorder (seen : List Nat) : (visits : List Visit) → List Nat
  | [] => []
  | .leave n :: visits => n :: postorder seen visits
  | .enter n :: visits =>
    if n ∈ seen then postorder seen visits
    else if n ∈ g.nodes then
      postorder (n :: seen) ((g.next n).map .enter ++ .leave n :: visits)
    else postorder (n :: seen) visits
termination_by visits => (g.unseen seen, visits.length)
decreasing_by
  · right; simp
  · right; simp
  · left; exact g.unseen_cons_lt ‹_› ‹_›
  · have := g.unseen_cons_le n seen
    simp only [List.length_cons, Prod.lex_def]
    omega

/-- The nodes reachable from `start` in reverse postorder: a node comes before the ends of its edges
unless they lead back to it. -/
def reversePostorder (start : Nat) : List Nat := (g.postorder [] [.enter start]).reverse

end Graph
end SSALint
