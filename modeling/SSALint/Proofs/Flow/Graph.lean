/-
Searches of graphs against paths. A search comes to exactly the nodes that are there and that a path
from its stack leads to (`mem_reachable_iff`), to each of them once (`nodup_reachable`), whatever
cycles the graph has, however often a node lies on the stack, and whether or not the ends of its edges
are there.
-/
import SSALint.Flow.Graph
import Mathlib.Logic.Relation
import Mathlib.Data.List.Basic

namespace SSALint.Graph

variable {g : Graph}

/-- An edge leaves a node that is there. -/
def Edge (g : Graph) (m n : Nat) : Prop := m ∈ g.nodes ∧ n ∈ g.next m

theorem mem_predecessors {m n : Nat} : m ∈ g.predecessors n ↔ g.Edge m n := by
  unfold predecessors Edge
  simp only [List.mem_flatMap, List.mem_map, List.mem_filter, beq_iff_eq]
  constructor
  · rintro ⟨m', hm, k, ⟨hk, rfl⟩, rfl⟩; exact ⟨hm, hk⟩
  · rintro ⟨hm, hn⟩; exact ⟨m, hm, n, ⟨hn, rfl⟩, rfl⟩

/-- Nodes from which edges lead only to each other, or to nodes that are not there, keep a path among them. -/
theorem mem_of_path {found : List Nat}
    (hclosed : ∀ m ∈ found, ∀ n ∈ g.next m, n ∈ g.nodes → n ∈ found) {start n : Nat}
    (hstart : start ∈ g.nodes → start ∈ found) (hp : Relation.ReflTransGen g.Edge start n)
    (hn : n ∈ g.nodes) : n ∈ found := by
  induction hp with
  | refl => exact hstart hn
  | tail _ he ih => exact hclosed _ (ih he.1) _ he.2 hn

/-! ## Stack search -/

/-- What a search comes to is there, is new, and lies on a path from the stack. -/
theorem of_mem_search {seen stack : List Nat} {n : Nat} (h : n ∈ g.search seen stack) :
    n ∈ g.nodes ∧ ∃ s ∈ stack, Relation.ReflTransGen g.Edge s n := by
  fun_induction search g seen stack with
  | case1 => cases h
  | case2 seen m stack _ ih =>
    obtain ⟨hn, s, hs, hp⟩ := ih h
    exact ⟨hn, s, List.mem_cons_of_mem _ hs, hp⟩
  | case3 seen m stack _ hm ih =>
    rw [List.unattach_reverse, List.unattach_attach] at ih
    rcases List.mem_cons.1 h with rfl | h
    · exact ⟨hm, n, List.mem_cons_self, .refl⟩
    · obtain ⟨hn, s, hs, hp⟩ := ih h
      refine ⟨hn, ?_⟩
      rcases List.mem_append.1 hs with hs | hs
      · exact ⟨m, List.mem_cons_self, .head ⟨hm, List.mem_reverse.1 hs⟩ hp⟩
      · exact ⟨s, List.mem_cons_of_mem _ hs, hp⟩
  | case4 seen m stack _ _ ih =>
    obtain ⟨hn, s, hs, hp⟩ := ih h
    exact ⟨hn, s, List.mem_cons_of_mem _ hs, hp⟩

/-- What is seen or found behind a step into a node was seen before it or is found, if the node is. -/
theorem seen_or_mem {m n : Nat} {seen found found' : List Nat} (h : n ∈ m :: seen ∨ n ∈ found)
    (hfound : found ⊆ found') (hm : n = m → n ∈ found') : n ∈ seen ∨ n ∈ found' := by
  rcases h with h | h
  · exact (List.mem_cons.1 h).elim (fun he => .inr (hm he)) .inl
  · exact .inr (hfound h)

/-- A search comes to the nodes on its stack, but for those seen before, and from a node that it comes
to it goes on to the ends of its edges. -/
theorem search_closed (seen stack : List Nat) :
    (∀ s ∈ stack, s ∈ g.nodes → s ∈ seen ∨ s ∈ g.search seen stack) ∧
      ∀ m ∈ g.search seen stack, ∀ n ∈ g.next m, n ∈ g.nodes → n ∈ seen ∨ n ∈ g.search seen stack := by
  fun_induction search g seen stack with
  | case1 => simp
  | case2 seen m stack hseen ih =>
    refine ⟨fun s hs hn => ?_, ih.2⟩
    rcases List.mem_cons.1 hs with rfl | hs
    · exact .inl hseen
    · exact ih.1 s hs hn
  | case3 seen m stack hseen hm ih =>
    rw [List.unattach_reverse, List.unattach_attach] at ih
    have lift {n : Nat} (h : n ∈ m :: seen ∨ n ∈ g.search (m :: seen) ((g.next m).reverse ++ stack)) :
        n ∈ seen ∨ n ∈ m :: g.search (m :: seen) ((g.next m).reverse ++ stack) :=
      seen_or_mem h (List.subset_cons_self _ _) fun he => he ▸ List.mem_cons_self
    refine ⟨fun s hs hn => ?_, fun k hk n hkn hn => lift ?_⟩
    · rcases List.mem_cons.1 hs with rfl | hs
      · exact .inr List.mem_cons_self
      · exact lift (ih.1 s (List.mem_append_right _ hs) hn)
    · rcases List.mem_cons.1 hk with rfl | hk
      · exact ih.1 n (List.mem_append_left _ (List.mem_reverse.2 hkn)) hn
      · exact ih.2 k hk n hkn hn
  | case4 seen m stack hseen hm ih =>
    have drop {n : Nat} (hn : n ∈ g.nodes) (h : n ∈ m :: seen ∨ n ∈ g.search (m :: seen) stack) :
        n ∈ seen ∨ n ∈ g.search (m :: seen) stack :=
      seen_or_mem h (List.Subset.refl _) fun he => absurd (he ▸ hn) hm
    refine ⟨fun s hs hn => ?_, fun k hk n hkn hn => drop hn (ih.2 k hk n hkn hn)⟩
    rcases List.mem_cons.1 hs with rfl | hs
    · exact absurd hn hm
    · exact drop hn (ih.1 s hs hn)

/-- However often a node lies on the stack, a search comes to it once, and not at all if it was seen. -/
theorem nodup_search (seen stack : List Nat) :
    (g.search seen stack).Nodup ∧ ∀ n ∈ g.search seen stack, n ∉ seen := by
  fun_induction search g seen stack with
  | case1 => simp
  | case2 seen m stack _ ih => exact ih
  | case3 seen m stack hseen _ ih =>
    rw [List.unattach_reverse, List.unattach_attach] at ih
    refine ⟨List.nodup_cons.2 ⟨fun h => ih.2 m h List.mem_cons_self, ih.1⟩, ?_⟩
    exact List.forall_mem_cons.2 ⟨hseen, fun n hn h => ih.2 n hn (List.mem_cons_of_mem _ h)⟩
  | case4 seen m stack _ _ ih => exact ⟨ih.1, fun n hn h => ih.2 n hn (List.mem_cons_of_mem _ h)⟩

theorem nodup_reachable (start : Nat) : (g.reachable start).Nodup := (nodup_search [] [start]).1

/-- A search comes first to the node that it starts from. -/
theorem head?_reachable {start : Nat} (h : start ∈ g.nodes) : (g.reachable start).head? = some start := by
  unfold reachable
  rw [search, if_neg List.not_mem_nil, if_pos h]
  rfl

/-- A search from a node comes to exactly the nodes that are there and that a path leads to. -/
theorem mem_reachable_iff {start n : Nat} :
    n ∈ g.reachable start ↔ n ∈ g.nodes ∧ Relation.ReflTransGen g.Edge start n := by
  unfold reachable
  constructor
  · intro h
    obtain ⟨hn, s, hs, hp⟩ := of_mem_search h
    rw [List.mem_singleton.1 hs] at hp
    exact ⟨hn, hp⟩
  · rintro ⟨hn, hp⟩
    obtain ⟨hstart, hnext⟩ := search_closed (g := g) [] [start]
    have hclosed : ∀ m ∈ g.search [] [start], ∀ n ∈ g.next m, n ∈ g.nodes → n ∈ g.search [] [start] :=
      fun m hm n hmn hn => (hnext m hm n hmn hn).resolve_left List.not_mem_nil
    exact mem_of_path hclosed (fun h => (hstart start List.mem_cons_self h).resolve_left List.not_mem_nil) hp hn

end SSALint.Graph
