/-
Depth first search against paths. What is left to do falls into layers: a node to leave stands behind the ends of
its edges that are still to be entered, and a path leads from it to all that stands before it (`Nested`). Every step
keeps that. When a node is left, the ends of its edges have been come to, so one that is left later was entered
earlier, and a path leads back from it: edges against the order only close cycles (`pairwise_reversePostorder`).
-/
import SSALint.Proofs.Flow.Func
import SSALint.Init.Solver

namespace SSALint

namespace Graph

variable {g : Graph}

/-- The node that a step enters or leaves. -/
def Visit.node : Visit → Nat
  | .enter n => n
  | .leave n => n

/-! ## What a node calls for -/

@[simp] theorem leave_mem_append_iff {ms : List Nat} {n k : Nat} {visits : List Visit} :
    .leave k ∈ ms.map .enter ++ .leave n :: visits ↔ k = n ∨ .leave k ∈ visits := by
  simp

@[simp] theorem enter_mem_append_iff {ms : List Nat} {n k : Nat} {visits : List Visit} :
    .enter k ∈ ms.map .enter ++ .leave n :: visits ↔ k ∈ ms ∨ .enter k ∈ visits := by
  simp

/-- Among the steps that a node calls for one leaves, its own; any other stands further behind. -/
theorem eq_append_of_entering {ms : List Nat} {n k : Nat} {visits before after : List Visit}
    (h : ms.map .enter ++ .leave n :: visits = before ++ .leave k :: after) :
    (k = n ∧ before = ms.map .enter) ∨
      ∃ rest, before = ms.map .enter ++ .leave n :: rest ∧ visits = rest ++ .leave k :: after := by
  induction ms generalizing before with
  | nil =>
    rcases List.cons_eq_append_iff.1 h with ⟨rfl, hk⟩ | ⟨rest, rfl, hrest⟩
    · cases hk
      exact .inl ⟨rfl, rfl⟩
    · exact .inr ⟨rest, rfl, hrest⟩
  | cons m ms ih =>
    rcases List.cons_eq_append_iff.1 h with ⟨-, hk⟩ | ⟨before, rfl, htail⟩
    · cases hk
    · rcases ih htail with ⟨rfl, rfl⟩ | ⟨rest, rfl, hrest⟩
      · exact .inl ⟨rfl, rfl⟩
      · exact .inr ⟨rest, rfl, hrest⟩

/-! ## Layers -/

/-- What is left to do while nodes are entered but not left. -/
structure Nested (g : Graph) (seen : List Nat) (visits : List Visit) : Prop where
  entered : ∀ n, .leave n ∈ visits → n ∈ seen ∧ n ∈ g.nodes
  /-- A node is left once, and a path leads from it to all that is done before it is left. -/
  above : visits.Pairwise fun a b => ∀ n, b = .leave n →
    a ≠ .leave n ∧ Relation.ReflTransGen g.Edge n a.node
  /-- The ends of the edges of a node were come to, or are entered before it is left. -/
  ends : ∀ before n after, visits = before ++ .leave n :: after →
    ∀ m ∈ g.next n, m ∈ seen ∨ .enter m ∈ before

theorem nested_start (start : Nat) : g.Nested [] [.enter start] where
  entered n h := by simp at h
  above := List.pairwise_singleton _ _
  ends before n after h := by
    have hmem : Visit.leave n ∈ [Visit.enter start] := by
      rw [h]
      exact List.mem_append_right _ List.mem_cons_self
    simp at hmem

/-- The first step is done and not called for again. -/
theorem Nested.tail {seen seen' : List Nat} {v : Visit} {visits : List Visit} (h : g.Nested seen (v :: visits))
    (hseen : ∀ n ∈ seen, n ∈ seen') (hv : ∀ n, v = .enter n → n ∈ seen') : g.Nested seen' visits where
  entered n hn :=
    have ⟨hs, hg⟩ := h.entered n (List.mem_cons_of_mem _ hn)
    ⟨hseen n hs, hg⟩
  above := (List.pairwise_cons.1 h.above).2
  ends before n after heq m hm := by
    rcases h.ends (v :: before) n after (by rw [heq, List.cons_append]) m hm with hs | hb
    · exact .inl (hseen m hs)
    · rcases List.mem_cons.1 hb with rfl | hb
      · exact .inl (hv m rfl)
      · exact .inr hb

/-- A node that is entered is left behind the ends of its edges. -/
theorem Nested.enter {seen : List Nat} {n : Nat} {visits : List Visit} (h : g.Nested seen (.enter n :: visits))
    (hseen : n ∉ seen) (hn : n ∈ g.nodes) :
    g.Nested (n :: seen) ((g.next n).map .enter ++ .leave n :: visits) := by
  obtain ⟨habove, hvisits⟩ := List.pairwise_cons.1 h.above
  have hlater : ∀ k, Visit.leave k ∈ visits → k ∈ seen ∧ k ∈ g.nodes :=
    fun k hk => h.entered k (List.mem_cons_of_mem _ hk)
  constructor
  · intro k hk
    rcases leave_mem_append_iff.1 hk with rfl | hk
    · exact ⟨List.mem_cons_self, hn⟩
    · exact ⟨List.mem_cons_of_mem _ (hlater k hk).1, (hlater k hk).2⟩
  · refine List.pairwise_append.2 ⟨?_, List.pairwise_cons.2 ⟨?_, hvisits⟩, ?_⟩
    · exact List.pairwise_map.2 (List.pairwise_of_forall fun _ _ _ hb => nomatch hb)
    · rintro b hb k rfl
      refine ⟨fun he => hseen ?_, (habove _ hb k rfl).2⟩
      cases he
      exact (hlater n hb).1
    · rintro a ha b hb k rfl
      obtain ⟨m, hm, rfl⟩ := List.mem_map.1 ha
      refine ⟨Visit.noConfusion, ?_⟩
      -- The node itself leads to the end of its edge, and whatever is left later leads to the node.
      rcases List.mem_cons.1 hb with hb | hb
      · cases hb
        exact .single ⟨hn, hm⟩
      · exact (habove _ hb k rfl).2.tail ⟨hn, hm⟩
  · intro before k after heq m hm
    rcases eq_append_of_entering heq with ⟨rfl, rfl⟩ | ⟨rest, rfl, rfl⟩
    · exact .inr (List.mem_map.2 ⟨m, hm, rfl⟩)
    · rcases h.ends (.enter n :: rest) k after rfl m hm with hs | hb
      · exact .inl (List.mem_cons_of_mem _ hs)
      · rcases List.mem_cons.1 hb with hb | hb
        · cases hb
          exact .inl List.mem_cons_self
        · exact .inr (List.mem_append_right _ (List.mem_cons_of_mem _ hb))

/-- A node that was entered is passed over. -/
theorem Nested.again {seen : List Nat} {n : Nat} {visits : List Visit} (h : g.Nested seen (.enter n :: visits))
    (hseen : n ∈ seen) : g.Nested seen visits :=
  h.tail (fun _ hs => hs) fun _ he => by cases he; exact hseen

/-- A node that is not there is passed over. -/
theorem Nested.missing {seen : List Nat} {n : Nat} {visits : List Visit}
    (h : g.Nested seen (.enter n :: visits)) : g.Nested (n :: seen) visits :=
  h.tail (fun _ hs => List.mem_cons_of_mem _ hs) fun _ he => by cases he; exact List.mem_cons_self

theorem Nested.leave {seen : List Nat} {n : Nat} {visits : List Visit} (h : g.Nested seen (.leave n :: visits)) :
    g.Nested seen visits :=
  h.tail (fun _ hs => hs) fun _ he => nomatch he

/-! ## Postorder -/

/-- What is left was to be left, or is new and lies on a path from a node that was to be entered. -/
theorem of_mem_postorder {seen : List Nat} {visits : List Visit} {n : Nat} (h : n ∈ g.postorder seen visits) :
    .leave n ∈ visits ∨
      n ∉ seen ∧ n ∈ g.nodes ∧ ∃ s, .enter s ∈ visits ∧ Relation.ReflTransGen g.Edge s n := by
  fun_induction postorder g seen visits with
  | case1 => cases h
  | case2 seen m visits ih =>
    rcases List.mem_cons.1 h with rfl | h
    · exact .inl List.mem_cons_self
    · rcases ih h with hl | ⟨hnew, hn, s, hs, hp⟩
      · exact .inl (List.mem_cons_of_mem _ hl)
      · exact .inr ⟨hnew, hn, s, List.mem_cons_of_mem _ hs, hp⟩
  | case3 seen m visits _ ih =>
    rcases ih h with hl | ⟨hnew, hn, s, hs, hp⟩
    · exact .inl (List.mem_cons_of_mem _ hl)
    · exact .inr ⟨hnew, hn, s, List.mem_cons_of_mem _ hs, hp⟩
  | case4 seen m visits hseen hm ih =>
    simp only [List.map_subtype, List.unattach_attach] at ih
    rcases ih h with hl | ⟨hnew, hn, s, hs, hp⟩
    · rcases leave_mem_append_iff.1 hl with rfl | hl
      · exact .inr ⟨hseen, hm, n, List.mem_cons_self, .refl⟩
      · exact .inl (List.mem_cons_of_mem _ hl)
    · refine .inr ⟨fun h => hnew (List.mem_cons_of_mem _ h), hn, ?_⟩
      rcases enter_mem_append_iff.1 hs with hs | hs
      · exact ⟨m, List.mem_cons_self, .head ⟨hm, hs⟩ hp⟩
      · exact ⟨s, List.mem_cons_of_mem _ hs, hp⟩
  | case5 seen m visits _ _ ih =>
    rcases ih h with hl | ⟨hnew, hn, s, hs, hp⟩
    · exact .inl (List.mem_cons_of_mem _ hl)
    · exact .inr ⟨fun h => hnew (List.mem_cons_of_mem _ h), hn, s, List.mem_cons_of_mem _ hs, hp⟩

/-- What was come to and is left was still to be left. -/
theorem leave_mem_of_mem_postorder {seen : List Nat} {visits : List Visit} {n : Nat}
    (h : n ∈ g.postorder seen visits) (hseen : n ∈ seen) : .leave n ∈ visits :=
  (of_mem_postorder h).resolve_right fun hnew => hnew.1 hseen

/-- Nodes are left once, and over an edge to a node that is left later a path leads back. -/
theorem pairwise_postorder {seen : List Nat} {visits : List Visit} (h : g.Nested seen visits) :
    (g.postorder seen visits).Pairwise fun a b =>
      a ≠ b ∧ (g.Edge a b → Relation.ReflTransGen g.Edge b a) := by
  fun_induction postorder g seen visits with
  | case1 => exact .nil
  | case2 seen n visits ih =>
    obtain ⟨habove, -⟩ := List.pairwise_cons.1 h.above
    refine List.pairwise_cons.2 ⟨fun m hm => ⟨?_, fun hedge => ?_⟩, ih h.leave⟩
    · rintro rfl
      have hagain := leave_mem_of_mem_postorder hm (h.entered n List.mem_cons_self).1
      exact (habove _ hagain n rfl).1 rfl
    · -- Nothing is to be entered before the node is left, so the ends of its edges were come to.
      have hseen : m ∈ seen := (h.ends [] n visits rfl m hedge.2).resolve_right List.not_mem_nil
      exact (habove _ (leave_mem_of_mem_postorder hm hseen) m rfl).2
  | case3 seen n visits hseen ih => exact ih (h.again hseen)
  | case4 seen n visits hseen hn ih =>
    simp only [List.map_subtype, List.unattach_attach] at ih
    exact ih (h.enter hseen hn)
  | case5 seen n visits _ _ ih => exact ih h.missing

/-- What is to be left is left, what is to be entered is left unless it was come to, and so are the ends of the
edges of what is left. -/
structure Leaves (g : Graph) (seen : List Nat) (visits : List Visit) (left : List Nat) : Prop where
  leaves : ∀ n, .leave n ∈ visits → n ∈ left
  enters : ∀ n, .enter n ∈ visits → n ∈ g.nodes → n ∈ seen ∨ n ∈ left
  edges : ∀ m ∈ left, ∀ n ∈ g.next m, n ∈ g.nodes → n ∈ seen ∨ n ∈ left

/-- The ends of the edges of a node were come to before it is left. -/
theorem Leaves.leave {seen : List Nat} {n : Nat} {visits : List Visit} {left : List Nat}
    (h : g.Leaves seen visits left) (hends : ∀ m ∈ g.next n, m ∈ seen) :
    g.Leaves seen (.leave n :: visits) (n :: left) where
  leaves k hk := by
    rcases List.mem_cons.1 hk with hk | hk
    · cases hk
      exact List.mem_cons_self
    · exact List.mem_cons_of_mem _ (h.leaves k hk)
  enters k hk hg := by
    rcases List.mem_cons.1 hk with hk | hk
    · cases hk
    · exact (h.enters k hk hg).imp_right (List.mem_cons_of_mem _)
  edges m hm k hmk hk := by
    rcases List.mem_cons.1 hm with rfl | hm
    · exact .inl (hends k hmk)
    · exact (h.edges m hm k hmk hk).imp_right (List.mem_cons_of_mem _)

/-- A step into a node adds nothing to what is left, where the node was come to or is left behind the step. -/
theorem Leaves.enter {seen seen' : List Nat} {n : Nat} {visits visits' : List Visit} {left : List Nat}
    (h : g.Leaves seen' visits' left) (hvisits : visits ⊆ visits')
    (hseen : ∀ m, m ∈ g.nodes → m ∈ seen' ∨ m ∈ left → m ∈ seen ∨ m ∈ left)
    (hn : n ∈ g.nodes → n ∈ seen ∨ n ∈ left) : g.Leaves seen (.enter n :: visits) left where
  leaves k hk := by
    rcases List.mem_cons.1 hk with hk | hk
    · cases hk
    · exact h.leaves k (hvisits hk)
  enters k hk hg := by
    rcases List.mem_cons.1 hk with hk | hk
    · cases hk
      exact hn hg
    · exact hseen k hg (h.enters k (hvisits hk) hg)
  edges m hm k hmk hk := hseen k hk (h.edges m hm k hmk hk)

theorem leaves_postorder {seen : List Nat} {visits : List Visit} (h : g.Nested seen visits) :
    g.Leaves seen visits (g.postorder seen visits) := by
  fun_induction postorder g seen visits with
  | case1 => constructor <;> simp
  | case2 seen n visits ih =>
    exact (ih h.leave).leave fun m hm => (h.ends [] n visits rfl m hm).resolve_right List.not_mem_nil
  | case3 seen n visits hseen ih =>
    exact (ih (h.again hseen)).enter (List.Subset.refl _) (fun _ _ hm => hm) fun _ => .inl hseen
  | case4 seen n visits hseen hn ih =>
    simp only [List.map_subtype, List.unattach_attach] at ih
    have hrest := ih (h.enter hseen hn)
    have hleft := hrest.leaves n (leave_mem_append_iff.2 (.inl rfl))
    have hvisits : visits ⊆ (g.next n).map .enter ++ .leave n :: visits := fun v hv =>
      List.mem_append_right _ (List.mem_cons_of_mem _ hv)
    -- The node counts as seen in the rest, where it is left.
    exact hrest.enter hvisits (fun m _ hm => seen_or_mem hm (List.Subset.refl _) fun he => he ▸ hleft)
      fun _ => .inr hleft
  | case5 seen n visits hseen hn ih =>
    exact (ih h.missing).enter (List.Subset.refl _)
      (fun m hg hm => seen_or_mem hm (List.Subset.refl _) fun he => absurd (he ▸ hg) hn) fun hg => absurd hg hn

/-! ## Reverse postorder -/

theorem nodup_reversePostorder (start : Nat) : (g.reversePostorder start).Nodup :=
  List.nodup_reverse.2 ((pairwise_postorder (nested_start start)).imp And.left)

/-- A path leads to the start of an edge from an end that comes before it. -/
theorem pairwise_reversePostorder (start : Nat) :
    (g.reversePostorder start).Pairwise fun a b => g.Edge b a → Relation.ReflTransGen g.Edge a b :=
  List.pairwise_reverse.2 ((pairwise_postorder (nested_start start)).imp And.right)

theorem mem_reversePostorder_iff {start n : Nat} :
    n ∈ g.reversePostorder start ↔ n ∈ g.nodes ∧ Relation.ReflTransGen g.Edge start n := by
  unfold reversePostorder
  rw [List.mem_reverse]
  constructor
  · intro h
    rcases of_mem_postorder h with hl | ⟨-, hn, s, hs, hp⟩
    · simp at hl
    · cases List.mem_singleton.1 hs
      exact ⟨hn, hp⟩
  · rintro ⟨hn, hp⟩
    have hleaves := leaves_postorder (g.nested_start start)
    refine mem_of_path (fun m hm n hmn hn => ?_) (fun h => ?_) hp hn
    · exact (hleaves.edges m hm n hmn hn).resolve_left List.not_mem_nil
    · exact (hleaves.enters start List.mem_cons_self h).resolve_left List.not_mem_nil

/-- The search leaves last what it is told to leave last. -/
theorem postorder_append_leave (seen : List Nat) (visits : List Visit) (n : Nat) :
    g.postorder seen (visits ++ [.leave n]) = g.postorder seen visits ++ [n] := by
  fun_induction postorder g seen visits with
  | case1 => simp [postorder]
  | case2 seen m visits ih => rw [List.cons_append, postorder, ih, List.cons_append]
  | case3 seen m visits hseen ih => rw [List.cons_append, postorder, if_pos hseen, ih]
  | case4 seen m visits hseen hm ih =>
    simp only [List.map_subtype, List.unattach_attach] at ih
    rw [List.cons_append, postorder, if_neg hseen, if_pos hm, ← ih, List.append_assoc, List.cons_append]
  | case5 seen m visits hseen hm ih => rw [List.cons_append, postorder, if_neg hseen, if_neg hm, ih]

theorem head?_reversePostorder {start : Nat} (h : start ∈ g.nodes) :
    (g.reversePostorder start).head? = some start := by
  unfold reversePostorder
  rw [postorder, if_neg List.not_mem_nil, if_pos h, postorder_append_leave, List.reverse_append]
  rfl

theorem reversePostorder_of_not_mem {start : Nat} (h : start ∉ g.nodes) : g.reversePostorder start = [] := by
  unfold reversePostorder
  rw [postorder, if_neg List.not_mem_nil, if_neg h, postorder]
  rfl

/-! ## Edges to nodes that are not there -/

/-- A graph without its edges to nodes that are not there. -/
def present (g : Graph) : Graph := { g with next := fun n => (g.next n).filter (· ∈ g.nodes) }

/-- A step that leaves a node or enters one that is there. -/
def Visit.isPresent (g : Graph) : Visit → Bool
  | .enter n => n ∈ g.nodes
  | .leave _ => true

theorem postorder_present {seen seen' : List Nat} (visits : List Visit)
    (h : ∀ n ∈ g.nodes, n ∈ seen ↔ n ∈ seen') :
    g.present.postorder seen' (visits.filter (·.isPresent g)) = g.postorder seen visits := by
  fun_induction postorder g seen visits generalizing seen' with
  | case1 => simp [postorder]
  | case2 seen n visits ih =>
    rw [List.filter_cons_of_pos rfl, postorder, ih h]
  | case3 seen n visits hseen ih =>
    by_cases hn : n ∈ g.nodes
    · rw [List.filter_cons_of_pos (by simpa [Visit.isPresent] using hn), postorder, if_pos ((h n hn).1 hseen), ih h]
    · rw [List.filter_cons_of_neg (by simpa [Visit.isPresent] using hn), ih h]
  | case4 seen n visits hseen hn ih =>
    simp only [List.map_subtype, List.unattach_attach] at ih
    have hnext : ((g.next n).map Visit.enter).filter (·.isPresent g) = (g.present.next n).map .enter := by
      rw [List.filter_map]
      rfl
    rw [List.filter_cons_of_pos (by simpa [Visit.isPresent] using hn), postorder,
      if_neg fun hs => hseen ((h n hn).2 hs), if_pos (show n ∈ g.present.nodes from hn)]
    have hseen' : ∀ m ∈ g.nodes, m ∈ n :: seen ↔ m ∈ n :: seen' := fun m hm => by simp [h m hm]
    rw [← ih hseen', List.filter_append, hnext, List.filter_cons_of_pos rfl]
  | case5 seen n visits hseen hn ih =>
    rw [List.filter_cons_of_neg (by simpa [Visit.isPresent] using hn)]
    refine ih fun m hm => ?_
    have hne : m ≠ n := fun he => hn (he ▸ hm)
    rw [List.mem_cons, h m hm, or_iff_right hne]

/-- Edges to nodes that are not there make no difference. -/
theorem reversePostorder_present (start : Nat) :
    g.present.reversePostorder start = g.reversePostorder start := by
  by_cases hstart : start ∈ g.nodes
  · have hpresent : [Visit.enter start].filter (·.isPresent g) = [.enter start] :=
      List.filter_cons_of_pos (by simpa [Visit.isPresent] using hstart)
    have hsame := postorder_present (g := g) [.enter start] fun n _ => Iff.refl (n ∈ [])
    unfold reversePostorder
    rw [← hsame, hpresent]
  · rw [reversePostorder_of_not_mem hstart, reversePostorder_of_not_mem (g := g.present) hstart]

end Graph

/-! ## Control flow in order -/

namespace Func

variable {f : Func}

theorem mem_reversePostorder_flow_iff {start b : BlockId} : b ∈ f.flow.reversePostorder start ↔
    f.blocks.contains b = true ∧ Relation.ReflTransGen f.Leads start b := by
  rw [Graph.mem_reversePostorder_iff, edge_flow]
  exact and_congr_left' Table.mem_keys_iff_contains

theorem pairwise_reversePostorder_flow (f : Func) (start : BlockId) :
    (f.flow.reversePostorder start).Pairwise fun a b => f.Leads b a → Relation.ReflTransGen f.Leads a b := by
  rw [← edge_flow]
  exact Graph.pairwise_reversePostorder start

theorem nodup_flowOrder (f : Func) : f.flowOrder.Nodup := by
  unfold flowOrder
  cases f.entry? with
  | none => exact List.nodup_nil
  | some start => exact Graph.nodup_reversePostorder start

theorem contains_of_mem_flowOrder {b : BlockId} (h : b ∈ f.flowOrder) : f.blocks.contains b = true := by
  unfold flowOrder at h
  cases hstart : f.entry? with
  | none =>
    rw [hstart] at h
    cases h
  | some start =>
    rw [hstart] at h
    exact (mem_reversePostorder_flow_iff.1 h).1

/-- The solver visits every block once. -/
theorem solvingOrder_perm (f : Func) : f.solvingOrder.Perm f.blocks.keys := by
  have hdisjoint : ∀ b ∈ f.flowOrder, b ∉ f.blocks.keys.filter fun b => !f.flowOrder.contains b := by
    intro b hb hrest
    simpa [hb] using (List.mem_filter.1 hrest).2
  refine (List.perm_ext_iff_of_nodup ?_ f.blocks.nodup_keys).2 fun b => ?_
  · exact f.nodup_flowOrder.append (f.blocks.nodup_keys.filter _) hdisjoint
  · unfold solvingOrder
    rw [List.mem_append, List.mem_filter, Table.mem_keys_iff_contains]
    constructor
    · rintro (hb | ⟨hb, -⟩)
      · exact contains_of_mem_flowOrder hb
      · exact hb
    · intro hb
      by_cases hflow : b ∈ f.flowOrder
      · exact .inl hflow
      · exact .inr ⟨hb, by simpa using hflow⟩

/-- Reverse postorder from a block lists the blocks that control gets to from there, each once and that block
first. From the end of an edge that does not come later a path leads back to its start, so without cycles edges only
lead onward. Edges to blocks that are not there make no difference, and the solver visits every block once. -/
theorem reversePostorder_spec (f : Func) :
    (∀ start, f.blocks.contains start = true →
      (f.flow.reversePostorder start).Nodup ∧
      (∀ b, b ∈ f.flow.reversePostorder start ↔
        f.blocks.contains b = true ∧ Relation.ReflTransGen f.Leads start b) ∧
      (f.flow.reversePostorder start).head? = some start ∧
      (∀ (i j : Nat) (u v : BlockId), (f.flow.reversePostorder start)[i]? = some u →
        (f.flow.reversePostorder start)[j]? = some v → f.Leads u v → j ≤ i → Relation.ReflTransGen f.Leads v u) ∧
      ((∀ b, ¬ Relation.TransGen f.Leads b b) →
        ∀ (i j : Nat) (u v : BlockId), (f.flow.reversePostorder start)[i]? = some u →
          (f.flow.reversePostorder start)[j]? = some v → f.Leads u v → i < j)) ∧
    (∀ start, f.blocks.contains start = false → f.flow.reversePostorder start = []) ∧
    (∀ start, f.flow.present.reversePostorder start = f.flow.reversePostorder start) ∧
    f.solvingOrder.Perm f.blocks.keys := by
  have hnodes : ∀ b, b ∈ f.flow.nodes ↔ f.blocks.contains b = true := fun b => Table.mem_keys_iff_contains
  have hback : ∀ start (i j : Nat) (u v : BlockId), (f.flow.reversePostorder start)[i]? = some u →
      (f.flow.reversePostorder start)[j]? = some v → f.Leads u v → j ≤ i →
      Relation.ReflTransGen f.Leads v u := by
    intro start i j u v hu hv hlead hle
    obtain ⟨hi, rfl⟩ := List.getElem?_eq_some_iff.1 hu
    obtain ⟨hj, rfl⟩ := List.getElem?_eq_some_iff.1 hv
    rcases Nat.lt_or_eq_of_le hle with hlt | rfl
    · exact List.pairwise_iff_getElem.1 (f.pairwise_reversePostorder_flow start) j i hj hi hlt hlead
    · exact .refl
  refine ⟨fun start hstart => ⟨Graph.nodup_reversePostorder start, fun b => mem_reversePostorder_flow_iff,
    Graph.head?_reversePostorder ((hnodes start).2 hstart), hback start, ?_⟩, fun start hstart => ?_,
    Graph.reversePostorder_present, f.solvingOrder_perm⟩
  · intro hacyclic i j u v hu hv hlead
    by_contra hnot
    exact hacyclic u (.head' hlead (hback start i j u v hu hv hlead (Nat.le_of_not_lt hnot)))
  · exact Graph.reversePostorder_of_not_mem fun h => by simp [(hnodes start).1 h] at hstart

example : (⟨[0, 1, 2, 3, 4, 5], fun n => [[1, 2], [3, 9], [3], [1, 4], [], [4]].getD n []⟩ : Graph).reversePostorder 0 =
    [0, 2, 1, 3, 4] := by cbv

end Func

end SSALint
