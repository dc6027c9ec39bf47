/-
Where paths meet only what is known on them counts. The join of several slots is told slot by slot from the states
in which they track it (`IsJoinOf`): it is the least state above them (`isLUB_get?_joinAll`), and of four states that
is easily named. So neither the order in which paths or the entries of one path are joined makes a difference, nor
how often a path is (`joinAll_spec`).
-/
import SSALint.Init.Solver
import SSALint.Proofs.Flow.Func
import SSALint.Proofs.Init.Order
import Mathlib.Data.Set.Subsingleton
import Mathlib.Order.Bounds.Basic

namespace SSALint

/-! ## The least state above several ones -/

namespace InitState

theorem le_top (s : InitState) : s ≤ top := by cases s <;> decide

/-- Above two different states that both say something stands the greatest one only. -/
theorem eq_top_of_le {s t u : InitState} (hs : s ≠ bottom) (ht : t ≠ bottom) (hne : s ≠ t) (hsu : s ≤ u)
    (htu : t ≤ u) : u = top := by
  revert hs ht hne hsu htu
  cases s <;> cases t <;> cases u <;> decide

/-- The state that several agree on, as far as they say something, is the least above them. -/
theorem isLUB_of_agreed {states : Set InitState} {s : InitState} (h : states \ {bottom} = {s}) :
    IsLUB states s := by
  have hs : s ∈ states \ {bottom} := h ▸ Set.mem_singleton s
  refine IsGreatest.isLUB ⟨hs.1, fun t ht => ?_⟩
  by_cases hb : t = bottom
  · exact hb ▸ bottom_le s
  · have hts : t ∈ states \ {bottom} := ⟨ht, hb⟩
    rw [h] at hts
    exact le_of_eq hts

/-- Above states that do not agree stands the greatest one only. -/
theorem isLUB_of_nontrivial {states : Set InitState} (h : (states \ {bottom}).Nontrivial) : IsLUB states top := by
  obtain ⟨s, ⟨hs, hsb⟩, t, ⟨ht, htb⟩, hne⟩ := h
  refine ⟨fun u _ => le_top u, fun u hu => ?_⟩
  exact le_of_eq (eq_top_of_le hsb htb hne (hu hs) (hu ht)).symm

end InitState

namespace Slots

/-! ## The join slot by slot -/

/-- The states in which several slots track one. -/
def statesAt (ls : List Slots) (x : LocalId) : Set InitState := {s | ∃ l ∈ ls, l.get? x = some s}

/-- What is known where paths meet, told slot by slot and not by joining: a slot is tracked if one of the paths tracks
it, in the state that those of them agree on which say something, and in the greatest one if they do not agree. -/
structure IsJoinOf (j : Slots) (ls : List Slots) : Prop where
  tracked : ∀ x, (j.get? x).isSome ↔ ∃ l ∈ ls, (l.get? x).isSome
  bottom : ∀ x, statesAt ls x = {.bottom} → j.get? x = some .bottom
  agreed : ∀ x s, statesAt ls x \ {.bottom} = {s} → j.get? x = some s
  top : ∀ x, (statesAt ls x \ {.bottom}).Nontrivial → j.get? x = some .top

theorem nonempty_statesAt_iff {ls : List Slots} {x : LocalId} :
    (statesAt ls x).Nonempty ↔ ∃ l ∈ ls, (l.get? x).isSome := by
  simp only [Option.isSome_iff_exists]
  constructor
  · rintro ⟨s, l, hl, hs⟩; exact ⟨l, hl, s, hs⟩
  · rintro ⟨l, hl, s, hs⟩; exact ⟨s, l, hl, hs⟩

theorem IsJoinOf.get?_eq_none {j : Slots} {ls : List Slots} {x : LocalId} (h : j.IsJoinOf ls)
    (hx : statesAt ls x = ∅) : j.get? x = none := by
  rw [← Option.not_isSome_iff_eq_none, h.tracked, ← nonempty_statesAt_iff, hx]
  exact Set.not_nonempty_empty

/-- There is only one such join: the states of a slot that is tracked at all say nothing, or agree, or do not. -/
theorem IsJoinOf.unique {j j' : Slots} {ls : List Slots} (h : j.IsJoinOf ls) (h' : j'.IsJoinOf ls) : j = j' := by
  apply ext
  intro x
  rcases (statesAt ls x \ {.bottom}).subsingleton_or_nontrivial with hsub | htop
  · rcases hsub.eq_empty_or_singleton with hnone | ⟨s, hs⟩
    · rcases Set.subset_singleton_iff_eq.1 (Set.sdiff_eq_empty.1 hnone) with hempty | hbottom
      · rw [h.get?_eq_none hempty, h'.get?_eq_none hempty]
      · rw [h.bottom x hbottom, h'.bottom x hbottom]
    · rw [h.agreed x s hs, h'.agreed x s hs]
  · rw [h.top x htop, h'.top x htop]

theorem isSome_get?_join {l other : Slots} {x : LocalId} :
    ((l.join other).get? x).isSome ↔ (l.get? x).isSome ∨ (other.get? x).isSome := by
  rw [get?_join]
  cases other.get? x <;> simp

theorem isSome_get?_joinAll {ls : List Slots} {x : LocalId} :
    ((joinAll ls).get? x).isSome ↔ ∃ l ∈ ls, (l.get? x).isSome :=
  joinAll_iff_exists (P := fun l => (l.get? x).isSome) (by simp) fun _ _ => isSome_get?_join

/-- The state of a slot where paths meet is the least above its states on them. -/
theorem isLUB_get?_joinAll {ls : List Slots} {x : LocalId} {s : InitState} (h : (joinAll ls).get? x = some s) :
    IsLUB (statesAt ls x) s := by
  constructor
  · rintro t ⟨l, hl, ht⟩
    obtain ⟨s', hs', hle⟩ := le_joinAll hl x t ht
    rw [h] at hs'
    cases hs'
    exact hle
  · intro u hu
    -- The join stays above all of its members if it tracks this one slot in another state above theirs.
    have hle : joinAll ls ≤ (joinAll ls).set x u := by
      rw [joinAll_le_iff]
      intro l hl y t ht
      rw [get?_set]
      split
      · rename_i hy
        subst hy
        exact ⟨u, rfl, hu ⟨l, hl, ht⟩⟩
      · exact le_joinAll hl y t ht
    obtain ⟨u', hu', hsu⟩ := hle x s h
    rw [get?_set, if_pos rfl] at hu'
    cases hu'
    exact hsu

theorem get?_joinAll_of_isLUB {ls : List Slots} {x : LocalId} {s : InitState} (hne : (statesAt ls x).Nonempty)
    (h : IsLUB (statesAt ls x) s) : (joinAll ls).get? x = some s := by
  obtain ⟨t, ht⟩ := Option.isSome_iff_exists.1 (isSome_get?_joinAll.2 (nonempty_statesAt_iff.1 hne))
  rw [ht, (isLUB_get?_joinAll ht).unique h]

theorem isJoinOf_joinAll (ls : List Slots) : (joinAll ls).IsJoinOf ls where
  tracked _ := isSome_get?_joinAll
  bottom x h := get?_joinAll_of_isLUB (h ▸ Set.singleton_nonempty _) (h ▸ isLUB_singleton)
  agreed x s h := by
    have hne : (statesAt ls x \ {.bottom}).Nonempty := h ▸ Set.singleton_nonempty s
    exact get?_joinAll_of_isLUB (hne.mono Set.sdiff_subset) (InitState.isLUB_of_agreed h)
  top x h := get?_joinAll_of_isLUB (h.nonempty.mono Set.sdiff_subset) (InitState.isLUB_of_nontrivial h)

theorem isJoinOf_iff {j : Slots} {ls : List Slots} : j.IsJoinOf ls ↔ j = joinAll ls :=
  ⟨fun h => h.unique (isJoinOf_joinAll ls), fun h => h ▸ isJoinOf_joinAll ls⟩

/-! ## Order and multiplicity -/

/-- Slots that are the same but for order and repetitions have the same join. -/
theorem joinAll_congr {ls ls' : List Slots} (h : ∀ l, l ∈ ls ↔ l ∈ ls') : joinAll ls = joinAll ls' :=
  le_antisymm (joinAll_le_iff.2 fun l hl => le_joinAll ((h l).1 hl))
    (joinAll_le_iff.2 fun l hl => le_joinAll ((h l).2 hl))

/-- Two entries may change places, also if they are of the same slot. -/
theorem joinEntry_right_comm (l : Slots) (e e' : LocalId × InitState) :
    (l.joinEntry e).joinEntry e' = (l.joinEntry e').joinEntry e := by
  apply ext
  intro x
  simp only [get?_joinEntry]
  by_cases he : x = e.1
  · by_cases he' : x = e'.1
    · simp only [if_pos he, if_pos he', Option.getD_some]
      rw [InitState.join_assoc, InitState.join_comm e.2, ← InitState.join_assoc]
    · simp only [if_neg he']
  · simp only [if_neg he]

/-- Entries may be joined in any order. -/
theorem foldl_joinEntry_of_perm {row : List (LocalId × InitState)} {other : Slots} (h : row.Perm other.entries)
    (l : Slots) : row.foldl joinEntry l = l.join other :=
  h.foldl_eq' (fun e _ e' _ l => joinEntry_right_comm l e e') l

/-- The entries of each of several slots may be joined in any order. -/
theorem foldl_rows {rows : List (List (LocalId × InitState))} {ls : List Slots}
    (h : List.Forall₂ (fun row l => row.Perm l.entries) rows ls) (l : Slots) :
    rows.foldl (List.foldl joinEntry) l = ls.foldl join l := by
  induction h generalizing l with
  | nil => rfl
  | cons hrow _ ih => rw [List.foldl_cons, List.foldl_cons, foldl_joinEntry_of_perm hrow, ih]

end Slots

/-! ## The head of a block -/

/-- All that is known at the ends of the blocks that lead to a block. -/
def Func.arriving (f : Func) (known : Table Slots) (b : BlockId) : Set Slots :=
  {l | ∃ p, f.Leads p b ∧ known.get? p = some l}

theorem Func.mem_arriving {f : Func} {known : Table Slots} {b : BlockId} {l : Slots} :
    l ∈ f.arriving known b ↔ l ∈ (f.flow.predecessors b).filterMap known.get? := by
  simp only [List.mem_filterMap, Graph.mem_predecessors, edge_flow_iff]
  rfl

/-- Where paths meet, what is known of a slot depends on the states in which they track it, on nothing else: not on
the order in which they or their entries are joined, nor on how often. At the head of a block it depends on the set of
what is known at the ends of the blocks that lead there, however many edges do. -/
theorem Slots.joinAll_spec :
    (∀ ls j, IsJoinOf j ls ↔ j = joinAll ls) ∧
    (∀ ls rows, List.Forall₂ (fun row l => row.Perm l.entries) rows ls →
      rows.foldl (List.foldl joinEntry) empty = joinAll ls) ∧
    (∀ ls ls' : List Slots, (∀ l, l ∈ ls ↔ l ∈ ls') → joinAll ls = joinAll ls') ∧
    ∀ (f f' : Func) (known known' : Table Slots) (b b' : BlockId), f.arriving known b = f'.arriving known' b' →
      f.slotsAtHead known b = f'.slotsAtHead known' b' := by
  refine ⟨fun ls j => isJoinOf_iff, fun ls rows h => foldl_rows h empty, fun ls ls' => joinAll_congr, ?_⟩
  intro f f' known known' b b' h
  refine joinAll_congr fun l => ?_
  rw [← Func.mem_arriving, ← Func.mem_arriving, h]

-- One path comes twice, and of the second slot one path says nothing and the other does not know it.
example : Slots.joinAll [.ofList [(0, .assigned)], .ofList [(0, .unassigned), (1, .bottom)], .ofList [(0, .assigned)]] =
    .ofList [(0, .top), (1, .bottom)] := by
  decide

end SSALint
