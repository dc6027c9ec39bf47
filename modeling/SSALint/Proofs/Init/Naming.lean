/-
Names for slots. The number that a slot is named by is the least one from where the search begins whose name is
free (`freeFrom_spec`), and no slot name is a number. So a function keeps the rules for its numbers and its names
when its slots are named (`Func.WellFormed.named`).
-/
import SSALint.Proofs.Init.Frame
import SSALint.Proofs.Source.WellFormed
import Mathlib

namespace SSALint

theorem slotName_inj : Function.Injective slotName := fun _ _ h => Nat.repr_injective ((String.append_right_inj _).1 h)

/-- No slot name is a number. -/
theorem exists_not_isDigit_slotName (k : Nat) : ∃ c ∈ (slotName k).toList, ¬ c.isDigit :=
  ⟨'l', by simp [slotName], by decide⟩

namespace Func

variable (f : Func)

/-- The names that the local values of a function bear. -/
def names : List String := f.locals.values.filterMap (·.name)

theorem hasLocalNamed_iff {name : String} : f.hasLocalNamed name = true ↔ name ∈ f.names := by
  unfold hasLocalNamed names
  rw [List.any_eq_true, List.mem_filterMap]
  simp only [beq_iff_eq]

/-! ## Free names -/

/-- Of more numbers than there are local values one has a name that is free. -/
theorem exists_free (k : Nat) : ∃ d ∈ List.range (f.locals.size + 1), (!f.hasLocalNamed (slotName (k + d))) = true := by
  by_contra hnone
  have htaken : (List.range (f.locals.size + 1)).map (fun d => slotName (k + d)) ⊆ f.names := by
    intro name hname
    obtain ⟨d, hd, rfl⟩ := List.mem_map.1 hname
    by_contra hfree
    refine hnone ⟨d, hd, ?_⟩
    rw [Bool.not_eq_true', Bool.eq_false_iff, Ne, hasLocalNamed_iff]
    exact hfree
  have hnodup : ((List.range (f.locals.size + 1)).map fun d => slotName (k + d)).Nodup :=
    List.nodup_range.map fun _ _ h => Nat.add_left_cancel (slotName_inj h)
  have hle := (hnodup.subperm htaken).length_le
  have hnames : f.names.length ≤ f.locals.size := List.length_filterMap_le _ _
  rw [List.length_map, List.length_range] at hle
  omega

/-- The number found is the first from `k` on whose name is free. -/
theorem freeFrom_spec (k : Nat) : k ≤ f.freeFrom k ∧ slotName (f.freeFrom k) ∉ f.names ∧
    ∀ j, k ≤ j → j < f.freeFrom k → slotName j ∈ f.names := by
  unfold freeFrom
  generalize hp : (fun d => !f.hasLocalNamed (slotName (k + d))) = p
  have hfound : (List.range (f.locals.size + 1)).findIdx p < (List.range (f.locals.size + 1)).length := by
    rw [List.findIdx_lt_length, ← hp]
    exact f.exists_free k
  refine ⟨Nat.le_add_right _ _, ?_, fun j hk hj => ?_⟩
  · have hfree := List.findIdx_getElem (w := hfound)
    rw [List.getElem_range, ← hp, Bool.not_eq_true', Bool.eq_false_iff, Ne, hasLocalNamed_iff, hp] at hfree
    exact hfree
  · have hlt : j - k < (List.range (f.locals.size + 1)).findIdx p := by omega
    have htaken := List.not_of_lt_findIdx hlt
    rw [List.getElem_range, ← hp, Bool.not_eq_false', Nat.add_sub_cancel' hk, hasLocalNamed_iff] at htaken
    exact htaken

/-! ## Naming slots -/

variable {f}

theorem localName?_of_get? {x : LocalId} {l : Local} (hx : f.locals.get? x = some l) : f.localName? x = l.name := by
  unfold localName?
  rw [hx]
  rfl

theorem mem_names_of_get? {x : LocalId} {l : Local} {name : String} (hx : f.locals.get? x = some l)
    (hname : l.name = some name) : name ∈ f.names :=
  List.mem_filterMap.2 ⟨l, Table.mem_values.2 ⟨x, hx⟩, hname⟩

/-- What is named bears the name, the others are as before. -/
theorem get?_setLocalName {x y : LocalId} {name : String} {l : Local}
    (h : (f.setLocalName x name).locals.get? y = some l) :
    y = x ∧ l.name = some name ∨ y ≠ x ∧ f.locals.get? y = some l := by
  have hget : (f.setLocalName x name).locals.get? y =
      if y = x then (f.locals.get? y).map fun l => { l with name := some name } else f.locals.get? y :=
    Table.get?_modify _ _ _ _
  rw [hget] at h
  by_cases hy : y = x
  · rw [if_pos hy] at h
    obtain ⟨_, -, rfl⟩ := Option.map_eq_some_iff.1 h
    exact .inl ⟨hy, rfl⟩
  · rw [if_neg hy] at h
    exact .inr ⟨hy, h⟩

/-- A name that no local value bears, and that is not a number, can be given to one. -/
theorem WellFormed.setLocalName (hf : f.WellFormed) {name : String} (hfree : name ∉ f.names)
    (hname : ∃ c ∈ name.toList, ¬ c.isDigit) (x : LocalId) : (f.setLocalName x name).WellFormed where
  blocks := hf.blocks
  locals := hf.locals.modify x fun _ => rfl
  numbered := by
    have hsize : (f.setLocalName x name).locals.size = f.locals.size := Table.size_modify _ _ _
    rw [hsize]
    exact hf.numbered
  localNames := by
    rw [Table.nodup_filterMap_values_iff]
    intro j k l l' other hj hk hl hl'
    rcases get?_setLocalName hj with ⟨hjx, hjname⟩ | ⟨-, hj⟩ <;>
      rcases get?_setLocalName hk with ⟨hkx, hkname⟩ | ⟨-, hk⟩
    · exact hjx.trans hkx.symm
    · cases hjname.symm.trans hl
      exact absurd (mem_names_of_get? hk hl') hfree
    · cases hkname.symm.trans hl'
      exact absurd (mem_names_of_get? hj hl) hfree
    · exact Table.nodup_filterMap_values_iff.1 hf.localNames j k l l' other hj hk hl hl'
  notNumber l hl other hother := by
    obtain ⟨j, hj⟩ := Table.mem_values.1 hl
    rcases get?_setLocalName hj with ⟨-, hnamed⟩ | ⟨-, hj⟩
    · cases hnamed.symm.trans hother
      exact hname
    · exact hf.notNumber l (Table.mem_values.2 ⟨j, hj⟩) other hother
  labels := hf.labels
  labelled := hf.labelled

/-- Naming slots takes and makes no local values. -/
theorem keys_nameSlots (f : Func) (k : Nat) (xs : List LocalId) : (f.nameSlots k xs).locals.keys = f.locals.keys ∧
    (f.nameSlots k xs).locals.next = f.locals.next := by
  induction xs generalizing f k with
  | nil => exact ⟨rfl, rfl⟩
  | cons x xs ih =>
    obtain ⟨hkeys, hnext⟩ := ih (f.setLocalName x (slotName (f.freeFrom k))) (f.freeFrom k + 1)
    exact ⟨hkeys.trans (Table.keys_modify _ _ _), hnext.trans (Table.next_modify _ _ _)⟩

/-- Naming slots keeps the rules for numbers and names. -/
theorem WellFormed.nameSlots {f : Func} (hf : f.WellFormed) (k : Nat) (xs : List LocalId) :
    (f.nameSlots k xs).WellFormed := by
  induction xs generalizing f k with
  | nil => exact hf
  | cons x xs ih =>
    have hfree := (f.freeFrom_spec k).2.1
    exact ih (hf.setLocalName hfree (exists_not_isDigit_slotName _) x) (f.freeFrom k + 1)

theorem WellFormed.named (hf : f.WellFormed) : f.named.WellFormed := hf.nameSlots 0 _

end Func
end SSALint
