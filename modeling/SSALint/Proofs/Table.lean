/-
Laws of tables through the view `get?`: what each operation does to the value of every key, and that
the listings (`toList`, `keys`, `values`) run through the present keys in ascending order. Later
modules use tables through these laws and never look at the slots.
-/
import SSALint.Table
import Mathlib.Data.List.Basic
import Mathlib.Data.List.Sort

namespace SSALint.Table

variable {α β γ : Type}

/-! ## Slots and keys -/

theorem get?_eq_getElem? (t : Table α) (k : Nat) : t.get? k = (t.slots[k]?).join := by
  unfold get?
  rw [List.getD_eq_getElem?_getD]
  cases t.slots[k]? <;> rfl

theorem get?_eq_some_iff {t : Table α} {k : Nat} {v : α} :
    t.get? k = some v ↔ t.slots[k]? = some (some v) := by
  rw [get?_eq_getElem?, Option.join_eq_some_iff]

theorem lt_next_of_get? {t : Table α} {k : Nat} {v : α} (h : t.get? k = some v) : k < t.next := by
  rw [get?_eq_some_iff] at h
  exact (List.getElem?_eq_some_iff.1 h).1

theorem get?_of_next_le {t : Table α} {k : Nat} (h : t.next ≤ k) : t.get? k = none := by
  cases hv : t.get? k with
  | none => rfl
  | some v =>
    have := lt_next_of_get? hv
    omega

/-- Two tables that hold the same values and have handed out equally many keys are equal. -/
theorem ext {s t : Table α} (hn : s.next = t.next) (h : ∀ k, s.get? k = t.get? k) : s = t := by
  obtain ⟨s⟩ := s
  obtain ⟨t⟩ := t
  congr 1
  apply List.ext_getElem hn
  intro k hs ht
  have hk := h k
  rw [get?_eq_getElem?, get?_eq_getElem?, List.getElem?_eq_getElem hs, List.getElem?_eq_getElem ht] at hk
  simpa using hk

@[simp] theorem get?_empty (k : Nat) : (empty : Table α).get? k = none := by
  simp [empty, get?_eq_getElem?]

theorem contains_iff {t : Table α} {k : Nat} : t.contains k = true ↔ ∃ v, t.get? k = some v := by
  unfold contains
  rw [Option.isSome_iff_exists]

theorem get_eq_ok_iff {t : Table α} {k : Nat} {v : α} : t.get k = .ok v ↔ t.get? k = some v := by
  unfold get
  cases t.get? k with
  | none => simp
  | some w => simp

/-! ## Listings -/

theorem mem_toList {t : Table α} {k : Nat} {v : α} : (k, v) ∈ t.toList ↔ t.get? k = some v := by
  unfold toList
  rw [get?_eq_some_iff, List.mem_filterMap]
  constructor
  · rintro ⟨⟨slot, j⟩, hm, he⟩
    obtain ⟨w, rfl, hw⟩ := Option.map_eq_some_iff.1 he
    cases hw
    exact List.mk_mem_zipIdx_iff_getElem?.1 hm
  · intro h
    exact ⟨(some v, k), List.mk_mem_zipIdx_iff_getElem?.2 h, rfl⟩

theorem mem_keys {t : Table α} {k : Nat} : k ∈ t.keys ↔ ∃ v, t.get? k = some v := by
  unfold keys
  rw [List.mem_map]
  constructor
  · rintro ⟨⟨j, v⟩, hm, rfl⟩
    exact ⟨v, mem_toList.1 hm⟩
  · rintro ⟨v, hv⟩
    exact ⟨(k, v), mem_toList.2 hv, rfl⟩

theorem mem_keys_iff_contains {t : Table α} {k : Nat} : k ∈ t.keys ↔ t.contains k = true := by
  rw [mem_keys, contains_iff]

/-- The values are those of the listing, in its order. -/
theorem values_eq_map_toList (t : Table α) : t.values = t.toList.map (·.2) := by
  have hf : t.slots = t.slots.zipIdx.map Prod.fst := by rw [List.zipIdx_map_fst]
  unfold values toList
  conv_lhs => rw [hf]
  rw [List.filterMap_map, List.map_filterMap]
  congr 1
  funext ⟨slot, k⟩
  cases slot <;> rfl

theorem mem_values {t : Table α} {v : α} : v ∈ t.values ↔ ∃ k, t.get? k = some v := by
  rw [values_eq_map_toList, List.mem_map]
  constructor
  · rintro ⟨⟨k, w⟩, hm, rfl⟩
    exact ⟨k, mem_toList.1 hm⟩
  · rintro ⟨k, hk⟩
    exact ⟨(k, v), mem_toList.2 hk, rfl⟩

theorem pairwise_toList (t : Table α) : t.toList.Pairwise fun a b => a.1 < b.1 := by
  have hp : t.slots.zipIdx.Pairwise fun a b => a.2 < b.2 := by
    rw [← List.pairwise_map (R := (· < ·)), List.zipIdx_map_snd]
    exact List.pairwise_lt_range'
  unfold toList
  refine hp.filterMap _ ?_
  rintro ⟨slot, j⟩ ⟨slot', j'⟩ hlt a ha b hb
  obtain ⟨v, -, rfl⟩ := Option.map_eq_some_iff.1 ha
  obtain ⟨w, -, rfl⟩ := Option.map_eq_some_iff.1 hb
  exact hlt

/-- Keys are listed in ascending order, each once. -/
theorem pairwise_keys (t : Table α) : t.keys.Pairwise (· < ·) := by
  unfold keys
  exact List.pairwise_map.2 t.pairwise_toList

theorem nodup_keys (t : Table α) : t.keys.Nodup := t.pairwise_keys.imp Nat.ne_of_lt

theorem size_eq_length_keys (t : Table α) : t.size = t.keys.length := by
  unfold size keys
  rw [values_eq_map_toList, List.length_map, List.length_map]

/-- What is read off the values of a table is told apart exactly if no two keys share it. -/
theorem nodup_filterMap_values_iff {t : Table α} {g : α → Option β} : (t.values.filterMap g).Nodup ↔
    ∀ j k v w b, t.get? j = some v → t.get? k = some w → g v = some b → g w = some b → j = k := by
  rw [values_eq_map_toList, List.filterMap_map, List.Nodup, List.pairwise_filterMap]
  constructor
  · intro hpairs j k v w b hj hk hv hw
    have hsame : ∀ a ∈ t.toList, ∀ a' ∈ t.toList, g a.2 = some b → g a'.2 = some b → a.1 = a'.1 :=
      fun a ha a' ha' => List.Pairwise.forall_of_forall_of_flip
        (R := fun a a' : Nat × α => g a.2 = some b → g a'.2 = some b → a.1 = a'.1) (fun _ _ _ _ => rfl)
        (hpairs.imp fun h hb hb' => absurd rfl (h b hb b hb'))
        (hpairs.imp fun h hb hb' => absurd rfl (h b hb' b hb)) ha ha'
    exact hsame (j, v) (mem_toList.2 hj) (k, w) (mem_toList.2 hk) hv hw
  · intro h
    refine t.pairwise_toList.imp_of_mem fun {a a'} ha ha' hlt b hb b' hb' heq => ?_
    cases heq
    exact Nat.ne_of_lt hlt (h a.1 a'.1 a.2 a'.2 b (mem_toList.1 ha) (mem_toList.1 ha') hb hb')

/-- A search through the listing finds the entry of least key that passes. -/
theorem find?_toList_eq_some_iff {t : Table α} {p : Nat × α → Bool} {a : Nat × α} :
    t.toList.find? p = some a ↔ (t.get? a.1 = some a.2 ∧ p a = true) ∧
      ∀ k v, t.get? k = some v → p (k, v) = true → a.1 ≤ k := by
  have found : ∀ a, t.toList.find? p = some a → (t.get? a.1 = some a.2 ∧ p a = true) ∧
      ∀ k v, t.get? k = some v → p (k, v) = true → a.1 ≤ k := by
    intro a ha
    obtain ⟨hpa, before, after, hl, hbefore⟩ := List.find?_eq_some_iff_append.1 ha
    refine ⟨⟨mem_toList.1 (by rw [hl]; simp), hpa⟩, fun k v hk hpk => ?_⟩
    -- Keys ascend in the listing: what passes stands behind the first that does, or is it.
    have hsorted := t.pairwise_toList
    have hmem := mem_toList.2 hk
    rw [hl] at hsorted hmem
    rcases List.mem_append.1 hmem with hmem | hmem
    · have := hbefore _ hmem
      rw [hpk] at this
      cases this
    · obtain ⟨-, hafter, -⟩ := List.pairwise_append.1 hsorted
      rcases List.mem_cons.1 hmem with rfl | hmem
      · exact Nat.le_refl _
      · exact Nat.le_of_lt ((List.pairwise_cons.1 hafter).1 _ hmem)
  refine ⟨found a, ?_⟩
  rintro ⟨⟨ha, hpa⟩, hleast⟩
  cases hb : t.toList.find? p with
  | none => exact absurd hpa (List.find?_eq_none.1 hb a (mem_toList.2 ha))
  | some b =>
    obtain ⟨⟨hget, hpb⟩, hle⟩ := found b hb
    have hkey : a.1 = b.1 := Nat.le_antisymm (hleast _ _ hget hpb) (hle _ _ ha hpa)
    have hval : some a.2 = some b.2 := by rw [← ha, ← hget, hkey]
    rw [Option.some.injEq]
    exact Prod.ext hkey.symm (Option.some.inj hval).symm

/-! ## Writing -/

theorem next_insert (t : Table α) (k : Nat) (v : α) : (t.insert k v).next = max t.next (k + 1) := by
  unfold insert
  split
  · simp only [next, List.length_set] at *; omega
  · simp only [next, List.length_append, List.length_replicate, List.length_cons, List.length_nil] at *
    omega

@[simp] theorem get?_insert (t : Table α) (k j : Nat) (v : α) :
    (t.insert k v).get? j = if j = k then some v else t.get? j := by
  unfold insert
  split
  · rename_i hk
    rw [get?_eq_getElem?, get?_eq_getElem?, List.getElem?_set]
    by_cases hj : k = j
    · subst hj; simp [show k < t.slots.length from hk]
    · simp [hj, Ne.symm hj]
  · rename_i hk
    rw [get?_eq_getElem?, get?_eq_getElem?]
    unfold next at hk ⊢
    simp only [List.append_assoc, List.getElem?_append, List.length_replicate, List.getElem?_replicate]
    by_cases h1 : j < t.slots.length
    · simp [h1, show j ≠ k by omega]
    · rw [if_neg h1, List.getElem?_eq_none (by omega : t.slots.length ≤ j)]
      by_cases h2 : j - t.slots.length < k - t.slots.length
      · simp [h2, show j ≠ k by omega]
      · by_cases h3 : j = k
        · subst h3; simp
        · simp [h2, h3, show ¬ j - t.slots.length - (k - t.slots.length) = 0 by omega]

/-- Writing what a key already holds changes nothing. -/
theorem insert_of_get? {t : Table α} {k : Nat} {v : α} (h : t.get? k = some v) : t.insert k v = t := by
  have hk := lt_next_of_get? h
  apply ext
  · rw [next_insert]; omega
  · intro j
    rw [get?_insert]
    split
    · rename_i hj; rw [hj, h]
    · rfl

@[simp] theorem get?_map (f : α → β) (t : Table α) (k : Nat) : (t.map f).get? k = (t.get? k).map f := by
  rw [get?_eq_getElem?, get?_eq_getElem?]
  unfold map
  rw [List.getElem?_map]
  cases t.slots[k]? <;> simp

@[simp] theorem next_map (f : α → β) (t : Table α) : (t.map f).next = t.next := by
  simp [map, next]

theorem toList_map (f : α → β) (t : Table α) :
    (t.map f).toList = t.toList.map fun a => (a.1, f a.2) := by
  unfold toList map
  rw [List.zipIdx_map, List.filterMap_map, List.map_filterMap]
  congr 1
  funext ⟨slot, k⟩
  cases slot <;> rfl

theorem map_self (t : Table α) : (t.map fun v => v) = t := by
  simp [map]

theorem map_map (f : α → β) (g : β → γ) (t : Table α) : (t.map f).map g = t.map (g ∘ f) := by
  unfold map
  simp only [List.map_map, Table.mk.injEq]
  congr 1
  funext slot
  cases slot <;> rfl

@[simp] theorem keys_map (f : α → β) (t : Table α) : (t.map f).keys = t.keys := by
  simp [keys, toList_map]

@[simp] theorem values_map (f : α → β) (t : Table α) : (t.map f).values = t.values.map f := by
  simp [values_eq_map_toList, toList_map]

@[simp] theorem size_map (f : α → β) (t : Table α) : (t.map f).size = t.size := by
  rw [size_eq_length_keys, size_eq_length_keys, keys_map]

@[simp] theorem next_push (t : Table α) (v : α) : (t.push v).next = t.next + 1 := by
  simp [push, next]

@[simp] theorem get?_push (t : Table α) (v : α) (j : Nat) :
    (t.push v).get? j = if j = t.next then some v else t.get? j := by
  rw [get?_eq_getElem?, get?_eq_getElem?]
  unfold push next
  rw [List.getElem?_append]
  by_cases hlt : j < t.slots.length
  · rw [if_pos hlt, if_neg (by omega)]
  · rw [if_neg hlt, List.getElem?_eq_none (by omega : t.slots.length ≤ j), List.getElem?_singleton]
    by_cases hj : j = t.slots.length
    · simp [hj]
    · simp [hj, show ¬ j - t.slots.length = 0 by omega]

@[simp] theorem next_modify (t : Table α) (k : Nat) (f : α → α) : (t.modify k f).next = t.next := by
  simp [modify, next]

@[simp] theorem get?_modify (t : Table α) (k : Nat) (f : α → α) (j : Nat) :
    (t.modify k f).get? j = if j = k then (t.get? j).map f else t.get? j := by
  rw [get?_eq_getElem?, get?_eq_getElem?]
  unfold modify
  rw [List.getElem?_modify]
  by_cases hj : k = j
  · subst hj
    cases t.slots[k]? <;> simp
  · simp [hj, Ne.symm hj]

@[simp] theorem keys_modify (t : Table α) (k : Nat) (f : α → α) : (t.modify k f).keys = t.keys := by
  refine (t.modify k f).pairwise_keys.eq_of_mem_iff t.pairwise_keys fun j => ?_
  rw [mem_keys_iff_contains, mem_keys_iff_contains]
  unfold contains
  rw [get?_modify]
  split <;> simp

@[simp] theorem size_modify (t : Table α) (k : Nat) (f : α → α) : (t.modify k f).size = t.size := by
  rw [size_eq_length_keys, size_eq_length_keys, keys_modify]

@[simp] theorem next_erase (t : Table α) (k : Nat) : (t.erase k).next = t.next := by
  simp [erase, next]

@[simp] theorem get?_erase (t : Table α) (k j : Nat) :
    (t.erase k).get? j = if j = k then none else t.get? j := by
  unfold erase
  rw [get?_eq_getElem?, get?_eq_getElem?, List.getElem?_set]
  by_cases hj : k = j
  · subst hj
    by_cases hk : k < t.slots.length
    · simp [hk]
    · simp [hk]
  · simp [hj, Ne.symm hj]

@[simp] theorem next_filter (p : Nat → α → Bool) (t : Table α) : (t.filter p).next = t.next := by
  simp [filter, next]

@[simp] theorem get?_filter (p : Nat → α → Bool) (t : Table α) (k : Nat) :
    (t.filter p).get? k = (t.get? k).filter (p k) := by
  rw [get?_eq_getElem?, get?_eq_getElem?]
  unfold filter
  rw [List.getElem?_mapIdx]
  cases t.slots[k]? <;> simp

theorem toList_filter (p : Nat → α → Bool) (t : Table α) :
    (t.filter p).toList = t.toList.filter fun a => p a.1 a.2 := by
  have hzip : (t.slots.mapIdx fun k slot => slot.filter (p k)).zipIdx =
      t.slots.zipIdx.map fun a => (a.1.filter (p a.2), a.2) := by
    apply List.ext_getElem <;> simp
  unfold toList filter
  simp only
  rw [hzip, List.filterMap_map, List.filter_filterMap]
  congr 1
  funext ⟨slot, k⟩
  cases slot with
  | none => rfl
  | some v => cases h : p k v <;> simp [Option.filter, h]

/-! ## Tables of lists -/

@[simp] theorem get?_ofValues (vs : List α) (k : Nat) : (ofValues vs).get? k = vs[k]? := by
  rw [get?_eq_getElem?]
  unfold ofValues
  rw [List.getElem?_map]
  cases vs[k]? <;> rfl

@[simp] theorem next_ofValues (vs : List α) : (ofValues vs).next = vs.length := by
  simp [ofValues, next]

@[simp] theorem values_ofValues (vs : List α) : (ofValues vs).values = vs := by
  simp [ofValues, values, List.filterMap_map]

@[simp] theorem keys_ofValues (vs : List α) : (ofValues vs).keys = List.range vs.length := by
  have hzip : (vs.map some).zipIdx = vs.zipIdx.map fun a => (some a.1, a.2) := List.zipIdx_map
  unfold keys toList ofValues
  simp only
  rw [hzip, List.filterMap_map, List.map_filterMap]
  simp [List.zipIdx_map_snd, List.range_eq_range']

@[simp] theorem size_ofValues (vs : List α) : (ofValues vs).size = vs.length := by
  rw [size, values_ofValues]

@[simp] theorem contains_ofValues (vs : List α) (k : Nat) :
    (ofValues vs).contains k = true ↔ k < vs.length := by
  rw [contains, get?_ofValues]
  simp

theorem pushWith_ofValues (vs : List α) (f : Nat → α) :
    (ofValues vs).pushWith f = ofValues (vs ++ [f vs.length]) := by
  unfold pushWith
  rw [next_ofValues]
  simp [push, ofValues]

end SSALint.Table
