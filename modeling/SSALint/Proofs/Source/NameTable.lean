/-
Laws of name tables. A table is known by two lists: the names that were mentioned, in the order of their
first mention, and the names that were defined, in the order of their definitions. Neither has a name
twice, a definition adds its name at the end, and the rank of a name is its place among the defined ones
(`rank_eq_idxOf`).
-/
import SSALint.Source.NameTable
import Mathlib.Data.List.Nodup

/-- Places number the members of a list without repetition in their order. -/
theorem SSALint.map_idxOf_self {α : Type} [BEq α] [LawfulBEq α] {l : List α} (h : l.Nodup) :
    (l.map fun a => l.idxOf a) = List.range l.length := by
  refine List.ext_getElem (by simp) fun k hk hk' => ?_
  rw [List.length_range] at hk'
  rw [List.getElem_map, h.idxOf_getElem k hk', List.getElem_range]

namespace SSALint.Source.NameTable

/-- The names that were mentioned; the place in this list is the id. -/
def names (t : NameTable) : List String := t.mentions.map (·.name)

/-- The name of an id. -/
def nameOf (t : NameTable) (id : Nat) : String := t.names.getD id ""

/-- The names that were defined, in the order of their definitions. -/
def defined (t : NameTable) : List String := t.order.map t.nameOf

/-- The invariant of tables that are built by mentions and definitions. -/
structure Wf (t : NameTable) : Prop where
  nodupNames : t.names.Nodup
  nodupOrder : t.order.Nodup
  mentioned : ∀ id ∈ t.order, id < t.names.length

theorem wf_empty : Wf {} := ⟨by simp [names], by simp, by simp⟩

/-! ## Ids -/

theorem idOf?_eq_findIdx? (t : NameTable) (name : String) :
    t.idOf? name = t.names.findIdx? (· == name) := by
  unfold idOf? names
  rw [List.findIdx?_map]
  rfl

theorem getElem?_of_idOf? {t : NameTable} {name : String} {id : Nat} (h : t.idOf? name = some id) :
    t.names[id]? = some name := by
  rw [idOf?_eq_findIdx?, List.findIdx?_eq_some_iff_getElem] at h
  obtain ⟨hlt, heq, -⟩ := h
  rw [List.getElem?_eq_getElem hlt, eq_of_beq heq]

theorem idOf?_eq_none_iff {t : NameTable} {name : String} : t.idOf? name = none ↔ name ∉ t.names := by
  rw [idOf?_eq_findIdx?, List.findIdx?_eq_none_iff]
  constructor
  · intro h hm
    have := h name hm
    simp at this
  · intro h x hx
    rw [beq_eq_false_iff_ne]
    rintro rfl
    exact h hx

theorem nameOf_of_getElem? {t : NameTable} {id : Nat} {name : String} (h : t.names[id]? = some name) :
    t.nameOf id = name := by
  rw [nameOf, List.getD_eq_getElem?_getD, h]
  rfl

/-- Ids are told apart by their names. -/
theorem Wf.eq_of_nameOf_eq {t : NameTable} (hw : t.Wf) {i j : Nat} (hi : i < t.names.length)
    (hj : j < t.names.length) (h : t.nameOf i = t.nameOf j) : i = j := by
  rw [nameOf_of_getElem? (List.getElem?_eq_getElem hi),
    nameOf_of_getElem? (List.getElem?_eq_getElem hj)] at h
  exact (List.Nodup.getElem_inj_iff hw.nodupNames).1 h

theorem Wf.nodup_defined {t : NameTable} (hw : t.Wf) : t.defined.Nodup := by
  refine List.Nodup.map_on (fun i hi j hj h => ?_) hw.nodupOrder
  exact hw.eq_of_nameOf_eq (hw.mentioned i hi) (hw.mentioned j hj) h

theorem Wf.mem_names_of_mem_defined {t : NameTable} (hw : t.Wf) {name : String} (h : name ∈ t.defined) :
    name ∈ t.names := by
  obtain ⟨id, hid, rfl⟩ := List.mem_map.1 h
  have hlt := hw.mentioned id hid
  rw [nameOf_of_getElem? (List.getElem?_eq_getElem hlt)]
  exact List.getElem_mem hlt

/-! ## Ranks -/

/-- An id has the place among ids that its name has among their names. -/
theorem Wf.idxOf_nameOf {t : NameTable} (hw : t.Wf) {i : Nat} (hi : i < t.names.length) :
    ∀ ids : List Nat, (∀ id ∈ ids, id < t.names.length) → (ids.map t.nameOf).idxOf (t.nameOf i) = ids.idxOf i
  | [], _ => rfl
  | id :: ids, h => by
    obtain ⟨hid, hids⟩ := List.forall_mem_cons.1 h
    have ih := hw.idxOf_nameOf hi ids hids
    rw [List.map_cons, List.idxOf_cons, List.idxOf_cons, ih]
    congr 1
    rw [Bool.eq_iff_iff, beq_iff_eq, beq_iff_eq]
    constructor
    · exact hw.eq_of_nameOf_eq hid hi
    · rintro rfl; rfl

theorem rank_eq_idxOf {t : NameTable} (hw : t.Wf) (name : String) :
    t.rank name = t.defined.idxOf name := by
  unfold rank
  cases hid : t.idOf? name with
  | none =>
    -- A name that was never mentioned is not defined either: both places lie behind the last one.
    have hn : name ∉ t.defined := fun h => idOf?_eq_none_iff.1 hid (hw.mem_names_of_mem_defined h)
    rw [List.idxOf_eq_length hn, defined, List.length_map]
  | some id =>
    have hget := getElem?_of_idOf? hid
    have hlt : id < t.names.length := (List.getElem?_eq_some_iff.1 hget).1
    rw [← nameOf_of_getElem? hget]
    exact (hw.idxOf_nameOf hlt t.order hw.mentioned).symm

/-- Ranks number the defined names in their order. -/
theorem map_rank_defined {t : NameTable} (hw : t.Wf) :
    t.defined.map t.rank = List.range t.defined.length :=
  (List.map_congr_left fun name _ => rank_eq_idxOf hw name).trans (map_idxOf_self hw.nodup_defined)

theorem rank_lt {t : NameTable} (hw : t.Wf) {name : String} (h : name ∈ t.defined) :
    t.rank name < t.defined.length := by
  rw [rank_eq_idxOf hw]
  exact List.idxOf_lt_length_of_mem h

theorem getElem?_rank {t : NameTable} (hw : t.Wf) {name : String} (h : name ∈ t.defined) :
    t.defined[t.rank name]? = some name := by
  rw [rank_eq_idxOf hw, List.getElem?_idxOf h]

/-! ## Growth -/

/-- A table after further mentions and definitions: the names used are mentioned, and the names defined
come after those that were defined before. No other name is new. -/
structure Grown (t : NameTable) (used definitions : List String) (t' : NameTable) : Prop where
  wf : t'.Wf
  defined : t'.defined = t.defined ++ definitions
  names : ∀ name ∈ t.names, name ∈ t'.names
  only : ∀ name ∈ t'.names, name ∈ t.names ∨ name ∈ used ∨ name ∈ definitions
  used : ∀ name ∈ used, name ∈ t'.names

theorem Grown.refl {t : NameTable} (hw : t.Wf) : Grown t [] [] t :=
  ⟨hw, by simp, fun _ h => h, fun _ h => .inl h, by simp⟩

theorem Grown.trans {t t' t'' : NameTable} {us us' ds ds' : List String} (h : Grown t us ds t')
    (h' : Grown t' us' ds' t'') : Grown t (us ++ us') (ds ++ ds') t'' where
  wf := h'.wf
  defined := by rw [h'.defined, h.defined, List.append_assoc]
  names name hn := h'.names name (h.names name hn)
  used name hn := by
    rcases List.mem_append.1 hn with hn | hn
    · exact h'.names name (h.used name hn)
    · exact h'.used name hn
  only name hn := by
    rcases h'.only name hn with hn | hn | hn
    · rcases h.only name hn with hn | hn | hn <;> simp [hn]
    · simp [hn]
    · simp [hn]

theorem names_mention (t : NameTable) (m : Mention) :
    (t.mention m).1.names = if m.name ∈ t.names then t.names else t.names ++ [m.name] := by
  unfold mention
  cases hid : t.idOf? m.name with
  | none => rw [if_neg (idOf?_eq_none_iff.1 hid)]; simp [names]
  | some id => rw [if_pos (List.mem_of_getElem? (getElem?_of_idOf? hid))]

theorem order_mention (t : NameTable) (m : Mention) : (t.mention m).1.order = t.order := by
  unfold mention
  cases t.idOf? m.name <;> rfl

/-- The id that a mention answers is that of its name. -/
theorem getElem?_mention (t : NameTable) (m : Mention) :
    (t.mention m).1.names[(t.mention m).2]? = some m.name := by
  unfold mention
  cases hid : t.idOf? m.name with
  | none => simp [names]
  | some id => exact getElem?_of_idOf? hid

/-- Ids that were answered keep their names. -/
theorem names_prefix_mention (t : NameTable) (m : Mention) : t.names <+: (t.mention m).1.names := by
  rw [names_mention]
  split
  · exact List.prefix_refl _
  · exact List.prefix_append _ _

theorem grown_mention {t : NameTable} (hw : t.Wf) (m : Mention) :
    Grown t [m.name] [] (t.mention m).1 := by
  have hprefix := names_prefix_mention t m
  refine ⟨⟨?_, ?_, ?_⟩, ?_, fun name hn => hprefix.subset hn, ?_, ?_⟩
  · rw [names_mention]
    split
    · exact hw.nodupNames
    · rename_i hm
      refine List.nodup_append.2 ⟨hw.nodupNames, by simp, ?_⟩
      rintro a ha b hb rfl
      exact hm (List.mem_singleton.1 hb ▸ ha)
  · rw [order_mention]; exact hw.nodupOrder
  · rw [order_mention]
    exact fun id hid => Nat.lt_of_lt_of_le (hw.mentioned id hid) hprefix.length_le
  · rw [List.append_nil, NameTable.defined, NameTable.defined, order_mention]
    refine List.map_congr_left fun id hid => ?_
    have hlt := hw.mentioned id hid
    rw [nameOf_of_getElem? (List.getElem?_eq_getElem hlt)]
    obtain ⟨new, hnew⟩ := hprefix
    refine nameOf_of_getElem? ?_
    rw [← hnew, List.getElem?_append_left hlt, List.getElem?_eq_getElem hlt]
  · intro name hn
    rw [names_mention] at hn
    split at hn
    · exact .inl hn
    · exact (List.mem_append.1 hn).imp_right .inl
  · intro name hn
    rw [List.mem_singleton.1 hn]
    exact List.mem_of_getElem? (getElem?_mention t m)

theorem grown_mentions {t : NameTable} (hw : t.Wf) (ms : List Mention) :
    Grown t (ms.map (·.name)) [] (ms.foldl (fun t m => (t.mention m).1) t) := by
  induction ms generalizing t with
  | nil => exact .refl hw
  | cons m ms ih => exact (grown_mention hw m).trans (ih (grown_mention hw m).wf)

/-- A definition succeeds if its name has none, and adds it at the end. -/
theorem grown_define {t t' : NameTable} {kind : NameKind} {m : Mention} {id : Nat} (hw : t.Wf)
    (h : t.define kind m = .ok (t', id)) : Grown t [] [m.name] t' := by
  have hm := grown_mention hw m
  have hget := getElem?_mention t m
  unfold define at h
  simp only at h
  split at h
  · cases h
  · rename_i hnew
    cases h
    refine ⟨⟨hm.wf.nodupNames, ?_, ?_⟩, ?_, hm.names, fun name hn => ?_, by simp⟩
    · refine List.nodup_append.2 ⟨hm.wf.nodupOrder, by simp, ?_⟩
      rintro a ha b hb rfl
      exact hnew (List.mem_singleton.1 hb ▸ ha)
    · intro id hid
      rcases List.mem_append.1 hid with hid | hid
      · exact hm.wf.mentioned id hid
      · rw [List.mem_singleton.1 hid]
        exact (List.getElem?_eq_some_iff.1 hget).1
    · have hdefined := hm.defined
      rw [List.append_nil] at hdefined
      rw [← hdefined]
      show (List.map _ (_ ++ [_])) = _
      rw [List.map_append, List.map_singleton]
      exact congrArg₂ _ rfl (congrArg (fun x => [x]) (nameOf_of_getElem? hget))
    · rcases hm.only name hn with hn | hn | hn
      · exact .inl hn
      · exact .inr (.inr hn)
      · exact absurd hn List.not_mem_nil

/-- A name that has no definition yet can be defined. -/
theorem exists_define {t : NameTable} (hw : t.Wf) (kind : NameKind) {m : Mention} (h : m.name ∉ t.defined) :
    ∃ x, t.define kind m = .ok x := by
  have hget := getElem?_mention t m
  have hnew : (t.mention m).2 ∉ (t.mention m).1.order := by
    intro hid
    have hdefined : (t.mention m).1.defined = t.defined ++ [] := (grown_mention hw m).defined
    rw [List.append_nil] at hdefined
    exact h (hdefined ▸ List.mem_map.2 ⟨_, hid, nameOf_of_getElem? hget⟩)
  unfold define
  simp only
  rw [if_neg hnew]
  exact ⟨_, rfl⟩

/-- A table is finished if every name that was mentioned is defined. -/
theorem mem_defined_of_finish {t : NameTable} {kind : NameKind} {order : List Nat}
    (h : t.finish kind = .ok order) {name : String} (hn : name ∈ t.names) : name ∈ t.defined := by
  unfold finish at h
  split at h
  · cases h
  · rename_i hall
    rw [List.find?_eq_none] at hall
    obtain ⟨id, hid, hget⟩ := List.getElem_of_mem hn
    have hlt : id < t.mentions.length := by rwa [names, List.length_map] at hid
    have hmem := hall (t.mentions[id], id) (List.mk_mem_zipIdx_iff_getElem?.2 (List.getElem?_eq_getElem hlt))
    have hin : id ∈ t.order := by simpa using hmem
    refine List.mem_map.2 ⟨id, hin, nameOf_of_getElem? ?_⟩
    rw [List.getElem?_eq_getElem hid, hget]

theorem exists_finish {t : NameTable} (hw : t.Wf) (kind : NameKind) (h : ∀ name ∈ t.names, name ∈ t.defined) :
    ∃ order, t.finish kind = .ok order := by
  unfold finish
  split
  · rename_i m id hfind
    have hmention := List.mem_of_find?_eq_some hfind
    have hget : t.mentions[id]? = some m := List.mk_mem_zipIdx_iff_getElem?.1 hmention
    have hlt : id < t.names.length := by
      rw [names, List.length_map]
      exact (List.getElem?_eq_some_iff.1 hget).1
    -- The name is defined, so its id was recorded, which the search says it was not.
    obtain ⟨id', hid', hname⟩ := List.mem_map.1 (h _ (List.getElem_mem hlt))
    rw [← nameOf_of_getElem? (List.getElem?_eq_getElem hlt)] at hname
    rw [hw.eq_of_nameOf_eq (hw.mentioned id' hid') hlt hname] at hid'
    exact absurd hid' (by simpa using List.find?_some hfind)
  · exact ⟨_, rfl⟩

/-- A table that text has filled can be finished if the text defines all names that it uses. -/
theorem Grown.exists_finish {t : NameTable} {used defs : List String} (h : Grown {} used defs t) (kind : NameKind)
    (hused : ∀ name ∈ used, name ∈ defs) : ∃ order, t.finish kind = .ok order := by
  refine NameTable.exists_finish h.wf kind fun name hname => ?_
  have hdefined : t.defined = defs := h.defined
  rw [hdefined]
  rcases h.only name hname with hname | hname | hname
  · exact absurd hname List.not_mem_nil
  · exact hused name hname
  · exact hname

end SSALint.Source.NameTable
