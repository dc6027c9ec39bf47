/-
Columns against tables. Columns that tell a table go on to do so through every call, without a fault and with the
same answers (`NameColumns.Tells.perform`), and are finished like it (`NameColumns.Tells.finish`). To renumber the ids
of an order that has none of them twice is no fault either, and gives each id its place (`renumber_spec`).
-/
import SSALint.Proofs.Source.NameTable
import SSALint.Source.NameColumns

namespace SSALint.Source

/-! ## Columns -/

theorem entry_of_getElem? {α : Type} {column : List α} {position : Nat} {a : α} (h : column[position]? = some a) :
    entry column position = .ok a := by
  unfold entry
  rw [h]

theorem setEntry_of_lt {α : Type} {column : List α} {position : Nat} (h : position < column.length) (a : α) :
    setEntry column position a = .ok (column.set position a) :=
  if_pos h

namespace NameTable

/-- A new name is found at the end. -/
theorem idOf?_append_singleton {t : NameTable} {m : Mention} (h : t.idOf? m.name = none) (name : String) :
    { t with mentions := t.mentions ++ [m] }.idOf? name =
      if name = m.name then some t.mentions.length else t.idOf? name := by
  show (t.mentions ++ [m]).findIdx? _ = _
  rw [List.findIdx?_append]
  by_cases hname : name = m.name
  · subst hname
    rw [if_pos rfl]
    have hnone : t.mentions.findIdx? (fun k => k.name == m.name) = none := h
    simp [hnone]
  · have hne : (m.name == name) = false := beq_false_of_ne (Ne.symm hname)
    rw [if_neg hname]
    simp [idOf?, hne]

end NameTable

namespace NameColumns

/-! ## Tables in columns -/

/-- Columns tell what a table does. -/
structure Tells (c : NameColumns) (t : NameTable) : Prop where
  ids : ∀ name, c.ids.lookup name = t.idOf? name
  names : c.names = t.names
  firstUse : c.firstUse = t.mentions.map (·.rest)
  defined : c.defined = (List.range t.names.length).map fun id => decide (id ∈ t.order)
  order : c.order = t.order

theorem tells_empty : Tells {} {} := ⟨fun _ => rfl, rfl, rfl, rfl, rfl⟩

variable {c : NameColumns} {t : NameTable}

theorem Tells.getElem?_defined (h : c.Tells t) {id : Nat} (hid : id < t.names.length) :
    c.defined[id]? = some (decide (id ∈ t.order)) := by
  rw [h.defined, List.getElem?_map, List.getElem?_range hid]
  rfl

/-- A mention is answered alike. A new name gets an entry at the end of each column. -/
theorem Tells.mention (h : c.Tells t) (hw : t.Wf) (m : Mention) :
    (c.mention m).1.Tells (t.mention m).1 ∧ (c.mention m).2 = (t.mention m).2 := by
  unfold NameColumns.mention NameTable.mention
  rw [h.ids]
  cases hid : t.idOf? m.name with
  | some id => exact ⟨h, rfl⟩
  | none =>
    have hlength : c.names.length = t.mentions.length := by rw [h.names, NameTable.names, List.length_map]
    refine ⟨⟨fun name => ?_, ?_, ?_, ?_, h.order⟩, hlength⟩
    · rw [NameTable.idOf?_append_singleton hid, ← h.ids, ← hlength]
      by_cases hname : name = m.name
      · simp [hname]
      · simp [List.lookup_cons, hname, beq_false_of_ne hname]
    · simp [NameTable.names, h.names]
    · simp [h.firstUse]
    · have hnew : t.names.length ∉ t.order := fun hmem => Nat.lt_irrefl _ (hw.mentioned _ hmem)
      simp [NameTable.names, List.range_succ, h.defined] at hnew ⊢
      exact hnew

/-- A definition writes over the entry of its id. -/
theorem Tells.set (h : c.Tells t) (id : Nat) :
    Tells { c with defined := c.defined.set id true, order := c.order ++ [id] }
      { t with order := t.order ++ [id] } where
  ids := h.ids
  names := h.names
  firstUse := h.firstUse
  order := congrArg (· ++ [id]) h.order
  defined := by
    refine List.ext_getElem (by simp [h.defined, NameTable.names]) fun k hk hk' => ?_
    by_cases hid : id = k
    · simp [hid]
    · simp [h.defined, hid, Ne.symm hid]

theorem Tells.define (h : c.Tells t) (hw : t.Wf) (kind : NameKind) (m : Mention) :
    ∃ c', c.define kind m = .ok ((t.perform (.define kind m)).1, c') ∧ c'.Tells (t.perform (.define kind m)).2 := by
  obtain ⟨hmention, hid⟩ := h.mention hw m
  have hlt := (List.getElem?_eq_some_iff.1 (t.getElem?_mention m)).1
  have hget := hmention.getElem?_defined hlt
  unfold NameColumns.define NameTable.perform NameTable.define
  simp only [hid, entry_of_getElem? hget]
  by_cases hmem : (t.mention m).2 ∈ (t.mention m).1.order
  · rw [if_pos hmem]
    exact ⟨_, by rw [decide_eq_true hmem]; rfl, hmention⟩
  · rw [if_neg hmem]
    refine ⟨_, ?_, hmention.set (t.mention m).2⟩
    rw [decide_eq_false hmem, setEntry_of_lt (List.getElem?_eq_some_iff.1 hget).1]
    rfl

/-- A call is answered alike and meets no fault. -/
theorem Tells.perform (h : c.Tells t) (hw : t.Wf) (q : NameTable.Call) :
    ∃ c', c.perform q = .ok ((t.perform q).1, c') ∧ c'.Tells (t.perform q).2 := by
  cases q with
  | mention m =>
    obtain ⟨hmention, hid⟩ := h.mention hw m
    exact ⟨_, congrArg (fun id => Except.ok (Except.ok id, (c.mention m).1)) hid, hmention⟩
  | define kind m => exact h.define hw kind m

/-! ## The end of a table -/

theorem Tells.name (h : c.Tells t) {id : Nat} {name : String} (hname : t.names[id]? = some name) :
    c.name id = .ok name :=
  entry_of_getElem? (h.names ▸ hname)

theorem Tells.undefined? (h : c.Tells t) {ids : List Nat} (hids : ∀ id ∈ ids, id < t.names.length) :
    c.undefined? ids = .ok (ids.find? fun id => id ∉ t.order) := by
  induction ids with
  | nil => rfl
  | cons id ids ih =>
    obtain ⟨hid, hids⟩ := List.forall_mem_cons.1 hids
    unfold NameColumns.undefined?
    rw [entry_of_getElem? (h.getElem?_defined hid)]
    by_cases hmem : id ∈ t.order
    · rw [decide_eq_true hmem, List.find?_cons_of_neg (by simpa using hmem)]
      exact ih hids
    · rw [decide_eq_false hmem, List.find?_cons_of_pos (by simpa using hmem)]
      rfl

/-- The end of a table is told alike and meets no fault. -/
theorem Tells.finish (h : c.Tells t) (kind : NameKind) : c.finish kind = .ok (t.finish kind) := by
  have hlength : c.names.length = t.mentions.length := by rw [h.names, NameTable.names, List.length_map]
  have hfind : (List.range t.mentions.length).find? (fun id => id ∉ t.order) =
      (t.mentions.zipIdx.find? fun x => x.2 ∉ t.order).map Prod.snd := by
    rw [List.range_eq_range', ← List.zipIdx_map_snd, List.find?_map]
    rfl
  unfold NameColumns.finish NameTable.finish
  rw [hlength, h.undefined? (by simp [NameTable.names]), hfind]
  cases hx : t.mentions.zipIdx.find? fun x => x.2 ∉ t.order with
  | none => exact congrArg (fun order => Except.ok (Except.ok order)) h.order
  | some x =>
    obtain ⟨m, id⟩ := x
    have hget : t.mentions[id]? = some m := List.mk_mem_zipIdx_iff_getElem?.1 (List.mem_of_find?_eq_some hx)
    have hname : entry c.names id = .ok m.name := by
      refine entry_of_getElem? ?_
      rw [h.names, NameTable.names, List.getElem?_map, hget]
      rfl
    have hfirst : entry c.firstUse id = .ok m.rest := by
      refine entry_of_getElem? ?_
      rw [h.firstUse, List.getElem?_map, hget]
      rfl
    show (entry c.names id >>= fun name => entry c.firstUse id >>= fun rest =>
      pure (Except.error (NameError.undefined kind ⟨name, rest⟩))) = _
    rw [hname, hfirst]
    rfl

end NameColumns

/-! ## Renumbering -/

/-- Places are written one after the other; what is not renumbered stays. -/
theorem renumberFrom_spec {order : List Nat} (hnodup : order.Nodup) {column : List Nat}
    (hlt : ∀ id ∈ order, id < column.length) (place : Nat) :
    ∃ column', renumberFrom column place order = .ok column' ∧ column'.length = column.length ∧
      (∀ id ∈ order, column'[id]? = some (place + order.idxOf id)) ∧
      ∀ id ∉ order, column'[id]? = column[id]? := by
  induction order generalizing column place with
  | nil => exact ⟨column, rfl, rfl, nofun, fun _ _ => rfl⟩
  | cons id order ih =>
    obtain ⟨hid, hnodup⟩ := List.nodup_cons.1 hnodup
    obtain ⟨hidlt, hlt⟩ := List.forall_mem_cons.1 hlt
    have hlt' : ∀ k ∈ order, k < (column.set id place).length := by simpa using hlt
    obtain ⟨column', hrun, hlength, hplaced, hkept⟩ := ih hnodup hlt' (place + 1)
    rw [List.length_set] at hlength
    refine ⟨column', ?_, hlength, List.forall_mem_cons.2 ⟨?_, fun k hk => ?_⟩, fun k hk => ?_⟩
    · unfold renumberFrom
      rw [setEntry_of_lt hidlt]
      exact hrun
    · rw [hkept id hid, List.getElem?_set_self hidlt, List.idxOf_cons_self, Nat.add_zero]
    · have hne : id ≠ k := fun he => hid (he ▸ hk)
      rw [hplaced k hk, List.idxOf_cons_ne _ hne, Nat.succ_eq_add_one]
      congr 1
      omega
    · rw [List.mem_cons, not_or] at hk
      rw [hkept k hk.2, List.getElem?_set_ne (Ne.symm hk.1)]

/-- An order that has each of its ids once is renumbered without a fault, and each id is given its place. -/
theorem renumber_spec {order : List Nat} (h : order.Perm (List.range order.length)) :
    ∃ column, renumber order = .ok column ∧ column.length = order.length ∧
      ∀ id ∈ order, column[id]? = some (order.idxOf id) := by
  have hlt : ∀ id ∈ order, id < (List.replicate order.length 0).length := by
    intro id hid
    rw [List.length_replicate]
    exact List.mem_range.1 (h.mem_iff.1 hid)
  obtain ⟨column, hrun, hlength, hplaced, -⟩ := renumberFrom_spec (h.nodup_iff.2 List.nodup_range) hlt 0
  refine ⟨column, hrun, hlength.trans List.length_replicate, fun id hid => ?_⟩
  rw [hplaced id hid, Nat.zero_add]

end SSALint.Source
