/-
Well-formed modules. What a program resolves to is numbered from 0 without gaps in the order of the text,
its names are told apart, every reference resolves, and only external globals lack an initial value
(`Resolved.wellFormed`, `Resolved.valid`).
-/
import SSALint.Proofs.IR.Verify
import SSALint.Proofs.Source.Resolve

namespace SSALint

/-! ## Well-formed modules -/

/-- The keys of a table are 0, 1, 2 and so on, and each value knows its own. -/
structure Table.Dense {α : Type} [Keyed α] (t : Table α) : Prop where
  keys : t.keys = List.range t.size
  key : ∀ k v, t.get? k = some v → Keyed.key v = k

/-- The rules for the numbers and the names inside a function. -/
structure Func.WellFormed (f : Func) : Prop where
  blocks : f.blocks.Dense
  locals : f.locals.Dense
  /-- The parameters come first, then the results in the order of the instructions. -/
  numbered : f.params ++ f.results = List.range f.locals.size
  localNames : (f.locals.values.filterMap (·.name)).Nodup
  notNumber : ∀ x ∈ f.locals.values, ∀ name, x.name = some name → ∃ c ∈ name.toList, ¬ c.isDigit
  labels : (f.blocks.values.filterMap (·.label)).Nodup
  labelled : ∀ b ∈ f.blocks.values.tail, b.label ≠ none

/-- The rules for the numbers and the names of a module. -/
structure Module.WellFormed (m : Module) : Prop where
  globals : m.globals.Dense
  funcs : m.funcs.Dense
  names : (m.globals.values.map (·.name) ++ m.funcs.values.map (·.name)).Nodup
  func : ∀ f ∈ m.funcs.values, f.WellFormed
  init : ∀ g ∈ m.globals.values, ∀ x, g.init ≠ some (.var x)
  external : ∀ g ∈ m.globals.values, g.init = none ↔ g.external = true

/-- The tables of a function have no keys to spare. -/
structure Func.Packed (f : Func) : Prop where
  blocks : f.blocks.next = f.blocks.size
  locals : f.locals.next = f.locals.size

/-- No table of a module has a key to spare. -/
structure Module.Packed (m : Module) : Prop where
  globals : m.globals.next = m.globals.size
  funcs : m.funcs.next = m.funcs.size
  func : ∀ f ∈ m.funcs.values, f.Packed

/-- A symbol is a global or a function of a name. -/
def Module.Bears (m : Module) (name : String) : Symbol → Prop
  | .global id => ∃ g, m.globals.get? id = some g ∧ g.name = name
  | .func id => ∃ f, m.funcs.get? id = some f ∧ f.name = name

theorem Table.dense_ofValues {α : Type} [Keyed α] {vs : List α}
    (h : vs.map Keyed.key = List.range vs.length) : (Table.ofValues vs).Dense where
  keys := by rw [Table.keys_ofValues, Table.size_ofValues]
  key k v hv := by
    rw [Table.get?_ofValues] at hv
    have hk : (vs.map Keyed.key)[k]? = some (Keyed.key v) := by rw [List.getElem?_map, hv]; rfl
    rw [h] at hk
    obtain ⟨hlt, hk⟩ := List.getElem?_eq_some_iff.1 hk
    rw [List.getElem_range] at hk
    exact hk.symm

theorem Table.Dense.contains_iff {α : Type} [Keyed α] {t : Table α} (h : t.Dense) {k : Nat} :
    t.contains k = true ↔ k < t.size := by
  rw [← Table.mem_keys_iff_contains, h.keys, List.mem_range]

theorem Table.Dense.map {α : Type} [Keyed α] {t : Table α} (h : t.Dense) {g : α → α}
    (hg : ∀ v, Keyed.key (g v) = Keyed.key v) : (t.map g).Dense where
  keys := by rw [keys_map, h.keys, size_map]
  key k v hv := by
    rw [get?_map] at hv
    obtain ⟨w, hw, rfl⟩ := Option.map_eq_some_iff.1 hv
    rw [hg, h.key k w hw]

theorem Table.Dense.modify {α : Type} [Keyed α] {t : Table α} (h : t.Dense) (k : Nat) {g : α → α}
    (hg : ∀ v, Keyed.key (g v) = Keyed.key v) : (t.modify k g).Dense where
  keys := by rw [keys_modify, h.keys, size_modify]
  key j v hv := by
    rw [get?_modify] at hv
    split at hv
    · obtain ⟨w, hw, rfl⟩ := Option.map_eq_some_iff.1 hv
      rw [hg, h.key j w hw]
    · exact h.key j v hv

/-- A table whose keys are 0, 1, 2 and so on, and that has handed out no other, is the table of its values. -/
theorem Table.Dense.eq_ofValues {α : Type} [Keyed α] {t : Table α} (h : t.Dense) (hnext : t.next = t.size) :
    t = .ofValues t.values := by
  have hlength : t.toList.length = t.size := by
    rw [Table.size_eq_length_keys, Table.keys, List.length_map]
  refine Table.ext (by rw [Table.next_ofValues, hnext]; rfl) fun k => ?_
  rw [Table.get?_ofValues, Table.values_eq_map_toList, List.getElem?_map]
  by_cases hk : k < t.toList.length
  · have hkey : t.toList[k].1 = k := by
      have hkeys : (t.toList.map (·.1))[k]? = some k := by
        show t.keys[k]? = some k
        rw [h.keys, List.getElem?_range (hlength ▸ hk)]
      rw [List.getElem?_map, List.getElem?_eq_getElem hk] at hkeys
      exact Option.some.inj hkeys
    have hget : t.get? t.toList[k].1 = some t.toList[k].2 := Table.mem_toList.1 (List.getElem_mem hk)
    rw [hkey] at hget
    rw [hget, List.getElem?_eq_getElem hk]
    rfl
  · rw [List.getElem?_eq_none (by omega), Table.get?_of_next_le (by omega)]
    rfl

theorem Table.Dense.get?_eq {α : Type} [Keyed α] {t : Table α} (h : t.Dense) (hnext : t.next = t.size) (k : Nat) :
    t.get? k = t.values[k]? := by
  conv_lhs => rw [h.eq_ofValues hnext, Table.get?_ofValues]

theorem Table.Dense.key_getElem {α : Type} [Keyed α] {t : Table α} (h : t.Dense) (hnext : t.next = t.size) {k : Nat}
    (hk : k < t.values.length) : Keyed.key t.values[k] = k :=
  h.key k _ ((h.get?_eq hnext k).trans (List.getElem?_eq_getElem hk))

theorem Table.Dense.map_key {α : Type} [Keyed α] {t : Table α} (h : t.Dense) (hnext : t.next = t.size) :
    t.values.map Keyed.key = List.range' 0 t.values.length := by
  refine List.ext_getElem (by simp) fun k hk hk' => ?_
  rw [List.length_map] at hk
  rw [List.getElem_map, h.key_getElem hnext hk, List.getElem_range', Nat.one_mul, Nat.zero_add]

theorem Table.Dense.exists_iff {α β : Type} [Keyed α] {t : Table α} (h : t.Dense) (hnext : t.next = t.size) {k : Nat}
    {f : α → β} {b : β} : (∃ v, t.get? k = some v ∧ f v = b) ↔ (t.values.map f)[k]? = some b := by
  rw [h.get?_eq hnext, List.getElem?_map, Option.map_eq_some_iff]

/-- Tables without gaps are told apart by what stands under their keys. -/
theorem Table.Dense.ext {α : Type} [Keyed α] {t u : Table α} (ht : t.Dense) (hu : u.Dense) (hnext : t.next = t.size)
    (hnext' : u.next = u.size) (h : ∀ k, t.get? k = u.get? k) : t = u := by
  have hvalues : t.values = u.values :=
    List.ext_getElem? fun k => (ht.get?_eq hnext k).symm.trans ((h k).trans (hu.get?_eq hnext' k))
  rw [ht.eq_ofValues hnext, hu.eq_ofValues hnext', hvalues]

/-- Tables without gaps are the same if each of their values is the one of its key that is related to its item. -/
theorem Table.Dense.eq_of_forall₂ {α β : Type} [Keyed α] {t u : Table α} (ht : t.Dense) (hu : u.Dense)
    (hnext : t.next = t.size) (hnext' : u.next = u.size) {R R' : β → α → Prop} {xs : List β}
    (h : List.Forall₂ R xs t.values) (h' : List.Forall₂ R' xs u.values)
    (heq : ∀ x, ∀ a ∈ t.values, ∀ b ∈ u.values, Keyed.key a = Keyed.key b → R x a → R' x b → a = b) : t = u := by
  have hvalues : t.values = u.values := by
    refine List.ext_getElem (h.length_eq.symm.trans h'.length_eq) fun k hk hk' => ?_
    have hlt : k < xs.length := h.length_eq ▸ hk
    refine heq xs[k] _ (List.getElem_mem hk) _ (List.getElem_mem hk') ?_ (h.get hlt hk) (h'.get hlt hk')
    exact (ht.key_getElem hnext hk).trans (hu.key_getElem hnext' hk').symm
  rw [ht.eq_ofValues hnext, hu.eq_ofValues hnext', hvalues]

/-- Blocks may change in what they say as long as they keep their numbers and results and their labels are told
apart. -/
theorem Func.WellFormed.mapBlocks {f : Func} (hf : f.WellFormed) {g : Block → Block} (hid : ∀ b, (g b).id = b.id)
    (hresults : ∀ b, (g b).results = b.results) (hlabels : ((f.blocks.values.map g).filterMap (·.label)).Nodup)
    (hlabelled : ∀ b ∈ (f.blocks.values.map g).tail, b.label ≠ none) (k : FuncId) :
    Func.WellFormed { f with id := k, blocks := f.blocks.map g } where
  blocks := hf.blocks.map hid
  locals := hf.locals
  numbered := by
    have hsame : Func.results { f with id := k, blocks := f.blocks.map g } = f.results := by
      unfold Func.results
      simp only [Table.values_map, List.flatMap_map, hresults]
    rw [hsame]
    exact hf.numbered
  localNames := hf.localNames
  notNumber := hf.notNumber
  labels := by
    rw [Table.values_map]
    exact hlabels
  labelled := by
    rw [Table.values_map]
    exact hlabelled

/-- The numbers of a function leave the verifier its operands and its targets to check. -/
theorem Func.WellFormed.validFunc {m : Module} {f : Func} (hf : f.WellFormed)
    (hoperands : ∀ v ∈ f.operands, m.Resolves (some f) v)
    (htargets : ∀ b ∈ f.blocks.values, ∀ target ∈ b.targets, f.blocks.contains target = true) :
    m.ValidFunc f := by
  have hmem : ∀ x ∈ f.params ++ f.results, f.locals.contains x = true := by
    intro x hx
    rw [hf.numbered, List.mem_range] at hx
    exact hf.locals.contains_iff.2 hx
  have hnodup : (f.params ++ f.results).Nodup := by
    rw [hf.numbered]
    exact List.nodup_range
  obtain ⟨-, hresults, hne⟩ := List.nodup_append.1 hnodup
  exact {
    params := fun x hx => hmem x (List.mem_append_left _ hx)
    results := fun x hx => hmem x (List.mem_append_right _ hx)
    once := hresults
    notParam := fun x hx hp => hne x hp x hx rfl
    operands := hoperands
    targets := htargets }

theorem filterMap_sublist_map {α β : Type} {f : α → Option β} {g : α → β}
    (h : ∀ x y, f x = some y → y = g x) : ∀ xs : List α, (xs.filterMap f).Sublist (xs.map g)
  | [] => .slnil
  | x :: xs => by
    have ih := filterMap_sublist_map h xs
    rw [List.filterMap_cons, List.map_cons]
    cases hx : f x with
    | none => exact ih.cons _
    | some y =>
      rw [← h x y hx]
      exact ih.cons_cons y

namespace Source

/-! ## Bodies -/

/-- The name by which a value of a body is kept. -/
def NamedResult.localName? (d : NamedResult) : Option String :=
  if isNumber d.name.name then none else some d.name.name

theorem NamedResult.localName?_eq_some_iff {d : NamedResult} {name : String} :
    d.localName? = some name ↔ isNumber d.name.name = false ∧ d.name.name = name := by
  unfold localName?
  cases isNumber d.name.name <;> simp

theorem names_bodyLocals (h : Head) (blocks : List NamedBlock) :
    (bodyLocals h blocks).values.map (·.name) = (definedValues h blocks).map (·.localName?) := by
  unfold bodyLocals
  rw [Table.values_ofValues]
  apply List.ext_getElem
  · simp
  · intro k hk hk'
    simp [NamedResult.localName?]

theorem labels_map_block (g : Meaning) (blocks : List NamedBlock) :
    (Table.ofValues (blocks.map g.block)).values.map (·.label) = blocks.map fun b => b.label.map (·.name) := by
  rw [Table.values_ofValues, List.map_map]
  rfl

namespace Meaning

variable (g : Meaning)

theorem operands_block (b : NamedBlock) : (g.block b).operands = b.operands.map g.operand := by
  simp only [Block.operands, block, NamedBlock.operands, List.flatMap_map, List.map_append, List.map_flatMap,
    Instr.operands, instr, Operation.operands_mapTargets, Operation.operands_mapOperands,
    Terminator.operands_mapTargets, Terminator.operands_mapOperands, mapIdx_const]

theorem targets_block (b : NamedBlock) : (g.block b).targets = b.targets.map g.label := by
  simp only [Block.targets, block, NamedBlock.targets, List.flatMap_map, List.map_append, List.map_flatMap,
    Instr.targets, instr, Operation.targets_mapTargets, Operation.targets_mapOperands,
    Terminator.targets_mapTargets, Terminator.targets_mapOperands, mapIdx_const]

theorem results_block (b : NamedBlock) :
    (g.block b).results = b.results.map fun r => g.value r.name := by
  simp only [Block.results, block, NamedBlock.results, List.filterMap_map, List.map_filterMap]
  rfl

end Meaning

section

variable {h : Head} {blocks : List NamedBlock} {s : Scope} (hs : s.Binds h blocks) (symbols : NameTable)
  (order : List Symbol) (id : FuncId)

include hs

/-- The values of a body are numbered in the order of the text. -/
theorem numbered_definedFunc :
    (definedFunc ⟨s, symbols, order⟩ id h blocks).params ++
        (definedFunc ⟨s, symbols, order⟩ id h blocks).results =
      List.range (definedValues h blocks).length := by
  have hrank := NameTable.map_rank_defined hs.wf.values
  rw [hs.values, List.map_map, List.length_map] at hrank
  rw [← hrank, definedValues, List.map_append]
  congr 1
  show (Table.ofValues (blocks.map _)).values.flatMap Block.results = _
  rw [Table.values_ofValues, List.flatMap_map, List.map_flatMap]
  simp only [Meaning.results_block]
  rfl

theorem wellFormed_definedFunc (htail : ∀ b ∈ blocks.tail, b.label ≠ none) :
    (definedFunc ⟨s, symbols, order⟩ id h blocks).WellFormed where
  blocks := by
    have hrank := NameTable.map_rank_defined hs.wf.labels
    rw [hs.labels, List.map_map, List.length_map] at hrank
    refine Table.dense_ofValues ?_
    rw [List.map_map, List.length_map]
    exact hrank
  locals := by
    refine Table.dense_ofValues ?_
    apply List.ext_getElem <;> simp [Keyed.key]
  numbered := by
    rw [numbered_definedFunc hs]
    simp [definedFunc, bodyLocals]
  localNames := by
    have hnodup := hs.wf.values.nodup_defined
    rw [hs.values] at hnodup
    have hnames : (bodyLocals h blocks).values.filterMap (·.name) =
        (definedValues h blocks).filterMap (·.localName?) := by
      simpa [List.filterMap_map, Function.comp_def] using
        congrArg (List.filterMap fun name => name) (names_bodyLocals h blocks)
    show ((bodyLocals h blocks).values.filterMap (·.name)).Nodup
    rw [hnames]
    refine hnodup.sublist (filterMap_sublist_map (fun d name hd => ?_) _)
    exact (NamedResult.localName?_eq_some_iff.1 hd).2.symm
  notNumber := by
    intro x hx name hname
    have hmem : some name ∈ (bodyLocals h blocks).values.map (·.name) := List.mem_map.2 ⟨x, hx, hname⟩
    rw [names_bodyLocals] at hmem
    obtain ⟨d, -, hd⟩ := List.mem_map.1 hmem
    obtain ⟨hnumber, rfl⟩ := NamedResult.localName?_eq_some_iff.1 hd
    unfold isNumber at hnumber
    simpa using hnumber
  labels := by
    have hnodup := hs.wf.labels.nodup_defined
    rw [hs.labels] at hnodup
    show ((Table.ofValues (blocks.map (Meaning.block ⟨s, symbols, order⟩))).values.filterMap (·.label)).Nodup
    rw [Table.values_ofValues, List.filterMap_map]
    refine hnodup.sublist (filterMap_sublist_map (fun b label hb => ?_) _)
    obtain ⟨l, hl, rfl⟩ := Option.map_eq_some_iff.1 hb
    show l.name = (b.label.getD _).name
    rw [hl]
    rfl
  labelled := by
    intro b hb
    have hb : b ∈ (Table.ofValues (blocks.map (Meaning.block ⟨s, symbols, order⟩))).values.tail := hb
    rw [Table.values_ofValues, ← List.map_tail] at hb
    obtain ⟨c, hc, rfl⟩ := List.mem_map.1 hb
    exact fun h => htail c hc (Option.map_eq_none_iff.1 h)

/-- Every name that a body uses is numbered below the end of its table. -/
theorem validFunc_definedFunc {m : Module} (htail : ∀ b ∈ blocks.tail, b.label ≠ none)
    (hsymbol : ∀ b ∈ blocks, ∀ x, .symbol x ∈ b.operands →
      ∀ f, m.Resolves f (.symbol (Meaning.symbol ⟨s, symbols, order⟩ x))) :
    m.ValidFunc (definedFunc ⟨s, symbols, order⟩ id h blocks) := by
  refine (wellFormed_definedFunc hs symbols order id htail).validFunc (fun v hv => ?_) fun b hb target ht => ?_
  · obtain ⟨block, hblock, hv⟩ := List.mem_flatMap.1 hv
    obtain ⟨b, hb, rfl⟩ := List.mem_map.1 (Table.values_ofValues (blocks.map _) ▸ hblock)
    rw [Meaning.operands_block] at hv
    obtain ⟨w, hw, rfl⟩ := List.mem_map.1 hv
    cases w with
    | const c => exact trivial
    | symbol x => exact hsymbol b hb x hw _
    | var x =>
      refine ⟨_, rfl, (Table.contains_ofValues _ _).2 ?_⟩
      have hlt := NameTable.rank_lt hs.wf.values (hs.vars b hb x hw)
      rw [hs.values, List.length_map] at hlt
      rw [List.length_mapIdx]
      exact hlt
  · obtain ⟨c, hc, rfl⟩ := List.mem_map.1 (Table.values_ofValues (blocks.map _) ▸ hb)
    rw [Meaning.targets_block] at ht
    obtain ⟨l, hl, rfl⟩ := List.mem_map.1 ht
    have hlt := NameTable.rank_lt hs.wf.labels (hs.targets c hc l hl)
    rw [hs.labels, List.length_map] at hlt
    refine (Table.contains_ofValues _ _).2 ?_
    rw [List.length_map]
    exact hlt

end

theorem name_of_mem_declaredFunc {id : FuncId} {h : Head} {x : Local}
    (hx : x ∈ (declaredFunc id h).locals.values) : x.name = none := by
  unfold declaredFunc at hx
  rw [Table.values_ofValues, List.mem_mapIdx] at hx
  obtain ⟨k, hk, rfl⟩ := hx
  rfl

theorem wellFormed_declaredFunc (id : FuncId) (h : Head) : (declaredFunc id h).WellFormed where
  blocks := @Table.dense_ofValues Block _ [] rfl
  locals := by
    refine Table.dense_ofValues ?_
    apply List.ext_getElem <;> simp [Keyed.key]
  numbered := by simp [declaredFunc, Func.results, Table.empty, Table.values]
  localNames := by
    rw [List.filterMap_eq_nil_iff.2 fun x => name_of_mem_declaredFunc]
    exact List.nodup_nil
  notNumber x hx name hname := by
    rw [name_of_mem_declaredFunc hx] at hname
    cases hname
  labels := by simp [declaredFunc, Table.empty, Table.values]
  labelled := by simp [declaredFunc, Table.empty, Table.values]

theorem validFunc_declaredFunc (m : Module) (id : FuncId) (h : Head) :
    m.ValidFunc (declaredFunc id h) :=
  (wellFormed_declaredFunc id h).validFunc (by simp [declaredFunc, Func.operands, Table.empty, Table.values])
    (by simp [declaredFunc, Table.empty, Table.values])

/-! ## Modules -/

/-- What the grammar promises of an item: no initial value is a local value, a body has a block, and all
blocks but the first have labels. -/
def Item.Proper : Item → Prop
  | .global g => ∀ x, g.init ≠ some (.var x)
  | .declaration _ => True
  | .definition _ blocks => blocks ≠ [] ∧ ∀ b ∈ blocks.tail, b.label ≠ none

section

variable (symbols : NameTable) (order : List Symbol)

/-- A symbol is a global or a function of a name, among those that are numbered from given ids. -/
def BearsFrom (n : GlobalId) (gs : List Global) (k : FuncId) (fs : List Func) (name : String) : Symbol → Prop
  | .global id => ∃ j g, id = n + j ∧ gs[j]? = some g ∧ g.name = name
  | .func id => ∃ j f, id = k + j ∧ fs[j]? = some f ∧ f.name = name

theorem BearsFrom.cons_global {n : GlobalId} {gs : List Global} {k : FuncId} {fs : List Func} {name : String}
    {sym : Symbol} (h : BearsFrom (n + 1) gs k fs name sym) (g : Global) : BearsFrom n (g :: gs) k fs name sym := by
  cases sym with
  | global id =>
    obtain ⟨j, v, rfl, hv⟩ := h
    exact ⟨j + 1, v, Nat.add_right_comm n 1 j, hv⟩
  | func id => exact h

theorem BearsFrom.cons_func {n : GlobalId} {gs : List Global} {k : FuncId} {fs : List Func} {name : String}
    {sym : Symbol} (h : BearsFrom n gs (k + 1) fs name sym) (f : Func) : BearsFrom n gs k (f :: fs) name sym := by
  cases sym with
  | global id => exact h
  | func id =>
    obtain ⟨j, v, rfl, hv⟩ := h
    exact ⟨j + 1, v, Nat.add_right_comm k 1 j, hv⟩

/-- Each symbol is the global or the function that its item defines. -/
theorem bears_symbolsFrom (items : List (Item × Scope)) (n : GlobalId) (k : FuncId) :
    List.Forall₂ (fun item => BearsFrom n (globalsFrom symbols order n items) k (funcsFrom symbols order k items)
      item.name.name) (items.map (·.1)) (symbolsFrom n k (items.map (·.1))) := by
  -- An item takes the first of its kind, and what later symbols are stands one place further on in that kind.
  induction items generalizing n k with
  | nil => exact .nil
  | cons item items ih =>
    obtain ⟨item, s⟩ := item
    cases item with
    | global v => exact .cons ⟨0, _, rfl, rfl, rfl⟩ ((ih (n + 1) k).imp fun _ _ h => h.cons_global _)
    | declaration head => exact .cons ⟨0, _, rfl, rfl, rfl⟩ ((ih n (k + 1)).imp fun _ _ h => h.cons_func _)
    | definition head blocks => exact .cons ⟨0, _, rfl, rfl, rfl⟩ ((ih n (k + 1)).imp fun _ _ h => h.cons_func _)

theorem ids_globalsFrom (items : List (Item × Scope)) (n : GlobalId) :
    (globalsFrom symbols order n items).map (·.id) =
      List.range' n (globalsFrom symbols order n items).length := by
  induction items generalizing n with
  | nil => rfl
  | cons item items ih =>
    obtain ⟨item, s⟩ := item
    cases item with
    | global v => simp [globalsFrom, List.range'_succ, ih, resolvedGlobal]
    | _ => exact ih n

theorem ids_funcsFrom (items : List (Item × Scope)) (k : FuncId) :
    (funcsFrom symbols order k items).map (·.id) =
      List.range' k (funcsFrom symbols order k items).length := by
  induction items generalizing k with
  | nil => rfl
  | cons item items ih =>
    obtain ⟨item, s⟩ := item
    cases item with
    | global v => exact ih k
    | declaration h => simp [funcsFrom, List.range'_succ, ih, declaredFunc]
    | definition h blocks => simp [funcsFrom, List.range'_succ, ih, definedFunc]

/-- Each item gives its name to one global or one function. -/
theorem names_perm (items : List (Item × Scope)) (n : GlobalId) (k : FuncId) :
    ((globalsFrom symbols order n items).map (·.name) ++
      (funcsFrom symbols order k items).map (·.name)).Perm (items.map (·.1.name.name)) := by
  induction items generalizing n k with
  | nil => exact .nil
  | cons item items ih =>
    obtain ⟨item, s⟩ := item
    cases item with
    | global v => exact (ih (n + 1) k).cons _
    | declaration h => exact List.perm_middle.trans ((ih n (k + 1)).cons _)
    | definition h blocks => exact List.perm_middle.trans ((ih n (k + 1)).cons _)

theorem mem_globalsFrom {items : List (Item × Scope)} {n : GlobalId} {g : Global}
    (h : g ∈ globalsFrom symbols order n items) :
    ∃ id v s, (.global v, s) ∈ items ∧ g = resolvedGlobal ⟨s, symbols, order⟩ id v := by
  induction items generalizing n with
  | nil => cases h
  | cons item items ih =>
    have htail : ∀ n, g ∈ globalsFrom symbols order n items → ∃ id v s,
        (.global v, s) ∈ item :: items ∧ g = resolvedGlobal ⟨s, symbols, order⟩ id v := by
      intro n h
      obtain ⟨id, v, s, hmem, hg⟩ := ih h
      exact ⟨id, v, s, List.mem_cons_of_mem _ hmem, hg⟩
    obtain ⟨item, s⟩ := item
    cases item with
    | global v =>
      rcases List.mem_cons.1 h with h | h
      · exact ⟨n, v, s, List.mem_cons_self, h⟩
      · exact htail _ h
    | declaration head => exact htail _ h
    | definition head blocks => exact htail _ h

theorem mem_funcsFrom {items : List (Item × Scope)} {k : FuncId} {f : Func}
    (h : f ∈ funcsFrom symbols order k items) :
    (∃ id head s, (.declaration head, s) ∈ items ∧ f = declaredFunc id head) ∨
      ∃ id head blocks s, (.definition head blocks, s) ∈ items ∧
        f = definedFunc ⟨s, symbols, order⟩ id head blocks := by
  induction items generalizing k with
  | nil => cases h
  | cons item items ih =>
    have htail : ∀ k, f ∈ funcsFrom symbols order k items →
        (∃ id head s, (.declaration head, s) ∈ item :: items ∧ f = declaredFunc id head) ∨
          ∃ id head blocks s, (.definition head blocks, s) ∈ item :: items ∧
            f = definedFunc ⟨s, symbols, order⟩ id head blocks := by
      intro k h
      rcases ih h with ⟨id, head, s, hmem, hf⟩ | ⟨id, head, blocks, s, hmem, hf⟩
      · exact .inl ⟨id, head, s, List.mem_cons_of_mem _ hmem, hf⟩
      · exact .inr ⟨id, head, blocks, s, List.mem_cons_of_mem _ hmem, hf⟩
    obtain ⟨item, s⟩ := item
    cases item with
    | global v => exact htail _ h
    | declaration head =>
      rcases List.mem_cons.1 h with h | h
      · exact .inl ⟨k, head, s, List.mem_cons_self, h⟩
      · exact htail _ h
    | definition head blocks =>
      rcases List.mem_cons.1 h with h | h
      · exact .inr ⟨k, head, blocks, s, List.mem_cons_self, h⟩
      · exact htail _ h

end

namespace Resolved

variable {items : List Item} {symbols : NameTable} {ss : List Scope} {m : Module}
  (hr : Resolved items symbols ss m)

include hr

theorem map_fst_zip : (items.zip ss).map (·.1) = items :=
  List.map_fst_zip (Nat.le_of_eq hr.scopes.length_eq)

theorem bears_of_bearsFrom {name : String} {sym : Symbol}
    (h : BearsFrom 0 (globalsFrom symbols (symbolsFrom 0 0 items) 0 (items.zip ss)) 0
      (funcsFrom symbols (symbolsFrom 0 0 items) 0 (items.zip ss)) name sym) : m.Bears name sym := by
  cases sym with
  | global id =>
    obtain ⟨j, g, rfl, hg, hname⟩ := h
    exact ⟨g, by rw [hr.globals, Table.get?_ofValues, Nat.zero_add, hg], hname⟩
  | func id =>
    obtain ⟨j, f, rfl, hf, hname⟩ := h
    exact ⟨f, by rw [hr.funcs, Table.get?_ofValues, Nat.zero_add, hf], hname⟩

/-- A symbol that a program defines stands for the global or the function of its name. -/
theorem bears_symbol {x : Mention} (hx : x.name ∈ symbols.defined) (s : Scope) :
    m.Bears x.name (Meaning.symbol ⟨s, symbols, symbolsFrom 0 0 items⟩ x) := by
  have hbears := bears_symbolsFrom symbols (symbolsFrom 0 0 items) (items.zip ss) 0 0
  rw [hr.map_fst_zip] at hbears
  have hname := NameTable.getElem?_rank hr.wf hx
  rw [hr.defined, List.getElem?_map] at hname
  obtain ⟨item, hitem, hname⟩ := Option.map_eq_some_iff.1 hname
  obtain ⟨hlt, rfl⟩ := List.getElem?_eq_some_iff.1 hitem
  have hlt' : symbols.rank x.name < (symbolsFrom 0 0 items).length := hbears.length_eq ▸ hlt
  have hsymbol := hr.bears_of_bearsFrom (hbears.get hlt hlt')
  rw [List.get_eq_getElem, hname] at hsymbol
  rw [Meaning.symbol, List.getD_eq_getElem?_getD, List.getElem?_eq_getElem hlt']
  exact hsymbol

/-- It is there in the module. -/
theorem resolves_symbol {x : Mention} (hx : x.name ∈ symbols.defined) (s : Scope) (f : Option Func) :
    m.Resolves f (.symbol (Meaning.symbol ⟨s, symbols, symbolsFrom 0 0 items⟩ x)) := by
  have hbears := hr.bears_symbol hx s
  cases hsym : Meaning.symbol ⟨s, symbols, symbolsFrom 0 0 items⟩ x with
  | global id =>
    rw [hsym] at hbears
    obtain ⟨g, hg, -⟩ := hbears
    exact Table.contains_iff.2 ⟨g, hg⟩
  | func id =>
    rw [hsym] at hbears
    obtain ⟨f, hf, -⟩ := hbears
    exact Table.contains_iff.2 ⟨f, hf⟩

/-- The body of a definition has its scope. -/
theorem binds {head : Head} {blocks : List NamedBlock} {s : Scope}
    (h : (.definition head blocks, s) ∈ items.zip ss) : s.Binds head blocks :=
  Scope.binds_of_ofBody (List.forall₂_zip hr.scopes h)

theorem wellFormed (hp : ∀ item ∈ items, item.Proper) : m.WellFormed where
  globals := by
    rw [hr.globals]
    refine Table.dense_ofValues ?_
    rw [List.range_eq_range']
    exact ids_globalsFrom _ _ _ _
  funcs := by
    rw [hr.funcs]
    refine Table.dense_ofValues ?_
    rw [List.range_eq_range']
    exact ids_funcsFrom _ _ _ _
  names := by
    have hnodup := hr.wf.nodup_defined
    rw [hr.defined] at hnodup
    rw [hr.globals, hr.funcs, Table.values_ofValues, Table.values_ofValues]
    refine (names_perm symbols _ (items.zip ss) 0 0).nodup_iff.2 ?_
    have hnames := congrArg (List.map fun item : Item => item.name.name) hr.map_fst_zip
    rw [List.map_map] at hnames
    exact hnames ▸ hnodup
  func f hf := by
    rw [hr.funcs, Table.values_ofValues] at hf
    rcases mem_funcsFrom _ _ hf with ⟨id, head, -, -, rfl⟩ | ⟨id, head, blocks, s, hmem, rfl⟩
    · exact wellFormed_declaredFunc id head
    · exact wellFormed_definedFunc (hr.binds hmem) _ _ id (hp _ (List.of_mem_zip hmem).1).2
  init g hg x hx := by
    rw [hr.globals, Table.values_ofValues] at hg
    obtain ⟨id, v, s, hmem, rfl⟩ := mem_globalsFrom _ _ hg
    obtain ⟨w, hw, hwx⟩ := Option.map_eq_some_iff.1 hx
    cases w with
    | var y => exact hp _ (List.of_mem_zip hmem).1 y hw
    | symbol y => cases hwx
    | const c => cases hwx
  external g hg := by
    rw [hr.globals, Table.values_ofValues] at hg
    obtain ⟨id, v, s, hmem, rfl⟩ := mem_globalsFrom _ _ hg
    simp [resolvedGlobal]

theorem valid (hp : ∀ item ∈ items, item.Proper) : m.Valid where
  inits g hg v hv := by
    rw [hr.globals, Table.values_ofValues] at hg
    obtain ⟨id, w, s, hmem, rfl⟩ := mem_globalsFrom _ _ hg
    obtain ⟨u, hu, rfl⟩ := Option.map_eq_some_iff.1 hv
    cases u with
    | var y => exact absurd hu (hp _ (List.of_mem_zip hmem).1 y)
    | const c => exact trivial
    | symbol y => exact hr.resolves_symbol (hr.used _ (List.of_mem_zip hmem).1 y (by simp [Item.operands, hu])) s none
  funcs f hf := by
    rw [hr.funcs, Table.values_ofValues] at hf
    rcases mem_funcsFrom _ _ hf with ⟨id, head, -, -, rfl⟩ | ⟨id, head, blocks, s, hmem, rfl⟩
    · exact validFunc_declaredFunc m id head
    · refine validFunc_definedFunc (hr.binds hmem) _ _ id (hp _ (List.of_mem_zip hmem).1).2 fun b hb x hx f => ?_
      refine hr.resolves_symbol (hr.used _ (List.of_mem_zip hmem).1 x ?_) s f
      exact List.mem_flatMap.2 ⟨b, hb, hx⟩

end Resolved

end Source
end SSALint
