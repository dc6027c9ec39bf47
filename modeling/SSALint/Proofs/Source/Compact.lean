/-
Compact modules. Where functions were removed the ids that are left have gaps, and a first block may have no label.
The compact module has the same functions under 0, 1, 2 and so on, every block labelled as it shows; its text is the
same (`Module.Regular.text_compact`), and it is canonical if the module can be read back
(`Module.Regular.canonical_compact`).
-/
import SSALint.Proofs.IR.Renamed
import SSALint.Proofs.Source.Canonical
import SSALint.Proofs.Source.WellSpelled

namespace SSALint

open Source

/-! ## Ranks -/

namespace Module

variable (m : Module)

/-- The place of a function among those that are there. -/
def rank (k : FuncId) : FuncId := m.funcs.keys.idxOf k

/-- A symbol under the rank of its function; globals stay. -/
def rankSymbol : Symbol → Symbol
  | .global g => .global g
  | .func k => .func (m.rank k)

/-- A value that refers to functions by their ranks. -/
abbrev ranked : Value → Value := Operand.map id m.rankSymbol

end Module

/-- A block with the label that it shows. -/
def Func.compactBlock (m : Module) (f : Func) (b : Block) : Block :=
  { b.mapOperands fun _ => m.ranked with label := some (Names.label ⟨m, f⟩ b.id) }

/-- A function under its rank, with the labels that its blocks show. -/
def Func.compact (m : Module) (k : FuncId) (f : Func) : Func :=
  { f with
    id := m.rank k
    blocks := f.blocks.map (f.compactBlock m) }

/-- A module with its functions under their ranks. -/
def Module.compact (m : Module) : Module where
  globals := m.globals.map fun v => { v with init := v.init.map m.ranked }
  funcs := .ofValues (m.funcs.toList.map fun a => a.2.compact m a.1)

/-- A module is legible if its literals fit the types that they stand under and results have the types that follow,
no terminator looks like another, and no two blocks of a function show under one label. -/
structure Module.Legible (m : Module) : Prop where
  inits : ∀ v ∈ m.globals.values, ∀ w ∈ v.init, w.Fits v.type
  fitting : ∀ f ∈ m.funcs.values, ∀ b ∈ f.blocks.values, b.Fitting f.typeOf
  distinct : m.Distinct
  labels : ∀ f ∈ m.funcs.values, (f.blocks.values.map fun b => Names.label ⟨m, f⟩ b.id).Nodup

instance (m : Module) : Decidable m.Legible :=
  decidable_of_iff ((∀ v ∈ m.globals.values, ∀ w ∈ v.init, w.Fits v.type) ∧
      (∀ f ∈ m.funcs.values, ∀ b ∈ f.blocks.values, b.Fitting f.typeOf) ∧ m.Distinct ∧
      ∀ f ∈ m.funcs.values, (f.blocks.values.map fun b => Names.label ⟨m, f⟩ b.id).Nodup)
    ⟨fun h => ⟨h.1, h.2.1, h.2.2.1, h.2.2.2⟩, fun h => ⟨h.1, h.2, h.3, h.4⟩⟩

theorem Table.getElem?_toList {α : Type} {t : Table α} {k : Nat} {v : α} (h : t.get? k = some v) :
    t.toList[t.keys.idxOf k]? = some (k, v) := by
  have hkey : t.keys[t.keys.idxOf k]? = some k := List.getElem?_idxOf (mem_keys.2 ⟨v, h⟩)
  unfold keys at hkey ⊢
  rw [List.getElem?_map] at hkey
  obtain ⟨⟨j, w⟩, ha, rfl⟩ := Option.map_eq_some_iff.1 hkey
  have hget : t.get? j = some w := mem_toList.1 (List.mem_of_getElem? ha)
  cases h.symm.trans hget
  exact ha

/-! ## Names of a compact module -/

namespace Module

variable {m : Module}

theorem get?_compact {k : FuncId} {f : Func} (h : m.funcs.get? k = some f) :
    m.compact.funcs.get? (m.rank k) = some (f.compact m k) := by
  show (Table.ofValues _).get? _ = _
  rw [Table.get?_ofValues, List.getElem?_map, rank, Table.getElem?_toList h]
  rfl

/-- A symbol that is there shows by the same name under its rank. -/
theorem symbol_compact {f f' g : Option Func} {s : Symbol} (hs : m.Resolves g (.symbol s)) :
    Names.symbol ⟨m.compact, f'⟩ (m.rankSymbol s) = Names.symbol ⟨m, f⟩ s := by
  cases s with
  | global g =>
    obtain ⟨v, hv⟩ := Table.contains_iff.1 hs
    have hv' : m.compact.globals.get? g = some { v with init := v.init.map m.ranked } := by
      show (m.globals.map _).get? g = _
      rw [Table.get?_map, hv]
      rfl
    unfold Names.symbol rankSymbol
    simp only [hv, hv']
  | func k =>
    obtain ⟨v, hv⟩ := Table.contains_iff.1 hs
    unfold Names.symbol rankSymbol
    simp only [hv, get?_compact hv]
    rfl

theorem resolves_compact {f f' : Option Func} (hlocals : ∀ g, f = some g → ∃ g', f' = some g' ∧ g'.locals = g.locals)
    {v : Value} (hv : m.Resolves f v) : m.compact.Resolves f' (m.ranked v) := by
  cases v with
  | const c => exact hv
  | var x =>
    obtain ⟨g, hg, hx⟩ := hv
    obtain ⟨g', hg', hsame⟩ := hlocals g hg
    exact ⟨g', hg', hsame ▸ hx⟩
  | symbol sym =>
    cases sym with
    | global g =>
      obtain ⟨v, hv⟩ := Table.contains_iff.1 hv
      exact Table.contains_iff.2 ⟨_, (Table.get?_map _ _ _).trans (by rw [hv]; rfl)⟩
    | func k =>
      obtain ⟨v, hv⟩ := Table.contains_iff.1 hv
      exact Table.contains_iff.2 ⟨_, get?_compact hv⟩

/-- What a value shows by is the same in a compact module. -/
theorem value_compact {f : Option Func} (f' : Option Func)
    (hlocal : Names.localName ⟨m.compact, f'⟩ = Names.localName ⟨m, f⟩) {v : Value} (hv : m.Resolves f v) :
    Names.value ⟨m.compact, f'⟩ (m.ranked v) = Names.value ⟨m, f⟩ v :=
  Names.value_map hlocal fun _ hs => symbol_compact (g := f) (hs ▸ hv)

end Module

namespace Func

variable {m : Module} {f : Func} {k : FuncId}

theorem isDeclaration_compact : (f.compact m k).isDeclaration = f.isDeclaration :=
  congrArg (· == 0) (Table.size_map _ f.blocks)

theorem values_compact : (f.compact m k).blocks.values = f.blocks.values.map (f.compactBlock m) := Table.values_map _ _

theorem mem_blocks_compact {b : Block} (hb : b ∈ (f.compact m k).blocks.values) :
    ∃ c ∈ f.blocks.values, b = f.compactBlock m c := by
  rw [values_compact] at hb
  obtain ⟨c, hc, rfl⟩ := List.mem_map.1 hb
  exact ⟨c, hc, rfl⟩

theorem typeOf_compact : (f.compact m k).typeOf = f.typeOf := by
  funext v
  cases v <;> rfl

theorem typeOf_ranked (v : Value) : f.typeOf (m.ranked v) = f.typeOf v := by
  cases v <;> rfl

/-- Blocks show under the labels that they show under before. -/
theorem label_compact (hf : f.WellFormed) : Names.label ⟨m.compact, f.compact m k⟩ = Names.label ⟨m, f⟩ := by
  funext b
  have hget : (f.compact m k).blocks.get? b = (f.blocks.get? b).map _ := Table.get?_map _ _ _
  rw [Names.label_eq_getD]
  show (((f.compact m k).blocks.get? b).bind (·.label)).getD ("bb" ++ toString b) = _
  rw [hget]
  cases hb : f.blocks.get? b with
  | none =>
    rw [Names.label_eq_getD]
    show _ = ((f.blocks.get? b).bind (·.label)).getD ("bb" ++ toString b)
    rw [hb]
    rfl
  | some c =>
    have hid : c.id = b := hf.blocks.key b c hb
    show Names.label ⟨m, f⟩ c.id = _
    rw [hid]

/-- A function that keeps the rules is written as before. -/
theorem print_compact (hf : f.WellFormed) (hm : m.ValidFunc f) : (f.compact m k).print m.compact = f.print m := by
  have hparam : (f.compact m k).printParam m.compact = f.printParam m := by
    funext x
    unfold printParam
    rw [isDeclaration_compact]
    rfl
  have hblocks : (f.compact m k).blocks.values.map (Names.block ⟨m.compact, f.compact m k⟩) =
      f.blocks.values.map (Names.block ⟨m, f⟩) := by
    rw [values_compact, List.map_map]
    refine List.map_congr_left fun b hb => ?_
    refine Names.block_map (n := ⟨m, f⟩) (c := ⟨m.compact, f.compact m k⟩) rfl (label_compact hf)
      (fun v => (congrFun typeOf_compact _).trans (typeOf_ranked v)) (fun v hv => ?_) _
    exact Module.value_compact (f := f) _ rfl (hm.operands v (List.mem_flatMap.2 ⟨b, hb, hv⟩))
  unfold print
  rw [isDeclaration_compact, hparam, hblocks]
  rfl

end Func

namespace Module

variable {m : Module}

theorem global_compact {v : Global} (hv : ∀ w, v.init = some w → m.Resolves none w) :
    Names.global ⟨m.compact, none⟩ { v with init := v.init.map m.ranked } = Names.global ⟨m, none⟩ v := by
  unfold Names.global
  cases hw : v.init with
  | none => rfl
  | some w =>
    simp only [Option.map_some, value_compact none rfl (hv w hw)]

/-- The text of a compact module is the text of the module. -/
theorem Regular.text_compact (hm : m.Regular) : m.compact.text = m.text := by
  have hglobals : m.compact.globals.values.map (fun v => Names.global ⟨m.compact, none⟩ v ++ "\n") =
      m.globals.values.map fun v => Names.global ⟨m, none⟩ v ++ "\n" := by
    show (m.globals.map _).values.map _ = _
    rw [Table.values_map, List.map_map]
    refine List.map_congr_left fun v hv => ?_
    exact congrArg (· ++ "\n") (global_compact (hm.valid.inits v hv))
  have hfuncs : m.compact.funcs.values.mapM (Func.print · m.compact) = m.funcs.values.mapM (Func.print · m) := by
    show (Table.ofValues _).values.mapM _ = _
    rw [Table.values_ofValues, Table.values_eq_map_toList, List.mapM_map, List.mapM_map]
    refine Outcome.mapM_congr fun a ha => ?_
    have hmem : a.2 ∈ m.funcs.values := Table.mem_values.2 ⟨a.1, Table.mem_toList.1 ha⟩
    exact Func.print_compact (hm.func a.2 hmem).wellFormed (hm.valid.funcs a.2 hmem)
  unfold text print
  rw [hglobals, hfuncs]

end Module

/-! ## Functions that can be read back -/

section
variable {m : Module} {f : Func}

theorem Func.WellFormed.compact (hf : f.WellFormed)
    (hlabels : (f.blocks.values.map fun b => Names.label ⟨m, f⟩ b.id).Nodup) (k : FuncId) :
    (f.compact m k).WellFormed := by
  refine hf.mapBlocks (g := f.compactBlock m) (fun _ => rfl) (Module.results_mapBlock m.ranked) ?_ ?_ (m.rank k)
  · rw [List.filterMap_map]
    exact List.filterMap_eq_map.symm ▸ hlabels
  · intro b hb
    obtain ⟨c, -, rfl⟩ := List.mem_map.1 (List.mem_of_mem_tail hb)
    exact Option.some_ne_none _

theorem Func.Regular.canonical_compact (hf : f.Regular) (k : FuncId) : (f.compact m k).Canonical where
  blocks := (Table.next_map _ _).trans (hf.blocks.trans (Table.size_map _ _).symm)
  locals := hf.locals
  labelled b hb := by
    obtain ⟨c, -, rfl⟩ := mem_blocks_compact hb
    exact Option.some_ne_none _
  unnamed hdecl := hf.unnamed (isDeclaration_compact (f := f) ▸ hdecl)

theorem Module.ValidFunc.compact (hf : m.ValidFunc f) (k : FuncId) : m.compact.ValidFunc (f.compact m k) := by
  have hresults : (f.compact m k).results = f.results := by
    unfold Func.results
    rw [Func.values_compact, List.flatMap_map]
    exact congrArg (f.blocks.values.flatMap ·) (funext (results_mapBlock m.ranked))
  exact {
    params := hf.params
    results := hresults ▸ hf.results
    once := hresults ▸ hf.once
    notParam := hresults ▸ hf.notParam
    operands := fun v hv => by
      obtain ⟨b, hb, hv⟩ := List.mem_flatMap.1 hv
      obtain ⟨c, hc, rfl⟩ := Func.mem_blocks_compact hb
      have hv : v ∈ (c.mapOperands fun _ => m.ranked).operands := hv
      rw [Block.operands_mapOperands_const] at hv
      obtain ⟨w, hw, rfl⟩ := List.mem_map.1 hv
      refine resolves_compact (f := f) ?_ (hf.operands w (List.mem_flatMap.2 ⟨c, hc, hw⟩))
      rintro _ ⟨rfl⟩
      exact ⟨_, rfl, rfl⟩
    targets := fun b hb target ht => by
      obtain ⟨c, hc, rfl⟩ := Func.mem_blocks_compact hb
      have ht : target ∈ (c.mapOperands fun _ => m.ranked).targets := ht
      rw [Block.targets_mapOperands] at ht
      obtain ⟨d, hd⟩ := Table.contains_iff.1 (hf.targets c hc target ht)
      exact Table.contains_iff.2 ⟨_, (Table.get?_map _ _ _).trans (by rw [hd]; rfl)⟩ }

theorem Block.Typed.compact {b : Block} (hb : b.Typed f.typeOf) : (f.compactBlock m b).Typed f.typeOf where
  instrs i hi := by
    rw [Func.compactBlock, Block.mapOperands_const] at hi
    obtain ⟨j, hj, rfl⟩ := List.mem_map.1 hi
    obtain ⟨hoperation, hresult⟩ := hb.instrs j hj
    refine ⟨(Operation.typed_map Func.typeOf_ranked).2 hoperation, fun x hx => ?_⟩
    exact (Operation.resultType?_map Func.typeOf_ranked j.operation).trans (hresult x hx)
  terminator := (Terminator.typed_map Func.typeOf_ranked).2 hb.terminator

theorem Func.Writable.compact (hf : f.Writable) (hm : m.Named) (k : FuncId) : (f.compact m k).Writable where
  ret := hf.ret
  params x hx := by
    rw [typeOf_compact]
    exact hf.params x hx
  localNames := hf.localNames
  labels b hb label hlabel := by
    obtain ⟨c, -, rfl⟩ := mem_blocks_compact hb
    cases hlabel
    exact (hf.spelled hm).label c.id
  blocks b hb := by
    obtain ⟨c, hc, rfl⟩ := mem_blocks_compact hb
    rw [typeOf_compact]
    exact (hf.blocks c hc).compact

theorem Func.Distinct.compact (hf : f.Distinct) (k : FuncId) : (f.compact m k).Distinct := by
  intro b hb
  obtain ⟨c, hc, rfl⟩ := mem_blocks_compact hb
  rw [typeOf_compact]
  exact (Terminator.distinct_map typeOf_ranked).2 (hf c hc)

end

/-! ## Modules that can be read back -/

namespace Module

variable {m : Module}

theorem mem_compact {f : Func} (hf : f ∈ m.compact.funcs.values) :
    ∃ k g, g ∈ m.funcs.values ∧ f = g.compact m k := by
  have hf : f ∈ (Table.ofValues _).values := hf
  rw [Table.values_ofValues] at hf
  obtain ⟨a, ha, rfl⟩ := List.mem_map.1 hf
  exact ⟨a.1, a.2, Table.mem_values.2 ⟨a.1, Table.mem_toList.1 ha⟩, rfl⟩

theorem mem_globals_compact {v : Global} (hv : v ∈ m.compact.globals.values) :
    ∃ w ∈ m.globals.values, v = { w with init := w.init.map m.ranked } := by
  have hv : v ∈ (m.globals.map _).values := hv
  rw [Table.values_map] at hv
  obtain ⟨w, hw, rfl⟩ := List.mem_map.1 hv
  exact ⟨w, hw, rfl⟩

theorem names_compact : m.compact.globals.values.map (·.name) ++ m.compact.funcs.values.map (·.name) =
    m.globals.values.map (·.name) ++ m.funcs.values.map (·.name) := by
  refine congrArg₂ (· ++ ·) ?_ ?_
  · show (m.globals.map _).values.map _ = _
    rw [Table.values_map, List.map_map]
    rfl
  · show (Table.ofValues _).values.map _ = _
    rw [Table.values_ofValues, Table.values_eq_map_toList, List.map_map, List.map_map]
    rfl

theorem Writable.compact (hm : m.Writable) : m.compact.Writable where
  named := by
    refine ⟨fun v hv => ?_, fun f hf => ?_⟩
    · obtain ⟨w, hw, rfl⟩ := mem_globals_compact hv
      exact hm.named.1 w hw
    · obtain ⟨k, g, hg, rfl⟩ := mem_compact hf
      exact hm.named.2 g hg
  globals v hv := by
    obtain ⟨w, hw, rfl⟩ := mem_globals_compact hv
    obtain ⟨hname, htype, hinit, hexternal⟩ := hm.globals w hw
    refine ⟨hname, htype, fun _ hu => ?_, Option.map_eq_none_iff.trans hexternal⟩
    obtain ⟨u, huw, rfl⟩ := Option.map_eq_some_iff.1 hu
    obtain ⟨hfits, hconstant⟩ := hinit u huw
    exact ⟨Operand.fits_map.2 hfits, by cases u <;> exact hconstant⟩
  funcs f hf := by
    obtain ⟨k, g, hg, rfl⟩ := mem_compact hf
    exact (hm.funcs g hg).compact hm.named k

theorem Regular.valid_compact (hm : m.Regular) : m.compact.Valid where
  inits v hv u hu := by
    obtain ⟨w, hw, rfl⟩ := mem_globals_compact hv
    obtain ⟨u, hinit, rfl⟩ := Option.map_eq_some_iff.1 hu
    exact resolves_compact (fun _ hg => by cases hg) (hm.valid.inits w hw u hinit)
  funcs f hf := by
    obtain ⟨k, g, hg, rfl⟩ := mem_compact hf
    exact (hm.valid.funcs g hg).compact k

theorem Regular.wellFormed_compact (hm : m.Regular)
    (hlabels : ∀ f ∈ m.funcs.values, (f.blocks.values.map fun b => Names.label ⟨m, f⟩ b.id).Nodup) :
    m.compact.WellFormed where
  globals := hm.globals.map fun _ => rfl
  funcs := by
    refine Table.dense_ofValues ?_
    have hranks : m.funcs.keys.map m.rank = List.range m.funcs.keys.length := map_idxOf_self m.funcs.nodup_keys
    unfold Table.keys at hranks
    rw [List.map_map, List.length_map] at hranks
    rw [List.map_map, List.length_map]
    exact hranks
  names := by
    rw [names_compact]
    exact hm.names
  func f hf := by
    obtain ⟨k, g, hg, rfl⟩ := mem_compact hf
    exact (hm.func g hg).wellFormed.compact (hlabels g hg) k
  init v hv x hx := by
    obtain ⟨_, hf, -⟩ := hm.valid_compact.inits v hv _ hx
    cases hf
  external v hv := by
    obtain ⟨w, hw, rfl⟩ := mem_globals_compact hv
    exact Option.map_eq_none_iff.trans (hm.external w hw)

/-- A regular module that is well spelled and legible has a canonical compact module. -/
theorem Regular.canonical_compact (hm : m.Regular) (hw : m.WellSpelled) (hl : m.Legible) : m.compact.Canonical where
  writable := (hw.writable hm hl.inits hl.fitting).compact
  wellFormed := hm.wellFormed_compact hl.labels
  valid := hm.valid_compact
  globals := (Table.next_map _ _).trans (hm.next.trans (Table.size_map _ _).symm)
  funcs := (Table.next_ofValues _).trans (Table.size_ofValues _).symm
  func f hf := by
    obtain ⟨k, g, hg, rfl⟩ := mem_compact hf
    exact (hm.func g hg).canonical_compact k

theorem Legible.distinct_compact (hl : m.Legible) : m.compact.Distinct := by
  intro f hf
  obtain ⟨k, g, hg, rfl⟩ := mem_compact hf
  exact (hl.distinct g hg).compact k

end Module

end SSALint
