/-
Modules that are well spelled: their names are words and their types can be written. Every module that comes of a text
is (`Produced.wellSpelled`): the grammar answers nothing else, slots are given words for names, and what stands in the
place of a function that is gone has a type that can be written.
-/
import SSALint.Proofs.Source.Legible
import SSALint.Proofs.Source.Regular
import SSALint.Proofs.Source.Spelling

namespace SSALint

open Source

/-- The label of a block, if it has got one, is a word, and its instructions are well spelled. -/
structure Block.WellSpelled (b : Block) : Prop where
  label : ∀ label ∈ b.label, IsWord label
  operations : ∀ i ∈ b.instrs, i.operation.WellSpelled
  terminator : b.terminator.WellSpelled

/-- The name of a local value, if it has got one, is a word, and its type can be written. -/
def Local.WellSpelled (x : Local) : Prop := x.type.Writable ∧ ∀ name ∈ x.name, IsWord name

/-- The names in a function are words, and its types can be written. -/
structure Func.WellSpelled (f : Func) : Prop where
  name : IsWord f.name
  ret : f.ret.Writable
  locals : ∀ x ∈ f.locals.values, x.WellSpelled
  blocks : ∀ b ∈ f.blocks.values, b.WellSpelled

/-- The names in a module are words, and its types can be written. -/
structure Module.WellSpelled (m : Module) : Prop where
  globals : ∀ v ∈ m.globals.values, IsWord v.name ∧ v.type.Writable
  funcs : ∀ f ∈ m.funcs.values, f.WellSpelled

/-! ## Modules that are loaded -/

namespace Source

variable {h : Head}

theorem Meaning.wellSpelled_block (g : Meaning) {b : NamedBlock} (hb : b.WellSpelled) : (g.block b).WellSpelled where
  label := by
    intro label hlabel
    obtain ⟨m, hm, rfl⟩ := Option.map_eq_some_iff.1 hlabel
    exact hb.label m hm
  operations := by
    intro i hi
    obtain ⟨j, hj, rfl⟩ := List.mem_map.1 hi
    exact ((hb.instrs j hj).operation.mapOperands fun v hv => hv.map g.value g.symbol).mapTargets fun _ => g.label
  terminator := (hb.terminator.mapOperands fun v hv => hv.map g.value g.symbol).mapTargets fun _ => g.label

/-- A parameter without a name is called by a number. -/
theorem Head.Writable.named (hh : h.Writable) : ∀ r ∈ h.named, r.WellSpelled := by
  intro r hr
  obtain ⟨i, hi, rfl⟩ := List.mem_mapIdx.1 hr
  obtain ⟨htype, hname⟩ := hh.params h.params[i] (List.getElem_mem hi)
  refine ⟨htype, ?_⟩
  show IsWord (h.params[i].name.getD ⟨toString i, h.name.rest⟩).name
  cases hparam : h.params[i].name with
  | none => exact isWord_number i
  | some m => exact hname m hparam

theorem wellSpelled_definedValues (hh : h.Writable) {blocks : List NamedBlock} (hblocks : ∀ b ∈ blocks, b.WellSpelled) :
    ∀ r ∈ definedValues h blocks, r.WellSpelled := by
  intro r hr
  rcases List.mem_append.1 hr with hr | hr
  · exact hh.named r hr
  · obtain ⟨b, hb, hr⟩ := List.mem_flatMap.1 hr
    obtain ⟨i, hi, hr⟩ := List.mem_filterMap.1 hr
    exact ((hblocks b hb).instrs i hi).result r hr

theorem wellSpelled_definedFunc (g : Meaning) (id : FuncId) (hh : h.Writable) {blocks : List NamedBlock}
    (hblocks : ∀ b ∈ blocks, b.WellSpelled) : (definedFunc g id h blocks).WellSpelled where
  name := hh.name
  ret := hh.ret
  locals := by
    unfold definedFunc bodyLocals
    rw [Table.values_ofValues]
    intro x hx
    obtain ⟨i, hi, rfl⟩ := List.mem_mapIdx.1 hx
    obtain ⟨htype, hname⟩ := wellSpelled_definedValues hh hblocks _ (List.getElem_mem hi)
    refine ⟨htype, fun name h => ?_⟩
    obtain ⟨-, h⟩ := Option.ite_none_left_eq_some.1 h
    exact Option.some.inj h ▸ hname
  blocks := by
    unfold definedFunc
    rw [Table.values_ofValues]
    exact List.forall_mem_map.2 fun b hb => g.wellSpelled_block (hblocks b hb)

theorem wellSpelled_declaredFunc (id : FuncId) (hh : h.Writable) : (declaredFunc id h).WellSpelled where
  name := hh.name
  ret := hh.ret
  locals := by
    unfold declaredFunc
    rw [Table.values_ofValues]
    intro x hx
    obtain ⟨i, hi, rfl⟩ := List.mem_mapIdx.1 hx
    exact ⟨(hh.params _ (List.getElem_mem hi)).1, nofun⟩
  blocks := nofun

theorem Resolved.wellSpelled {items : List Item} {symbols : NameTable} {ss : List Scope} {m : Module}
    (hr : Resolved items symbols ss m) (hitems : ∀ item ∈ items, item.WellSpelled) : m.WellSpelled where
  globals v hv := by
    rw [hr.globals, Table.values_ofValues] at hv
    obtain ⟨id, w, s, hmem, rfl⟩ := mem_globalsFrom _ _ hv
    exact hitems _ (List.of_mem_zip hmem).1
  funcs f hf := by
    rw [hr.funcs, Table.values_ofValues] at hf
    rcases mem_funcsFrom _ _ hf with ⟨id, head, s, hmem, rfl⟩ | ⟨id, head, blocks, s, hmem, rfl⟩
    · exact wellSpelled_declaredFunc id (hitems _ (List.of_mem_zip hmem).1)
    · obtain ⟨hhead, hblocks⟩ := hitems _ (List.of_mem_zip hmem).1
      exact wellSpelled_definedFunc _ id hhead hblocks

end Source

/-! ## Checks and removals -/

theorem isWord_slotName (k : Nat) : IsWord (slotName k) := isWord_append (by decide) (isWord_number k)

namespace Func

variable {f : Func}

theorem WellSpelled.setLocalName (hf : f.WellSpelled) (x : LocalId) {name : String} (hname : IsWord name) :
    (f.setLocalName x name).WellSpelled where
  name := hf.name
  ret := hf.ret
  locals l hl := by
    have hmodify : l ∈ (f.locals.modify x fun l => { l with name := some name }).values := hl
    obtain ⟨y, hy⟩ := Table.mem_values.1 hmodify
    rw [Table.get?_modify] at hy
    split at hy
    · obtain ⟨k, hk, rfl⟩ := Option.map_eq_some_iff.1 hy
      exact ⟨(hf.locals k (Table.mem_values.2 ⟨y, hk⟩)).1, fun _ h => Option.some.inj h ▸ hname⟩
    · exact hf.locals l (Table.mem_values.2 ⟨y, hy⟩)
  blocks := hf.blocks

theorem WellSpelled.nameSlots {f : Func} (hf : f.WellSpelled) (k : Nat) (xs : List LocalId) :
    (f.nameSlots k xs).WellSpelled := by
  induction xs generalizing f k with
  | nil => exact hf
  | cons x xs ih => exact ih (hf.setLocalName x (isWord_slotName _)) (f.freeFrom k + 1)

theorem WellSpelled.mapOperands (hf : f.WellSpelled) {g : Value → Value}
    (hg : ∀ v, v.WellSpelled → (g v).WellSpelled) : (f.mapOperands g).WellSpelled where
  name := hf.name
  ret := hf.ret
  locals := hf.locals
  blocks b hb := by
    have hb : b ∈ (f.blocks.map _).values := hb
    rw [Table.values_map] at hb
    obtain ⟨c, hc, rfl⟩ := List.mem_map.1 hb
    obtain ⟨hlabel, hoperations, hterminator⟩ := hf.blocks c hc
    rw [Block.mapOperands_const]
    exact ⟨hlabel, List.forall_mem_map.2 fun i hi => (hoperations i hi).mapOperands hg, hterminator.mapOperands hg⟩

end Func

namespace Module

variable {m : Module}

theorem wellSpelled_cut (dead : List FuncId) {v : Value} (hv : v.WellSpelled) : (cut dead v).WellSpelled := by
  cases v with
  | symbol s =>
    cases s with
    | global g => trivial
    | func f =>
      show Operand.WellSpelled (if f ∈ dead then undefinedFunc else _)
      split <;> trivial
  | _ => exact hv

theorem WellSpelled.named (hm : m.WellSpelled) : m.named.WellSpelled where
  globals := hm.globals
  funcs f hf := by
    obtain ⟨g, hg, rfl⟩ := List.mem_map.1 (Table.values_map _ m.funcs ▸ hf)
    exact (hm.funcs g hg).nameSlots 0 _

theorem WellSpelled.without (hm : m.WellSpelled) {n : Module} {dead : List FuncId} (h : m.Without dead n) :
    n.WellSpelled where
  globals := by
    rw [h.globals_eq, Table.values_map]
    exact List.forall_mem_map.2 hm.globals
  funcs f hf := by
    obtain ⟨k, hk⟩ := Table.mem_values.1 hf
    obtain ⟨-, g, hg, rfl⟩ := h.get?_funcs_eq_some_iff.1 hk
    exact (hm.funcs g (Table.mem_values.2 ⟨k, hg⟩)).mapOperands fun _ => wellSpelled_cut dead

theorem wellSpelled_of_loadModule {text : String} (h : loadModule text = .ok m) : m.WellSpelled := by
  obtain ⟨n, hparse, hverified⟩ := Outcome.bind_eq_ok_iff.1 h
  cases eq_of_verified hverified
  obtain ⟨items, r, hprogram, hresolve⟩ := read_eq_ok_iff.1 (parseModule_eq_ok_iff.1 hparse)
  obtain ⟨symbols, ss, hr⟩ := resolved_of_resolve hresolve
  exact hr.wellSpelled (wellSpelled_program _ _ _ hprogram)

end Module

/-- However it was produced, a module is well spelled. -/
theorem Produced.wellSpelled {text : String} {m : Module} (h : Produced text m) : m.WellSpelled := by
  induction h with
  | loaded h => exact Module.wellSpelled_of_loadModule h
  | checked mode _ ih => exact ih.named
  | pruned config _ h ih =>
    obtain ⟨dead, hwithout⟩ := Module.without_of_eliminateVerified h
    exact ih.without hwithout

/-! ## Well spelled modules that can be written -/

theorem Func.WellSpelled.typeOf {f : Func} (hf : f.WellSpelled) (v : Value) (hv : v.WellSpelled) :
    (f.typeOf v).Writable := by
  cases v with
  | const c => exact hv
  | symbol s => trivial
  | var x =>
    cases hx : f.locals.get? x with
    | none =>
      show Ty.Writable (((f.locals.get? x).map (·.type)).getD .void)
      rw [hx]
      trivial
    | some l =>
      rw [Func.typeOf_of_get? hx]
      exact (hf.locals l (Table.mem_values.2 ⟨x, hx⟩)).1

theorem Block.WellSpelled.typed {b : Block} (hb : b.WellSpelled) {typeOf : Value → Ty}
    (htype : ∀ v : Value, v.WellSpelled → (typeOf v).Writable) (hf : b.Fitting typeOf) : b.Typed typeOf where
  instrs i hi := ⟨(hb.operations i hi).typed htype (hf.operations i hi), hf.results i hi⟩
  terminator := hb.terminator.typed htype hf.terminator

/-- A function whose literals fit can be written. -/
theorem Func.WellSpelled.writable {m : Module} {f : Func} (hf : f.WellSpelled) (hm : m.ValidFunc f)
    (hfits : ∀ b ∈ f.blocks.values, b.Fitting f.typeOf) : f.Writable where
  ret := hf.ret
  params x hx := ⟨hm.params x hx, hf.typeOf (.var x) trivial⟩
  localNames x hx := (hf.locals x hx).2
  labels b hb := (hf.blocks b hb).label
  blocks b hb := (hf.blocks b hb).typed hf.typeOf (hfits b hb)

/-- A module whose literals fit can be written. -/
theorem Module.WellSpelled.writable {m : Module} (hw : m.WellSpelled) (hm : m.Regular)
    (hinits : ∀ v ∈ m.globals.values, ∀ w ∈ v.init, w.Fits v.type)
    (hfits : ∀ f ∈ m.funcs.values, ∀ b ∈ f.blocks.values, b.Fitting f.typeOf) : m.Writable where
  named := ⟨fun v hv => (hw.globals v hv).1, fun f hf => (hw.funcs f hf).name⟩
  globals v hv := {
    name := (hw.globals v hv).1
    type := (hw.globals v hv).2
    init := fun w hwv => by
      refine ⟨hinits v hv w hwv, ?_⟩
      cases w with
      | var x =>
        obtain ⟨_, hnone, -⟩ := hm.valid.inits v hv _ hwv
        cases hnone
      | _ => rfl
    external := hm.external v hv }
  funcs f hf := (hw.funcs f hf).writable (hm.valid.funcs f hf) (hfits f hf)

end SSALint
