/-
Regular modules. A module is regular if it keeps the rules for modules, its names are told apart, and its functions
are numbered without gaps; ids of functions may have gaps. Every module that was loaded is regular, and it stays so
however often it is checked and its dead functions are removed (`Produced.regular`).
-/
import SSALint.Proofs.Independence
import SSALint.Proofs.Init.Naming
import SSALint.Proofs.Source.Accepted

namespace SSALint

open Source

/-- The rules for the numbers and the names of a function, whose tables have no keys to spare. A declaration gives
its parameters no names. -/
structure Func.Regular (f : Func) : Prop where
  wellFormed : f.WellFormed
  blocks : f.blocks.next = f.blocks.size
  locals : f.locals.next = f.locals.size
  unnamed : f.isDeclaration = true → ∀ x ∈ f.locals.values, x.name = none

/-- The rules for a module whose functions are regular; of its functions some may be gone. -/
structure Module.Regular (m : Module) : Prop where
  valid : m.Valid
  globals : m.globals.Dense
  next : m.globals.next = m.globals.size
  names : (m.globals.values.map (·.name) ++ m.funcs.values.map (·.name)).Nodup
  external : ∀ v ∈ m.globals.values, v.init = none ↔ v.external = true
  func : ∀ f ∈ m.funcs.values, f.Regular

/-- The modules that come of a text: the one that is loaded, and what checks and removals of dead functions make of
one. -/
inductive Produced (text : String) : Module → Prop
  | loaded {m : Module} : loadModule text = .ok m → Produced text m
  | checked {m : Module} (mode : Traversal) : Produced text m → Produced text (m.check mode).module
  | pruned {m n : Module} {p : Pruned} (config : Config) : Produced text m →
    m.eliminateVerified config = (n, .ok p) → Produced text n

/-! ## Functions -/

namespace Func

variable {f : Func}

theorem isDeclaration_mapOperands (g : Value → Value) (f : Func) :
    (f.mapOperands g).isDeclaration = f.isDeclaration :=
  congrArg (· == 0) (Table.size_map _ f.blocks)

theorem Regular.mapOperands (hf : f.Regular) (g : Value → Value) : (f.mapOperands g).Regular where
  wellFormed := by
    refine hf.wellFormed.mapBlocks (g := Block.mapOperands fun _ => g) (fun _ => rfl) (Module.results_mapBlock g)
      ?_ ?_ f.id
    · rw [List.filterMap_map]
      exact hf.wellFormed.labels
    · rw [← List.map_tail, List.forall_mem_map]
      exact hf.wellFormed.labelled
  blocks := (Table.next_map _ _).trans (hf.blocks.trans (Table.size_map _ _).symm)
  locals := hf.locals
  unnamed hdecl := hf.unnamed (isDeclaration_mapOperands g f ▸ hdecl)

theorem contains_named (f : Func) (x : LocalId) : f.named.locals.contains x = f.locals.contains x := by
  rw [Bool.eq_iff_iff, ← Table.mem_keys_iff_contains, ← Table.mem_keys_iff_contains]
  exact (f.keys_nameSlots 0 f.anonymousSlots).1 ▸ Iff.rfl

/-- Without blocks there are no slots to name. -/
theorem named_of_isDeclaration (hdecl : f.isDeclaration = true) : f.named = f := by
  have hblocks : f.blocks.values = [] := List.eq_nil_of_length_eq_zero (beq_iff_eq.1 hdecl)
  unfold named nameAnonymousSlots anonymousSlots instrs
  rw [hblocks]
  rfl

theorem Regular.named (hf : f.Regular) : f.named.Regular where
  wellFormed := hf.wellFormed.named
  blocks := by
    rw [named_eq]
    exact hf.blocks
  locals := by
    obtain ⟨hkeys, hnext⟩ := f.keys_nameSlots 0 f.anonymousSlots
    rw [Table.size_eq_length_keys]
    exact hnext.trans (hf.locals.trans ((Table.size_eq_length_keys _).trans (congrArg List.length hkeys.symm)))
  unnamed hdecl := by
    have hdecl : f.isDeclaration = true := by
      rw [named_eq] at hdecl
      exact hdecl
    rw [named_of_isDeclaration hdecl]
    exact hf.unnamed hdecl

end Func

/-! ## Modules that are loaded -/

theorem regular_declaredFunc (id : FuncId) (h : Head) : (declaredFunc id h).Regular where
  wellFormed := wellFormed_declaredFunc id h
  blocks := rfl
  locals := by simp [declaredFunc]
  unnamed _ _ hx := name_of_mem_declaredFunc hx

theorem regular_definedFunc {h : Head} {blocks : List NamedBlock} {s : Scope} (hs : s.Binds h blocks)
    (symbols : NameTable) (order : List Symbol) (id : FuncId) (hblocks : blocks ≠ [])
    (htail : ∀ b ∈ blocks.tail, b.label ≠ none) : (definedFunc ⟨s, symbols, order⟩ id h blocks).Regular where
  wellFormed := wellFormed_definedFunc hs symbols order id htail
  blocks := by simp [definedFunc]
  locals := by simp [definedFunc, bodyLocals]
  unnamed hdecl := by
    -- A body has a block, so that its function is not taken for a declaration.
    have hlength : blocks.length = 0 := by
      simpa [Func.isDeclaration, Table.isEmpty, definedFunc] using hdecl
    exact absurd (List.eq_nil_of_length_eq_zero hlength) hblocks

theorem Source.Resolved.regular {items : List Item} {symbols : NameTable} {ss : List Scope} {m : Module}
    (hr : Resolved items symbols ss m) (hp : ∀ item ∈ items, item.Proper) : m.Regular where
  valid := hr.valid hp
  globals := (hr.wellFormed hp).globals
  next := by rw [hr.globals, Table.next_ofValues, Table.size_ofValues]
  names := (hr.wellFormed hp).names
  external := (hr.wellFormed hp).external
  func f hf := by
    rw [hr.funcs, Table.values_ofValues] at hf
    rcases mem_funcsFrom _ _ hf with ⟨id, head, -, -, rfl⟩ | ⟨id, head, blocks, s, hmem, rfl⟩
    · exact regular_declaredFunc id head
    · obtain ⟨hblocks, htail⟩ := hp _ (List.of_mem_zip hmem).1
      exact regular_definedFunc (hr.binds hmem) _ _ id hblocks htail

theorem Module.eq_of_verified {m n : Module} (h : m.verified = .ok n) : m = n := by
  unfold verified at h
  split at h
  · exact Except.ok.inj h
  · cases h

theorem Module.regular_of_loadModule {text : String} {m : Module} (h : loadModule text = .ok m) : m.Regular := by
  obtain ⟨n, hparse, hverified⟩ := Outcome.bind_eq_ok_iff.1 h
  cases Module.eq_of_verified hverified
  obtain ⟨items, r, hprogram, hresolve⟩ := read_eq_ok_iff.1 (parseModule_eq_ok_iff.1 hparse)
  obtain ⟨symbols, ss, hr⟩ := resolved_of_resolve hresolve
  exact hr.regular (program_spec hprogram).2.2

/-! ## Checks and removals -/

namespace Module

variable {m : Module}

theorem resolves_named_iff {f : Option Func} {v : Value} :
    m.named.Resolves (f.map Func.named) v ↔ m.Resolves f v := by
  cases v with
  | const c => rfl
  | symbol s =>
    cases s with
    | global g => rfl
    | func k => exact iff_of_eq (congrArg (· = true) (m.contains_named k))
  | var x =>
    cases f with
    | none => simp [Resolves]
    | some f => simp [Resolves, Func.contains_named]

theorem ValidFunc.named {f : Func} (hf : m.ValidFunc f) : m.named.ValidFunc f.named := by
  have heq := f.named_eq
  exact {
    params := fun x hx => by
      rw [heq] at hx
      rw [Func.contains_named]
      exact hf.params x hx
    results := fun x hx => by
      rw [heq] at hx
      rw [Func.contains_named]
      exact hf.results x hx
    once := by
      rw [heq]
      exact hf.once
    notParam := by
      rw [heq]
      exact hf.notParam
    operands := fun v hv => by
      rw [heq] at hv
      exact resolves_named_iff.2 (hf.operands v hv)
    targets := by
      rw [heq]
      exact hf.targets }

theorem Regular.named (hm : m.Regular) : m.named.Regular where
  valid := {
    inits := fun v hv w hw => resolves_named_iff.2 (hm.valid.inits v hv w hw)
    funcs := fun f hf => by
      obtain ⟨g, hg, rfl⟩ := List.mem_map.1 (Table.values_map _ m.funcs ▸ hf)
      exact (hm.valid.funcs g hg).named }
  globals := hm.globals
  next := hm.next
  names := by
    have hnames : m.named.funcs.values.map (·.name) = m.funcs.values.map (·.name) := by
      show (m.funcs.map Func.named).values.map (·.name) = _
      rw [Table.values_map, List.map_map]
      exact List.map_congr_left fun f _ => name_named f
    rw [hnames]
    exact hm.names
  external := hm.external
  func f hf := by
    obtain ⟨g, hg, rfl⟩ := List.mem_map.1 (Table.values_map _ m.funcs ▸ hf)
    exact (hm.func g hg).named

theorem Without.globals_eq {n : Module} {dead : List FuncId} (h : m.Without dead n) :
    n.globals = m.globals.map fun v => { v with init := v.init.map (cut dead) } :=
  Table.ext (h.nextGlobal.trans (Table.next_map _ _).symm) fun k => (h.global k).trans (Table.get?_map _ _ _).symm

theorem Regular.without {n : Module} (hm : m.Regular) {dead : List FuncId} (h : m.Without dead n) : n.Regular where
  valid := h.valid hm.valid
  globals := by
    rw [h.globals_eq]
    exact hm.globals.map fun _ => rfl
  next := by
    rw [h.globals_eq, Table.next_map, Table.size_map, hm.next]
  names := by
    have hfuncs : (n.funcs.values.map (·.name)).Sublist (m.funcs.values.map (·.name)) := by
      show n.funcNames.Sublist _
      rw [h.funcNames, Table.values_eq_map_toList, List.map_map]
      exact (List.filter_sublist).map _
    have hglobals : n.globals.values.map (·.name) = m.globals.values.map (·.name) := by
      rw [h.globals_eq, Table.values_map, List.map_map]
      rfl
    rw [hglobals]
    exact hm.names.sublist (hfuncs.append_left _)
  external v hv := by
    rw [h.globals_eq, Table.values_map] at hv
    obtain ⟨w, hw, rfl⟩ := List.mem_map.1 hv
    rw [← hm.external w hw]
    exact Option.map_eq_none_iff
  func f hf := by
    obtain ⟨k, hk⟩ := Table.mem_values.1 hf
    obtain ⟨-, g, hg, rfl⟩ := h.get?_funcs_eq_some_iff.1 hk
    exact (hm.func g (Table.mem_values.2 ⟨k, hg⟩)).mapOperands _

/-- What a removal of dead functions leaves is the module without them. -/
theorem without_of_eliminateVerified {n : Module} {config : Config} {p : Pruned}
    (h : m.eliminateVerified config = (n, .ok p)) : ∃ dead, m.Without dead n := by
  have heliminate : m.eliminate config = .ok p ∧ p.module = n := by
    unfold eliminateVerified at h
    split at h
    · cases h
    · rename_i q hq
      split at h
      · cases h
      · cases h
        exact ⟨hq, rfl⟩
  obtain ⟨heliminate, rfl⟩ := heliminate
  cases hd : m.findDeadFuncs? config with
  | none =>
    rw [eliminate_of_none hd] at heliminate
    cases heliminate
  | some d =>
    obtain ⟨q, hq, -, hprunes⟩ := eliminate_of_some hd
    cases hq.symm.trans heliminate
    exact ⟨d.dead, hprunes.without⟩

end Module

/-- However it was produced, a module is regular. -/
theorem Produced.regular {text : String} {m : Module} (h : Produced text m) : m.Regular := by
  induction h with
  | loaded h => exact Module.regular_of_loadModule h
  | checked mode _ ih => exact ih.named
  | pruned config _ h ih =>
    obtain ⟨dead, hwithout⟩ := Module.without_of_eliminateVerified h
    exact ih.without hwithout

end SSALint
