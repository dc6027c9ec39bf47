/-
Resolved programs. Where names resolve, the symbols are the names of the items in the order of the text,
none of them stands twice, every symbol that is used is among them, and every body has a scope; the module
lists its globals and its functions in the order of the items that define them (`resolved_of_resolve`).
-/
import SSALint.Proofs.Source.Scope
import SSALint.Proofs.Table

namespace SSALint.Source

/-! ## Symbols -/

/-- The names of the symbols among operands. -/
def symbolNames (operands : List NamedValue) : List String :=
  (operands.filterMap Operand.symbol?).map (·.name)

theorem mem_symbolNames {operands : List NamedValue} {name : String} :
    name ∈ symbolNames operands ↔ ∃ m, .symbol m ∈ operands ∧ m.name = name := by
  have hsymbol (v : NamedValue) (m : Mention) : v.symbol? = some m ↔ v = .symbol m := by
    cases v <;> simp [Operand.symbol?]
  simp [symbolNames, hsymbol]

theorem scopes_spec {t t' : NameTable} {items : List Item} {ss : List Scope} (hw : t.Wf)
    (h : scopes t items = .ok (t', ss)) :
    t.Grown (items.flatMap fun i => symbolNames i.operands) (items.map (·.name.name)) t' ∧
      List.Forall₂ (fun item s => item.scope = .ok s) items ss := by
  induction items generalizing t ss with
  | nil =>
    cases h
    exact ⟨.refl hw, .nil⟩
  | cons item items ih =>
    obtain ⟨s, hs, h⟩ := Outcome.bind_eq_ok_iff.1 h
    obtain ⟨⟨t₁, id⟩, hdef, h⟩ := Outcome.bind_eq_ok_iff.1 h
    obtain ⟨⟨t₂, others⟩, hrest, h⟩ := Outcome.bind_eq_ok_iff.1 h
    cases h
    have huse := NameTable.grown_mentions hw (item.operands.filterMap Operand.symbol?)
    have hname := huse.trans (NameTable.grown_define huse.wf hdef)
    obtain ⟨hgrown, hscopes⟩ := ih hname.wf hrest
    refine ⟨?_, .cons hs hscopes⟩
    simpa [symbolNames] using hname.trans hgrown

/-! ## Globals and functions -/

/-- The global of an item. -/
def resolvedGlobal (g : Meaning) (id : GlobalId) (v : NamedGlobal) : Global where
  id := id
  name := v.name.name
  type := v.type
  init := v.init.map g.operand
  external := v.init.isNone

section

variable (symbols : NameTable) (order : List Symbol)

/-- The globals of items in their scopes, given the id that comes next. -/
def globalsFrom : (next : GlobalId) → List (Item × Scope) → List Global
  | _, [] => []
  | next, (.global v, s) :: items => resolvedGlobal ⟨s, symbols, order⟩ next v :: globalsFrom (next + 1) items
  | next, _ :: items => globalsFrom next items

/-- The functions of items in their scopes, given the id that comes next. -/
def funcsFrom : (next : FuncId) → List (Item × Scope) → List Func
  | _, [] => []
  | next, (.global _, _) :: items => funcsFrom next items
  | next, (.declaration h, _) :: items => declaredFunc next h :: funcsFrom (next + 1) items
  | next, (.definition h blocks, s) :: items =>
    definedFunc ⟨s, symbols, order⟩ next h blocks :: funcsFrom (next + 1) items

theorem foldl_addItem (items : List (Item × Scope)) (gs : List Global) (fs : List Func) :
    items.foldl (addItem symbols order) ⟨.ofValues gs, .ofValues fs⟩ =
      ⟨.ofValues (gs ++ globalsFrom symbols order gs.length items),
        .ofValues (fs ++ funcsFrom symbols order fs.length items)⟩ := by
  induction items generalizing gs fs with
  | nil => simp [globalsFrom, funcsFrom]
  | cons item items ih =>
    obtain ⟨item, s⟩ := item
    cases item with
    | global v =>
      have hadd : addItem symbols order ⟨.ofValues gs, .ofValues fs⟩ (.global v, s) =
          ⟨.ofValues (gs ++ [resolvedGlobal ⟨s, symbols, order⟩ gs.length v]), .ofValues fs⟩ := by
        simp only [addItem, Table.pushWith_ofValues]
        rfl
      rw [List.foldl_cons, hadd, ih]
      simp [globalsFrom, funcsFrom]
    | declaration h =>
      have hadd : addItem symbols order ⟨.ofValues gs, .ofValues fs⟩ (.declaration h, s) =
          ⟨.ofValues gs, .ofValues (fs ++ [declaredFunc fs.length h])⟩ := by
        simp only [addItem, Table.pushWith_ofValues]
      rw [List.foldl_cons, hadd, ih]
      simp [globalsFrom, funcsFrom]
    | definition h blocks =>
      have hadd : addItem symbols order ⟨.ofValues gs, .ofValues fs⟩ (.definition h blocks, s) =
          ⟨.ofValues gs, .ofValues (fs ++ [definedFunc ⟨s, symbols, order⟩ fs.length h blocks])⟩ := by
        simp only [addItem, Table.pushWith_ofValues]
      rw [List.foldl_cons, hadd, ih]
      simp [globalsFrom, funcsFrom]

end

/-! ## Resolved programs -/

/-- A module is what items stand for, given their symbols and their scopes. -/
structure Resolved (items : List Item) (symbols : NameTable) (ss : List Scope) (m : Module) : Prop where
  wf : symbols.Wf
  defined : symbols.defined = items.map (·.name.name)
  used : ∀ item ∈ items, ∀ s, .symbol s ∈ item.operands → s.name ∈ symbols.defined
  scopes : List.Forall₂ (fun item s => item.scope = .ok s) items ss
  globals : m.globals = .ofValues (globalsFrom symbols (symbolsFrom 0 0 items) 0 (items.zip ss))
  funcs : m.funcs = .ofValues (funcsFrom symbols (symbolsFrom 0 0 items) 0 (items.zip ss))

theorem resolved_of_resolve {items : List Item} {m : Module} (h : resolve items = .ok m) :
    ∃ symbols ss, Resolved items symbols ss m := by
  unfold resolve at h
  obtain ⟨⟨symbols, ss⟩, hscopes, h⟩ := Outcome.bind_eq_ok_iff.1 h
  obtain ⟨order, hfinish, h⟩ := Outcome.bind_eq_ok_iff.1 h
  obtain ⟨hgrown, hforall⟩ := scopes_spec NameTable.wf_empty hscopes
  have hm := foldl_addItem symbols (symbolsFrom 0 0 items) (items.zip ss) [] []
  cases h
  refine ⟨symbols, ss, hgrown.wf, hgrown.defined, fun item hitem s hs => ?_, hforall, ?_, ?_⟩
  · refine NameTable.mem_defined_of_finish hfinish (hgrown.used _ ?_)
    exact List.mem_flatMap.2 ⟨item, hitem, mem_symbolNames.2 ⟨s, hs, rfl⟩⟩
  · exact congrArg Module.globals hm
  · exact congrArg Module.funcs hm

end SSALint.Source
