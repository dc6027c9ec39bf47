/-
Names are bound to their definitions. In a module that was read, every use of a name has the id of what is defined under
the name: local values and blocks are numbered in the order of their definitions, one to one with the ids that the
tables of names gave out by mention, and symbols are the globals and the functions that bear the names. All else in a
function is as it was written, and no other module is (`parseModule_binds`).
-/
import SSALint.Proofs.Source.Accepted
import SSALint.Proofs.Source.Sense

namespace SSALint

namespace Source

/-! ## Renumbering -/

/-- A table renumbers names: the ids that it gave out by mention go one to one to the places of the definitions, each to
the place at which its name is defined. -/
structure NameTable.Renumbers (t : NameTable) (names : List String) : Prop where
  bijective : Set.BijOn t.order.idxOf {id | id < t.mentions.length} {k | k < names.length}
  place : ∀ id m, t.mentions[id]? = some m → names[t.order.idxOf id]? = some m.name

theorem NameTable.Wf.renumbers {t : NameTable} (hw : t.Wf) (hall : ∀ name ∈ t.names, name ∈ t.defined) :
    t.Renumbers t.defined := by
  have hlength : t.names.length = t.mentions.length := List.length_map _
  have hplaces : t.defined.length = t.order.length := List.length_map _
  -- An id has a name, the name is defined, and the definition was recorded under an id of the same name: this one.
  have hmem : ∀ id < t.mentions.length, id ∈ t.order := by
    intro id hid
    rw [← hlength] at hid
    obtain ⟨id', hid', hname⟩ := List.mem_map.1 (hall _ (List.getElem_mem hid))
    rw [← nameOf_of_getElem? (List.getElem?_eq_getElem hid)] at hname
    exact hw.eq_of_nameOf_eq (hw.mentioned id' hid') hid hname ▸ hid'
  refine ⟨⟨fun id hid => ?_, fun i hi j hj h => (List.idxOf_inj (hmem i hi)).1 h, fun k hk => ?_⟩, fun id m hm => ?_⟩
  · rw [Set.mem_ofPred_eq, hplaces]
    exact List.idxOf_lt_length_of_mem (hmem id hid)
  · rw [Set.mem_ofPred_eq, hplaces] at hk
    exact ⟨t.order[k], hlength ▸ hw.mentioned _ (List.getElem_mem hk), hw.nodupOrder.idxOf_getElem k hk⟩
  · have hlt : id < t.names.length := hlength ▸ (List.getElem?_eq_some_iff.1 hm).1
    have hname : t.names[id]? = some m.name := by rw [names, List.getElem?_map, hm]; rfl
    rw [← hw.idxOf_nameOf hlt t.order hw.mentioned, nameOf_of_getElem? hname]
    exact List.getElem?_idxOf (hall _ (List.mem_of_getElem? hname))

/-! ## Bodies -/

/-- What names stand for outside of bodies: symbols for the globals and the functions that bear them. -/
def moduleSense (m : Module) : Sense where
  value _ _ := False
  label _ _ := False
  symbol s sym := m.Bears s.name sym

/-- What names stand for in a body: values for the places of their definitions among those of the body, and labels for
the places of their blocks. -/
def bodySense (m : Module) (h : Head) (blocks : List NamedBlock) : Sense where
  value v x := ((definedValues h blocks).map (·.name.name))[x]? = some v.name
  label l b := (blocks.map (·.name.name))[b]? = some l.name
  symbol s sym := m.Bears s.name sym

/-- A function is what a definition means. No name stands for two things; the function has the local values that the
body defines, and each of its blocks means the block of the text at its place. -/
structure BindsBody (m : Module) (h : Head) (blocks : List NamedBlock) (f : Func) : Prop where
  functional : (bodySense m h blocks).Functional
  params : List.Forall₂ (fun p x => (bodySense m h blocks).value p.name x) h.named f.params
  locals : ∀ x, f.locals.get? x = (definedValues h blocks)[x]?.map fun d => ⟨x, d.type, d.localName?⟩
  blocks : ∀ k, Option.Rel (bodySense m h blocks).MeansBlock blocks[k]? (f.blocks.get? k)

/-- A definition leaves no choice: what it means has one row of parameters, and one local value and one block for each
id. -/
theorem BindsBody.unique {m : Module} {h : Head} {blocks : List NamedBlock} {f f' : Func} (hf : BindsBody m h blocks f)
    (hf' : BindsBody m h blocks f') :
    f.params = f'.params ∧ (∀ x, f.locals.get? x = f'.locals.get? x) ∧ ∀ k, f.blocks.get? k = f'.blocks.get? k := by
  have hparam : Relator.RightUnique fun (p : NamedResult) x => (bodySense m h blocks).value p.name x :=
    fun _ _ _ hx hx' => hf.functional.value hx hx'
  refine ⟨hparam.forall₂ hf.params hf'.params, fun x => (hf.locals x).trans (hf'.locals x).symm, fun k => ?_⟩
  exact rightUnique_optionRel hf.functional.meansBlock (hf.blocks k) (hf'.blocks k)

theorem getElem?_rightUnique {names : List String} (h : names.Nodup) :
    Relator.RightUnique fun (m : Mention) (k : Nat) => names[k]? = some m.name := by
  intro m i j hi hj
  obtain ⟨hlt, hname⟩ := List.getElem?_eq_some_iff.1 hi
  obtain ⟨hlt', hname'⟩ := List.getElem?_eq_some_iff.1 hj
  exact (h.getElem_inj_iff).1 (hname.trans hname'.symm)

end Source

open Source

/-- A name is borne by one global or one function. -/
theorem Module.WellFormed.bears_unique {m : Module} (hm : m.WellFormed) {name : String} {sym sym' : Symbol}
    (h : m.Bears name sym) (h' : m.Bears name sym') : sym = sym' := by
  obtain ⟨hglobals, hfuncs, hne⟩ := List.nodup_append.1 hm.names
  rw [← List.filterMap_eq_map, Table.nodup_filterMap_values_iff] at hglobals hfuncs
  have hdisjoint : ∀ {id id' : Nat} {g : Global} {f : Func}, m.globals.get? id = some g → m.funcs.get? id' = some f →
      g.name ≠ f.name := fun hg hf => hne _ (List.mem_map.2 ⟨_, Table.mem_values.2 ⟨_, hg⟩, rfl⟩) _
        (List.mem_map.2 ⟨_, Table.mem_values.2 ⟨_, hf⟩, rfl⟩)
  cases sym with
  | global id =>
    obtain ⟨g, hg, rfl⟩ := h
    cases sym' with
    | global id' =>
      obtain ⟨g', hg', hname⟩ := h'
      exact congrArg _ (hglobals id id' g g' g.name hg hg' rfl (congrArg some hname))
    | func id' =>
      obtain ⟨f, hf, hname⟩ := h'
      exact absurd hname.symm (hdisjoint hg hf)
  | func id =>
    obtain ⟨f, hf, rfl⟩ := h
    cases sym' with
    | global id' =>
      obtain ⟨g, hg, hname⟩ := h'
      exact absurd hname (hdisjoint hg hf)
    | func id' =>
      obtain ⟨f', hf', hname⟩ := h'
      exact congrArg _ (hfuncs id id' f f' f.name hf hf' rfl (congrArg some hname))

namespace Source

section

variable {m : Module} {h : Head} {blocks : List NamedBlock} {s : Scope} {symbols : NameTable} {order : List Symbol}

theorem Scope.Binds.functional (hs : s.Binds h blocks) (hm : m.WellFormed) : (bodySense m h blocks).Functional where
  value := getElem?_rightUnique (hs.values ▸ hs.wf.values.nodup_defined)
  label := getElem?_rightUnique (hs.labels ▸ hs.wf.labels.nodup_defined)
  symbol _ _ _ := hm.bears_unique

/-- The scope of a body gives the names in it what they stand for. -/
theorem Scope.Binds.keeps (hs : s.Binds h blocks) {b : NamedBlock} (hb : b ∈ blocks)
    (hsymbols : ∀ x, .symbol x ∈ b.operands → m.Bears x.name (Meaning.symbol ⟨s, symbols, order⟩ x)) :
    Meaning.Keeps ⟨s, symbols, order⟩ (bodySense m h blocks) b := by
  have hvalue : ∀ x : Mention, x.name ∈ s.values.defined →
      (bodySense m h blocks).value x (s.values.rank x.name) := by
    intro x hx
    show ((definedValues h blocks).map _)[s.values.rank x.name]? = _
    rw [← hs.values]
    exact NameTable.getElem?_rank hs.wf.values hx
  have hlabel : ∀ x : Mention, x.name ∈ s.labels.defined →
      (bodySense m h blocks).label x (s.labels.rank x.name) := by
    intro x hx
    show (blocks.map _)[s.labels.rank x.name]? = _
    rw [← hs.labels]
    exact NameTable.getElem?_rank hs.wf.labels hx
  refine ⟨hlabel _ ?_, fun r hr => hvalue _ ?_, fun x hx => hvalue x (hs.vars b hb x hx), hsymbols,
    fun x hx => hlabel x (hs.targets b hb x hx)⟩
  · rw [hs.labels]
    exact List.mem_map.2 ⟨b, hb, rfl⟩
  · rw [hs.values]
    exact List.mem_map.2 ⟨r, List.mem_append_right _ (List.mem_flatMap.2 ⟨b, hb, hr⟩), rfl⟩

theorem Scope.Binds.bindsBody (hs : s.Binds h blocks) (hm : m.WellFormed) (id : FuncId)
    (hsymbols : ∀ b ∈ blocks, ∀ x, .symbol x ∈ b.operands → m.Bears x.name (Meaning.symbol ⟨s, symbols, order⟩ x)) :
    BindsBody m h blocks (definedFunc ⟨s, symbols, order⟩ id h blocks) where
  functional := hs.functional hm
  params := by
    refine forall₂_map fun p hp => ?_
    show ((definedValues h blocks).map _)[s.values.rank p.name.name]? = _
    rw [← hs.values]
    refine NameTable.getElem?_rank hs.wf.values ?_
    rw [hs.values]
    exact List.mem_map.2 ⟨p, List.mem_append_left _ hp, rfl⟩
  locals x := by
    show (bodyLocals h blocks).get? x = _
    unfold bodyLocals
    rw [Table.get?_ofValues, List.getElem?_mapIdx]
    rfl
  blocks k := by
    show Option.Rel _ blocks[k]? ((Table.ofValues (blocks.map _)).get? k)
    rw [Table.get?_ofValues, List.getElem?_map]
    cases hb : blocks[k]? with
    | none => exact .none
    | some b =>
      have hb := List.mem_of_getElem? hb
      exact .some (hs.keeps hb (hsymbols b hb)).meansBlock

end

/-! ## Modules -/

/-- The global that an item defines. -/
def Item.global? : Item → Option NamedGlobal
  | .global v => some v
  | _ => none

/-- A function has the name, the result and the kind of parameters that a head states. -/
def Head.States (h : Head) (f : Func) : Prop := f.name = h.name.name ∧ f.ret = h.ret ∧ f.variadic = h.variadic

/-- A global is what its definition means. -/
def BindsGlobal (m : Module) (v : NamedGlobal) (g : Global) : Prop :=
  g.name = v.name.name ∧ g.type = v.type ∧ Option.Rel (moduleSense m).MeansValue v.init g.init

/-- A function is what an item means: a declaration has parameters in their order, without names, and no body, and of a
definition the tables of names renumber the values and the labels. -/
def Item.Binds (m : Module) : Item → Func → Prop
  | .global _, _ => False
  | .declaration h, f =>
    h.States f ∧ f.params = List.range h.params.length ∧ f.isDeclaration = true ∧
      ∀ x, f.locals.get? x = h.params[x]?.map fun p => ⟨x, p.type, none⟩
  | .definition h blocks, f =>
    h.States f ∧ BindsBody m h blocks f ∧ ∃ s, Scope.ofBody h blocks = .ok s ∧
      s.values.Renumbers ((definedValues h blocks).map (·.name.name)) ∧
      s.labels.Renumbers (blocks.map (·.name.name))

/-- The globals and the functions of a module are what items mean, in their order, and no two of them bear one name. -/
structure Binds (items : List Item) (m : Module) : Prop where
  symbols : ∀ name sym sym', m.Bears name sym → m.Bears name sym' → sym = sym'
  globals : List.Forall₂ (BindsGlobal m) (items.filterMap Item.global?) m.globals.values
  funcs : List.Forall₂ (Item.Binds m) (items.filter fun item => item.globalName?.isNone) m.funcs.values

/-- What holds of the global of each item holds of the globals in their order. -/
theorem forall₂_globalsFrom {symbols : NameTable} {order : List Symbol} {R : NamedGlobal → Global → Prop}
    (items : List (Item × Scope)) (n : GlobalId)
    (hR : ∀ id v s, (.global v, s) ∈ items → R v (resolvedGlobal ⟨s, symbols, order⟩ id v)) :
    List.Forall₂ R ((items.map (·.1)).filterMap Item.global?) (globalsFrom symbols order n items) := by
  induction items generalizing n with
  | nil => exact .nil
  | cons item items ih =>
    have htail := fun n => ih n fun id v s hmem => hR id v s (List.mem_cons_of_mem _ hmem)
    obtain ⟨item, s⟩ := item
    cases item with
    | global v => exact .cons (hR n v s List.mem_cons_self) (htail (n + 1))
    | declaration h => exact htail n
    | definition h blocks => exact htail n

namespace Resolved

variable {items : List Item} {symbols : NameTable} {ss : List Scope} {m : Module}
  (hr : Resolved items symbols ss m)

include hr

/-- The symbols in an item stand for the globals and the functions that bear them. -/
theorem bears_of_mem_operands {item : Item} {s : Scope} (hitem : (item, s) ∈ items.zip ss) {x : Mention}
    (hx : .symbol x ∈ item.operands) : m.Bears x.name (Meaning.symbol ⟨s, symbols, symbolsFrom 0 0 items⟩ x) :=
  hr.bears_symbol (hr.used item (List.of_mem_zip hitem).1 x hx) s

theorem bindsGlobal (hproper : ∀ item ∈ items, item.Proper) {v : NamedGlobal} {s : Scope}
    (hitem : (.global v, s) ∈ items.zip ss) (id : GlobalId) :
    BindsGlobal m v (resolvedGlobal ⟨s, symbols, symbolsFrom 0 0 items⟩ id v) := by
  refine ⟨rfl, rfl, ?_⟩
  have hvar := hproper _ (List.of_mem_zip hitem).1
  have hsymbol := fun x => hr.bears_of_mem_operands hitem (x := x)
  show Option.Rel _ v.init (v.init.map _)
  cases hv : v.init with
  | none => exact .none
  | some w =>
    refine .some (Meaning.meansValue_operand (fun x hx => ?_) fun x hx => hsymbol x ?_)
    · -- The grammar lets no local value be an initial value.
      exact absurd (hv.trans (congrArg some hx)) (hvar x)
    · simp [Item.operands, hv, hx]

theorem itemBinds (hm : m.WellFormed) {h : Head} {blocks : List NamedBlock} {s : Scope}
    (hitem : (.definition h blocks, s) ∈ items.zip ss) (id : FuncId) :
    (Item.definition h blocks).Binds m (definedFunc ⟨s, symbols, symbolsFrom 0 0 items⟩ id h blocks) := by
  have hscope : Scope.ofBody h blocks = .ok s := List.forall₂_zip hr.scopes hitem
  have hs : s.Binds h blocks := hr.binds hitem
  obtain ⟨hvalues, hlabels⟩ := Scope.finished_of_ofBody hscope
  refine ⟨⟨rfl, rfl, rfl⟩, hs.bindsBody hm id fun b hb x hx => ?_, s, hscope, ?_, ?_⟩
  · exact hr.bears_of_mem_operands hitem (List.mem_flatMap.2 ⟨b, hb, hx⟩)
  · exact hs.values ▸ hs.wf.values.renumbers hvalues
  · exact hs.labels ▸ hs.wf.labels.renumbers hlabels

theorem bindsItems (hproper : ∀ item ∈ items, item.Proper) : Binds items m where
  symbols _ _ _ := (hr.wellFormed hproper).bears_unique
  globals := by
    have hglobals := forall₂_globalsFrom (items.zip ss) 0 fun id v s hitem => hr.bindsGlobal hproper hitem id
    rw [hr.map_fst_zip] at hglobals
    rw [hr.globals, Table.values_ofValues]
    exact hglobals
  funcs := by
    have hdeclared : ∀ id h, (Item.declaration h).Binds m (declaredFunc id h) := fun id h =>
      ⟨⟨rfl, rfl, rfl⟩, rfl, rfl, fun x => by simp [declaredFunc]⟩
    have hfuncs := forall₂_funcsFrom symbols (symbolsFrom 0 0 items) (items.zip ss) 0 hdeclared
      fun id h blocks s hitem => hr.itemBinds (hr.wellFormed hproper) hitem id
    rw [hr.map_fst_zip] at hfuncs
    rw [hr.funcs, Table.values_ofValues]
    exact hfuncs

theorem packed : m.Packed where
  globals := by rw [hr.globals, Table.next_ofValues, Table.size_ofValues]
  funcs := by rw [hr.funcs, Table.next_ofValues, Table.size_ofValues]
  func f hf := by
    rw [hr.funcs, Table.values_ofValues] at hf
    rcases mem_funcsFrom _ _ hf with ⟨id, head, -, -, rfl⟩ | ⟨id, head, blocks, s, -, rfl⟩
    · exact ⟨rfl, by simp [declaredFunc]⟩
    · exact ⟨by simp [definedFunc], by simp [definedFunc, bodyLocals]⟩

end Resolved

/-! ## Uniqueness -/

section

variable {m n : Module}

theorem bodySense_congr (hbears : n.Bears = m.Bears) : bodySense n = bodySense m := by
  unfold bodySense
  rw [hbears]

theorem moduleSense_congr (hbears : n.Bears = m.Bears) : moduleSense n = moduleSense m := by
  unfold moduleSense
  rw [hbears]

/-- What a body means depends on the names of the symbols alone. -/
theorem BindsBody.congr {h : Head} {blocks : List NamedBlock} {f : Func} (hf : BindsBody n h blocks f)
    (hbears : n.Bears = m.Bears) : BindsBody m h blocks f := by
  obtain ⟨hfunctional, hparams, hlocals, hblocks⟩ := hf
  rw [bodySense_congr hbears] at hfunctional hparams hblocks
  exact ⟨hfunctional, hparams, hlocals, hblocks⟩

theorem Item.Binds.name {item : Item} {f : Func} (hf : item.Binds m f) : item.name.name = f.name := by
  cases item with
  | global v => exact hf.elim
  | declaration h => exact hf.1.1.symm
  | definition h blocks => exact hf.1.1.symm

theorem map_eq_of_forall₂ {α β γ : Type} {R : α → β → Prop} {f : α → γ} {g : β → γ} {xs : List α} {ys : List β}
    (h : List.Forall₂ R xs ys) (hR : ∀ x y, R x y → f x = g y) : xs.map f = ys.map g := by
  rw [← List.forall₂_eq_eq_eq, List.forall₂_map_left_iff, List.forall₂_map_right_iff]
  exact h.imp hR

/-- Modules that items mean give their names to the same ids. -/
theorem Binds.bears_eq {items : List Item} (h : Binds items m) (h' : Binds items n) (hm : m.WellFormed)
    (hn : n.WellFormed) (hpacked : m.Packed) (hpacked' : n.Packed) : n.Bears = m.Bears := by
  have hglobals : n.globals.values.map (·.name) = m.globals.values.map (·.name) :=
    (map_eq_of_forall₂ h'.globals fun v g hg => hg.1.symm).symm.trans
      (map_eq_of_forall₂ h.globals fun v g hg => hg.1.symm)
  have hfuncs : n.funcs.values.map (·.name) = m.funcs.values.map (·.name) :=
    (map_eq_of_forall₂ h'.funcs fun _ _ => Item.Binds.name).symm.trans
      (map_eq_of_forall₂ h.funcs fun _ _ => Item.Binds.name)
  funext name sym
  cases sym with
  | global id =>
    refine propext ((hn.globals.exists_iff hpacked'.globals).trans ?_)
    rw [hglobals]
    exact (hm.globals.exists_iff hpacked.globals).symm
  | func id =>
    refine propext ((hn.funcs.exists_iff hpacked'.funcs).trans ?_)
    rw [hfuncs]
    exact (hm.funcs.exists_iff hpacked.funcs).symm

theorem BindsGlobal.unique {v : NamedGlobal} {g g' : Global}
    (hsymbols : ∀ name sym sym', m.Bears name sym → m.Bears name sym' → sym = sym') (hg : BindsGlobal m v g)
    (hg' : BindsGlobal m v g') (hid : g.id = g'.id) (hexternal : g.init = none ↔ g.external = true)
    (hexternal' : g'.init = none ↔ g'.external = true) : g = g' := by
  have hfunctional : (moduleSense m).Functional :=
    ⟨fun _ _ _ h => h.elim, fun _ _ _ h => h.elim, fun _ _ _ h h' => hsymbols _ _ _ h h'⟩
  have hinit : g.init = g'.init := rightUnique_optionRel hfunctional.meansValue hg.2.2 hg'.2.2
  refine Global.ext hid (hg.1.trans hg'.1.symm) (hg.2.1.trans hg'.2.1.symm) hinit ?_
  rw [Bool.eq_iff_iff, ← hexternal, ← hexternal', hinit]

theorem get?_blocks_of_isDeclaration {f : Func} (hdecl : f.isDeclaration = true) (k : BlockId) :
    f.blocks.get? k = none :=
  Option.eq_none_iff_forall_ne_some.2 fun _ hb =>
    List.ne_nil_of_mem (Table.mem_values.2 ⟨k, hb⟩) (List.eq_nil_of_length_eq_zero (beq_iff_eq.1 hdecl))

/-- Functions of one head that are numbered without gaps are the same if each id leads to the same in both. -/
theorem Head.States.eq_of_get? {h : Head} {f f' : Func} (hs : h.States f) (hs' : h.States f') (hid : f.id = f'.id)
    (hf : f.WellFormed) (hf' : f'.WellFormed) (hpacked : f.Packed) (hpacked' : f'.Packed)
    (hparams : f.params = f'.params) (hlocals : ∀ x, f.locals.get? x = f'.locals.get? x)
    (hblocks : ∀ k, f.blocks.get? k = f'.blocks.get? k) : f = f' := by
  obtain ⟨hname, hret, hvariadic⟩ := hs
  obtain ⟨hname', hret', hvariadic'⟩ := hs'
  refine Func.ext hid (hname.trans hname'.symm) (hret.trans hret'.symm) hparams (hvariadic.trans hvariadic'.symm) ?_ ?_
  · exact hf.locals.ext hf'.locals hpacked.locals hpacked'.locals hlocals
  · exact hf.blocks.ext hf'.blocks hpacked.blocks hpacked'.blocks hblocks

/-- An item leaves no choice: it means one function under each id. -/
theorem Item.Binds.unique {item : Item} {f f' : Func} (h : item.Binds m f) (h' : item.Binds m f')
    (hid : f.id = f'.id) (hf : f.WellFormed) (hf' : f'.WellFormed) (hpacked : f.Packed) (hpacked' : f'.Packed) :
    f = f' := by
  cases item with
  | global v => exact h.elim
  | declaration head =>
    obtain ⟨hstates, hparams, hdecl, hlocals⟩ := h
    obtain ⟨hstates', hparams', hdecl', hlocals'⟩ := h'
    refine hstates.eq_of_get? hstates' hid hf hf' hpacked hpacked' (hparams.trans hparams'.symm)
      (fun x => (hlocals x).trans (hlocals' x).symm) fun k => ?_
    rw [get?_blocks_of_isDeclaration hdecl, get?_blocks_of_isDeclaration hdecl']
  | definition head blocks =>
    obtain ⟨hstates, hbody, -⟩ := h
    obtain ⟨hstates', hbody', -⟩ := h'
    obtain ⟨hparams, hlocals, hblocks⟩ := hbody.unique hbody'
    exact hstates.eq_of_get? hstates' hid hf hf' hpacked hpacked' hparams hlocals hblocks

theorem Item.Binds.congr {item : Item} {f : Func} (h : item.Binds n f) (hbears : n.Bears = m.Bears) :
    item.Binds m f := by
  cases item with
  | global v => exact h.elim
  | declaration head => exact h
  | definition head blocks => exact ⟨h.1, h.2.1.congr hbears, h.2.2⟩

/-- Of the modules that are numbered without gaps the items of a program mean one at most. -/
theorem Binds.unique {items : List Item} (h : Binds items m) (h' : Binds items n) (hm : m.WellFormed)
    (hn : n.WellFormed) (hpacked : m.Packed) (hpacked' : n.Packed) : n = m := by
  have hbears := h.bears_eq h' hm hn hpacked hpacked'
  refine Module.ext ?_ ?_
  · refine hn.globals.eq_of_forall₂ hm.globals hpacked'.globals hpacked.globals h'.globals h.globals
      fun v g hg g' hg' hid hv hv' => ?_
    unfold BindsGlobal at hv
    rw [moduleSense_congr hbears] at hv
    exact BindsGlobal.unique h.symbols hv hv' hid (hn.external g hg) (hm.external g' hg')
  · refine hn.funcs.eq_of_forall₂ hm.funcs hpacked'.funcs hpacked.funcs h'.funcs h.funcs
      fun item f hf f' hf' hid hi hi' => ?_
    exact (hi.congr hbears).unique hi' hid (hn.func f hf) (hm.func f' hf') (hpacked'.func f hf) (hpacked.func f' hf')

end

end Source

/-- A text that is read is a program whose names are bound to their definitions. Of all modules that are numbered
without gaps, and tell their names apart, the module that is read is the only one of which this is true. -/
theorem parseModule_binds {text : String} {m : Module} (h : parseModule text = .ok m) :
    ∃ items, program text.toList = .ok (items, []) ∧ Binds items m ∧ m.WellFormed ∧ m.Packed ∧
      ∀ n : Module, Binds items n → n.WellFormed → n.Packed → n = m := by
  obtain ⟨items, r, hprogram, hresolve⟩ := read_eq_ok_iff.1 (parseModule_eq_ok_iff.1 h)
  obtain ⟨rfl, -, hproper⟩ := program_spec hprogram
  obtain ⟨symbols, ss, hr⟩ := resolved_of_resolve hresolve
  have hbinds : Binds items m := hr.bindsItems hproper
  have hm : m.WellFormed := hr.wellFormed hproper
  exact ⟨items, hprogram, hbinds, hm, hr.packed,
    fun n hn hwf hpacked => hbinds.unique hn hm hwf hr.packed hpacked⟩

/-- Values, labels and symbols are used before they are defined, and in another order. -/
def crossedText : String :=
  "@p = global ptr @f\ndefine i1 @f(i1 %c) \x7b\na:\n  br label %d\nb:\n  ret i1 %y\nd:\n" ++
    "  %x = phi i1 [ %c, %a ], [ %y, %d ]\n  %y = call i1 @f(i1 %x)\n  br i1 %y, label %b, label %d\n\x7d\n"

/-- The module of `crossedText`. -/
def crossedModule : Module where
  globals := .ofValues [⟨0, "p", .ptr, some (.symbol (.func 0)), false⟩]
  funcs := .ofValues [{
    id := 0, name := "f", ret := .int 1, params := [0], variadic := false
    locals := .ofValues [⟨0, .int 1, some "c"⟩, ⟨1, .int 1, some "x"⟩, ⟨2, .int 1, some "y"⟩]
    blocks := .ofValues [⟨0, some "a", [], .br 2⟩, ⟨1, some "b", [], .ret (some (.var 2))⟩,
      ⟨2, some "d", [⟨some 1, .phi (.int 1) [(.var 0, 0), (.var 2, 2)]⟩,
        ⟨some 2, .call (.int 1) (.symbol (.func 0)) [.var 1]⟩], .condBr (.var 2) 1 2⟩] }]

theorem binds_crossedModule : parseModule crossedText = .ok crossedModule ∧
    ∃ items, program crossedText.toList = .ok (items, []) ∧ Binds items crossedModule ∧ crossedModule.WellFormed ∧
      crossedModule.Packed ∧ ∀ n : Module, Binds items n → n.WellFormed → n.Packed → n = crossedModule := by
  have h : parseModule crossedText = .ok crossedModule := Outcome.toOption_eq_some_iff.1 (by decide +kernel)
  exact ⟨h, parseModule_binds h⟩

end SSALint
