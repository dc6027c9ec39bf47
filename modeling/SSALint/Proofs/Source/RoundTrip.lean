/-
Reading what was printed. The program of a canonical module is closed, and what it resolves to is the module again;
so the text of such a module, if no terminator looks like another, is parsed to the very same module
(`Module.Canonical.parse_print`).
-/
import SSALint.Proofs.Source.Accepted
import SSALint.Proofs.Source.Canonical

namespace SSALint

open Source

/-! ## Symbols -/

theorem names_items (m : Module) :
    m.items.map (·.name.name) = m.globals.values.map (·.name) ++ m.funcs.values.map (·.name) := by
  have hfunc : ∀ f : Func, (f.item m).name.name = f.name := fun f => by
    unfold Func.item
    split <;> rfl
  unfold Module.items
  rw [List.map_append, List.map_map, List.map_map]
  exact congrArg₂ _ rfl (List.map_congr_left fun f _ => hfunc f)

theorem symbolsFrom_globals (items : List Item) (vs : List NamedGlobal) (n : GlobalId) (k : FuncId) :
    symbolsFrom n k (vs.map .global ++ items) =
      (List.range' n vs.length).map .global ++ symbolsFrom (n + vs.length) k items := by
  induction vs generalizing n with
  | nil => rfl
  | cons v vs ih => simp [symbolsFrom, ih, List.range'_succ, Nat.add_comm, Nat.add_left_comm]

theorem symbolsFrom_funcs (m : Module) (fs : List Func) (n : GlobalId) (k : FuncId) :
    symbolsFrom n k (fs.map (Func.item m)) = (List.range' k fs.length).map .func := by
  induction fs generalizing k with
  | nil => rfl
  | cons f fs ih =>
    have hcons : symbolsFrom n k (f.item m :: fs.map (Func.item m)) =
        .func k :: symbolsFrom n (k + 1) (fs.map (Func.item m)) := by
      unfold Func.item
      split <;> rfl
    rw [List.map_cons, hcons, ih]
    rfl

theorem symbolsFrom_items (m : Module) : symbolsFrom 0 0 m.items =
    (List.range' 0 m.globals.values.length).map .global ++ (List.range' 0 m.funcs.values.length).map .func := by
  have hglobals : m.globals.values.map (fun v => Item.global (Names.namedGlobal ⟨m, none⟩ v)) =
      (m.globals.values.map (Names.namedGlobal ⟨m, none⟩)).map .global := by
    rw [List.map_map]
    rfl
  unfold Module.items
  rw [hglobals, symbolsFrom_globals, symbolsFrom_funcs, List.length_map]

/-! ## Closed programs -/

namespace Module.Canonical

variable {m : Module} (hm : m.Canonical)

include hm

theorem eq_globals : m.globals = .ofValues m.globals.values := hm.wellFormed.globals.eq_ofValues hm.globals

theorem eq_funcs : m.funcs = .ofValues m.funcs.values := hm.wellFormed.funcs.eq_ofValues hm.funcs

/-- A symbol stands where its name does. -/
theorem getElem?_symbol {f : Option Func} {s : Symbol} (hs : m.Resolves f (.symbol s)) (f' : Option Func) :
    ∃ i : Nat, (m.items.map (·.name.name))[i]? = some (Names.symbolText ⟨m, f'⟩ s) ∧
      (symbolsFrom 0 0 m.items)[i]? = some s := by
  rw [names_items, symbolsFrom_items]
  cases s with
  | global g =>
    obtain ⟨v, hv⟩ := Table.contains_iff.1 hs
    have htext : Names.symbolText ⟨m, f'⟩ (.global g) = v.name := by
      show ((m.globals.get? g).map (·.name)).getD _ = _
      rw [hv]
      rfl
    rw [hm.eq_globals, Table.get?_ofValues] at hv
    have hg : g < m.globals.values.length := (List.getElem?_eq_some_iff.1 hv).1
    refine ⟨g, ?_, ?_⟩
    · rw [List.getElem?_append_left (by simpa using hg), List.getElem?_map, hv, htext]
      rfl
    · rw [List.getElem?_append_left (by simpa using hg), List.getElem?_map, List.getElem?_range' hg]
      simp
  | func k =>
    obtain ⟨v, hv⟩ := Table.contains_iff.1 hs
    have htext : Names.symbolText ⟨m, f'⟩ (.func k) = v.name := by
      show ((m.funcs.get? k).map (·.name)).getD _ = _
      rw [hv]
      rfl
    rw [hm.eq_funcs, Table.get?_ofValues] at hv
    have hk : k < m.funcs.values.length := (List.getElem?_eq_some_iff.1 hv).1
    refine ⟨m.globals.values.length + k, ?_, ?_⟩
    · rw [List.getElem?_append_right (by simp), List.length_map, Nat.add_sub_cancel_left, List.getElem?_map, hv, htext]
      rfl
    · rw [List.getElem?_append_right (by simp), List.length_map, List.length_range', Nat.add_sub_cancel_left,
        List.getElem?_map, List.getElem?_range' hk]
      simp

theorem name_mem_of_symbol {f : Option Func} {v : Value} (hv : m.Resolves f v) {f' : Option Func} {s : Mention}
    (hs : Names.namedValue ⟨m, f'⟩ v = .symbol s) : s.name ∈ m.items.map (·.name.name) := by
  cases v with
  | symbol sym =>
    cases hs
    obtain ⟨i, hi, -⟩ := hm.getElem?_symbol hv f'
    exact List.mem_of_getElem? hi
  | var x => cases hs
  | const c => cases hs

end Module.Canonical

theorem operands_namedBlock (n : Names) (b : Block) : (n.namedBlock b).operands = b.operands.map n.namedValue := by
  simp only [NamedBlock.operands, Names.namedBlock, Names.namedInstr, Names.namedOperation, Names.namedTerminator,
    Block.operands, Instr.operands, List.flatMap_map, List.map_append, List.map_flatMap,
    Operation.operands_mapTargets, Operation.operands_mapOperands, Terminator.operands_mapTargets,
    Terminator.operands_mapOperands, mapIdx_const]

theorem targets_namedBlock (n : Names) (b : Block) : (n.namedBlock b).targets = b.targets.map n.namedLabel := by
  simp only [NamedBlock.targets, Names.namedBlock, Names.namedInstr, Names.namedOperation, Names.namedTerminator,
    Block.targets, Instr.targets, List.flatMap_map, List.map_append, List.map_flatMap, Operation.targets_mapTargets,
    Operation.targets_mapOperands, Terminator.targets_mapTargets, Terminator.targets_mapOperands, mapIdx_const]

/-- Local values are told apart by what they are called in a text. -/
theorem Func.WellFormed.localText_inj {m : Module} {f : Func} (hf : f.WellFormed) {x y : LocalId} {l l' : Local}
    (hx : f.locals.get? x = some l) (hy : f.locals.get? y = some l')
    (h : Names.localText ⟨m, f⟩ x = Names.localText ⟨m, f⟩ y) : x = y := by
  have hname : l.name = l'.name := by
    rw [← hf.localName (m := m) hx, ← hf.localName (m := m) hy, h]
  cases hl : l.name with
  | some name => exact Table.nodup_filterMap_values_iff.1 hf.localNames x y l l' name hx hy hl (hname ▸ hl)
  | none =>
    rw [localText_of_get? hx, localText_of_get? hy, ← hname, hl] at h
    exact Nat.repr_injective h

section
variable {m : Module} {f : Func} (hf : f.WellFormed) (hc : f.Canonical)

include hf hc

/-- The body of a function is closed. -/
theorem Func.Canonical.closedBody (hm : m.ValidFunc f) (hdecl : f.isDeclaration = false) :
    ClosedBody (f.head m) (f.blocks.values.map (Names.namedBlock ⟨m, f⟩)) where
  values := by
    rw [hf.definedValues_eq hdecl, List.map_map]
    have hget : ∀ x ∈ List.range f.locals.values.length, ∃ l, f.locals.get? x = some l := fun x hx =>
      ⟨_, (hc.get?_locals hf x).trans (List.getElem?_eq_getElem (List.mem_range.1 hx))⟩
    refine List.Nodup.map_on (fun x hx y hy h => ?_) List.nodup_range
    obtain ⟨l, hl⟩ := hget x hx
    obtain ⟨l', hl'⟩ := hget y hy
    exact hf.localText_inj hl hl' h
  labels := by
    have hlabels : (f.blocks.values.map (Names.namedBlock ⟨m, f⟩)).map (·.name.name) =
        f.blocks.values.filterMap (·.label) := by
      rw [List.map_map, List.filterMap_congr fun b hb => label_of_get? (m := m) (hf.get?_id hb) (hc.labelled b hb)]
      exact List.filterMap_eq_map.symm ▸ rfl
    rw [hlabels]
    exact hf.labels
  vars := by
    intro b hb x hx
    obtain ⟨c, hcm, rfl⟩ := List.mem_map.1 hb
    rw [operands_namedBlock] at hx
    obtain ⟨v, hv, hvx⟩ := List.mem_map.1 hx
    cases v with
    | var y =>
      cases hvx
      obtain ⟨_, ⟨rfl⟩, hy⟩ := hm.operands _ (List.mem_flatMap.2 ⟨c, hcm, hv⟩)
      exact List.mem_of_getElem? (hc.getElem?_definedValues hf hdecl hy)
    | symbol s => cases hvx
    | const c => cases hvx
  targets := by
    intro b hb t ht
    obtain ⟨c, hcm, rfl⟩ := List.mem_map.1 hb
    rw [targets_namedBlock] at ht
    obtain ⟨target, htarget, rfl⟩ := List.mem_map.1 ht
    exact List.mem_of_getElem? (hc.getElem?_labels hf (hm.targets c hcm target htarget))

end

/-! ## Globals and functions in turn -/

section
variable (symbols : NameTable) (order : List Symbol)

/-- Globals at the head of a program are made again, if each one is. -/
theorem globalsFrom_globals {n : Names} : ∀ {vs : List Global} {ss : List Scope} {k : GlobalId} (items : List Item),
    vs.length ≤ ss.length → vs.map (·.id) = List.range' k vs.length →
    (∀ v ∈ vs, ∀ s, resolvedGlobal ⟨s, symbols, order⟩ v.id (n.namedGlobal v) = v) →
    globalsFrom symbols order k ((vs.map (fun v => Item.global (n.namedGlobal v)) ++ items).zip ss) =
      vs ++ globalsFrom symbols order (k + vs.length) (items.zip (ss.drop vs.length))
  | [], _, _, _, _, _, _ => rfl
  | v :: vs, [], _, _, hlength, _, _ => absurd hlength (Nat.not_succ_le_zero _)
  | v :: vs, s :: ss, k, items, hlength, hids, h => by
    rw [List.map_cons, List.length_cons, List.range'_succ] at hids
    obtain ⟨hid, hids⟩ := List.cons.inj hids
    obtain ⟨hv, hvs⟩ := List.forall_mem_cons.1 h
    have ih := globalsFrom_globals items (Nat.le_of_succ_le_succ hlength) hids hvs
    rw [Nat.add_right_comm, Nat.add_assoc] at ih
    exact congrArg₂ List.cons (hid ▸ hv s) ih

theorem funcsFrom_globals {n : Names} : ∀ {vs : List Global} {ss : List Scope} (k : FuncId) (items : List Item),
    vs.length ≤ ss.length →
    funcsFrom symbols order k ((vs.map (fun v => Item.global (n.namedGlobal v)) ++ items).zip ss) =
      funcsFrom symbols order k (items.zip (ss.drop vs.length))
  | [], _, _, _, _ => rfl
  | v :: vs, [], _, _, hlength => absurd hlength (Nat.not_succ_le_zero _)
  | v :: vs, s :: ss, k, items, hlength => by
    have hle : vs.length ≤ ss.length := Nat.le_of_succ_le_succ hlength
    have ih := funcsFrom_globals (n := n) k items hle
    exact ih

variable {m : Module}

theorem globalsFrom_funcs : ∀ (fs : List Func) (ss : List Scope) (k : GlobalId),
    globalsFrom symbols order k ((fs.map (Func.item m)).zip ss) = []
  | [], _, _ => rfl
  | _ :: _, [], _ => rfl
  | f :: fs, s :: ss, k => by
    have ih := globalsFrom_funcs fs ss k
    rw [List.map_cons, Func.item]
    split
    · exact ih
    · exact ih

/-- Functions at the end of a program are made again, if each one is in its scope. -/
theorem funcsFrom_funcs : ∀ {fs : List Func} {ss : List Scope} {k : FuncId}, fs.length = ss.length →
    fs.map (·.id) = List.range' k fs.length →
    (∀ p ∈ fs.zip ss, funcsFrom symbols order p.1.id [(p.1.item m, p.2)] = [p.1]) →
    funcsFrom symbols order k ((fs.map (Func.item m)).zip ss) = fs
  | [], _, _, _, _, _ => rfl
  | f :: fs, [], _, hlength, _, _ => absurd hlength (Nat.succ_ne_zero _)
  | f :: fs, s :: ss, k, hlength, hids, h => by
    rw [List.map_cons, List.length_cons, List.range'_succ] at hids
    obtain ⟨hid, hids⟩ := List.cons.inj hids
    obtain ⟨hf, hfs⟩ := List.forall_mem_cons.1 h
    have ih := funcsFrom_funcs (Nat.succ.inj hlength) hids hfs
    have hf : funcsFrom symbols order f.id [(f.item m, s)] = [f] := hf
    rw [hid] at hf
    have hcons : funcsFrom symbols order k ((f.item m, s) :: (fs.map (Func.item m)).zip ss) =
        funcsFrom symbols order k [(f.item m, s)] ++
          funcsFrom symbols order (k + 1) ((fs.map (Func.item m)).zip ss) := by
      unfold Func.item
      split <;> rfl
    exact hcons.trans (by rw [hf, ih]; rfl)

end

/-! ## Modules -/

/-- The text of a module is parsed to the very same module. -/
def Module.ReadsBack (m : Module) : Prop := ∃ text, m.text = .ok text ∧ parseModule text = .ok m

/-- A module that keeps the rules can be printed. -/
theorem Module.Valid.exists_text {m : Module} (hm : m.Valid) : ∃ text, m.text = .ok text := by
  obtain ⟨text, hprint, -⟩ := Module.print_eq fun f hf => (hm.funcs f hf).params
  refine ⟨text, ?_⟩
  unfold Module.text
  rw [hprint]

/-- A function has the scope of its item, behind those of the globals. -/
theorem mem_zip_items {m : Module} {ss : List Scope} {f : Func} {s : Scope}
    (h : (f, s) ∈ m.funcs.values.zip (ss.drop m.globals.values.length)) : (f.item m, s) ∈ m.items.zip ss := by
  obtain ⟨k, hk, hget⟩ := List.getElem_of_mem h
  rw [List.getElem_zip, List.getElem_drop] at hget
  obtain ⟨hf, hs⟩ := Prod.mk.inj hget
  rw [List.length_zip, List.length_drop] at hk
  refine List.mem_iff_getElem.2 ⟨m.globals.values.length + k, ?_, ?_⟩
  · simp only [Module.items, List.length_zip, List.length_append, List.length_map]
    omega
  · rw [List.getElem_zip, hs]
    simp [Module.items, hf]

namespace Module.Canonical

variable {m : Module} (hm : m.Canonical)

include hm

theorem closed : Closed m.items where
  names := by
    rw [names_items]
    exact hm.wellFormed.names
  symbols := by
    intro item hitem s hs
    rcases List.mem_append.1 hitem with hitem | hitem
    · obtain ⟨v, hv, rfl⟩ := List.mem_map.1 hitem
      have hs : Operand.symbol s ∈ (v.init.map (Names.namedValue ⟨m, none⟩)).toList := hs
      obtain ⟨w, hw, hws⟩ := Option.map_eq_some_iff.1 (Option.mem_toList.1 hs)
      exact hm.name_mem_of_symbol (hm.valid.inits v hv w hw) hws
    · obtain ⟨f, hf, rfl⟩ := List.mem_map.1 hitem
      unfold Func.item at hs
      split at hs
      · cases hs
      · obtain ⟨b, hb, hs⟩ := List.mem_flatMap.1 hs
        obtain ⟨c, hc, rfl⟩ := List.mem_map.1 hb
        have hs : Operand.symbol s ∈ (Names.namedBlock ⟨m, f⟩ c).operands := hs
        rw [operands_namedBlock] at hs
        obtain ⟨w, hw, hws⟩ := List.mem_map.1 hs
        exact hm.name_mem_of_symbol ((hm.valid.funcs f hf).operands w (List.mem_flatMap.2 ⟨c, hc, hw⟩)) hws
  bodies := by
    intro h blocks hitem
    rcases List.mem_append.1 hitem with hitem | hitem
    · obtain ⟨v, hv, hitem⟩ := List.mem_map.1 hitem
      cases hitem
    · obtain ⟨f, hf, hitem⟩ := List.mem_map.1 hitem
      unfold Func.item at hitem
      split at hitem
      · cases hitem
      · rename_i hdecl
        cases hitem
        exact (hm.func f hf).closedBody (hm.wellFormed.func f hf) (hm.valid.funcs f hf) (Bool.eq_false_iff.2 hdecl)

/-- A meaning in which the symbols stand for what they stand for in a module undoes their names. -/
theorem symbol_undone {g : Meaning} (hw : g.symbols.Wf) (hdefined : g.symbols.defined = m.items.map (·.name.name))
    (horder : g.order = symbolsFrom 0 0 m.items) {f : Option Func} {s : Symbol} (hs : m.Resolves f (.symbol s))
    (f' : Option Func) : g.symbol (.of (Names.symbolText ⟨m, f'⟩ s)) = s := by
  obtain ⟨i, hname, hsymbol⟩ := hm.getElem?_symbol hs f'
  have hrank : g.symbols.rank (Names.symbolText ⟨m, f'⟩ s) = i :=
    NameTable.rank_of_getElem? hw (by rw [hdefined]; exact hname)
  show g.order.getD (g.symbols.rank (Names.symbolText ⟨m, f'⟩ s)) default = s
  rw [hrank, horder, List.getD_eq_getElem?_getD, hsymbol]
  rfl

/-- A global is made again from its item. -/
theorem resolvedGlobal_eq {g : Meaning} (hg : g.Undoes ⟨m, none⟩) {v : Global} (hv : v ∈ m.globals.values) :
    resolvedGlobal g v.id (Names.namedGlobal ⟨m, none⟩ v) = v := by
  have hinit : (v.init.map (Names.namedValue ⟨m, none⟩)).map g.operand = v.init := by
    cases hw : v.init with
    | none => rfl
    | some w => exact congrArg some (hg.operand (hm.valid.inits v hv w hw))
  have hexternal : (v.init.map (Names.namedValue ⟨m, none⟩)).isNone = v.external := by
    rw [Option.isNone_map, Bool.eq_iff_iff, Option.isNone_iff_eq_none, hm.wellFormed.external v hv]
  unfold resolvedGlobal
  exact (congrArg₂ (Global.mk v.id v.name v.type) hinit hexternal)

/-- A function is made again from its item, in the scope of its body. -/
theorem funcsFrom_item {f : Func} (hf : f ∈ m.funcs.values) {s : Scope} {symbols : NameTable} {order : List Symbol}
    (hscope : f.isDeclaration = false → s.Wf ∧
      s.values.defined = (definedValues (f.head m) (f.blocks.values.map (Names.namedBlock ⟨m, f⟩))).map (·.name.name) ∧
      s.labels.defined = (f.blocks.values.map (Names.namedBlock ⟨m, f⟩)).map (·.name.name))
    (hsymbol : ∀ sym, m.Resolves f (.symbol sym) →
      Meaning.symbol ⟨s, symbols, order⟩ (.of (Names.symbolText ⟨m, f⟩ sym)) = sym) :
    funcsFrom symbols order f.id [(f.item m, s)] = [f] := by
  have hw := hm.wellFormed.func f hf
  have hc := hm.func f hf
  cases hdecl : f.isDeclaration with
  | true =>
    rw [Func.item, if_pos hdecl]
    exact congrArg (fun f => [f]) (hc.declaredFunc_eq hw m hdecl)
  | false =>
    obtain ⟨hs, hvalues, hlabels⟩ := hscope hdecl
    have hundoes := hc.undoes hw hs hvalues hlabels hdecl hsymbol
    rw [Func.item, if_neg (by rw [hdecl]; exact Bool.false_ne_true)]
    exact congrArg (fun f => [f]) (hc.definedFunc_eq hw hundoes (hm.valid.funcs f hf) hdecl)

/-- What the program of a canonical module resolves to, wherever its names stand, is the module. -/
theorem resolve_eq {items : List Item} (hitems : items.map .bare = m.items) : resolve items = .ok m := by
  obtain ⟨m', hresolve⟩ := exists_resolve_iff.2 (closed_of_bare (hitems ▸ hm.closed))
  obtain ⟨symbols, ss, hr⟩ := resolved_of_resolve hresolve
  have hdefined : symbols.defined = m.items.map (·.name.name) := by
    rw [hr.defined, ← hitems, names_bare]
  have horder : symbolsFrom 0 0 items = symbolsFrom 0 0 m.items := by
    rw [← hitems, symbolsFrom_bare]
  have hlength : m.globals.values.length + m.funcs.values.length = ss.length := by
    rw [← hr.scopes.length_eq, ← List.length_map (f := Item.bare), hitems]
    simp [Module.items]
  have hsymbol : ∀ (scope : Scope) (f f' : Option Func) (s : Symbol), m.Resolves f (.symbol s) →
      Meaning.symbol ⟨scope, symbols, symbolsFrom 0 0 m.items⟩ (.of (Names.symbolText ⟨m, f'⟩ s)) = s :=
    fun _ _ f' _ hs => hm.symbol_undone hr.wf hdefined rfl hs f'
  have hglobals : m'.globals = m.globals := by
    rw [hr.globals, ← globalsFrom_bare, horder, hitems, Module.items, globalsFrom_globals symbols _ _ (by omega),
      globalsFrom_funcs, List.append_nil, ← hm.eq_globals]
    · exact hm.wellFormed.globals.map_key hm.globals
    · intro v hv s
      refine hm.resolvedGlobal_eq ⟨?_, ?_, fun sym hs => hsymbol s none none sym hs⟩ hv
      · rintro f ⟨⟩
      · rintro f ⟨⟩
  have hfuncs : m'.funcs = m.funcs := by
    rw [hr.funcs, ← funcsFrom_bare, horder, hitems, Module.items, funcsFrom_globals symbols _ _ _ (by omega),
      funcsFrom_funcs symbols _ (by simp; omega), ← hm.eq_funcs]
    · exact hm.wellFormed.funcs.map_key hm.funcs
    · rintro ⟨f, s⟩ hmem
      refine hm.funcsFrom_item (List.of_mem_zip hmem).1 (fun hdecl => ?_) fun sym hs => hsymbol s f f sym hs
      have hitem : (f.item m, s) ∈ (items.map Item.bare).zip ss := by
        rw [hitems]
        exact mem_zip_items hmem
      rw [Func.item, if_neg (by rw [hdecl]; exact Bool.false_ne_true)] at hitem
      exact defined_of_bare hr.scopes hitem
  rw [hresolve]
  obtain ⟨globals, funcs⟩ := m'
  exact congrArg₂ (fun gs fs => Except.ok (Module.mk gs fs)) hglobals hfuncs

theorem parseModule_text (hd : m.Distinct) {text : String} (htext : m.text = .ok text) : parseModule text = .ok m := by
  obtain ⟨text', items, hprint, hprogram, hitems⟩ := hm.writable.reads hd
  have hsame : text' = text := by
    unfold Module.text at htext
    rw [hprint] at htext
    exact Except.ok.inj htext
  exact parseModule_eq_ok_iff.2 (read_eq_ok_iff.2 ⟨items, [], hsame ▸ hprogram, hm.resolve_eq hitems⟩)

/-- The text of a canonical module, in which no terminator looks like another, is parsed to the very same module. -/
theorem parse_print (hd : m.Distinct) : m.ReadsBack := by
  obtain ⟨text, htext⟩ := hm.valid.exists_text
  exact ⟨text, htext, hm.parseModule_text hd htext⟩

end Module.Canonical

/-- A module with a body of three blocks, a declaration, and two globals. -/
def countdown : Module where
  globals := .ofValues [⟨0, "format", .ptr, some (.symbol (.func 1)), false⟩,
    ⟨1, "shared", .struct [.int 32, .array 2 .double], none, true⟩]
  funcs := .ofValues [
    { id := 0, name := "printf", ret := .int 32, params := [0], variadic := true
      locals := .ofValues [⟨0, .ptr, none⟩], blocks := .empty },
    { id := 1, name := "main", ret := .int 32, params := [0], variadic := false
      locals := .ofValues [⟨0, .int 32, some "n"⟩, ⟨1, .ptr, none⟩, ⟨2, .int 32, some "v"⟩, ⟨3, .int 1, none⟩,
        ⟨4, .int 32, none⟩, ⟨5, .int 32, some "r"⟩]
      blocks := .ofValues [
        ⟨0, some "entry", [⟨some 1, .alloca (.int 32)⟩, ⟨none, .store (.var 0) (.var 1)⟩,
          ⟨some 2, .load (.int 32) (.var 1)⟩, ⟨some 3, .icmp .slt (.int 32) (.var 2) (.const (.int 32 10))⟩],
          .condBr (.var 3) 1 2⟩,
        ⟨1, some "more", [⟨some 4, .call (.int 32) (.symbol (.func 0)) [.symbol (.global 0)]⟩], .br 2⟩,
        ⟨2, some "end", [⟨some 5, .phi (.int 32) [(.var 2, 0), (.var 4, 1)]⟩], .ret (some (.var 5))⟩] }]

theorem parse_print_countdown : countdown.Canonical ∧ countdown.Distinct ∧ countdown.ReadsBack := by
  have hm : countdown.Canonical := by decide +kernel
  have hd : countdown.Distinct := by decide +kernel
  exact ⟨hm, hd, hm.parse_print hd⟩

/-! ## Terminators that look alike -/

/-- A module of one function with one parameter and one block. -/
def oneBlock (param : Ty) (terminator : Terminator LocalId Symbol BlockId) : Module where
  globals := .empty
  funcs := .ofValues [{
    id := 0, name := "f", ret := .void, params := [0], variadic := false
    locals := .ofValues [⟨0, param, some "x"⟩]
    blocks := .ofValues [⟨0, some "bb0", [], terminator⟩] }]

/-- A value without a type to speak of is returned. -/
def voidReturn : Module := oneBlock .void (.ret (some (.var 0)))

/-- A label is the condition of a branch. -/
def labelBranch : Module := oneBlock .label (.condBr (.var 0) 0 0)

/-- A literal is returned. -/
def literalReturn (c : Constant) : Module := oneBlock .ptr (.ret (some (.const c)))

theorem not_readsBack {m : Module} {text : String} (htext : m.text = .ok text)
    (hparse : (parseModule text).toOption ≠ some m) : ¬ m.ReadsBack := by
  rintro ⟨text', htext', hm⟩
  rw [htext] at htext'
  cases htext'
  rw [hm] at hparse
  exact hparse rfl

/-- Terminators that look alike are in the way: the text of a value without a type to speak of that is returned
begins with all of `ret void`, and that of a label that is branched on with all of `br label %x`. So are literals that
do not fit their own types: 2 as a truth value is written as 1 is, infinity has no text, and a number with a point is
no integer. -/
theorem not_parse_print : (voidReturn.Canonical ∧ ¬ voidReturn.ReadsBack) ∧
    (labelBranch.Canonical ∧ ¬ labelBranch.ReadsBack) ∧ ¬ (literalReturn (.int 1 2)).ReadsBack ∧
      ¬ (literalReturn (.float .double ⟨false, Double.infinity, Nat.le_refl _⟩)).ReadsBack ∧
        ¬ (literalReturn (.float (.int 32) default)).ReadsBack := by
  refine ⟨⟨?_, not_readsBack rfl ?_⟩, ⟨?_, not_readsBack rfl ?_⟩, not_readsBack rfl ?_, not_readsBack rfl ?_,
    not_readsBack rfl ?_⟩
  all_goals decide +kernel

end SSALint
