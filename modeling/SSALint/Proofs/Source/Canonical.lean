/-
Canonical modules. A module is canonical if it can be written, keeps the rules for modules, is numbered in the order
of its text without gaps, and names its blocks. What it calls its values and its blocks leads back to their numbers,
so that a function is made again from its item (`Func.Canonical.declaredFunc_eq`, `Func.Canonical.definedFunc_eq`).
-/
import SSALint.Proofs.Source.Bare
import SSALint.Proofs.Source.Legible
import SSALint.Proofs.Source.WellFormed

namespace SSALint

open Source

/-! ## Canonical modules -/

/-- The tables of a function have no keys to spare, its blocks have labels, and a declaration gives its parameters
no names. -/
structure Func.Canonical (f : Func) : Prop where
  blocks : f.blocks.next = f.blocks.size
  locals : f.locals.next = f.locals.size
  labelled : ∀ b ∈ f.blocks.values, b.label ≠ none
  unnamed : f.isDeclaration = true → ∀ x ∈ f.locals.values, x.name = none

/-- A module in canonical typed form. -/
structure Module.Canonical (m : Module) : Prop where
  writable : m.Writable
  wellFormed : m.WellFormed
  valid : m.Valid
  globals : m.globals.next = m.globals.size
  funcs : m.funcs.next = m.funcs.size
  func : ∀ f ∈ m.funcs.values, f.Canonical

instance {α : Type} [Keyed α] (t : Table α) : Decidable t.Dense :=
  decidable_of_iff (t.keys = List.range t.size ∧ ∀ a ∈ t.toList, Keyed.key a.2 = a.1)
    ⟨fun h => ⟨h.1, fun _ _ hv => h.2 _ (Table.mem_toList.2 hv)⟩,
      fun h => ⟨h.1, fun a ha => h.2 a.1 a.2 (Table.mem_toList.1 ha)⟩⟩

instance (f : Func) : Decidable f.WellFormed :=
  decidable_of_iff ((f.blocks.Dense ∧ f.locals.Dense) ∧ f.params ++ f.results = List.range f.locals.size ∧
      (f.locals.values.filterMap (·.name)).Nodup ∧
      (∀ x ∈ f.locals.values, ∀ name ∈ x.name, name.toList.any (fun c => !c.isDigit) = true) ∧
      (f.blocks.values.filterMap (·.label)).Nodup ∧ ∀ b ∈ f.blocks.values.tail, b.label ≠ none)
    ⟨fun h => ⟨h.1.1, h.1.2, h.2.1, h.2.2.1, fun x hx name hname => by simpa using h.2.2.2.1 x hx name hname,
        h.2.2.2.2.1, h.2.2.2.2.2⟩,
      fun h => ⟨⟨h.1, h.2⟩, h.3, h.4, fun x hx name hname => by simpa using h.5 x hx name hname, h.6, h.7⟩⟩

instance (m : Module) : Decidable m.Valid := decidable_of_iff (m.verify.isOk = true) <| by
  rw [← Module.verify_eq_ok_iff (u := ())]
  cases m.verify <;> simp [Except.isOk, Except.toBool]

instance (f : Func) : Decidable f.Canonical :=
  decidable_of_iff ((f.blocks.next = f.blocks.size ∧ f.locals.next = f.locals.size) ∧
      (∀ b ∈ f.blocks.values, b.label ≠ none) ∧ (f.isDeclaration = true → ∀ x ∈ f.locals.values, x.name = none))
    ⟨fun h => ⟨h.1.1, h.1.2, h.2.1, h.2.2⟩, fun h => ⟨⟨h.1, h.2⟩, h.3, h.4⟩⟩

instance (m : Module) : Decidable m.WellFormed :=
  decidable_of_iff ((m.globals.Dense ∧ m.funcs.Dense) ∧
      (m.globals.values.map (·.name) ++ m.funcs.values.map (·.name)).Nodup ∧ (∀ f ∈ m.funcs.values, f.WellFormed) ∧
      (∀ v ∈ m.globals.values, ∀ w ∈ v.init, w.var? = none) ∧
      ∀ v ∈ m.globals.values, v.init = none ↔ v.external = true)
    ⟨fun h => ⟨h.1.1, h.1.2, h.2.1, h.2.2.1, fun v hv x hx => absurd (h.2.2.2.1 v hv _ hx) nofun, h.2.2.2.2⟩,
      fun h => ⟨⟨h.1, h.2⟩, h.3, h.4, fun v hv w hw => by
        cases w with
        | var x => exact absurd hw (h.init v hv x)
        | _ => rfl, h.6⟩⟩

instance (m : Module) : Decidable m.Canonical :=
  decidable_of_iff ((m.Writable ∧ m.WellFormed ∧ m.Valid) ∧
      (m.globals.next = m.globals.size ∧ m.funcs.next = m.funcs.size) ∧ ∀ f ∈ m.funcs.values, f.Canonical)
    ⟨fun h => ⟨h.1.1, h.1.2.1, h.1.2.2, h.2.1.1, h.2.1.2, h.2.2⟩, fun h => ⟨⟨h.1, h.2, h.3⟩, ⟨h.4, h.5⟩, h.6⟩⟩

/-! ## Names of a function -/

theorem isNumber_toString (k : Nat) : isNumber (toString k) = true := by
  unfold isNumber
  rw [toList_toString_nat]
  exact List.all_eq_true.2 (isDigit_toDigits k)

/-- The name that stands at a place among those defined has the place for its rank. -/
theorem Source.NameTable.rank_of_getElem? {t : NameTable} (hw : t.Wf) {name : String} {i : Nat}
    (h : t.defined[i]? = some name) : t.rank name = i := by
  obtain ⟨hi, rfl⟩ := List.getElem?_eq_some_iff.1 h
  rw [NameTable.rank_eq_idxOf hw, hw.nodup_defined.idxOf_getElem i hi]

section
variable {m : Module} {f : Func}

theorem localText_of_get? {x : LocalId} {l : Local} (h : f.locals.get? x = some l) :
    Names.localText ⟨m, f⟩ x = l.name.getD (toString x) := by
  show ((f.locals.get? x).bind (·.name)).getD (toString x) = _
  rw [h]
  rfl

/-- A local value is kept by what it is called in a text, unless that is a number. -/
theorem Func.WellFormed.localName (hf : f.WellFormed) {x : LocalId} {l : Local} (h : f.locals.get? x = some l) :
    (if isNumber (Names.localText ⟨m, f⟩ x) then none else some (Names.localText ⟨m, f⟩ x)) = l.name := by
  rw [localText_of_get? h]
  cases hname : l.name with
  | none => rw [Option.getD_none, if_pos (isNumber_toString x)]
  | some name =>
    obtain ⟨c, hc, hdigit⟩ := hf.notNumber l (Table.mem_values.2 ⟨x, h⟩) name hname
    have hnumber : isNumber name = false := List.all_eq_false.2 ⟨c, hc, hdigit⟩
    rw [Option.getD_some, if_neg (by rw [hnumber]; exact Bool.false_ne_true)]

/-- The name of a block, in a text, is its label. -/
theorem label_of_get? {b : Block} (hget : f.blocks.get? b.id = some b) (hlabel : b.label ≠ none) :
    b.label = some (Names.label ⟨m, f⟩ b.id) := by
  obtain ⟨name, hname⟩ := Option.ne_none_iff_exists'.1 hlabel
  have htext : (f.blocks.get? b.id).bind (·.label) = some name := by
    rw [hget]
    exact hname
  rw [Names.label_eq_getD]
  show b.label = some (((f.blocks.get? b.id).bind (·.label)).getD _)
  rw [htext, hname]
  rfl

/-- The local values of a function with their names and types, as its text defines them. -/
theorem definedValues_head (hdecl : f.isDeclaration = false) :
    definedValues (f.head m) (f.blocks.values.map (Names.namedBlock ⟨m, f⟩)) =
      (f.params ++ f.results).map fun x => ⟨.of (Names.localText ⟨m, f⟩ x), f.typeOf (.var x)⟩ := by
  unfold definedValues Head.named Func.head
  rw [List.map_append, mapIdx_map, hdecl]
  congr 1
  · exact mapIdx_const (fun x => NamedResult.mk (.of (Names.localText ⟨m, f⟩ x)) (f.typeOf (.var x))) f.params
  · rw [List.flatMap_map, Func.results, List.map_flatMap]
    congr 1
    funext b
    show (b.instrs.map _).filterMap _ = (b.instrs.filterMap _).map _
    rw [List.filterMap_map, List.map_filterMap]
    rfl

theorem Func.WellFormed.definedValues_eq (hf : f.WellFormed) (hdecl : f.isDeclaration = false) :
    definedValues (f.head m) (f.blocks.values.map (Names.namedBlock ⟨m, f⟩)) =
      (List.range f.locals.values.length).map fun x => ⟨.of (Names.localText ⟨m, f⟩ x), f.typeOf (.var x)⟩ := by
  rw [definedValues_head hdecl, hf.numbered]
  rfl

end

/-! ## Functions -/

section
variable {m : Module} {f : Func} (hf : f.WellFormed) (hc : f.Canonical)

include hf hc

theorem Func.Canonical.get?_locals (x : LocalId) : f.locals.get? x = f.locals.values[x]? :=
  hf.locals.get?_eq hc.locals x

theorem Func.Canonical.get?_blocks (b : BlockId) : f.blocks.get? b = f.blocks.values[b]? :=
  hf.blocks.get?_eq hc.blocks b

omit hc in
theorem Func.WellFormed.get?_id {b : Block} (hb : b ∈ f.blocks.values) : f.blocks.get? b.id = some b := by
  obtain ⟨k, hk⟩ := Table.mem_values.1 hb
  have hid : b.id = k := hf.blocks.key k b hk
  rw [hid, hk]

theorem Func.Canonical.ofValues_locals :
    Table.ofValues (f.locals.values.mapIdx fun id x => Local.mk id x.type x.name) = f.locals := by
  have hsame : ∀ (k : Nat) (x : Local), x.id = k → Local.mk k x.type x.name = x := by
    rintro _ x rfl
    rfl
  conv_rhs => rw [hf.locals.eq_ofValues hc.locals]
  congr 1
  refine List.ext_getElem (List.length_mapIdx) fun k hk hk' => ?_
  rw [List.getElem_mapIdx]
  exact hsame k _ (hf.locals.key k _ ((hc.get?_locals hf k).trans (List.getElem?_eq_getElem hk')))

theorem Func.Canonical.bodyLocals_eq (m : Module) (hdecl : f.isDeclaration = false) :
    bodyLocals (f.head m) (f.blocks.values.map (Names.namedBlock ⟨m, f⟩)) = f.locals := by
  conv_rhs => rw [← hc.ofValues_locals hf]
  unfold bodyLocals
  rw [hf.definedValues_eq hdecl, mapIdx_map]
  congr 1
  refine List.ext_getElem (by simp) fun k hk hk' => ?_
  rw [List.length_mapIdx] at hk'
  have hget : f.locals.get? k = some f.locals.values[k] := (hc.get?_locals hf k).trans (List.getElem?_eq_getElem hk')
  rw [List.getElem_mapIdx, List.getElem_mapIdx, List.getElem_range, Func.typeOf_of_get? hget]
  exact congrArg (Local.mk k _) (hf.localName hget)

/-- The function of a declaration is made again from its head. -/
theorem Func.Canonical.declaredFunc_eq (m : Module) (hdecl : f.isDeclaration = true) :
    declaredFunc f.id (f.head m) = f := by
  have hblocks : f.blocks.values = [] := List.eq_nil_of_length_eq_zero (beq_iff_eq.1 hdecl)
  have hempty : f.blocks = .empty := by
    rw [hf.blocks.eq_ofValues hc.blocks, hblocks]
    rfl
  have hresults : f.results = [] := by
    unfold Func.results
    rw [hblocks]
    rfl
  have hparams : f.params = List.range f.locals.values.length := by
    rw [← List.append_nil f.params, ← hresults, hf.numbered]
    rfl
  have hlocals : (f.head m).params.mapIdx (fun id p => Local.mk id p.type none) =
      f.locals.values.mapIdx fun id x => Local.mk id x.type x.name := by
    unfold Func.head
    rw [mapIdx_map, hparams]
    refine List.ext_getElem (by simp) fun k hk hk' => ?_
    rw [List.length_mapIdx] at hk'
    have hget : f.locals.get? k = some f.locals.values[k] := (hc.get?_locals hf k).trans (List.getElem?_eq_getElem hk')
    rw [List.getElem_mapIdx, List.getElem_mapIdx, List.getElem_range, Func.typeOf_of_get? hget,
      hc.unnamed hdecl _ (List.getElem_mem hk')]
  have hrange : List.range (f.head m).params.length = f.params := by
    rw [hparams, Func.head, List.length_map, hparams, List.length_range]
  unfold declaredFunc
  rw [hlocals, hc.ofValues_locals hf, hrange, ← hempty]
  rfl

end

/-! ## Names that are undone -/

/-- A meaning undoes the names of a module: it is what they were given to. -/
structure Source.Meaning.Undoes (g : Meaning) (n : Names) : Prop where
  value : ∀ f, n.func? = some f → ∀ x, f.locals.contains x = true → g.value (.of (n.localText x)) = x
  label : ∀ f, n.func? = some f → ∀ b, f.blocks.contains b = true → g.label (.of (n.label b)) = b
  symbol : ∀ s, n.module.Resolves n.func? (.symbol s) → g.symbol (.of (n.symbolText s)) = s

namespace Source.Meaning.Undoes

theorem operand {g : Meaning} {n : Names} (hg : g.Undoes n) {v : Value} (hv : n.module.Resolves n.func? v) :
    g.operand (n.namedValue v) = v := by
  cases v with
  | var x =>
    obtain ⟨f, hf, hx⟩ := hv
    exact congrArg Operand.var (hg.value f hf x hx)
  | symbol s => exact congrArg Operand.symbol (hg.symbol s hv)
  | const c => rfl

variable {g : Meaning} {m : Module} {f : Func} (hg : g.Undoes ⟨m, f⟩) (hm : m.ValidFunc f) {b : Block}
  (hb : b ∈ f.blocks.values)

include hg hm hb

theorem instr {i : Instr} (hi : i ∈ b.instrs) : g.instr (Names.namedInstr ⟨m, f⟩ i) = i := by
  obtain ⟨result, operation⟩ := i
  have hresult : (result.map fun x => NamedResult.mk (.of (Names.localText ⟨m, f⟩ x)) (f.typeOf (.var x))).map
      (fun r => g.value r.name) = result := by
    cases result with
    | none => rfl
    | some x =>
      have hx : x ∈ f.results := List.mem_flatMap.2 ⟨b, hb, List.mem_filterMap.2 ⟨_, hi, rfl⟩⟩
      exact congrArg some (hg.value f rfl x (hm.results x hx))
  have hoperation : ((Names.namedOperation ⟨m, f⟩ operation).mapOperands fun _ => g.operand).mapTargets
      (fun _ => g.label) = operation := by
    unfold Names.namedOperation
    rw [Operation.rename_rename]
    refine Operation.rename_self (fun v hv => hg.operand (hm.operands v ?_)) fun t ht =>
      hg.label f rfl t (hm.targets b hb t ?_)
    · exact List.mem_flatMap.2 ⟨b, hb, List.mem_append_left _ (List.mem_flatMap.2 ⟨_, hi, hv⟩)⟩
    · exact List.mem_append_left _ (List.mem_flatMap.2 ⟨_, hi, ht⟩)
  exact congrArg₂ Instr.mk hresult hoperation

theorem terminator : ((Names.namedTerminator ⟨m, f⟩ b.terminator).mapOperands fun _ => g.operand).mapTargets
    (fun _ => g.label) = b.terminator := by
  unfold Names.namedTerminator
  rw [Terminator.rename_rename]
  refine Terminator.rename_self (fun v hv => hg.operand (hm.operands v ?_)) fun t ht =>
    hg.label f rfl t (hm.targets b hb t ?_)
  · exact List.mem_flatMap.2 ⟨b, hb, List.mem_append_right _ hv⟩
  · exact List.mem_append_right _ ht

/-- A block is what its named block stands for. -/
theorem block (hget : f.blocks.get? b.id = some b) (hlabel : b.label ≠ none) :
    g.block (Names.namedBlock ⟨m, f⟩ b) = b := by
  have hid : g.label (.of (Names.label ⟨m, f⟩ b.id)) = b.id := hg.label f rfl b.id (Table.contains_iff.2 ⟨b, hget⟩)
  have htext : some (Names.label ⟨m, f⟩ b.id) = b.label := (label_of_get? hget hlabel).symm
  have hinstrs : (b.instrs.map (Names.namedInstr ⟨m, f⟩)).map g.instr = b.instrs := by
    rw [List.map_map]
    exact (List.map_congr_left fun i hi => hg.instr hm hb hi).trans (List.map_id _)
  have hterminator := hg.terminator hm hb
  obtain ⟨id, label, instrs, terminator⟩ := b
  exact Block.mk.injEq _ _ _ _ _ _ _ _ ▸ ⟨hid, htext, hinstrs, hterminator⟩

end Source.Meaning.Undoes

/-! ## Bodies -/

section
variable {m : Module} {f : Func} (hf : f.WellFormed) (hc : f.Canonical)

include hf hc

theorem Func.Canonical.lt_of_contains {x : LocalId} (hx : f.locals.contains x = true) : x < f.locals.values.length := by
  obtain ⟨l, hl⟩ := Table.contains_iff.1 hx
  rw [hc.get?_locals hf] at hl
  exact (List.getElem?_eq_some_iff.1 hl).1

/-- The names of the local values, in the order of their numbers. -/
theorem Func.Canonical.getElem?_definedValues (hdecl : f.isDeclaration = false) {x : LocalId}
    (hx : f.locals.contains x = true) :
    ((definedValues (f.head m) (f.blocks.values.map (Names.namedBlock ⟨m, f⟩))).map (·.name.name))[x]? =
      some (Names.localText ⟨m, f⟩ x) := by
  rw [hf.definedValues_eq hdecl, List.map_map, List.getElem?_map, List.getElem?_range (hc.lt_of_contains hf hx)]
  rfl

/-- The labels of the blocks, in the order of their numbers. -/
theorem Func.Canonical.getElem?_labels {b : BlockId} (hb : f.blocks.contains b = true) :
    ((f.blocks.values.map (Names.namedBlock ⟨m, f⟩)).map (·.name.name))[b]? = some (Names.label ⟨m, f⟩ b) := by
  obtain ⟨c, hget⟩ := Table.contains_iff.1 hb
  have hid : c.id = b := hf.blocks.key b c hget
  rw [hc.get?_blocks hf] at hget
  rw [List.map_map, List.getElem?_map, hget, ← hid]
  rfl

/-- In the scope of its body a function has its own names. -/
theorem Func.Canonical.undoes {s : Scope} {symbols : NameTable} {order : List Symbol} (hs : s.Wf)
    (hvalues : s.values.defined =
      (definedValues (f.head m) (f.blocks.values.map (Names.namedBlock ⟨m, f⟩))).map (·.name.name))
    (hlabels : s.labels.defined = (f.blocks.values.map (Names.namedBlock ⟨m, f⟩)).map (·.name.name))
    (hdecl : f.isDeclaration = false) (hsymbol : ∀ sym, m.Resolves f (.symbol sym) →
      Meaning.symbol ⟨s, symbols, order⟩ (.of (Names.symbolText ⟨m, f⟩ sym)) = sym) :
    Meaning.Undoes ⟨s, symbols, order⟩ ⟨m, f⟩ where
  value := by
    rintro _ ⟨rfl⟩ x hx
    refine NameTable.rank_of_getElem? hs.values ?_
    rw [hvalues]
    exact hc.getElem?_definedValues hf hdecl hx
  label := by
    rintro _ ⟨rfl⟩ b hb
    refine NameTable.rank_of_getElem? hs.labels ?_
    rw [hlabels]
    exact hc.getElem?_labels hf hb
  symbol := hsymbol

/-- The function of a definition is made again from its item. -/
theorem Func.Canonical.definedFunc_eq {g : Meaning} (hg : g.Undoes ⟨m, f⟩) (hm : m.ValidFunc f)
    (hdecl : f.isDeclaration = false) :
    definedFunc g f.id (f.head m) (f.blocks.values.map (Names.namedBlock ⟨m, f⟩)) = f := by
  have hparams : (f.head m).named.map (fun p => g.value p.name) = f.params := by
    unfold Head.named Func.head
    rw [mapIdx_map, hdecl]
    refine List.ext_getElem (by simp) fun k hk hk' => ?_
    rw [List.getElem_map, List.getElem_mapIdx]
    exact hg.value f rfl _ (hm.params _ (List.getElem_mem hk'))
  have hblocks : (f.blocks.values.map (Names.namedBlock ⟨m, f⟩)).map g.block = f.blocks.values := by
    rw [List.map_map]
    refine (List.map_congr_left fun b hb => ?_).trans (List.map_id _)
    exact hg.block hm hb (hf.get?_id hb) (hc.labelled b hb)
  unfold definedFunc
  rw [hparams, hblocks, hc.bodyLocals_eq hf m hdecl, ← hf.blocks.eq_ofValues hc.blocks]
  rfl

end

end SSALint
