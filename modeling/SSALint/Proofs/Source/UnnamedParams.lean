/-
Parameters without a name. A body calls such a parameter by a number, and the number is the place of the parameter among
all of them. Where the parameters without a name are counted for themselves, the numbers differ as soon as one with a
name stands before one without. A program is read as what it is under that count if, and only if, no body tells the two
apart (`parseModule_counted_iff`).
-/
import SSALint.Proofs.Source.Binding
import SSALint.Proofs.Source.Canonical
import SSALint.Proofs.Source.Closed
import SSALint.Proofs.Source.Relocation

namespace SSALint.Source

/-! ## Numbers for parameters -/

namespace Head

/-- At a place there is a parameter without a name. -/
def Unnamed (h : Head) (i : Nat) : Prop := ∃ p, h.params[i]? = some p ∧ p.name = none

/-- How many parameters without a name stand before a place. -/
def unnamedBefore (h : Head) (i : Nat) : Nat := (h.params.take i).countP (·.name.isNone)

/-- The head with a name for each parameter: the parameters without one are called by numbers, which may depend on their
places. -/
def numbered (h : Head) (number : Nat → Nat) : Head :=
  { h with params := h.params.mapIdx fun i p =>
      { p with name := some (p.name.getD ⟨toString (number i), h.name.rest⟩) } }

/-- The head with the parameters without a name counted for themselves: the first one is 0, the next one 1. -/
def counted (h : Head) : Head := h.numbered h.unnamedBefore

/-- No parameter has a number for its name. -/
def Numberless (h : Head) : Prop := ∀ p ∈ h.params, ∀ m ∈ p.name, isNumber m.name = false

/-- The names of the parameters, if those without one are called by numbers. -/
def paramNames (h : Head) (number : Nat → Nat) : List String :=
  h.params.mapIdx fun i p => (p.name.map (·.name)).getD (toString (number i))

theorem named_numbered_self (h : Head) : (h.numbered fun i => i).named = h.named := by
  unfold named numbered
  rw [List.mapIdx_mapIdx]
  rfl

theorem map_name_numbered (h : Head) (number : Nat → Nat) :
    (h.numbered number).named.map (·.name.name) = h.paramNames number := by
  unfold named numbered paramNames
  refine List.ext_getElem? fun i => ?_
  rw [List.getElem?_map, List.getElem?_mapIdx, List.getElem?_mapIdx, List.getElem?_mapIdx]
  cases h.params[i]? with
  | none => rfl
  | some p =>
    obtain ⟨type, name⟩ := p
    cases name <;> rfl

end Head

/-- The program with the parameters without a name counted for themselves. -/
def Item.counted : Item → Item
  | .definition h blocks => .definition h.counted blocks
  | item => item

/-- The names of the results in a body. -/
def resultNames (blocks : List NamedBlock) : List String := blocks.flatMap fun b => b.results.map (·.name.name)

/-- A body does not tell by what numbers parameters are called: of a parameter whose number in the count is not its
place, it does not use the former, and it gives no result the latter for a name. -/
def Undisturbed (h : Head) (blocks : List NamedBlock) : Prop :=
  ∀ i, h.Unnamed i → h.unnamedBefore i ≠ i →
    (∀ b ∈ blocks, ∀ m, .var m ∈ b.operands → m.name ≠ toString (h.unnamedBefore i)) ∧
    toString i ∉ resultNames blocks

theorem names_numbered (h : Head) (number : Nat → Nat) (blocks : List NamedBlock) :
    (definedValues (h.numbered number) blocks).map (·.name.name) = h.paramNames number ++ resultNames blocks := by
  unfold definedValues resultNames NamedBlock.results
  rw [List.map_append, Head.map_name_numbered, List.map_flatMap]

theorem definedValues_numbered_self (h : Head) (blocks : List NamedBlock) :
    definedValues (h.numbered fun i => i) blocks = definedValues h blocks := by
  unfold definedValues
  rw [h.named_numbered_self]

theorem names_placed (h : Head) (blocks : List NamedBlock) :
    (definedValues h blocks).map (·.name.name) = h.paramNames (fun i => i) ++ resultNames blocks := by
  rw [← definedValues_numbered_self, names_numbered]

/-! ## Names under two numberings -/

theorem toString_nat_inj {m n : Nat} : toString m = toString n ↔ m = n := Nat.repr_inj

theorem isNumber_ne {name : String} (h : isNumber name = false) (n : Nat) : name ≠ toString n := by
  rintro rfl
  rw [isNumber_toString] at h
  cases h

section
variable {h : Head} {number : Nat → Nat} {blocks : List NamedBlock}

theorem getElem?_paramNames (h : Head) (number : Nat → Nat) (i : Nat) :
    (h.paramNames number)[i]? = h.params[i]?.map fun p => (p.name.map (·.name)).getD (toString (number i)) :=
  List.getElem?_mapIdx

theorem length_paramNames (h : Head) (number : Nat → Nat) : (h.paramNames number).length = h.params.length :=
  List.length_mapIdx

/-- A parameter without a name is found under its number. -/
theorem getElem?_of_unnamed {i : Nat} (hi : h.Unnamed i) (number : Nat → Nat) (rs : List String) :
    (h.paramNames number ++ rs)[i]? = some (toString (number i)) := by
  obtain ⟨p, hp, hnone⟩ := hi
  have hlt : i < (h.paramNames number).length := by
    rw [length_paramNames]
    exact (List.getElem?_eq_some_iff.1 hp).1
  rw [List.getElem?_append_left hlt, getElem?_paramNames, hp, Option.map_some, hnone]
  rfl

/-- Every other name is found at the same place under any numbers. -/
theorem getElem?_of_not_unnamed {i : Nat} (hi : ¬ h.Unnamed i) (number number' : Nat → Nat) (rs : List String) :
    (h.paramNames number ++ rs)[i]? = (h.paramNames number' ++ rs)[i]? := by
  rw [List.getElem?_append, List.getElem?_append, length_paramNames, length_paramNames]
  split
  · rw [getElem?_paramNames, getElem?_paramNames]
    cases hp : h.params[i]? with
    | none => rfl
    | some p =>
      obtain ⟨m, hm⟩ := Option.ne_none_iff_exists'.1 fun hnone => hi ⟨p, hp, hnone⟩
      simp [hm]
  · rfl

/-- A number that is found elsewhere is the name of a result. -/
theorem mem_resultNames {i n : Nat} (hnumberless : h.Numberless) (hi : ¬ h.Unnamed i)
    (hget : (h.paramNames number ++ resultNames blocks)[i]? = some (toString n)) : toString n ∈ resultNames blocks := by
  rw [List.getElem?_append, length_paramNames] at hget
  split at hget
  · rename_i hlt
    have hp := List.getElem?_eq_getElem hlt
    obtain ⟨m, hm⟩ := Option.ne_none_iff_exists'.1 fun hnone => hi ⟨_, hp, hnone⟩
    rw [getElem?_paramNames, hp, Option.map_some, hm] at hget
    exact absurd (Option.some.inj hget) (isNumber_ne (hnumberless _ (List.getElem_mem hlt) m hm) n)
  · exact List.mem_of_getElem? hget

/-- No name stands twice if parameters are called by their places, provided that none does under some other numbers and
that no result has the place of a parameter for its name, unless the parameter is called so anyway. -/
theorem nodup_placed (hnumberless : h.Numberless) (hnodup : (h.paramNames number ++ resultNames blocks).Nodup)
    (hfree : ∀ i, h.Unnamed i → number i ≠ i → toString i ∉ resultNames blocks) :
    (h.paramNames (fun i => i) ++ resultNames blocks).Nodup := by
  have hlength : ∀ number', (h.paramNames number' ++ resultNames blocks).length =
      h.params.length + (resultNames blocks).length := fun number' => by
    rw [List.length_append, length_paramNames]
  -- Of two places with one name at most one is that of a parameter without a name, and then the other is a result.
  have hmixed : ∀ i j, i ≠ j → h.Unnamed i → ¬ h.Unnamed j →
      (h.paramNames (fun i => i) ++ resultNames blocks)[j]? ≠ some (toString i) := by
    intro i j hij hi hj hget
    by_cases hnumber : number i = i
    · have hsame := getElem?_of_unnamed hi number (resultNames blocks)
      rw [hnumber, ← hget, getElem?_of_not_unnamed hj (fun i => i) number] at hsame
      obtain ⟨p, hp, -⟩ := hi
      refine hij ((List.getElem?_inj ?_ hnodup).1 hsame)
      rw [hlength]
      exact Nat.lt_add_right _ (List.getElem?_eq_some_iff.1 hp).1
    · exact hfree i hi hnumber (mem_resultNames hnumberless hj hget)
  rw [List.nodup_iff_getElem?_ne_getElem?]
  intro i j hij hlt hsame
  by_cases hi : h.Unnamed i
  · rw [getElem?_of_unnamed hi] at hsame
    by_cases hj : h.Unnamed j
    · rw [getElem?_of_unnamed hj, Option.some.injEq, toString_nat_inj] at hsame
      exact hij.ne hsame
    · exact hmixed i j hij.ne hi hj hsame.symm
  · by_cases hj : h.Unnamed j
    · rw [getElem?_of_unnamed hj] at hsame
      exact hmixed j i hij.ne' hj hi hsame
    · rw [getElem?_of_not_unnamed hi _ number, getElem?_of_not_unnamed hj _ number] at hsame
      rw [hlength] at hlt
      exact hij.ne ((List.getElem?_inj ((hlength number).symm ▸ hij.trans hlt) hnodup).1 hsame)

/-- A name that is no number of a parameter, unless the number is the place, is found where it would be under those
numbers. -/
theorem getElem?_placed {x : Nat} {name : String} (hname : ∀ i, h.Unnamed i → number i ≠ i → name ≠ toString (number i))
    (hget : (h.paramNames number ++ resultNames blocks)[x]? = some name) :
    (h.paramNames (fun i => i) ++ resultNames blocks)[x]? = some name := by
  by_cases hx : h.Unnamed x
  · rw [getElem?_of_unnamed hx, Option.some.injEq] at hget
    have hnumber : number x = x := by
      by_contra hne
      exact hname x hx hne hget.symm
    rw [getElem?_of_unnamed hx, ← hget, hnumber]
  · rwa [getElem?_of_not_unnamed hx _ number]

end

/-! ## Bodies under two heads -/

theorem localNames_numbered (h : Head) (number : Nat → Nat) :
    ((h.numbered number).named.map fun d => (d.type, d.localName?)) = h.named.map fun d => (d.type, d.localName?) := by
  unfold Head.named Head.numbered
  refine List.ext_getElem? fun i => ?_
  rw [List.getElem?_map, List.getElem?_map, List.getElem?_mapIdx, List.getElem?_mapIdx, List.getElem?_mapIdx]
  cases h.params[i]? with
  | none => rfl
  | some p =>
    obtain ⟨type, name⟩ := p
    cases name with
    | none =>
      have hnumber : ∀ k, NamedResult.localName? ⟨⟨toString k, h.name.rest⟩, type⟩ = none := fun k =>
        if_pos (isNumber_toString k)
      exact congrArg (fun name => some (type, name)) ((hnumber (number i)).trans (hnumber i).symm)
    | some m => rfl

/-- Names that are numbers are not kept, so the local values do not tell the numbers of parameters. -/
theorem bodyLocals_numbered (h : Head) (number : Nat → Nat) (blocks : List NamedBlock) :
    bodyLocals (h.numbered number) blocks = bodyLocals h blocks := by
  have hvalues : ((definedValues (h.numbered number) blocks).map fun d => (d.type, d.localName?)) =
      (definedValues h blocks).map fun d => (d.type, d.localName?) := by
    unfold definedValues
    rw [List.map_append, List.map_append, localNames_numbered]
  refine congrArg Table.ofValues (List.ext_getElem? fun x => ?_)
  rw [List.getElem?_mapIdx, List.getElem?_mapIdx]
  have hentry := congrArg (fun vs => vs[x]?.map fun (d : Ty × Option String) => Local.mk x d.1 d.2) hvalues
  simpa only [List.getElem?_map, Option.map_map, Function.comp_def, NamedResult.localName?] using hentry

section
variable {h : Head} {number : Nat → Nat} {blocks : List NamedBlock} {s s' : Scope}

theorem closedBody_placed (hc : ClosedBody (h.numbered number) blocks) (hnumberless : h.Numberless)
    (huses : ∀ i, h.Unnamed i → number i ≠ i → ∀ b ∈ blocks, ∀ m, .var m ∈ b.operands → m.name ≠ toString (number i))
    (hfree : ∀ i, h.Unnamed i → number i ≠ i → toString i ∉ resultNames blocks) : ClosedBody h blocks := by
  have hvalues := hc.values
  rw [names_numbered] at hvalues
  refine ⟨?_, hc.labels, fun b hb m hm => ?_, hc.targets⟩
  · rw [names_placed]
    exact nodup_placed hnumberless hvalues hfree
  · have hmem := hc.vars b hb m hm
    rw [names_numbered] at hmem
    obtain ⟨x, hx⟩ := List.getElem?_of_mem hmem
    rw [names_placed]
    exact List.mem_of_getElem? (getElem?_placed (fun i hi hne => huses i hi hne b hb m hm) hx)

/-- The names that a body uses have the same ranks under both heads if, and only if, it uses no number of a parameter
that is not the place of the parameter. -/
theorem ranks_eq_iff (hs : s.Binds h blocks) (hs' : s'.Binds (h.numbered number) blocks) :
    (∀ b ∈ blocks, ∀ m, .var m ∈ b.operands → s.values.rank m.name = s'.values.rank m.name) ↔
      ∀ i, h.Unnamed i → number i ≠ i → ∀ b ∈ blocks, ∀ m, .var m ∈ b.operands → m.name ≠ toString (number i) := by
  have hvalues := hs.values.trans (names_placed h blocks)
  have hvalues' := hs'.values.trans (names_numbered h number blocks)
  constructor
  · intro hranks i hi hne b hb m hm hname
    have hget' : s'.values.defined[i]? = some m.name := by rw [hvalues', hname, getElem?_of_unnamed hi]
    have hget := NameTable.getElem?_rank hs.wf.values (hs.vars b hb m hm)
    rw [hranks b hb m hm, NameTable.rank_of_getElem? hs'.wf.values hget', hvalues, getElem?_of_unnamed hi, hname,
      Option.some.injEq, toString_nat_inj] at hget
    exact hne hget.symm
  · intro huses b hb m hm
    have hget' := NameTable.getElem?_rank hs'.wf.values (hs'.vars b hb m hm)
    rw [hvalues'] at hget'
    refine NameTable.rank_of_getElem? hs.wf.values ?_
    rw [hvalues]
    exact getElem?_placed (fun i hi hne => huses i hi hne b hb m hm) hget'

variable {symbols symbols' : NameTable} (order : List Symbol)

theorem undisturbed_iff (hs : s.Binds h blocks) (hs' : s'.Binds h.counted blocks) :
    (∀ b ∈ blocks, ∀ m, .var m ∈ b.operands → s.values.rank m.name = s'.values.rank m.name) ↔ Undisturbed h blocks := by
  -- As the body binds under the places, no result has one of them for its name.
  have hnodup := hs.closedBody.values
  rw [names_placed] at hnodup
  refine (ranks_eq_iff hs hs').trans (forall_congr' fun i => forall_congr' fun hi => forall_congr' fun _ => ?_)
  refine (and_iff_left fun hresult => ?_).symm
  have hparam : toString i ∈ h.paramNames fun i => i := by
    have hget := getElem?_of_unnamed hi (fun i => i) []
    rw [List.append_nil] at hget
    exact List.mem_of_getElem? hget
  exact (List.nodup_append.1 hnodup).2.2 _ hparam _ hresult rfl

theorem Meaning.block_congr {g g' : Meaning} {b : NamedBlock}
    (hvalue : ∀ m, .var m ∈ b.operands → g.value m = g'.value m)
    (hresult : ∀ r ∈ b.results, g.value r.name = g'.value r.name) (hlabel : g.label = g'.label)
    (hsymbol : g.symbol = g'.symbol) : g.block b = g'.block b := by
  have hoperand : ∀ v ∈ b.operands, g.operand v = g'.operand v := by
    intro v hv
    cases v with
    | var m => exact congrArg Operand.var (hvalue m hv)
    | symbol m => exact congrArg Operand.symbol (congrFun hsymbol m)
    | const c => rfl
  have hinstr : ∀ i ∈ b.instrs, g.instr i = g'.instr i := by
    intro i hi
    have hoperation : ∀ v ∈ i.operation.operands, g.operand v = g'.operand v := fun v hv =>
      hoperand v (List.mem_append_left _ (List.mem_flatMap.2 ⟨i, hi, hv⟩))
    have hresult' : i.result.map (fun r => g.value r.name) = i.result.map fun r => g'.value r.name :=
      Option.map_congr fun r hr => hresult r (List.mem_filterMap.2 ⟨i, hi, hr⟩)
    unfold Meaning.instr
    rw [hresult', Operation.rename_congr hoperation fun l _ => congrFun hlabel l]
  have hterminator : ∀ v ∈ b.terminator.operands, g.operand v = g'.operand v := fun v hv =>
    hoperand v (List.mem_append_right _ hv)
  unfold Meaning.block
  rw [hlabel, List.map_congr_left hinstr, Terminator.rename_congr hterminator fun l _ => rfl]

/-- What is defined has the same ranks under both heads, be it a parameter or a result. -/
theorem ranks_defined_eq (hs : s.Binds h blocks) (hs' : s'.Binds (h.numbered number) blocks) :
    (h.paramNames number).map s'.values.rank = (h.paramNames fun i => i).map s.values.rank ∧
      (resultNames blocks).map s'.values.rank = (resultNames blocks).map s.values.rank := by
  have hplaces := NameTable.map_rank_defined hs.wf.values
  have hplaces' := NameTable.map_rank_defined hs'.wf.values
  rw [hs.values, names_placed, List.length_append, length_paramNames, List.map_append] at hplaces
  rw [hs'.values, names_numbered, List.length_append, length_paramNames, List.map_append, ← hplaces] at hplaces'
  exact List.append_inj hplaces' (by simp [length_paramNames])

/-- A definition means one function under both heads if the names that its body uses have the same ranks. -/
theorem definedFunc_numbered_iff (hs : s.Binds h blocks) (hs' : s'.Binds (h.numbered number) blocks)
    (hsymbols : symbols.rank = symbols'.rank) (id : FuncId) :
    definedFunc ⟨s, symbols, order⟩ id h blocks = definedFunc ⟨s', symbols', order⟩ id (h.numbered number) blocks ↔
      ∀ b ∈ blocks, ∀ m, .var m ∈ b.operands → s.values.rank m.name = s'.values.rank m.name := by
  constructor
  · intro hfunc b hb m hm
    have hblocks := congrArg (fun f => f.blocks.values) hfunc
    simp only [definedFunc, Table.values_ofValues] at hblocks
    have hblock := congrArg Block.operands (List.map_inj_left.1 hblocks b hb)
    rw [Meaning.operands_block, Meaning.operands_block] at hblock
    exact Operand.var.inj (List.map_inj_left.1 hblock _ hm)
  · intro hranks
    have hlabels : s.labels.rank = s'.labels.rank :=
      rank_eq_of_defined hs.wf.labels hs'.wf.labels (hs.labels.trans hs'.labels.symm)
    obtain ⟨hparams, hresults⟩ := ranks_defined_eq hs hs'
    have hblocks :
        blocks.map (Meaning.block ⟨s, symbols, order⟩) = blocks.map (Meaning.block ⟨s', symbols', order⟩) := by
      refine List.map_congr_left fun b hb => Meaning.block_congr (hranks b hb) (fun r hr => ?_) ?_ ?_
      · refine (List.map_inj_left.1 hresults r.name.name ?_).symm
        exact List.mem_flatMap.2 ⟨b, hb, List.mem_map_of_mem hr⟩
      · exact funext fun m => congrFun hlabels m.name
      · exact funext fun m => congrArg (fun k => order.getD k default) (congrFun hsymbols m.name)
    have hids : (h.numbered number).named.map (fun p => s'.values.rank p.name.name) =
        h.named.map fun p => s.values.rank p.name.name := by
      rw [← Head.map_name_numbered, ← Head.map_name_numbered, Head.named_numbered_self, List.map_map,
        List.map_map] at hparams
      exact hparams
    unfold definedFunc
    rw [hblocks, bodyLocals_numbered]
    exact congrArg (fun params => Func.mk id h.name.name h.ret params h.variadic (bodyLocals h blocks) _) hids.symm

end

/-! ## Programs under two counts -/

theorem name_counted (item : Item) : item.counted.name = item.name := by
  cases item <;> rfl

theorem operands_counted (item : Item) : item.counted.operands = item.operands := by
  cases item <;> rfl

theorem names_counted (items : List Item) : (items.map Item.counted).map (·.name.name) = items.map (·.name.name) := by
  rw [List.map_map]
  exact List.map_congr_left fun item _ => congrArg Mention.name (name_counted item)

theorem symbolsFrom_counted (items : List Item) (n : GlobalId) (k : FuncId) :
    symbolsFrom n k (items.map Item.counted) = symbolsFrom n k items := by
  induction items generalizing n k with
  | nil => rfl
  | cons item items ih =>
    cases item with
    | global v => exact congrArg (.global n :: ·) (ih (n + 1) k)
    | declaration h => exact congrArg (.func k :: ·) (ih n (k + 1))
    | definition h blocks => exact congrArg (.func k :: ·) (ih n (k + 1))

section
variable {symbols symbols' : NameTable} (order : List Symbol) {items : List Item} {ss ss' : List Scope}

theorem globalsFrom_counted (hsymbols : symbols.rank = symbols'.rank)
    (hss : List.Forall₂ (fun item s => item.scope = .ok s) items ss)
    (hss' : List.Forall₂ (fun item s => item.scope = .ok s) (items.map Item.counted) ss') (n : GlobalId) :
    globalsFrom symbols order n (items.zip ss) = globalsFrom symbols' order n ((items.map Item.counted).zip ss') := by
  induction hss generalizing ss' n with
  | nil => rfl
  | @cons item s items ss hs _ ih =>
    cases hss' with
    | @cons _ s' _ ss' hs' hss' =>
      cases item with
      | global v =>
        cases hs
        cases hs'
        have hoperand : Meaning.operand ⟨{}, symbols, order⟩ = Meaning.operand ⟨{}, symbols', order⟩ := by
          funext v
          cases v with
          | symbol m => exact congrArg (fun k => Operand.symbol (order.getD k default)) (congrFun hsymbols m.name)
          | _ => rfl
        refine congrArg₂ List.cons ?_ (ih hss' (n + 1))
        unfold resolvedGlobal
        rw [hoperand]
      | declaration h => exact ih hss' n
      | definition h blocks => exact ih hss' n

theorem funcsFrom_counted_iff (hsymbols : symbols.rank = symbols'.rank)
    (hss : List.Forall₂ (fun item s => item.scope = .ok s) items ss)
    (hss' : List.Forall₂ (fun item s => item.scope = .ok s) (items.map Item.counted) ss') (k : FuncId) :
    funcsFrom symbols order k (items.zip ss) = funcsFrom symbols' order k ((items.map Item.counted).zip ss') ↔
      ∀ h blocks, .definition h blocks ∈ items → Undisturbed h blocks := by
  induction hss generalizing ss' k with
  | nil => simp [funcsFrom]
  | @cons item s items ss hs _ ih =>
    cases hss' with
    | @cons _ s' _ ss' hs' hss' =>
      have htail := ih hss'
      cases item with
      | global v =>
        refine (htail k).trans ?_
        simp
      | declaration h =>
        refine (List.cons_inj_right _).trans ((htail (k + 1)).trans ?_)
        simp
      | definition h blocks =>
        have hbinds := Scope.binds_of_ofBody hs
        have hbinds' := Scope.binds_of_ofBody hs'
        have hfunc := (definedFunc_numbered_iff order hbinds hbinds' hsymbols k).trans
          (undisturbed_iff hbinds hbinds')
        refine List.cons_eq_cons.trans ((and_congr hfunc (htail (k + 1))).trans ?_)
        simp [or_imp, forall_and]

end

/-- A program is closed if it is under the count, and no body tells the difference. -/
theorem closed_of_counted {items : List Item} (hc : Closed (items.map Item.counted))
    (hnumberless : ∀ h blocks, .definition h blocks ∈ items → h.Numberless)
    (hundisturbed : ∀ h blocks, .definition h blocks ∈ items → Undisturbed h blocks) : Closed items where
  names := names_counted items ▸ hc.names
  symbols item hitem m hm := by
    have hcounted := hc.symbols item.counted (List.mem_map_of_mem hitem) m (by rwa [operands_counted])
    rwa [names_counted] at hcounted
  bodies h blocks hitem := by
    have hcounted := hc.bodies h.counted blocks (List.mem_map_of_mem (f := Item.counted) hitem)
    exact closedBody_placed hcounted (hnumberless h blocks hitem)
      (fun i hi hne => (hundisturbed h blocks hitem i hi hne).1)
      fun i hi hne => (hundisturbed h blocks hitem i hi hne).2

/-- Two programs that are the same but for the count resolve to one module if, and only if, no body tells the
difference. -/
theorem Resolved.eq_iff_undisturbed {items : List Item} {symbols symbols' : NameTable} {ss ss' : List Scope}
    {m m' : Module} (hr : Resolved items symbols ss m) (hr' : Resolved (items.map Item.counted) symbols' ss' m') :
    m = m' ↔ ∀ h blocks, .definition h blocks ∈ items → Undisturbed h blocks := by
  have hsymbols := rank_eq_of_defined hr.wf hr'.wf
    (hr.defined.trans ((names_counted items).symm.trans hr'.defined.symm))
  have hfuncs := funcsFrom_counted_iff (symbolsFrom 0 0 items) hsymbols hr.scopes hr'.scopes 0
  have hglobals := globalsFrom_counted (symbolsFrom 0 0 items) hsymbols hr.scopes hr'.scopes 0
  rw [← hfuncs]
  have hm := hr.funcs
  have hm' := hr'.funcs
  rw [symbolsFrom_counted] at hm'
  constructor
  · rintro rfl
    have hvalues := congrArg Table.values (hm.symm.trans hm')
    rwa [Table.values_ofValues, Table.values_ofValues] at hvalues
  · intro hsame
    have hglobals' : m.globals = m'.globals := by rw [hr.globals, hr'.globals, symbolsFrom_counted, hglobals]
    have hfuncs' : m.funcs = m'.funcs := by rw [hm, hm', hsame]
    cases m
    cases m'
    exact congrArg₂ Module.mk hglobals' hfuncs'

theorem proper_counted {item : Item} (h : item.Proper) : item.counted.Proper := by
  cases item <;> exact h

/-- Suppose that a program would resolve to a module if the parameters without a name were counted for themselves, so
that uses of their numbers in the count are bound to them. Then the text of the program is read as this module if, and
only if, no body tells that they are called by their places instead. -/
theorem parseModule_counted_iff {text : String} {items : List Item} {m : Module}
    (hprogram : program text.toList = .ok (items, []))
    (hnumberless : ∀ h blocks, .definition h blocks ∈ items → h.Numberless)
    (hcounted : resolve (items.map Item.counted) = .ok m) :
    Binds (items.map Item.counted) m ∧
      (parseModule text = .ok m ↔ ∀ h blocks, .definition h blocks ∈ items → Undisturbed h blocks) := by
  obtain ⟨-, -, hproper⟩ := program_spec hprogram
  obtain ⟨symbols', ss', hr'⟩ := resolved_of_resolve hcounted
  have hread : parseModule text = .ok m ↔ resolve items = .ok m := by
    rw [parseModule_eq_ok_iff, read_eq_ok_iff]
    constructor
    · rintro ⟨items', r, hprogram', hm⟩
      rw [hprogram] at hprogram'
      cases hprogram'
      exact hm
    · exact fun hm => ⟨items, [], hprogram, hm⟩
  refine ⟨hr'.bindsItems fun item hitem => ?_, hread.trans ⟨fun hm => ?_, fun hundisturbed => ?_⟩⟩
  · obtain ⟨source, hsource, rfl⟩ := List.mem_map.1 hitem
    exact proper_counted (hproper source hsource)
  · obtain ⟨symbols, ss, hr⟩ := resolved_of_resolve hm
    exact (hr.eq_iff_undisturbed hr').1 rfl
  · have hclosed := closed_of_counted (exists_resolve_iff.1 ⟨m, hcounted⟩) hnumberless hundisturbed
    obtain ⟨m', hm'⟩ := exists_resolve_iff.2 hclosed
    obtain ⟨symbols, ss, hr⟩ := resolved_of_resolve hm'
    rw [hm', (hr.eq_iff_undisturbed hr').2 hundisturbed]

/-! ## Functions that answer a parameter -/

/-- A function of integers that answers one of them. -/
def answering (place : List Char) (params : List (Option Mention)) (answer : Mention) : Item :=
  .definition ⟨.int 32, ⟨"f", place⟩, params.map fun name => ⟨.int 32, name⟩, false⟩
    [⟨none, [], .ret (some (.var answer))⟩]

/-- The module of a function of integers that answers one of them. -/
def answeringModule (params : List (Option String)) (answer : LocalId) : Module where
  globals := .empty
  funcs := .ofValues [{
    id := 0, name := "f", ret := .int 32, params := List.range params.length, variadic := false
    locals := .ofValues (params.mapIdx fun x name => ⟨x, .int 32, name⟩)
    blocks := .ofValues [⟨0, none, [], .ret (some (.var answer))⟩] }]

theorem numberless_answering {place : List Char} {params : List (Option Mention)} {answer : Mention}
    (hparams : ∀ name ∈ params, ∀ m ∈ name, isNumber m.name = false) {h : Head} {blocks : List NamedBlock}
    (hitem : .definition h blocks ∈ [answering place params answer]) : h.Numberless := by
  cases List.mem_singleton.1 hitem
  intro p hp m hm
  obtain ⟨name, hname, rfl⟩ := List.mem_map.1 hp
  exact hparams name hname m hm

/-- The first of two parameters without a name, which no parameter stands before. -/
def firstText : String := "define i32 @f(i32, i32 %a, i32) {
  ret i32 %0
}
"

/-- The program of `firstText`. -/
def firstItems : List Item :=
  [answering (firstText.toList.drop 11) [none, some ⟨"a", firstText.toList.drop 23⟩, none]
    ⟨"0", firstText.toList.drop 44⟩]

theorem parseModule_counted_first : program firstText.toList = .ok (firstItems, []) ∧
    (∀ h blocks, .definition h blocks ∈ firstItems → h.Numberless) ∧
    resolve (firstItems.map Item.counted) = .ok (answeringModule [none, some "a", none] 0) ∧
    Binds (firstItems.map Item.counted) (answeringModule [none, some "a", none] 0) ∧
    (parseModule firstText = .ok (answeringModule [none, some "a", none] 0) ↔
      ∀ h blocks, .definition h blocks ∈ firstItems → Undisturbed h blocks) := by
  have hprogram : program firstText.toList = .ok (firstItems, []) := Outcome.toOption_eq_some_iff.1 (by decide +kernel)
  have hnumberless : ∀ h blocks, .definition h blocks ∈ firstItems → h.Numberless := fun _ _ =>
    numberless_answering (by decide)
  have hcounted : resolve (firstItems.map Item.counted) = .ok (answeringModule [none, some "a", none] 0) :=
    Outcome.toOption_eq_some_iff.1 (by decide +kernel)
  exact ⟨hprogram, hnumberless, hcounted, parseModule_counted_iff hprogram hnumberless hcounted⟩

/-- The only parameter without a name, behind one with a name. -/
def laterText : String := "define i32 @f(i32 %a, i32) {
  ret i32 %0
}
"

/-- The program of `laterText`. -/
def laterItems : List Item :=
  [answering (laterText.toList.drop 11) [some ⟨"a", laterText.toList.drop 18⟩, none] ⟨"0", laterText.toList.drop 39⟩]

/-- The second of two parameters without a name. Its number in the count is the place of the first one. -/
def secondText : String := "define i32 @f(i32 %a, i32, i32 %b, i32) {
  ret i32 %1
}
"

/-- The program of `secondText`. -/
def secondItems : List Item :=
  [answering (secondText.toList.drop 11)
    [some ⟨"a", secondText.toList.drop 18⟩, none, some ⟨"b", secondText.toList.drop 31⟩, none]
    ⟨"1", secondText.toList.drop 52⟩]

/-- A parameter that is called by its number in the count is not found, or another one is found in its place. -/
theorem not_parseModule_counted :
    (program laterText.toList = .ok (laterItems, []) ∧
      (∀ h blocks, .definition h blocks ∈ laterItems → h.Numberless) ∧
      resolve (laterItems.map Item.counted) = .ok (answeringModule [some "a", none] 1) ∧
      ∀ m, parseModule laterText ≠ .ok m) ∧
    program secondText.toList = .ok (secondItems, []) ∧
      (∀ h blocks, .definition h blocks ∈ secondItems → h.Numberless) ∧
      resolve (secondItems.map Item.counted) = .ok (answeringModule [some "a", none, some "b", none] 3) ∧
      parseModule secondText = .ok (answeringModule [some "a", none, some "b", none] 1) := by
  have hrefused : (parseModule laterText).isOk = false := by decide +kernel
  refine ⟨⟨Outcome.toOption_eq_some_iff.1 (by decide +kernel), fun _ _ => numberless_answering (by decide),
    Outcome.toOption_eq_some_iff.1 (by decide +kernel), fun m hm => ?_⟩,
    Outcome.toOption_eq_some_iff.1 (by decide +kernel), fun _ _ => numberless_answering (by decide),
    Outcome.toOption_eq_some_iff.1 (by decide +kernel), Outcome.toOption_eq_some_iff.1 (by decide +kernel)⟩
  rw [hm] at hrefused
  cases hrefused

end SSALint.Source
