/-
Places do not matter to the names of a program. What a program resolves to, given its tables of names, is what the
bare program resolves to (`funcsFrom_bare`, `globalsFrom_bare`), and the one is closed if the other is
(`closed_of_bare`).
-/
import SSALint.Proofs.IR.Operands
import SSALint.Proofs.Source.Closed
import SSALint.Proofs.Source.Unresolved

namespace SSALint

/-! ## Renamings -/

section
variable {L S B L' S' B' L'' S'' B'' : Type}

theorem Operation.rename_rename (f : Operand L S → Operand L' S') (f' : Operand L' S' → Operand L'' S'')
    (g : B → B') (g' : B' → B'') (o : Operation L S B) :
    ((((o.mapOperands fun _ => f).mapTargets fun _ => g).mapOperands fun _ => f').mapTargets fun _ => g') =
      (o.mapOperands fun _ v => f' (f v)).mapTargets fun _ b => g' (g b) := by
  cases o <;> simp [mapOperands, mapTargets, mapIdx_const, Function.comp_def]

theorem Terminator.rename_rename (f : Operand L S → Operand L' S') (f' : Operand L' S' → Operand L'' S'')
    (g : B → B') (g' : B' → B'') (t : Terminator L S B) :
    ((((t.mapOperands fun _ => f).mapTargets fun _ => g).mapOperands fun _ => f').mapTargets fun _ => g') =
      (t.mapOperands fun _ v => f' (f v)).mapTargets fun _ b => g' (g b) := by
  cases t <;> simp [mapOperands, mapTargets, mapIdx_const, Function.comp_def]

/-- A renaming that changes no operand and no target changes nothing. -/
theorem Operation.rename_self {f : Operand L S → Operand L S} {g : B → B} {o : Operation L S B}
    (hf : ∀ v ∈ o.operands, f v = v) (hg : ∀ b ∈ o.targets, g b = b) :
    ((o.mapOperands fun _ => f).mapTargets fun _ => g) = o := by
  cases o with
  | phi t incoming =>
    have halt : ∀ alt ∈ incoming, (f alt.1, g alt.2) = alt := fun alt halt =>
      Prod.ext (hf _ (List.mem_map.2 ⟨alt, halt, rfl⟩)) (hg _ (List.mem_map.2 ⟨alt, halt, rfl⟩))
    simpa [mapOperands, mapTargets, mapIdx_const, Function.comp_def] using
      (List.map_congr_left halt).trans (List.map_id _)
  | getElementPtr t ptr indices =>
    simp only [operands, List.forall_mem_cons] at hf
    simpa [mapOperands, mapTargets, mapIdx_const, hf.1] using (List.map_congr_left hf.2).trans (List.map_id _)
  | call ret callee args =>
    simp only [operands, List.forall_mem_cons] at hf
    simpa [mapOperands, mapTargets, mapIdx_const, hf.1] using (List.map_congr_left hf.2).trans (List.map_id _)
  | _ => simp_all [operands, mapOperands, mapTargets]

theorem Terminator.rename_self {f : Operand L S → Operand L S} {g : B → B} {t : Terminator L S B}
    (hf : ∀ v ∈ t.operands, f v = v) (hg : ∀ b ∈ t.targets, g b = b) :
    ((t.mapOperands fun _ => f).mapTargets fun _ => g) = t := by
  cases t with
  | switch value default cases =>
    simp only [targets, List.forall_mem_cons] at hg
    have hcase : ∀ case ∈ cases, (case.1, g case.2) = case := fun case hcase =>
      Prod.ext rfl (hg.2 _ (List.mem_map.2 ⟨case, hcase, rfl⟩))
    have hvalue : f value = value := hf value List.mem_cons_self
    simpa [mapOperands, mapTargets, mapIdx_const, hvalue, hg.1] using (List.map_congr_left hcase).trans (List.map_id _)
  | indirectBr address targets =>
    have haddress : f address = address := hf address List.mem_cons_self
    have htargets : targets.map g = targets := (List.map_congr_left hg).trans (List.map_id _)
    simp [mapOperands, mapTargets, mapIdx_const, haddress, htargets]
  | ret value => cases value <;> simp_all [operands, mapOperands, mapTargets]
  | _ => simp_all [operands, targets, mapOperands, mapTargets]

end

namespace Source

/-! ## Meanings -/

namespace Meaning

variable (g : Meaning)

theorem operand_bareValue (v : NamedValue) : g.operand (bareValue v) = g.operand v := by
  cases v <;> rfl

theorem instr_bare (i : NamedInstr) : g.instr i.bare = g.instr i := by
  have hresult : i.bare.result.map (fun r => g.value r.name) = i.result.map fun r => g.value r.name :=
    Option.map_map _ _ _
  unfold instr
  rw [hresult]
  simp only [NamedInstr.bare, bareOperation, Operation.rename_rename, operand_bareValue]
  rfl

theorem block_bare (b : NamedBlock) : g.block b.bare = g.block b := by
  have hlabel : b.bare.label.map (·.name) = b.label.map (·.name) := Option.map_map _ _ _
  have hname : g.label b.bare.name = g.label b.name := by
    unfold NamedBlock.name NamedBlock.bare
    cases b.label <;> rfl
  unfold block
  rw [hlabel, hname]
  simp only [NamedBlock.bare, bareTerminator, Terminator.rename_rename, operand_bareValue, List.map_map]
  congr 1
  exact List.map_congr_left fun i _ => g.instr_bare i

end Meaning

/-! ## Bodies -/

/-- A result whose name stands nowhere. -/
def NamedResult.bare (r : NamedResult) : NamedResult := ⟨r.name.bare, r.type⟩

theorem mapIdx_map {α β γ : Type} (f : Nat → β → γ) (g : α → β) (xs : List α) :
    (xs.map g).mapIdx f = xs.mapIdx fun i x => f i (g x) := by
  apply List.ext_getElem <;> simp

theorem named_bare (h : Head) : h.bare.named = h.named.map NamedResult.bare := by
  have hparam : ∀ (i : Nat) (p : NamedParam), NamedResult.mk ((p.name.map Mention.bare).getD ⟨toString i, []⟩) p.type =
      NamedResult.bare ⟨p.name.getD ⟨toString i, h.name.rest⟩, p.type⟩ := by
    intro i p
    cases p.name <;> rfl
  unfold Head.named Head.bare
  rw [mapIdx_map]
  apply List.ext_getElem
  · simp
  · intro i hi hi'
    rw [List.getElem_mapIdx, List.getElem_map, List.getElem_mapIdx]
    exact hparam i _

theorem results_bare (b : NamedBlock) : b.bare.results = b.results.map NamedResult.bare := by
  unfold NamedBlock.results NamedBlock.bare
  rw [List.filterMap_map, List.map_filterMap]
  rfl

theorem definedValues_bare (h : Head) (blocks : List NamedBlock) :
    definedValues h.bare (blocks.map .bare) = (definedValues h blocks).map NamedResult.bare := by
  unfold definedValues
  rw [List.map_append, named_bare, List.flatMap_map, List.map_flatMap]
  congr 2
  funext b
  exact results_bare b

theorem definedFunc_bare (g : Meaning) (id : FuncId) (h : Head) (blocks : List NamedBlock) :
    definedFunc g id h.bare (blocks.map .bare) = definedFunc g id h blocks := by
  have hparams : h.bare.named.map (fun p => g.value p.name) = h.named.map fun p => g.value p.name := by
    rw [named_bare, List.map_map]
    rfl
  have hlocals : bodyLocals h.bare (blocks.map .bare) = bodyLocals h blocks := by
    unfold bodyLocals
    rw [definedValues_bare, mapIdx_map]
    rfl
  have hblocks : (blocks.map NamedBlock.bare).map g.block = blocks.map g.block := by
    rw [List.map_map]
    exact List.map_congr_left fun b _ => g.block_bare b
  unfold definedFunc
  rw [hparams, hlocals, hblocks]
  rfl

theorem declaredFunc_bare (id : FuncId) (h : Head) : declaredFunc id h.bare = declaredFunc id h := by
  have hlength : h.bare.params.length = h.params.length := List.length_map _
  have hlocals : h.bare.params.mapIdx (fun id p => Local.mk id p.type none) =
      h.params.mapIdx fun id p => Local.mk id p.type none := mapIdx_map _ _ _
  unfold declaredFunc
  rw [hlength, hlocals]
  rfl

/-! ## Programs -/

theorem symbolsFrom_bare (items : List Item) (n : GlobalId) (k : FuncId) :
    symbolsFrom n k (items.map .bare) = symbolsFrom n k items := by
  induction items generalizing n k with
  | nil => rfl
  | cons item items ih => cases item <;> simp [symbolsFrom, Item.bare, ih]

section
variable (symbols : NameTable) (order : List Symbol)

theorem globalsFrom_bare (items : List Item) (ss : List Scope) (n : GlobalId) :
    globalsFrom symbols order n ((items.map .bare).zip ss) = globalsFrom symbols order n (items.zip ss) := by
  induction items generalizing ss n with
  | nil => rfl
  | cons item items ih =>
    cases ss with
    | nil => rfl
    | cons s ss =>
      cases item with
      | global v =>
        have hinit : (v.init.map bareValue).map (Meaning.operand ⟨s, symbols, order⟩) =
            v.init.map (Meaning.operand ⟨s, symbols, order⟩) := by
          rw [Option.map_map]
          exact congrArg (Option.map · v.init) (funext fun w => Meaning.operand_bareValue _ w)
        have hglobal : resolvedGlobal ⟨s, symbols, order⟩ n v.bare = resolvedGlobal ⟨s, symbols, order⟩ n v := by
          unfold resolvedGlobal NamedGlobal.bare
          rw [hinit]
          simp only [Option.isNone_map]
          rfl
        exact congrArg₂ List.cons hglobal (ih ss (n + 1))
      | declaration h => exact ih ss n
      | definition h blocks => exact ih ss n

theorem funcsFrom_bare (items : List Item) (ss : List Scope) (k : FuncId) :
    funcsFrom symbols order k ((items.map .bare).zip ss) = funcsFrom symbols order k (items.zip ss) := by
  induction items generalizing ss k with
  | nil => rfl
  | cons item items ih =>
    cases ss with
    | nil => rfl
    | cons s ss =>
      cases item with
      | global v => exact ih ss k
      | declaration h => exact congrArg₂ List.cons (declaredFunc_bare k h) (ih ss (k + 1))
      | definition h blocks => exact congrArg₂ List.cons (definedFunc_bare _ k h blocks) (ih ss (k + 1))

end

/-! ## Closed programs -/

theorem operands_bare (b : NamedBlock) : b.bare.operands = b.operands.map bareValue := by
  simp only [NamedBlock.operands, NamedBlock.bare, NamedInstr.bare, bareOperation, bareTerminator, List.flatMap_map,
    List.map_append, List.map_flatMap, Operation.operands_mapTargets, Operation.operands_mapOperands,
    Terminator.operands_mapTargets, Terminator.operands_mapOperands, mapIdx_const]

theorem targets_bare (b : NamedBlock) : b.bare.targets = b.targets.map .bare := by
  simp only [NamedBlock.targets, NamedBlock.bare, NamedInstr.bare, bareOperation, bareTerminator, List.flatMap_map,
    List.map_append, List.map_flatMap, Operation.targets_mapTargets, Operation.targets_mapOperands,
    Terminator.targets_mapTargets, Terminator.targets_mapOperands, mapIdx_const]

theorem name_bare (b : NamedBlock) : b.bare.name.name = b.name.name := by
  unfold NamedBlock.name NamedBlock.bare
  cases b.label <;> rfl

theorem Item.operands_bare (item : Item) : item.bare.operands = item.operands.map bareValue := by
  cases item with
  | global v => exact Option.toList_map
  | declaration h => rfl
  | definition h blocks =>
    show (blocks.map NamedBlock.bare).flatMap NamedBlock.operands = (blocks.flatMap NamedBlock.operands).map bareValue
    rw [List.flatMap_map, List.map_flatMap]
    exact congrArg (List.flatMap · blocks) (funext Source.operands_bare)

theorem names_bare (items : List Item) : (items.map Item.bare).map (·.name.name) = items.map (·.name.name) := by
  rw [List.map_map]
  refine List.map_congr_left fun item _ => ?_
  cases item <;> rfl

theorem valueNames_bare (h : Head) (blocks : List NamedBlock) :
    (definedValues h.bare (blocks.map .bare)).map (·.name.name) = (definedValues h blocks).map (·.name.name) := by
  rw [definedValues_bare, List.map_map]
  rfl

theorem labelNames_bare (blocks : List NamedBlock) :
    (blocks.map NamedBlock.bare).map (·.name.name) = blocks.map (·.name.name) := by
  rw [List.map_map]
  exact List.map_congr_left fun b _ => name_bare b

theorem closedBody_of_bare {h : Head} {blocks : List NamedBlock} (hc : ClosedBody h.bare (blocks.map .bare)) :
    ClosedBody h blocks := by
  have hvalues := valueNames_bare h blocks
  have hlabels := labelNames_bare blocks
  refine ⟨hvalues ▸ hc.values, hlabels ▸ hc.labels, fun b hb m hm => ?_, fun b hb m hm => ?_⟩
  · rw [← hvalues]
    refine hc.vars b.bare (List.mem_map.2 ⟨b, hb, rfl⟩) m.bare ?_
    rw [Source.operands_bare]
    exact List.mem_map.2 ⟨_, hm, rfl⟩
  · rw [← hlabels]
    refine hc.targets b.bare (List.mem_map.2 ⟨b, hb, rfl⟩) m.bare ?_
    rw [targets_bare]
    exact List.mem_map.2 ⟨_, hm, rfl⟩

/-- A program is closed if its names are, wherever they stand. -/
theorem closed_of_bare {items : List Item} (hc : Closed (items.map .bare)) : Closed items := by
  refine ⟨names_bare items ▸ hc.names, fun item hitem m hm => ?_, fun h blocks hitem => ?_⟩
  · rw [← names_bare]
    refine hc.symbols item.bare (List.mem_map.2 ⟨item, hitem, rfl⟩) m.bare ?_
    rw [Item.operands_bare]
    exact List.mem_map.2 ⟨_, hm, rfl⟩
  · exact closedBody_of_bare (hc.bodies h.bare (blocks.map .bare) (List.mem_map.2 ⟨_, hitem, rfl⟩))

/-- The scope of a definition has the names that the bare definition defines. -/
theorem defined_of_bare {items : List Item} {ss : List Scope}
    (hscopes : List.Forall₂ (fun item s => item.scope = .ok s) items ss) {h : Head} {blocks : List NamedBlock}
    {s : Scope} (hmem : (Item.definition h blocks, s) ∈ (items.map Item.bare).zip ss) :
    s.Wf ∧ s.values.defined = (definedValues h blocks).map (·.name.name) ∧
      s.labels.defined = blocks.map (·.name.name) := by
  rw [List.zip_map_left] at hmem
  obtain ⟨⟨item, s'⟩, hzip, heq⟩ := List.mem_map.1 hmem
  obtain ⟨hitem, rfl⟩ := Prod.mk.inj heq
  have hscope := List.forall₂_zip hscopes hzip
  cases item with
  | global v => cases hitem
  | declaration h => cases hitem
  | definition h blocks =>
    cases hitem
    have hs := Scope.binds_of_ofBody hscope
    exact ⟨hs.wf, hs.values.trans (valueNames_bare h blocks).symm, hs.labels.trans (labelNames_bare blocks).symm⟩

end Source
end SSALint
