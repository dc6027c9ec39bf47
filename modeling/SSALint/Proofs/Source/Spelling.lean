/-
What the grammar answers is well spelled: the names that an item defines are words, its types can be written, and lists
that cannot be empty are not (`wellSpelled_program`).
-/
import SSALint.Proofs.IR.WellSpelled
import SSALint.Proofs.Source.Literals
import SSALint.Proofs.Source.Places
import SSALint.Proofs.Source.ReadsProgram
import SSALint.Proofs.Source.TypeText

namespace SSALint

/-! ## Parts of types -/

namespace Ty

theorem Writable.field? {t u : Ty} {index : UInt32} (ht : t.Writable) (h : t.field? index = some u) : u.Writable := by
  cases t with
  | struct fields => exact writableFields_iff.1 ht u (List.mem_of_getElem? h)
  | array length elem =>
    obtain ⟨-, h⟩ := Option.ite_none_right_eq_some.1 h
    exact Option.some.inj h ▸ ht
  | _ => cases h

theorem Writable.at? {t u : Ty} {path : List UInt32} (ht : t.Writable) (h : t.at? path = some u) : u.Writable := by
  induction path generalizing t with
  | nil =>
    cases h
    exact ht
  | cons index path ih =>
    obtain ⟨v, hv, h⟩ := Option.bind_eq_some_iff.1 h
    exact ih (ht.field? hv) h

theorem Writable.vectorElem? {t u : Ty} (ht : t.Writable) (h : t.vectorElem? = some u) : u.Writable := by
  cases t with
  | vector length elem =>
    cases h
    exact ht
  | _ => cases h

end Ty

namespace Source

/-! ## Definitions -/

/-- The name of a result is a word, and its type can be written. -/
def NamedResult.WellSpelled (r : NamedResult) : Prop := r.type.Writable ∧ IsWord r.name.name

/-- The result of an instruction is well spelled, and so is its operation. -/
structure NamedInstr.WellSpelled (i : NamedInstr) : Prop where
  result : ∀ r ∈ i.result, r.WellSpelled
  operation : i.operation.WellSpelled

/-- The label of a block, if it has got one, is a word, and its instructions are well spelled. -/
structure NamedBlock.WellSpelled (b : NamedBlock) : Prop where
  label : ∀ m ∈ b.label, IsWord m.name
  instrs : ∀ i ∈ b.instrs, i.WellSpelled
  terminator : b.terminator.WellSpelled

/-- The names that an item defines are words, its types can be written, and its body is well spelled. -/
def Item.WellSpelled : Item → Prop
  | .global g => IsWord g.name.name ∧ g.type.Writable
  | .declaration head => head.Writable
  | .definition head blocks => head.Writable ∧ ∀ b ∈ blocks, b.WellSpelled

/-- An operation is well spelled, and the type of its result can be written. -/
structure TypedOperation.WellSpelled (o : TypedOperation) : Prop where
  operation : o.1.WellSpelled
  result : ∀ t ∈ o.2, t.Writable

/-! ## Names -/

theorem isWord_word : word.Yields IsWord := by
  refine .bind (p := run isWordChar .word) (Q := fun cs => cs ≠ [] ∧ ∀ c ∈ cs, isWordChar c = true) ?_ fun cs hcs =>
    .pure ⟨?_, ?_⟩
  · intro s cs r h
    unfold run at h
    split at h
    · cases h
    · rename_i hne
      cases h
      exact ⟨hne, fun c hc => List.mem_takeWhile_imp hc⟩
  · rw [String.toList_ofList]
    exact hcs.1
  · rw [String.toList_ofList]
    exact hcs.2

theorem isWord_sigilName (sigil : Char) : (sigilName sigil).Yields (IsWord ·.name) :=
  .skip fun _ => .skip fun _ => .skip fun _ => .bind isWord_word fun _ hname => .pure hname

theorem isWord_labelName : labelName.Yields (IsWord ·.name) :=
  .skip fun _ => .skip fun _ => .bind isWord_word fun _ hname => .skip fun _ => .pure hname

/-! ## Values -/

theorem Parser.Yields.comma {α : Type} {p : Parser α} {Q : α → Prop} (hp : p.Yields Q) : (comma p).Yields Q :=
  .skip fun _ => hp

theorem wellSpelled_value {t : Ty} (ht : t.Writable) : (value t).Yields Operand.WellSpelled := by
  refine (under_value t).weaken fun v hv => ?_
  cases v with
  | const c =>
    have hc : c.Under t := hv c rfl
    show c.type.Writable
    cases c with
    | null => trivial
    | undef type => exact hc ▸ ht
    | float type x => exact hc.1 ▸ ht
    | int bits x =>
      rcases hc with rfl | ⟨rfl, -⟩
      · exact ht
      · show (1 : UInt32) ≠ 0
        decide
  | _ => trivial

theorem wellSpelled_typedValue : typedValue.Yields fun x => x.1.Writable ∧ x.2.WellSpelled :=
  .bind writable_ty fun _ ht => .bind (wellSpelled_value ht) fun _ hv => .pure ⟨ht, hv⟩

theorem wellSpelled_operand : operand.Yields Operand.WellSpelled :=
  .bind wellSpelled_typedValue fun _ hx => .pure hx.2

theorem wellSpelled_pair {t : Ty} (ht : t.Writable) :
    (pair t).Yields fun x => ∀ v ∈ [x.1, x.2], v.WellSpelled :=
  .bind (wellSpelled_value ht) fun _ hlhs => .bind (wellSpelled_value ht).comma fun _ hrhs =>
    .pure (List.forall_mem_cons.2 ⟨hlhs, List.forall_mem_singleton.2 hrhs⟩)

/-! ## Operations -/

theorem wellSpelled_alloca : alloca.Yields TypedOperation.WellSpelled :=
  .bind writable_ty fun _ ht => .pure {
    operation := ⟨List.forall_mem_singleton.2 ht, nofun, trivial⟩
    result := fun _ h => Option.some.inj h ▸ trivial }

theorem wellSpelled_load : load.Yields TypedOperation.WellSpelled :=
  .bind writable_ty fun _ ht => .bind wellSpelled_operand.comma fun _ hptr => .pure {
    operation := ⟨List.forall_mem_singleton.2 ht, List.forall_mem_singleton.2 hptr, trivial⟩
    result := fun _ h => Option.some.inj h ▸ ht }

theorem wellSpelled_store : store.Yields TypedOperation.WellSpelled :=
  .bind wellSpelled_operand fun _ hv => .bind wellSpelled_operand.comma fun _ hptr => .pure {
    operation := ⟨nofun, List.forall_mem_cons.2 ⟨hv, List.forall_mem_singleton.2 hptr⟩, trivial⟩
    result := nofun }

theorem wellSpelled_binary (op : BinaryOp) : (binary op).Yields TypedOperation.WellSpelled :=
  .bind writable_ty fun _ ht => .bind (wellSpelled_pair ht) fun _ hx => .pure {
    operation := ⟨List.forall_mem_singleton.2 ht, hx, trivial⟩
    result := fun _ h => Option.some.inj h ▸ ht }

theorem wellSpelled_cast (op : CastOp) : (cast op).Yields TypedOperation.WellSpelled :=
  .bind wellSpelled_operand fun _ hv => .skip fun _ => .bind writable_ty fun _ ht => .pure {
    operation := ⟨List.forall_mem_singleton.2 ht, List.forall_mem_singleton.2 hv, trivial⟩
    result := fun _ h => Option.some.inj h ▸ ht }

theorem wellSpelled_compare {P : Type} [Spelled P] (place : List Char) (unknown : Complaint)
    {make : P → Ty → NamedValue → NamedValue → Operation Mention Mention Mention}
    (hmake : ∀ p t lhs rhs, t.Writable → (∀ v ∈ [lhs, rhs], v.WellSpelled) → (make p t lhs rhs).WellSpelled) :
    (compare place unknown make).Yields TypedOperation.WellSpelled := by
  unfold compare
  refine .skip fun _ => .skip fun pred => .bind writable_ty fun t ht => .bind (wellSpelled_pair ht) fun x hx => ?_
  obtain ⟨lhs, rhs⟩ := x
  cases hpred : (Spelled.ofWord? pred : Option P) with
  | none => exact .failAt
  | some p =>
    exact .pure {
      operation := hmake p t lhs rhs ht hx
      result := fun _ h => Option.some.inj h ▸ (by decide) }

theorem wellSpelled_incoming {t : Ty} (ht : t.Writable) : (incoming t).Yields (·.1.WellSpelled) :=
  .skip fun _ => .bind (wellSpelled_value ht) fun _ hv => .skip fun _ => .skip fun _ => .pure hv

theorem wellSpelled_phi : phi.Yields TypedOperation.WellSpelled :=
  .bind writable_ty fun _ ht => .bind (.sepBy1 (wellSpelled_incoming ht)) fun _ halts => .pure {
    operation := ⟨List.forall_mem_singleton.2 ht, List.forall_mem_map.2 halts.2, halts.1⟩
    result := fun _ h => Option.some.inj h ▸ ht }

theorem wellSpelled_select : select.Yields TypedOperation.WellSpelled := by
  refine .bind wellSpelled_operand fun cond hcond => .bind wellSpelled_typedValue.comma fun x hx => ?_
  exact .bind wellSpelled_operand.comma fun other hother => .pure {
    operation := ⟨nofun, List.forall_mem_cons.2 ⟨hcond, List.forall_mem_cons.2
      ⟨hx.2, List.forall_mem_singleton.2 hother⟩⟩, trivial⟩
    result := fun _ h => Option.some.inj h ▸ hx.1 }

theorem wellSpelled_getElementPtr : getElementPtr.Yields TypedOperation.WellSpelled :=
  .skip fun _ => .bind writable_ty fun _ ht => .bind wellSpelled_operand.comma fun _ hptr =>
    .bind (.many (.behind wellSpelled_operand)) fun _ hindices => .pure {
      operation := ⟨List.forall_mem_singleton.2 ht, List.forall_mem_cons.2 ⟨hptr, hindices⟩, trivial⟩
      result := fun _ h => Option.some.inj h ▸ trivial }

/-- A path has a step. -/
theorem ne_nil_path : path.Yields (· ≠ []) := by
  unfold path
  refine .skip fun indices => ?_
  split
  · exact .fail
  · rename_i hne
    exact .pure hne

theorem wellSpelled_extractValue (place : List Char) : (extractValue place).Yields TypedOperation.WellSpelled := by
  unfold extractValue
  refine .bind wellSpelled_typedValue fun x hx => .bind ne_nil_path fun indices hindices => ?_
  cases hfield : x.1.at? indices with
  | none => exact .failAt
  | some field =>
    exact .pure {
      operation := ⟨nofun, List.forall_mem_singleton.2 hx.2, hindices⟩
      result := fun _ h => Option.some.inj h ▸ hx.1.at? hfield }

theorem wellSpelled_insertValue : insertValue.Yields TypedOperation.WellSpelled :=
  .bind wellSpelled_typedValue fun _ hx => .bind wellSpelled_operand.comma fun _ hv =>
    .bind ne_nil_path fun _ hindices => .pure {
      operation := ⟨nofun, List.forall_mem_cons.2 ⟨hx.2, List.forall_mem_singleton.2 hv⟩, hindices⟩
      result := fun _ h => Option.some.inj h ▸ hx.1 }

theorem wellSpelled_extractElement (place : List Char) :
    (extractElement place).Yields TypedOperation.WellSpelled := by
  unfold extractElement
  refine .bind wellSpelled_typedValue fun x hx => .bind wellSpelled_operand.comma fun index hindex => ?_
  cases helem : x.1.vectorElem? with
  | none => exact .failAt
  | some elem =>
    exact .pure {
      operation := ⟨nofun, List.forall_mem_cons.2 ⟨hx.2, List.forall_mem_singleton.2 hindex⟩, trivial⟩
      result := fun _ h => Option.some.inj h ▸ hx.1.vectorElem? helem }

theorem wellSpelled_insertElement : insertElement.Yields TypedOperation.WellSpelled :=
  .bind wellSpelled_typedValue fun _ hx => .bind wellSpelled_operand.comma fun _ hv =>
    .bind wellSpelled_operand.comma fun _ hindex => .pure {
      operation := ⟨nofun, List.forall_mem_cons.2 ⟨hx.2, List.forall_mem_cons.2
        ⟨hv, List.forall_mem_singleton.2 hindex⟩⟩, trivial⟩
      result := fun _ h => Option.some.inj h ▸ hx.1 }

theorem wellSpelled_call : call.Yields TypedOperation.WellSpelled := by
  refine .bind writable_ty fun ret hret => .bind (wellSpelled_value trivial) fun callee hcallee => .skip fun _ => ?_
  refine .bind (.listUntil wellSpelled_operand) fun args hargs => .pure ⟨⟨List.forall_mem_singleton.2 hret,
    List.forall_mem_cons.2 ⟨hcallee, hargs⟩, trivial⟩, fun t ht => ?_⟩
  dsimp only at ht
  split at ht
  · cases ht
  · exact Option.some.inj ht ▸ hret

theorem wellSpelled_operationOf? {place : List Char} {opcode : String} {p : Parser TypedOperation}
    (h : operationOf? place opcode = some p) : p.Yields TypedOperation.WellSpelled := by
  unfold operationOf? at h
  split at h
  case h_14 =>
    rw [Option.orElse_eq_orElse, Option.orElse_eq_or, Option.or_eq_some_iff] at h
    rcases h with h | ⟨-, h⟩
    · obtain ⟨op, -, rfl⟩ := Option.map_eq_some_iff.1 h
      exact wellSpelled_binary op
    · obtain ⟨op, -, rfl⟩ := Option.map_eq_some_iff.1 h
      exact wellSpelled_cast op
  all_goals cases h
  · exact wellSpelled_alloca
  · exact wellSpelled_load
  · exact wellSpelled_store
  · exact wellSpelled_compare _ _ fun _ _ _ _ ht hvs => ⟨List.forall_mem_singleton.2 ht, hvs, trivial⟩
  · exact wellSpelled_compare _ _ fun _ _ _ _ ht hvs => ⟨List.forall_mem_singleton.2 ht, hvs, trivial⟩
  · exact wellSpelled_phi
  · exact wellSpelled_select
  · exact wellSpelled_getElementPtr
  · exact wellSpelled_extractValue place
  · exact wellSpelled_insertValue
  · exact wellSpelled_extractElement place
  · exact wellSpelled_insertElement
  · exact wellSpelled_call

/-! ## Terminators -/

theorem wellSpelled_branch : branch.Yields Terminator.WellSpelled := by
  unfold branch
  refine .skip fun b => ?_
  cases b with
  | some b => exact .pure ⟨nofun, nofun⟩
  | none =>
    exact .bind wellSpelled_operand fun cond hcond => .skip fun _ => .skip fun _ =>
      .pure ⟨List.forall_mem_singleton.2 hcond, nofun⟩

theorem writable_switchCase : switchCase.Yields fun o => ∀ case ∈ o, case.1.type.Writable := by
  unfold switchCase
  refine .skip fun place => .skip fun closed => ?_
  split
  · exact .pure nofun
  · refine .bind wellSpelled_operand fun v hv => ?_
    split
    · exact .skip fun target => .pure fun _ h => Option.some.inj h ▸ hv
    · exact .failAt

theorem wellSpelled_switch : switch.Yields Terminator.WellSpelled :=
  .bind wellSpelled_operand fun _ hv => .skip fun _ => .skip fun _ => .bind (.many writable_switchCase) fun _ hcases =>
    .pure ⟨List.forall_mem_singleton.2 hv, List.forall_mem_map.2 hcases⟩

theorem wellSpelled_indirectBranch : indirectBranch.Yields Terminator.WellSpelled :=
  .bind wellSpelled_operand fun _ hv => .skip fun _ => .skip fun _ => .skip fun _ =>
    .pure ⟨List.forall_mem_singleton.2 hv, nofun⟩

theorem wellSpelled_ret : ret.Yields Terminator.WellSpelled := by
  unfold ret
  refine .skip fun isVoid => ?_
  split
  · exact .pure ⟨nofun, nofun⟩
  · exact .bind wellSpelled_operand fun v hv => .pure ⟨List.forall_mem_singleton.2 hv, nofun⟩

theorem wellSpelled_terminatorOf? {opcode : String} {p : Parser NamedTerminator}
    (h : terminatorOf? opcode = some p) : p.Yields Terminator.WellSpelled := by
  unfold terminatorOf? at h
  split at h
  case h_6 => cases h
  all_goals cases h
  · exact wellSpelled_branch
  · exact wellSpelled_switch
  · exact wellSpelled_indirectBranch
  · exact wellSpelled_ret
  · exact .pure ⟨nofun, nofun⟩

/-! ## Blocks -/

theorem isWord_resultName : resultName.Yields fun o => ∀ m ∈ o, IsWord m.name := by
  unfold resultName
  refine .bind (.attempt (isWord_sigilName '%')) fun o ho => ?_
  cases o with
  | none => exact .pure nofun
  | some m => exact .skip fun _ => .pure ho

theorem wellSpelled_line : line.Yields (Sum.elim NamedInstr.WellSpelled Terminator.WellSpelled) := by
  unfold line lineBehind
  refine .bind isWord_resultName fun name hname => .skip fun _ => .skip fun place => .skip fun opcode => ?_
  cases hterminator : terminatorOf? opcode with
  | some terminator =>
    dsimp only
    split
    · exact .stop .failAt
    · exact .bind (wellSpelled_terminatorOf? hterminator) fun t ht => .pure ht
  | none =>
    cases hoperation : operationOf? place opcode with
    | none => exact .failAt
    | some operation =>
      refine .bind (wellSpelled_operationOf? hoperation) fun ⟨o, type⟩ ho => ?_
      cases name with
      | none => exact .pure ⟨nofun, ho.operation⟩
      | some x =>
        cases type with
        | none => exact .failAt
        | some t => exact .pure ⟨fun r hr => Option.some.inj hr ▸ ⟨ho.result t rfl, hname x rfl⟩, ho.operation⟩

theorem wellSpelled_openLine : openLine.Yields (Sum.elim NamedInstr.WellSpelled Terminator.WellSpelled) := by
  unfold openLine
  refine .skip fun before => .skip fun _ => .skip fun closed => ?_
  dsimp only
  split
  · exact .stop .fail
  · refine .skip fun label => ?_
    split
    · exact .stop .failAt
    · exact wellSpelled_line

theorem wellSpelled_block {label : Option Mention} (hlabel : ∀ m ∈ label, IsWord m.name) :
    (block label).Yields NamedBlock.WellSpelled :=
  .bind (.collect wellSpelled_openLine) fun _ hx => .pure ⟨hlabel, hx.1, hx.2⟩

theorem wellSpelled_laterBlock : laterBlock.Yields fun o => ∀ b ∈ o, b.WellSpelled := by
  unfold laterBlock
  refine .skip fun _ => .skip fun closed => ?_
  split
  · exact .pure nofun
  · refine .bind (.attempt isWord_labelName) fun label hlabel => ?_
    cases label with
    | none => exact .fail
    | some label => exact .bind (wellSpelled_block hlabel) fun b hb => .pure fun _ h => Option.some.inj h ▸ hb

theorem wellSpelled_body : body.Yields fun blocks => ∀ b ∈ blocks, b.WellSpelled := by
  unfold body
  refine .skip fun _ => .skip fun _ => .skip fun closed => ?_
  dsimp only
  split
  · exact .stop .fail
  · exact .bind (.attempt isWord_labelName) fun label hlabel => .bind (wellSpelled_block hlabel) fun first hfirst =>
      .bind (.many wellSpelled_laterBlock) fun bs hbs => .pure (List.forall_mem_cons.2 ⟨hfirst, hbs⟩)

/-! ## Items -/

theorem writable_param : param.Yields NamedParam.Writable :=
  .bind writable_ty fun _ ht => .bind (.attempt (isWord_sigilName '%')) fun _ hname => .pure ⟨ht, hname⟩

theorem writable_paramStep :
    paramStep.Yields (Sum.elim NamedParam.Writable fun x => ∀ p ∈ x.1, p.Writable) := by
  unfold paramStep
  refine .skip fun dots => ?_
  split
  · exact .skip fun _ => .pure (List.forall_mem_nil _)
  · refine .bind writable_param fun p hp => ?_
    unfold paramEnd
    refine .skip fun comma => ?_
    split
    · exact .pure hp
    · exact .skip fun _ => .pure (List.forall_mem_singleton.2 hp)

theorem writable_params : params.Yields fun x => ∀ p ∈ x.1, p.Writable := by
  unfold params
  refine .skip fun _ => .skip fun none => ?_
  split
  · exact .pure (List.forall_mem_nil _)
  · exact .bind (.collect writable_paramStep) fun x hx => .pure (List.forall_mem_append.2 hx)

theorem writable_head : head.Yields Head.Writable :=
  .bind writable_ty fun _ hret => .bind (isWord_sigilName '@') fun _ hname => .bind writable_params fun _ hparams =>
    .pure ⟨hret, hname, hparams⟩

theorem wellSpelled_global {name : Mention} (hname : IsWord name.name) :
    (global name).Yields fun g => IsWord g.name.name ∧ g.type.Writable := by
  unfold global globalBehind
  refine .skip fun _ => .skip fun external => .skip fun _ => .bind writable_ty fun t ht => ?_
  split
  · exact .pure ⟨hname, ht⟩
  · refine .skip fun place => .skip fun v => ?_
    split
    · exact .failAt
    · exact .pure ⟨hname, ht⟩

theorem wellSpelled_item : item.Yields fun o => ∀ i ∈ o, i.WellSpelled := by
  unfold item
  refine .skip fun _ => .skip fun rest => ?_
  split
  · exact .pure nofun
  · unfold itemBehind
    refine .skip fun define => ?_
    split
    · exact .bind writable_head fun h hh => .bind wellSpelled_body fun blocks hblocks =>
        .pure fun _ hi => Option.some.inj hi ▸ ⟨hh, hblocks⟩
    · refine .skip fun declare => ?_
      split
      · exact .bind writable_head fun h hh => .pure fun _ hi => Option.some.inj hi ▸ hh
      · refine .bind (.attempt (isWord_sigilName '@')) fun name hname => ?_
        cases name with
        | none => exact .fail
        | some name =>
          exact .bind (wellSpelled_global (hname name rfl)) fun g hg => .pure fun _ hi => Option.some.inj hi ▸ hg

/-- The items of a program are well spelled. -/
theorem wellSpelled_program : program.Yields fun items => ∀ i ∈ items, i.WellSpelled := .many wellSpelled_item

end Source
end SSALint
