/-
Instructions, blocks and items in texts that are read alike. Every parser of the grammar simulates itself, up to the
places of names, so that an item that is read from a text is read from any text alike (`item_of_alike`).
-/
import SSALint.Proofs.IR.Operands
import SSALint.Proofs.Source.AlikeValues

namespace SSALint.Source

variable {R : List Char → List Char → Prop} [Alike R]

/-! ## Instructions -/

/-- An operation without places, and the type of its result. -/
def bareTyped (x : TypedOperation) : TypedOperation := Prod.map bareOperation id x

theorem simulates_alloca : Parser.Simulates R R alloca alloca bareTyped :=
  simulates_ty.map_same fun _ => rfl

theorem simulates_load : Parser.Simulates R R load load bareTyped := by
  refine simulates_ty.bind_same fun t => (simulates_comma simulates_operand).map fun ptr ptr' hptr => ?_
  exact congrArg (fun v => (Operation.load t v, some t)) hptr

theorem simulates_store : Parser.Simulates R R store store bareTyped := by
  refine simulates_operand.bind fun v v' hv => (simulates_comma simulates_operand).map fun ptr ptr' hptr => ?_
  exact congrArg₂ (fun v ptr => (Operation.store v ptr, none)) hv hptr

theorem simulates_binary (op : BinaryOp) : Parser.Simulates R R (binary op) (binary op) bareTyped := by
  refine simulates_ty.bind_same fun t => (simulates_pair t).map fun x x' hx => ?_
  exact congrArg (fun x : NamedValue × NamedValue => (Operation.binary op t x.1 x.2, some t)) hx

theorem simulates_cast (op : CastOp) : Parser.Simulates R R (cast op) (cast op) bareTyped := by
  refine simulates_operand.bind fun v v' hv => (simulates_keyword (by decide)).bind_same fun _ => ?_
  exact simulates_ty.map_same fun t => congrArg (fun v => (Operation.cast op v t, some t)) hv

theorem simulates_compare {P : Type} [Spelled P] {place place' : List Char} {unknown : Complaint}
    {make : P → Ty → NamedValue → NamedValue → Operation Mention Mention Mention}
    (hmake : ∀ p t lhs rhs, bareOperation (make p t lhs rhs) = make p t (bareValue lhs) (bareValue rhs)) :
    Parser.Simulates R R (compare place unknown make) (compare place' unknown make) bareTyped := by
  refine .blanks ⟨_, rfl⟩ (.firm ?_)
  refine mirrors_word.simulates.bind_same fun pred => simulates_ty.bind_same fun t => ?_
  refine (simulates_pair t).bind fun x x' hx => ?_
  obtain ⟨hlhs, hrhs⟩ := Prod.mk.inj hx
  dsimp only
  split
  · rename_i p _
    refine .value (congrArg₂ Prod.mk ?_ rfl)
    rw [hmake, hmake, hlhs, hrhs]
  · exact .failAt

theorem simulates_incoming (t : Ty) :
    Parser.Simulates R R (incoming t) (incoming t) (Prod.map bareValue Mention.bare) := by
  refine (simulates_sign (by decide)).bind_same fun _ => (simulates_value t).bind fun v v' hv => ?_
  refine (simulates_comma mirrors_localName.simulates).bind fun b b' hb => ?_
  exact (simulates_sign (by decide)).map_same fun _ => congrArg₂ Prod.mk hv hb

theorem bareOperation_phi (t : Ty) (incoming : List (NamedValue × Mention)) :
    bareOperation (.phi t incoming) = .phi t (incoming.map (Prod.map bareValue Mention.bare)) := by
  simp only [bareOperation, Operation.mapOperands, Operation.mapTargets, mapIdx_const, List.map_map]
  rfl

theorem simulates_phi : Parser.Simulates R R phi phi bareTyped := by
  refine simulates_ty.bind_same fun t => ?_
  refine (Parser.Simulates.sepBy1 (mirrors_sign (by decide)) (simulates_incoming t)).map fun alts alts' halts => ?_
  show (bareOperation _, some t) = (bareOperation _, some t)
  rw [bareOperation_phi, bareOperation_phi, halts]

theorem simulates_select : Parser.Simulates R R select select bareTyped := by
  refine simulates_operand.bind fun cond cond' hcond => ?_
  refine (simulates_comma simulates_typedValue).bind fun x x' hx => ?_
  obtain ⟨t, v⟩ := x
  obtain ⟨t', v'⟩ := x'
  obtain ⟨rfl, hv⟩ := Prod.mk.inj hx
  refine (simulates_comma simulates_operand).map fun w w' hw => congrArg₂ Prod.mk ?_ rfl
  show Operation.select (bareValue cond) (bareValue v) (bareValue w) = .select (bareValue cond') _ _
  rw [hcond, hv, hw]

/-- A row of operands behind another one. -/
theorem map_bareValue_congr {F : NamedValue → List NamedValue → Operation Mention Mention Mention}
    (hF : ∀ v vs, bareOperation (F v vs) = F (bareValue v) (vs.map bareValue)) {v v' : NamedValue}
    {vs vs' : List NamedValue} (hv : bareValue v = bareValue v') (hvs : vs.map bareValue = vs'.map bareValue) :
    bareOperation (F v vs) = bareOperation (F v' vs') := by
  rw [hF, hF, hv, hvs]

theorem simulates_elementPtr : Parser.Simulates R R elementPtr elementPtr bareTyped := by
  refine simulates_ty.bind_same fun t => (simulates_comma simulates_operand).bind fun ptr ptr' hptr => ?_
  refine (simulates_commaItems simulates_operand).map fun vs vs' hvs => congrArg₂ Prod.mk ?_ rfl
  refine map_bareValue_congr (F := .getElementPtr t) (fun v vs => ?_) hptr hvs
  simp only [bareOperation, Operation.mapOperands, Operation.mapTargets, mapIdx_const]

theorem simulates_getElementPtr : Parser.Simulates R R getElementPtr getElementPtr bareTyped :=
  .accepts (mirrors_keyword (by decide)) simulates_elementPtr simulates_elementPtr

theorem simulates_pathStep : Parser.Simulates R R pathStep pathStep (Option.map (id : UInt32 → UInt32)) := by
  refine .here fun place place' _ => .accepts (mirrors_sign (by decide)) ?_ (.value rfl)
  exact simulates_unsigned.bind_same fun n => .ite (.value rfl) .failAt

theorem simulates_path : Parser.Simulates R R path path (id : List UInt32 → List UInt32) := by
  refine (Parser.Simulates.many advances_pathStep simulates_pathStep).bind fun is is' his => ?_
  rw [List.map_id, List.map_id] at his
  subst his
  split
  · exact .fail
  · exact .value rfl

theorem simulates_extractValue {place place' : List Char} :
    Parser.Simulates R R (extractValue place) (extractValue place') bareTyped := by
  refine simulates_typedValue_bind fun t v v' hv => ?_
  refine simulates_path.bind_same fun is => ?_
  split
  · exact .value (congrArg (fun v => (Operation.extractValue v is, some _)) hv)
  · exact .failAt

theorem simulates_insertValue : Parser.Simulates R R insertValue insertValue bareTyped := by
  refine simulates_typedValue_bind fun t v v' hv => ?_
  refine (simulates_comma simulates_operand).bind fun w w' hw => simulates_path.map_same fun is => ?_
  exact congrArg₂ (fun v w => (Operation.insertValue v w is, some _)) hv hw

theorem simulates_extractElement {place place' : List Char} :
    Parser.Simulates R R (extractElement place) (extractElement place') bareTyped := by
  refine simulates_typedValue_bind fun t v v' hv => ?_
  refine (simulates_comma simulates_operand).bind fun w w' hw => ?_
  split
  · exact .value (congrArg₂ (fun v w => (Operation.extractElement v w, some _)) hv hw)
  · exact .failAt

theorem simulates_insertElement : Parser.Simulates R R insertElement insertElement bareTyped := by
  refine simulates_typedValue_bind fun t v v' hv => ?_
  refine (simulates_comma simulates_operand).bind fun w w' hw => ?_
  refine (simulates_comma simulates_operand).map fun u u' hu => congrArg₂ Prod.mk ?_ rfl
  show Operation.insertElement (bareValue v) (bareValue w) (bareValue u) = .insertElement (bareValue v') _ _
  rw [hv, hw, hu]

theorem simulates_call : Parser.Simulates R R call call bareTyped := by
  refine simulates_ty.bind_same fun t => (simulates_value .ptr).bind fun callee callee' hcallee => ?_
  refine (simulates_sign (by decide)).bind_same fun _ => ?_
  refine (simulates_listUntil (by decide) simulates_operand).map fun args args' hargs => congrArg₂ Prod.mk ?_ rfl
  refine map_bareValue_congr (F := .call t) (fun v vs => ?_) hcallee hargs
  simp only [bareOperation, Operation.mapOperands, Operation.mapTargets, mapIdx_const]

/-- What an opcode calls for does not depend on where it stands. -/
theorem simulates_operationOf? {place : List Char} {opcode : String} {p : Parser TypedOperation}
    (h : operationOf? place opcode = some p) (place' : List Char) :
    ∃ p', operationOf? place' opcode = some p' ∧ Parser.Simulates R R p p' bareTyped := by
  unfold operationOf? at h ⊢
  split at h
  case h_14 =>
    refine ⟨p, h, ?_⟩
    rw [Option.orElse_eq_orElse, Option.orElse_eq_or, Option.or_eq_some_iff] at h
    rcases h with h | ⟨-, h⟩
    · obtain ⟨op, -, rfl⟩ := Option.map_eq_some_iff.1 h
      exact simulates_binary op
    · obtain ⟨op, -, rfl⟩ := Option.map_eq_some_iff.1 h
      exact simulates_cast op
  all_goals
    cases h
    refine ⟨_, rfl, ?_⟩
  · exact simulates_alloca
  · exact simulates_load
  · exact simulates_store
  · exact simulates_compare fun _ _ _ _ => rfl
  · exact simulates_compare fun _ _ _ _ => rfl
  · exact simulates_phi
  · exact simulates_select
  · exact simulates_getElementPtr
  · exact simulates_extractValue
  · exact simulates_insertValue
  · exact simulates_extractElement
  · exact simulates_insertElement
  · exact simulates_call

/-! ## Terminators -/

theorem simulates_branch : Parser.Simulates R R branch branch bareTerminator := by
  refine .attempt mirrors_target (fun b b' hb => .value (congrArg Terminator.br hb)) ?_
  refine simulates_operand.bind fun cond cond' hcond =>
    (simulates_comma mirrors_target.simulates).bind fun b b' hb => ?_
  refine (simulates_comma mirrors_target.simulates).map fun c c' hc => ?_
  show Terminator.condBr (bareValue cond) b.bare c.bare = .condBr (bareValue cond') _ _
  rw [hcond, hb, hc]

theorem simulates_switchCase :
    Parser.Simulates R R switchCase switchCase (Option.map (Prod.map (id : Constant → Constant) Mention.bare)) := by
  refine .here fun place place' _ => .accepts (mirrors_sign (by decide)) (.value rfl) ?_
  refine simulates_operand.bind fun v v' hv => ?_
  cases v with
  | var x => exact .failAt
  | symbol x => exact .failAt
  | const c =>
    cases v' with
    | var x => cases hv
    | symbol x => cases hv
    | const c' =>
      cases hv
      exact (simulates_comma mirrors_target.simulates).map fun b b' hb => congrArg (fun b => some (c, b)) hb

theorem bareTerminator_switch (v : NamedValue) (default : Mention) (cases : List (Constant × Mention)) :
    bareTerminator (.switch v default cases) = .switch (bareValue v) default.bare (cases.map (Prod.map id .bare)) := by
  simp only [bareTerminator, Terminator.mapOperands, Terminator.mapTargets, mapIdx_const]
  rfl

theorem simulates_switch : Parser.Simulates R R switch switch bareTerminator := by
  refine simulates_operand.bind fun v v' hv => (simulates_comma mirrors_target.simulates).bind fun b b' hb => ?_
  refine (simulates_sign (by decide)).bind_same fun _ => ?_
  refine (Parser.Simulates.many Parser.Consumes.advances_turn simulates_switchCase).map fun cs cs' hcs => ?_
  rw [bareTerminator_switch, bareTerminator_switch, hv, hb, hcs]

theorem bareTerminator_indirectBr (address : NamedValue) (targets : List Mention) :
    bareTerminator (.indirectBr address targets) = .indirectBr (bareValue address) (targets.map .bare) := by
  simp only [bareTerminator, Terminator.mapOperands, Terminator.mapTargets, mapIdx_const]

theorem simulates_indirectBranch : Parser.Simulates R R indirectBranch indirectBranch bareTerminator := by
  refine simulates_operand.bind fun v v' hv => (simulates_sign (by decide)).bind_same fun _ => ?_
  refine (simulates_sign (by decide)).bind_same fun _ => ?_
  refine (simulates_listUntil (by decide) mirrors_target.simulates).map fun bs bs' hbs => ?_
  rw [bareTerminator_indirectBr, bareTerminator_indirectBr, hv, hbs]

theorem simulates_ret : Parser.Simulates R R ret ret bareTerminator :=
  .accepts (mirrors_keyword (by decide)) (.value rfl) <|
    simulates_operand.map fun _ _ hv => congrArg (fun v => Terminator.ret (some v)) hv

theorem simulates_terminatorOf? {opcode : String} {p : Parser NamedTerminator} (h : terminatorOf? opcode = some p) :
    Parser.Simulates R R p p bareTerminator := by
  unfold terminatorOf? at h
  split at h
  case h_6 => cases h
  all_goals cases h
  · exact simulates_branch
  · exact simulates_switch
  · exact simulates_indirectBranch
  · exact simulates_ret
  · exact .value rfl

/-! ## Lines -/

theorem simulates_resultName : Parser.Simulates R R resultName resultName (Option.map Mention.bare) :=
  .attempt mirrors_localName (fun _ _ hx => (simulates_sign (by decide)).map_same fun _ => congrArg some hx)
    (.value rfl)

theorem simulates_line : Parser.Simulates R R line line (Sum.map NamedInstr.bare bareTerminator) := by
  refine simulates_resultName.bind fun name name' hname => .blanks ⟨_, rfl⟩ (.firm (.here fun place place' _ => ?_))
  -- The opcode is the same word in both texts, but the parser it calls for is told its place.
  refine mirrors_word.simulates.bind_same fun opcode => ?_
  cases hterminator : terminatorOf? opcode with
  | some terminator =>
    have h := simulates_terminatorOf? (R := R) hterminator
    cases name with
    | some x => exact .failAt_bind
    | none =>
      cases name' with
      | some x' => cases hname
      | none => exact h.map fun t t' ht => congrArg Sum.inr ht
  | none =>
    cases hoperation : operationOf? place opcode with
    | none => exact .failAt
    | some operation =>
      obtain ⟨operation', hoperation', h⟩ := simulates_operationOf? (R := R) hoperation place'
      rw [hoperation']
      refine h.bind fun x x' hx => ?_
      obtain ⟨o, t⟩ := x
      obtain ⟨o', t'⟩ := x'
      obtain ⟨ho, rfl⟩ := Prod.mk.inj hx
      cases name with
      | none =>
        cases name' with
        | some x' => cases hname
        | none => exact .value (congrArg (fun o => (.inl ⟨none, o⟩ : NamedInstr ⊕ NamedTerminator)) ho)
      | some x =>
        cases name' with
        | none => cases hname
        | some x' =>
          cases t with
          | none => exact .failAt
          | some t =>
            have hx : x.bare = x'.bare := Option.some.inj hname
            exact .value (congrArg₂ (fun x o => (.inl ⟨some ⟨x, t⟩, o⟩ : NamedInstr ⊕ NamedTerminator)) hx ho)

/-! ## Blocks -/

theorem simulates_openLine : Parser.Simulates R R openLine openLine (Sum.map NamedInstr.bare bareTerminator) := by
  refine .here fun place place' _ => .blanks ⟨_, rfl⟩ ?_
  refine .accepts (R := R) (mirrors_exactly (by decide)).firm .fail_bind ?_
  exact .accepts mirrors_labelName_firm .failAt_bind simulates_line.firm

theorem simulates_block {label label' : Option Mention} (h : label.map .bare = label'.map Mention.bare) :
    Parser.Simulates R R (block label) (block label') NamedBlock.bare := by
  refine (Parser.Simulates.collect Parser.Consumes.advances simulates_openLine).map fun x x' hx => ?_
  obtain ⟨hinstrs, hterminator⟩ := Prod.mk.inj hx
  show NamedBlock.mk (label.map .bare) _ _ = ⟨label'.map .bare, _, _⟩
  rw [h, hinstrs, hterminator]

theorem simulates_laterBlock : Parser.Simulates R R laterBlock laterBlock (Option.map NamedBlock.bare) := by
  refine .blanks ⟨_, rfl⟩ (.accepts (mirrors_exactly (by decide)).firm (.value rfl) ?_)
  refine .attempt mirrors_labelName_firm (fun label label' hlabel => ?_) .fail
  have hblock : Parser.Simulates R R (block (some label)) (block (some label')) NamedBlock.bare :=
    simulates_block (congrArg some hlabel)
  exact hblock.map fun _ _ hb => congrArg some hb

theorem fails_block_nil (label : Option Mention) : Fails (block label) [] := by
  refine Fails.bind ⟨⟨.unexpected .word, []⟩, ?_⟩ _
  rw [Parser.collect]
  rfl

theorem simulates_blocks {label label' : Option Mention} (h : label.map .bare = label'.map Mention.bare) :
    Parser.Simulates R R (blocks label) (blocks label') (List.map NamedBlock.bare) :=
  (simulates_block h).bind fun _ _ hfirst =>
    (Parser.Simulates.many Parser.Consumes.advances_turn simulates_laterBlock).map fun _ _ hothers =>
      congrArg₂ List.cons hfirst hothers

theorem simulates_body : Parser.Simulates R R body body (List.map NamedBlock.bare) := by
  have hnil : Fails (blocks none) [] := (fails_block_nil none).bind _
  refine (simulates_sign (by decide)).bind_same fun _ => .blanks hnil ?_
  refine .accepts (R := R) (mirrors_exactly (by decide)).firm .fail_bind ?_
  exact .attempt mirrors_labelName_firm (fun _ _ h => simulates_blocks (congrArg some h)) (simulates_blocks rfl).firm

/-! ## Items -/

theorem simulates_param : Parser.Simulates R R param param NamedParam.bare := by
  refine simulates_ty.bind_same fun t => .attempt mirrors_localName (fun x x' hx => .value ?_) (.value rfl)
  exact congrArg (fun x => NamedParam.mk t (some x)) hx

theorem simulates_paramEnd {p p' : NamedParam} (hp : p.bare = p'.bare) :
    Parser.Simulates R R (paramEnd p) (paramEnd p')
      (Sum.map NamedParam.bare (Prod.map (List.map NamedParam.bare) (id : Bool → Bool))) :=
  .accepts (mirrors_sign (by decide)) (.value (congrArg Sum.inl hp)) <|
    (simulates_sign (by decide)).map_same fun _ => congrArg (fun p => Sum.inr ([p], false)) hp

theorem simulates_paramStep : Parser.Simulates R R paramStep paramStep
    (Sum.map NamedParam.bare (Prod.map (List.map NamedParam.bare) (id : Bool → Bool))) :=
  .accepts (mirrors_sign (by decide)) ((simulates_sign (by decide)).map_same fun _ => rfl) <|
    simulates_param.bind fun _ _ => simulates_paramEnd

theorem simulates_params :
    Parser.Simulates R R params params (Prod.map (List.map NamedParam.bare) (id : Bool → Bool)) := by
  refine (simulates_sign (by decide)).bind_same fun _ => .accepts (mirrors_sign (by decide)) (.value rfl) ?_
  refine (Parser.Simulates.collect Parser.Consumes.advances simulates_paramStep).map ?_
  rintro ⟨ps, last, variadic⟩ ⟨ps', last', variadic'⟩ hx
  obtain ⟨hps, hx⟩ := Prod.mk.inj hx
  obtain ⟨hlast, rfl⟩ := Prod.mk.inj hx
  show ((ps ++ last).map NamedParam.bare, variadic) = ((ps' ++ last').map NamedParam.bare, _)
  rw [List.map_append, List.map_append, hps, hlast]
  rfl

theorem simulates_head : Parser.Simulates R R head head Head.bare := by
  refine simulates_ty.bind_same fun t => simulates_symbolName.bind fun name name' hname => ?_
  refine simulates_params.map ?_
  rintro ⟨ps, variadic⟩ ⟨ps', variadic'⟩ hx
  obtain ⟨hps, rfl⟩ := Prod.mk.inj hx
  show Head.mk t name.bare (ps.map .bare) variadic = ⟨t, name'.bare, ps'.map .bare, variadic⟩
  rw [hname, hps]

theorem simulates_globalBehind {name name' : Mention} (hname : name.bare = name'.bare) :
    Parser.Simulates R R (globalBehind name) (globalBehind name') NamedGlobal.bare := by
  refine .accepts (mirrors_keyword (by decide)) ?_ ?_
  all_goals
    refine (simulates_keyword (by decide)).bind_same fun _ => simulates_ty.bind_same fun t => .ite (.value ?_) ?_
    · exact congrArg (fun m : Mention => (⟨m, t, none⟩ : NamedGlobal)) hname
    refine .here fun place place' _ => (simulates_value t).bind fun v v' hv => ?_
    have hglobal : NamedGlobal.bare ⟨name, t, some v⟩ = NamedGlobal.bare ⟨name', t, some v'⟩ :=
      congrArg₂ (fun m v => NamedGlobal.mk m t (some v)) hname hv
    cases v with
    | var x => exact .failAt
    | symbol x =>
      cases v' with
      | symbol x' => exact .value hglobal
      | _ => cases hv
    | const c =>
      cases v' with
      | const c' => exact .value hglobal
      | _ => cases hv

theorem simulates_global {name name' : Mention} (hname : name.bare = name'.bare) :
    Parser.Simulates R R (global name) (global name') NamedGlobal.bare :=
  (simulates_sign (by decide)).bind_same fun _ => simulates_globalBehind hname

/-- An item that was read from a text is read from a related one. -/
theorem simulates_itemBehind :
    Parser.Simulates (Firm R) R itemBehind itemBehind (Option.map Item.bare) := by
  refine .accepts (mirrors_keyword_firm (by decide)) ?_ (.accepts (mirrors_keyword_firm (by decide)) ?_ ?_)
  · refine simulates_head.bind fun h h' hh => simulates_body.map fun bs bs' hbs => ?_
    exact congrArg₂ (fun h bs => some (Item.definition h bs)) hh hbs
  · exact simulates_head.map fun h h' hh => congrArg (fun h => some (Item.declaration h)) hh
  · refine .attempt mirrors_symbolName_firm (fun name name' hname => ?_) .fail
    exact (simulates_global hname).map fun v v' hv => congrArg (fun v => some (Item.global v)) hv

/-- The items are over where nothing but blanks is left. -/
theorem item_eq (s : List Char) :
    item s = if (skipBlanks s).isEmpty then .ok (none, skipBlanks s) else itemBehind (skipBlanks s) := by
  show (if (skipBlanks s).isEmpty then pure none else itemBehind : Parser (Option Item)) (skipBlanks s) = _
  split <;> rfl

theorem item_of_nil {s : List Char} (h : skipBlanks s = []) : item s = .ok (none, []) := by
  rw [item_eq, h]
  rfl

theorem item_of_shows {s : List Char} (h : Shows (skipBlanks s)) : item s = itemBehind (skipBlanks s) := by
  obtain ⟨c, t, hc, -⟩ := h
  rw [item_eq, hc]
  rfl

theorem isSome_itemBehind : itemBehind.Yields fun o => o.isSome = true := by
  unfold itemBehind
  refine .skip fun define => ?_
  split
  · exact .skip fun h => .skip fun blocks => .pure rfl
  · refine .skip fun declare => ?_
    split
    · exact .skip fun h => .pure rfl
    · refine .skip fun name => ?_
      split
      · exact .skip fun v => .pure rfl
      · exact .fail

/-- The end of the items is the end of the text. -/
theorem skipBlanks_of_item_none {s r : List Char} (h : item s = .ok (none, r)) : skipBlanks s = [] := by
  refine (skipBlanks_shows s).resolve_right fun hshows => ?_
  rw [item_of_shows hshows] at h
  cases isSome_itemBehind _ _ _ h

/-- An item that was read from a text is read from any text alike. -/
theorem item_of_alike {s s' r : List Char} {i : Item} (hs : R s s') (h : item s = .ok (some i, r)) :
    ∃ i' r', item s' = .ok (some i', r') ∧ i.bare = i'.bare ∧ R r r' := by
  have hshows : Shows (skipBlanks s) := by
    refine (skipBlanks_shows s).resolve_left fun hnil => ?_
    rw [item_of_nil hnil] at h
    cases h
  -- The text is not over, so that nothing stands in the second one where the first one ends.
  rcases Alike.blanks hs with hs | ⟨hnil, -⟩
  · rw [item_of_shows hshows] at h
    obtain ⟨o, r', ho, hview, hr⟩ := simulates_itemBehind _ _ _ _ ⟨hs, hshows⟩ h
    obtain ⟨c, t, t', hc, -, htext, -⟩ := Alike.firm ⟨hs, hshows⟩
    rw [← item_of_shows ⟨c, t', htext, hc⟩] at ho
    cases o with
    | none => cases hview
    | some i' => exact ⟨i', r', ho, Option.some.inj hview, hr⟩
  · obtain ⟨c, t, hc, -⟩ := hshows
    rw [hnil] at hc
    cases hc

end SSALint.Source
