/-
Symbols under other ids. An operation whose symbols are given other ids, while types stay as they are, is in typed
form as before; and where the new ids go by the old names its text is the same.
-/
import SSALint.IR.Printer
import SSALint.Proofs.IR.Operands
import SSALint.Proofs.IR.Typed

namespace SSALint

variable {L S B : Type} {r : S → S}

/-! ## Typed forms -/

theorem Operand.fits_map {t : Ty} {v : Operand L S} : (v.map id r).Fits t ↔ v.Fits t := by
  cases v <;> rfl

section

variable {typeOf : Operand L S → Ty} (htype : ∀ v, typeOf (v.map id r) = typeOf v)

include htype

theorem Operand.typed_map {v : Operand L S} : (v.map id r).Typed typeOf ↔ v.Typed typeOf := by
  unfold Operand.Typed
  rw [htype, Operand.fits_map]

theorem Operand.forall_typed_map {vs : List (Operand L S)} :
    (∀ v ∈ vs.map (Operand.map id r), v.Typed typeOf) ↔ ∀ v ∈ vs, v.Typed typeOf := by
  rw [List.forall_mem_map]
  exact forall₂_congr fun _ _ => Operand.typed_map htype

theorem Operation.typed_map {o : Operation L S B} :
    (o.mapOperands fun _ => Operand.map id r).Typed typeOf ↔ o.Typed typeOf := by
  have typed : ∀ {v : Operand L S}, (v.map id r).Typed typeOf ↔ v.Typed typeOf := Operand.typed_map htype
  have pair : ∀ {t : Ty} {lhs rhs : Operand L S}, t.Writable ∧ (lhs.map id r).Fits t ∧ (rhs.map id r).Fits t ↔
      t.Writable ∧ lhs.Fits t ∧ rhs.Fits t :=
    and_congr_right' (and_congr Operand.fits_map Operand.fits_map)
  cases o with
  | alloca t => rfl
  | store value ptr => exact and_congr typed typed
  | load t ptr => exact and_congr_right' typed
  | binary op t lhs rhs => exact pair
  | icmp pred t lhs rhs => exact pair
  | fcmp pred t lhs rhs => exact pair
  | cast op value t => exact and_congr_left' typed
  | phi t incoming =>
    have halts : (∀ alt ∈ incoming.map fun alt => (alt.1.map id r, alt.2), alt.1.Fits t) ↔
        ∀ alt ∈ incoming, alt.1.Fits t := by
      rw [List.forall_mem_map]
      exact forall₂_congr fun _ _ => Operand.fits_map
    simp only [mapOperands, Operation.Typed, mapIdx_const, ne_eq, List.map_eq_nil_iff]
    exact and_congr_right' (and_congr_right' halts)
  | select cond whenTrue whenFalse => exact and_congr typed (and_congr typed typed)
  | getElementPtr t ptr indices =>
    simp only [mapOperands, Operation.Typed, mapIdx_const]
    exact and_congr_right' (and_congr typed (Operand.forall_typed_map htype))
  | extractValue aggregate path =>
    simp only [mapOperands, Operation.Typed, htype]
    exact and_congr_left' typed
  | insertValue aggregate value path => exact and_congr typed (and_congr_left' typed)
  | extractElement vector index =>
    simp only [mapOperands, Operation.Typed, htype]
    exact and_congr typed (and_congr_left' typed)
  | insertElement vector value index => exact and_congr typed (and_congr typed typed)
  | call ret callee args =>
    simp only [mapOperands, Operation.Typed, mapIdx_const]
    exact and_congr_right' (and_congr Operand.fits_map (Operand.forall_typed_map htype))

theorem Operation.resultType?_map (o : Operation L S B) :
    (o.mapOperands fun _ => Operand.map id r).resultType? typeOf = o.resultType? typeOf := by
  cases o with
  | select cond whenTrue whenFalse => exact congrArg some (htype whenTrue)
  | extractValue aggregate path => exact congrArg (Ty.at? · path) (htype aggregate)
  | insertValue aggregate value path => exact congrArg some (htype aggregate)
  | extractElement vector index => exact congrArg Ty.vectorElem? (htype vector)
  | insertElement vector value index => exact congrArg some (htype vector)
  | _ => rfl

theorem Terminator.typed_map {t : Terminator L S B} :
    (t.mapOperands fun _ => Operand.map id r).Typed typeOf ↔ t.Typed typeOf := by
  cases t with
  | condBr cond whenTrue whenFalse => exact Operand.typed_map htype
  | switch value default cases => exact and_congr_left' (Operand.typed_map htype)
  | indirectBr address targets => exact Operand.typed_map htype
  | ret value => cases value <;> simp [mapOperands, Terminator.Typed, Operand.typed_map htype]
  | _ => rfl

theorem Terminator.distinct_map {t : Terminator L S B} :
    (t.mapOperands fun _ => Operand.map id r).Distinct typeOf ↔ t.Distinct typeOf := by
  cases t with
  | condBr cond whenTrue whenFalse => cases cond <;> rfl
  | ret value => cases value <;> simp [mapOperands, Terminator.Distinct, htype]
  | _ => rfl

end

/-! ## Texts -/

namespace Names

variable {n c : Names} {r : Symbol → Symbol} (hlocal : c.localName = n.localName) (hlabel : c.label = n.label)
  (htype : ∀ v : Value, c.typeOf (v.map id r) = n.typeOf v)

theorem value_map (hlocal : c.localName = n.localName) {v : Value}
    (hv : ∀ s, v = .symbol s → c.symbol (r s) = n.symbol s) : c.value (v.map id r) = n.value v := by
  cases v with
  | var x => exact congrFun hlocal x
  | symbol s => exact hv s rfl
  | const c => rfl

theorem pair_map {t : Ty} {lhs rhs : Value} (hlhs : c.value (lhs.map id r) = n.value lhs)
    (hrhs : c.value (rhs.map id r) = n.value rhs) : c.pair t (lhs.map id r) (rhs.map id r) = n.pair t lhs rhs := by
  unfold pair
  rw [hlhs, hrhs]

include htype

theorem typed_map {v : Value} (hv : c.value (v.map id r) = n.value v) : c.typed (v.map id r) = n.typed v := by
  unfold typed
  rw [htype, hv]

theorem typedList_map {vs : List Value} (hvs : ∀ v ∈ vs, c.value (v.map id r) = n.value v) :
    c.typedList (vs.map (Operand.map id r)) = n.typedList vs := by
  unfold typedList
  rw [List.map_map]
  exact congrArg _ (List.map_congr_left fun v hv => typed_map htype (hvs v hv))

include hlabel

theorem operation_map {o : Operation LocalId Symbol BlockId}
    (ho : ∀ v ∈ o.operands, c.value (v.map id r) = n.value v) :
    c.operation (o.mapOperands fun _ => Operand.map id r) = n.operation o := by
  have typed : ∀ v ∈ o.operands, c.typed (v.map id r) = n.typed v := fun v hv => typed_map htype (ho v hv)
  cases o with
  | alloca t => rfl
  | store value ptr =>
    exact congrArg₂ (fun a b => "store " ++ a ++ ", " ++ b) (typed value (.head _)) (typed ptr (.tail _ (.head _)))
  | load t ptr => exact congrArg ("load " ++ t.print ++ ", " ++ ·) (typed ptr (.head _))
  | binary op t lhs rhs =>
    exact congrArg (Spelled.spelling op ++ " " ++ ·) (pair_map (ho lhs (.head _)) (ho rhs (.tail _ (.head _))))
  | icmp pred t lhs rhs =>
    exact congrArg ("icmp " ++ Spelled.spelling pred ++ " " ++ ·)
      (pair_map (ho lhs (.head _)) (ho rhs (.tail _ (.head _))))
  | fcmp pred t lhs rhs =>
    exact congrArg ("fcmp " ++ Spelled.spelling pred ++ " " ++ ·)
      (pair_map (ho lhs (.head _)) (ho rhs (.tail _ (.head _))))
  | cast op value t =>
    exact congrArg (Spelled.spelling op ++ " " ++ · ++ " to " ++ t.print) (typed value (.head _))
  | phi t incoming =>
    have halts : (incoming.mapIdx fun _ alt => (alt.1.map id r, alt.2)).map c.incoming = incoming.map n.incoming := by
      rw [mapIdx_const, List.map_map]
      refine List.map_congr_left fun alt halt => ?_
      simp only [Function.comp_apply, Names.incoming, ho _ (List.mem_map.2 ⟨alt, halt, rfl⟩), hlabel]
    exact congrArg (fun texts => "phi " ++ t.print ++ ",".intercalate texts) halts
  | select cond whenTrue whenFalse => exact congrArg ("select " ++ ·) (typedList_map htype ho)
  | getElementPtr t ptr indices =>
    have hindices : (indices.mapIdx fun _ => Operand.map id r) = indices.map (Operand.map id r) := mapIdx_const _ _
    refine congrArg ("getelementptr " ++ t.print ++ ", " ++ ·) ?_
    rw [hindices]
    exact typedList_map htype ho
  | extractValue aggregate path => exact congrArg ("extractvalue " ++ · ++ Names.path path) (typed aggregate (.head _))
  | insertValue aggregate value path =>
    exact congrArg ("insertvalue " ++ · ++ Names.path path) (typedList_map htype ho)
  | extractElement vector index => exact congrArg ("extractelement " ++ ·) (typedList_map htype ho)
  | insertElement vector value index => exact congrArg ("insertelement " ++ ·) (typedList_map htype ho)
  | call ret callee args =>
    obtain ⟨hcallee, hargs⟩ := List.forall_mem_cons.1 ho
    have hindices : (args.mapIdx fun _ => Operand.map id r) = args.map (Operand.map id r) := mapIdx_const _ _
    refine congrArg₂ (fun a b => "call " ++ ret.print ++ " " ++ a ++ "(" ++ b ++ ")") hcallee ?_
    rw [hindices]
    exact typedList_map htype hargs

theorem terminator_map {t : Terminator LocalId Symbol BlockId}
    (ht : ∀ v ∈ t.operands, c.value (v.map id r) = n.value v) :
    c.terminator (t.mapOperands fun _ => Operand.map id r) = n.terminator t := by
  have htyped : ∀ v ∈ t.operands, c.typed (v.map id r) = n.typed v := fun v hv => typed_map htype (ht v hv)
  have htarget : c.target = n.target := by
    funext b
    unfold target
    rw [hlabel]
  have hcase : c.switchCase = n.switchCase := by
    funext case
    unfold switchCase
    rw [htarget]
  cases t with
  | br b => exact congrArg ("br " ++ ·) (congrFun htarget b)
  | condBr cond whenTrue whenFalse =>
    show "br " ++ c.typed (cond.map id r) ++ ", " ++ c.target whenTrue ++ ", " ++ c.target whenFalse = _
    rw [htyped cond (.head _), htarget]
    rfl
  | switch value default cases =>
    show "switch " ++ c.typed (value.map id r) ++ ", " ++ c.target default ++ " [" ++
      " ".intercalate (cases.map c.switchCase) ++ "]" = _
    rw [htyped value (.head _), htarget, hcase]
    rfl
  | indirectBr address targets =>
    show "indirectbr " ++ c.typed (address.map id r) ++ ", [" ++ ", ".intercalate (targets.map c.target) ++ "]" = _
    rw [htyped address (.head _), htarget]
    rfl
  | ret value =>
    cases value with
    | none => rfl
    | some v => exact congrArg ("ret " ++ ·) (htyped v (.head _))
  | unreachable => rfl

include hlocal

/-- A block under new ids and an explicit label. -/
theorem block_map {b : Block} (hb : ∀ v ∈ b.operands, c.value (v.map id r) = n.value v) (label : Option String) :
    c.block { b.mapOperands fun _ => Operand.map id r with label := label } = n.block b := by
  have hinstr : ∀ i ∈ b.instrs, c.instr (Block.substInstr (Operand.map id r) i) = n.instr i := fun i hi => by
    have hi : ∀ v ∈ i.operation.operands, c.value (v.map id r) = n.value v := fun v hv =>
      hb v (List.mem_append_left _ (List.mem_flatMap.2 ⟨i, hi, hv⟩))
    unfold instr Block.substInstr
    rw [operation_map hlabel htype hi, hlocal]
  have hinstrs : (b.instrs.map (Block.substInstr (Operand.map id r))).map (fun i => line (c.instr i)) =
      b.instrs.map fun i => line (n.instr i) := by
    rw [List.map_map]
    exact List.map_congr_left fun i hi => congrArg line (hinstr i hi)
  have hterminator : c.terminator (b.terminator.mapOperands fun _ => Operand.map id r) = n.terminator b.terminator :=
    terminator_map hlabel htype fun v hv => hb v (List.mem_append_right _ hv)
  rw [Block.mapOperands_const]
  unfold block
  simp only [hlabel, hinstrs, hterminator]

end Names

end SSALint
