/-
Replacing the uses of a function. A loop may be handed the operands of a module one after the other, with leave to put
another value in the place of each. It meets the operands that are listed, in their order, and touches nothing else
(`Module.visits`); and what it does not touch, together with the list of operands, is all there is of a module
(`Module.determined`). So the loop that replaces the uses of a function substitutes in the list, and does nothing more
(`Module.replaceUses_spec`).
-/
import SSALint.IR.Edit
import SSALint.Proofs.IR.Operands
import SSALint.Proofs.Source.Sense

namespace SSALint

/-! ## Frames -/

section
variable {L S B : Type}

/-- Two operations differ in their operands at most. -/
structure Operation.SameFrame (o o' : Operation L S B) : Prop where
  targets : o'.targets = o.targets
  skeleton : o'.skeleton = o.skeleton

/-- Two terminators differ in their operands at most. -/
structure Terminator.SameFrame (t t' : Terminator L S B) : Prop where
  targets : t'.targets = t.targets
  skeleton : t'.skeleton = t.skeleton

end

/-- Two instructions differ in the operands of their operations at most. -/
structure Instr.SameFrame (i j : Instr) : Prop where
  result : j.result = i.result
  operation : i.operation.SameFrame j.operation

/-- Two blocks differ in their operands at most. -/
structure Block.SameFrame (b c : Block) : Prop where
  id : c.id = b.id
  label : c.label = b.label
  instrs : List.Forall₂ Instr.SameFrame b.instrs c.instrs
  terminator : b.terminator.SameFrame c.terminator

/-- Two tables hold related values under the same keys, and have handed out equally many keys. -/
def Table.Rel {α : Type} (R : α → α → Prop) (t u : Table α) : Prop := List.Forall₂ (Option.Rel R) t.slots u.slots

/-- Two functions differ in the operands of their blocks at most. -/
structure Func.SameFrame (f g : Func) : Prop where
  id : g.id = f.id
  name : g.name = f.name
  ret : g.ret = f.ret
  params : g.params = f.params
  variadic : g.variadic = f.variadic
  locals : g.locals = f.locals
  blocks : f.blocks.Rel Block.SameFrame g.blocks

/-- Two globals differ in what their initial values are at most. -/
structure Global.SameFrame (v w : Global) : Prop where
  id : w.id = v.id
  name : w.name = v.name
  type : w.type = v.type
  init : w.init.isSome = v.init.isSome
  external : w.external = v.external

/-- Two modules differ in their operands at most: ids, names, types, labels, local values, results, targets, the cases
of switches and the order of everything are the same. -/
structure Module.SameFrame (m n : Module) : Prop where
  globals : m.globals.Rel Global.SameFrame n.globals
  funcs : m.funcs.Rel Func.SameFrame n.funcs

/-! ## Substitution keeps the frame -/

section
variable {L S B : Type}

theorem Operation.sameFrame_mapOperands (f : Nat → Operand L S → Operand L S) (o : Operation L S B) :
    o.SameFrame (o.mapOperands f) where
  targets := o.targets_mapOperands f
  skeleton := congrArg (mapTargets fun _ _ => ()) (o.mapOperands_mapOperands f _)

theorem Terminator.sameFrame_mapOperands (f : Nat → Operand L S → Operand L S) (t : Terminator L S B) :
    t.SameFrame (t.mapOperands f) where
  targets := t.targets_mapOperands f
  skeleton := congrArg (mapTargets fun _ _ => ()) (t.mapOperands_mapOperands f _)

end

theorem Table.rel_map {α : Type} {R : α → α → Prop} {g : α → α} (h : ∀ a, R a (g a)) (t : Table α) :
    t.Rel R (t.map g) := by
  refine forall₂_map fun slot _ => ?_
  cases slot with
  | none => exact .none
  | some a => exact .some (h a)

theorem Block.sameFrame_mapOperands (g : Value → Value) (b : Block) : b.SameFrame (b.mapOperands fun _ => g) := by
  rw [mapOperands_const]
  exact ⟨rfl, rfl, forall₂_map fun i _ => ⟨rfl, i.operation.sameFrame_mapOperands fun _ => g⟩,
    b.terminator.sameFrame_mapOperands fun _ => g⟩

theorem Func.sameFrame_mapOperands (g : Value → Value) (f : Func) : f.SameFrame (f.mapOperands g) :=
  ⟨rfl, rfl, rfl, rfl, rfl, rfl, f.blocks.rel_map (Block.sameFrame_mapOperands g)⟩

theorem Module.sameFrame_mapOperands (g : Value → Value) (m : Module) : m.SameFrame (m.mapOperands g) where
  globals := m.globals.rel_map fun _ => ⟨rfl, rfl, rfl, Option.isSome_map, rfl⟩
  funcs := m.funcs.rel_map (Func.sameFrame_mapOperands g)

/-! ## Frames and operands -/

theorem Table.flatMap_values {α β : Type} (parts : α → List β) (t : Table α) :
    t.values.flatMap parts = t.slots.flatMap fun slot => slot.toList.flatMap parts := by
  unfold Table.values
  rw [List.filterMap_eq_flatMap_toList, List.flatMap_assoc]
  rfl

/-- Of the things with one frame, the listed parts tell which one it is. -/
structure Determines {α β : Type} (R : α → α → Prop) (parts : α → List β) : Prop where
  length : ∀ {c a}, R c a → (parts a).length = (parts c).length
  eq : ∀ {c a b}, R c a → R c b → parts a = parts b → a = b

namespace Determines

variable {α β : Type} {R : α → α → Prop} {parts : α → List β} (h : Determines R parts)

include h

theorem list : Determines (List.Forall₂ R) (List.flatMap parts) where
  length := by
    intro cs as hca
    induction hca with
    | nil => rfl
    | cons hr _ ih => rw [List.flatMap_cons, List.flatMap_cons, List.length_append, List.length_append, h.length hr, ih]
  eq := by
    intro cs as bs hca hcb heq
    induction hca generalizing bs with
    | nil =>
      cases hcb
      rfl
    | cons hr _ ih =>
      cases hcb with
      | cons hr' hcb =>
        obtain ⟨hhead, htail⟩ := List.append_inj heq ((h.length hr).trans (h.length hr').symm)
        rw [h.eq hr hr' hhead, ih hcb htail]

theorem option : Determines (Option.Rel R) fun o => o.toList.flatMap parts where
  length := by
    intro o o' hr
    cases hr with
    | none => rfl
    | some hr => simpa using h.length hr
  eq := by
    intro o o' o'' hr hr' heq
    cases hr with
    | none =>
      cases hr'
      rfl
    | some hr =>
      cases hr' with
      | some hr' => rw [h.eq hr hr' (by simpa using heq)]

theorem table : Determines (Table.Rel R) fun t => t.values.flatMap parts where
  length hr := by
    rw [Table.flatMap_values, Table.flatMap_values]
    exact h.option.list.length hr
  eq hr hr' heq := by
    rw [Table.flatMap_values, Table.flatMap_values] at heq
    exact congrArg Table.mk (h.option.list.eq hr hr' heq)

end Determines

section
variable {L S B : Type}

theorem Operation.length_operands_skeleton (o : Operation L S B) :
    o.skeleton.operands.length = o.operands.length := by
  simp [skeleton]

theorem Terminator.length_operands_skeleton (t : Terminator L S B) :
    t.skeleton.operands.length = t.operands.length := by
  simp [skeleton]

theorem Operation.determined [Inhabited B] : Determines (Operation.SameFrame (L := L) (S := S) (B := B)) operands where
  length {o o'} h := by rw [← o.length_operands_skeleton, ← o'.length_operands_skeleton, h.skeleton]
  eq h h' heq := Operation.eq_of_skeleton_eq (h.skeleton.trans h'.skeleton.symm) heq (h.targets.trans h'.targets.symm)

theorem Terminator.determined [Inhabited B] :
    Determines (Terminator.SameFrame (L := L) (S := S) (B := B)) operands where
  length {t t'} h := by rw [← t.length_operands_skeleton, ← t'.length_operands_skeleton, h.skeleton]
  eq h h' heq := Terminator.eq_of_skeleton_eq (h.skeleton.trans h'.skeleton.symm) heq (h.targets.trans h'.targets.symm)

end

theorem Instr.determined : Determines SameFrame operands where
  length h := Operation.determined.length h.operation
  eq {_ i j} h h' heq := by
    have hoperation : i.operation = j.operation := Operation.determined.eq h.operation h'.operation heq
    cases i
    cases j
    congr 1
    exact h.result.trans h'.result.symm

theorem Block.determined : Determines SameFrame operands where
  length h := by
    unfold operands
    rw [List.length_append, List.length_append, Instr.determined.list.length h.instrs,
      Terminator.determined.length h.terminator]
  eq {_ b c} h h' heq := by
    obtain ⟨hrows, hlast⟩ := List.append_inj heq
      ((Instr.determined.list.length h.instrs).trans (Instr.determined.list.length h'.instrs).symm)
    have hinstrs : b.instrs = c.instrs := Instr.determined.list.eq h.instrs h'.instrs hrows
    have hterminator : b.terminator = c.terminator := Terminator.determined.eq h.terminator h'.terminator hlast
    cases b
    cases c
    congr 1
    · exact h.id.trans h'.id.symm
    · exact h.label.trans h'.label.symm

theorem Func.determined : Determines SameFrame operands where
  length h := Block.determined.table.length h.blocks
  eq {_ f g} h h' heq := by
    have hblocks : f.blocks = g.blocks := Block.determined.table.eq h.blocks h'.blocks heq
    cases f
    cases g
    congr 1
    · exact h.id.trans h'.id.symm
    · exact h.name.trans h'.name.symm
    · exact h.ret.trans h'.ret.symm
    · exact h.params.trans h'.params.symm
    · exact h.variadic.trans h'.variadic.symm
    · exact h.locals.trans h'.locals.symm

theorem Global.determined : Determines SameFrame fun v => v.init.toList where
  length {v w} h := by
    have hinit := h.init
    cases hv : v.init <;> cases hw : w.init <;> simp [hv, hw] at hinit ⊢
  eq {_ v w} h h' heq := by
    have hinit : v.init = w.init := by
      cases hv : v.init <;> cases hw : w.init <;> simp_all
    cases v
    cases w
    congr 1
    · exact h.id.trans h'.id.symm
    · exact h.name.trans h'.name.symm
    · exact h.type.trans h'.type.symm
    · exact h.external.trans h'.external.symm

/-- The frame of a module and the list of its operands tell which module it is: the list has all operands in it. -/
theorem Module.determined : Determines SameFrame operands where
  length {c m} h := by
    unfold operands
    rw [List.filterMap_eq_flatMap_toList, List.filterMap_eq_flatMap_toList, List.length_append, List.length_append,
      Global.determined.table.length h.globals, Func.determined.table.length h.funcs]
  eq {c m n} h h' heq := by
    unfold operands at heq
    rw [List.filterMap_eq_flatMap_toList, List.filterMap_eq_flatMap_toList] at heq
    obtain ⟨hinits, hbodies⟩ := List.append_inj heq
      ((Global.determined.table.length h.globals).trans (Global.determined.table.length h'.globals).symm)
    have hglobals : m.globals = n.globals := Global.determined.table.eq h.globals h'.globals hinits
    have hfuncs : m.funcs = n.funcs := Func.determined.table.eq h.funcs h'.funcs hbodies
    cases m
    cases n
    exact congrArg₂ Module.mk hglobals hfuncs

/-! ## Visits -/

section
variable {L S B σ : Type}

/-- Hands out the operands of an operation in the order of the text and puts what the visit answers in their places. -/
def Operation.traverse (visit : Operand L S → StateM σ (Operand L S)) : Operation L S B → StateM σ (Operation L S B)
  | .alloca t => return .alloca t
  | .store value ptr => return .store (← visit value) (← visit ptr)
  | .load t ptr => return .load t (← visit ptr)
  | .binary op t lhs rhs => return .binary op t (← visit lhs) (← visit rhs)
  | .icmp pred t lhs rhs => return .icmp pred t (← visit lhs) (← visit rhs)
  | .fcmp pred t lhs rhs => return .fcmp pred t (← visit lhs) (← visit rhs)
  | .cast op value t => return .cast op (← visit value) t
  | .phi t incoming => return .phi t (← incoming.mapM fun (v, b) => return (← visit v, b))
  | .select cond whenTrue whenFalse => return .select (← visit cond) (← visit whenTrue) (← visit whenFalse)
  | .getElementPtr t ptr indices => return .getElementPtr t (← visit ptr) (← indices.mapM visit)
  | .extractValue aggregate path => return .extractValue (← visit aggregate) path
  | .insertValue aggregate value path => return .insertValue (← visit aggregate) (← visit value) path
  | .extractElement vector index => return .extractElement (← visit vector) (← visit index)
  | .insertElement vector value index => return .insertElement (← visit vector) (← visit value) (← visit index)
  | .call ret callee args => return .call ret (← visit callee) (← args.mapM visit)

/-- Hands out the operands of a terminator as `Operation.traverse` does; the cases of a switch are none. -/
def Terminator.traverse (visit : Operand L S → StateM σ (Operand L S)) : Terminator L S B → StateM σ (Terminator L S B)
  | .br target => return .br target
  | .condBr cond whenTrue whenFalse => return .condBr (← visit cond) whenTrue whenFalse
  | .switch value default cases => return .switch (← visit value) default cases
  | .indirectBr address targets => return .indirectBr (← visit address) targets
  | .ret value => return .ret (← value.mapM visit)
  | .unreachable => return .unreachable

end

section
variable {σ : Type} (visit : Value → StateM σ Value)

/-- Hands out the operands of an instruction. -/
def Instr.traverse (i : Instr) : StateM σ Instr :=
  return { i with operation := ← i.operation.traverse visit }

/-- Hands out the operands of a block, those of the terminator last. -/
def Block.traverse (b : Block) : StateM σ Block :=
  return { b with instrs := ← b.instrs.mapM (Instr.traverse visit), terminator := ← b.terminator.traverse visit }

/-- Visits the values of a table in the order of their keys. -/
def Table.traverse {α : Type} (visit : α → StateM σ α) (t : Table α) : StateM σ (Table α) :=
  return ⟨← t.slots.mapM fun slot => slot.mapM visit⟩

/-- Hands out the operands of a function block by block. -/
def Func.traverse (f : Func) : StateM σ Func :=
  return { f with blocks := ← f.blocks.traverse (Block.traverse visit) }

/-- Hands out the initial value of a global, if it has one. -/
def Global.traverse (v : Global) : StateM σ Global :=
  return { v with init := ← v.init.mapM visit }

/-- Hands out the operands of a module one after the other, those of the globals first, and puts what the visit answers
in their places. -/
def Module.traverse (m : Module) : StateM σ Module :=
  return ⟨← m.globals.traverse (Global.traverse visit), ← m.funcs.traverse (Func.traverse visit)⟩

end

/-- A walk visits the listed parts in their order, answers stand where the parts stood, and it keeps to a relation. -/
structure Visits {σ α β : Type} (visit : β → StateM σ β) (R : α → α → Prop) (parts : α → List β)
    (walk : α → StateM σ α) : Prop where
  parts : ∀ a, parts <$> walk a = (parts a).mapM visit
  frame : ∀ a s, R a (walk a s).1

namespace Visits

variable {σ α β : Type} {visit : β → StateM σ β} {R : α → α → Prop} {parts : α → List β} {walk : α → StateM σ α}

/-- A single part is visited by the visit itself. -/
theorem self (visit : β → StateM σ β) : Visits visit (fun _ _ => True) (fun b => [b]) visit where
  parts b := by simp
  frame _ _ := trivial

variable (h : Visits visit R parts walk)

include h

theorem list : Visits visit (List.Forall₂ R) (List.flatMap parts) (List.mapM walk) where
  parts as := by
    induction as with
    | nil => simp
    | cons a as ih =>
      rw [List.flatMap_cons, List.mapM_append, ← ih, ← h.parts a]
      simp
  frame as s := by
    induction as generalizing s with
    | nil => exact .nil
    | cons a as ih =>
      rw [List.mapM_cons]
      exact .cons (h.frame a s) (ih (walk a s).2)

theorem option : Visits visit (Option.Rel R) (fun o => o.toList.flatMap parts) (Option.mapM walk) where
  parts o := by
    cases o with
    | none => simp
    | some a => simp [← h.parts a]
  frame o s := by
    cases o with
    | none => exact .none
    | some a => exact .some (h.frame a s)

theorem table : Visits visit (Table.Rel R) (fun t => t.values.flatMap parts) (Table.traverse walk) where
  parts t := by
    rw [Table.flatMap_values, ← h.option.list.parts t.slots]
    simp [Table.traverse, Table.flatMap_values]
  frame t s := h.option.list.frame t.slots s

end Visits

section
variable {L S B σ : Type} (visit : Operand L S → StateM σ (Operand L S))

theorem visits_row : Visits visit (fun vs vs' => vs'.length = vs.length) (fun vs => vs) (List.mapM visit) where
  parts _ := id_map _
  frame vs s := ((Visits.self visit).list.frame vs s).length_eq.symm

/-- The alternatives of a choice have one operand each, and the blocks they are for stay. -/
theorem visits_incoming :
    Visits visit (fun alts alts' : List (Operand L S × B) => alts'.map (·.2) = alts.map (·.2)) (List.map (·.1))
      (List.mapM fun alt => return (← visit alt.1, alt.2)) := by
  have hone : Visits visit (fun alt alt' : Operand L S × B => alt'.2 = alt.2) (fun alt => [alt.1])
      fun alt => return (← visit alt.1, alt.2) := ⟨fun alt => by simp, fun _ _ => rfl⟩
  have hmap : (List.flatMap fun alt : Operand L S × B => [alt.1]) = List.map (·.1) :=
    funext fun _ => List.map_eq_flatMap.symm
  refine ⟨fun alts => hmap ▸ hone.list.parts alts, fun alts s => ?_⟩
  rw [← List.forall₂_eq_eq_eq, List.forall₂_map_left_iff, List.forall₂_map_right_iff]
  exact (hone.list.frame alts s).flip

/-! Of a row of operands only the length shows in a skeleton. -/

theorem Operation.skeleton_phi (t : Ty) (incoming : List (Operand L S × B)) :
    (phi t incoming).skeleton = phi t (List.replicate incoming.length (.const .null, ())) := by
  simp [skeleton, mapOperands, mapTargets, List.mapIdx_mapIdx, List.mapIdx_eq_replicate_iff]

theorem Operation.skeleton_getElementPtr (t : Ty) (ptr : Operand L S) (indices : List (Operand L S)) :
    (getElementPtr (B := B) t ptr indices).skeleton =
      getElementPtr t (.const .null) (List.replicate indices.length (.const .null)) := by
  simp [skeleton, mapOperands, mapTargets, List.mapIdx_eq_replicate_iff]

theorem Operation.skeleton_call (ret : Ty) (callee : Operand L S) (args : List (Operand L S)) :
    (call (B := B) ret callee args).skeleton = call ret (.const .null) (List.replicate args.length (.const .null)) := by
  simp [skeleton, mapOperands, mapTargets, List.mapIdx_eq_replicate_iff]

theorem Operation.visits :
    Visits visit (Operation.SameFrame (L := L) (S := S) (B := B)) Operation.operands (Operation.traverse visit) where
  parts o := by
    cases o with
    | phi t incoming =>
      show operands <$> (do return Operation.phi t (← incoming.mapM _)) = (incoming.map (·.1)).mapM visit
      rw [← (visits_incoming visit).parts incoming]
      simp [operands]
    | _ => simp [traverse, operands]
  frame o s := by
    cases o with
    | phi t incoming =>
      have htargets := (visits_incoming (B := B) visit).frame incoming s
      have hlength := congrArg List.length htargets
      rw [List.length_map, List.length_map] at hlength
      refine ⟨htargets, (skeleton_phi t _).trans (.trans ?_ (skeleton_phi t incoming).symm)⟩
      exact congrArg (fun n => phi t (List.replicate n (.const .null, ()))) hlength
    | getElementPtr t ptr indices =>
      have hlength := (visits_row visit).frame indices (visit ptr s).2
      refine ⟨rfl, (skeleton_getElementPtr t _ _).trans (.trans ?_ (skeleton_getElementPtr t ptr indices).symm)⟩
      exact congrArg (fun n => getElementPtr t (.const .null) (List.replicate n (.const .null))) hlength
    | call ret callee args =>
      have hlength := (visits_row visit).frame args (visit callee s).2
      refine ⟨rfl, (skeleton_call ret _ _).trans (.trans ?_ (skeleton_call ret callee args).symm)⟩
      exact congrArg (fun n => call ret (.const .null) (List.replicate n (.const .null))) hlength
    | _ => exact ⟨rfl, rfl⟩

theorem Terminator.visits :
    Visits visit (Terminator.SameFrame (L := L) (S := S) (B := B)) Terminator.operands (Terminator.traverse visit) where
  parts t := by
    cases t with
    | ret value => cases value <;> simp [traverse, operands]
    | _ => simp [traverse, operands]
  frame t s := by
    cases t with
    | ret value => cases value <;> exact ⟨rfl, rfl⟩
    | _ => exact ⟨rfl, rfl⟩

end

section
variable {σ : Type} (visit : Value → StateM σ Value)

theorem Instr.visits : Visits visit Instr.SameFrame Instr.operands (Instr.traverse visit) where
  parts i := by
    show _ = i.operation.operands.mapM visit
    rw [← (Operation.visits visit).parts i.operation]
    simp [traverse, Instr.operands]
  frame i s := ⟨rfl, (Operation.visits visit).frame i.operation s⟩

theorem Block.visits : Visits visit Block.SameFrame Block.operands (Block.traverse visit) where
  parts b := by
    unfold Block.operands
    rw [List.mapM_append, ← (Instr.visits visit).list.parts b.instrs, ← (Terminator.visits visit).parts b.terminator]
    simp [traverse]
  frame b s := ⟨rfl, rfl, (Instr.visits visit).list.frame b.instrs s, (Terminator.visits visit).frame b.terminator _⟩

theorem Func.visits : Visits visit Func.SameFrame Func.operands (Func.traverse visit) where
  parts f := by
    show _ = (f.blocks.values.flatMap Block.operands).mapM visit
    rw [← (Block.visits visit).table.parts f.blocks]
    simp [traverse, Func.operands]
  frame f s := ⟨rfl, rfl, rfl, rfl, rfl, rfl, (Block.visits visit).table.frame f.blocks s⟩

theorem Global.visits : Visits visit Global.SameFrame (fun v => v.init.toList) (Global.traverse visit) where
  parts v := by
    cases hv : v.init <;> simp [traverse, hv]
  frame v s := by
    refine ⟨rfl, rfl, rfl, ?_, rfl⟩
    show ((v.init.mapM visit) s).1.isSome = _
    cases v.init <;> rfl

/-- A loop over the operands of a module meets those that are listed, in their order; what it puts in their places is
listed then, and nothing else has changed. -/
theorem Module.visits : Visits visit Module.SameFrame Module.operands (Module.traverse visit) where
  parts m := by
    unfold Module.operands
    rw [List.filterMap_eq_flatMap_toList, List.mapM_append, ← (Global.visits visit).table.parts m.globals,
      ← (Func.visits visit).table.parts m.funcs]
    simp [traverse, List.filterMap_eq_flatMap_toList]
  frame m s := ⟨(Global.visits visit).table.frame m.globals s, (Func.visits visit).table.frame m.funcs _⟩

end

/-! ## Uses of a function -/

theorem Operand.func?_eq_some_iff {v : Value} {f : FuncId} : v.func? = some f ↔ v = .symbol (.func f) := by
  cases v with
  | symbol s => cases s <;> simp [func?]
  | _ => simp [func?]

/-- Puts a value in the place of a reference to a function, and counts one more. -/
def replaceUse (f : FuncId) (replacement v : Value) : StateM Nat Value := do
  if v.func? = some f then
    modify (· + 1)
    return replacement
  else return v

theorem replaceUse_apply (f : FuncId) (r v : Value) (n : Nat) :
    replaceUse f r v n = (if v.func? = some f then r else v, n + [v].countP fun v => v.func? == some f) := by
  by_cases hv : v.func? = some f
  · rw [if_pos hv, List.countP_singleton, if_pos (beq_iff_eq.2 hv)]
    unfold replaceUse
    rw [if_pos hv]
    rfl
  · rw [if_neg hv, List.countP_singleton, if_neg (mt beq_iff_eq.1 hv)]
    unfold replaceUse
    rw [if_neg hv]
    rfl

theorem mapM_replaceUse (f : FuncId) (r : Value) (vs : List Value) (n : Nat) : vs.mapM (replaceUse f r) n =
    (vs.map fun v => if v.func? = some f then r else v, n + vs.countP fun v => v.func? == some f) := by
  induction vs generalizing n with
  | nil => rfl
  | cons v vs ih =>
    rw [List.mapM_cons]
    show (let one := replaceUse f r v n
      let others := vs.mapM (replaceUse f r) one.2
      (one.1 :: others.1, others.2)) = _
    simp only [replaceUse_apply, ih]
    rw [Nat.add_assoc, ← List.countP_append]
    rfl

namespace Module

/-- Goes through the operands and replaces the uses of a function; answers the number of them too. -/
def replaceInTurn (m : Module) (f : FuncId) (replacement : Value) : Module × Nat :=
  m.traverse (replaceUse f replacement) 0

theorem useCount_eq_count (m : Module) (f : FuncId) : m.useCount f = m.operands.count (.symbol (.func f)) := by
  unfold useCount List.count
  congr 1
  funext v
  rw [Bool.eq_iff_iff, beq_iff_eq, beq_iff_eq, Operand.func?_eq_some_iff]

theorem operands_replaceUses (m : Module) (f : FuncId) (r : Value) :
    (m.replaceUses f r).operands = m.operands.map fun v => if v.func? = some f then r else v :=
  operands_mapOperands _ m

theorem useCount_replaceUses (m : Module) (f : FuncId) (r : Value) :
    (m.replaceUses f r).useCount f = if r = .symbol (.func f) then m.useCount f else 0 := by
  unfold useCount
  rw [operands_replaceUses, List.countP_map]
  by_cases hr : r.func? = some f
  · rw [if_pos (Operand.func?_eq_some_iff.1 hr)]
    congr 1
    funext v
    by_cases hv : v.func? = some f <;> simp [hv, hr]
  · rw [if_neg (mt Operand.func?_eq_some_iff.2 hr), List.countP_eq_zero]
    intro v _
    by_cases hv : v.func? = some f <;> simp [hv, hr]

theorem sameFrame_replaceUses (m : Module) (f : FuncId) (r : Value) : m.SameFrame (m.replaceUses f r) :=
  m.sameFrame_mapOperands _

/-- Both keep the frame and list the same operands. -/
theorem replaceInTurn_eq (m : Module) (f : FuncId) (r : Value) :
    m.replaceInTurn f r = (m.replaceUses f r, m.useCount f) := by
  have hparts : ((m.replaceInTurn f r).1.operands, (m.replaceInTurn f r).2) =
      (m.operands.map fun v => if v.func? = some f then r else v, 0 + m.useCount f) :=
    (congrFun ((Module.visits (replaceUse f r)).parts m) 0).trans (mapM_replaceUse f r m.operands 0)
  obtain ⟨hoperands, hcount⟩ := Prod.mk.inj hparts
  have hframe : m.SameFrame (m.replaceInTurn f r).1 := (Module.visits (replaceUse f r)).frame m 0
  refine Prod.ext ?_ (hcount.trans (Nat.zero_add _))
  exact Module.determined.eq hframe (m.sameFrame_replaceUses f r) (hoperands.trans (m.operands_replaceUses f r).symm)

theorem removeFunc_replaceUses (m : Module) (f : FuncId) (r : Value) : (m.replaceUses f r).removeFunc f =
    if r = .symbol (.func f) ∧ m.useCount f ≠ 0 then .error (.stillReferenced f)
    else .ok ((m.replaceUses f r).funcs.get? f, (m.replaceUses f r).eraseFunc f) := by
  unfold removeFunc
  rw [useCount_replaceUses]
  by_cases hr : r = .symbol (.func f) <;> by_cases hcount : m.useCount f = 0 <;> simp [hr, hcount, eraseFunc]

/-- The loop that replaces the uses of a function yields the one module with the same frame whose list of operands has
the replacement for each reference, and their number; the function can be removed afterwards unless it replaced itself
somewhere. Loops over the operands meet those in the lists, place by place, for every form of an instruction
and a terminator. -/
theorem replaceUses_spec (m : Module) (f : FuncId) (r : Value) :
    m.replaceInTurn f r = (m.replaceUses f r, m.operands.count (.symbol (.func f))) ∧
    (∀ n, n = m.replaceUses f r ↔
      m.SameFrame n ∧ n.operands = m.operands.map fun v => if v = .symbol (.func f) then r else v) ∧
    (m.replaceUses f r).removeFunc f =
      (if r = .symbol (.func f) ∧ m.operands.count (.symbol (.func f)) ≠ 0 then .error (.stillReferenced f)
      else .ok ((m.replaceUses f r).funcs.get? f, (m.replaceUses f r).eraseFunc f)) ∧
    ∀ {σ : Type} (visit : Value → StateM σ Value),
      (∀ o : Operation LocalId Symbol BlockId,
        Operation.operands <$> o.traverse visit = o.operands.mapM visit) ∧
      (∀ t : Terminator LocalId Symbol BlockId,
        Terminator.operands <$> t.traverse visit = t.operands.mapM visit) ∧
      ∀ n : Module, operands <$> n.traverse visit = n.operands.mapM visit := by
  have hoperands : (m.replaceUses f r).operands = m.operands.map fun v => if v = .symbol (.func f) then r else v := by
    simp only [operands_replaceUses, Operand.func?_eq_some_iff]
  rw [← m.useCount_eq_count f]
  refine ⟨m.replaceInTurn_eq f r, fun n => ⟨?_, ?_⟩, m.removeFunc_replaceUses f r, fun visit =>
    ⟨(Operation.visits visit).parts, (Terminator.visits visit).parts, (Module.visits visit).parts⟩⟩
  · rintro rfl
    exact ⟨m.sameFrame_replaceUses f r, hoperands⟩
  · rintro ⟨hframe, hn⟩
    exact Module.determined.eq hframe (m.sameFrame_replaceUses f r) (hn.trans hoperands.symm)

example : Operation.traverse (B := BlockId) (replaceUse 1 (.const .null))
    (.call .void (.symbol (.func 1)) [.var 0, .symbol (.func 1), .symbol (.func 2)]) 0 =
      (.call .void (.const .null) [.var 0, .const .null, .symbol (.func 2)], 2) := by rfl

end Module
end SSALint
