/-
What names stand for. A sense says which ids the mentions of names may stand for. A block of names means a block of ids
if what the names stand for is in their places, result by result, operand by operand and target by target, and
all else is the same; it means one block only if the sense leaves no choice (`Sense.MeansBlock.unique`). A meaning
that keeps to a sense renames each block to one that it means (`Meaning.Keeps.meansBlock`).
-/
import SSALint.Proofs.Source.Bare
import Mathlib.Data.List.Forall2

namespace SSALint

/-! ## Skeletons -/

section

variable {L S B : Type}

/-- What is left of an operation without its operands and its targets. -/
def Operation.skeleton (o : Operation L S B) : Operation Unit Unit Unit :=
  (o.mapOperands fun _ _ => .const .null).mapTargets fun _ _ => ()

/-- What is left of a terminator without its operands and its targets. -/
def Terminator.skeleton (t : Terminator L S B) : Terminator Unit Unit Unit :=
  (t.mapOperands fun _ _ => .const .null).mapTargets fun _ _ => ()

theorem mapIdx_getElem?_getD {α : Type} (xs : List α) (d : α) : (xs.mapIdx fun k _ => xs[k]?.getD d) = xs := by
  apply List.ext_getElem <;> simp +contextual

/-- An operation is its skeleton with its operands and its targets back in their places. -/
theorem Operation.fill_skeleton (o : Operation L S B) (v : Operand L S) (b : B) :
    ((o.skeleton.mapOperands fun k _ => o.operands.getD k v).mapTargets fun k _ => o.targets.getD k b) = o := by
  cases o with
  | phi t incoming =>
    -- Operands and targets alternate, so the two rows are compared place by place.
    simp only [skeleton, mapOperands, mapTargets, operands, targets]
    congr 1
    apply List.ext_getElem <;> simp +contextual
  | _ => simp [skeleton, mapOperands, mapTargets, operands, Function.comp_def, mapIdx_getElem?_getD]

theorem Terminator.fill_skeleton (t : Terminator L S B) (v : Operand L S) (b : B) :
    ((t.skeleton.mapOperands fun k _ => t.operands.getD k v).mapTargets fun k _ => t.targets.getD k b) = t := by
  cases t with
  | switch value default cases =>
    simp only [skeleton, mapOperands, mapTargets, operands, targets]
    congr 1
    apply List.ext_getElem <;> simp +contextual
  | ret value => cases value <;> simp [skeleton, mapOperands, mapTargets, operands]
  | _ => simp [skeleton, mapOperands, mapTargets, operands, targets, Function.comp_def, mapIdx_getElem?_getD]

/-- Operations with one skeleton, one row of operands and one row of targets are one. -/
theorem Operation.eq_of_skeleton_eq [Inhabited B] {o o' : Operation L S B} (hskeleton : o.skeleton = o'.skeleton)
    (hoperands : o.operands = o'.operands) (htargets : o.targets = o'.targets) : o = o' := by
  rw [← o.fill_skeleton (.const .null) default, ← o'.fill_skeleton (.const .null) default, hskeleton, hoperands,
    htargets]

theorem Terminator.eq_of_skeleton_eq [Inhabited B] {t t' : Terminator L S B} (hskeleton : t.skeleton = t'.skeleton)
    (hoperands : t.operands = t'.operands) (htargets : t.targets = t'.targets) : t = t' := by
  rw [← t.fill_skeleton (.const .null) default, ← t'.fill_skeleton (.const .null) default, hskeleton, hoperands,
    htargets]

/-- Renaming leaves the skeleton. -/
theorem Operation.skeleton_rename {L' S' B' : Type} (f : Operand L S → Operand L' S') (g : B → B')
    (o : Operation L S B) : ((o.mapOperands fun _ => f).mapTargets fun _ => g).skeleton = o.skeleton :=
  o.rename_rename f (fun _ => .const .null) g fun _ => ()

theorem Terminator.skeleton_rename {L' S' B' : Type} (f : Operand L S → Operand L' S') (g : B → B')
    (t : Terminator L S B) : ((t.mapOperands fun _ => f).mapTargets fun _ => g).skeleton = t.skeleton :=
  t.rename_rename f (fun _ => .const .null) g fun _ => ()

end

theorem forall₂_map {α β : Type} {R : α → β → Prop} {f : α → β} {xs : List α} (h : ∀ x ∈ xs, R x (f x)) :
    List.Forall₂ R xs (xs.map f) :=
  List.forall₂_map_right_iff.2 (List.forall₂_same.2 h)

theorem rightUnique_optionRel {α β : Type} {R : α → β → Prop} (hR : Relator.RightUnique R) :
    Relator.RightUnique (Option.Rel R) := by
  intro a b b' h h'
  cases h with
  | none =>
    cases h'
    rfl
  | some h =>
    cases h' with
    | some h' => rw [hR h h']

namespace Source

/-! ## Senses -/

/-- What mentions of names stand for, by the kind of name. -/
structure Sense where
  value : Mention → LocalId → Prop
  label : Mention → BlockId → Prop
  symbol : Mention → Symbol → Prop

namespace Sense

variable (σ : Sense)

/-- A name means what it stands for, and a literal itself. -/
inductive MeansValue : NamedValue → Value → Prop where
  | var {m : Mention} {x : LocalId} (h : σ.value m x) : MeansValue (.var m) (.var x)
  | symbol {m : Mention} {s : Symbol} (h : σ.symbol m s) : MeansValue (.symbol m) (.symbol s)
  | const (c : Constant) : MeansValue (.const c) (.const c)

/-- An instruction of names means one of ids: what names mean is in their places, and all else is the same. -/
structure MeansInstr (i : NamedInstr) (j : Instr) : Prop where
  result : Option.Rel (fun r x => σ.value r.name x) i.result j.result
  operands : List.Forall₂ σ.MeansValue i.operation.operands j.operands
  targets : List.Forall₂ σ.label i.operation.targets j.targets
  skeleton : i.operation.skeleton = j.operation.skeleton

/-- A terminator of names means one of ids, as with instructions. -/
structure MeansTerminator (t : Terminator Mention Mention Mention) (u : Terminator LocalId Symbol BlockId) : Prop where
  operands : List.Forall₂ σ.MeansValue t.operands u.operands
  targets : List.Forall₂ σ.label t.targets u.targets
  skeleton : t.skeleton = u.skeleton

/-- A block of names means a block of ids, whose number its label stands for. -/
structure MeansBlock (b : NamedBlock) (c : Block) : Prop where
  id : σ.label b.name c.id
  label : c.label = b.label.map (·.name)
  instrs : List.Forall₂ σ.MeansInstr b.instrs c.instrs
  terminator : σ.MeansTerminator b.terminator c.terminator

/-! ## Uniqueness -/

/-- No mention stands for two things. -/
structure Functional : Prop where
  value : Relator.RightUnique σ.value
  label : Relator.RightUnique σ.label
  symbol : Relator.RightUnique σ.symbol

variable {σ} (hσ : σ.Functional)

include hσ

theorem Functional.meansValue : Relator.RightUnique σ.MeansValue := by
  intro v w w' h h'
  cases h with
  | var h => cases h' with | var h' => rw [hσ.value h h']
  | symbol h => cases h' with | symbol h' => rw [hσ.symbol h h']
  | const c => cases h'; rfl

theorem Functional.meansInstr : Relator.RightUnique σ.MeansInstr := by
  intro i j j' h h'
  -- The relation leaves no field of an instruction open, so the fields agree one by one.
  obtain ⟨result, operation⟩ := j
  obtain ⟨result', operation'⟩ := j'
  have hvalue : Relator.RightUnique fun (r : NamedResult) x => σ.value r.name x := fun _ _ _ hx hx' => hσ.value hx hx'
  have hresult : result = result' := rightUnique_optionRel hvalue h.result h'.result
  have hoperation : operation = operation' :=
    Operation.eq_of_skeleton_eq (h.skeleton.symm.trans h'.skeleton)
      (hσ.meansValue.forall₂ h.operands h'.operands)
      (hσ.label.forall₂ h.targets h'.targets)
  rw [hresult, hoperation]

theorem Functional.meansTerminator : Relator.RightUnique σ.MeansTerminator := fun _ _ _ h h' =>
  Terminator.eq_of_skeleton_eq (h.skeleton.symm.trans h'.skeleton)
    (hσ.meansValue.forall₂ h.operands h'.operands)
    (hσ.label.forall₂ h.targets h'.targets)

/-- A block of names means one block at most, in its number and in every place. -/
theorem Functional.meansBlock : Relator.RightUnique σ.MeansBlock := by
  intro b c c' h h'
  obtain ⟨id, label, instrs, terminator⟩ := c
  obtain ⟨id', label', instrs', terminator'⟩ := c'
  have hid : id = id' := hσ.label h.id h'.id
  have hlabel : label = label' := h.label.trans h'.label.symm
  have hinstrs : instrs = instrs' := hσ.meansInstr.forall₂ h.instrs h'.instrs
  have hterminator : terminator = terminator' := hσ.meansTerminator h.terminator h'.terminator
  rw [hid, hlabel, hinstrs, hterminator]

end Sense

/-! ## Meanings -/

/-- A meaning gives the names in a block what they stand for. -/
structure Meaning.Keeps (g : Meaning) (σ : Sense) (b : NamedBlock) : Prop where
  name : σ.label b.name (g.label b.name)
  results : ∀ r ∈ b.results, σ.value r.name (g.value r.name)
  vars : ∀ m, .var m ∈ b.operands → σ.value m (g.value m)
  symbols : ∀ m, .symbol m ∈ b.operands → σ.symbol m (g.symbol m)
  targets : ∀ m ∈ b.targets, σ.label m (g.label m)

namespace Meaning

variable {g : Meaning} {σ : Sense}

theorem meansValue_operand {v : NamedValue} (hvar : ∀ m, v = .var m → σ.value m (g.value m))
    (hsymbol : ∀ m, v = .symbol m → σ.symbol m (g.symbol m)) : σ.MeansValue v (g.operand v) := by
  cases v with
  | var m => exact .var (hvar m rfl)
  | symbol m => exact .symbol (hsymbol m rfl)
  | const c => exact .const c

variable {b : NamedBlock} (h : g.Keeps σ b)

include h

theorem Keeps.forall₂_operands {vs : List NamedValue} (hvs : ∀ v ∈ vs, v ∈ b.operands) :
    List.Forall₂ σ.MeansValue vs (vs.map g.operand) :=
  forall₂_map fun v hv =>
    meansValue_operand (fun m hm => h.vars m (hm ▸ hvs v hv)) fun m hm => h.symbols m (hm ▸ hvs v hv)

theorem Keeps.meansInstr {i : NamedInstr} (hi : i ∈ b.instrs) : σ.MeansInstr i (g.instr i) where
  result := by
    show Option.Rel _ i.result (i.result.map _)
    cases hr : i.result with
    | none => exact .none
    | some r => exact .some (h.results r (List.mem_filterMap.2 ⟨i, hi, hr⟩))
  operands := by
    have hmem : ∀ v ∈ i.operation.operands, v ∈ b.operands := fun v hv =>
      List.mem_append_left _ (List.mem_flatMap.2 ⟨i, hi, hv⟩)
    simpa [Instr.operands, instr, mapIdx_const] using h.forall₂_operands hmem
  targets := by
    have hmem : ∀ m ∈ i.operation.targets, σ.label m (g.label m) := fun m hm =>
      h.targets m (List.mem_append_left _ (List.mem_flatMap.2 ⟨i, hi, hm⟩))
    simpa [Instr.targets, instr, mapIdx_const] using forall₂_map hmem
  skeleton := (i.operation.skeleton_rename g.operand g.label).symm

theorem Keeps.meansTerminator : σ.MeansTerminator b.terminator (g.block b).terminator where
  operands := by
    have hmem : ∀ v ∈ b.terminator.operands, v ∈ b.operands := fun v => List.mem_append_right _
    simpa [block, mapIdx_const] using h.forall₂_operands hmem
  targets := by
    have hmem : ∀ m ∈ b.terminator.targets, σ.label m (g.label m) := fun m hm =>
      h.targets m (List.mem_append_right _ hm)
    simpa [block, mapIdx_const] using forall₂_map hmem
  skeleton := (b.terminator.skeleton_rename g.operand g.label).symm

theorem Keeps.meansBlock : σ.MeansBlock b (g.block b) where
  id := h.name
  label := rfl
  instrs := forall₂_map fun _ hi => h.meansInstr hi
  terminator := h.meansTerminator

end Meaning

end Source
end SSALint
