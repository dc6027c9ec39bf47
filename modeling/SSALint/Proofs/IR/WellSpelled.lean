/-
Operations that are well spelled: their types can be written, those of their literals too, and lists that cannot be
empty are not. This says nothing of whether a literal fits the type that it stands under; an operation of which that
is true as well is in typed form (`Operation.WellSpelled.typed`).
-/
import SSALint.Proofs.IR.Operands
import SSALint.Proofs.IR.Typed

namespace SSALint

variable {L S B L' S' B' : Type}

/-! ## Operands -/

/-- The type of a literal can be written. -/
def Operand.WellSpelled : Operand L S → Prop
  | .const c => c.type.Writable
  | _ => True

theorem Operand.WellSpelled.map {v : Operand L S} (hv : v.WellSpelled) (f : L → L') (g : S → S') :
    (v.map f g).WellSpelled := by
  cases v with
  | const c => exact hv
  | _ => trivial

/-! ## Operations -/

namespace Operation

/-- The types that an operation states; those of operands that stand behind their own types do not count. -/
def types : Operation L S B → List Ty
  | .alloca t | .load t _ | .binary _ t .. | .icmp _ t .. | .fcmp _ t .. | .cast _ _ t | .phi t _
  | .getElementPtr t .. | .call t .. => [t]
  | _ => []

/-- There is an alternative to come from, and a step on a path. -/
def Full : Operation L S B → Prop
  | .phi _ incoming => incoming ≠ []
  | .extractValue _ path | .insertValue _ _ path => path ≠ []
  | _ => True

/-- The types in an operation can be written, and its lists are as long as they have to be. -/
structure WellSpelled (o : Operation L S B) : Prop where
  types : ∀ t ∈ o.types, t.Writable
  operands : ∀ v ∈ o.operands, v.WellSpelled
  full : o.Full

theorem WellSpelled.mapOperands {o : Operation L S B} (ho : o.WellSpelled) {g : Operand L S → Operand L' S'}
    (hg : ∀ v, v.WellSpelled → (g v).WellSpelled) : (o.mapOperands fun _ => g).WellSpelled where
  types := by
    have htypes : (o.mapOperands fun _ => g).types = o.types := by cases o <;> rfl
    exact htypes ▸ ho.types
  operands := by
    rw [operands_mapOperands, mapIdx_const, List.forall_mem_map]
    exact fun v hv => hg v (ho.operands v hv)
  full := by
    cases o with
    | phi t incoming => exact fun h => ho.full (List.mapIdx_eq_nil_iff.1 h)
    | _ => exact ho.full

theorem WellSpelled.mapTargets {o : Operation L S B} (ho : o.WellSpelled) (f : Nat → B → B') :
    (o.mapTargets f).WellSpelled where
  types := by
    have htypes : (o.mapTargets f).types = o.types := by cases o <;> rfl
    exact htypes ▸ ho.types
  operands := by
    rw [operands_mapTargets]
    exact ho.operands
  full := by
    cases o with
    | phi t incoming => exact fun h => ho.full (List.mapIdx_eq_nil_iff.1 h)
    | _ => exact ho.full

end Operation

/-! ## Terminators -/

namespace Terminator

/-- The literals that the cases of a terminator have. -/
def literals : Terminator L S B → List Constant
  | .switch _ _ cases => cases.map (·.1)
  | _ => []

/-- The types of the literals in a terminator can be written. -/
structure WellSpelled (t : Terminator L S B) : Prop where
  operands : ∀ v ∈ t.operands, v.WellSpelled
  literals : ∀ c ∈ t.literals, c.type.Writable

theorem WellSpelled.mapOperands {t : Terminator L S B} (ht : t.WellSpelled) {g : Operand L S → Operand L' S'}
    (hg : ∀ v, v.WellSpelled → (g v).WellSpelled) : (t.mapOperands fun _ => g).WellSpelled where
  operands := by
    rw [operands_mapOperands, mapIdx_const, List.forall_mem_map]
    exact fun v hv => hg v (ht.operands v hv)
  literals := by
    have hliterals : (t.mapOperands fun _ => g).literals = t.literals := by cases t <;> rfl
    exact hliterals ▸ ht.literals

theorem WellSpelled.mapTargets {t : Terminator L S B} (ht : t.WellSpelled) (f : Nat → B → B') :
    (t.mapTargets f).WellSpelled where
  operands := by
    rw [operands_mapTargets]
    exact ht.operands
  literals := by
    have hliterals : (t.mapTargets f).literals = t.literals := by
      cases t with
      | switch value default cases => apply List.ext_getElem <;> simp [Terminator.mapTargets, Terminator.literals]
      | _ => rfl
    exact hliterals ▸ ht.literals

end Terminator

/-! ## Typed form -/

section

variable (typeOf : Operand L S → Ty)

/-- The literals of an operation fit the types that they stand under, and what an index leads to exists. -/
def Operation.Fitting : Operation L S B → Prop
  | .binary _ t lhs rhs | .icmp _ t lhs rhs | .fcmp _ t lhs rhs => lhs.Fits t ∧ rhs.Fits t
  | .phi t incoming => ∀ alt ∈ incoming, alt.1.Fits t
  | .extractValue aggregate path =>
    aggregate.Fits (typeOf aggregate) ∧ ((typeOf aggregate).at? path).isSome = true
  | .extractElement vector index =>
    vector.Fits (typeOf vector) ∧ index.Fits (typeOf index) ∧ (typeOf vector).vectorElem?.isSome = true
  | .call _ callee args => callee.Fits .ptr ∧ ∀ v ∈ args, v.Fits (typeOf v)
  | o => ∀ v ∈ o.operands, v.Fits (typeOf v)

/-- The literals of a terminator fit their own types. -/
structure Terminator.Fitting (t : Terminator L S B) : Prop where
  operands : ∀ v ∈ t.operands, v.Fits (typeOf v)
  literals : ∀ c ∈ t.literals, c.Fits c.type

instance : (o : Operation L S B) → Decidable (o.Fitting typeOf)
  | .binary .. | .icmp .. | .fcmp .. | .extractValue .. => inferInstanceAs (Decidable (_ ∧ _))
  | .phi t incoming => inferInstanceAs (Decidable (∀ alt ∈ incoming, alt.1.Fits t))
  | .extractElement .. => inferInstanceAs (Decidable (_ ∧ _ ∧ _))
  | .call _ callee args => inferInstanceAs (Decidable (callee.Fits .ptr ∧ ∀ v ∈ args, v.Fits (typeOf v)))
  | .alloca .. | .store .. | .load .. | .cast .. | .select .. | .getElementPtr .. | .insertValue ..
  | .insertElement .. => List.decidableBAll _ _

instance (t : Terminator L S B) : Decidable (t.Fitting typeOf) :=
  decidable_of_iff ((∀ v ∈ t.operands, v.Fits (typeOf v)) ∧ ∀ c ∈ t.literals, c.Fits c.type)
    ⟨fun h => ⟨h.1, h.2⟩, fun h => ⟨h.1, h.2⟩⟩

variable {typeOf} (htype : ∀ v : Operand L S, v.WellSpelled → (typeOf v).Writable)

include htype

/-- A well spelled operation whose literals fit is in typed form. -/
theorem Operation.WellSpelled.typed {o : Operation L S B} (ho : o.WellSpelled) (hf : o.Fitting typeOf) :
    o.Typed typeOf := by
  have typed : ∀ v ∈ o.operands, v.Fits (typeOf v) → v.Typed typeOf :=
    fun v hv h => ⟨htype v (ho.operands v hv), h⟩
  have all : (∀ v ∈ o.operands, v.Fits (typeOf v)) → ∀ v ∈ o.operands, v.Typed typeOf :=
    fun h v hv => typed v hv (h v hv)
  have stated : ∀ t ∈ o.types, t.Writable := ho.types
  cases o with
  | alloca t => exact stated t (.head _)
  | store value ptr => simpa [Operation.Typed, Operation.operands] using all hf
  | load t ptr => exact ⟨stated t (.head _), all hf ptr (.head _)⟩
  | binary op t lhs rhs => exact ⟨stated t (.head _), hf⟩
  | icmp pred t lhs rhs => exact ⟨stated t (.head _), hf⟩
  | fcmp pred t lhs rhs => exact ⟨stated t (.head _), hf⟩
  | cast op value t => exact ⟨all hf value (.head _), stated t (.head _)⟩
  | phi t incoming => exact ⟨stated t (.head _), ho.full, hf⟩
  | select cond whenTrue whenFalse => simpa [Operation.Typed, Operation.operands] using all hf
  | getElementPtr t ptr indices => exact ⟨stated t (.head _), List.forall_mem_cons.1 (all hf)⟩
  | extractValue aggregate path => exact ⟨typed aggregate (.head _) hf.1, ho.full, hf.2⟩
  | insertValue aggregate value path =>
    exact ⟨all hf aggregate (.head _), all hf value (.tail _ (.head _)), ho.full⟩
  | extractElement vector index =>
    exact ⟨typed vector (.head _) hf.1, typed index (.tail _ (.head _)) hf.2.1, hf.2.2⟩
  | insertElement vector value index => simpa [Operation.Typed, Operation.operands] using all hf
  | call ret callee args => exact ⟨stated ret (.head _), hf.1, fun v hv => typed v (.tail _ hv) (hf.2 v hv)⟩

theorem Terminator.WellSpelled.typed {t : Terminator L S B} (ht : t.WellSpelled) (hf : t.Fitting typeOf) :
    t.Typed typeOf := by
  have htyped : ∀ v ∈ t.operands, v.Typed typeOf := fun v hv => ⟨htype v (ht.operands v hv), hf.operands v hv⟩
  cases t with
  | br target => trivial
  | condBr cond whenTrue whenFalse => exact htyped cond (.head _)
  | switch value default cases =>
    refine ⟨htyped value (.head _), fun case hcase => ?_⟩
    exact ⟨ht.literals _ (List.mem_map_of_mem hcase), hf.literals _ (List.mem_map_of_mem hcase)⟩
  | indirectBr address targets => exact htyped address (.head _)
  | ret value => exact fun v hv => htyped v (Option.mem_toList.2 hv)
  | unreachable => trivial

end

/-- The literals of a block fit, and results have the types that follow. -/
structure Block.Fitting (typeOf : Value → Ty) (b : Block) : Prop where
  operations : ∀ i ∈ b.instrs, i.operation.Fitting typeOf
  results : ∀ i ∈ b.instrs, ∀ x ∈ i.result, i.operation.resultType? typeOf = some (typeOf (.var x))
  terminator : b.terminator.Fitting typeOf

instance (typeOf : Value → Ty) (b : Block) : Decidable (b.Fitting typeOf) :=
  decidable_of_iff ((∀ i ∈ b.instrs, i.operation.Fitting typeOf) ∧
      (∀ i ∈ b.instrs, ∀ x ∈ i.result, i.operation.resultType? typeOf = some (typeOf (.var x))) ∧
      b.terminator.Fitting typeOf)
    ⟨fun h => ⟨h.1, h.2.1, h.2.2⟩, fun h => ⟨h.1, h.2, h.3⟩⟩

end SSALint
