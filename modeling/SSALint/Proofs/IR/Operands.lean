/-
Substitution of operands in blocks, functions and modules. Where the place of an operand does not
matter, a block is substituted instruction by instruction; two substitutions in a row are one, and
the list of operands is mapped.
-/
import SSALint.IR.Module
import SSALint.Proofs.Table

namespace SSALint

variable {L S B L' S' L'' S'' : Type}

theorem Operation.mapOperands_mapOperands (f : Nat → Operand L S → Operand L' S')
    (g : Nat → Operand L' S' → Operand L'' S'') (o : Operation L S B) :
    (o.mapOperands f).mapOperands g = o.mapOperands fun k v => g k (f k v) := by
  cases o <;> simp [mapOperands, List.mapIdx_mapIdx, Function.comp_def]

theorem Terminator.mapOperands_mapOperands (f : Nat → Operand L S → Operand L' S')
    (g : Nat → Operand L' S' → Operand L'' S'') (t : Terminator L S B) :
    (t.mapOperands f).mapOperands g = t.mapOperands fun k v => g k (f k v) := by
  cases t <;> simp [mapOperands, Function.comp_def]

theorem mapIdx_const {α β : Type} (g : α → β) (l : List α) : (l.mapIdx fun _ => g) = l.map g := by
  apply List.ext_getElem <;> simp

theorem Operation.mapOperands_self (o : Operation L S B) : (o.mapOperands fun _ v => v) = o := by
  cases o <;> simp [mapOperands, mapIdx_const]

theorem Terminator.mapOperands_self (t : Terminator L S B) : (t.mapOperands fun _ v => v) = t := by
  cases t <;> simp [mapOperands]

/-! ## Blocks -/

namespace Block

/-- An instruction with all of its operands substituted alike. -/
def substInstr (g : Value → Value) (i : Instr) : Instr :=
  { i with operation := i.operation.mapOperands fun _ => g }

theorem mapInstrOperands_const (g : Value → Value) (start : Nat) (is : List Instr) :
    mapInstrOperands (fun _ => g) start is = is.map (substInstr g) := by
  induction is generalizing start with
  | nil => rfl
  | cons i is ih => rw [mapInstrOperands, ih, List.map_cons, substInstr]

theorem mapOperands_const (g : Value → Value) (b : Block) : b.mapOperands (fun _ => g) =
    { b with
      instrs := b.instrs.map (substInstr g)
      terminator := b.terminator.mapOperands fun _ => g } := by
  unfold mapOperands
  rw [mapInstrOperands_const]

theorem mapOperands_self (b : Block) : (b.mapOperands fun _ v => v) = b := by
  have hinstr : substInstr (fun v => v) = fun i => i := by
    funext i
    rw [substInstr, Operation.mapOperands_self]
  rw [mapOperands_const, hinstr, List.map_id', Terminator.mapOperands_self]

theorem mapOperands_mapOperands (g h : Value → Value) (b : Block) :
    (b.mapOperands fun _ => g).mapOperands (fun _ => h) = b.mapOperands fun _ v => h (g v) := by
  simp only [mapOperands_const, List.map_map, Terminator.mapOperands_mapOperands]
  congr 2
  funext i
  simp only [Function.comp, substInstr, Operation.mapOperands_mapOperands]

theorem operands_mapOperands_const (g : Value → Value) (b : Block) :
    (b.mapOperands fun _ => g).operands = b.operands.map g := by
  rw [operands_mapOperands, mapIdx_const]

theorem targets_mapOperands (g : Value → Value) (b : Block) :
    (b.mapOperands fun _ => g).targets = b.targets := by
  rw [mapOperands_const]
  unfold targets
  rw [List.flatMap_map, Terminator.targets_mapOperands]
  congr 2
  funext i
  exact Operation.targets_mapOperands (fun _ => g) i.operation

end Block

/-! ## Functions -/

namespace Func

@[simp] theorem operands_mapOperands (g : Value → Value) (f : Func) :
    (f.mapOperands g).operands = f.operands.map g := by
  unfold operands mapOperands
  simp only [Table.values_map, List.flatMap_map, List.map_flatMap, Block.operands_mapOperands_const]

theorem mapOperands_self (f : Func) : f.mapOperands (fun v => v) = f := by
  have hblock : Block.mapOperands (fun _ v => v) = fun b => b := funext Block.mapOperands_self
  unfold mapOperands
  rw [hblock, Table.map_self]

theorem mapOperands_mapOperands (g h : Value → Value) (f : Func) :
    (f.mapOperands g).mapOperands h = f.mapOperands fun v => h (g v) := by
  unfold mapOperands
  simp only [Table.map_map, Function.comp_def, Block.mapOperands_mapOperands]

end Func

/-! ## Modules -/

namespace Module

@[simp] theorem operands_mapOperands (g : Value → Value) (m : Module) :
    (m.mapOperands g).operands = m.operands.map g := by
  unfold operands mapOperands
  simp only [Table.values_map, List.flatMap_map, List.map_append, List.map_flatMap,
    Func.operands_mapOperands, List.filterMap_map, List.map_filterMap, Function.comp_def]

theorem mem_operands_iff {m : Module} {v : Value} : v ∈ m.operands ↔
    (∃ k g, m.globals.get? k = some g ∧ g.init = some v) ∨
      ∃ k f, m.funcs.get? k = some f ∧ v ∈ f.operands := by
  unfold operands
  simp only [List.mem_append, List.mem_filterMap, List.mem_flatMap, Table.mem_values]
  constructor
  · rintro (⟨g, ⟨k, hk⟩, hv⟩ | ⟨f, ⟨k, hk⟩, hv⟩)
    · exact .inl ⟨k, g, hk, hv⟩
    · exact .inr ⟨k, f, hk, hv⟩
  · rintro (⟨k, g, hk, hv⟩ | ⟨k, f, hk, hv⟩)
    · exact .inl ⟨g, ⟨k, hk⟩, hv⟩
    · exact .inr ⟨f, ⟨k, hk⟩, hv⟩

end Module
end SSALint
