/-
What control flow is blind to. Substituting the operands of a function, or changing its local values,
leaves its blocks where they are and their successors what they were, so its graph, its first block and
its order of flow stay.
-/
import SSALint.Proofs.Flow.Func
import SSALint.Proofs.IR.Operands

namespace SSALint

namespace Block

theorem successors_mapOperands (g : Value → Value) (b : Block) :
    (b.mapOperands fun _ => g).successors = b.successors := by
  rw [mapOperands_const]
  exact Terminator.targets_mapOperands (fun _ => g) b.terminator

end Block

namespace Func

variable (g : Value → Value) (f : Func)

theorem get?_blocks_mapOperands (b : BlockId) :
    (f.mapOperands g).blocks.get? b = (f.blocks.get? b).map (Block.mapOperands fun _ => g) :=
  Table.get?_map _ _ _

@[simp] theorem keys_blocks_mapOperands : (f.mapOperands g).blocks.keys = f.blocks.keys :=
  Table.keys_map _ _

@[simp] theorem successors_mapOperands (b : BlockId) :
    (f.mapOperands g).successors b = f.successors b := by
  unfold successors
  rw [get?_blocks_mapOperands]
  cases f.blocks.get? b with
  | none => rfl
  | some block => exact block.successors_mapOperands g

@[simp] theorem flow_mapOperands : (f.mapOperands g).flow = f.flow := by
  unfold flow
  congr 1
  · exact keys_blocks_mapOperands g f
  · exact funext (successors_mapOperands g f)

@[simp] theorem entry?_mapOperands : Func.entry? (f.mapOperands g) = f.entry? := by
  unfold entry?
  rw [keys_blocks_mapOperands]

@[simp] theorem flowOrder_mapOperands : (f.mapOperands g).flowOrder = f.flowOrder := by
  unfold flowOrder
  rw [flow_mapOperands, entry?_mapOperands]

theorem begins_mapOperands_iff {b : BlockId} : (f.mapOperands g).Begins b ↔ f.Begins b := by
  rw [← entry?_eq_some_iff, ← entry?_eq_some_iff, entry?_mapOperands]

theorem leads_mapOperands : (f.mapOperands g).Leads = f.Leads := by
  funext b c
  rw [← edge_flow_iff, ← edge_flow_iff, flow_mapOperands]

end Func
end SSALint
