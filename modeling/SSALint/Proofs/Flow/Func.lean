/-
The control flow graph of a function in terms of its blocks: where it begins and which block leads to
which. Points stand between the instructions of its blocks.
-/
import SSALint.Flow.Func
import SSALint.Proofs.Flow.Graph
import SSALint.Proofs.Table

namespace SSALint

/-- A place between the instructions of a block: so many of them lie behind. -/
structure Point where
  block : BlockId
  passed : Nat
deriving DecidableEq, Repr

/-- The point behind the next instruction. -/
def Point.next (p : Point) : Point := { p with passed := p.passed + 1 }

namespace Func

/-- The instruction that stands at a point. -/
def instrAt? (f : Func) (p : Point) : Option Instr :=
  (f.blocks.get? p.block).bind fun block => block.instrs[p.passed]?

theorem instrAt?_of_get? {f : Func} {b : BlockId} {block : Block} (hb : f.blocks.get? b = some block)
    (k : Nat) : f.instrAt? ⟨b, k⟩ = block.instrs[k]? := by
  unfold instrAt?
  rw [hb]
  rfl

/-! ## Edges -/

/-- The stored block of least id, where control enters. -/
def Begins (f : Func) (b : BlockId) : Prop :=
  f.blocks.contains b = true ∧ ∀ c, f.blocks.contains c = true → b ≤ c

/-- The terminator of a block names another one, which need not be there. -/
def Leads (f : Func) (b c : BlockId) : Prop :=
  ∃ block, f.blocks.get? b = some block ∧ c ∈ block.successors

theorem entry?_eq_some_iff {f : Func} {b : BlockId} : f.entry? = some b ↔ f.Begins b := by
  unfold entry? Begins
  simp only [← Table.mem_keys_iff_contains]
  have hp := f.blocks.pairwise_keys
  cases hkeys : f.blocks.keys with
  | nil => simp
  | cons k ks =>
    rw [hkeys] at hp
    obtain ⟨hk, -⟩ := List.pairwise_cons.1 hp
    rw [List.head?_cons, Option.some.injEq]
    constructor
    · rintro rfl
      exact ⟨List.mem_cons_self, List.forall_mem_cons.2 ⟨Nat.le_refl k, fun c hc => Nat.le_of_lt (hk c hc)⟩⟩
    · rintro ⟨hb, hle⟩
      have hkb : k ≤ b := by
        rcases List.mem_cons.1 hb with rfl | hb
        · exact Nat.le_refl b
        · exact Nat.le_of_lt (hk b hb)
      exact Nat.le_antisymm hkb (hle k List.mem_cons_self)

theorem edge_flow_iff {f : Func} {b c : BlockId} : f.flow.Edge b c ↔ f.Leads b c := by
  show b ∈ f.blocks.keys ∧ c ∈ f.successors b ↔ _
  unfold successors Leads
  rw [Table.mem_keys]
  cases f.blocks.get? b with
  | none => simp
  | some block => simp

theorem edge_flow {f : Func} : f.flow.Edge = f.Leads := by
  funext b c
  exact propext edge_flow_iff

theorem mem_reachable_flow_iff {f : Func} {start b : BlockId} : b ∈ f.flow.reachable start ↔
    (∃ block, f.blocks.get? b = some block) ∧ Relation.ReflTransGen f.Leads start b := by
  rw [Graph.mem_reachable_iff, edge_flow]
  exact and_congr_left' Table.mem_keys

end Func
end SSALint
