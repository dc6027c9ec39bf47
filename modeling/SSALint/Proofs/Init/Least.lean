/-
The solution is the least one, and the loop that finds it is short. It takes no more sweeps than there are blocks
and slots to climb (`rounds_solveWithin_le`, `length_madeSlots`), and no solution says less anywhere (`solve_le`).
-/
import SSALint.Proofs.Init.Solver
import Mathlib.Data.Finset.Card

namespace SSALint.Func

variable {f : Func}

/-! ## The number of sweeps -/

theorem rounds_solveWithin_le (f : Func) (bound : Nat) (known : Table Slots) :
    (f.solveWithin bound known).rounds ≤ bound := by
  induction bound generalizing known with
  | zero => exact Nat.le_refl 0
  | succ bound ih =>
    unfold solveWithin
    simp only
    split
    · exact Nat.le_add_left 1 bound
    · exact Nat.succ_le_succ (ih _)

theorem nodup_eraseDups {α : Type} [DecidableEq α] : (l : List α) → l.eraseDups.Nodup
  | [] => List.nodup_nil
  | a :: l => by
    rw [List.eraseDups_cons, List.nodup_cons]
    refine ⟨fun ha => ?_, nodup_eraseDups _⟩
    have := (List.mem_filter.1 (List.mem_eraseDups.1 ha)).2
    rw [beq_self_eq_true] at this
    cases this
termination_by l => l.length
decreasing_by exact Nat.lt_succ_of_le (List.length_filter_le _ l)

theorem length_madeSlots (f : Func) :
    f.madeSlots.length = (f.instrs.filterMap Instr.slot?).toFinset.card := by
  have hset : f.madeSlots.toFinset = (f.instrs.filterMap Instr.slot?).toFinset := by
    ext x
    unfold madeSlots
    rw [List.mem_toFinset, List.mem_toFinset, List.mem_eraseDups]
  rw [← hset]
  exact (List.toFinset_card_of_nodup (nodup_eraseDups _)).symm

/-! ## Solutions -/

/-- What is known at the end of every block is what its instructions make of what is known at its head. -/
def Solves (f : Func) (known : Table Slots) : Prop :=
  ∀ b block, f.blocks.get? b = some block →
    known.get? b = some ((f.slotsAtHead known b).transfer f block.instrs)

theorem settled_iff_solves {known : Table Slots} : f.Settled known ↔ f.Solves known := by
  unfold Settled Solves
  simp only [slotsAtEnd?_eq_some_iff]
  constructor
  · exact fun h b block hb => h b _ ⟨block, hb, rfl⟩
  · rintro h b _ ⟨block, hb, rfl⟩
    exact h b block hb

/-- A visit stays below every solution that the table was below. -/
theorem visit_knownLe {known solution : Table Slots} (hsolution : f.Settled solution)
    (h : KnownLe known solution) (b : BlockId) : KnownLe (f.visit known b) solution := by
  cases hb : f.slotsAtEnd? known b with
  | none =>
    rw [visit_of_none hb]
    exact h
  | some l =>
    intro c m hm
    rw [get?_visit hb] at hm
    split at hm
    · rename_i hc
      cases hm
      subst hc
      obtain ⟨l', hl', hle⟩ := slotsAtEnd?_mono h hb
      exact ⟨l', hsolution c l' hl', hle⟩
    · exact h c m hm

theorem solve_le {solution : Table Slots} (h : f.Settled solution) : KnownLe f.solve.known solution := by
  refine solve_invariant (P := (KnownLe · solution)) ?_ fun _ b hle => visit_knownLe h hle b
  intro b l hl
  rw [Table.get?_empty] at hl
  cases hl

/-- Solving ends, after no more sweeps than one and, for every block, one and two for each slot; it ends in the
least solution, which recording leaves as it is. -/
theorem solve_spec (f : Func) :
    f.Sweeps .empty f.solve.rounds f.solve.known ∧
    f.solve.rounds ≤ 1 + f.blocks.size * (1 + 2 * (f.instrs.filterMap Instr.slot?).toFinset.card) ∧
    f.Solves f.solve.known ∧
    (∀ solution, f.Solves solution → KnownLe f.solve.known solution) ∧
    (f.initAnalysis .fixpoint).recording.changes = [] ∧
    (f.initAnalysis .fixpoint).known = f.solve.known := by
  have hrounds : f.solve.rounds ≤ f.roundBound := f.rounds_solveWithin_le _ _
  unfold roundBound at hrounds
  rw [length_madeSlots] at hrounds
  have hrecording : (f.initAnalysis .fixpoint).recording =
      ⟨f.solve.known, [], f.blocks.keys.flatMap (f.badReadsIn f.solve.known)⟩ :=
    sweep_of_settled solve_settled _
  refine ⟨f.sweeps_solve, hrounds, settled_iff_solves.1 solve_settled, fun solution h => ?_, ?_, ?_⟩
  · exact solve_le (settled_iff_solves.2 h)
  · rw [hrecording]
  · unfold InitAnalysis.known
    rw [hrecording]

end SSALint.Func
