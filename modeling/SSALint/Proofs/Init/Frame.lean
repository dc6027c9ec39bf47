/-
What the check of a function is blind to. Naming slots changes names of local values and nothing else, and
which names it gives does not hang on operands (`named_mapOperands`). The analysis sees of an
operand whether it assigns and which slot it is, so it says the same of a function whose references to dead
functions were cut (`initAnalysis_cut`).
-/
import SSALint.Init.Check
import SSALint.Proofs.Calls.Prune
import SSALint.Proofs.Flow.Frame

namespace SSALint

theorem cut_symbol (dead : List FuncId) (s : Symbol) :
    cut dead (.symbol s) = .symbol s ∨ cut dead (.symbol s) = undefinedFunc := by
  cases s with
  | global g => exact .inl rfl
  | func g =>
    by_cases hg : g ∈ dead
    · exact .inr (if_pos hg)
    · exact .inl (if_neg hg)

theorem Instr.slot?_substInstr (g : Value → Value) (i : Instr) : (Block.substInstr g i).slot? = i.slot? := by
  obtain ⟨result, operation⟩ := i
  cases operation <;> rfl

namespace Func

theorem instrs_mapOperands (g : Value → Value) (f : Func) :
    (f.mapOperands g).instrs = f.instrs.map (Block.substInstr g) := by
  unfold instrs mapOperands
  simp only [Table.values_map, List.flatMap_map, List.map_flatMap, Block.mapOperands_const]

theorem slots_mapOperands (g : Value → Value) (f : Func) :
    (f.mapOperands g).instrs.filterMap Instr.slot? = f.instrs.filterMap Instr.slot? := by
  rw [instrs_mapOperands, List.filterMap_map]
  exact List.filterMap_congr fun i _ => Instr.slot?_substInstr g i

/-! ## Naming slots -/

/-- Naming slots leaves all of a function but its local values. -/
theorem nameSlots_eq (f : Func) (k : Nat) (xs : List LocalId) :
    f.nameSlots k xs = { f with locals := (f.nameSlots k xs).locals } := by
  induction xs generalizing f k with
  | nil => rfl
  | cons x xs ih =>
    rw [nameSlots, ih]
    rfl

theorem nameSlots_mapOperands (g : Value → Value) (f : Func) (k : Nat) (xs : List LocalId) :
    (f.mapOperands g).nameSlots k xs = (f.nameSlots k xs).mapOperands g := by
  induction xs generalizing f k with
  | nil => rfl
  | cons x xs ih => exact ih (f.setLocalName x (slotName (f.freeFrom k))) (f.freeFrom k + 1)

/-- A function with its slots named. -/
def named (f : Func) : Func := f.nameAnonymousSlots.1

theorem named_eq (f : Func) : f.named = { f with locals := f.named.locals } := f.nameSlots_eq 0 _

theorem named_mapOperands (g : Value → Value) (f : Func) : (f.mapOperands g).named = f.named.mapOperands g := by
  have hslots : (f.mapOperands g).anonymousSlots = f.anonymousSlots := by
    unfold anonymousSlots
    rw [slots_mapOperands]
    rfl
  unfold named nameAnonymousSlots
  rw [hslots]
  exact nameSlots_mapOperands g f 0 f.anonymousSlots

theorem calls_named (f : Func) : f.named.calls = f.calls := by
  rw [named_eq]
  rfl

/-! ## Analysing a cut function -/

variable (dead : List FuncId) (f : Func)

/-- An undefined pointer is a constant as the reference that it takes the place of. -/
theorem assigns_cut (v : Value) : (f.mapOperands (cut dead)).assigns (cut dead v) = f.assigns v := by
  cases v with
  | symbol s => rcases cut_symbol dead s with h | h <;> rw [h] <;> rfl
  | _ => rfl

theorem step_cut (l : Slots) (i : Instr) :
    l.step (f.mapOperands (cut dead)) (Block.substInstr (cut dead) i) = l.step f i := by
  obtain ⟨result, operation⟩ := i
  cases operation with
  | store v ptr =>
    cases ptr with
    | var x =>
      show (if (f.mapOperands (cut dead)).assigns (cut dead v) then l.update x .assigned else l) = _
      rw [assigns_cut]
      rfl
    | symbol s =>
      rcases cut_symbol dead s with h | h <;>
        simp only [Slots.step, Block.substInstr, Operation.mapOperands, h, undefinedFunc]
    | const c => rfl
  | _ => rfl

theorem transfer_cut (l : Slots) (is : List Instr) :
    l.transfer (f.mapOperands (cut dead)) (is.map (Block.substInstr (cut dead))) = l.transfer f is := by
  unfold Slots.transfer
  rw [List.foldl_map]
  congr 1
  funext l i
  exact step_cut dead f l i

theorem badRead?_cut (l : Slots) (i : Instr) : l.badRead? (Block.substInstr (cut dead) i) = l.badRead? i := by
  obtain ⟨result, operation⟩ := i
  cases operation with
  | load t ptr =>
    cases ptr with
    | symbol s =>
      rcases cut_symbol dead s with h | h <;>
        simp only [Slots.badRead?, Block.substInstr, Operation.mapOperands, h, undefinedFunc]
    | _ => rfl
  | _ => rfl

theorem badReads_cut (l : Slots) (is : List Instr) :
    l.badReads (f.mapOperands (cut dead)) (is.map (Block.substInstr (cut dead))) = l.badReads f is := by
  induction is generalizing l with
  | nil => rfl
  | cons i is ih => simp only [List.map_cons, Slots.badReads, badRead?_cut, step_cut, ih]

theorem slotsAtHead_cut (known : Table Slots) (b : BlockId) :
    (f.mapOperands (cut dead)).slotsAtHead known b = f.slotsAtHead known b := by
  unfold slotsAtHead
  rw [flow_mapOperands]

theorem slotsAtEnd?_cut (known : Table Slots) (b : BlockId) :
    (f.mapOperands (cut dead)).slotsAtEnd? known b = f.slotsAtEnd? known b := by
  unfold slotsAtEnd?
  rw [get?_blocks_mapOperands, Option.map_map, slotsAtHead_cut]
  congr 1
  funext block
  rw [Function.comp_apply, Block.mapOperands_const]
  exact transfer_cut dead f _ block.instrs

theorem badReadsIn_cut (known : Table Slots) (b : BlockId) :
    (f.mapOperands (cut dead)).badReadsIn known b = f.badReadsIn known b := by
  unfold badReadsIn
  rw [get?_blocks_mapOperands]
  cases f.blocks.get? b with
  | none => rfl
  | some block =>
    simp only [Option.map_some, Block.mapOperands_const, badReads_cut, slotsAtHead_cut]

theorem sweep_cut (known : Table Slots) (bs : List BlockId) :
    (f.mapOperands (cut dead)).sweep known bs = f.sweep known bs := by
  induction bs generalizing known with
  | nil => rfl
  | cons b bs ih => simp only [sweep, badReadsIn_cut, slotsAtEnd?_cut, ih]

theorem solvingOrder_cut : (f.mapOperands (cut dead)).solvingOrder = f.solvingOrder := by
  unfold solvingOrder
  rw [flowOrder_mapOperands, keys_blocks_mapOperands]

theorem roundBound_cut : (f.mapOperands (cut dead)).roundBound = f.roundBound := by
  unfold roundBound madeSlots
  rw [slots_mapOperands, Table.size_eq_length_keys, Table.size_eq_length_keys, keys_blocks_mapOperands]

theorem solveWithin_cut (bound : Nat) (known : Table Slots) :
    (f.mapOperands (cut dead)).solveWithin bound known = f.solveWithin bound known := by
  induction bound generalizing known with
  | zero => rfl
  | succ bound ih => simp only [solveWithin, solvingOrder_cut, sweep_cut, ih]

/-- The analysis does not see whether references to functions were cut. -/
theorem initAnalysis_cut (mode : Traversal) :
    (f.mapOperands (cut dead)).initAnalysis mode = f.initAnalysis mode := by
  have hsolve : (f.mapOperands (cut dead)).solve = f.solve := by
    unfold solve
    rw [roundBound_cut, solveWithin_cut]
  cases mode with
  | singlePass => simp only [initAnalysis, sweep_cut, keys_blocks_mapOperands]
  | fixpoint => simp only [initAnalysis, hsolve, sweep_cut, keys_blocks_mapOperands]

/-- A cut function is reported on as before. -/
theorem report_check_cut (mode : Traversal) :
    ((f.mapOperands (cut dead)).check mode).report = (f.check mode).report := by
  have hchecked : ∀ g : Func, (g.check mode).report =
      ⟨g.named.id, g.named.name, (g.named.initAnalysis mode).pendingNames g.named⟩ := fun _ => rfl
  rw [hchecked, hchecked, named_mapOperands, initAnalysis_cut]
  rfl

end Func
end SSALint
