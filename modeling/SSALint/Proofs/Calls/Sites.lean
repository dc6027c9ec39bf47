/-
The list of calls against the places of the calls. The list runs through the blocks that control gets to, each once,
however often the search for them puts a block on its stack. So it names a function as often as there are places in
those blocks at which an instruction calls it (`calls_spec`).
-/
import SSALint.Proofs.Calls.Chain
import Mathlib.Data.Set.Card

namespace SSALint

namespace Func

variable {f : Func}

/-- The blocks that control gets to, in the order in which the search comes to them. -/
def reached (f : Func) : List BlockId :=
  match f.entry? with
  | some entry => f.flow.reachable entry
  | none => []

/-- The functions that a block calls by name, in the order of its instructions; one that is not there calls none. -/
def callsIn (f : Func) (b : BlockId) : List FuncId := ((f.blocks.get? b).map Block.calls).getD []

theorem calls_eq (f : Func) : f.calls = f.reached.flatMap f.callsIn := by
  unfold calls reached
  cases f.entry? with
  | none => rfl
  | some entry => rfl

theorem nodup_reached (f : Func) : f.reached.Nodup := by
  unfold reached
  cases f.entry? with
  | none => exact List.nodup_nil
  | some entry => exact Graph.nodup_reachable entry

theorem mem_reached_iff {b : BlockId} : b ∈ f.reached ↔ f.blocks.contains b = true ∧
    ∃ start, f.Begins start ∧ Relation.ReflTransGen f.Leads start b := by
  unfold reached
  simp only [← entry?_eq_some_iff]
  cases f.entry? with
  | none => simp
  | some entry => simp [mem_reachable_flow_iff, Table.contains_iff]

/-! ## Places of calls -/

/-- At a point of a block that control gets to stands a call of a function by name. -/
def CallsAt (f : Func) (g : FuncId) (p : Point) : Prop :=
  (∃ start, f.Begins start ∧ Relation.ReflTransGen f.Leads start p.block) ∧
    ∃ i ret args, f.instrAt? p = some i ∧ i.operation = .call ret (.symbol (.func g)) args

/-- The points of a block at which a function is called by name. -/
def callPoints (f : Func) (g : FuncId) (b : BlockId) : List Point :=
  match f.blocks.get? b with
  | some block => (block.instrs.zipIdx.filter fun e => e.1.directCallee? == some g).map fun e => ⟨b, e.2⟩
  | none => []

theorem mem_callPoints_iff {g : FuncId} {b : BlockId} {p : Point} : p ∈ f.callPoints g b ↔
    p.block = b ∧ ∃ i ret args, f.instrAt? p = some i ∧ i.operation = .call ret (.symbol (.func g)) args := by
  unfold callPoints
  cases hb : f.blocks.get? b with
  | none =>
    refine iff_of_false List.not_mem_nil ?_
    rintro ⟨rfl, i, -, -, hi, -⟩
    obtain ⟨block, hblock, -⟩ := Option.bind_eq_some_iff.1 hi
    rw [hb] at hblock
    cases hblock
  | some block =>
    simp only [List.mem_map, List.mem_filter, beq_iff_eq, Instr.directCallee?_eq_some_iff]
    constructor
    · rintro ⟨⟨i, k⟩, ⟨hi, ret, args, hop⟩, rfl⟩
      refine ⟨rfl, i, ret, args, ?_, hop⟩
      rw [instrAt?_of_get? hb, List.mk_mem_zipIdx_iff_getElem?.1 hi]
    · obtain ⟨c, k⟩ := p
      rintro ⟨rfl, i, ret, args, hi, hop⟩
      rw [instrAt?_of_get? hb] at hi
      exact ⟨(i, k), ⟨List.mk_mem_zipIdx_iff_getElem?.2 hi, ret, args, hop⟩, rfl⟩

theorem nodup_callPoints (f : Func) (g : FuncId) (b : BlockId) : (f.callPoints g b).Nodup := by
  unfold callPoints
  cases f.blocks.get? b with
  | none => exact List.nodup_nil
  | some block =>
    -- Places in a row of instructions are told apart by their numbers.
    have hplaces : block.instrs.zipIdx.Pairwise fun e e' => e.2 ≠ e'.2 := by
      rw [← List.pairwise_map (R := (· ≠ ·)), List.zipIdx_map_snd]
      exact List.nodup_range'
    refine List.pairwise_map.2 ((hplaces.filter _).imp fun {e e'} hne he => hne ?_)
    exact congrArg Point.passed he

theorem length_callPoints (f : Func) (g : FuncId) (b : BlockId) :
    (f.callPoints g b).length = (f.callsIn b).count g := by
  unfold callPoints callsIn
  cases f.blocks.get? b with
  | none => rfl
  | some block =>
    have hinstrs : block.instrs = block.instrs.zipIdx.map Prod.fst := by rw [List.zipIdx_map_fst]
    show _ = (block.instrs.filterMap Instr.directCallee?).count g
    rw [List.length_map, ← List.countP_eq_length_filter, List.count_filterMap]
    conv_rhs => rw [hinstrs, List.countP_map]
    rfl

theorem mem_reached_callPoints_iff {g : FuncId} {p : Point} :
    p ∈ f.reached.flatMap (f.callPoints g) ↔ f.CallsAt g p := by
  simp only [List.mem_flatMap, mem_callPoints_iff, mem_reached_iff, CallsAt]
  constructor
  · rintro ⟨b, ⟨-, hstart⟩, rfl, hcall⟩
    exact ⟨hstart, hcall⟩
  · rintro ⟨hstart, hcall⟩
    obtain ⟨i, ret, args, hi, hop⟩ := hcall
    obtain ⟨block, hblock, -⟩ := Option.bind_eq_some_iff.1 hi
    exact ⟨p.block, ⟨Table.contains_iff.2 ⟨block, hblock⟩, hstart⟩, rfl, i, ret, args, hi, hop⟩

theorem nodup_reached_callPoints (f : Func) (g : FuncId) : (f.reached.flatMap (f.callPoints g)).Nodup := by
  refine List.nodup_flatMap.2 ⟨fun b _ => f.nodup_callPoints g b, ?_⟩
  -- A point tells the block that it is in.
  refine f.nodup_reached.imp fun {b c} hne p hb hc => hne ?_
  rw [← (mem_callPoints_iff.1 hb).1, (mem_callPoints_iff.1 hc).1]

/-- The list of calls names a function as often as it is called at a point that control gets to. -/
theorem count_calls (f : Func) (g : FuncId) : f.calls.count g = {p | f.CallsAt g p}.ncard := by
  have hset : {p | f.CallsAt g p} = ((f.reached.flatMap (f.callPoints g)).toFinset : Set Point) := by
    ext p
    simp only [Set.mem_ofPred_eq, List.coe_toFinset, mem_reached_callPoints_iff]
  rw [hset, Set.ncard_coe_finset, List.toFinset_card_of_nodup (f.nodup_reached_callPoints g),
    List.length_flatMap, calls_eq, List.count_flatMap]
  congr 1
  exact List.map_congr_left fun b _ => (f.length_callPoints g b).symm

/-- The list of calls runs through the blocks that control gets to, each once and the first block first, and names
what each of them calls in the order of its instructions. So a function stands in it once for every point of those
blocks at which it is called. -/
theorem calls_spec (f : Func) :
    (∀ start, f.Begins start → ∃ order : List BlockId, order.head? = some start ∧ order.Nodup ∧
      (∀ b, b ∈ order ↔ f.blocks.contains b = true ∧ Relation.ReflTransGen f.Leads start b) ∧
      f.calls = order.flatMap f.callsIn) ∧
    (f.blocks.isEmpty = true → f.calls = []) ∧
    ∀ g, f.calls.count g = {p | f.CallsAt g p}.ncard := by
  refine ⟨fun start hstart => ?_, fun hempty => ?_, f.count_calls⟩
  · have hreached : f.reached = f.flow.reachable start := by
      unfold reached
      rw [entry?_eq_some_iff.2 hstart]
    refine ⟨f.flow.reachable start, Graph.head?_reachable (Table.mem_keys_iff_contains.2 hstart.1),
      Graph.nodup_reachable start, fun b => ?_, ?_⟩
    · rw [mem_reachable_flow_iff, Table.contains_iff]
    · rw [calls_eq, hreached]
  · have hkeys : f.blocks.keys = [] := by
      rw [← List.length_eq_zero_iff, ← Table.size_eq_length_keys]
      exact beq_iff_eq.1 hempty
    unfold calls entry?
    rw [hkeys]
    rfl

end Func
end SSALint
