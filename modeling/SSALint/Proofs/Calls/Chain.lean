/-
The functions that are kept against chains of calls. A function calls what a block in reach of its
first one calls by name; a chain leads from function to function by such calls. A function of the
module is dead exactly if no chain leads to it from the entry, or none of at most two calls where only
two in a row are followed (`findDeadFuncs?_spec`).
-/
import SSALint.Calls.Dead
import SSALint.Proofs.Flow.Func

namespace SSALint

/-! ## Calls of a function -/

/-- A block that control gets to holds a call of a function by name. -/
def Func.Calls (f : Func) (g : FuncId) : Prop :=
  ∃ start b block i ret args, f.Begins start ∧ Relation.ReflTransGen f.Leads start b ∧
    f.blocks.get? b = some block ∧ i ∈ block.instrs ∧
    i.operation = .call ret (.symbol (.func g)) args

theorem Instr.directCallee?_eq_some_iff {i : Instr} {g : FuncId} :
    i.directCallee? = some g ↔ ∃ ret args, i.operation = .call ret (.symbol (.func g)) args := by
  obtain ⟨result, operation⟩ := i
  cases operation with
  | call ret callee args =>
    cases callee with
    | symbol s => cases s <;> simp [Instr.directCallee?, Operand.func?]
    | _ => simp [Instr.directCallee?, Operand.func?]
  | _ => simp [Instr.directCallee?]

theorem Block.mem_calls_iff {b : Block} {g : FuncId} :
    g ∈ b.calls ↔ ∃ i ∈ b.instrs, ∃ ret args, i.operation = .call ret (.symbol (.func g)) args := by
  unfold Block.calls
  simp only [List.mem_filterMap, Instr.directCallee?_eq_some_iff]

theorem Func.mem_calls_iff {f : Func} {g : FuncId} : g ∈ f.calls ↔ f.Calls g := by
  unfold Func.calls
  constructor
  · intro h
    cases he : f.entry? with
    | none => rw [he] at h; cases h
    | some start =>
      rw [he] at h
      obtain ⟨b, hb, hg⟩ := List.mem_flatMap.1 h
      obtain ⟨⟨block, hblock⟩, hpath⟩ := Func.mem_reachable_flow_iff.1 hb
      rw [hblock] at hg
      obtain ⟨i, hi, ret, args, hop⟩ := Block.mem_calls_iff.1 hg
      exact ⟨start, b, block, i, ret, args, Func.entry?_eq_some_iff.1 he, hpath, hblock, hi, hop⟩
  · rintro ⟨start, b, block, i, ret, args, hstart, hpath, hblock, hi, hop⟩
    rw [Func.entry?_eq_some_iff.2 hstart]
    refine List.mem_flatMap.2 ⟨b, Func.mem_reachable_flow_iff.2 ⟨⟨block, hblock⟩, hpath⟩, ?_⟩
    rw [hblock]
    exact Block.mem_calls_iff.2 ⟨i, hi, ret, args, hop⟩

/-- How many calls in a row keep the functions that they lead to. -/
def Reachability.Follows : Reachability → Nat → Prop
  | .twoHop, k => k ≤ 2
  | .transitive, _ => True

namespace Module

/-! ## Chains -/

/-- A function of the module calls another one, which need not be there. -/
def Calls (m : Module) (f g : FuncId) : Prop := ∃ func, m.funcs.get? f = some func ∧ func.Calls g

/-- Calls lead from one function to another in so many steps. -/
inductive Chain (m : Module) (entry : FuncId) : Nat → FuncId → Prop where
  | here : Chain m entry 0 entry
  | call {k : Nat} {f g : FuncId} : Chain m entry k f → m.Calls f g → Chain m entry (k + 1) g

theorem exists_chain_iff {m : Module} {entry g : FuncId} :
    (∃ k, m.Chain entry k g) ↔ Relation.ReflTransGen m.Calls entry g := by
  constructor
  · rintro ⟨k, h⟩
    induction h with
    | here => exact .refl
    | call _ hc ih => exact ih.tail hc
  · intro h
    induction h with
    | refl => exact ⟨0, .here⟩
    | tail _ hc ih =>
      obtain ⟨k, hk⟩ := ih
      exact ⟨k + 1, hk.call hc⟩

theorem mem_callees_iff {m : Module} {f g : FuncId} : g ∈ m.callGraph.callees f ↔ m.Calls f g := by
  unfold CallGraph.callees callGraph Calls
  rw [Table.get?_map]
  cases m.funcs.get? f with
  | none => simp
  | some func => simp [Func.mem_calls_iff]

theorem edge_callGraph {m : Module} : m.callGraph.graph.Edge = m.Calls := by
  funext f g
  apply propext
  show f ∈ m.callGraph.keys ∧ g ∈ m.callGraph.callees f ↔ _
  rw [mem_callees_iff, and_iff_right_iff_imp]
  rintro ⟨func, hf, -⟩
  exact Table.mem_keys.2 ⟨func.calls, by unfold callGraph; rw [Table.get?_map, hf]; rfl⟩

/-! ## Functions to keep -/

/-- The function that a name stands for: of those that bear it the one of least id. -/
def Names (m : Module) (name : String) (entry : FuncId) : Prop :=
  (∃ func, m.funcs.get? entry = some func ∧ func.name = name) ∧
    ∀ k func, m.funcs.get? k = some func → func.name = name → entry ≤ k

theorem funcNamed?_eq_some_iff {m : Module} {name : String} {entry : FuncId} :
    m.funcNamed? name = some entry ↔ m.Names name entry := by
  unfold funcNamed? Names
  simp only [Option.map_eq_some_iff, Prod.exists, Table.find?_toList_eq_some_iff, beq_iff_eq]
  constructor
  · rintro ⟨k, func, ⟨hget, hleast⟩, rfl⟩
    exact ⟨⟨func, hget⟩, hleast⟩
  · rintro ⟨⟨func, hget⟩, hleast⟩
    exact ⟨entry, func, ⟨hget, hleast⟩, rfl⟩

/-- One may follow no call, one, or two in a row. -/
theorem mem_live_twoHop_iff {m : Module} {entry g : FuncId} :
    g ∈ m.callGraph.live entry .twoHop ↔ ∃ k, k ≤ 2 ∧ m.Chain entry k g := by
  show g ∈ entry :: m.callGraph.callees entry ++ (m.callGraph.callees entry).flatMap _ ↔ _
  rw [List.mem_append, List.mem_cons, List.mem_flatMap]
  simp only [mem_callees_iff]
  constructor
  · rintro ((rfl | h) | ⟨f, hf, hg⟩)
    · exact ⟨0, by omega, .here⟩
    · exact ⟨1, by omega, .call .here h⟩
    · exact ⟨2, by omega, .call (.call .here hf) hg⟩
  · rintro ⟨k, hk, h⟩
    cases h with
    | here => exact .inl (.inl rfl)
    | call h hg =>
      cases h with
      | here => exact .inl (.inr hg)
      | call h hf =>
        cases h with
        | here => exact .inr ⟨_, hf, hg⟩
        | call => omega

/-- Calls of functions that are not there keep nothing, so only functions of the module count. -/
theorem mem_live_transitive_iff {m : Module} {entry g : FuncId} (hg : m.funcs.contains g = true) :
    g ∈ m.callGraph.live entry .transitive ↔ ∃ k, m.Chain entry k g := by
  have hnode : g ∈ m.callGraph.graph.nodes := by
    show g ∈ m.callGraph.keys
    unfold callGraph
    rw [Table.keys_map, Table.mem_keys_iff_contains]
    exact hg
  show g ∈ entry :: m.callGraph.graph.reachable entry ↔ _
  rw [List.mem_cons, Graph.mem_reachable_iff, edge_callGraph, exists_chain_iff]
  constructor
  · rintro (rfl | ⟨-, h⟩)
    · exact .refl
    · exact h
  · intro h
    exact .inr ⟨hnode, h⟩

theorem mem_live_iff {m : Module} {entry g : FuncId} {mode : Reachability}
    (hg : m.funcs.contains g = true) :
    g ∈ m.callGraph.live entry mode ↔ ∃ k, mode.Follows k ∧ m.Chain entry k g := by
  cases mode with
  | twoHop => exact mem_live_twoHop_iff
  | transitive =>
    rw [mem_live_transitive_iff hg]
    simp only [Reachability.Follows, true_and]

theorem findDeadFuncs?_eq_some_iff {m : Module} {config : Config} {d : DeadFuncs} :
    m.findDeadFuncs? config = some d ↔ m.Names config.entry d.entry ∧ d.calls = m.callGraph ∧
      d.dead = m.deadFuncs m.callGraph d.entry config.reachability := by
  unfold findDeadFuncs?
  rw [Option.map_eq_some_iff]
  simp only [funcNamed?_eq_some_iff]
  constructor
  · rintro ⟨entry, hentry, rfl⟩
    exact ⟨hentry, rfl, rfl⟩
  · rintro ⟨hentry, hcalls, hdead⟩
    exact ⟨d.entry, hentry, by rw [← hdead, ← hcalls]⟩

theorem findDeadFuncs?_of_names {m : Module} {config : Config} {entry : FuncId}
    (h : m.Names config.entry entry) : m.findDeadFuncs? config =
      some ⟨entry, m.callGraph, m.deadFuncs m.callGraph entry config.reachability⟩ :=
  findDeadFuncs?_eq_some_iff.2 ⟨h, rfl, rfl⟩

/-- The functions to be removed, in ascending order, are those of the module that no chain of calls
from the entry leads to. -/
theorem findDeadFuncs?_spec {m : Module} {config : Config} {entry : FuncId}
    (h : m.Names config.entry entry) :
    ∃ d, m.findDeadFuncs? config = some d ∧ d.entry = entry ∧ d.dead.Pairwise (· < ·) ∧
      ∀ g, g ∈ d.dead ↔ m.funcs.contains g = true ∧
        ¬ ∃ k, config.reachability.Follows k ∧ m.Chain entry k g := by
  refine ⟨⟨entry, m.callGraph, m.deadFuncs m.callGraph entry config.reachability⟩,
    findDeadFuncs?_of_names h, rfl, ?_, fun g => ?_⟩
  · exact m.funcs.pairwise_keys.filter _
  · show g ∈ m.funcs.keys.filter _ ↔ _
    rw [List.mem_filter, Table.mem_keys_iff_contains, Bool.not_eq_true', List.contains_eq_mem,
      decide_eq_false_iff_not]
    exact and_congr_right fun hg => not_congr (mem_live_iff hg)

/-- A function of a single block that calls others by name. -/
def caller (id : FuncId) (name : String) (callees : List FuncId) : Func where
  id := id
  name := name
  ret := .void
  params := []
  variadic := false
  locals := .empty
  blocks := .ofValues
    [⟨0, none, callees.map fun g => ⟨none, .call .void (.symbol (.func g)) []⟩, .ret none⟩]

/-- Four functions that call each other around, and two that only call each other. A global refers to
one of those. -/
def twoRings : Module where
  globals := .ofValues [⟨0, "table", .ptr, some (.symbol (.func 4)), false⟩]
  funcs := .ofValues
    [caller 0 "main" [1], caller 1 "a" [2], caller 2 "b" [3], caller 3 "c" [0], caller 4 "d" [5],
      caller 5 "e" [4]]

theorem findDeadFuncs?_twoRings : twoRings.Names "main" 0 ∧
    ∃ d, twoRings.findDeadFuncs? { reachability := .transitive } = some d ∧ d.entry = 0 ∧
      d.dead.Pairwise (· < ·) ∧ ∀ g, g ∈ d.dead ↔ twoRings.funcs.contains g = true ∧
        ¬ ∃ k, Reachability.transitive.Follows k ∧ twoRings.Chain 0 k g := by
  have h : twoRings.Names "main" 0 := funcNamed?_eq_some_iff.1 (by decide)
  exact ⟨h, findDeadFuncs?_spec h⟩

example : (twoRings.findDeadFuncs? {}).map (·.dead) = some [3, 4, 5] := by cbv

end Module
end SSALint
