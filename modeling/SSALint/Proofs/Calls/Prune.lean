/-
Removal of dead functions. They are dropped one after the other while those that follow still refer to
each other; in the end the module is what it was without them, references to them being undefined
pointers (`Without`). No function is still referenced when it goes, and a module that keeps the rules
keeps them (`eliminate_spec`).
-/
import SSALint.Analyzer
import SSALint.Proofs.Calls.Chain
import SSALint.Proofs.IR.Operands
import SSALint.Proofs.IR.Verify

namespace SSALint

/-- A value where the given functions are gone. -/
def cut (dead : List FuncId) : Value → Value
  | .symbol (.func f) => if f ∈ dead then undefinedFunc else .symbol (.func f)
  | v => v

/-- Another module is what this one becomes without the given functions: the others stay under their
keys, and operands are cut. -/
structure Module.Without (m : Module) (dead : List FuncId) (n : Module) : Prop where
  func : ∀ k, n.funcs.get? k =
    if k ∈ dead then none else (m.funcs.get? k).map (Func.mapOperands (cut dead))
  global : ∀ k, n.globals.get? k =
    (m.globals.get? k).map fun g => { g with init := g.init.map (cut dead) }
  nextFunc : n.funcs.next = m.funcs.next
  nextGlobal : n.globals.next = m.globals.next

/-! ## Cut values -/

theorem cut_nil : cut [] = fun v => v := by
  funext v
  cases v with
  | symbol s => cases s <;> simp [cut]
  | _ => rfl

theorem cut_cut (xs ys : List FuncId) (v : Value) : cut ys (cut xs v) = cut (xs ++ ys) v := by
  cases v with
  | symbol s =>
    cases s with
    | global g => rfl
    | func f =>
      by_cases hx : f ∈ xs
      · simp [cut, hx, undefinedFunc]
      · simp [cut, hx]
  | _ => rfl

theorem func?_cut {dead : List FuncId} {v : Value} {f : FuncId} :
    (cut dead v).func? = some f ↔ v.func? = some f ∧ f ∉ dead := by
  cases v with
  | symbol s =>
    cases s with
    | global g => simp [cut, Operand.func?]
    | func g =>
      by_cases hg : g ∈ dead
      · simp only [cut, hg, if_true, undefinedFunc, Operand.func?, Option.some.injEq]
        constructor
        · intro h; cases h
        · rintro ⟨rfl, h⟩; exact absurd hg h
      · simp only [cut, hg, if_false, Operand.func?, Option.some.injEq]
        constructor
        · rintro rfl; exact ⟨rfl, hg⟩
        · rintro ⟨rfl, -⟩; rfl
  | _ => simp [cut, Operand.func?]

namespace Module

/-! ## One function -/

theorem replaceUses_eq_mapOperands (m : Module) (f : FuncId) :
    m.replaceUses f undefinedFunc = m.mapOperands (cut [f]) := by
  unfold replaceUses
  congr 1
  funext v
  cases v with
  | symbol s => cases s <;> simp [cut, Operand.func?]
  | _ => simp [cut, Operand.func?]

/-- Where a function is cut nothing refers to it. -/
theorem useCount_mapOperands_cut (m : Module) {dead : List FuncId} {f : FuncId} (hf : f ∈ dead) :
    (m.mapOperands (cut dead)).useCount f = 0 := by
  unfold useCount
  rw [operands_mapOperands, List.countP_eq_zero]
  intro v hv
  obtain ⟨w, -, rfl⟩ := List.mem_map.1 hv
  rw [beq_iff_eq, func?_cut]
  exact fun h => h.2 hf

/-- Dropping a function succeeds, whatever refers to it. -/
theorem dropFunc_spec (m : Module) (f : FuncId) :
    ∃ n removed, m.dropFunc f = .ok (n, removed) ∧ m.Without [f] n ∧
      removed.map (·.name) = ((m.funcs.get? f).map (·.name)).toList := by
  have hget : (m.mapOperands (cut [f])).funcs.get? f = (m.funcs.get? f).map (Func.mapOperands (cut [f])) :=
    Table.get?_map _ _ _
  refine ⟨{ m.mapOperands (cut [f]) with funcs := (m.mapOperands (cut [f])).funcs.erase f },
    ((m.funcs.get? f).map fun g => ⟨g.name, m.useCount f⟩).toList, ?_, ⟨fun k => ?_, fun k => ?_, ?_, ?_⟩, ?_⟩
  · unfold dropFunc removeFunc
    rw [replaceUses_eq_mapOperands, useCount_mapOperands_cut m (List.mem_singleton.2 rfl), if_pos rfl, hget]
    cases m.funcs.get? f <;> rfl
  · show ((m.funcs.map _).erase f).get? k = _
    rw [Table.get?_erase, Table.get?_map]
    simp only [List.mem_singleton]
  · exact Table.get?_map _ _ _
  · exact (Table.next_erase _ _).trans (Table.next_map _ _)
  · exact Table.next_map _ _
  · cases m.funcs.get? f <;> rfl

/-! ## One function after the other -/

theorem Without.refl (m : Module) : m.Without [] m where
  func k := by
    rw [if_neg (List.not_mem_nil), cut_nil]
    cases m.funcs.get? k with
    | none => rfl
    | some f => rw [Option.map_some, Func.mapOperands_self]
  global k := by
    rw [cut_nil]
    cases m.globals.get? k <;> simp
  nextFunc := rfl
  nextGlobal := rfl

theorem Without.trans {m n o : Module} {xs ys : List FuncId} (h : m.Without xs n) (h' : n.Without ys o) :
    m.Without (xs ++ ys) o where
  func k := by
    rw [h'.func, h.func]
    by_cases hx : k ∈ xs
    · simp [hx]
    · by_cases hy : k ∈ ys
      · simp [hy]
      · simp only [hx, hy, List.mem_append, or_false, if_false, Option.map_map]
        congr 1
        funext f
        rw [Function.comp_apply, Func.mapOperands_mapOperands]
        congr 1
        exact funext (cut_cut xs ys)
  global k := by
    rw [h'.global, h.global, Option.map_map]
    congr 1
    funext g
    simp only [Function.comp_apply, Option.map_map]
    congr 2
    exact funext (cut_cut xs ys)
  nextFunc := h'.nextFunc.trans h.nextFunc
  nextGlobal := h'.nextGlobal.trans h.nextGlobal

/-- What stays keeps its name. -/
theorem Without.name_eq {m n : Module} {dead : List FuncId} (h : m.Without dead n) {k : FuncId}
    (hk : k ∉ dead) : (n.funcs.get? k).map (·.name) = (m.funcs.get? k).map (·.name) := by
  rw [h.func, if_neg hk, Option.map_map]
  rfl

/-- Dropping functions succeeds also if they refer to each other. -/
theorem dropFuncs_spec (m : Module) (dead : List FuncId) (hd : dead.Nodup) :
    ∃ n removed, m.dropFuncs dead = .ok (n, removed) ∧ m.Without dead n ∧
      removed.map (·.name) = dead.filterMap fun f => (m.funcs.get? f).map (·.name) := by
  induction dead generalizing m with
  | nil => exact ⟨m, [], rfl, .refl m, rfl⟩
  | cons f fs ih =>
    obtain ⟨hf, hfs⟩ := List.nodup_cons.1 hd
    obtain ⟨n, removed, hdrop, hn, hname⟩ := m.dropFunc_spec f
    -- The others are dropped from what the first drop leaves, where they may refer to it no more.
    obtain ⟨o, others, hdrops, ho, hnames⟩ := ih n hfs
    refine ⟨o, removed ++ others, ?_, hn.trans ho, ?_⟩
    · rw [dropFuncs, hdrop]
      show n.dropFuncs fs >>= _ = _
      rw [hdrops]
      rfl
    · have hrest : fs.filterMap (fun g => (n.funcs.get? g).map (·.name)) =
          fs.filterMap fun g => (m.funcs.get? g).map (·.name) := by
        refine List.filterMap_congr fun g hg => hn.name_eq ?_
        rw [List.mem_singleton]
        rintro rfl
        exact hf hg
      rw [List.map_append, hname, hnames, hrest, List.filterMap_cons]
      cases m.funcs.get? f <;> rfl

/-! ## What stays -/

theorem Without.get?_funcs_eq_some_iff {m n : Module} {dead : List FuncId} (h : m.Without dead n) {k : FuncId}
    {f : Func} : n.funcs.get? k = some f ↔
      k ∉ dead ∧ ∃ g, m.funcs.get? k = some g ∧ g.mapOperands (cut dead) = f := by
  rw [h.func]
  by_cases hk : k ∈ dead
  · simp [hk]
  · simp [hk]

theorem Without.get?_globals_eq_some_iff {m n : Module} {dead : List FuncId} (h : m.Without dead n) {k : GlobalId}
    {v : Global} : n.globals.get? k = some v ↔
      ∃ w, m.globals.get? k = some w ∧ { w with init := w.init.map (cut dead) } = v := by
  rw [h.global, Option.map_eq_some_iff]

theorem Without.contains_func {m n : Module} {dead : List FuncId} (h : m.Without dead n) {k : FuncId} :
    n.funcs.contains k = true ↔ m.funcs.contains k = true ∧ k ∉ dead := by
  unfold Table.contains
  rw [h.func]
  by_cases hk : k ∈ dead
  · simp [hk]
  · simp [hk]

theorem Without.contains_global {m n : Module} {dead : List FuncId} (h : m.Without dead n) {k : GlobalId} :
    n.globals.contains k = m.globals.contains k := by
  unfold Table.contains
  rw [h.global, Option.isSome_map]

theorem Without.resolves_cut {m n : Module} {dead : List FuncId} (h : m.Without dead n) {f : Option Func}
    {v : Value} (hv : m.Resolves f v) :
    n.Resolves (f.map (Func.mapOperands (cut dead))) (cut dead v) := by
  cases v with
  | const c => exact hv
  | var x =>
    obtain ⟨g, rfl, hx⟩ := hv
    exact ⟨_, rfl, hx⟩
  | symbol s =>
    cases s with
    | global g =>
      show n.globals.contains g = true
      rw [h.contains_global]
      exact hv
    | func g =>
      by_cases hg : g ∈ dead
      · rw [show cut dead (.symbol (.func g)) = undefinedFunc from if_pos hg]
        exact trivial
      · rw [show cut dead (.symbol (.func g)) = .symbol (.func g) from if_neg hg]
        exact h.contains_func.2 ⟨hv, hg⟩

theorem Without.valid {m n : Module} {dead : List FuncId} (h : m.Without dead n) (hm : m.Valid) :
    n.Valid where
  inits g hg v hv := by
    obtain ⟨k, hk⟩ := Table.mem_values.1 hg
    obtain ⟨w, hw, rfl⟩ := h.get?_globals_eq_some_iff.1 hk
    obtain ⟨u, hu, rfl⟩ := Option.map_eq_some_iff.1 hv
    exact h.resolves_cut (hm.inits w (Table.mem_values.2 ⟨k, hw⟩) u hu)
  funcs f hf := by
    obtain ⟨k, hk⟩ := Table.mem_values.1 hf
    obtain ⟨-, g, hg, rfl⟩ := h.get?_funcs_eq_some_iff.1 hk
    exact (hm.funcs g (Table.mem_values.2 ⟨k, hg⟩)).mapOperands fun v => h.resolves_cut

theorem Without.not_referenced {m n : Module} {dead : List FuncId} (h : m.Without dead n) {v : Value}
    (hv : v ∈ n.operands) {f : FuncId} (hf : f ∈ dead) : v.func? ≠ some f := by
  -- Every operand that is left was cut, and no cut operand refers to a dead function.
  have cut_of_mem : ∃ w, v = cut dead w := by
    rcases mem_operands_iff.1 hv with ⟨k, g, hk, hg⟩ | ⟨k, g, hk, hg⟩
    · obtain ⟨w, -, rfl⟩ := h.get?_globals_eq_some_iff.1 hk
      obtain ⟨u, -, rfl⟩ := Option.map_eq_some_iff.1 hg
      exact ⟨u, rfl⟩
    · obtain ⟨-, w, -, rfl⟩ := h.get?_funcs_eq_some_iff.1 hk
      rw [Func.operands_mapOperands] at hg
      obtain ⟨u, -, rfl⟩ := List.mem_map.1 hg
      exact ⟨u, rfl⟩
  obtain ⟨w, rfl⟩ := cut_of_mem
  rw [ne_eq, func?_cut]
  exact fun hw => hw.2 hf

/-- The functions that stay are listed as before. -/
theorem Without.toList_funcs {m n : Module} {dead : List FuncId} (h : m.Without dead n) :
    n.funcs.toList =
      (m.funcs.toList.filter fun a => a.1 ∉ dead).map fun a => (a.1, a.2.mapOperands (cut dead)) := by
  have hfuncs : n.funcs = (m.funcs.map (Func.mapOperands (cut dead))).filter fun k _ => decide (k ∉ dead) := by
    apply Table.ext
    · rw [Table.next_filter, Table.next_map, h.nextFunc]
    · intro k
      rw [Table.get?_filter, Table.get?_map, h.func]
      by_cases hk : k ∈ dead
      · simp [hk]
      · cases m.funcs.get? k <;> simp [hk, Option.filter]
  rw [hfuncs, Table.toList_filter, Table.toList_map, List.filter_map]
  rfl

theorem Without.funcNames {m n : Module} {dead : List FuncId} (h : m.Without dead n) :
    n.funcNames = (m.funcs.toList.filter fun a => a.1 ∉ dead).map (·.2.name) := by
  unfold Module.funcNames
  rw [Table.values_eq_map_toList, h.toList_funcs, List.map_map, List.map_map]
  rfl

/-! ## Removal of the dead functions -/

/-- The names of dead functions in the order in which they are dropped. -/
theorem deadFuncs_names (m : Module) (c : CallGraph) (entry : FuncId) (mode : Reachability) :
    ((m.deadFuncs c entry mode).filterMap fun f => (m.funcs.get? f).map (·.name)) =
      (m.funcs.toList.filter fun a => a.1 ∈ m.deadFuncs c entry mode).map (·.2.name) := by
  have hmem : ∀ a ∈ m.funcs.toList, decide (a.1 ∈ m.deadFuncs c entry mode) =
      !(c.live entry mode).contains a.1 := by
    intro a ha
    have hkey : a.1 ∈ m.funcs.keys := List.mem_map.2 ⟨a, ha, rfl⟩
    simp [deadFuncs, hkey]
  rw [List.filter_congr hmem]
  unfold deadFuncs Table.keys
  rw [List.filter_map, List.filterMap_map, ← List.filterMap_eq_map]
  refine List.filterMap_congr fun a ha => ?_
  rw [Function.comp_apply, Table.mem_toList.1 (List.mem_filter.1 ha).1]
  rfl

/-- What is left of a module after its dead functions are removed, and what is told about it. -/
structure Prunes (m : Module) (dead : List FuncId) (p : Pruned) : Prop where
  without : m.Without dead p.module
  notReferenced : ∀ v ∈ p.module.operands, ∀ f ∈ dead, v.func? ≠ some f
  removed : p.report.removed = (m.funcs.toList.filter fun a => a.1 ∈ dead).map (·.2.name)
  remaining : p.report.remaining = (m.funcs.toList.filter fun a => a.1 ∉ dead).map (·.2.name)
  valid : m.verify = .ok () → p.module.verify = .ok ()

theorem prune_spec {m : Module} {config : Config} {d : DeadFuncs}
    (hd : m.findDeadFuncs? config = some d) :
    ∃ p, m.prune d = .ok p ∧ p.report.entry = config.entry ∧ m.Prunes d.dead p := by
  obtain ⟨⟨⟨func, hfunc, hname⟩, -⟩, -, hdead⟩ := findDeadFuncs?_eq_some_iff.1 hd
  have hnodup : d.dead.Nodup := by
    rw [hdead]
    exact m.funcs.nodup_keys.filter _
  obtain ⟨n, removed, hdrop, hn, hnames⟩ := m.dropFuncs_spec d.dead hnodup
  refine ⟨⟨n, func.name, removed⟩, ?_, hname, hn, fun v hv f => hn.not_referenced hv, ?_, hn.funcNames, ?_⟩
  · unfold prune
    rw [Table.get_eq_ok_iff.2 hfunc]
    show m.dropFuncs d.dead >>= _ = _
    rw [hdrop]
    rfl
  · show removed.map (·.name) = _
    rw [hnames, hdead]
    exact m.deadFuncs_names _ _ _
  · rw [verify_eq_ok_iff, verify_eq_ok_iff]
    exact hn.valid

/-! ## Runs -/

theorem eliminate_of_none {m : Module} {config : Config} (hd : m.findDeadFuncs? config = none) :
    m.eliminate config = .error (.missingEntry config.entry) := by
  unfold eliminate
  rw [hd]

theorem eliminate_of_some {m : Module} {config : Config} {d : DeadFuncs} (hd : m.findDeadFuncs? config = some d) :
    ∃ p, m.eliminate config = .ok p ∧ p.report.entry = config.entry ∧ m.Prunes d.dead p := by
  obtain ⟨p, hp, hentry, hprunes⟩ := prune_spec hd
  refine ⟨p, ?_, hentry, hprunes⟩
  unfold eliminate
  simp only [hd, hp]

/-- What is left of a module that keeps the rules is found to keep them. -/
theorem Prunes.eliminateVerified {m : Module} {config : Config} {dead : List FuncId} {p : Pruned}
    (h : m.Prunes dead p) (hm : m.verify = .ok ()) (hp : m.eliminate config = .ok p) :
    m.eliminateVerified config = (p.module, .ok p) := by
  have hverified : p.module.verified = .ok p.module := by
    unfold Module.verified
    rw [h.valid hm]
  unfold Module.eliminateVerified
  simp only [hp, hverified]

/-- Removing the dead functions of a module whose entry exists succeeds: no function is still
referenced when it goes, and all that changes is what refers to one. A module that keeps the rules is
pruned and keeps them; it is refused for a missing entry only, and then stays. -/
theorem eliminate_spec (m : Module) (config : Config) :
    (∀ entry, m.Names config.entry entry → ∃ d p, m.findDeadFuncs? config = some d ∧ d.entry = entry ∧
      m.eliminate config = .ok p ∧ p.report.entry = config.entry ∧ m.Prunes d.dead p) ∧
    (m.verify = .ok () →
      (∀ entry, m.Names config.entry entry →
        ∃ p, m.eliminate config = .ok p ∧ m.eliminateVerified config = (p.module, .ok p)) ∧
      ∀ e, (m.eliminateVerified config).2 = .error e →
        e = .missingEntry config.entry ∧ (¬ ∃ entry, m.Names config.entry entry) ∧
          (m.eliminateVerified config).1 = m) := by
  refine ⟨fun entry h => ?_, fun hm => ⟨fun entry h => ?_, fun e he => ?_⟩⟩
  · obtain ⟨p, hp⟩ := eliminate_of_some (findDeadFuncs?_of_names h)
    exact ⟨_, p, findDeadFuncs?_of_names h, rfl, hp⟩
  · obtain ⟨p, hp, -, hprunes⟩ := eliminate_of_some (findDeadFuncs?_of_names h)
    exact ⟨p, hp, hprunes.eliminateVerified hm hp⟩
  · cases hd : m.findDeadFuncs? config with
    | none =>
      have hrefused : m.eliminateVerified config = (m, .error (.missingEntry config.entry)) := by
        unfold eliminateVerified
        rw [eliminate_of_none hd]
      rw [hrefused] at he ⊢
      refine ⟨(Except.error.inj he).symm, ?_, rfl⟩
      rintro ⟨entry, h⟩
      rw [findDeadFuncs?_of_names h] at hd
      cases hd
    | some d =>
      obtain ⟨p, hp, -, hprunes⟩ := eliminate_of_some hd
      rw [hprunes.eliminateVerified hm hp] at he
      cases he

theorem eliminate_twoRings :
    (∃ d p, twoRings.findDeadFuncs? {} = some d ∧ d.entry = 0 ∧ twoRings.eliminate {} = .ok p ∧
      p.report.entry = "main" ∧ twoRings.Prunes d.dead p) ∧
    (∃ p, twoRings.eliminate {} = .ok p ∧ twoRings.eliminateVerified {} = (p.module, .ok p)) ∧
    (¬ ∃ entry, twoRings.Names "start" entry) ∧
      (twoRings.eliminateVerified { entry := "start" }).1 = twoRings :=
  have hentry : twoRings.Names "main" 0 := funcNamed?_eq_some_iff.1 (by decide)
  ⟨(eliminate_spec twoRings {}).1 0 hentry, ((eliminate_spec twoRings {}).2 rfl).1 0 hentry,
    (((eliminate_spec twoRings { entry := "start" }).2 rfl).2 (.missingEntry "start") rfl).2⟩

example : ((twoRings.eliminate {}).map (·.report)).toOption =
    some ⟨"main", ["c", "d", "e"], ["main", "a", "b"]⟩ := by cbv

end Module
end SSALint
