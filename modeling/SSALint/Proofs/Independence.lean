/-
The two analyses do not get in each other's way. A check names slots, which neither the calls of a function
nor its name hang on, so the same functions are dead before and after it (`findDeadFuncs?_named`); what a
removal cuts a check is blind to. Both orders therefore end in the same module and tell the same, up to the
reports on functions that are gone (`eliminateThenCheck_spec`).
-/
import SSALint.Proofs.Init.Frame
import SSALint.Proofs.Calls.Repeat

namespace SSALint

/-- What the two analyses leave of a module and tell about it. -/
structure Analyzed where
  module : Module
  /-- The reports on uninitialized reads in the functions that were there when the check ran. -/
  uninit : List UninitReport
  dead : Except Error DeadFuncReport
deriving Repr

namespace Module

/-- Checks a module and then removes its dead functions. A module without its entry stays. -/
def checkThenEliminate (m : Module) (config : Config) : Analyzed :=
  let c := m.check config.traversal
  match c.module.eliminate config with
  | .ok p => ⟨p.module, c.reports, .ok p.report⟩
  | .error e => ⟨c.module, c.reports, .error e⟩

/-- Removes the dead functions of a module and then checks what is left. -/
def eliminateThenCheck (m : Module) (config : Config) : Analyzed :=
  match m.eliminate config with
  | .ok p =>
    let c := p.module.check config.traversal
    ⟨c.module, c.reports, .ok p.report⟩
  | .error e =>
    let c := m.check config.traversal
    ⟨c.module, c.reports, .error e⟩

/-- A module with the slots of its functions named. -/
def named (m : Module) : Module := { m with funcs := m.funcs.map Func.named }

theorem module_check (m : Module) (mode : Traversal) : (m.check mode).module = m.named := rfl

/-! ## Dead functions of a checked module -/

theorem toList_named (m : Module) : m.named.funcs.toList = m.funcs.toList.map fun a => (a.1, a.2.named) :=
  Table.toList_map _ _

theorem name_named (f : Func) : f.named.name = f.name := by
  rw [Func.named_eq]

theorem funcNamed?_named (m : Module) (name : String) : m.named.funcNamed? name = m.funcNamed? name := by
  unfold funcNamed?
  rw [toList_named, List.find?_map, Option.map_map]
  simp only [Function.comp_def, name_named]

theorem callGraph_named (m : Module) : m.named.callGraph = m.callGraph := by
  unfold callGraph named
  rw [Table.map_map]
  congr 1
  exact funext Func.calls_named

theorem findDeadFuncs?_named (m : Module) (config : Config) :
    m.named.findDeadFuncs? config = m.findDeadFuncs? config := by
  have hkeys : m.named.funcs.keys = m.funcs.keys := Table.keys_map _ _
  unfold findDeadFuncs? deadFuncs
  rw [funcNamed?_named, callGraph_named, hkeys]

/-- Names are given to the functions that are left as they are given before a removal. -/
theorem Without.named {m n : Module} {dead : List FuncId} (h : m.Without dead n) :
    m.named.Without dead n.named where
  func k := by
    show (n.funcs.map Func.named).get? k = if k ∈ dead then none else
      ((m.funcs.map Func.named).get? k).map _
    rw [Table.get?_map, Table.get?_map, h.func]
    split
    · rfl
    · rw [Option.map_map, Option.map_map]
      congr 1
      exact funext (Func.named_mapOperands (cut dead))
  global := h.global
  nextFunc := by
    show (n.funcs.map Func.named).next = (m.funcs.map Func.named).next
    rw [Table.next_map, Table.next_map, h.nextFunc]
  nextGlobal := h.nextGlobal

/-! ## Reports -/

theorem reports_eq (m : Module) (mode : Traversal) :
    (m.check mode).reports = m.funcs.toList.map fun a => (a.2.check mode).report := by
  show (m.funcs.values.map fun f => f.check mode).map (·.report) = _
  rw [Table.values_eq_map_toList, List.map_map, List.map_map]
  rfl

/-- The reports of a check with the functions that they are on. -/
theorem keys_zip_reports (m : Module) (mode : Traversal) :
    m.funcs.keys.zip (m.check mode).reports =
      m.funcs.toList.map fun a => (a.1, (a.2.check mode).report) := by
  rw [reports_eq, Table.keys, List.zip_map']

/-- The reports on what a removal leaves are those on the functions before it. -/
theorem Without.reports {m n : Module} {dead : List FuncId} (h : m.Without dead n) (mode : Traversal) :
    (n.check mode).reports =
      ((m.funcs.keys.zip (m.check mode).reports).filter fun a => n.funcs.contains a.1).map (·.2) := by
  have hleft : ∀ a ∈ m.funcs.toList, n.funcs.contains a.1 = decide (a.1 ∉ dead) := by
    intro a ha
    have hin : m.funcs.contains a.1 = true := Table.contains_iff.2 ⟨a.2, Table.mem_toList.1 ha⟩
    rw [Bool.eq_iff_iff, h.contains_func, decide_eq_true_iff]
    exact and_iff_right hin
  have hreport : ((fun a => (a.2.check mode).report) ∘ fun a : FuncId × Func =>
      (a.1, a.2.mapOperands (cut dead))) = fun a => (a.2.check mode).report :=
    funext fun a => Func.report_check_cut dead a.2 mode
  rw [keys_zip_reports, List.filter_map, List.map_map, reports_eq, h.toList_funcs, List.map_map, hreport]
  exact congrArg _ (List.filter_congr hleft).symm

/-! ## Both orders -/

theorem contains_named (m : Module) (k : FuncId) : m.named.funcs.contains k = m.funcs.contains k := by
  unfold Table.contains named
  rw [Table.get?_map, Option.isSome_map]

/-- Naming slots changes no list of names of functions. -/
theorem names_named (m : Module) (p : FuncId → Bool) :
    ((m.named.funcs.toList.filter fun a => p a.1).map (·.2.name)) =
      (m.funcs.toList.filter fun a => p a.1).map (·.2.name) := by
  rw [toList_named, List.filter_map, List.map_map]
  simp only [Function.comp_def, name_named]

/-- A removal tells the same of a module and of the checked module, and leaves the same once checked. -/
theorem prune_named {m : Module} {config : Config} {d : DeadFuncs} (hd : m.findDeadFuncs? config = some d) :
    ∃ p q dead, m.eliminate config = .ok p ∧ m.named.eliminate config = .ok q ∧ m.Without dead p.module ∧
      q.module = p.module.named ∧ q.report = p.report := by
  have hd' : m.named.findDeadFuncs? config = some d := by rw [findDeadFuncs?_named, hd]
  obtain ⟨p, hp, hentry, hprunes⟩ := eliminate_of_some hd
  obtain ⟨q, hq, hentry', hprunes'⟩ := eliminate_of_some hd'
  refine ⟨p, q, d.dead, hp, hq, hprunes.without, hprunes'.without.eq hprunes.without.named fun _ => Iff.rfl, ?_⟩
  have hremoved := hprunes'.removed
  have hremaining := hprunes'.remaining
  rw [names_named m fun k => decide (k ∈ d.dead), ← hprunes.removed] at hremoved
  rw [names_named m fun k => decide (k ∉ d.dead), ← hprunes.remaining] at hremaining
  rw [DeadFuncReport.mk.injEq]
  exact ⟨hentry'.trans hentry.symm, hremoved, hremaining⟩

/-- Checking a module and removing its dead functions can be done in either order: the modules that are left
are equal, and so is what is told about dead functions, where nothing but a missing entry is complained
about. The reports on uninitialized reads that come of the second order are, one for one, those of the first
order on the functions that are left. -/
theorem eliminateThenCheck_spec (m : Module) (config : Config) :
    (m.eliminateThenCheck config).module = (m.checkThenEliminate config).module ∧
    (m.eliminateThenCheck config).dead = (m.checkThenEliminate config).dead ∧
    (∀ e, (m.checkThenEliminate config).dead = .error e → e = .missingEntry config.entry) ∧
    (m.checkThenEliminate config).uninit.length = m.funcs.keys.length ∧
    (m.eliminateThenCheck config).uninit =
      ((m.funcs.keys.zip (m.checkThenEliminate config).uninit).filter fun a =>
        (m.checkThenEliminate config).module.funcs.contains a.1).map (·.2) := by
  have hlength : (m.check config.traversal).reports.length = m.funcs.keys.length := by
    rw [reports_eq, Table.keys, List.length_map, List.length_map]
  cases hd : m.findDeadFuncs? config with
  | none =>
    have hfirst : m.checkThenEliminate config = ⟨m.named, (m.check config.traversal).reports,
        .error (.missingEntry config.entry)⟩ := by
      have hd' : m.named.findDeadFuncs? config = none := by rw [findDeadFuncs?_named, hd]
      unfold checkThenEliminate
      simp only [module_check, eliminate_of_none hd']
    have hsecond : m.eliminateThenCheck config = m.checkThenEliminate config := by
      rw [hfirst]
      unfold eliminateThenCheck
      simp only [module_check, eliminate_of_none hd]
    rw [hsecond, hfirst]
    refine ⟨rfl, rfl, fun e he => (Except.error.inj he).symm, hlength, ?_⟩
    simp only [contains_named]
    exact (Without.refl m).reports config.traversal
  | some d =>
    obtain ⟨p, q, dead, hp, hq, hwithout, hmodule, hreport⟩ := prune_named hd
    have hfirst : m.checkThenEliminate config =
        ⟨p.module.named, (m.check config.traversal).reports, .ok p.report⟩ := by
      unfold checkThenEliminate
      simp only [module_check, hq, hmodule, hreport]
    have hsecond : m.eliminateThenCheck config =
        ⟨p.module.named, (p.module.check config.traversal).reports, .ok p.report⟩ := by
      unfold eliminateThenCheck
      simp only [module_check, hp]
    rw [hsecond, hfirst]
    refine ⟨rfl, rfl, (fun e he => by cases he), hlength, ?_⟩
    simp only [contains_named]
    exact hwithout.reports config.traversal

end Module
end SSALint
