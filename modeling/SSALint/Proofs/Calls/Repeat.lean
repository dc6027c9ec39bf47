/-
Removal of dead functions over and over. What is removed takes calls along, but none that a kept function
hangs on: along the chains that keep a function only kept functions call each other, so the module that is
left has the same chains (`Without.chain_iff`). Two runs are therefore one run of the mode that keeps less
(`eliminate_eliminate`), and any row of runs collapses to one.
-/
import SSALint.Proofs.Calls.Prune
import SSALint.Proofs.Flow.Frame

namespace SSALint

/-! ## Calls that are left -/

theorem Operand.eq_of_cut_eq_func {dead : List FuncId} {v : Value} {g : FuncId}
    (h : cut dead v = .symbol (.func g)) : v = .symbol (.func g) ∧ g ∉ dead := by
  have hv : (cut dead v).func? = some g := by rw [h]; rfl
  obtain ⟨hv, hg⟩ := func?_cut.1 hv
  cases v with
  | symbol s =>
    cases s with
    | func k =>
      cases hv
      exact ⟨rfl, hg⟩
    | global k => cases hv
  | _ => cases hv

/-- An instruction calls after a cut whom it called before, unless the callee is gone. -/
theorem Operation.mapOperands_cut_eq_call_iff {dead : List FuncId} {g : FuncId}
    {o : Operation LocalId Symbol BlockId} :
    (∃ ret args, (o.mapOperands fun _ => cut dead) = .call ret (.symbol (.func g)) args) ↔
      (∃ ret args, o = .call ret (.symbol (.func g)) args) ∧ g ∉ dead := by
  constructor
  · rintro ⟨ret, args, h⟩
    cases o with
    | call ret' callee args' =>
      simp only [mapOperands, call.injEq] at h
      obtain ⟨rfl, hcallee, -⟩ := h
      obtain ⟨rfl, hg⟩ := Operand.eq_of_cut_eq_func hcallee
      exact ⟨⟨_, _, rfl⟩, hg⟩
    | _ => simp [mapOperands] at h
  · rintro ⟨⟨ret, args, rfl⟩, hg⟩
    have hcallee : cut dead (.symbol (.func g)) = .symbol (.func g) := if_neg hg
    exact ⟨ret, args.mapIdx fun _ => cut dead, by rw [mapOperands, hcallee]⟩

theorem Func.calls_mapOperands_cut_iff {dead : List FuncId} {f : Func} {g : FuncId} :
    (f.mapOperands (cut dead)).Calls g ↔ f.Calls g ∧ g ∉ dead := by
  unfold Func.Calls
  simp only [begins_mapOperands_iff, leads_mapOperands, get?_blocks_mapOperands, Option.map_eq_some_iff]
  constructor
  · rintro ⟨start, b, _, _, ret, args, hstart, hpath, ⟨block, hblock, rfl⟩, hi, hop⟩
    rw [Block.mapOperands_const] at hi
    obtain ⟨j, hj, rfl⟩ := List.mem_map.1 hi
    obtain ⟨⟨ret', args', hop⟩, hg⟩ := Operation.mapOperands_cut_eq_call_iff.1 ⟨ret, args, hop⟩
    exact ⟨⟨start, b, block, j, ret', args', hstart, hpath, hblock, hj, hop⟩, hg⟩
  · rintro ⟨⟨start, b, block, i, ret, args, hstart, hpath, hblock, hi, hop⟩, hg⟩
    obtain ⟨ret', args', hop'⟩ := Operation.mapOperands_cut_eq_call_iff.2 ⟨⟨ret, args, hop⟩, hg⟩
    refine ⟨start, b, _, Block.substInstr (cut dead) i, ret', args', hstart, hpath,
      ⟨block, hblock, rfl⟩, ?_, hop'⟩
    rw [Block.mapOperands_const]
    exact List.mem_map.2 ⟨i, hi, rfl⟩

/-- Of two modes the one that keeps less. -/
def Reachability.stricter : Reachability → Reachability → Reachability
  | .twoHop, _ => .twoHop
  | .transitive, mode => mode

theorem Reachability.follows_stricter_iff {a b : Reachability} {k : Nat} :
    (a.stricter b).Follows k ↔ a.Follows k ∧ b.Follows k := by
  cases a <;> cases b <;> simp [stricter, Follows]

theorem Reachability.follows_zero (mode : Reachability) : mode.Follows 0 := by
  cases mode with
  | twoHop => exact Nat.zero_le 2
  | transitive => trivial

/-- Along calls that keep functions one may stop earlier. -/
theorem Reachability.Follows.of_succ {mode : Reachability} {k : Nat} (h : mode.Follows (k + 1)) :
    mode.Follows k := by
  cases mode with
  | twoHop => exact Nat.le_of_succ_le h
  | transitive => trivial

namespace Module

theorem Without.calls_iff {m n : Module} {dead : List FuncId} (h : m.Without dead n) {f g : FuncId} :
    n.Calls f g ↔ m.Calls f g ∧ f ∉ dead ∧ g ∉ dead := by
  unfold Calls
  constructor
  · rintro ⟨func, hfunc, hcalls⟩
    obtain ⟨hf, before, hbefore, rfl⟩ := h.get?_funcs_eq_some_iff.1 hfunc
    obtain ⟨hcalls, hg⟩ := Func.calls_mapOperands_cut_iff.1 hcalls
    exact ⟨⟨before, hbefore, hcalls⟩, hf, hg⟩
  · rintro ⟨⟨func, hfunc, hcalls⟩, hf, hg⟩
    exact ⟨_, h.get?_funcs_eq_some_iff.2 ⟨hf, func, hfunc, rfl⟩, Func.calls_mapOperands_cut_iff.2 ⟨hcalls, hg⟩⟩

/-! ## Chains that are left -/

/-- Some chain of calls keeps a function in a mode. -/
def Kept (m : Module) (entry : FuncId) (mode : Reachability) (g : FuncId) : Prop :=
  ∃ k, mode.Follows k ∧ m.Chain entry k g

theorem Without.chain_of_chain {m n : Module} {dead : List FuncId} (h : m.Without dead n)
    {entry g : FuncId} {k : Nat} (hc : n.Chain entry k g) : m.Chain entry k g := by
  induction hc with
  | here => exact .here
  | call _ hcall ih => exact .call ih (h.calls_iff.1 hcall).1

/-- Chains that keep functions are left when the functions go that no such chain leads to. -/
theorem Without.chain_iff {m n : Module} {dead : List FuncId} (h : m.Without dead n) {entry : FuncId}
    {mode : Reachability} (hdead : ∀ g ∈ dead, ¬ m.Kept entry mode g) {k : Nat} {g : FuncId}
    (hk : mode.Follows k) : n.Chain entry k g ↔ m.Chain entry k g := by
  refine ⟨h.chain_of_chain, fun hc => ?_⟩
  induction hc with
  | here => exact .here
  | @call k f g hf hcall ih =>
    -- Both ends of the last call are kept, so that it is left.
    have hfdead : f ∉ dead := fun hmem => hdead f hmem ⟨k, hk.of_succ, hf⟩
    have hgdead : g ∉ dead := fun hmem => hdead g hmem ⟨k + 1, hk, .call hf hcall⟩
    exact .call (ih hk.of_succ) (h.calls_iff.2 ⟨hcall, hfdead, hgdead⟩)

/-! ## One removal -/

theorem Without.eq {m n n' : Module} {dead dead' : List FuncId} (h : m.Without dead n)
    (h' : m.Without dead' n') (hmem : ∀ g, g ∈ dead ↔ g ∈ dead') : n = n' := by
  have hcut : cut dead = cut dead' := by
    funext v
    unfold cut
    split
    · simp only [hmem]
    · rfl
  have hfuncs : n.funcs = n'.funcs := by
    refine Table.ext (h.nextFunc.trans h'.nextFunc.symm) fun k => ?_
    rw [h.func, h'.func, hcut]
    simp only [hmem]
  have hglobals : n.globals = n'.globals := by
    refine Table.ext (h.nextGlobal.trans h'.nextGlobal.symm) fun k => ?_
    rw [h.global, h'.global, hcut]
  cases n
  cases n'
  simp only at hfuncs hglobals
  rw [hfuncs, hglobals]

/-- A run leaves a module without the functions that it does not keep. -/
theorem eliminate_of_names {m : Module} {config : Config} {entry : FuncId}
    (h : m.Names config.entry entry) : ∃ dead p, m.eliminate config = .ok p ∧ m.Prunes dead p ∧
      ∀ g, g ∈ dead ↔ m.funcs.contains g = true ∧ ¬ m.Kept entry config.reachability g := by
  obtain ⟨d, hd, -, -, hdead⟩ := findDeadFuncs?_spec h
  obtain ⟨p, hp, -, hprunes⟩ := eliminate_of_some hd
  exact ⟨d.dead, p, hp, hprunes, hdead⟩

/-- The function that is entered is left, and it is still the first of its name. -/
theorem Without.names {m n : Module} {dead : List FuncId} (h : m.Without dead n) {name : String}
    {entry : FuncId} (hentry : entry ∉ dead) (hm : m.Names name entry) : n.Names name entry := by
  obtain ⟨⟨func, hfunc, hname⟩, hleast⟩ := hm
  have hstays := h.get?_funcs_eq_some_iff.2 ⟨hentry, func, hfunc, rfl⟩
  refine ⟨⟨_, hstays, hname⟩, fun k f hk hf => ?_⟩
  obtain ⟨-, g, hg, rfl⟩ := h.get?_funcs_eq_some_iff.1 hk
  exact hleast k g hg hf

/-! ## Two removals -/

/-- What a run keeps of what another one left is what the stricter one of both keeps. -/
theorem Without.kept_iff {m n : Module} {dead : List FuncId} (h : m.Without dead n) {entry g : FuncId}
    {a b : Reachability} (hdead : ∀ g ∈ dead, ¬ m.Kept entry a g) (hg : m.Kept entry a g) :
    n.Kept entry b g ↔ m.Kept entry (a.stricter b) g := by
  constructor
  · rintro ⟨k, hk, hc⟩
    obtain ⟨j, hj, hcj⟩ := hg
    -- Either of both chains may be the one that the stricter mode follows.
    cases a with
    | twoHop => exact ⟨j, hj, hcj⟩
    | transitive => exact ⟨k, hk, h.chain_of_chain hc⟩
  · rintro ⟨k, hk, hc⟩
    obtain ⟨hka, hkb⟩ := Reachability.follows_stricter_iff.1 hk
    exact ⟨k, hkb, (h.chain_iff hdead hka).2 hc⟩

/-- Two runs in a row end where one run of the stricter mode does. -/
theorem eliminate_eliminate {m : Module} {config : Config} {entry : FuncId}
    (h : m.Names config.entry entry) (a b : Reachability) :
    ∃ p q r, m.eliminate { config with reachability := a } = .ok p ∧
      p.module.eliminate { config with reachability := b } = .ok q ∧
      m.eliminate { config with reachability := a.stricter b } = .ok r ∧
      p.module.Names config.entry entry ∧ q.module = r.module := by
  obtain ⟨deadA, p, hp, hpruneP, hdeadA⟩ :=
    @eliminate_of_names m { config with reachability := a } entry h
  have hkeptA : ∀ g ∈ deadA, ¬ m.Kept entry a g := fun g hg => ((hdeadA g).1 hg).2
  have hentry : entry ∉ deadA := fun hmem => hkeptA entry hmem ⟨0, a.follows_zero, .here⟩
  have hnames : p.module.Names config.entry entry := hpruneP.without.names hentry h
  obtain ⟨deadB, q, hq, hpruneQ, hdeadB⟩ :=
    @eliminate_of_names p.module { config with reachability := b } entry hnames
  obtain ⟨deadC, r, hr, hpruneR, hdeadC⟩ :=
    @eliminate_of_names m { config with reachability := a.stricter b } entry h
  refine ⟨p, q, r, hp, hq, hr, hnames, ?_⟩
  refine (hpruneP.without.trans hpruneQ.without).eq hpruneR.without fun g => ?_
  rw [List.mem_append, hdeadA, hdeadB, hdeadC, hpruneP.without.contains_func]
  simp only
  constructor
  · rintro (⟨hg, hkept⟩ | ⟨⟨hg, hnot⟩, hkept⟩)
    · refine ⟨hg, fun ⟨k, hk, hc⟩ => hkept ⟨k, (Reachability.follows_stricter_iff.1 hk).1, hc⟩⟩
    · refine ⟨hg, fun ⟨k, hk, hc⟩ => hkept ?_⟩
      have hka := (Reachability.follows_stricter_iff.1 hk).1
      exact (hpruneP.without.kept_iff hkeptA ⟨k, hka, hc⟩).2 ⟨k, hk, hc⟩
  · rintro ⟨hg, hkept⟩
    by_cases hA : m.Kept entry a g
    · have hnot : g ∉ deadA := fun hmem => hkeptA g hmem hA
      exact .inr ⟨⟨hg, hnot⟩, fun hB => hkept ((hpruneP.without.kept_iff hkeptA hA).1 hB)⟩
    · exact .inl ⟨hg, hA⟩

/-- A second run of the same mode finds nothing to remove. -/
theorem eliminate_again {m : Module} {config : Config} {entry : FuncId} {p : Pruned}
    (h : m.Names config.entry entry) (hp : m.eliminate config = .ok p) :
    ∃ q, p.module.eliminate config = .ok q ∧ q.removed = [] ∧ q.module = p.module := by
  obtain ⟨dead, p', hp', hprune, hdead⟩ := eliminate_of_names h
  cases hp.symm.trans hp'
  have hkept : ∀ g ∈ dead, ¬ m.Kept entry config.reachability g := fun g hg => ((hdead g).1 hg).2
  have hentry : entry ∉ dead := fun hmem => hkept entry hmem ⟨0, Reachability.follows_zero _, .here⟩
  obtain ⟨none, q, hq, hpruneQ, hnone⟩ := eliminate_of_names (hprune.without.names hentry h)
  have hempty : none = [] := by
    refine List.eq_nil_iff_forall_not_mem.2 fun g hg => ?_
    obtain ⟨hin, hgone⟩ := (hnone g).1 hg
    obtain ⟨hin, hnot⟩ := hprune.without.contains_func.1 hin
    -- What the first run left it kept, and the chain that it was kept by is there again.
    have hfirst : m.Kept entry config.reachability g := by
      by_contra hno
      exact hnot ((hdead g).2 ⟨hin, hno⟩)
    obtain ⟨k, hk, hc⟩ := hfirst
    exact hgone ⟨k, hk, (hprune.without.chain_iff hkept hk).2 hc⟩
  subst hempty
  refine ⟨q, hq, ?_, hpruneQ.without.eq (.refl _) fun g => Iff.rfl⟩
  have hremoved := hpruneQ.removed
  simp only [Pruned.report, List.not_mem_nil, decide_false, List.filter_false, List.map_nil,
    List.map_eq_nil_iff] at hremoved
  exact hremoved

/-! ## Rows of removals -/

/-- The mode that a row of runs amounts to. -/
def strictest (modes : List Reachability) : Reachability :=
  if .twoHop ∈ modes then .twoHop else .transitive

theorem strictest_cons (a : Reachability) (modes : List Reachability) :
    strictest (a :: modes) = a.stricter (strictest modes) := by
  cases a <;> simp [strictest, Reachability.stricter]

/-- Removes the dead functions of a module once for each of several modes. -/
def eliminateInTurn (m : Module) (config : Config) (modes : List Reachability) : Except Error Module :=
  modes.foldlM (fun m mode => (·.module) <$> m.eliminate { config with reachability := mode }) m

theorem eliminateInTurn_cons {m : Module} {config : Config} {a : Reachability} {modes : List Reachability}
    {p : Pruned} (hp : m.eliminate { config with reachability := a } = .ok p) :
    m.eliminateInTurn config (a :: modes) = p.module.eliminateInTurn config modes := by
  unfold eliminateInTurn
  rw [List.foldlM_cons, hp]
  rfl

/-- Removing dead functions in one mode after the other ends where a single run of the strictest mode does,
and a second run of a mode removes nothing. -/
theorem eliminateInTurn_spec {m : Module} {config : Config} (h : ∃ entry, m.Names config.entry entry) :
    (∀ modes, modes ≠ [] → ∃ p, m.eliminate { config with
        reachability := if .twoHop ∈ modes then .twoHop else .transitive } = .ok p ∧
      m.eliminateInTurn config modes = .ok p.module) ∧
    ∀ mode p, m.eliminate { config with reachability := mode } = .ok p →
      ∃ q, p.module.eliminate { config with reachability := mode } = .ok q ∧ q.removed = [] ∧
        q.module = p.module := by
  obtain ⟨entry, hentry⟩ := h
  refine ⟨fun modes hne => ?_, fun mode p hp => eliminate_again hentry hp⟩
  show ∃ p, m.eliminate { config with reachability := strictest modes } = .ok p ∧ _
  induction modes generalizing m with
  | nil => exact absurd rfl hne
  | cons a modes ih =>
    obtain ⟨p, q, r, hp, hq, hr, hnames, hqr⟩ := eliminate_eliminate hentry a (strictest modes)
    rw [eliminateInTurn_cons hp]
    cases modes with
    | nil => exact ⟨p, by cases a <;> exact hp, rfl⟩
    | cons b modes =>
      obtain ⟨q', hq', hturn⟩ := ih hnames (by simp)
      cases hq.symm.trans hq'
      exact ⟨r, by rw [strictest_cons]; exact hr, by rw [hturn, hqr]⟩

theorem eliminateInTurn_twoRings :
    (∃ entry, twoRings.Names "main" entry) ∧ ∃ p, twoRings.eliminate {} = .ok p ∧
      twoRings.eliminateInTurn {} [.transitive, .twoHop, .transitive] = .ok p.module :=
  have h : ∃ entry, twoRings.Names "main" entry := ⟨0, funcNamed?_eq_some_iff.1 (by decide)⟩
  ⟨h, (@eliminateInTurn_spec twoRings {} h).1 [.transitive, .twoHop, .transitive] (by decide)⟩

end Module
end SSALint
