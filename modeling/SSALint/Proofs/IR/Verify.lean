/-
The rules for modules and the verifier. It accepts a module exactly if every parameter and every result
is a local value of its function, no result is a parameter or assigned twice, every operand resolves,
and every target is a block of its function (`verify_eq_ok_iff`).
-/
import SSALint.IR.Verify
import SSALint.Proofs.IR.Operands
import SSALint.Proofs.Outcome
import SSALint.Proofs.Table

namespace SSALint

/-- The local values that a block assigns, in order. -/
def Block.results (b : Block) : List LocalId := b.instrs.filterMap (·.result)

/-- The local values that the instructions of a function assign, in the order of the blocks. -/
def Func.results (f : Func) : List LocalId := f.blocks.values.flatMap Block.results

namespace Module

/-! ## The rules -/

/-- What a value stands for is there; local values are those of the function, if there is one. -/
def Resolves (m : Module) (f : Option Func) : Value → Prop
  | .symbol (.func id) => m.funcs.contains id = true
  | .symbol (.global id) => m.globals.contains id = true
  | .var id => ∃ g, f = some g ∧ g.locals.contains id = true
  | .const _ => True

/-- The rules for a function of a module. -/
structure ValidFunc (m : Module) (f : Func) : Prop where
  params : ∀ x ∈ f.params, f.locals.contains x = true
  results : ∀ x ∈ f.results, f.locals.contains x = true
  once : f.results.Nodup
  notParam : ∀ x ∈ f.results, x ∉ f.params
  operands : ∀ v ∈ f.operands, m.Resolves (some f) v
  targets : ∀ b ∈ f.blocks.values, ∀ target ∈ b.targets, f.blocks.contains target = true

/-- The rules for modules. -/
structure Valid (m : Module) : Prop where
  inits : ∀ g ∈ m.globals.values, ∀ v, g.init = some v → m.Resolves none v
  funcs : ∀ f ∈ m.funcs.values, m.ValidFunc f

/-! ## Values -/

theorem dangling?_eq_none_iff {m : Module} {f : Option Func} {v : Value} :
    m.dangling? f v = none ↔ m.Resolves f v := by
  cases v with
  | var x => cases f <;> simp [dangling?, Resolves]
  | symbol s => cases s <;> simp [dangling?, Resolves]
  | const c => simp [dangling?, Resolves]

theorem verifyValue_eq_ok_iff {m : Module} {f : Option Func} {v : Value} {u : Unit} :
    m.verifyValue f v = .ok u ↔ m.Resolves f v := by
  rw [← dangling?_eq_none_iff]
  unfold verifyValue
  cases m.dangling? f v <;> simp

/-! ## Results -/

/-- Local values of a function that differ from each other and from those assigned before. -/
def Fresh (f : Func) (assigned xs : List LocalId) : Prop :=
  (∀ x ∈ xs, f.locals.contains x = true) ∧ xs.Nodup ∧ ∀ x ∈ xs, x ∉ assigned

theorem fresh_nil (f : Func) (assigned : List LocalId) : Fresh f assigned [] := by
  simp [Fresh]

theorem fresh_append_iff {f : Func} {assigned xs ys : List LocalId} :
    Fresh f assigned (xs ++ ys) ↔ Fresh f assigned xs ∧ Fresh f (xs.reverse ++ assigned) ys := by
  unfold Fresh
  rw [List.forall_mem_append, List.forall_mem_append, List.nodup_append]
  simp only [List.mem_append, List.mem_reverse, not_or]
  constructor
  · rintro ⟨⟨hx, hy⟩, ⟨hxs, hys, hne⟩, hax, hay⟩
    exact ⟨⟨hx, hxs, hax⟩, hy, hys, fun y hyy => ⟨fun h => hne y h y hyy rfl, hay y hyy⟩⟩
  · rintro ⟨⟨hx, hxs, hax⟩, hy, hys, hay⟩
    refine ⟨⟨hx, hy⟩, ⟨hxs, hys, ?_⟩, hax, fun y hyy => (hay y hyy).2⟩
    rintro x hxx y hyy rfl
    exact (hay x hyy).1 hxx

theorem verifyResult_eq_ok_iff {f : Func} {assigned out : List LocalId} {i : Instr} :
    verifyResult f assigned i = .ok out ↔
      Fresh f assigned i.result.toList ∧ out = i.result.toList.reverse ++ assigned := by
  unfold verifyResult Fresh
  cases i.result with
  | none => simp [@eq_comm _ out]
  | some x =>
    by_cases hx : f.locals.contains x = true
    · by_cases ha : x ∈ assigned
      · simp [hx, ha]
      · simp [hx, ha, @eq_comm _ out]
    · simp [hx]

theorem foldlM_verifyResult_eq_ok_iff {f : Func} {assigned out : List LocalId} {is : List Instr} :
    is.foldlM (verifyResult f) assigned = .ok out ↔
      Fresh f assigned (is.filterMap (·.result)) ∧ out = (is.filterMap (·.result)).reverse ++ assigned := by
  induction is generalizing assigned with
  | nil =>
    rw [Outcome.foldlM_nil_eq_ok_iff]
    simp [fresh_nil, @eq_comm _ out]
  | cons i is ih =>
    -- What is assigned comes to the front of the list, so results stand there in reverse.
    have hcons : (i :: is).filterMap (·.result) = i.result.toList ++ is.filterMap (·.result) := by
      rw [List.filterMap_cons]
      cases i.result <;> rfl
    rw [Outcome.foldlM_cons_eq_ok_iff, hcons, fresh_append_iff, List.reverse_append, List.append_assoc]
    constructor
    · rintro ⟨mid, hmid, hout⟩
      obtain ⟨hi, rfl⟩ := verifyResult_eq_ok_iff.1 hmid
      obtain ⟨his, hout⟩ := ih.1 hout
      exact ⟨⟨hi, his⟩, hout⟩
    · rintro ⟨⟨hi, his⟩, hout⟩
      exact ⟨_, verifyResult_eq_ok_iff.2 ⟨hi, rfl⟩, ih.2 ⟨his, hout⟩⟩

/-! ## Blocks -/

/-- What the verifier asks of a block apart from its results. -/
def BlockResolves (m : Module) (f : Func) (b : Block) : Prop :=
  (∀ v ∈ b.operands, m.Resolves (some f) v) ∧ ∀ target ∈ b.targets, f.blocks.contains target = true

theorem verifyBlock_eq_ok_iff {m : Module} {f : Func} {assigned out : List LocalId} {b : Block} :
    m.verifyBlock f assigned b = .ok out ↔
      Fresh f assigned b.results ∧ m.BlockResolves f b ∧ out = b.results.reverse ++ assigned := by
  unfold verifyBlock BlockResolves
  simp only [Outcome.bind_eq_ok_iff, Outcome.pure_eq_ok_iff, Outcome.forM_eq_ok_iff,
    foldlM_verifyResult_eq_ok_iff, verifyValue_eq_ok_iff, Outcome.ite_eq_ok_iff]
  constructor
  · rintro ⟨_, ⟨hfresh, rfl⟩, _, hoperands, _, htargets, rfl⟩
    exact ⟨hfresh, ⟨hoperands, htargets⟩, rfl⟩
  · rintro ⟨hfresh, ⟨hoperands, htargets⟩, rfl⟩
    exact ⟨_, ⟨hfresh, rfl⟩, (), hoperands, (), htargets, rfl⟩

theorem foldlM_verifyBlock_eq_ok_iff {m : Module} {f : Func} {assigned out : List LocalId}
    {bs : List Block} : bs.foldlM (m.verifyBlock f) assigned = .ok out ↔
      Fresh f assigned (bs.flatMap Block.results) ∧ (∀ b ∈ bs, m.BlockResolves f b) ∧
        out = (bs.flatMap Block.results).reverse ++ assigned := by
  induction bs generalizing assigned with
  | nil =>
    rw [Outcome.foldlM_nil_eq_ok_iff]
    simp [fresh_nil, @eq_comm _ out]
  | cons b bs ih =>
    rw [Outcome.foldlM_cons_eq_ok_iff, List.flatMap_cons, fresh_append_iff, List.forall_mem_cons,
      List.reverse_append, List.append_assoc]
    constructor
    · rintro ⟨mid, hmid, hout⟩
      obtain ⟨hfresh, hb, rfl⟩ := verifyBlock_eq_ok_iff.1 hmid
      obtain ⟨hrest, hbs, hout⟩ := ih.1 hout
      exact ⟨⟨hfresh, hrest⟩, ⟨hb, hbs⟩, hout⟩
    · rintro ⟨⟨hfresh, hrest⟩, ⟨hb, hbs⟩, hout⟩
      exact ⟨_, verifyBlock_eq_ok_iff.2 ⟨hfresh, hb, rfl⟩, ih.2 ⟨hrest, hbs, hout⟩⟩

/-! ## Functions and modules -/

theorem verifyFunc_eq_ok_iff {m : Module} {f : Func} {u : Unit} :
    m.verifyFunc f = .ok u ↔ m.ValidFunc f := by
  unfold verifyFunc
  simp only [Outcome.bind_eq_ok_iff, Outcome.pure_eq_ok_iff, Outcome.forM_eq_ok_iff,
    foldlM_verifyBlock_eq_ok_iff, Outcome.ite_eq_ok_iff]
  constructor
  · rintro ⟨_, hparams, _, ⟨⟨hresults, honce, hnot⟩, hblocks, -⟩, -⟩
    refine ⟨hparams, hresults, honce, hnot, fun v hv => ?_, fun b hb => (hblocks b hb).2⟩
    obtain ⟨b, hb, hvb⟩ := List.mem_flatMap.1 hv
    exact (hblocks b hb).1 v hvb
  · intro h
    have hblocks : ∀ b ∈ f.blocks.values, m.BlockResolves f b := fun b hb =>
      ⟨fun v hv => h.operands v (List.mem_flatMap.2 ⟨b, hb, hv⟩), h.targets b hb⟩
    exact ⟨(), h.params, _, ⟨⟨h.results, h.once, h.notParam⟩, hblocks, rfl⟩, trivial⟩

/-- The verifier accepts the modules that keep the rules. -/
theorem verify_eq_ok_iff {m : Module} {u : Unit} : m.verify = .ok u ↔ m.Valid := by
  unfold verify
  simp only [Outcome.bind_eq_ok_iff, Outcome.forM_eq_ok_iff, verifyValue_eq_ok_iff,
    verifyFunc_eq_ok_iff]
  constructor
  · rintro ⟨_, hinits, hfuncs⟩
    exact ⟨fun g hg v hv => hinits v (List.mem_filterMap.2 ⟨g, hg, hv⟩), hfuncs⟩
  · intro h
    refine ⟨(), fun v hv => ?_, h.funcs⟩
    obtain ⟨g, hg, hv⟩ := List.mem_filterMap.1 hv
    exact h.inits g hg v hv

/-! ## Substitution -/

theorem results_mapBlock (g : Value → Value) (b : Block) : (b.mapOperands fun _ => g).results = b.results := by
  rw [Block.mapOperands_const]
  exact List.filterMap_map

theorem results_mapOperands (g : Value → Value) (f : Func) : (f.mapOperands g).results = f.results := by
  unfold Func.results Func.mapOperands
  simp only [Table.values_map, List.flatMap_map, results_mapBlock]

/-- A function stays valid under a substitution after which every operand resolves. -/
theorem ValidFunc.mapOperands {m n : Module} {f : Func} {g : Value → Value} (h : m.ValidFunc f)
    (hg : ∀ v, m.Resolves (some f) v → n.Resolves (some (f.mapOperands g)) (g v)) :
    n.ValidFunc (f.mapOperands g) where
  params := h.params
  results := by rw [results_mapOperands]; exact h.results
  once := by rw [results_mapOperands]; exact h.once
  notParam := by rw [results_mapOperands]; exact h.notParam
  operands := by
    rw [Func.operands_mapOperands]
    intro v hv
    obtain ⟨w, hw, rfl⟩ := List.mem_map.1 hv
    exact hg w (h.operands w hw)
  targets b hb target ht := by
    obtain ⟨c, hc, rfl⟩ := List.mem_map.1 (Table.values_map _ f.blocks ▸ hb)
    rw [Block.targets_mapOperands] at ht
    obtain ⟨d, hd⟩ := Table.contains_iff.1 (h.targets c hc target ht)
    exact Table.contains_iff.2 ⟨_, (Table.get?_map _ _ _).trans (by rw [hd]; rfl)⟩

end Module
end SSALint
