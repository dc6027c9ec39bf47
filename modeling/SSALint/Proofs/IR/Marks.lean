/-
The verifier against the rules for modules, told by places: no two places of a function assign the same local value
(`nodup_results_iff`). The verifier with marks agrees with the one that lists what was assigned, and a key that it
marks always holds a mark (`verifyMarked_eq`).
-/
import SSALint.Analyzer
import SSALint.IR.Marks
import SSALint.Proofs.IR.Verify

namespace SSALint

/-! ## Checks that agree -/

namespace Check

variable {α β α' β' γ : Type}

/-- A check meets no fault and finds what another one does: the same violation, or related answers. -/
def Agrees (R : α → β → Prop) (x : Check α) (y : Except Violation β) : Prop :=
  (∃ v, x.run = .ok (.error v) ∧ y = .error v) ∨ ∃ a b, x.run = .ok (.ok a) ∧ y = .ok b ∧ R a b

variable {R : α → β → Prop} {S : α' → β' → Prop}

theorem Agrees.pure {a : α} {b : β} (h : R a b) : Agrees R (Pure.pure a) (.ok b) := .inr ⟨a, b, rfl, rfl, h⟩

theorem Agrees.throw (R : α → β → Prop) (v : Violation) : Agrees R (MonadExcept.throw v) (.error v) :=
  .inl ⟨v, rfl, rfl⟩

theorem Agrees.ofExcept (y : Except Violation β) : Agrees Eq (Check.ofExcept y) y := by
  cases y with
  | error v => exact .inl ⟨v, rfl, rfl⟩
  | ok b => exact .inr ⟨b, b, rfl, rfl, rfl⟩

theorem Agrees.bind {x : Check α} {y : Except Violation β} (h : Agrees R x y) {f : α → Check α'}
    {g : β → Except Violation β'} (hfg : ∀ a b, R a b → Agrees S (f a) (g b)) : Agrees S (x >>= f) (y >>= g) := by
  rcases h with ⟨v, hx, rfl⟩ | ⟨a, b, hx, rfl, hab⟩
  · refine .inl ⟨v, ?_, rfl⟩
    rw [ExceptT.run_bind, hx]
    rfl
  · have hrun : (x >>= f).run = (f a).run := by
      rw [ExceptT.run_bind, hx]
      rfl
    unfold Agrees
    rw [hrun]
    exact hfg a b hab

theorem Agrees.foldlM {f : α → γ → Check α} {g : β → γ → Except Violation β} {xs : List γ}
    (hfg : ∀ x ∈ xs, ∀ a b, R a b → Agrees R (f a x) (g b x)) {a : α} {b : β} (hab : R a b) :
    Agrees R (xs.foldlM f a) (xs.foldlM g b) := by
  induction xs generalizing a b with
  | nil => exact .pure hab
  | cons x xs ih =>
    obtain ⟨hx, hxs⟩ := List.forall_mem_cons.1 hfg
    rw [List.foldlM_cons, List.foldlM_cons]
    exact (hx a b hab).bind fun a b hab => ih hxs hab

theorem Agrees.forM {f : γ → Check Unit} {g : γ → Except Violation Unit} {xs : List γ}
    (hfg : ∀ x ∈ xs, Agrees Eq (f x) (g x)) : Agrees Eq (xs.forM f) (xs.forM g) := by
  induction xs with
  | nil => exact .pure rfl
  | cons x xs ih =>
    obtain ⟨hx, hxs⟩ := List.forall_mem_cons.1 hfg
    exact hx.bind fun _ _ _ => ih hxs

theorem Agrees.run_eq {x : Check β} {y : Except Violation β} (h : Agrees Eq x y) : x.run = .ok y := by
  rcases h with ⟨v, hx, rfl⟩ | ⟨a, b, hx, rfl, rfl⟩
  · exact hx
  · exact hx

end Check

/-! ## Marks -/

namespace Func

variable {f : Func}

/-- The local values of a function have marks, and those in the list are marked. -/
def Marks (f : Func) (marks : Table Bool) (assigned : List LocalId) : Prop :=
  ∀ x, marks.get? x = if f.locals.contains x then some (assigned.contains x) else none

theorem get?_foldl_insert (xs : List LocalId) (marks : Table Bool) (x : LocalId) :
    (xs.foldl (fun marks x => marks.insert x false) marks).get? x = if x ∈ xs then some false else marks.get? x := by
  induction xs generalizing marks with
  | nil => rfl
  | cons y xs ih =>
    rw [List.foldl_cons, ih, Table.get?_insert]
    by_cases hx : x ∈ xs
    · simp [hx]
    · by_cases hy : x = y <;> simp [hx, hy]

theorem marks_unassigned (f : Func) : f.Marks f.unassigned [] := by
  intro x
  unfold unassigned
  rw [get?_foldl_insert, Table.get?_empty]
  simp only [Table.mem_keys_iff_contains]
  rfl

theorem Marks.insert {marks : Table Bool} {assigned : List LocalId} (h : f.Marks marks assigned) {x : LocalId}
    (hx : f.locals.contains x = true) : f.Marks (marks.insert x true) (x :: assigned) := by
  intro y
  rw [Table.get?_insert, h y, List.contains_cons]
  by_cases hy : y = x
  · subst hy
    simp [hx]
  · rw [if_neg hy, beq_eq_false_iff_ne.2 hy, Bool.false_or]

/-- A parameter that is a local value has a mark to write over. -/
theorem markParam_of_contains {marks : Table Bool} {assigned : List LocalId} (h : f.Marks marks assigned)
    {x : LocalId} (hx : f.locals.contains x = true) : f.markParam marks x = pure (marks.insert x true) := by
  have hmark : marks.contains x = true := by
    rw [Table.contains_iff, h x, if_pos hx]
    exact ⟨_, rfl⟩
  unfold markParam Table.replace
  rw [if_pos hx, if_pos hmark]
  rfl

theorem agrees_markParams {marks : Table Bool} {assigned : List LocalId} (h : f.Marks marks assigned)
    (xs : List LocalId) :
    Check.Agrees (fun marks _ => f.Marks marks (xs.reverse ++ assigned)) (xs.foldlM f.markParam marks)
      (xs.forM fun x => if f.locals.contains x then .ok () else .error (.paramWithoutLocal f.name x)) := by
  induction xs generalizing marks assigned with
  | nil => exact .pure h
  | cons x xs ih =>
    rw [List.foldlM_cons, List.reverse_cons, List.append_assoc]
    show Check.Agrees _ _ ((if _ then _ else _) >>= fun _ => xs.forM _)
    by_cases hx : f.locals.contains x = true
    · rw [markParam_of_contains h hx, pure_bind, if_pos hx]
      exact ih (h.insert hx)
    · have hmark : f.markParam marks x = throw (.paramWithoutLocal f.name x) := if_neg hx
      rw [hmark, if_neg hx]
      exact .inl ⟨_, rfl, rfl⟩

theorem agrees_markResult {marks : Table Bool} {assigned : List LocalId} (h : f.Marks marks assigned) (i : Instr) :
    Check.Agrees f.Marks (f.markResult marks i) (Module.verifyResult f assigned i) := by
  unfold markResult Module.verifyResult
  cases i.result with
  | none => exact .pure h
  | some x =>
    simp only [h x]
    by_cases hx : f.locals.contains x = true
    · by_cases ha : assigned.contains x = true
      · simp only [hx, ha]
        exact .throw _ _
      · simp only [hx, Bool.not_eq_true _ ▸ ha]
        exact .pure (h.insert hx)
    · simp only [Bool.not_eq_true _ ▸ hx]
      exact .throw _ _

theorem agrees_markBlock (m : Module) {marks : Table Bool} {assigned : List LocalId}
    (h : f.Marks marks assigned) (b : Block) :
    Check.Agrees f.Marks (m.markBlock f marks b) (m.verifyBlock f assigned b) := by
  unfold Module.markBlock Module.verifyBlock
  refine (Check.Agrees.foldlM (fun i _ _ _ h => agrees_markResult h i) h).bind fun marks assigned h => ?_
  exact (Check.Agrees.ofExcept _).bind fun _ _ _ => (Check.Agrees.ofExcept _).bind fun _ _ _ => .pure h

theorem agrees_markFunc (m : Module) (f : Func) : Check.Agrees Eq (m.markFunc f) (m.verifyFunc f) := by
  unfold Module.markFunc Module.verifyFunc
  have hparams := agrees_markParams f.marks_unassigned f.params
  refine hparams.bind fun marks _ h => ?_
  have hmarks : f.Marks marks f.params := by
    intro x
    rw [h x, List.append_nil, List.contains_reverse]
  refine (Check.Agrees.foldlM (fun b _ _ _ h => agrees_markBlock m h b) hmarks).bind fun _ _ _ => ?_
  exact .pure rfl

end Func

/-- The verifier with marks meets no fault and finds what the verifier finds. -/
theorem Module.verifyMarked_eq (m : Module) : m.verifyMarked.run = .ok m.verify := by
  refine Check.Agrees.run_eq ?_
  unfold verifyMarked verify
  exact (Check.Agrees.ofExcept _).bind fun _ _ _ => Check.Agrees.forM fun f _ => Func.agrees_markFunc m f

/-! ## Places of results -/

namespace Func

theorem results_eq_filterMap_instrs (f : Func) : f.results = f.instrs.filterMap (·.result) := by
  unfold results instrs Block.results
  rw [List.filterMap_flatMap]

/-- Results do not repeat exactly if no two instructions give theirs to the same local value. -/
theorem nodup_results_iff {f : Func} : f.results.Nodup ↔ ∀ (k l : Nat) (i j : Instr) (x : LocalId),
    f.instrs[k]? = some i → f.instrs[l]? = some j → i.result = some x → j.result = some x → l = k := by
  rw [results_eq_filterMap_instrs, List.Nodup, List.pairwise_filterMap, List.pairwise_iff_getElem]
  constructor
  · intro h k l i j x hk hl hi hj
    obtain ⟨hkn, rfl⟩ := List.getElem?_eq_some_iff.1 hk
    obtain ⟨hln, rfl⟩ := List.getElem?_eq_some_iff.1 hl
    rcases Nat.lt_trichotomy k l with hlt | heq | hlt
    · exact absurd rfl (h k l hkn hln hlt x hi x hj)
    · exact heq.symm
    · exact absurd rfl (h l k hln hkn hlt x hj x hi)
  · rintro h k l hk hl hlt x hi y hj rfl
    have := h k l _ _ x (List.getElem?_eq_getElem hk) (List.getElem?_eq_getElem hl) hi hj
    omega

theorem mem_results_iff {f : Func} {x : LocalId} :
    x ∈ f.results ↔ ∃ (k : Nat) (i : Instr), f.instrs[k]? = some i ∧ i.result = some x := by
  rw [results_eq_filterMap_instrs, List.mem_filterMap]
  constructor
  · rintro ⟨i, hi, hx⟩
    obtain ⟨k, hk⟩ := List.mem_iff_getElem?.1 hi
    exact ⟨k, i, hk, hx⟩
  · rintro ⟨k, i, hk, hx⟩
    exact ⟨i, List.mem_of_getElem? hk, hx⟩

end Func

namespace Module

/-- The rules for a function, told by the places of its instructions. -/
theorem validFunc_iff {m : Module} {f : Func} : m.ValidFunc f ↔
    (∀ x ∈ f.params, f.locals.contains x = true) ∧
    (∀ (k : Nat) (i : Instr) x, f.instrs[k]? = some i → i.result = some x →
      f.locals.contains x = true ∧ x ∉ f.params ∧
        ∀ (l : Nat) (j : Instr), f.instrs[l]? = some j → j.result = some x → l = k) ∧
    ∀ b ∈ f.blocks.values, (∀ v ∈ b.operands, m.Resolves (some f) v) ∧
      ∀ target ∈ b.targets, f.blocks.contains target = true := by
  constructor
  · intro h
    refine ⟨h.params, fun k i x hk hx => ?_, fun b hb => ⟨fun v hv => ?_, h.targets b hb⟩⟩
    · have hmem := Func.mem_results_iff.2 ⟨k, i, hk, hx⟩
      refine ⟨h.results x hmem, h.notParam x hmem, fun l j hl hj => ?_⟩
      exact Func.nodup_results_iff.1 h.once k l i j x hk hl hx hj
    · exact h.operands v (List.mem_flatMap.2 ⟨b, hb, hv⟩)
  · rintro ⟨hparams, hresults, hblocks⟩
    have hresult : ∀ x ∈ f.results, f.locals.contains x = true ∧ x ∉ f.params := by
      intro x hx
      obtain ⟨k, i, hk, hi⟩ := Func.mem_results_iff.1 hx
      exact ⟨(hresults k i x hk hi).1, (hresults k i x hk hi).2.1⟩
    refine ⟨hparams, fun x hx => (hresult x hx).1, Func.nodup_results_iff.2 ?_, fun x hx => (hresult x hx).2, ?_,
      fun b hb => (hblocks b hb).2⟩
    · exact fun k l i j x hk hl hi hj => (hresults k i x hk hi).2.2 l j hl hj
    · intro v hv
      obtain ⟨b, hb, hv⟩ := List.mem_flatMap.1 hv
      exact (hblocks b hb).1 v hv

/-- The verifier accepts exactly the modules in which every reference resolves and every local value is assigned
once. What it refuses a module for is of one kind, and its marks are never asked for a key that holds none. -/
theorem verify_spec (m : Module) :
    (m.verify = .ok () ↔
      (∀ g ∈ m.globals.values, ∀ v, g.init = some v → m.Resolves none v) ∧
      ∀ f ∈ m.funcs.values,
        (∀ x ∈ f.params, f.locals.contains x = true) ∧
        (∀ (k : Nat) (i : Instr) x, f.instrs[k]? = some i → i.result = some x →
          f.locals.contains x = true ∧ x ∉ f.params ∧
        ∀ (l : Nat) (j : Instr), f.instrs[l]? = some j → j.result = some x → l = k) ∧
        ∀ b ∈ f.blocks.values, (∀ v ∈ b.operands, m.Resolves (some f) v) ∧
          ∀ target ∈ b.targets, f.blocks.contains target = true) ∧
    (∀ e, m.verified = .error e → e.kind? = some .verify) ∧
    m.verifyMarked.run = .ok m.verify := by
  refine ⟨?_, fun e he => ?_, m.verifyMarked_eq⟩
  · rw [verify_eq_ok_iff]
    constructor
    · exact fun h => ⟨h.inits, fun f hf => validFunc_iff.1 (h.funcs f hf)⟩
    · exact fun h => ⟨h.1, fun f hf => validFunc_iff.2 (h.2 f hf)⟩
  · unfold verified at he
    cases hm : m.verify with
    | ok u => rw [hm] at he; cases he
    | error v => rw [hm] at he; cases he; rfl

end Module

end SSALint
