/-
Reports tell slots apart. The local values of a function that was read print differently, and so they do after slots
without a name were named: names are told apart, an id is a number, and no name is one. So the names in a report
ascend strictly, and each of them is that of one pending slot (`parseModule_tellsApart`).
-/
import SSALint.Proofs.Init.Ascent
import SSALint.Proofs.Init.Least
import SSALint.Proofs.Source.Regular
import SSALint.Proofs.Source.RoundTrip

namespace SSALint

open Source

/-! ## Pending slots -/

/-- What is read in a row of instructions is an operand of one of them. -/
theorem Slots.exists_of_mem_badReads {f : Func} {l : Slots} {is : List Instr} {x : LocalId}
    (h : x ∈ l.badReads f is) : ∃ i ∈ is, .var x ∈ i.operands := by
  induction is generalizing l with
  | nil => cases h
  | cons i is ih =>
    rw [badReads] at h
    rcases List.mem_append.1 h with h | h
    · have h : l.badRead? i = some x := Option.mem_toList.1 h
      refine ⟨i, List.mem_cons_self, ?_⟩
      unfold badRead? at h
      split at h
      · rename_i t y hload
        split at h
        · cases h
          rw [Instr.operands, hload]
          exact List.mem_cons_self
        · cases h
      · cases h
    · obtain ⟨j, hj, hx⟩ := ih h
      exact ⟨j, List.mem_cons_of_mem _ hj, hx⟩

namespace Func

variable {f : Func}

theorem mem_operands_of_mem_reads {known : Table Slots} {bs : List BlockId} {x : LocalId}
    (h : x ∈ (f.sweep known bs).reads) : .var x ∈ f.operands := by
  induction bs generalizing known with
  | nil => cases h
  | cons b bs ih =>
    rw [reads_sweep_cons] at h
    rcases List.mem_append.1 h with h | h
    · unfold badReadsIn at h
      split at h
      · rename_i block hblock
        obtain ⟨i, hi, hx⟩ := Slots.exists_of_mem_badReads h
        refine List.mem_flatMap.2 ⟨block, Table.mem_values.2 ⟨b, hblock⟩, ?_⟩
        exact List.mem_append_left _ (List.mem_flatMap.2 ⟨i, hi, hx⟩)
      · cases h
    · exact ih h

/-- A slot that is pending is used, so it is a local value. -/
theorem contains_of_mem_pending {m : Module} (hf : m.ValidFunc f) {mode : Traversal} {x : LocalId}
    (h : x ∈ (f.initAnalysis mode).pending) : f.locals.contains x = true := by
  have hused : .var x ∈ f.operands := by
    rw [mem_pending_iff_mem_reads] at h
    cases mode <;> exact mem_operands_of_mem_reads h
  obtain ⟨_, ⟨rfl⟩, hx⟩ := hf.operands _ hused
  exact hx

end Func

theorem InitAnalysis.nodup_pending (a : InitAnalysis) : a.pending.Nodup :=
  (List.mergeSort_perm _ _).nodup_iff.2 (Func.nodup_eraseDups _)

/-- Words that differ ascend strictly when they are sorted. -/
theorem pairwise_lt_mergeSort {words : List String} (h : words.Nodup) :
    (words.mergeSort (· ≤ ·)).Pairwise (· < ·) := by
  -- Sorting leaves no descent, and without repetitions there is no standstill either.
  have hsorted : (words.mergeSort (· ≤ ·)).Pairwise (· ≤ ·) := by
    have htrans : ∀ a b c : String, decide (a ≤ b) = true → decide (b ≤ c) = true → decide (a ≤ c) = true := by
      intro a b c hab hbc
      rw [decide_eq_true_iff] at *
      exact hab.trans hbc
    have htotal : ∀ a b : String, (decide (a ≤ b) || decide (b ≤ a)) = true := by
      intro a b
      simpa using le_total a b
    simpa using List.pairwise_mergeSort htrans htotal words
  have hnodup : (words.mergeSort (· ≤ ·)).Nodup := (List.mergeSort_perm _ _).nodup_iff.2 h
  exact hsorted.imp₂ (fun _ _ hle hne => lt_of_le_of_ne hle hne) hnodup

/-! ## Names in print -/

namespace Func

/-- The local values of a function are told apart in print, and so are its pending slots in a report: the names
ascend strictly, and they are those of the slots, one for each. -/
structure TellsApart (f : Func) (m : Module) : Prop where
  locals : Set.InjOn (Names.localName ⟨m, f⟩) {x | f.locals.contains x = true}
  ascending : ∀ mode, ((f.initAnalysis mode).pendingNames f).Pairwise (· < ·)
  pending : ∀ mode, Set.BijOn (Names.localText ⟨m, f⟩) {x | x ∈ (f.initAnalysis mode).pending}
    {name | name ∈ (f.initAnalysis mode).pendingNames f}

theorem WellFormed.tellsApart {m : Module} {f : Func} (hf : f.WellFormed) (hvalid : m.ValidFunc f) :
    f.TellsApart m := by
  have htext : Set.InjOn (Names.localText ⟨m, f⟩) {x | f.locals.contains x = true} := by
    intro x hx y hy h
    obtain ⟨l, hl⟩ := Table.contains_iff.1 hx
    obtain ⟨l', hl'⟩ := Table.contains_iff.1 hy
    exact hf.localText_inj hl hl' h
  have hpending : ∀ mode, Set.InjOn (Names.localText ⟨m, f⟩) {x | x ∈ (f.initAnalysis mode).pending} :=
    fun mode => htext.mono fun _ hx => contains_of_mem_pending hvalid hx
  refine ⟨fun x hx y hy h => htext hx hy ?_, fun mode => ?_, fun mode => ⟨fun x hx => ?_, hpending mode, ?_⟩⟩
  · -- The sign before the names is the same for all of them.
    have hchars := congrArg String.toList h
    rw [Names.toList_localName, Names.toList_localName] at hchars
    exact String.toList_inj.1 (List.cons.inj hchars).2
  · refine pairwise_lt_mergeSort (List.Nodup.map_on (fun x hx y hy h => ?_) (InitAnalysis.nodup_pending _))
    exact hpending mode hx hy h
  · exact List.mem_mergeSort.2 (List.mem_map.2 ⟨x, hx, rfl⟩)
  · intro name hname
    obtain ⟨x, hx, hxname⟩ := List.mem_map.1 (List.mem_mergeSort.1 hname)
    exact ⟨x, hx, hxname⟩

end Func

/-- In a module that was read, and in what a check makes of it, local values of a function print differently, and the
names that are told of its pending slots ascend strictly and stand for one slot each. The reports of a check tell
these names of the functions that it leaves. -/
theorem parseModule_tellsApart {text : String} {m : Module} (h : parseModule text = .ok m) (mode : Traversal) :
    (∀ f ∈ m.funcs.values, f.TellsApart m) ∧
      (∀ f ∈ (m.check mode).module.funcs.values, f.TellsApart (m.check mode).module) ∧
      (m.check mode).reports.map (·.vars) =
        (m.check mode).module.funcs.values.map fun f => (f.initAnalysis mode).pendingNames f := by
  obtain ⟨items, r, hprogram, hresolve⟩ := read_eq_ok_iff.1 (parseModule_eq_ok_iff.1 h)
  obtain ⟨symbols, ss, hr⟩ := resolved_of_resolve hresolve
  have hm : m.Regular := hr.regular (program_spec hprogram).2.2
  have htold : ∀ n : Module, n.Regular → ∀ f ∈ n.funcs.values, f.TellsApart n :=
    fun n hn f hf => (hn.func f hf).wellFormed.tellsApart (hn.valid.funcs f hf)
  refine ⟨htold m hm, htold _ hm.named, ?_⟩
  show ((m.funcs.values.map fun f => f.check mode).map CheckedFunc.report).map (·.vars) =
    (m.funcs.map Func.named).values.map _
  rw [Table.values_map, List.map_map, List.map_map, List.map_map]
  rfl

/-- Two slots are read before they are assigned; one has no name, and the other the first name that it could get. -/
def readText : String :=
  "define void @f() \x7b\n  %0 = alloca i32\n  %lvar_0 = alloca i32\n  %a = load i32, ptr %lvar_0\n" ++
    "  %b = load i32, ptr %0\n  ret void\n\x7d\n"

/-- The module of `readText`. -/
def readModule : Module where
  globals := .empty
  funcs := .ofValues [{
    id := 0, name := "f", ret := .void, params := [], variadic := false
    locals := .ofValues [⟨0, .ptr, none⟩, ⟨1, .ptr, some "lvar_0"⟩, ⟨2, .int 32, some "a"⟩, ⟨3, .int 32, some "b"⟩]
    blocks := .ofValues [⟨0, none, [⟨some 0, .alloca (.int 32)⟩, ⟨some 1, .alloca (.int 32)⟩,
      ⟨some 2, .load (.int 32) (.var 1)⟩, ⟨some 3, .load (.int 32) (.var 0)⟩], .ret none⟩] }]

theorem tellsApart_readModule : parseModule readText = .ok readModule ∧
    (∀ f ∈ readModule.funcs.values, f.TellsApart readModule) ∧
    (∀ f ∈ (readModule.check .fixpoint).module.funcs.values, f.TellsApart (readModule.check .fixpoint).module) ∧
    (readModule.check .fixpoint).reports.map (·.vars) =
      (readModule.check .fixpoint).module.funcs.values.map fun f => (f.initAnalysis .fixpoint).pendingNames f := by
  have h : parseModule readText = .ok readModule := Outcome.toOption_eq_some_iff.1 (by decide +kernel)
  exact ⟨h, parseModule_tellsApart h .fixpoint⟩

end SSALint
