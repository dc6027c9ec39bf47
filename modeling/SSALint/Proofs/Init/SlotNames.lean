/-
Which names slots get, and that they are given once. The slots without a name are named by the free numbers, those
whose names no local value bears, in ascending order (`namesSlots_named`): the search for a number goes on behind the
one that was found last, and a name that was given makes no other number taken. Afterwards no slot is without a name,
so a second check finds nothing to name and tells the same (`Module.check_spec`).
-/
import SSALint.Proofs.Init.Naming

namespace SSALint

namespace Func

/-! ## Free numbers -/

/-- No local value bears the name of the number. -/
def IsFree (f : Func) (k : Nat) : Prop := slotName k ∉ f.names

instance (f : Func) : DecidablePred f.IsFree := fun k => inferInstanceAs (Decidable (slotName k ∉ f.names))

theorem infinite_isFree (f : Func) : (Set.ofPred f.IsFree).Infinite := by
  have htaken : {k | slotName k ∈ f.names}.Finite :=
    Set.Finite.preimage slotName_inj.injOn (List.finite_toSet f.names)
  exact htaken.infinite_compl

/-- Where the free numbers are those that satisfy `p`, the search from `k` on finds the first of them that is not
below `k`. -/
theorem nth_count_eq_freeFrom {f : Func} {p : Nat → Prop} [DecidablePred p] {k : Nat}
    (hp : ∀ j, k ≤ j → (p j ↔ f.IsFree j)) : Nat.nth p (Nat.count p k) = f.freeFrom k := by
  obtain ⟨hle, hfree, htaken⟩ := f.freeFrom_spec k
  rw [Nat.nth_count_eq_sInf]
  refine IsLeast.csInf_eq ⟨⟨(hp _ hle).2 hfree, hle⟩, fun j hj => ?_⟩
  obtain ⟨hpj, hkj⟩ := hj
  by_contra hlt
  exact (hp j hkj).1 hpj (htaken j hkj (Nat.lt_of_not_le hlt))

/-! ## Naming one slot -/

section

variable {f : Func} {x : LocalId} {l : Local} {name : String}

theorem get?_setLocalName_of_ne {y : LocalId} (h : y ≠ x) :
    (f.setLocalName x name).locals.get? y = f.locals.get? y :=
  (Table.get?_modify _ _ _ _).trans (if_neg h)

theorem get?_setLocalName_self (hx : f.locals.get? x = some l) :
    (f.setLocalName x name).locals.get? x = some { l with name := some name } := by
  have hget : (f.setLocalName x name).locals.get? x =
      if x = x then (f.locals.get? x).map fun l => { l with name := some name } else f.locals.get? x :=
    Table.get?_modify _ _ _ _
  rw [hget, if_pos rfl, hx]
  rfl

theorem mem_names_iff : name ∈ f.names ↔ ∃ y, f.localName? y = some name := by
  unfold names localName?
  rw [List.mem_filterMap]
  constructor
  · rintro ⟨l, hl, hname⟩
    obtain ⟨y, hy⟩ := Table.mem_values.1 hl
    exact ⟨y, by rw [hy]; exact hname⟩
  · rintro ⟨y, hy⟩
    obtain ⟨l, hl, hname⟩ := Option.bind_eq_some_iff.1 hy
    exact ⟨l, Table.mem_values.2 ⟨y, hl⟩, hname⟩

/-- A slot without a name brings its new one to the names of the function. -/
theorem mem_names_setLocalName (hx : f.locals.get? x = some l) (hl : l.name = none) {other : String} :
    other ∈ (f.setLocalName x name).names ↔ other = name ∨ other ∈ f.names := by
  have hold : f.localName? x = none := (localName?_of_get? hx).trans hl
  have hnew : (f.setLocalName x name).localName? x = some name := localName?_of_get? (get?_setLocalName_self hx)
  have hrest : ∀ y, y ≠ x → (f.setLocalName x name).localName? y = f.localName? y := by
    intro y hy
    unfold localName?
    rw [get?_setLocalName_of_ne hy]
  rw [mem_names_iff, mem_names_iff]
  constructor
  · rintro ⟨y, hy⟩
    by_cases hyx : y = x
    · subst hyx
      exact .inl (Option.some.inj (hy.symm.trans hnew))
    · exact .inr ⟨y, (hrest y hyx).symm.trans hy⟩
  · rintro (rfl | ⟨y, hy⟩)
    · exact ⟨x, hnew⟩
    · have hyx : y ≠ x := by
        rintro rfl
        rw [hold] at hy
        cases hy
      exact ⟨y, (hrest y hyx).trans hy⟩

end

/-! ## Naming a row of slots -/

/-- Slots that are named one after the other leave the other local values as they are. -/
theorem get?_nameSlots_of_not_mem {x : LocalId} (f : Func) (k : Nat) {xs : List LocalId} (hx : x ∉ xs) :
    (f.nameSlots k xs).locals.get? x = f.locals.get? x := by
  induction xs generalizing f k with
  | nil => rfl
  | cons y ys ih =>
    obtain ⟨hxy, hxys⟩ := not_or.1 (mt List.mem_cons.2 hx)
    exact (ih _ _ hxys).trans (get?_setLocalName_of_ne hxy)

/-- Slots without a name get the names of the numbers that satisfy `p`, in ascending order and from `k` on, if these
are the free ones: each name that is given takes only its own number, which lies behind when the next one is looked
for. -/
theorem get?_nameSlots {p : Nat → Prop} [DecidablePred p] (hinf : (Set.ofPred p).Infinite) {f : Func} {k n : Nat}
    (hcount : Nat.count p k = n) (hp : ∀ j, k ≤ j → (p j ↔ f.IsFree j)) {xs : List LocalId} (hnodup : xs.Nodup)
    (hxs : ∀ x ∈ xs, ∃ l, f.locals.get? x = some l ∧ l.name = none) {i : Nat} {x : LocalId} {l : Local}
    (hi : xs[i]? = some x) (hx : f.locals.get? x = some l) :
    (f.nameSlots k xs).locals.get? x = some { l with name := some (slotName (Nat.nth p (n + i))) } := by
  induction xs generalizing f k n i with
  | nil => cases hi
  | cons y ys ih =>
    obtain ⟨hy, hys⟩ := List.nodup_cons.1 hnodup
    obtain ⟨⟨ly, hly, hnone⟩, hrest⟩ := List.forall_mem_cons.1 hxs
    have hfound : Nat.nth p n = f.freeFrom k := hcount ▸ nth_count_eq_freeFrom hp
    cases i with
    | zero =>
      obtain rfl : y = x := Option.some.inj hi
      rw [Nat.add_zero, hfound]
      exact (get?_nameSlots_of_not_mem _ _ hy).trans (get?_setLocalName_self hx)
    | succ i =>
      have hi : ys[i]? = some x := hi
      have hne : ∀ z ∈ ys, z ≠ y := fun z hz hzy => hy (hzy ▸ hz)
      -- Behind the number that was found the free numbers are as before.
      have hbehind : ∀ j, f.freeFrom k + 1 ≤ j → (p j ↔ (f.setLocalName y (slotName (f.freeFrom k))).IsFree j) := by
        intro j hj
        have hle := (f.freeFrom_spec k).1
        have hother : slotName j ≠ slotName (f.freeFrom k) := fun h => by
          have := slotName_inj h
          omega
        rw [hp j (by omega), IsFree, IsFree, mem_names_setLocalName hly hnone, or_iff_right hother]
      have hnext : Nat.count p (f.freeFrom k + 1) = n + 1 := by
        rw [← hfound]
        exact Nat.count_nth_succ_of_infinite hinf n
      have hlater := ih hnext hbehind hys
        (fun z hz => (get?_setLocalName_of_ne (f := f) (hne z hz)).symm ▸ hrest z hz) hi
        ((get?_setLocalName_of_ne (hne x (List.mem_of_getElem? hi))).trans hx)
      rw [Nat.add_assoc, Nat.add_comm 1 i] at hlater
      exact hlater

/-! ## Naming the slots of a function -/

/-- What comes of naming the slots of a function, and the number that is told. -/
structure NamesSlots (f g : Func) (named : Nat) : Prop where
  /-- The slots without a name have a local value each, and are named by the free numbers in the order of the text. -/
  slot : ∀ j x, f.anonymousSlots[j]? = some x → ∃ l, f.locals.get? x = some l ∧ l.name = none ∧
    g.locals.get? x = some { l with name := some (slotName (Nat.nth f.IsFree j)) }
  /-- No other local value bears a name that was given. -/
  fresh : ∀ x ∈ f.anonymousSlots, ∀ y name, g.localName? x = some name → g.localName? y = some name → y = x
  other : ∀ x, x ∉ f.anonymousSlots → g.locals.get? x = f.locals.get? x
  next : g.locals.next = f.locals.next
  rest : g = { f with locals := g.locals }
  count : named = {x | g.locals.get? x ≠ f.locals.get? x}.ncard

section

variable {m : Module} {f : Func} (hf : m.ValidFunc f)

include hf

/-- Slots are results, so each has a local value and is made once. -/
theorem nodup_anonymousSlots : f.anonymousSlots.Nodup := by
  have hslots : ∀ is : List Instr, (is.filterMap Instr.slot?).Sublist (is.filterMap (·.result)) := by
    intro is
    induction is with
    | nil => exact .slnil
    | cons i is ih =>
      obtain ⟨result, operation⟩ := i
      cases result with
      | none => cases operation <;> exact ih
      | some x =>
        cases operation with
        | alloca t => exact ih.cons_cons x
        | _ => exact ih.cons x
  have hresults : f.instrs.filterMap (·.result) = f.results := by
    unfold instrs results
    rw [List.filterMap_flatMap]
    rfl
  have hnodup : (f.instrs.filterMap Instr.slot?).Nodup := (hresults ▸ hf.once).sublist (hslots f.instrs)
  exact hnodup.filter _

theorem get?_of_mem_anonymousSlots {x : LocalId} (hx : x ∈ f.anonymousSlots) :
    ∃ l, f.locals.get? x = some l ∧ l.name = none := by
  obtain ⟨hslot, hname⟩ := List.mem_filter.1 hx
  obtain ⟨i, hi, hslot⟩ := List.mem_filterMap.1 hslot
  obtain ⟨b, hb, hi⟩ := List.mem_flatMap.1 hi
  have hresult : i.result = some x := by
    obtain ⟨result, operation⟩ := i
    cases operation <;> first | exact hslot | cases hslot
  have hmem : x ∈ f.results := List.mem_flatMap.2 ⟨b, hb, List.mem_filterMap.2 ⟨i, hi, hresult⟩⟩
  obtain ⟨l, hl⟩ := Table.contains_iff.1 (hf.results x hmem)
  refine ⟨l, hl, ?_⟩
  rw [Option.isNone_iff_eq_none, localName?, hl] at hname
  exact hname

/-- The slots without a name are named by the free numbers in the order of the text. -/
theorem get?_named_slot {j : Nat} {x : LocalId} (hj : f.anonymousSlots[j]? = some x) : ∃ l, f.locals.get? x = some l ∧
    l.name = none ∧ f.named.locals.get? x = some { l with name := some (slotName (Nat.nth f.IsFree j)) } := by
  have hslots : ∀ x ∈ f.anonymousSlots, ∃ l, f.locals.get? x = some l ∧ l.name = none :=
    fun x => get?_of_mem_anonymousSlots hf
  obtain ⟨l, hl, hnone⟩ := hslots x (List.mem_of_getElem? hj)
  have hnamed := get?_nameSlots f.infinite_isFree (Nat.count_zero f.IsFree) (fun _ _ => Iff.rfl)
    (nodup_anonymousSlots hf) hslots hj hl
  rw [Nat.zero_add] at hnamed
  exact ⟨l, hl, hnone, hnamed⟩

theorem localName?_named_slot {j : Nat} {x : LocalId} (hj : f.anonymousSlots[j]? = some x) :
    f.named.localName? x = some (slotName (Nat.nth f.IsFree j)) := by
  obtain ⟨l, -, -, hl⟩ := get?_named_slot hf hj
  exact localName?_of_get? hl

omit hf in
/-- The other local values stay as they are. -/
theorem get?_named_of_not_mem {x : LocalId} (hx : x ∉ f.anonymousSlots) : f.named.locals.get? x = f.locals.get? x :=
  get?_nameSlots_of_not_mem f 0 hx

/-- A name that was given is that of one local value. -/
theorem eq_of_localName?_named {x y : LocalId} {name : String} (hx : x ∈ f.anonymousSlots)
    (hxname : f.named.localName? x = some name) (hyname : f.named.localName? y = some name) : y = x := by
  obtain ⟨i, hi⟩ := List.mem_iff_getElem?.1 hx
  obtain rfl : slotName (Nat.nth f.IsFree i) = name := Option.some.inj ((localName?_named_slot hf hi).symm.trans hxname)
  by_cases hy : y ∈ f.anonymousSlots
  · -- Two slots that were named have the names of two free numbers.
    obtain ⟨j, hj⟩ := List.mem_iff_getElem?.1 hy
    have hsame : slotName (Nat.nth f.IsFree j) = slotName (Nat.nth f.IsFree i) :=
      Option.some.inj ((localName?_named_slot hf hj).symm.trans hyname)
    obtain rfl : j = i := Nat.nth_injective f.infinite_isFree (slotName_inj hsame)
    exact Option.some.inj (hj.symm.trans hi)
  · -- The number is free, so its name is not one of those that were there.
    have hold : f.localName? y = some (slotName (Nat.nth f.IsFree i)) :=
      (congrArg (Option.bind · Local.name) (get?_named_of_not_mem hy)).symm.trans hyname
    exact absurd (mem_names_iff.2 ⟨y, hold⟩) (Nat.nth_mem_of_infinite f.infinite_isFree i)

/-- The local values that change are the slots without a name. -/
theorem changed_named : {x | f.named.locals.get? x ≠ f.locals.get? x} = (f.anonymousSlots.toFinset : Set LocalId) := by
  ext x
  rw [List.coe_toFinset]
  constructor
  · intro hx
    by_contra hnot
    exact hx (get?_named_of_not_mem hnot)
  · intro hx hsame
    obtain ⟨j, hj⟩ := List.mem_iff_getElem?.1 hx
    obtain ⟨l, hl, hnone, hnamed⟩ := get?_named_slot hf hj
    rw [hnamed, hl, Option.some.injEq] at hsame
    have hname := congrArg Local.name hsame
    rw [hnone] at hname
    cases hname

/-- The slots of a valid function are named by the free numbers, and nothing else changes. -/
theorem namesSlots_named : f.NamesSlots f.nameAnonymousSlots.1 f.nameAnonymousSlots.2 where
  slot _ _ := get?_named_slot hf
  fresh _ hx _ _ := eq_of_localName?_named hf hx
  other _ := get?_named_of_not_mem
  next := (f.keys_nameSlots 0 _).2
  rest := f.named_eq
  count := by
    show f.anonymousSlots.length = {x | f.named.locals.get? x ≠ f.locals.get? x}.ncard
    rw [changed_named hf, Set.ncard_coe_finset, List.toFinset_card_of_nodup (nodup_anonymousSlots hf)]

/-- After its slots were named a function has none without a name. -/
theorem anonymousSlots_named : f.named.anonymousSlots = [] := by
  refine List.filter_eq_nil_iff.2 fun x hx => ?_
  have hmade : x ∈ f.instrs.filterMap Instr.slot? := by
    rw [named_eq] at hx
    exact hx
  rw [Option.isNone_iff_eq_none]
  by_cases hanon : x ∈ f.anonymousSlots
  · obtain ⟨j, hj⟩ := List.mem_iff_getElem?.1 hanon
    rw [localName?_named_slot hf hj]
    exact Option.some_ne_none _
  · intro hnone
    have hsame : f.named.localName? x = f.localName? x :=
      congrArg (Option.bind · Local.name) (get?_named_of_not_mem hanon)
    exact hanon (List.mem_filter.2 ⟨hmade, by rw [← hsame, hnone]; rfl⟩)

/-- Naming the slots again changes nothing, and none is counted. -/
theorem nameAnonymousSlots_named : f.named.nameAnonymousSlots = (f.named, 0) := by
  unfold nameAnonymousSlots
  rw [anonymousSlots_named hf]
  rfl

end

end Func

/-! ## Checking again -/

namespace Module

/-- A check of a module that keeps the rules gives the slots without a name the names of the free numbers of their
function, in the order of the text, and changes nothing else. So a second check names nothing, leaves the module as
it is, and reports what a check of the first module in its mode reports. -/
theorem check_spec {m : Module} (h : m.verify = .ok ()) :
    (∀ f ∈ m.funcs.values, f.NamesSlots f.nameAnonymousSlots.1 f.nameAnonymousSlots.2) ∧
      ∀ first second : Traversal,
        ((m.check first).module.check second).module = (m.check first).module ∧
        (∀ c ∈ ((m.check first).module.check second).funcs, c.named = 0) ∧
        ((m.check first).module.check second).reports = (m.check second).reports := by
  have hvalid := (verify_eq_ok_iff.1 h).funcs
  refine ⟨fun f hf => Func.namesSlots_named (hvalid f hf), fun first second => ?_⟩
  have hagain : ∀ f ∈ m.funcs.values, f.named.nameAnonymousSlots = (f.named, 0) :=
    fun f hf => Func.nameAnonymousSlots_named (hvalid f hf)
  have hchecked : ((m.check first).module.check second).funcs =
      m.funcs.values.map fun f => ⟨f.named, 0, f.named.initAnalysis second⟩ := by
    show (m.funcs.map Func.named).values.map (fun f => f.check second) = _
    rw [Table.values_map, List.map_map]
    refine List.map_congr_left fun f hf => ?_
    show f.named.check second = _
    unfold Func.check
    rw [hagain f hf]
  refine ⟨?_, fun c hc => ?_, ?_⟩
  · have hfuncs : (m.funcs.map Func.named).map Func.named = m.funcs.map Func.named := by
      refine Table.ext (Table.next_map _ _) fun k => ?_
      rw [Table.get?_map, Table.get?_map, Option.map_map]
      refine Option.map_congr fun f hf => ?_
      exact congrArg (·.1) (hagain f (Table.mem_values.2 ⟨k, hf⟩))
    show Module.mk m.globals ((m.funcs.map Func.named).map Func.named) = Module.mk m.globals (m.funcs.map Func.named)
    rw [hfuncs]
  · rw [hchecked] at hc
    obtain ⟨f, -, rfl⟩ := List.mem_map.1 hc
    rfl
  · unfold CheckedModule.reports
    rw [hchecked, List.map_map]
    show _ = (m.funcs.values.map fun f => f.check second).map CheckedFunc.report
    rw [List.map_map]
    rfl

/-- A module with a slot whose name is that of a number, between two slots without a name. -/
def takenName : Module where
  globals := .empty
  funcs := .ofValues [{
    id := 0, name := "f", ret := .void, params := [], variadic := false
    locals := .ofValues [⟨0, .ptr, none⟩, ⟨1, .ptr, some "lvar_0"⟩, ⟨2, .ptr, none⟩]
    blocks := .ofValues [⟨0, none, [⟨some 0, .alloca (.int 32)⟩, ⟨some 1, .alloca (.int 32)⟩,
      ⟨some 2, .alloca (.int 32)⟩], .ret none⟩] }]

theorem check_takenName : takenName.verify = .ok () ∧
    ((takenName.check .fixpoint).module.funcs.values.map fun f => f.locals.values.map (·.name)) =
      [[some "lvar_1", some "lvar_0", some "lvar_2"]] ∧
    (∀ f ∈ takenName.funcs.values, f.NamesSlots f.nameAnonymousSlots.1 f.nameAnonymousSlots.2) ∧
    ∀ first second : Traversal,
      ((takenName.check first).module.check second).module = (takenName.check first).module ∧
      (∀ c ∈ ((takenName.check first).module.check second).funcs, c.named = 0) ∧
      ((takenName.check first).module.check second).reports = (takenName.check second).reports :=
  ⟨by decide +kernel, by decide +kernel, check_spec (by decide +kernel)⟩

end Module
end SSALint
