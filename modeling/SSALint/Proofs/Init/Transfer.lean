/-
What one instruction and a row of instructions do to slots. An instruction either makes a slot, or
assigns it, or leaves it as it was (`get?_step_of_makes`, `get?_step_of_assigns`, `get?_step_of_not`),
so it is monotone (`step_mono`), and a slot is exposed behind it exactly if the instruction makes the
slot or finds it exposed and does not assign it (`exposed_step_iff`).
-/
import SSALint.Init.Transfer
import SSALint.Proofs.Init.Order

namespace SSALint

/-! ## What instructions do -/

theorem Instr.slot?_eq_some_iff {i : Instr} {x : LocalId} :
    i.slot? = some x ↔ (∃ t, i.operation = .alloca t) ∧ i.result = some x := by
  obtain ⟨result, operation⟩ := i
  cases operation <;> simp [Instr.slot?]

/-- The instruction stores an assigning value to a slot. -/
def Func.Assigns (f : Func) (x : LocalId) (i : Instr) : Prop :=
  ∃ v, i.operation = .store v (.var x) ∧ f.assigns v = true

/-- The instruction loads from a slot. -/
def Instr.LoadsFrom (x : LocalId) (i : Instr) : Prop := ∃ t, i.operation = .load t (.var x)

namespace Slots

/-- Some path to here leaves a slot unassigned. -/
def Exposed (x : LocalId) (l : Slots) : Prop := ∃ s, l.get? x = some s ∧ .unassigned ≤ s

theorem not_exposed_empty (x : LocalId) : ¬ empty.Exposed x := by
  rintro ⟨s, hs, -⟩; rw [get?_empty] at hs; cases hs

theorem exposed_mono {x : LocalId} {l l' : Slots} (h : l ≤ l') (he : l.Exposed x) : l'.Exposed x := by
  obtain ⟨s, hs, hu⟩ := he
  obtain ⟨t, ht, hst⟩ := h x s hs
  exact ⟨t, ht, hu.trans hst⟩

theorem exposed_join_iff {x : LocalId} {l other : Slots} :
    (l.join other).Exposed x ↔ l.Exposed x ∨ other.Exposed x := by
  constructor
  · rintro ⟨s, hs, hu⟩
    rw [get?_join] at hs
    cases hx : other.get? x with
    | none => rw [hx] at hs; exact .inl ⟨s, hs, hu⟩
    | some t =>
      rw [hx] at hs
      rw [← Option.some.inj hs, InitState.unassigned_le_join] at hu
      rcases hu with hu | hu
      · cases hl : l.get? x with
        | none => rw [hl] at hu; exact absurd hu (by decide)
        | some s' => rw [hl] at hu; exact .inl ⟨s', hl, hu⟩
      · exact .inr ⟨t, hx, hu⟩
  · rintro (h | h)
    · exact exposed_mono (le_join_left l other) h
    · exact exposed_mono (le_join_right l other) h

/-- Where paths meet a slot is exposed if it is on one of them. -/
theorem exposed_joinAll_iff {x : LocalId} {ls : List Slots} :
    (joinAll ls).Exposed x ↔ ∃ l ∈ ls, l.Exposed x :=
  joinAll_iff_exists (not_exposed_empty x) fun _ _ => exposed_join_iff

/-! ## One instruction -/

theorem get?_step_of_makes {f : Func} {l : Slots} {i : Instr} {x : LocalId} (h : i.slot? = some x) :
    (l.step f i).get? x = some .unassigned := by
  obtain ⟨⟨t, ht⟩, hr⟩ := Instr.slot?_eq_some_iff.1 h
  simp [step, ht, hr]

theorem get?_step_of_assigns {f : Func} {l : Slots} {i : Instr} {x : LocalId} (h : f.Assigns x i) :
    (l.step f i).get? x = (l.get? x).map fun _ => .assigned := by
  obtain ⟨v, hv, ha⟩ := h
  simp only [step, hv, ha, if_true, update]
  cases hx : l.get? x <;> simp [hx]

theorem get?_step_of_not {f : Func} {l : Slots} {i : Instr} {x : LocalId} (hm : i.slot? ≠ some x)
    (ha : ¬ f.Assigns x i) : (l.step f i).get? x = l.get? x := by
  obtain ⟨result, operation⟩ := i
  cases operation with
  | alloca t =>
    cases result with
    | none => rfl
    | some y => simp [step, show x ≠ y from fun h => hm (by rw [h]; rfl)]
  | store v ptr =>
    cases ptr with
    | var y =>
      simp only [step]
      split
      · rename_i hv
        have hy : x ≠ y := by rintro rfl; exact ha ⟨v, rfl, hv⟩
        unfold update
        split <;> simp [hy]
      · rfl
    | symbol s => rfl
    | const c => rfl
  | _ => rfl

theorem step_mono (f : Func) (i : Instr) {l l' : Slots} (h : l ≤ l') : l.step f i ≤ l'.step f i := by
  intro x s hs
  by_cases hm : i.slot? = some x
  · rw [get?_step_of_makes hm] at hs ⊢
    cases hs
    exact ⟨.unassigned, rfl, le_refl _⟩
  · by_cases ha : f.Assigns x i
    · rw [get?_step_of_assigns ha] at hs ⊢
      obtain ⟨s', hs', rfl⟩ := Option.map_eq_some_iff.1 hs
      obtain ⟨t, ht, -⟩ := h x s' hs'
      exact ⟨.assigned, by rw [ht]; rfl, le_refl _⟩
    · rw [get?_step_of_not hm ha] at hs ⊢
      exact h x s hs

theorem tracksIn_step {made : List LocalId} {l : Slots} (f : Func) (h : l.TracksIn made) {i : Instr}
    (hi : ∀ x, i.slot? = some x → x ∈ made) : (l.step f i).TracksIn made := by
  have key : ∀ x s, (l.step f i).get? x = some s → x ∈ made ∧ s ≠ .bottom := by
    intro x s hs
    by_cases hm : i.slot? = some x
    · rw [get?_step_of_makes hm] at hs
      cases hs
      exact ⟨hi x hm, by decide⟩
    · by_cases ha : f.Assigns x i
      · rw [get?_step_of_assigns ha] at hs
        obtain ⟨s', hs', rfl⟩ := Option.map_eq_some_iff.1 hs
        exact ⟨h.mem x s' hs', by decide⟩
      · rw [get?_step_of_not hm ha] at hs
        exact ⟨h.mem x s hs, by rintro rfl; exact h.ne_bottom x hs⟩
  exact ⟨fun x s hs => (key x s hs).1, fun x hs => (key x _ hs).2 rfl⟩

/-- Behind an instruction a slot is exposed if the instruction makes it, or if it was exposed before
and is not assigned. -/
theorem exposed_step_iff {f : Func} {l : Slots} {i : Instr} {x : LocalId} :
    (l.step f i).Exposed x ↔ i.slot? = some x ∨ l.Exposed x ∧ ¬ f.Assigns x i := by
  unfold Exposed
  by_cases hm : i.slot? = some x
  · rw [get?_step_of_makes hm]
    exact iff_of_true ⟨_, rfl, le_refl _⟩ (.inl hm)
  · by_cases ha : f.Assigns x i
    · rw [get?_step_of_assigns ha]
      constructor
      · rintro ⟨s, hs, hu⟩
        obtain ⟨s', -, rfl⟩ := Option.map_eq_some_iff.1 hs
        exact absurd hu (by decide)
      · rintro (h | ⟨-, h⟩)
        · exact absurd h hm
        · exact absurd ha h
    · rw [get?_step_of_not hm ha]
      simp [hm, ha]

/-! ## Rows of instructions -/

theorem transfer_mono (f : Func) (is : List Instr) {l l' : Slots} (h : l ≤ l') :
    l.transfer f is ≤ l'.transfer f is := by
  unfold transfer
  induction is generalizing l l' with
  | nil => exact h
  | cons i is ih => exact ih (step_mono f i h)

theorem tracksIn_transfer {made : List LocalId} (f : Func) {is : List Instr}
    (hi : ∀ i ∈ is, ∀ x, i.slot? = some x → x ∈ made) {l : Slots} (h : l.TracksIn made) :
    (l.transfer f is).TracksIn made := by
  unfold transfer
  induction is generalizing l with
  | nil => exact h
  | cons i is ih =>
    obtain ⟨h₁, h₂⟩ := List.forall_mem_cons.1 hi
    exact ih h₂ (tracksIn_step f h h₁)

/-- What is known before the instruction at a position of a row. -/
theorem transfer_take_succ (f : Func) (l : Slots) {is : List Instr} {k : Nat} {i : Instr}
    (h : is[k]? = some i) :
    l.transfer f (is.take (k + 1)) = (l.transfer f (is.take k)).step f i := by
  unfold transfer
  rw [List.take_add_one, h, Option.toList_some, List.foldl_append]
  rfl

theorem badRead?_eq_some_iff {made : List LocalId} {l : Slots} (hl : l.TracksIn made) {i : Instr}
    {x : LocalId} : l.badRead? i = some x ↔ i.LoadsFrom x ∧ l.Exposed x := by
  have hstate : ((l.get? x).any fun s => decide (s ≠ .assigned)) = true ↔ l.Exposed x := by
    unfold Exposed
    cases hx : l.get? x with
    | none => simp
    | some s =>
      have hne := hl.ne_bottom x
      rw [hx] at hne
      simp only [Option.any_some, Option.some.injEq, exists_eq_left']
      revert hne
      cases s <;> decide
  obtain ⟨result, operation⟩ := i
  cases operation with
  | load t ptr =>
    cases ptr with
    | var y =>
      simp only [badRead?, Instr.LoadsFrom, Option.ite_none_right_eq_some, Option.some.injEq]
      constructor
      · rintro ⟨hy, rfl⟩; exact ⟨⟨t, rfl⟩, hstate.1 hy⟩
      · rintro ⟨⟨_, he⟩, hx⟩; cases he; exact ⟨hstate.2 hx, rfl⟩
    | symbol s => simp [badRead?, Instr.LoadsFrom]
    | const c => simp [badRead?, Instr.LoadsFrom]
  | _ => simp [badRead?, Instr.LoadsFrom]

/-- The uninitialized reads of a row are its loads from slots that are exposed where they stand. -/
theorem mem_badReads_iff {made : List LocalId} (f : Func) {is : List Instr}
    (hi : ∀ i ∈ is, ∀ x, i.slot? = some x → x ∈ made) {l : Slots} (hl : l.TracksIn made) {x : LocalId} :
    x ∈ l.badReads f is ↔
      ∃ k i, is[k]? = some i ∧ i.LoadsFrom x ∧ (l.transfer f (is.take k)).Exposed x := by
  induction is generalizing l with
  | nil => simp [badReads]
  | cons j is ih =>
    obtain ⟨hj, his⟩ := List.forall_mem_cons.1 hi
    rw [badReads, List.mem_append, Option.mem_toList, badRead?_eq_some_iff hl, ih his (tracksIn_step f hl hj)]
    constructor
    · rintro (⟨hr, he⟩ | ⟨k, i, hk, hr, he⟩)
      · exact ⟨0, j, rfl, hr, he⟩
      · exact ⟨k + 1, i, hk, hr, he⟩
    · rintro ⟨k, i, hk, hr, he⟩
      cases k with
      | zero => cases hk; exact .inl ⟨hr, he⟩
      | succ k => exact .inr ⟨k, i, hk, hr, he⟩

end Slots
end SSALint
