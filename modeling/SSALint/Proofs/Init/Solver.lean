/-
The solver reaches a solution. A visit gives a block what its predecessors and instructions call for;
from nothing, visits only climb (`climbing_visit`), and how far they can climb is bounded by the blocks
and the slots that the function makes (`climbed_le`). The loop is told without a bound as a relation
(`Sweeps`): sweep until a sweep changes nothing. A sweep that changes something climbs, so the sweeps
allowed are enough (`sweeps_solve`), and the last one leaves a solution (`Sweeps.settled`). Recording then
reads every block against it (`sweep_of_settled`).
-/
import SSALint.Init.Solver
import SSALint.Proofs.Flow.Graph
import SSALint.Proofs.Init.Transfer
import SSALint.Proofs.Table

namespace SSALint.Func

variable {f : Func}

/-! ## Visits -/

/-- What is known after a visit of a block. -/
def visit (f : Func) (known : Table Slots) (b : BlockId) : Table Slots :=
  match f.slotsAtEnd? known b with
  | some l => known.insert b l
  | none => known

theorem slotsAtEnd?_eq_some_iff {known : Table Slots} {b : BlockId} {l : Slots} :
    f.slotsAtEnd? known b = some l ↔
      ∃ block, f.blocks.get? b = some block ∧ (f.slotsAtHead known b).transfer f block.instrs = l := by
  unfold slotsAtEnd?
  rw [Option.map_eq_some_iff]

theorem get?_visit {known : Table Slots} {b : BlockId} {l : Slots} (h : f.slotsAtEnd? known b = some l)
    (c : BlockId) : (f.visit known b).get? c = if c = b then some l else known.get? c := by
  unfold visit
  rw [h, Table.get?_insert]

/-- A block that is not there is passed over. -/
theorem visit_of_none {known : Table Slots} {b : BlockId} (h : f.slotsAtEnd? known b = none) :
    f.visit known b = known := by
  unfold visit
  rw [h]

/-- A visit that finds what is known leaves all as it is. -/
theorem visit_of_same {known : Table Slots} {b : BlockId} {l : Slots} (h : f.slotsAtEnd? known b = some l)
    (hk : known.get? b = some l) : f.visit known b = known := by
  unfold visit
  rw [h]
  exact Table.insert_of_get? hk

theorem get?_visit_of_ne {known : Table Slots} {b c : BlockId} (h : c ≠ b) :
    (f.visit known b).get? c = known.get? c := by
  cases hb : f.slotsAtEnd? known b with
  | none => rw [visit_of_none hb]
  | some l => rw [get?_visit hb, if_neg h]

/-! ## Sweeps -/

/-- A sweep passes over a block that is not there. -/
theorem sweep_cons_of_none {known : Table Slots} {b : BlockId} (h : f.slotsAtEnd? known b = none)
    (bs : List BlockId) : f.sweep known (b :: bs) = f.sweep known bs := by
  simp only [sweep, h]

/-- Nothing is read in a block that is not there. -/
theorem badReadsIn_of_none {known : Table Slots} {b : BlockId} (h : f.slotsAtEnd? known b = none) :
    f.badReadsIn known b = [] := by
  unfold slotsAtEnd? at h
  unfold badReadsIn
  rw [Option.map_eq_none_iff.1 h]

/-- A visit that finds what is known changes nothing. -/
theorem sweep_cons_of_same {known : Table Slots} {b : BlockId} {l : Slots}
    (h : f.slotsAtEnd? known b = some l) (hk : known.get? b = some l) (bs : List BlockId) :
    f.sweep known (b :: bs) = { f.sweep known bs with
      reads := f.badReadsIn known b ++ (f.sweep known bs).reads } := by
  simp only [sweep, h, hk, if_true]

/-- A visit that finds something else records a change. -/
theorem sweep_cons_of_change {known : Table Slots} {b : BlockId} {l : Slots}
    (h : f.slotsAtEnd? known b = some l) (hk : known.get? b ≠ some l) (bs : List BlockId) :
    f.sweep known (b :: bs) =
      { known := (f.sweep (f.visit known b) bs).known
        changes := ⟨b, l.size⟩ :: (f.sweep (f.visit known b) bs).changes
        reads := f.badReadsIn known b ++ (f.sweep (f.visit known b) bs).reads } := by
  simp only [sweep, visit, h, hk, if_false]

/-- A sweep leaves what its visits leave, one after the other. -/
theorem known_sweep (known : Table Slots) (bs : List BlockId) :
    (f.sweep known bs).known = bs.foldl f.visit known := by
  induction bs generalizing known with
  | nil => rfl
  | cons b bs ih =>
    rw [List.foldl_cons, ← ih]
    cases h : f.slotsAtEnd? known b with
    | none => rw [sweep_cons_of_none h, visit_of_none h]
    | some l =>
      by_cases hk : known.get? b = some l
      · rw [sweep_cons_of_same h hk, visit_of_same h hk]
      · rw [sweep_cons_of_change h hk]

theorem known_sweep_cons (known : Table Slots) (b : BlockId) (bs : List BlockId) :
    (f.sweep known (b :: bs)).known = (f.sweep (f.visit known b) bs).known := by
  rw [known_sweep, known_sweep, List.foldl_cons]

/-- A sweep leaves the blocks that it does not visit. -/
theorem get?_sweep_of_not_mem {bs : List BlockId} {c : BlockId} (h : c ∉ bs) (known : Table Slots) :
    (f.sweep known bs).known.get? c = known.get? c := by
  induction bs generalizing known with
  | nil => rfl
  | cons b bs ih =>
    rw [List.mem_cons, not_or] at h
    rw [known_sweep_cons, ih h.2, get?_visit_of_ne h.1]

theorem sweep_invariant {P : Table Slots → Prop} (hvisit : ∀ known b, P known → P (f.visit known b))
    {known : Table Slots} (h : P known) (bs : List BlockId) : P (f.sweep known bs).known := by
  rw [known_sweep]
  induction bs generalizing known with
  | nil => exact h
  | cons b bs ih => exact ih (hvisit known b h)

/-- What holds of the empty table and is kept by every visit holds of what solving ends in. -/
theorem solve_invariant {P : Table Slots → Prop} (hempty : P .empty)
    (hvisit : ∀ known b, P known → P (f.visit known b)) : P f.solve.known := by
  unfold solve
  generalize f.roundBound = bound
  suffices h : ∀ known, P known → P (f.solveWithin bound known).known from h _ hempty
  induction bound with
  | zero => exact fun known h => h
  | succ bound ih =>
    intro known h
    have hs := sweep_invariant hvisit h f.solvingOrder
    unfold solveWithin
    simp only
    split
    · exact hs
    · exact ih _ hs

/-! ## Climbing -/

/-- Everything known in one table is known in another, or more. -/
def KnownLe (known known' : Table Slots) : Prop :=
  ∀ b l, known.get? b = some l → ∃ l', known'.get? b = some l' ∧ l ≤ l'

theorem slotsAtHead_mono {known known' : Table Slots} (h : KnownLe known known') (b : BlockId) :
    f.slotsAtHead known b ≤ f.slotsAtHead known' b := by
  unfold slotsAtHead
  rw [Slots.joinAll_le_iff]
  intro l hl
  obtain ⟨p, hp, hpl⟩ := List.mem_filterMap.1 hl
  obtain ⟨l', hl', hle⟩ := h p l hpl
  exact hle.trans (Slots.le_joinAll (List.mem_filterMap.2 ⟨p, hp, hl'⟩))

theorem slotsAtEnd?_mono {known known' : Table Slots} (h : KnownLe known known') {b : BlockId} {l : Slots}
    (hl : f.slotsAtEnd? known b = some l) : ∃ l', f.slotsAtEnd? known' b = some l' ∧ l ≤ l' := by
  obtain ⟨block, hb, rfl⟩ := slotsAtEnd?_eq_some_iff.1 hl
  exact ⟨_, slotsAtEnd?_eq_some_iff.2 ⟨block, hb, rfl⟩,
    Slots.transfer_mono f block.instrs (slotsAtHead_mono h b)⟩

/-- What is known on the way up: no more than a visit would find, and only of slots that the function
makes. -/
structure Climbing (f : Func) (known : Table Slots) : Prop where
  below : ∀ b l, known.get? b = some l → ∃ l', f.slotsAtEnd? known b = some l' ∧ l ≤ l'
  tracks : ∀ b l, known.get? b = some l → l.TracksIn f.madeSlots

theorem climbing_empty : f.Climbing .empty := by
  constructor <;> intro b l h <;> rw [Table.get?_empty] at h <;> cases h

theorem mem_madeSlots {b : BlockId} {block : Block} (hb : f.blocks.get? b = some block) {i : Instr}
    (hi : i ∈ block.instrs) {x : LocalId} (hx : i.slot? = some x) : x ∈ f.madeSlots := by
  unfold madeSlots instrs
  rw [List.mem_eraseDups, List.mem_filterMap]
  exact ⟨i, List.mem_flatMap.2 ⟨block, Table.mem_values.2 ⟨b, hb⟩, hi⟩, hx⟩

theorem tracksIn_slotsAtHead {known : Table Slots} (h : f.Climbing known) (b : BlockId) :
    (f.slotsAtHead known b).TracksIn f.madeSlots := by
  apply Slots.tracksIn_joinAll
  intro l hl
  obtain ⟨p, -, hp⟩ := List.mem_filterMap.1 hl
  exact h.tracks p l hp

theorem tracksIn_slotsAtEnd {known : Table Slots} (h : f.Climbing known) {b : BlockId} {l : Slots}
    (hl : f.slotsAtEnd? known b = some l) : l.TracksIn f.madeSlots := by
  obtain ⟨block, hb, rfl⟩ := slotsAtEnd?_eq_some_iff.1 hl
  exact Slots.tracksIn_transfer f (fun i hi x hx => mem_madeSlots hb hi hx) (tracksIn_slotsAtHead h b)

theorem knownLe_visit {known : Table Slots} (h : f.Climbing known) (b : BlockId) :
    KnownLe known (f.visit known b) := by
  intro c l hl
  cases hb : f.slotsAtEnd? known b with
  | none => exact ⟨l, by rw [visit_of_none hb]; exact hl, le_refl l⟩
  | some l' =>
    rw [get?_visit hb]
    split
    · rename_i hc
      subst hc
      obtain ⟨l'', hl'', hle⟩ := h.below c l hl
      rw [hb] at hl''; cases hl''
      exact ⟨l', rfl, hle⟩
    · exact ⟨l, hl, le_refl l⟩

/-- A visit climbs: what it finds now a later visit finds again, or more. -/
theorem climbing_visit {known : Table Slots} (h : f.Climbing known) (b : BlockId) :
    f.Climbing (f.visit known b) := by
  have hle := knownLe_visit h b
  cases hb : f.slotsAtEnd? known b with
  | none => rw [visit_of_none hb]; exact h
  | some l =>
    constructor
    · intro c l' hl'
      rw [get?_visit hb] at hl'
      split at hl'
      · rename_i hc
        cases hl'; subst hc
        exact slotsAtEnd?_mono hle hb
      · obtain ⟨m, hm, hlm⟩ := h.below c l' hl'
        obtain ⟨m', hm', hmm⟩ := slotsAtEnd?_mono hle hm
        exact ⟨m', hm', hlm.trans hmm⟩
    · intro c l' hl'
      rw [get?_visit hb] at hl'
      split at hl'
      · cases hl'; exact tracksIn_slotsAtEnd h hb
      · exact h.tracks c l' hl'

theorem climbing_solve : f.Climbing f.solve.known :=
  solve_invariant climbing_empty fun _ b h => climbing_visit h b

/-! ## The bound -/

/-- How far a block has climbed: one step to become known, then as far as its slots stand. -/
def climbedAt (f : Func) (known : Table Slots) (b : BlockId) : Nat :=
  match known.get? b with
  | some l => 1 + l.rank f.madeSlots
  | none => 0

/-- How far all blocks have climbed. -/
def climbed (f : Func) (known : Table Slots) : Nat := (f.blocks.keys.map (f.climbedAt known)).sum

theorem climbed_le (known : Table Slots) :
    f.climbed known ≤ f.blocks.size * (1 + 2 * f.madeSlots.length) := by
  unfold climbed
  calc (f.blocks.keys.map (f.climbedAt known)).sum
      ≤ (f.blocks.keys.map fun _ => 1 + 2 * f.madeSlots.length).sum := by
        refine List.sum_le_sum fun b _ => ?_
        unfold climbedAt
        cases known.get? b with
        | none => exact Nat.zero_le _
        | some l => exact Nat.add_le_add_left (Slots.rank_le _ l) 1
    _ = f.blocks.size * (1 + 2 * f.madeSlots.length) := by
        rw [List.map_const', List.sum_replicate, Nat.nsmul_eq_mul, Table.size_eq_length_keys]

theorem climbedAt_mono {known known' : Table Slots} (h : KnownLe known known') (b : BlockId) :
    f.climbedAt known b ≤ f.climbedAt known' b := by
  unfold climbedAt
  cases hb : known.get? b with
  | none => exact Nat.zero_le _
  | some l =>
    obtain ⟨l', hl', hle⟩ := h b l hb
    rw [hl']
    exact Nat.add_le_add_left (Slots.rank_mono _ hle) 1

/-- A visit that changes a block climbs. -/
theorem climbed_visit_lt {known : Table Slots} (h : f.Climbing known) {b : BlockId} {l : Slots}
    (hb : f.slotsAtEnd? known b = some l) (hne : known.get? b ≠ some l) :
    f.climbed known < f.climbed (f.visit known b) := by
  obtain ⟨block, hblock, -⟩ := slotsAtEnd?_eq_some_iff.1 hb
  refine List.sum_lt_sum _ _ (fun c _ => climbedAt_mono (knownLe_visit h b) c)
    ⟨b, Table.mem_keys.2 ⟨block, hblock⟩, ?_⟩
  unfold climbedAt
  rw [get?_visit hb, if_pos rfl]
  cases hk : known.get? b with
  | none => simp only; omega
  | some l₀ =>
    obtain ⟨l', hl', hle⟩ := h.below b l₀ hk
    rw [hb] at hl'; cases hl'
    have hlt := Slots.rank_lt (tracksIn_slotsAtEnd h hb) hle fun he => hne (by rw [hk, he])
    simp only; omega

/-- Every change that a sweep makes climbs a step. -/
theorem climbed_sweep {known : Table Slots} (h : f.Climbing known) (bs : List BlockId) :
    f.climbed known + (f.sweep known bs).changes.length ≤ f.climbed (f.sweep known bs).known := by
  induction bs generalizing known with
  | nil => exact le_refl _
  | cons b bs ih =>
    cases hb : f.slotsAtEnd? known b with
    | none => rw [sweep_cons_of_none hb]; exact ih h
    | some l =>
      by_cases hk : known.get? b = some l
      · rw [sweep_cons_of_same hb hk]; exact ih h
      · rw [sweep_cons_of_change hb hk]
        have hlt := climbed_visit_lt h hb hk
        have hrest := ih (climbing_visit h b)
        simp only [List.length_cons]
        omega

/-! ## The solution -/

/-- A visit of any block finds what is known already. -/
def Settled (f : Func) (known : Table Slots) : Prop :=
  ∀ b l, f.slotsAtEnd? known b = some l → known.get? b = some l

theorem settled_of_sweep {known : Table Slots} {bs : List BlockId}
    (h : (f.sweep known bs).changes = []) : (f.sweep known bs).known = known ∧
      ∀ b ∈ bs, ∀ l, f.slotsAtEnd? known b = some l → known.get? b = some l := by
  induction bs with
  | nil => exact ⟨rfl, fun b hb => absurd hb List.not_mem_nil⟩
  | cons b bs ih =>
    cases hb : f.slotsAtEnd? known b with
    | none =>
      rw [sweep_cons_of_none hb] at h ⊢
      obtain ⟨hknown, hbs⟩ := ih h
      refine ⟨hknown, List.forall_mem_cons.2 ⟨fun l hl => ?_, hbs⟩⟩
      rw [hb] at hl; cases hl
    | some l =>
      by_cases hk : known.get? b = some l
      · rw [sweep_cons_of_same hb hk] at h ⊢
        obtain ⟨hknown, hbs⟩ := ih h
        refine ⟨hknown, List.forall_mem_cons.2 ⟨fun l' hl' => ?_, hbs⟩⟩
        rw [hb] at hl'; cases hl'; exact hk
      · rw [sweep_cons_of_change hb hk] at h
        cases h

theorem mem_solvingOrder {b : BlockId} {block : Block} (h : f.blocks.get? b = some block) :
    b ∈ f.solvingOrder := by
  unfold solvingOrder
  rw [List.mem_append, List.mem_filter]
  by_cases hb : b ∈ f.flowOrder
  · exact .inl hb
  · exact .inr ⟨Table.mem_keys.2 ⟨block, h⟩, by simpa using hb⟩

/-- Sweeps in the order of solving lead from one table to another, so many of them: all but the last change
something, and the last changes nothing. -/
inductive Sweeps (f : Func) : Table Slots → Nat → Table Slots → Prop where
  | last {known : Table Slots} :
    (f.sweep known f.solvingOrder).changes = [] → Sweeps f known 1 (f.sweep known f.solvingOrder).known
  | again {known known' : Table Slots} {rounds : Nat} :
    (f.sweep known f.solvingOrder).changes ≠ [] →
    Sweeps f (f.sweep known f.solvingOrder).known rounds known' → Sweeps f known (rounds + 1) known'

/-- The last of the sweeps passed over every block and changed nothing. -/
theorem Sweeps.settled {known known' : Table Slots} {rounds : Nat} (h : f.Sweeps known rounds known') :
    f.Settled known' := by
  induction h with
  | last hc =>
    obtain ⟨hknown, hsettled⟩ := settled_of_sweep hc
    rw [hknown]
    intro b l hl
    obtain ⟨block, hblock, -⟩ := slotsAtEnd?_eq_some_iff.1 hl
    exact hsettled b (mem_solvingOrder hblock) l hl
  | again _ _ ih => exact ih

/-- If more sweeps are allowed than there are steps left to climb, the bound is not what ends the loop. -/
theorem sweeps_solveWithin {known : Table Slots} (h : f.Climbing known) {bound : Nat}
    (hbound : f.blocks.size * (1 + 2 * f.madeSlots.length) < f.climbed known + bound) :
    f.Sweeps known (f.solveWithin bound known).rounds (f.solveWithin bound known).known := by
  induction bound generalizing known with
  -- With no sweep left the table would stand higher than it can.
  | zero =>
    have := f.climbed_le known
    omega
  | succ bound ih =>
    unfold solveWithin
    simp only
    split
    · rename_i hc
      exact .last (List.isEmpty_iff.1 hc)
    · rename_i hc
      have hne : (f.sweep known f.solvingOrder).changes ≠ [] := fun he => hc (by rw [he]; rfl)
      have hclimb := climbed_sweep h f.solvingOrder
      have hpos := List.length_pos_of_ne_nil hne
      have hnext : f.Climbing (f.sweep known f.solvingOrder).known :=
        sweep_invariant (P := f.Climbing) (fun _ b h => climbing_visit h b) h _
      exact .again hne (ih hnext (by omega))

theorem sweeps_solve (f : Func) : f.Sweeps .empty f.solve.rounds f.solve.known := by
  refine sweeps_solveWithin climbing_empty ?_
  unfold roundBound
  omega

theorem solve_settled : f.Settled f.solve.known := f.sweeps_solve.settled

/-- Over a solution a sweep changes nothing and records what each of its blocks reads. -/
theorem sweep_of_settled {known : Table Slots} (h : f.Settled known) (bs : List BlockId) :
    f.sweep known bs = ⟨known, [], bs.flatMap (f.badReadsIn known)⟩ := by
  induction bs with
  | nil => rfl
  | cons b bs ih =>
    cases hb : f.slotsAtEnd? known b with
    | none => rw [sweep_cons_of_none hb, ih, List.flatMap_cons, badReadsIn_of_none hb, List.nil_append]
    | some l => rw [sweep_cons_of_same hb (h b l hb), ih, List.flatMap_cons]

end SSALint.Func
