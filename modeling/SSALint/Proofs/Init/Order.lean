/-
The order in which the analysis climbs: more is known to be possible the higher a state stands, and
slots are compared state by state, an untracked slot standing below every state. Joining is the
least upper bound (`join_le_iff`, `joinAll_le_iff`), and over the slots that a function makes the
order has finite height (`rank_lt`, `rank_le`).
-/
import SSALint.Init.Slots
import Mathlib.Order.Basic
import Mathlib.Data.List.Perm.Basic
import Mathlib.Algebra.Order.BigOperators.Group.List
import Mathlib.Algebra.Order.Ring.Nat

namespace SSALint

/-! ## States -/

namespace InitState

instance : PartialOrder InitState where
  le s t := s.join t = t
  le_refl := join_self
  le_trans s t u hst htu := by
    rw [← show t.join u = u from htu, ← join_assoc, show s.join t = t from hst]
  le_antisymm s t hst hts := by
    rw [← show s.join t = t from hst, join_comm]
    exact (show t.join s = s from hts).symm

instance : DecidableLE InitState := fun s t => inferInstanceAs (Decidable (s.join t = t))

theorem le_iff_join_eq {s t : InitState} : s ≤ t ↔ s.join t = t := Iff.rfl

theorem bottom_le (s : InitState) : bottom ≤ s := bottom_join s

theorem le_join_left (s t : InitState) : s ≤ s.join t := by
  rw [le_iff_join_eq, ← join_assoc, join_self]

theorem le_join_right (s t : InitState) : t ≤ s.join t := by
  rw [join_comm]; exact le_join_left t s

theorem join_le {s t u : InitState} (hs : s ≤ u) (ht : t ≤ u) : s.join t ≤ u := by
  rw [le_iff_join_eq] at *
  rw [join_assoc, ht, hs]

/-- Whether some path leaves the slot unassigned survives a join and comes from one of its sides. -/
theorem unassigned_le_join {s t : InitState} :
    unassigned ≤ s.join t ↔ unassigned ≤ s ∨ unassigned ≤ t := by
  cases s <;> cases t <;> decide

/-- How far a state stands above the least one. -/
def rank : InitState → Nat
  | bottom => 0
  | unassigned | assigned => 1
  | top => 2

theorem rank_mono {s t : InitState} (h : s ≤ t) : s.rank ≤ t.rank := by
  revert h; cases s <;> cases t <;> decide

theorem rank_lt {s t : InitState} (h : s ≤ t) (hne : s ≠ t) : s.rank < t.rank := by
  revert h hne; cases s <;> cases t <;> decide

theorem rank_le (s : InitState) : s.rank ≤ 2 := by cases s <;> decide

end InitState

namespace Slots

/-! ## The view of slots -/

theorem stateIn_eq_some_iff {x : LocalId} {s : InitState} {l : List (LocalId × InitState)}
    (h : l.Pairwise fun a b => a.1 < b.1) : stateIn x l = some s ↔ (x, s) ∈ l := by
  induction l with
  | nil => simp [stateIn]
  | cons e l ih =>
    obtain ⟨y, t⟩ := e
    obtain ⟨hy, hl⟩ := List.pairwise_cons.1 h
    simp only [stateIn, List.mem_cons, Prod.mk.injEq]
    split
    · rename_i hx
      subst hx
      constructor
      · intro hs; cases hs; exact .inl ⟨rfl, rfl⟩
      · rintro (⟨-, rfl⟩ | hs)
        · rfl
        · have := hy _ hs; simp at this
    · rename_i hx
      rw [ih hl]
      constructor
      · exact .inr
      · rintro (⟨rfl, -⟩ | hs)
        · exact absurd rfl hx
        · exact hs

theorem mem_entries {l : Slots} {x : LocalId} {s : InitState} : (x, s) ∈ l.entries ↔ l.get? x = some s :=
  (stateIn_eq_some_iff l.ascending).symm

/-- Slots that track the same states are equal. -/
theorem ext {l l' : Slots} (h : ∀ x, l.get? x = l'.get? x) : l = l' := by
  have hmem : ∀ e, e ∈ l.entries ↔ e ∈ l'.entries := by
    rintro ⟨x, s⟩; rw [mem_entries, mem_entries, h]
  have hnodup : ∀ m : Slots, m.entries.Nodup := fun m =>
    m.ascending.imp fun hlt he => by subst he; exact Nat.lt_irrefl _ hlt
  have hperm := (List.perm_ext_iff_of_nodup (hnodup l) (hnodup l')).2 hmem
  have heq : l.entries = l'.entries :=
    hperm.eq_of_pairwise (fun a b _ _ hab hba => absurd hba (Nat.lt_asymm hab)) l.ascending l'.ascending
  cases l; cases l'; cases heq; rfl

@[simp] theorem get?_empty (x : LocalId) : empty.get? x = none := rfl

theorem get?_joinEntry (l : Slots) (e : LocalId × InitState) (x : LocalId) :
    (l.joinEntry e).get? x =
      if x = e.1 then some (((l.get? x).getD .bottom).join e.2) else l.get? x := by
  unfold joinEntry
  rw [get?_set]
  split
  · rename_i hx; subst hx; rfl
  · rfl

theorem get?_foldl_joinEntry {entries : List (LocalId × InitState)}
    (h : entries.Pairwise fun a b => a.1 < b.1) (l : Slots) (x : LocalId) :
    (entries.foldl joinEntry l).get? x =
      match stateIn x entries with
      | some s => some (((l.get? x).getD .bottom).join s)
      | none => l.get? x := by
  induction entries generalizing l with
  | nil => rfl
  | cons e entries ih =>
    obtain ⟨y, t⟩ := e
    obtain ⟨hy, hl⟩ := List.pairwise_cons.1 h
    rw [List.foldl_cons, ih hl, get?_joinEntry]
    simp only [stateIn]
    by_cases hx : x = y
    · subst hx
      have hnone : stateIn x entries = none := by
        cases hs : stateIn x entries with
        | none => rfl
        | some s =>
          have := hy _ ((stateIn_eq_some_iff hl).1 hs)
          simp at this
      simp [hnone]
    · simp [hx]

/-- Joining leaves what the other side does not track and joins the state of what it does. -/
theorem get?_join (l other : Slots) (x : LocalId) :
    (l.join other).get? x =
      match other.get? x with
      | some s => some (((l.get? x).getD .bottom).join s)
      | none => l.get? x :=
  get?_foldl_joinEntry other.ascending l x

/-! ## The order of slots -/

instance : PartialOrder Slots where
  le l l' := ∀ x s, l.get? x = some s → ∃ t, l'.get? x = some t ∧ s ≤ t
  le_refl l x s hs := ⟨s, hs, le_refl s⟩
  le_trans l l' l'' h h' x s hs := by
    obtain ⟨t, ht, hst⟩ := h x s hs
    obtain ⟨u, hu, htu⟩ := h' x t ht
    exact ⟨u, hu, hst.trans htu⟩
  le_antisymm l l' h h' := by
    apply ext
    intro x
    cases hs : l.get? x with
    | some s =>
      obtain ⟨t, ht, hst⟩ := h x s hs
      obtain ⟨u, hu, htu⟩ := h' x t ht
      rw [hs] at hu
      cases hu
      rw [ht, le_antisymm hst htu]
    | none =>
      cases ht : l'.get? x with
      | none => rfl
      | some t =>
        obtain ⟨u, hu, -⟩ := h' x t ht
        rw [hs] at hu
        cases hu

theorem empty_le (l : Slots) : empty ≤ l := by
  intro x s hs; rw [get?_empty] at hs; cases hs

theorem le_join_left (l other : Slots) : l ≤ l.join other := by
  intro x s hs
  rw [get?_join, hs]
  cases other.get? x with
  | none => exact ⟨s, rfl, le_refl s⟩
  | some t => exact ⟨_, rfl, InitState.le_join_left s t⟩

theorem le_join_right (l other : Slots) : other ≤ l.join other := by
  intro x s hs
  rw [get?_join, hs]
  exact ⟨_, rfl, InitState.le_join_right _ s⟩

theorem join_le {l other u : Slots} (hl : l ≤ u) (ho : other ≤ u) : l.join other ≤ u := by
  intro x s hs
  rw [get?_join] at hs
  cases hx : other.get? x with
  | none =>
    rw [hx] at hs
    exact hl x s hs
  | some t =>
    rw [hx] at hs
    cases hs
    obtain ⟨v, hv, htv⟩ := ho x t hx
    refine ⟨v, hv, InitState.join_le ?_ htv⟩
    cases hx' : l.get? x with
    | none => exact InitState.bottom_le v
    | some s =>
      obtain ⟨w, hw, hsw⟩ := hl x s hx'
      rw [hv] at hw
      cases hw
      exact hsw

/-- A join is below whatever both sides are below. -/
theorem join_le_iff {l other u : Slots} : l.join other ≤ u ↔ l ≤ u ∧ other ≤ u :=
  ⟨fun h => ⟨(le_join_left l other).trans h, (le_join_right l other).trans h⟩, fun h => join_le h.1 h.2⟩

/-- The join of several slots is below whatever each of them is below. -/
theorem joinAll_le_iff {ls : List Slots} {u : Slots} : joinAll ls ≤ u ↔ ∀ l ∈ ls, l ≤ u := by
  unfold joinAll
  suffices h : ∀ l₀, ls.foldl join l₀ ≤ u ↔ l₀ ≤ u ∧ ∀ l ∈ ls, l ≤ u by
    rw [h]; exact and_iff_right (empty_le u)
  induction ls with
  | nil => simp
  | cons l ls ih =>
    intro l₀
    rw [List.foldl_cons, ih, join_le_iff, List.forall_mem_cons, and_assoc]

theorem le_joinAll {ls : List Slots} {l : Slots} (h : l ∈ ls) : l ≤ joinAll ls :=
  joinAll_le_iff.1 (le_refl _) l h

/-- A property that empty slots lack, and that two joined ones have just if one of them has it, is one that a join has
just if one of its members has it. -/
theorem joinAll_iff_exists {P : Slots → Prop} (hempty : ¬ P empty)
    (hjoin : ∀ l other, P (l.join other) ↔ P l ∨ P other) {ls : List Slots} :
    P (joinAll ls) ↔ ∃ l ∈ ls, P l := by
  unfold joinAll
  suffices h : ∀ l₀, P (ls.foldl join l₀) ↔ P l₀ ∨ ∃ l ∈ ls, P l by
    rw [h]; exact or_iff_right hempty
  induction ls with
  | nil => simp
  | cons l ls ih =>
    intro l₀
    rw [List.foldl_cons, ih, hjoin, List.exists_mem_cons_iff, or_assoc]

/-! ## Height -/

/-- Only the given slots are tracked, none of them in the least state. -/
structure TracksIn (made : List LocalId) (l : Slots) : Prop where
  mem : ∀ x s, l.get? x = some s → x ∈ made
  ne_bottom : ∀ x, l.get? x ≠ some .bottom

theorem tracksIn_empty (made : List LocalId) : empty.TracksIn made := by
  constructor
  · intro x s hs; rw [get?_empty] at hs; cases hs
  · intro x hs; rw [get?_empty] at hs; cases hs

theorem tracksIn_join {made : List LocalId} {l other : Slots} (hl : l.TracksIn made)
    (ho : other.TracksIn made) : (l.join other).TracksIn made := by
  constructor
  · intro x s hs
    rw [get?_join] at hs
    cases hx : other.get? x with
    | none => rw [hx] at hs; exact hl.mem x s hs
    | some t => exact ho.mem x t hx
  · intro x hs
    rw [get?_join] at hs
    cases hx : other.get? x with
    | none => rw [hx] at hs; exact hl.ne_bottom x hs
    | some t =>
      rw [hx] at hs
      have hle := InitState.le_join_right ((l.get? x).getD .bottom) t
      rw [Option.some.inj hs] at hle
      exact ho.ne_bottom x (by rw [hx, le_antisymm hle (InitState.bottom_le t)])

theorem tracksIn_joinAll {made : List LocalId} {ls : List Slots} (h : ∀ l ∈ ls, l.TracksIn made) :
    (joinAll ls).TracksIn made := by
  unfold joinAll
  suffices hj : ∀ l₀ : Slots, l₀.TracksIn made → (ls.foldl join l₀).TracksIn made from
    hj empty (tracksIn_empty made)
  induction ls with
  | nil => exact fun l₀ h₀ => h₀
  | cons l ls ih =>
    intro l₀ h₀
    obtain ⟨hl, hls⟩ := List.forall_mem_cons.1 h
    exact ih hls _ (tracksIn_join h₀ hl)

/-- How far slots stand above the empty ones, counted over the given slots. -/
def rank (made : List LocalId) (l : Slots) : Nat :=
  (made.map fun x => ((l.get? x).getD .bottom).rank).sum

theorem rank_le (made : List LocalId) (l : Slots) : l.rank made ≤ 2 * made.length := by
  unfold rank
  calc (made.map fun x => ((l.get? x).getD .bottom).rank).sum
      ≤ (made.map fun _ => 2).sum := List.sum_le_sum fun x _ => InitState.rank_le _
    _ = 2 * made.length := by rw [List.map_const', List.sum_replicate, Nat.nsmul_eq_mul, Nat.mul_comm]

theorem getD_le {l l' : Slots} (h : l ≤ l') (x : LocalId) :
    (l.get? x).getD .bottom ≤ (l'.get? x).getD .bottom := by
  cases hs : l.get? x with
  | none => exact InitState.bottom_le _
  | some s =>
    obtain ⟨t, ht, hst⟩ := h x s hs
    rw [ht]; exact hst

theorem rank_mono (made : List LocalId) {l l' : Slots} (h : l ≤ l') : l.rank made ≤ l'.rank made :=
  List.sum_le_sum fun x _ => InitState.rank_mono (getD_le h x)

/-- Slots that are strictly above others have a greater rank: some slot is tracked in a higher state. -/
theorem rank_lt {made : List LocalId} {l l' : Slots} (ht' : l'.TracksIn made) (h : l ≤ l') (hne : l ≠ l') :
    l.rank made < l'.rank made := by
  obtain ⟨x, hx⟩ : ∃ x, l.get? x ≠ l'.get? x := by
    by_contra hall
    push Not at hall
    exact hne (ext hall)
  cases hs' : l'.get? x with
  | none =>
    cases hs : l.get? x with
    | none => exact absurd (hs.trans hs'.symm) hx
    | some s =>
      obtain ⟨t, ht, -⟩ := h x s hs
      rw [hs'] at ht; cases ht
  | some t =>
    refine List.sum_lt_sum _ _ (fun y _ => InitState.rank_mono (getD_le h y)) ⟨x, ht'.mem x t hs', ?_⟩
    refine InitState.rank_lt (getD_le h x) fun heq => hx ?_
    rw [hs'] at heq ⊢
    cases hs : l.get? x with
    | some s => rw [hs] at heq; exact congrArg some heq
    | none =>
      -- an untracked slot reads as the least state, which no tracked one is in
      rw [hs] at heq
      exact absurd (hs'.trans (congrArg some heq.symm)) (ht'.ne_bottom x)

end Slots
end SSALint
