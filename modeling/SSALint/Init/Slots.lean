/-
What is known about the slots of a function at one point: a state for each slot that is tracked
there. Entries ascend by slot, so two of them that say the same are equal. Main statement: reading
after writing, `get?_set`.
-/
import SSALint.Init.State
import SSALint.IR.Operand

namespace SSALint

/-- The states of the tracked slots. -/
structure Slots where
  entries : List (LocalId × InitState) := []
  ascending : entries.Pairwise fun a b => a.1 < b.1 := by simp
deriving DecidableEq, Repr

namespace Slots

/-- No slot is tracked. -/
def empty : Slots := {}

instance : Inhabited Slots := ⟨empty⟩

/-- The number of tracked slots. -/
def size (l : Slots) : Nat := l.entries.length

/-- The state of the first entry for a slot. -/
def stateIn (x : LocalId) : List (LocalId × InitState) → Option InitState
  | [] => none
  | (y, t) :: l => if x = y then some t else stateIn x l

/-- The state of a slot, if it is tracked. -/
def get? (l : Slots) (x : LocalId) : Option InitState := stateIn x l.entries

/-! ## Writing -/

/-- Puts an entry among ascending ones, in the place of an entry of the same slot. -/
def put (x : LocalId) (s : InitState) : List (LocalId × InitState) → List (LocalId × InitState)
  | [] => [(x, s)]
  | (y, t) :: l =>
    if x < y then (x, s) :: (y, t) :: l
    else if x = y then (x, s) :: l
    else (y, t) :: put x s l

theorem mem_put {x : LocalId} {s : InitState} {l : List (LocalId × InitState)}
    {a : LocalId × InitState} (h : a ∈ put x s l) : a = (x, s) ∨ a ∈ l := by
  induction l with
  | nil => simpa [put] using h
  | cons b l ih => grind [put]

theorem ascending_put (x : LocalId) (s : InitState) {l : List (LocalId × InitState)}
    (h : l.Pairwise fun a b => a.1 < b.1) : (put x s l).Pairwise fun a b => a.1 < b.1 := by
  induction l with
  | nil => simp [put]
  | cons b l ih =>
    obtain ⟨hb, hl⟩ := List.pairwise_cons.1 h
    simp only [put]
    split
    · rename_i hx
      refine List.pairwise_cons.2 ⟨fun a ha => ?_, h⟩
      rcases List.mem_cons.1 ha with rfl | ha
      · exact hx
      · exact Nat.lt_trans hx (hb a ha)
    · split
      · rename_i hx
        subst hx
        exact List.pairwise_cons.2 ⟨hb, hl⟩
      · rename_i hlt hne
        refine List.pairwise_cons.2 ⟨fun a ha => ?_, ih hl⟩
        rcases mem_put ha with rfl | ha
        · exact Nat.lt_of_le_of_ne (Nat.le_of_not_lt hlt) (Ne.symm hne)
        · exact hb a ha

theorem stateIn_put (x y : LocalId) (s : InitState) (l : List (LocalId × InitState)) :
    stateIn y (put x s l) = if y = x then some s else stateIn y l := by
  induction l with
  | nil => rfl
  | cons b l ih => grind [put, stateIn]

/-- Tracks a slot in a state, in the place of what was known about it. -/
def set (l : Slots) (x : LocalId) (s : InitState) : Slots :=
  ⟨put x s l.entries, ascending_put x s l.ascending⟩

@[simp] theorem get?_set (l : Slots) (x y : LocalId) (s : InitState) :
    (l.set x s).get? y = if y = x then some s else l.get? y :=
  stateIn_put x y s l.entries

/-- Changes the state of a slot that is tracked; other slots stay untracked. -/
def update (l : Slots) (x : LocalId) (s : InitState) : Slots :=
  if (l.get? x).isSome then l.set x s else l

/-! ## Joining -/

/-- Joins one entry into what is known; an untracked slot counts as `bottom`. -/
def joinEntry (l : Slots) (entry : LocalId × InitState) : Slots :=
  l.set entry.1 (((l.get? entry.1).getD .bottom).join entry.2)

/-- Joins what is known on another path into what is known. -/
def join (l other : Slots) : Slots := other.entries.foldl joinEntry l

/-- What is known where several paths meet. -/
def joinAll (ls : List Slots) : Slots := ls.foldl join empty

/-- The entries of a list of slots with their states; of two for one slot the later one stays. -/
def ofList (entries : List (LocalId × InitState)) : Slots :=
  entries.foldl (fun l e => l.set e.1 e.2) empty

end Slots
end SSALint
