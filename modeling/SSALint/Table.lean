/-
Tables keyed by small numbers. A table is a row of slots; slot `k` holds the value of key `k` or is
empty. Slots are never closed up, so removing a key leaves every other key valid, and the number of
slots is a high-water mark: `push` takes a key that the table has never had.
-/
import SSALint.Fault

namespace SSALint

/-- A finite map from numbers to values that remembers how many keys it has handed out. -/
structure Table (α : Type) where
  slots : List (Option α) := []
deriving DecidableEq, Repr

/-- Values that know the key they are kept under. -/
class Keyed (α : Type) where
  key : α → Nat

namespace Table

variable {α β : Type}

/-- The table without keys, none handed out so far. -/
def empty : Table α := ⟨[]⟩

instance : Inhabited (Table α) := ⟨empty⟩

/-- The least key above every key ever held; `push` uses it next. -/
def next (t : Table α) : Nat := t.slots.length

/-! ## Reading -/

/-- The value of a key, if it holds one. -/
def get? (t : Table α) (k : Nat) : Option α := t.slots.getD k none

/-- Whether a key holds a value. -/
def contains (t : Table α) (k : Nat) : Bool := (t.get? k).isSome

/-- The value of a key that has to hold one. -/
def get (t : Table α) (k : Nat) : Except Fault α :=
  match t.get? k with
  | some v => .ok v
  | none => .error .absentKey

/-- The values in the order of their keys. -/
def values (t : Table α) : List α := t.slots.filterMap id

/-- The keys with their values, keys ascending. -/
def toList (t : Table α) : List (Nat × α) :=
  t.slots.zipIdx.filterMap fun (slot, k) => slot.map (k, ·)

/-- The keys that hold a value, ascending. -/
def keys (t : Table α) : List Nat := t.toList.map (·.1)

/-- The number of keys that hold a value. -/
def size (t : Table α) : Nat := t.values.length

/-- Whether no key holds a value. -/
def isEmpty (t : Table α) : Bool := t.size == 0

/-! ## Writing -/

/-- Gives `k` the value `v`, with empty slots in between if `k` lies beyond the last one. -/
def insert (t : Table α) (k : Nat) (v : α) : Table α :=
  if k < t.next then ⟨t.slots.set k (some v)⟩
  else ⟨t.slots ++ List.replicate (k - t.next) none ++ [some v]⟩

/-- Inserts a value under the key that it knows. -/
def insertKeyed [Keyed α] (t : Table α) (v : α) : Table α := t.insert (Keyed.key v) v

/-- Appends a value under the key `t.next`. -/
def push (t : Table α) (v : α) : Table α := ⟨t.slots ++ [some v]⟩

/-- Appends a value that is made from its own key. -/
def pushWith (t : Table α) (f : Nat → α) : Table α := t.push (f t.next)

/-- Empties the slot of a key; the slot itself stays. -/
def erase (t : Table α) (k : Nat) : Table α := ⟨t.slots.set k none⟩

/-- Applies `f` to the value of a key, if it holds one. -/
def modify (t : Table α) (k : Nat) (f : α → α) : Table α := ⟨t.slots.modify k (·.map f)⟩

/-- Replaces the value of a key that has to hold one. -/
def replace (t : Table α) (k : Nat) (v : α) : Except Fault (Table α) :=
  if t.contains k then .ok (t.insert k v) else .error .absentKey

/-- Applies `f` to every key and its value. -/
def mapWithKey (f : Nat → α → β) (t : Table α) : Table β :=
  ⟨t.slots.mapIdx fun k slot => slot.map (f k)⟩

/-- Applies `f` to every value. -/
def map (f : α → β) (t : Table α) : Table β := ⟨t.slots.map (·.map f)⟩

/-- Empties the slots whose key and value fail `p`, which is asked in the order of the keys. -/
def filter (p : Nat → α → Bool) (t : Table α) : Table α :=
  ⟨t.slots.mapIdx fun k slot => slot.filter (p k)⟩

/-- The table of a list of pairs; of two values for one key the later one stays. -/
def ofList (pairs : List (Nat × α)) : Table α :=
  pairs.foldl (fun t (k, v) => t.insert k v) empty

/-- The table that holds the values of a list under 0, 1, 2 and so on. -/
def ofValues (vs : List α) : Table α := ⟨vs.map some⟩

/-! ## Text -/

/-- The entries in braces, as in `{0: 5, 2: -1}`; empty slots do not show. -/
def render [ToString α] (t : Table α) : String :=
  "\x7b" ++ ", ".intercalate (t.toList.map fun (k, v) => s!"{k}: {v}") ++ "\x7d"

end Table

end SSALint
