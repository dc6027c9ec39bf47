/-
What can be asked of a table, with what it answers. A caller has a state of its own, which the functions that it
hands over read and change; so it shows in the answers when such a function is called and with what. Main
statements: a walk visits what is listed, in its order (`walk_visits`); one whose visits leave the caller's state
alone maps or filters (`walk_map`, `walk_filter`).
-/
import SSALint.Table

namespace SSALint

/-- A request of a caller with states `σ`. A function that is handed over is told the caller's state last and
answers what becomes of it. -/
inductive Table.Request (σ α : Type) where
  | insert (key : Nat) (value : α)
  | insertKeyed (value : α)
  | push (value : α)
  | pushWith (make : Nat → σ → α × σ)
  | get (key : Nat)
  /-- Changes the value of a key, if it holds one. -/
  | change (key : Nat) (change : α → σ → α × σ)
  | contains (key : Nat)
  | remove (key : Nat)
  /-- The value of a key that has to hold one. -/
  | index (key : Nat)
  /-- Changes the value of a key that has to hold one. -/
  | changeIndex (key : Nat) (change : α → σ → α × σ)
  | size
  | isEmpty
  | keys
  | values
  | changeValues (change : α → σ → α × σ)
  | entries
  | changeEntries (change : Nat → α → σ → α × σ)
  /-- Asks of every entry whether it stays; the value may be changed meanwhile. -/
  | retain (visit : Nat → α → σ → (Bool × α) × σ)
  /-- Starts anew with a list of pairs. -/
  | collect (pairs : List (Nat × α))

/-- An answer to a request. -/
inductive Table.Answer (α : Type) where
  | done
  | key (key : Nat)
  | value (value : Option α)
  | indexed (value : Except Fault α)
  | truth (value : Bool)
  | count (count : Nat)
  | keys (keys : List Nat)
  | values (values : List α)
  | entries (entries : List (Nat × α))

namespace Table

variable {σ α τ : Type}

/-! ## Walks -/

/-- Visits the values in a row of slots from a key on; each is kept, changed or dropped. -/
def walkFrom (visit : Nat → α → σ → Option α × σ) : Nat → List (Option α) → σ → List (Option α) × σ
  | _, [], s => ([], s)
  | k, none :: slots, s =>
    let rest := walkFrom visit (k + 1) slots s
    (none :: rest.1, rest.2)
  | k, some v :: slots, s =>
    let slot := visit k v s
    let rest := walkFrom visit (k + 1) slots slot.2
    (slot.1 :: rest.1, rest.2)

/-- Visits the entries in the order of their keys; each value is kept, changed or dropped. -/
def walk (visit : Nat → α → σ → Option α × σ) (t : Table α) (s : σ) : Table α × σ :=
  let row := walkFrom visit 0 t.slots s
  (⟨row.1⟩, row.2)

/-- A walk visits the entries of the listing in its order. -/
theorem walk_visits (visit : Nat → α → σ → Option α × σ) (t : Table α) (s : σ) :
    (t.walk visit s).2 = t.toList.foldl (fun s entry => (visit entry.1 entry.2 s).2) s := by
  unfold walk toList
  generalize 0 = k
  generalize t.slots = slots
  induction slots generalizing k s with
  | nil => rfl
  | cons slot slots ih =>
    cases slot with
    | none => exact ih s (k + 1)
    | some v => exact ih (visit k v s).2 (k + 1)

theorem walkFrom_filterMap (f : Nat → α → Option α) (k : Nat) (slots : List (Option α)) (s : σ) :
    walkFrom (fun k v s => (f k v, s)) k slots s = (slots.mapIdx fun i slot => slot.bind (f (k + i)), s) := by
  induction slots generalizing k with
  | nil => rfl
  | cons slot slots ih =>
    cases slot <;> simp [walkFrom, ih, List.mapIdx_cons, Nat.add_comm, Nat.add_left_comm]

/-- A walk that changes every value maps. -/
theorem walk_map (f : Nat → α → α) (t : Table α) (s : σ) :
    t.walk (fun k v s => (some (f k v), s)) s = (t.mapWithKey f, s) := by
  unfold walk mapWithKey
  simp only [walkFrom_filterMap, Nat.zero_add, Prod.mk.injEq, Table.mk.injEq, and_true]
  congr 1
  funext k slot
  cases slot <;> rfl

/-- A walk that keeps or drops every value filters. -/
theorem walk_filter (p : Nat → α → Bool) (t : Table α) (s : σ) :
    t.walk (fun k v s => (if p k v then some v else none, s)) s = (t.filter p, s) := by
  unfold walk filter
  simp only [walkFrom_filterMap, Nat.zero_add, Prod.mk.injEq, Table.mk.injEq, and_true]
  congr 1
  funext k slot
  cases slot <;> rfl

/-! ## Answers -/

/-- What a table answers to a request, what becomes of it, and what becomes of the caller's state. -/
def perform [Keyed α] (request : Request σ α) (t : Table α) (s : σ) : Answer α × Table α × σ :=
  match request with
  | .insert k v => (.value (t.get? k), t.insert k v, s)
  | .insertKeyed v => (.value (t.get? (Keyed.key v)), t.insertKeyed v, s)
  | .push v => (.key t.next, t.push v, s)
  | .pushWith make =>
    let made := make t.next s
    (.key t.next, t.pushWith fun _ => made.1, made.2)
  | .get k => (.value (t.get? k), t, s)
  | .change k change =>
    match t.get? k with
    | none => (.value none, t, s)
    | some v =>
      let changed := change v s
      (.value (some changed.1), t.modify k fun _ => changed.1, changed.2)
  | .contains k => (.truth (t.contains k), t, s)
  | .remove k => (.value (t.get? k), t.erase k, s)
  | .index k => (.indexed (t.get k), t, s)
  | .changeIndex k change =>
    match t.get k with
    | .error fault => (.indexed (.error fault), t, s)
    | .ok v =>
      let changed := change v s
      match t.replace k changed.1 with
      | .error fault => (.indexed (.error fault), t, s)
      | .ok t => (.indexed (.ok changed.1), t, changed.2)
  | .size => (.count t.size, t, s)
  | .isEmpty => (.truth t.isEmpty, t, s)
  | .keys => (.keys t.keys, t, s)
  | .values => (.values t.values, t, s)
  | .changeValues change =>
    let walked := t.walk (fun _ v s => ((change v s).map some id)) s
    (.done, walked.1, walked.2)
  | .entries => (.entries t.toList, t, s)
  | .changeEntries change =>
    let walked := t.walk (fun k v s => ((change k v s).map some id)) s
    (.done, walked.1, walked.2)
  | .retain visit =>
    let walked := t.walk (fun k v s => ((visit k v s).map (fun (keep, v) => if keep then some v else none) id)) s
    (.done, walked.1, walked.2)
  | .collect pairs => (.done, .ofList pairs, s)

/-- Performs requests one after the other. -/
def performAll (perform : Request σ α → τ → σ → Answer α × τ × σ) : List (Request σ α) → τ → σ → List (Answer α) × τ × σ
  | [], t, s => ([], t, s)
  | request :: requests, t, s =>
    let first := perform request t s
    let rest := performAll perform requests first.2.1 first.2.2
    (first.1 :: rest.1, rest.2)

end Table
end SSALint
