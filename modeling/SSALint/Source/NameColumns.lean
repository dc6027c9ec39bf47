/-
Name tables in columns. What is known of a name stands at its id in three columns that grow together: the name,
the place of its first mention and whether it is defined. The ids are kept under the names, and the order of the
definitions beside them. A column is read and written at positions that it has to have, so a call can end in a
fault, which is told apart from an error in the text.
-/
import SSALint.Fault
import SSALint.Source.NameTable

namespace SSALint.Source

/-! ## Columns -/

/-- The entry at a position that a column has to have. -/
def entry {α : Type} (column : List α) (position : Nat) : Except Fault α :=
  match column[position]? with
  | some a => .ok a
  | none => .error (.outOfBounds column.length position)

/-- Writes over the entry at a position that a column has to have. -/
def setEntry {α : Type} (column : List α) (position : Nat) (a : α) : Except Fault (List α) :=
  if position < column.length then .ok (column.set position a)
  else .error (.outOfBounds column.length position)

/-! ## Tables -/

/-- A name table with a column for each thing that is known of a name. -/
structure NameColumns where
  /-- The ids under the names, the latest one first. -/
  ids : List (String × Nat) := []
  names : List String := []
  /-- The text from the first mention on. -/
  firstUse : List (List Char) := []
  defined : List Bool := []
  /-- The ids of the defined names in the order of their definitions. -/
  order : List Nat := []
deriving DecidableEq, Repr

namespace NameColumns

/-- Mentions a name: a new one gets an entry in every column, and its id is answered. -/
def mention (t : NameColumns) (m : Mention) : NameColumns × Nat :=
  match t.ids.lookup m.name with
  | some id => (t, id)
  | none =>
    let id := t.names.length
    ({ t with
        ids := (m.name, id) :: t.ids
        names := t.names ++ [m.name]
        firstUse := t.firstUse ++ [m.rest]
        defined := t.defined ++ [false] }, id)

/-- Defines a name and answers its id. A name that is defined already is refused; it was mentioned all the same. -/
def define (t : NameColumns) (kind : NameKind) (m : Mention) : Except Fault (Except NameError Nat × NameColumns) := do
  let (t, id) := t.mention m
  if ← entry t.defined id then return (.error (.redefinition kind m), t)
  let defined ← setEntry t.defined id true
  return (.ok id, { t with defined, order := t.order ++ [id] })

/-- The name of an id that was answered. -/
def name (t : NameColumns) (id : Nat) : Except Fault String := entry t.names id

/-- Whether no name was mentioned. -/
def isEmpty (t : NameColumns) : Bool := t.names.isEmpty

/-- The first one of some ids that has no definition. -/
def undefined? (t : NameColumns) : List Nat → Except Fault (Option Nat)
  | [] => return none
  | id :: ids => do if ← entry t.defined id then t.undefined? ids else return some id

/-- The ids in the order of definition, provided that every name was defined. -/
def finish (t : NameColumns) (kind : NameKind) : Except Fault (Except NameError (List Nat)) := do
  match ← t.undefined? (List.range t.names.length) with
  | some id =>
    let name ← entry t.names id
    return .error (.undefined kind ⟨name, ← entry t.firstUse id⟩)
  | none => return .ok t.order

/-- What a table answers to a call, and what becomes of it. -/
def perform (t : NameColumns) : NameTable.Call → Except Fault (Except NameError Nat × NameColumns)
  | .mention m => return (.ok (t.mention m).2, (t.mention m).1)
  | .define kind m => t.define kind m

/-- Performs calls on a new table, one after the other. -/
def performAll (calls : List NameTable.Call) : Except Fault (List (Except NameError Nat) × NameColumns) :=
  calls.foldlM (fun (answers, t) q => do
    let (answer, t) ← t.perform q
    return (answers ++ [answer], t)) ([], {})

end NameColumns

/-! ## Renumbering -/

/-- Writes the places of ids, counted from `place` on, into a column of new ids. -/
def renumberFrom (column : List Nat) (place : Nat) : (order : List Nat) → Except Fault (List Nat)
  | [] => return column
  | id :: order => do renumberFrom (← setEntry column id place) (place + 1) order

/-- The new ids of a finished table, each at the position of the id that it takes the place of. -/
def renumber (order : List Nat) : Except Fault (List Nat) :=
  renumberFrom (List.replicate order.length 0) 0 order

end SSALint.Source
