/-
Name tables. Names get ids in the order of their first mention, before it is known whether they are
defined; definitions are recorded as they come. When the text is through, either some mentioned name
was never defined, or the order of definition renumbers all names.
-/
import SSALint.Source.Token

namespace SSALint.Source

/-- What the names of a table stand for. -/
inductive NameKind where
  | value
  | label
  | symbol
deriving DecidableEq, Repr

/-- The word for a kind of names. -/
def NameKind.name : NameKind → String
  | .value => "value"
  | .label => "label"
  | .symbol => "symbol"

/-- The sign before the names of a kind. -/
def NameKind.sigil : NameKind → String
  | .value => "%"
  | .label => "%"
  | .symbol => "@"

/-- A name that is defined twice or not at all. -/
inductive NameError where
  /-- The later of two definitions. -/
  | redefinition (kind : NameKind) (m : Mention)
  /-- The first mention of a name that has no definition. -/
  | undefined (kind : NameKind) (m : Mention)
deriving DecidableEq, Repr

/-- The wording of an error in a text. -/
def NameError.message (text : List Char) : NameError → String
  | .redefinition kind m =>
    (Position.of text m.rest).print ++ ": redefinition of " ++ kind.sigil ++ m.name
  | .undefined kind m =>
    (Position.of text m.rest).print ++ ": use of undefined " ++ kind.name ++ " " ++ kind.sigil ++
      m.name

/-- The names of one kind in one scope, as far as the text was read: what was mentioned, and what was defined. -/
structure NameTable where
  /-- The first mention of each name; the place in this list is the id. -/
  mentions : List Mention := []
  /-- The ids of the defined names in the order of their definitions. -/
  order : List Nat := []
deriving DecidableEq, Repr

namespace NameTable

/-- The id of a name, if it was mentioned. -/
def idOf? (t : NameTable) (name : String) : Option Nat :=
  t.mentions.findIdx? fun m => m.name == name

/-- Mentions a name: a new one is added, and its id is answered. -/
def mention (t : NameTable) (m : Mention) : NameTable × Nat :=
  match t.idOf? m.name with
  | some id => (t, id)
  | none => ({ t with mentions := t.mentions ++ [m] }, t.mentions.length)

/-- Defines a name, which has not been defined before, and answers its id. -/
def define (t : NameTable) (kind : NameKind) (m : Mention) : Except NameError (NameTable × Nat) :=
  let (t, id) := t.mention m
  if id ∈ t.order then .error (.redefinition kind m)
  else .ok ({ t with order := t.order ++ [id] }, id)

/-- The ids in the order of definition, provided that every name was defined. -/
def finish (t : NameTable) (kind : NameKind) : Except NameError (List Nat) :=
  match t.mentions.zipIdx.find? fun (_, id) => id ∉ t.order with
  | some (m, _) => .error (.undefined kind m)
  | none => .ok t.order

/-- The place of a name in the order of definition. -/
def rank (t : NameTable) (name : String) : Nat :=
  match t.idOf? name with
  | some id => t.order.idxOf id
  | none => t.order.length

/-! ## Calls -/

/-- What a caller asks of a table while it reads a text. -/
inductive Call where
  | mention (m : Mention)
  | define (kind : NameKind) (m : Mention)
deriving DecidableEq, Repr

/-- The name of a call, with its place. -/
def Call.mentioned : Call → Mention
  | .mention m => m
  | .define _ m => m

/-- What a table answers to a call, and what becomes of it. A definition mentions its name first, whatever comes of
it. -/
def perform (t : NameTable) : Call → Except NameError Nat × NameTable
  | .mention m => (.ok (t.mention m).2, (t.mention m).1)
  | .define kind m =>
    match t.define kind m with
    | .ok (t', id) => (.ok id, t')
    | .error e => (.error e, (t.mention m).1)

/-- Performs calls on a new table, one after the other. -/
def performAll (calls : List Call) : List (Except NameError Nat) × NameTable :=
  calls.foldl (fun (answers, t) q => (answers ++ [(t.perform q).1], (t.perform q).2)) ([], {})

end NameTable
end SSALint.Source
