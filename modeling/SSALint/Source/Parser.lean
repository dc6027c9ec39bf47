/-
Parsers. A parser takes the text that is left and either answers a value with the text left after
it or fails at a place. `collect` is the one way to repeat: each turn has to use up some text, so a
repetition ends.
-/
import SSALint.Source.Failure

namespace SSALint.Source

/-- A reader of text from the front. -/
abbrev Parser := StateT (List Char) (Except Failure)

namespace Parser

variable {α β : Type}

/-- The text that is left. -/
def here : Parser (List Char) := fun s => .ok (s, s)

/-- Fails at a place. -/
def failAt (complaint : Complaint) (place : List Char) : Parser α :=
  fun _ => .error ⟨complaint, place⟩

/-- Fails at the present place. -/
def fail (complaint : Complaint) : Parser α := fun s => .error ⟨complaint, s⟩

/-- Runs `p` and answers `none`, with no text used up, if it fails. -/
def attempt (p : Parser α) : Parser (Option α) := fun s =>
  match p s with
  | .ok (a, r) => .ok (some a, r)
  | .error _ => .ok (none, s)

/-- Whether `p` succeeds here; if it does, its text is used up. -/
def accepts (p : Parser α) : Parser Bool := return (← attempt p).isSome

/-- Repeats a step until it answers `inr`, and collects what it answered by `inl` before. A turn
that goes on has to use up some text. -/
def collect (step : Parser (α ⊕ β)) (s : List Char) : Except Failure ((List α × β) × List Char) :=
  match step s with
  | .error e => .error e
  | .ok (.inr b, r) => .ok (([], b), r)
  | .ok (.inl a, r) =>
    if r.length < s.length then
      match collect step r with
      | .error e => .error e
      | .ok ((as, b), t) => .ok ((a :: as, b), t)
    else .error ⟨.unexpected .progress, s⟩
termination_by s.length

/-- A turn that goes on behind an item and is the last one where the answer is `none`. -/
def turn (item : Parser (Option α)) : Parser (α ⊕ Unit) := do
  match ← item with
  | some a => return .inl a
  | none => return .inr ()

/-- Repeats a parser until it answers `none`. -/
def many (item : Parser (Option α)) : Parser (List α) := do
  let (as, ()) ← collect (turn item)
  return as

/-- What stands behind a separator, if that is here. -/
def behind (separator : Parser Unit) (item : Parser α) : Parser (Option α) := do
  if ← accepts separator then return some (← item) else return none

/-- One item or more, each after the first behind a separator. -/
def sepBy1 (separator : Parser Unit) (item : Parser α) : Parser (List α) := do
  let first ← item
  let others ← many (behind separator item)
  return first :: others

end Parser
end SSALint.Source
