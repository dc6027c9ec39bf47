/-
Enumerations that are written as words, one word for each member.
-/

namespace SSALint

/-- An enumeration whose members are written as words. -/
class Spelled (α : Type) where
  all : List α
  spelling : α → String

/-- The member that a word spells. -/
def Spelled.ofWord? {α : Type} [Spelled α] (word : String) : Option α :=
  (Spelled.all : List α).find? fun a => Spelled.spelling a == word

end SSALint
