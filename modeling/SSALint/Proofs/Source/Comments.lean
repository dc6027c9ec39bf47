/-
Comments are transparent. A comment may be overwritten with spaces, up to the end of its line: the texts have the same
tokens, so that the one is read as a module if the other is, and as the same module (`parseModule_blankComments`).
-/
import SSALint.Proofs.Source.AlikeItems
import SSALint.Proofs.Source.Relocation

namespace SSALint.Source

/-! ## Blanked comments -/

mutual

/-- The text with a space for every character of a comment. -/
def blankComments : List Char → List Char
  | [] => []
  | c :: s => if c = ';' then ' ' :: blankComment s else c :: blankComments s

/-- The text that begins inside a comment, which lasts until the end of the line. -/
def blankComment : List Char → List Char
  | [] => []
  | c :: s => if c = '\n' then '\n' :: blankComments s else ' ' :: blankComment s

end

example : blankComments "a;b\nc ;d;e".toList = "a  \nc     ".toList := by cbv

mutual

theorem skipBlanks_blankComments : ∀ s, skipBlanks (blankComments s) = blankComments (skipBlanks s)
  | [] => rfl
  | c :: s => by
    by_cases hc : c = ';'
    · rw [blankComments, if_pos hc, skipBlanks_blank rfl, skipBlanks_blankComment s, skipBlanks, if_pos hc]
    · rw [blankComments, if_neg hc]
      by_cases hblank : isBlank c = true
      · rw [skipBlanks_blank hblank, skipBlanks_blank hblank, skipBlanks_blankComments s]
      · rw [skipBlanks_of_not (Bool.eq_false_iff.2 hblank) hc, skipBlanks_of_not (Bool.eq_false_iff.2 hblank) hc,
          blankComments, if_neg hc]

theorem skipBlanks_blankComment : ∀ s, skipBlanks (blankComment s) = blankComments (skipComment s)
  | [] => rfl
  | c :: s => by
    by_cases hc : c = '\n'
    · rw [blankComment, if_pos hc, skipBlanks_blank rfl, skipBlanks_blankComments s, skipComment, if_pos hc]
    · rw [blankComment, if_neg hc, skipBlanks_blank rfl, skipBlanks_blankComment s, skipComment, if_neg hc]

end

mutual

/-- Blanks are as they were. -/
theorem blankComments_blankComments : ∀ s, blankComments (blankComments s) = blankComments s
  | [] => rfl
  | c :: s => by
    rw [blankComments]
    split
    · exact congrArg (' ' :: ·) (blankComments_blankComment s)
    · rename_i hc
      rw [blankComments, if_neg hc, blankComments_blankComments s]

theorem blankComments_blankComment : ∀ s, blankComments (blankComment s) = blankComment s
  | [] => rfl
  | c :: s => by
    rw [blankComment]
    split
    · exact congrArg ('\n' :: ·) (blankComments_blankComments s)
    · exact congrArg (' ' :: ·) (blankComments_blankComment s)

end

theorem blankComments_visible {c : Char} (hc : IsVisible c) (s : List Char) :
    blankComments (c :: s) = c :: blankComments s := if_neg hc.2

/-- A text that begins with a blank or a comment is blanked to one that begins with a blank. -/
theorem separated_blankComments {s : List Char} : Separated (blankComments s) ↔ Separated s := by
  cases s with
  | nil => exact Iff.rfl
  | cons c s =>
    by_cases hc : c = ';'
    · subst hc
      refine iff_of_true (fun d hd => ?_) fun d hd => ?_
      · cases hd
        decide
      · cases hd
        decide
    · rw [blankComments, if_neg hc]
      exact Iff.rfl

/-! ## Texts that differ in their comments -/

/-- Texts that are the same but for what stands in comments. -/
def SameBlanked (s s' : List Char) : Prop := blankComments s = blankComments s'

theorem shows_or_separated (s : List Char) : Shows s ∨ Separated s := by
  cases s with
  | nil => exact .inr nofun
  | cons c s =>
    by_cases hc : IsVisible c
    · exact .inl ⟨c, s, rfl, hc⟩
    · refine .inr fun d hd => ?_
      cases hd
      exact hc

instance : Alike SameBlanked where
  head {s s'} h := by
    -- Blanking keeps what is visible and makes blanks of comments, so that both texts begin alike.
    rcases shows_or_separated s with ⟨c, t, rfl, hc⟩ | hs
    · have hblank : c :: blankComments t = blankComments s' := (blankComments_visible hc t).symm.trans h
      rcases shows_or_separated s' with ⟨c', t', rfl, hc'⟩ | hs'
      · rw [blankComments_visible hc'] at hblank
        obtain ⟨rfl, ht⟩ := List.cons.inj hblank
        exact .inl ⟨c, t, t', hc, rfl, rfl, ht⟩
      · rw [← separated_blankComments, ← hblank] at hs'
        exact absurd hc (hs' c rfl)
    · refine .inr ⟨hs, ?_⟩
      rw [← separated_blankComments, ← h, separated_blankComments]
      exact hs
  blanks {s s'} h := by
    refine .inl ?_
    show blankComments (skipBlanks s) = blankComments (skipBlanks s')
    rw [← skipBlanks_blankComments, ← skipBlanks_blankComments, h]

theorem eq_nil_of_blankComments {s : List Char} (h : blankComments s = []) : s = [] := by
  cases s with
  | nil => rfl
  | cons c s =>
    rw [blankComments] at h
    split at h <;> cases h

theorem simulates_item_sameBlanked :
    Parser.Simulates SameBlanked SameBlanked item item (Option.map Item.bare) := by
  intro s s' o r hs h
  cases o with
  | some i =>
    obtain ⟨i', r', h', hbare, hr⟩ := item_of_alike hs h
    exact ⟨some i', r', h', congrArg some hbare, hr⟩
  | none =>
    have hnil : skipBlanks s = [] := skipBlanks_of_item_none h
    have hnil' : skipBlanks s' = [] := by
      apply eq_nil_of_blankComments
      rw [← skipBlanks_blankComments, ← hs, skipBlanks_blankComments, hnil]
      rfl
    rw [item_of_nil hnil] at h
    cases h
    exact ⟨none, [], item_of_nil hnil', rfl, rfl⟩

theorem read_of_sameBlanked {s s' : List Char} (hs : SameBlanked s s') {m : Module} (h : read s = .ok m) :
    read s' = .ok m := by
  obtain ⟨items, r, hprogram, hresolve⟩ := read_eq_ok_iff.1 h
  obtain ⟨items', r', hprogram', hbare, -⟩ :=
    Parser.Simulates.many advances_item simulates_item_sameBlanked s s' items r hs hprogram
  exact read_eq_ok_iff.2 ⟨items', r', hprogram', resolve_of_bare hbare hresolve⟩

end SSALint.Source

namespace SSALint

open Source

/-- A text is read as a module if and only if it is when its comments are blanked, and as the same module. -/
theorem parseModule_blankComments (text : String) (m : Module) :
    parseModule text = .ok m ↔ parseModule (String.ofList (blankComments text.toList)) = .ok m := by
  rw [parseModule_eq_ok_iff, parseModule_eq_ok_iff, String.toList_ofList]
  have hsame : SameBlanked text.toList (blankComments text.toList) := (blankComments_blankComments _).symm
  exact ⟨read_of_sameBlanked hsame, read_of_sameBlanked hsame.symm⟩

end SSALint
