/-
Where the messages about names without a definition point. The position in front of such a message is
that of the first name in its body, or for symbols in the program, that is used and not defined
(`parseModule_undefined`).
-/
import Mathlib.Data.List.Flatten
import SSALint.Analyzer
import SSALint.Proofs.Source.ReadsToken
import SSALint.Proofs.Source.Undefined

namespace SSALint

/-! ## Positions -/

namespace Position

theorem toList_print (p : Position) :
    p.print.toList = Nat.toDigits 10 p.line ++ ':' :: Nat.toDigits 10 p.column := by
  unfold print
  simp [toString]

/-- A number ends where a colon stands. -/
theorem toDigits_inj {m n : Nat} {s t : List Char}
    (h : Nat.toDigits 10 m ++ ':' :: s = Nat.toDigits 10 n ++ ':' :: t) : m = n ∧ s = t := by
  have hends (r : List Char) : Source.EndsDigits (':' :: r) := by
    rintro c hc
    cases hc
    rfl
  obtain ⟨cs, hcs, rfl⟩ := Source.reads_toDigits m (':' :: s) (hends s)
  obtain ⟨ds, hds, rfl⟩ := Source.reads_toDigits n (':' :: t) (hends t)
  rw [h, hds] at hcs
  obtain ⟨hdigits, hrest⟩ := Prod.mk.inj (Except.ok.inj hcs)
  refine ⟨?_, (List.cons.inj hrest).2.symm⟩
  rw [← Source.digitsValue_toDigits m, ← hdigits, Source.digitsValue_toDigits]

/-- A message is told apart from the position in front of it. -/
theorem print_append_inj {p q : Position} {s t : String} (h : p.print ++ ": " ++ s = q.print ++ ": " ++ t) :
    p = q ∧ s = t := by
  have hcolon : ": ".toList = [':', ' '] := rfl
  have hlist := congrArg String.toList h
  simp only [String.toList_append, hcolon, toList_print, List.append_assoc, List.cons_append, List.nil_append] at hlist
  obtain ⟨hline, hrest⟩ := toDigits_inj hlist
  obtain ⟨hcolumn, hst⟩ := toDigits_inj hrest
  exact ⟨congrArg₂ Position.mk hline hcolumn, String.toList_inj.1 (List.cons.inj hst).2⟩

/-- The text before a suffix of it is what the position of the suffix counts. -/
theorem of_append (passed rest : List Char) : of (passed ++ rest) rest = after passed := by
  unfold of
  rw [List.length_append, Nat.add_sub_cancel, List.take_left]

end Position

namespace Source

/-! ## Messages -/

/-- The rest of the text from the place that an error is about. -/
def NameError.place : NameError → List Char
  | .redefinition _ m => m.rest
  | .undefined _ m => m.rest

/-- What a message says behind the position. -/
def NameError.body : NameError → String
  | .redefinition kind m => "redefinition of " ++ kind.sigil ++ m.name
  | .undefined kind m => "use of undefined " ++ kind.name ++ " " ++ kind.sigil ++ m.name

theorem message_undefined (p : Position) (kind : NameKind) (name : String) (rest : List Char) :
    p.print ++ ": use of undefined " ++ kind.name ++ " " ++ kind.sigil ++ name =
      p.print ++ ": " ++ (NameError.undefined kind ⟨name, rest⟩).body := by
  show p.print ++ (": " ++ "use of undefined ") ++ kind.name ++ " " ++ kind.sigil ++ name =
    p.print ++ ": " ++ ("use of undefined " ++ kind.name ++ " " ++ kind.sigil ++ name)
  simp only [String.append_assoc]

theorem NameError.message_eq (text : List Char) (e : NameError) :
    e.message text = (Position.of text e.place).print ++ ": " ++ e.body := by
  cases e with
  | redefinition kind m =>
    show (Position.of text m.rest).print ++ (": " ++ "redefinition of ") ++ kind.sigil ++ m.name =
      (Position.of text m.rest).print ++ ": " ++ ("redefinition of " ++ kind.sigil ++ m.name)
    simp only [String.append_assoc]
  | undefined kind m => exact message_undefined _ kind m.name m.rest

/-- A complaint about the grammar does not begin like one about a name without a definition. -/
theorem Complaint.message_ne (c : Complaint) (found : String) (kind : NameKind) (m : Mention) :
    c.message found ≠ (NameError.undefined kind m).body := by
  intro h
  have hbegin : (c.message found).toList.take 2 = ['u', 's'] := by
    rw [h]
    show ("use of undefined " ++ kind.name ++ " " ++ kind.sigil ++ m.name).toList.take 2 = _
    simp
  revert hbegin
  unfold Complaint.message
  cases c <;> simp [toString]

/-- Only an error about a name without a definition says so, and it tells the kind and the name. -/
theorem NameError.eq_undefined_of_body {e : NameError} {kind : NameKind} {m : Mention}
    (h : e.body = (NameError.undefined kind m).body) : e = .undefined kind ⟨m.name, e.place⟩ := by
  cases e with
  | redefinition kind' m' =>
    have hlist : ("redefinition of " ++ kind'.sigil ++ m'.name).toList =
      ("use of undefined " ++ kind.name ++ " " ++ kind.sigil ++ m.name).toList := congrArg String.toList h
    simp at hlist
  | undefined kind' m' =>
    have hbody : "use of undefined " ++ kind'.name ++ " " ++ kind'.sigil ++ m'.name =
      "use of undefined " ++ kind.name ++ " " ++ kind.sigil ++ m.name := h
    simp only [String.append_assoc, String.append_right_inj] at hbody
    -- The words for the kinds begin with different letters.
    have hhead (kind : NameKind) (s : String) : (kind.name ++ s).toList.head? = kind.name.toList.head? := by
      rw [String.toList_append]
      cases kind <;> rfl
    have hletter : kind'.name.toList.head? = kind.name.toList.head? := by
      rw [← hhead, hbody, hhead]
    obtain rfl : kind' = kind := by
      revert hletter
      cases kind <;> cases kind' <;> decide
    rw [String.append_right_inj, String.append_right_inj, String.append_right_inj] at hbody
    rw [← hbody]
    rfl

/-- The text of a message about a name without a definition tells which error it is and where. -/
theorem ReadError.eq_undefined_of_message {text : List Char} {e : ReadError} {p : Position} {kind : NameKind}
    {name : String} (h : e.message text = p.print ++ ": use of undefined " ++ kind.name ++ " " ++ kind.sigil ++ name) :
    ∃ rest, e = .name (.undefined kind ⟨name, rest⟩) ∧ Position.of text rest = p := by
  rw [message_undefined p kind name []] at h
  cases e with
  | failure f =>
    obtain ⟨-, hbody⟩ := Position.print_append_inj h
    exact absurd hbody (f.complaint.message_ne _ kind _)
  | name e =>
    obtain ⟨hposition, hbody⟩ := Position.print_append_inj ((e.message_eq text).symm.trans h)
    exact ⟨e.place, congrArg ReadError.name (NameError.eq_undefined_of_body hbody), hposition⟩

/-! ## Culprits -/

/-- In a part of a program a name is the first one of a kind, in the order of the text, that is used and not defined. -/
structure FirstUndefined (text : List Char) (kind : NameKind) (part : List Item) (m : Mention) : Prop where
  used : m ∈ part.flatMap (Item.references kind)
  undefined : m.name ∉ part.flatMap (Item.defines kind)
  /-- Every reference is in the text what it is in the part. -/
  stand : ∀ r ∈ part.flatMap (Item.references kind), r.rest <:+ text ∧ r.Stands kind
  /-- What stands earlier has more of the text behind it. -/
  earlier : ∀ r ∈ part.flatMap (Item.references kind), m.rest.length < r.rest.length →
    r.name ∈ part.flatMap (Item.defines kind)

theorem InOrder.suffix_of_mem {s r : List Char} {ms : List Mention} (h : InOrder s ms r) {m : Mention} (hm : m ∈ ms) :
    m.rest <:+ s := by
  induction ms generalizing s with
  | nil => cases hm
  | cons m' ms ih =>
    obtain ⟨hm', t, ⟨-, sigil, -, hrest⟩, h⟩ := h
    rcases List.mem_cons.1 hm with rfl | hm
    · exact hm'
    · have ht : t <:+ m'.rest := ⟨sigil ++ m'.name.toList, hrest.symm⟩
      exact ((ih h hm).trans ht).trans hm'

theorem NameKind.IsScope.sublist {kind : NameKind} {items part : List Item} (h : kind.IsScope items part) :
    part.Sublist items := by
  cases kind with
  | symbol => exact h ▸ List.Sublist.refl items
  | _ =>
    obtain ⟨head, blocks, hmem, rfl⟩ := h
    exact List.singleton_sublist.2 hmem

/-- Since references are listed in the order of the text, the first one in the list is the first one in the text. -/
theorem firstUndefined_of_find? {text r : List Char} {kind : NameKind} {items part : List Item} {m : Mention}
    (hprogram : program text = .ok (items, r)) (hpart : kind.IsScope items part)
    (h : firstUndefined? kind part = some m) : FirstUndefined text kind part m := by
  obtain ⟨hplaces, hstand⟩ := cited_program kind hprogram
  have hsublist : (part.flatMap (Item.references kind)).Sublist (items.flatMap (Item.references kind)) :=
    hpart.sublist.flatMap _
  have hpairwise := hplaces.pairwise.2.sublist hsublist
  obtain ⟨hundefined, before, after, hrefs, hbefore⟩ := List.find?_eq_some_iff_append.1 h
  refine ⟨List.mem_of_find?_eq_some h, of_decide_eq_true hundefined, fun m' hm' => ?_, fun m' hm' hlt => ?_⟩
  · have hmem := hsublist.subset hm'
    exact ⟨hplaces.suffix_of_mem hmem, hstand m' hmem⟩
  · -- What stands behind the first one in the list leaves less of the text.
    rw [hrefs] at hm' hpairwise
    obtain ⟨-, hafter, -⟩ := List.pairwise_append.1 hpairwise
    rcases List.mem_append.1 hm' with hm' | hm'
    · simpa using hbefore m' hm'
    · rcases List.mem_cons.1 hm' with rfl | hm'
      · omega
      · have hlater := (List.pairwise_cons.1 hafter).1 m' hm'
        omega

end Source

open Source

theorem parseModule_eq_error_iff {text : String} {e : Error} :
    parseModule text = .error e ↔ ∃ cause, Source.read text.toList = .error cause ∧ e = .read text.toList cause := by
  unfold parseModule
  cases Source.read text.toList <;> simp [eq_comm]

/-- A message about a name without a definition points at the culprit. The line and the column are those of a place
where the sigil and the name stand, with nothing behind that could be part of the name. The name is used there,
has no definition in the body, or for symbols in the program, and every name of the kind that is used before
has one. -/
theorem parseModule_undefined {text : String} {e : Error} {line column : Nat} {kind : NameKind} {name : String}
    (h : parseModule text = .error e)
    (hmessage : e.message = s!"{line}:{column}: use of undefined {kind.name} {kind.sigil}{name}") :
    ∃ passed rest after, text.toList = passed ++ rest ∧ line = 1 + passed.count '\n' ∧
      column = 1 + (passed.reverse.takeWhile (· ≠ '\n')).length ∧
      rest = kind.sigil.toList ++ name.toList ++ after ∧ after.head?.any isWordChar = false ∧
      ∃ items part, program text.toList = .ok (items, []) ∧ kind.IsScope items part ∧
        FirstUndefined text.toList kind part ⟨name, rest⟩ := by
  obtain ⟨cause, hread, rfl⟩ := parseModule_eq_error_iff.1 h
  obtain ⟨rest, rfl, hposition⟩ := ReadError.eq_undefined_of_message (p := ⟨line, column⟩) hmessage
  unfold Source.read at hread
  split at hread
  · cases hread
  · rename_i items r hprogram
    split at hread
    · rename_i cause hresolve
      cases hread
      obtain ⟨rfl, -⟩ := program_spec hprogram
      obtain ⟨part, hpart, hfind⟩ := undefined_of_resolve hresolve
      have hfirst := firstUndefined_of_find? hprogram hpart hfind
      obtain ⟨⟨passed, hpassed⟩, -, after, hrest, hafter⟩ := hfirst.stand _ hfirst.used
      rw [← hpassed, Position.of_append] at hposition
      obtain ⟨hline, hcolumn⟩ := Position.mk.inj hposition
      refine ⟨passed, rest, after, hpassed.symm, ?_, ?_, hrest, hafter, items, part, hprogram, hpart, hfirst⟩
      · rw [← hline, Nat.add_comm]
      · rw [← hcolumn, Nat.add_comm]
    · cases hread

/-- Two bodies; the second one uses a name that only the first one defines, after one that it defines further down. -/
def strayText : String :=
  "define i32 @g(i32 %x) \x7b\n  ret i32 %x\n\x7d\n" ++
    "define i32 @f(i32 %a) \x7b\n  %s = add i32 %t, %x\n  %t = add i32 %a, %y\n  ret i32 %s\n\x7d"

/-- The error in `strayText`, with the place of the name. -/
def strayError : Error :=
  .read strayText.toList (.name (.undefined .value ⟨"x", "%x\n  %t = add i32 %a, %y\n  ret i32 %s\n\x7d".toList⟩))

theorem parseModule_undefined_stray : parseModule strayText = .error strayError ∧
    strayError.message = "5:20: use of undefined value %x" ∧
    ∃ passed rest after, strayText.toList = passed ++ rest ∧ 5 = 1 + passed.count '\n' ∧
      20 = 1 + (passed.reverse.takeWhile (· ≠ '\n')).length ∧
      rest = "%".toList ++ "x".toList ++ after ∧ after.head?.any isWordChar = false ∧
      ∃ items part, program strayText.toList = .ok (items, []) ∧ NameKind.value.IsScope items part ∧
        FirstUndefined strayText.toList .value part ⟨"x", rest⟩ := by
  have hrun : parseModule strayText = .error strayError := by decide +kernel
  have hmessage : strayError.message = "5:20: use of undefined value %x" := by decide +kernel
  exact ⟨hrun, hmessage, @parseModule_undefined strayText strayError 5 20 .value "x" hrun hmessage⟩

end SSALint
