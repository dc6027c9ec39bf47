/-
Tokens that were written. Words, names and signs are read back where a word ends behind them, and numbers are
read back as they were: integers from their decimal digits, doubles from the decimal that was chosen for them
(`reads_float`). A token fails on text that begins otherwise.
-/
import SSALint.Proofs.Source.Reads
import Mathlib.Data.Nat.Digits.Defs

namespace SSALint.Source

/-- A name that can be written. -/
structure IsWord (name : String) : Prop where
  ne_nil : name.toList ≠ []
  wordChar : ∀ c ∈ name.toList, isWordChar c = true

/-! ## Characters -/

theorem isWordChar_of_isDigit {c : Char} (h : c.isDigit = true) : isWordChar c = true := by
  simp [isWordChar, Char.isAlphanum, h]

/-- Text that begins with this character is not passed over. -/
def IsVisible (c : Char) : Prop := isBlank c = false ∧ c ≠ ';'

instance (c : Char) : Decidable (IsVisible c) := inferInstanceAs (Decidable (_ ∧ _))

theorem IsVisible.skipBlanks {c : Char} (h : IsVisible c) (s : List Char) : skipBlanks (c :: s) = c :: s :=
  skipBlanks_of_not h.1 h.2 s

/-- Characters of a kind are visible if none of those that are passed over is of that kind. -/
theorem isVisible_of {p : Char → Bool} (hp : ∀ d ∈ [' ', '\t', '\r', '\n', ';'], p d = false) {c : Char}
    (h : p c = true) : IsVisible c := by
  have hne : ∀ d ∈ [' ', '\t', '\r', '\n', ';'], c ≠ d := by
    rintro d hd rfl
    rw [hp c hd] at h
    cases h
  simpa [IsVisible, isBlank, and_assoc] using hne

theorem isVisible_of_isWordChar {c : Char} (h : isWordChar c = true) : IsVisible c :=
  isVisible_of (by simp [isWordChar]) h

/-- A text without blanks at its front. -/
def Shows (s : List Char) : Prop := ∃ c r, s = c :: r ∧ IsVisible c

theorem Shows.append {s : List Char} (h : Shows s) (rest : List Char) : Shows (s ++ rest) := by
  obtain ⟨c, r, rfl, hc⟩ := h
  exact ⟨c, r ++ rest, rfl, hc⟩

theorem Shows.skipBlanks {s : List Char} (h : Shows s) : Source.skipBlanks s = s := by
  obtain ⟨c, r, rfl, hc⟩ := h
  exact hc.skipBlanks r

/-- A text begins like a word. -/
def BeginsWord (s : List Char) : Prop := ∃ c r, s = c :: r ∧ isWordChar c = true

theorem BeginsWord.shows {s : List Char} (h : BeginsWord s) : Shows s := by
  obtain ⟨c, r, rfl, hc⟩ := h
  exact ⟨c, r, rfl, isVisible_of_isWordChar hc⟩

theorem BeginsWord.append {s : List Char} (h : BeginsWord s) (rest : List Char) : BeginsWord (s ++ rest) := by
  obtain ⟨c, r, rfl, hc⟩ := h
  exact ⟨c, r ++ rest, rfl, hc⟩

theorem BeginsWord.head?_ne {s : List Char} (h : BeginsWord s) {c : Char} (hc : isWordChar c = false) :
    s.head? ≠ some c := by
  obtain ⟨d, r, rfl, hd⟩ := h
  rintro ⟨⟩
  rw [hc] at hd
  cases hd

theorem IsWord.beginsWord {name : String} (h : IsWord name) : BeginsWord name.toList := by
  cases hs : name.toList with
  | nil => exact absurd hs h.ne_nil
  | cons c r => exact ⟨c, r, rfl, h.wordChar c (by rw [hs]; exact List.mem_cons_self)⟩

theorem IsWord.shows {name : String} (h : IsWord name) : Shows name.toList := h.beginsWord.shows

theorem reads_blanks : Reads blanks [] Shows fun _ => True := by
  intro rest hrest
  refine ⟨(), ?_, trivial⟩
  unfold blanks
  rw [List.nil_append, hrest.skipBlanks]

/-! ## Fixed tokens -/

theorem dropWord?_append (word s : List Char) : dropWord? word (word ++ s) = some s := by
  induction word with
  | nil => rfl
  | cons w word ih => rw [List.cons_append, dropWord?, if_pos rfl, ih]

/-- A word is not at the front of a text that begins with another character. -/
theorem dropWord?_of_head {w : Char} {word s : List Char} (h : s.head? ≠ some w) :
    dropWord? (w :: word) s = none := by
  cases s with
  | nil => rfl
  | cons c s => exact if_neg fun hw => h (congrArg some hw.symm)

theorem reads_exactly (word : String) : Reads (exactly word) word.toList Anything fun _ => True := by
  intro rest _
  refine ⟨(), ?_, trivial⟩
  unfold exactly
  rw [dropWord?_append]

theorem fails_exactly {word : String} {s : List Char} (h : dropWord? word.toList s = none) :
    Fails (exactly word) s := by
  refine ⟨⟨.unexpected .token, s⟩, ?_⟩
  unfold exactly
  rw [h]

theorem reads_char (c : Char) : Reads (char c) [c] Anything fun _ => True := by
  intro rest _
  refine ⟨(), ?_, trivial⟩
  exact if_pos rfl

theorem fails_char {c : Char} {s : List Char} (h : s.head? ≠ some c) : Fails (char c) s := by
  unfold char
  cases s with
  | nil => exact ⟨_, rfl⟩
  | cons d s =>
    have hne : d ≠ c := fun hd => h (congrArg some hd)
    exact ⟨⟨.expectedChar c, d :: s⟩, if_neg hne⟩

instance (text : String) : Lead (sign text) := inferInstanceAs (Lead (blanks >>= fun _ => exactly text))

instance (text : String) : Lead (keyword text) := inferInstanceAs (Lead (blanks >>= fun _ => _))

theorem reads_sign {text : String} (h : Shows text.toList) : Reads (sign text) text.toList Anything fun _ => True :=
  reads_blanks.nil_bind (fun _ _ => reads_exactly text) fun rest _ => h.append rest

theorem fails_sign {text : String} {s : List Char} (h : dropWord? text.toList (skipBlanks s) = none) :
    Fails (sign text) s :=
  fails_exactly h

theorem reads_wordEnd : Reads wordEnd [] Stops fun _ => True := by
  refine Reads.here_of.nil_bind (fun s hs => ?_) fun _ h => h
  have hno : s.head?.any isWordChar = false := by
    cases s with
    | nil => rfl
    | cons c s => exact hs c rfl
  rw [hno]
  exact .pure trivial

theorem reads_keyword {text : String} (h : Shows text.toList) :
    Reads (keyword text) text.toList Stops fun _ => True := by
  refine reads_blanks.nil_bind (fun _ _ => ?_) fun rest _ => h.append rest
  exact (reads_exactly text).weaken (fun _ _ => trivial) (fun _ h => h) |>.bind_nil fun _ _ => reads_wordEnd

theorem fails_keyword {text : String} {s : List Char} (h : dropWord? text.toList (skipBlanks s) = none) :
    Fails (keyword text) s :=
  fails_blanks_bind ((fails_exactly h).bind _)

/-! ## Words and names -/

/-- A run of characters ends where one of another class follows. -/
theorem span_append {p : Char → Bool} {cs rest : List Char} (hall : ∀ c ∈ cs, p c = true)
    (hrest : ∀ c ∈ rest.head?, p c = false) :
    (cs ++ rest).takeWhile p = cs ∧ (cs ++ rest).dropWhile p = rest := by
  rw [List.takeWhile_append_of_pos hall, List.dropWhile_append_of_pos hall]
  cases rest with
  | nil => simp
  | cons c rest => simp [hrest c rfl]

theorem reads_run {p : Char → Bool} {missing : Element} {cs : List Char} (hne : cs ≠ [])
    (hall : ∀ c ∈ cs, p c = true) :
    Reads (run p missing) cs (fun rest => ∀ c ∈ rest.head?, p c = false) (· = cs) := by
  intro rest hrest
  obtain ⟨htake, hdrop⟩ := span_append hall hrest
  refine ⟨cs, ?_, rfl⟩
  unfold run
  rw [htake, hdrop]
  cases cs with
  | nil => exact absurd rfl hne
  | cons c cs => rfl

theorem fails_run {p : Char → Bool} {missing : Element} {s : List Char} (h : ∀ c ∈ s.head?, p c = false) :
    Fails (run p missing) s := by
  refine ⟨⟨.unexpected missing, s⟩, ?_⟩
  unfold run
  cases s with
  | nil => rfl
  | cons c s => rw [List.takeWhile_cons_of_neg (by rw [h c rfl]; exact Bool.false_ne_true)]

theorem reads_word {name : String} (h : IsWord name) : Reads word name.toList Stops (· = name) := by
  refine (reads_run h.ne_nil h.wordChar).map fun cs hcs => ?_
  rw [hcs, String.ofList_toList]

theorem fails_word {s : List Char} (h : Stops s) : Fails word s := by
  obtain ⟨e, he⟩ := fails_run h
  refine ⟨e, ?_⟩
  show run isWordChar .word s >>= _ = _
  rw [he]
  rfl

instance (sigil : Char) : Lead (sigilName sigil) := inferInstanceAs (Lead (blanks >>= fun _ => _))

instance : Lead localName := inferInstanceAs (Lead (sigilName '%'))

theorem reads_sigilName {sigil : Char} (hsigil : IsVisible sigil) {name : String} (h : IsWord name) :
    Reads (sigilName sigil) (sigil :: name.toList) Stops fun m => m.name = name := by
  refine reads_blanks.nil_bind (fun _ _ => ?_) fun rest _ => ⟨sigil, _, rfl, hsigil⟩
  refine (Reads.here (F := Anything)).nil_bind (fun place _ => ?_) fun _ _ => trivial
  exact (reads_char sigil).bind (fun _ _ => (reads_word h).map fun _ hname => hname) fun _ _ => trivial

theorem fails_sigilName {sigil : Char} {s : List Char} (h : (skipBlanks s).head? ≠ some sigil) :
    Fails (sigilName sigil) s :=
  fails_blanks_bind (fails_here_bind ((fails_char h).bind _))

theorem reads_labelName {name : String} (h : IsWord name) :
    Reads labelName (name.toList ++ [':']) Anything fun m => m.name = name := by
  refine reads_blanks.nil_bind (fun _ _ => ?_) fun rest _ => (h.shows.append [':']).append rest
  refine (Reads.here (F := Anything)).nil_bind (fun place _ => ?_) fun _ _ => trivial
  refine (reads_word h).bind (fun _ hname => (reads_char ':').map fun _ _ => hname) fun rest _ => ?_
  exact stops_cons (by decide)

/-- A word is no name with a sigil. -/
theorem fails_sigilName_of_word {sigil : Char} (hsigil : isWordChar sigil = false) {s : List Char}
    (h : BeginsWord s) : Fails (sigilName sigil) s := by
  refine fails_sigilName ?_
  rw [h.shows.skipBlanks]
  exact h.head?_ne hsigil

/-- A word without a colon behind it is no label. -/
theorem fails_labelName_of_word {name : String} (h : IsWord name) {s : List Char} (hs : Stops s)
    (hcolon : s.head? ≠ some ':') : Fails labelName (name.toList ++ s) := by
  refine fails_blanks_bind (fails_here_bind ?_)
  rw [(h.shows.append s).skipBlanks]
  exact (reads_word h).bind_fails hs fun _ _ => (fails_char hcolon).bind _

/-- Text that does not begin with a word is no label. -/
theorem fails_labelName {s : List Char} (h : Stops (skipBlanks s)) : Fails labelName s :=
  fails_blanks_bind (fails_here_bind ((fails_word h).bind _))

/-! ## Integers -/

theorem digitsValue_append (xs ys : List Char) :
    digitsValue (xs ++ ys) = 10 ^ ys.length * digitsValue xs + digitsValue ys := by
  have hvalue : ∀ cs, digitsValue cs = Nat.ofDigitChars 10 cs 0 := fun _ => Nat.ofDigitChars_eq_foldl.symm
  rw [hvalue, hvalue, hvalue, Nat.ofDigitChars_append, Nat.ofDigitChars_eq_ofDigitChars_zero]

theorem digitsValue_toDigits (n : Nat) : digitsValue (Nat.toDigits 10 n) = n :=
  Nat.ofDigitChars_eq_foldl.symm.trans Nat.ofDigitChars_ten_toDigits

theorem digitsValue_zeros (n : Nat) : digitsValue (List.replicate n '0') = 0 :=
  Nat.ofDigitChars_eq_foldl.symm.trans Nat.ofDigitChars_replicate_zero

/-- No digit follows. -/
def EndsDigits (rest : List Char) : Prop := ∀ c ∈ rest.head?, c.isDigit = false

theorem Stops.endsDigits {rest : List Char} (h : Stops rest) : EndsDigits rest := by
  intro c hc
  rw [Bool.eq_false_iff]
  intro hdigit
  have hword := isWordChar_of_isDigit hdigit
  rw [h c hc] at hword
  cases hword

theorem reads_digits {cs : List Char} (hne : cs ≠ []) (hall : ∀ c ∈ cs, c.isDigit = true) :
    Reads digits cs EndsDigits (· = cs) :=
  reads_run hne hall

theorem isDigit_toDigits (n : Nat) : ∀ c ∈ Nat.toDigits 10 n, c.isDigit = true :=
  fun _ hc => Nat.isDigit_of_mem_toDigits (by decide) (by decide) hc

theorem reads_toDigits (n : Nat) : Reads digits (Nat.toDigits 10 n) EndsDigits (· = Nat.toDigits 10 n) :=
  reads_digits Nat.toDigits_ne_nil (isDigit_toDigits n)

/-- A text begins like a number. -/
def BeginsNumber (s : List Char) : Prop := ∃ c r, s = c :: r ∧ (c.isDigit = true ∨ c = '-')

theorem BeginsNumber.beginsWord {s : List Char} (h : BeginsNumber s) : BeginsWord s := by
  obtain ⟨c, r, rfl, hc⟩ := h
  refine ⟨c, r, rfl, ?_⟩
  rcases hc with hc | rfl
  · exact isWordChar_of_isDigit hc
  · rfl

theorem BeginsNumber.shows {s : List Char} (h : BeginsNumber s) : Shows s := h.beginsWord.shows

theorem beginsNumber_of_digits {cs : List Char} (hne : cs ≠ []) (hall : ∀ c ∈ cs, c.isDigit = true) :
    BeginsNumber cs := by
  cases cs with
  | nil => exact absurd rfl hne
  | cons c cs => exact ⟨c, cs, rfl, .inl (hall c List.mem_cons_self)⟩

theorem beginsNumber_toDigits (n : Nat) : BeginsNumber (Nat.toDigits 10 n) :=
  beginsNumber_of_digits Nat.toDigits_ne_nil (isDigit_toDigits n)

instance : Lead unsigned := inferInstanceAs (Lead (blanks >>= fun _ => _))

theorem toList_toString_nat (n : Nat) : (toString n).toList = Nat.toDigits 10 n := by
  rw [Nat.toString_eq_ofList_toDigits, String.toList_ofList]

theorem reads_unsigned (n : UInt64) : Reads unsigned (toString n.toNat).toList Stops (· = n) := by
  rw [toList_toString_nat]
  refine reads_blanks.nil_bind (fun _ _ => ?_) fun rest _ => (beginsNumber_toDigits _).shows.append rest
  refine (Reads.here (F := Anything)).nil_bind (fun place _ => ?_) fun _ _ => trivial
  refine (reads_toDigits n.toNat).weaken (fun _ h => Stops.endsDigits h) (fun _ h => h) |>.bind_nil ?_
  rintro _ rfl
  rw [digitsValue_toDigits, if_pos n.toNat_lt_size]
  exact .pure (UInt64.ofNat_toNat)

theorem reads_signOf {signs : List Char} {c : Char} (hc : c ∈ signs) :
    Reads (signOf signs) [c] Anything (· = some c) := by
  intro rest _
  exact ⟨some c, if_pos hc, rfl⟩

theorem reads_signOf_none {signs : List Char} :
    Reads (signOf signs) [] (fun rest => ∀ c ∈ rest.head?, c ∉ signs) (· = none) := by
  intro rest hrest
  refine ⟨none, ?_, rfl⟩
  cases rest with
  | nil => rfl
  | cons c rest => exact if_neg (hrest c rfl)

theorem toList_toString_int (n : Int) :
    (toString n).toList = if 0 ≤ n then Nat.toDigits 10 n.toNat else '-' :: Nat.toDigits 10 (-n).toNat := by
  rw [Int.toString_eq_repr, Int.repr_eq_if]
  split
  · exact String.toList_ofList
  · simp only [String.toList_append, Nat.repr_eq_ofList_toDigits, String.toList_ofList]
    rfl

/-- The digits of a number do not begin with a sign. -/
theorem not_sign_of_digits {cs : List Char} (hne : cs ≠ []) (hall : ∀ c ∈ cs, c.isDigit = true)
    {signs : List Char} (hsigns : ∀ c ∈ signs, c.isDigit = false) (rest : List Char) :
    ∀ c ∈ (cs ++ rest).head?, c ∉ signs := by
  intro c hc hmem
  cases cs with
  | nil => exact hne rfl
  | cons d cs =>
    obtain rfl : d = c := Option.some.inj hc
    have hdigit := hall d List.mem_cons_self
    rw [hsigns d hmem] at hdigit
    cases hdigit

/-- A minus sign where there is one, and digits, are read as the number that they write. -/
theorem reads_sign_digits {β : Type} {signs : List Char} (hminus : '-' ∈ signs)
    (hsigns : ∀ c ∈ signs, c.isDigit = false) (n : Int) {f : Option Char → List Char → Parser β} {R : β → Prop}
    (hf : ∀ sign cs, sign = none ∧ (digitsValue cs : Int) = n ∨ sign = some '-' ∧ -(digitsValue cs : Int) = n →
      Reads (f sign cs) [] EndsDigits R) :
    Reads (signOf signs >>= fun sign => digits >>= fun cs => f sign cs) (toString n).toList EndsDigits R := by
  rw [toList_toString_int]
  split
  · refine reads_signOf_none.nil_bind ?_ fun rest _ =>
      not_sign_of_digits Nat.toDigits_ne_nil (isDigit_toDigits _) hsigns rest
    rintro _ rfl
    refine (reads_toDigits _).bind_nil ?_
    rintro _ rfl
    exact hf _ _ (.inl ⟨rfl, by rw [digitsValue_toDigits]; omega⟩)
  · show Reads _ (['-'] ++ Nat.toDigits 10 (-n).toNat) _ _
    refine (reads_signOf hminus).bind ?_ fun _ _ => trivial
    rintro _ rfl
    refine (reads_toDigits _).bind_nil ?_
    rintro _ rfl
    exact hf _ _ (.inr ⟨rfl, by rw [digitsValue_toDigits]; omega⟩)

theorem beginsNumber_toString_int (n : Int) : BeginsNumber (toString n).toList := by
  rw [toList_toString_int]
  split
  · exact beginsNumber_toDigits _
  · exact ⟨'-', _, rfl, .inr rfl⟩

theorem reads_signed (n : Int64) : Reads signed (toString n.toInt).toList Stops (· = n) := by
  refine reads_blanks.nil_bind (fun _ _ => ?_) fun rest _ => (beginsNumber_toString_int _).shows.append rest
  refine (Reads.here (F := Anything)).nil_bind (fun place _ => ?_) fun _ _ => trivial
  refine (reads_sign_digits (by decide) (by simp) n.toInt fun sign cs h => ?_).weaken
    (fun _ h => h.endsDigits) fun _ h => h
  have hvalue : (if sign.isSome then -(digitsValue cs : Int) else digitsValue cs) = n.toInt := by
    rcases h with ⟨rfl, h⟩ | ⟨rfl, h⟩ <;> exact h
  show Reads (if Int64.minValue.toInt ≤ (if sign.isSome then -(digitsValue cs : Int) else digitsValue cs) ∧
    _ ≤ Int64.maxValue.toInt then pure (Int64.ofInt _) else _) _ _ _
  rw [hvalue, if_pos ⟨n.minValue_le_toInt, n.toInt_le⟩]
  exact .pure (Int64.ofInt_toInt n)

end SSALint.Source
