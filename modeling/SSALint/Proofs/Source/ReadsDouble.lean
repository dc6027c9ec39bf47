/-
Doubles that were written. The decimal that is chosen for a magnitude is written with a point, or with a power
of ten behind it; either way it is read as a decimal of the same value, which rounds to the magnitude. So a
finite double is read back as it was (`reads_float`).
-/
import SSALint.Proofs.Source.ReadsToken
import SSALint.Proofs.Double.Rounding

namespace SSALint.Source

open Double (ofDecimal ofMagnitude)

/-! ## Parts of a decimal -/

theorem reads_exponent (power : Int) : Reads exponent ('e' :: (toString power).toList) Stops (· = power) := by
  show Reads (Parser.attempt _ >>= fun p => pure (p.getD 0)) (['e'] ++ (toString power).toList) _ _
  refine Reads.map (Q := fun o => ∃ p, o = some p ∧ p = power) (Reads.attempt_some ?_) ?_
  · refine (reads_signOf (by decide)).bind ?_ fun _ _ => trivial
    rintro _ rfl
    refine (reads_sign_digits (by decide) (by simp) power fun sign cs h => ?_).weaken
      (fun _ h => Stops.endsDigits h) fun _ h => h
    refine .pure ?_
    rcases h with ⟨rfl, h⟩ | ⟨rfl, h⟩ <;> exact h
  · rintro _ ⟨p, rfl, rfl⟩
    rfl

theorem reads_exponent_none : Reads exponent [] Stops (· = 0) := by
  show Reads (Parser.attempt _ >>= fun p => pure (p.getD 0)) _ _ _
  refine Reads.map (Q := (· = none)) (Reads.attempt_none fun rest hrest => ?_) ?_
  · refine reads_signOf_none.nil_bind_fails (fun c hc hmem => ?_) ?_
    · have hword : isWordChar c = true := by
        rcases List.mem_pair.1 hmem with rfl | rfl <;> rfl
      rw [hrest c hc] at hword
      cases hword
    · rintro _ rfl
      exact ⟨_, rfl⟩
  · rintro _ rfl
    rfl

/-- Neither a digit nor a point follows. -/
def EndsNumber (rest : List Char) : Prop := ∀ c ∈ rest.head?, c.isDigit = false ∧ c ≠ '.'

theorem Stops.endsNumber {rest : List Char} (h : Stops rest) : EndsNumber rest := by
  intro c hc
  refine ⟨h.endsDigits c hc, ?_⟩
  rintro rfl
  cases h _ hc

/-- A point with digits behind it, or neither. -/
inductive Fraction : List Char → List Char → Prop where
  | nothing : Fraction [] []
  | digits (part : List Char) (h : ∀ c ∈ part, c.isDigit = true) : Fraction ('.' :: part) part

theorem reads_fraction {text part : List Char} (h : Fraction text part) :
    Reads fraction text EndsNumber (· = part) := by
  intro rest hrest
  cases h with
  | nothing =>
    refine ⟨[], ?_, rfl⟩
    unfold fraction
    rw [List.nil_append]
    split
    · exact absurd rfl (hrest _ rfl).2
    · rfl
  | digits part hall =>
    obtain ⟨htake, hdrop⟩ := span_append hall fun c hc => (hrest c hc).1
    refine ⟨part, ?_, rfl⟩
    show Except.ok ((part ++ rest).takeWhile Char.isDigit, (part ++ rest).dropWhile Char.isDigit) = _
    rw [htake, hdrop]

/-- A power of ten, or none. -/
inductive Scale : List Char → Int → Prop where
  | nothing : Scale [] 0
  | power (p : Int) : Scale ('e' :: (toString p).toList) p

theorem reads_scale {text : List Char} {power : Int} (h : Scale text power) :
    Reads exponent text Stops (· = power) := by
  cases h with
  | nothing => exact reads_exponent_none
  | power => exact reads_exponent power

theorem Scale.endsNumber {text : List Char} {power : Int} (h : Scale text power) {rest : List Char}
    (hrest : Stops rest) : EndsNumber (text ++ rest) := by
  cases h with
  | nothing => exact hrest.endsNumber
  | power =>
    intro c hc
    obtain rfl : 'e' = c := Option.some.inj hc
    decide

theorem Fraction.endsDigits {text part : List Char} (h : Fraction text part) {rest : List Char}
    (hrest : EndsNumber rest) : EndsDigits (text ++ rest) := by
  cases h with
  | nothing => exact fun c hc => (hrest c hc).1
  | digits part hall =>
    intro c hc
    obtain rfl : '.' = c := Option.some.inj hc
    rfl

/-! ## Decimals -/

/-- A text writes a number with some digits at some exponent. -/
inductive Decimal : List Char → Nat → Int → Prop where
  | parts {whole text part tail : List Char} {power : Int} (hne : whole ≠ [])
    (hwhole : ∀ c ∈ whole, c.isDigit = true) (hfraction : Fraction text part) (hscale : Scale tail power) :
    Decimal (whole ++ (text ++ tail)) (digitsValue (whole ++ part)) (power - part.length)

theorem Decimal.of_eq (whole : List Char) {text part tail written : List Char} {power exponent : Int} {value : Nat}
    (hne : whole ≠ []) (hwhole : ∀ c ∈ whole, c.isDigit = true) (hfraction : Fraction text part)
    (hscale : Scale tail power) (hwritten : whole ++ (text ++ tail) = written)
    (hvalue : digitsValue (whole ++ part) = value) (hexponent : power - part.length = exponent) :
    Decimal written value exponent := by
  subst hwritten hvalue hexponent
  exact .parts hne hwhole hfraction hscale

theorem Decimal.beginsNumber {text : List Char} {value : Nat} {exponent : Int} (h : Decimal text value exponent) :
    BeginsNumber text := by
  cases h with
  | parts hne hwhole _ _ =>
    obtain ⟨c, r, rfl, hc⟩ := beginsNumber_of_digits hne hwhole
    exact ⟨c, _, rfl, hc⟩

/-- The text of a sign; only a minus is written. -/
def signText (negative : Bool) : List Char := if negative then ['-'] else []

theorem reads_decimal (negative : Bool) {text : List Char} {value : Nat} {exponent : Int}
    (h : Decimal text value exponent) : Reads decimal (signText negative ++ text) Stops
      (· = ofMagnitude negative (ofDecimal value exponent)) := by
  obtain ⟨hne, hwhole, hfraction, hscale⟩ := h
  have hsign : Reads (signOf ['+', '-']) (signText negative) (fun rest => ∀ c ∈ rest.head?, c ∉ ['+', '-'])
      fun sign => decide (sign = some '-') = negative := by
    cases negative with
    | false =>
      refine reads_signOf_none.weaken (fun _ h => h) ?_
      rintro _ rfl
      rfl
    | true =>
      refine (reads_signOf (by decide)).weaken (fun _ _ => trivial) ?_
      rintro _ rfl
      rfl
  refine hsign.bind (fun sign hnegative => ?_) fun rest _ => ?_
  · refine (reads_digits hne hwhole).bind ?_ fun rest hrest => ?_
    · rintro _ rfl
      refine (reads_fraction hfraction).bind ?_ fun rest hrest => hscale.endsNumber hrest
      rintro _ rfl
      refine (reads_scale hscale).bind_nil ?_
      rintro _ rfl
      rw [hnegative]
      exact .pure rfl
    · rw [List.append_assoc]
      exact hfraction.endsDigits (hscale.endsNumber hrest)
  · rw [List.append_assoc]
    exact not_sign_of_digits hne hwhole (by simp) _

/-! ## Notation -/

theorem isDigit_replicate (n : Nat) : ∀ c ∈ List.replicate n '0', c.isDigit = true := by
  intro c hc
  rw [List.eq_of_mem_replicate hc]
  rfl

section

variable {cs : List Char} (hdigit : ∀ c ∈ cs, c.isDigit = true)

include hdigit

/-- Digits before the point, with zeros behind them, one of which stands behind the point. -/
theorem decimal_beforePoint (hne : cs ≠ []) (n : Nat) :
    Decimal (cs ++ List.replicate n '0' ++ ['.', '0']) (digitsValue cs * 10 ^ (n + 1)) (-1) := by
  refine .of_eq (cs ++ List.replicate n '0') (by simp [hne])
    (fun c hc => (List.mem_append.1 hc).elim (hdigit c) (isDigit_replicate n c)) (.digits ['0'] (by simp))
    .nothing (by simp) ?_ rfl
  rw [List.append_assoc, ← List.replicate_succ', digitsValue_append, digitsValue_zeros, List.length_replicate,
    Nat.add_zero, Nat.mul_comm]

/-- Digits behind the point, with zeros before them. -/
theorem decimal_behindPoint (n : Nat) :
    Decimal (['0', '.'] ++ List.replicate n '0' ++ cs) (digitsValue cs) (-(n + cs.length)) := by
  have hzero : digitsValue ['0'] = 0 := rfl
  refine .of_eq ['0'] (by decide) (by simp) (.digits (List.replicate n '0' ++ cs) fun c hc =>
    (List.mem_append.1 hc).elim (isDigit_replicate n c) (hdigit c)) .nothing (by simp) ?_ ?_
  · rw [digitsValue_append, digitsValue_append, digitsValue_zeros, hzero, Nat.mul_zero, Nat.mul_zero, Nat.zero_add,
      Nat.zero_add]
  · rw [List.length_append, List.length_replicate]
    omega

/-- Digits on both sides of the point. -/
theorem decimal_aroundPoint {k : Nat} (hpos : 0 < k) (hlt : k < cs.length) :
    Decimal (cs.take k ++ ['.'] ++ cs.drop k) (digitsValue cs) (k - cs.length) := by
  refine .of_eq (cs.take k) ?_ (fun c hc => hdigit c (List.mem_of_mem_take hc))
    (.digits (cs.drop k) fun c hc => hdigit c (List.mem_of_mem_drop hc)) .nothing (by simp) ?_ ?_
  · exact List.ne_nil_of_length_pos (by rw [List.length_take]; omega)
  · rw [List.take_append_drop]
  · rw [List.length_drop]
    omega

end

/-- A number with a point is written with the digits that it has, or with zeros behind them. -/
theorem decimal_positional (digits : Nat) {exponent : Int}
    (h : exponent + (Nat.toDigits 10 digits).length - 1 < 16) :
    ∃ value power, Decimal (Double.positional (Nat.toDigits 10 digits) exponent) value power ∧
      ofDecimal value power = ofDecimal digits exponent := by
  have hne : Nat.toDigits 10 digits ≠ [] := Nat.toDigits_ne_nil
  have hdigit := isDigit_toDigits digits
  have hvalue := digitsValue_toDigits digits
  generalize Nat.toDigits 10 digits = cs at *
  have hlength := List.length_pos_of_ne_nil hne
  unfold Double.positional
  simp only
  split
  · rename_i hexp
    obtain ⟨n, rfl⟩ := Int.eq_ofNat_of_zero_le hexp
    have hdecimal := decimal_beforePoint hdigit hne n
    rw [hvalue] at hdecimal
    exact ⟨_, _, hdecimal, Double.ofDecimal_mul_pow digits (by omega)⟩
  · refine ⟨digits, exponent, ?_, rfl⟩
    split
    · rename_i hexp hpoint
      have hdecimal := decimal_behindPoint hdigit (-(cs.length + exponent)).toNat
      rwa [hvalue, show -(((-(cs.length + exponent)).toNat : Int) + cs.length) = exponent by omega] at hdecimal
    · rename_i hexp hpoint
      have hdecimal := decimal_aroundPoint hdigit (k := (cs.length + exponent).toNat) (by omega) (by omega)
      rwa [hvalue, show ((cs.length + exponent).toNat : Int) - cs.length = exponent by omega] at hdecimal

/-- A number with a power of ten is written with the digits that it has. -/
theorem decimal_scientific (digits : Nat) (exponent : Int) :
    Decimal (Double.scientific (Nat.toDigits 10 digits) exponent) digits exponent := by
  have hne : Nat.toDigits 10 digits ≠ [] := Nat.toDigits_ne_nil
  have hdigit := isDigit_toDigits digits
  have hvalue := digitsValue_toDigits digits
  generalize Nat.toDigits 10 digits = cs at *
  unfold Double.scientific
  simp only
  split
  · exact absurd rfl hne
  · rename_i d
    exact .of_eq [d] hne hdigit .nothing (.power _) rfl hvalue (by simp)
  · rename_i d ds _
    obtain ⟨hd, hds⟩ := List.forall_mem_cons.1 hdigit
    exact .of_eq [d] (by simp) (by simpa using hd) (.digits ds hds) (.power _) rfl hvalue
      (by rw [List.length_cons]; omega)

/-- The text of a finite magnitude writes a decimal that rounds to it. -/
theorem decimal_printMagnitude {m : Nat} (h : m < Double.infinity) :
    ∃ value exponent, Decimal (Double.printMagnitude m) value exponent ∧ ofDecimal value exponent = m := by
  unfold Double.printMagnitude
  rw [if_neg (Nat.ne_of_lt h)]
  split
  · rename_i hzero
    refine ⟨0, -1, ?_, ?_⟩
    · exact .of_eq ['0'] (by decide) (by simp) (.digits ['0'] (by simp)) .nothing rfl rfl rfl
    · rw [hzero]
      exact if_pos rfl
  · rename_i hzero
    have hshortest := Double.ofDecimal_shortest (Nat.pos_of_ne_zero hzero) (Nat.le_of_lt h)
    generalize Double.shortest m = d at hshortest
    obtain ⟨digits, exponent⟩ := d
    simp only
    split
    · rename_i hpower
      obtain ⟨value, power, hdecimal, hround⟩ := decimal_positional digits hpower.2
      exact ⟨value, power, hdecimal, hround.trans hshortest⟩
    · exact ⟨digits, exponent, decimal_scientific digits exponent, hshortest⟩

/-! ## Doubles -/

theorem toList_print (x : Double) : x.print.toList = signText x.negative ++ Double.printMagnitude x.magnitude := by
  unfold Double.print signText
  rw [String.toList_ofList]
  cases x.negative <;> rfl

theorem beginsNumber_print {x : Double} (h : x.magnitude < Double.infinity) : BeginsNumber x.print.toList := by
  obtain ⟨value, exponent, hdecimal, -⟩ := decimal_printMagnitude h
  rw [toList_print]
  cases x.negative with
  | false => exact hdecimal.beginsNumber
  | true => exact ⟨'-', _, rfl, .inr rfl⟩

/-- A decimal is not taken for a row of hexadecimal digits. -/
theorem Decimal.dropWord?_hex {text : List Char} {value : Nat} {exponent : Int} (h : Decimal text value exponent)
    {rest : List Char} (hrest : Stops rest) : dropWord? ['0', 'x'] (text ++ rest) = none := by
  obtain ⟨hne, hwhole, hfraction, hscale⟩ := h
  rename_i whole text part tail power
  have hx : ∀ c, c.isDigit = true → c ≠ 'x' := by
    rintro _ hdigit rfl
    cases hdigit
  have hbehind : (text ++ tail ++ rest).head? ≠ some 'x' := by
    cases hfraction with
    | digits part _ => simp
    | nothing =>
      cases hscale with
      | power p => simp
      | nothing =>
        intro hhead
        cases hrest 'x' hhead
  cases whole with
  | nil => exact absurd rfl hne
  | cons c cs =>
    have hsecond : (cs ++ (text ++ tail) ++ rest).head? ≠ some 'x' := by
      cases cs with
      | nil => exact hbehind
      | cons d ds =>
        intro hhead
        exact hx d (hwhole d (by simp)) (Option.some.inj hhead)
    show (if '0' = c then dropWord? ['x'] (cs ++ (text ++ tail) ++ rest) else none) = none
    rw [dropWord?_of_head hsecond, ite_self]

/-- A finite double is read back as it was written. -/
theorem reads_float {x : Double} (h : x.magnitude < Double.infinity) : Reads float x.print.toList Stops (· = x) := by
  obtain ⟨value, exponent, hdecimal, hround⟩ := decimal_printMagnitude h
  have hx : ofMagnitude x.negative (ofDecimal value exponent) = x := by
    unfold ofMagnitude
    congr 1
    rw [hround]
    exact Nat.min_eq_left (Nat.le_of_lt h)
  refine reads_blanks.nil_bind (fun _ _ => ?_) fun rest _ => (beginsNumber_print h).shows.append rest
  refine (Reads.here (F := Anything)).nil_bind (fun place _ => ?_) fun _ _ => trivial
  have hhex : ∀ rest, Stops rest → dropWord? ['0', 'x'] (x.print.toList ++ rest) = none := by
    intro rest hrest
    rw [toList_print]
    cases x.negative with
    | false => exact hdecimal.dropWord?_hex hrest
    | true => exact dropWord?_of_head (by simp [signText])
  refine (Reads.accepts_false fun _ hrest => fails_exactly hrest).nil_bind ?_ hhex
  rintro _ rfl
  rw [toList_print]
  refine (reads_decimal x.negative hdecimal).weaken (fun _ h => h) ?_
  rintro _ rfl
  exact hx

end SSALint.Source
