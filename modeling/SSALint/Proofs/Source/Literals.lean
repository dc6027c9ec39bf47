/-
Literals in print. A literal that was read under a type is read again from its own text, in full and under its own type,
as one of that type and text, unless it is an infinite number: its text is refused (`value_print_iff`).
-/
import SSALint.Proofs.Outcome
import SSALint.Proofs.Source.ReadsValue
import Mathlib

namespace SSALint

namespace Constant

/-- The literals that values under a type are: words, and the numbers of the type. -/
def Under (t : Ty) : Constant → Prop
  | .int bits value => t = .int bits ∨ bits = 1 ∧ (value = 0 ∨ value = 1)
  | .float type _ => type = t ∧ t.isFloat = true
  | .null => True
  | .undef type => type = t

/-- A number beyond all finite ones. -/
def Infinite : Constant → Prop
  | .float _ value => value.magnitude = Double.infinity
  | _ => False

/-- The literal that the text of a literal means: of one bit integers it tells only whether they are zero. -/
def plain : Constant → Constant
  | .int bits value => .int bits (if bits = 1 then if value = 0 then 0 else 1 else value)
  | c => c

theorem type_plain (c : Constant) : c.plain.type = c.type := by
  cases c <;> rfl

theorem print_plain (c : Constant) : c.plain.print = c.print := by
  cases c with
  | int bits value =>
    show (if bits = 1 then _ else _) = if bits = 1 then _ else _
    by_cases hbits : bits = 1
    · by_cases hvalue : value = 0 <;> simp [hbits, hvalue]
    · simp [hbits]
  | _ => rfl

/-- The text of a literal means a literal under the type of the literal, unless it is infinite. -/
theorem Under.fits_plain {t : Ty} {c : Constant} (h : c.Under t) (hfinite : ¬ c.Infinite) : c.plain.Fits c.type := by
  cases c with
  | null => exact trivial
  | undef type => rfl
  | int bits value =>
    show if bits = 1 then _ else _
    by_cases hbits : bits = 1
    · rw [if_pos hbits, if_pos hbits]
      split
      · exact .inl rfl
      · exact .inr rfl
    · rw [if_neg hbits]
      rfl
  | float type value =>
    obtain ⟨rfl, hfloat⟩ := h
    exact ⟨rfl, hfloat, Nat.lt_of_le_of_ne value.le_infinity hfinite⟩

end Constant

namespace Source

/-! ## Literals under a type -/

theorem under_literalWord? {t : Ty} {name : String} {c : Constant} (h : literalWord? t name = some c) : c.Under t := by
  unfold literalWord? at h
  split at h
  · cases h
    exact trivial
  · cases h
    rfl
  · cases h
    exact .inr ⟨rfl, .inr rfl⟩
  · cases h
    exact .inr ⟨rfl, .inl rfl⟩
  · cases h

theorem under_literalWord (t : Ty) : (literalWord t).Yields (·.Under t) := by
  unfold literalWord
  refine .skip fun name => ?_
  split
  · rename_i c hc
    exact .pure (under_literalWord? hc)
  · exact .fail

theorem under_number (t : Ty) : (number t).Yields (·.Under t) := by
  unfold number
  split
  · exact .skip fun x => .pure ⟨rfl, rfl⟩
  · exact .skip fun x => .pure ⟨rfl, rfl⟩
  · exact .skip fun x => .pure ⟨rfl, rfl⟩
  · exact .skip fun x => .pure (.inl rfl)
  · exact .fail

/-- A value under a type is a name, or one of the literals of the type. -/
theorem under_value (t : Ty) : (value t).Yields fun v => ∀ c, v = .const c → c.Under t := by
  -- The four things that are tried in turn: a local value, a symbol, a word, a number.
  unfold value
  refine .skip fun _ => .skip fun x => ?_
  split
  · exact .pure nofun
  refine .skip fun sym => ?_
  split
  · exact .pure nofun
  refine .bind (.attempt (under_literalWord t)) fun o ho => ?_
  cases o with
  | some c => exact .pure fun d hd => Operand.const.inj hd ▸ ho c rfl
  | none => exact .bind (under_number t) fun c hc => .pure fun d hd => Operand.const.inj hd ▸ hc

/-! ## Infinite numbers -/

/-- The text of an infinite number, with its sign or without, is no number and no word that writes a literal. -/
theorem fails_value_infinite {t : Ty} (ht : t.isFloat = true) {x : Double} (hx : x.magnitude = Double.infinity) :
    Fails (value t) x.print.toList := by
  have htext : x.print.toList = signText x.negative ++ ['i', 'n', 'f'] := by
    rw [toList_print, hx, Double.printMagnitude, if_pos rfl]
  have hrefused : ∀ t ∈ [Ty.half, .float, .double], ∀ negative,
      (value t (signText negative ++ ['i', 'n', 'f'])).isOk = false := by
    decide +kernel
  have hmem : t ∈ [Ty.half, .float, .double] := by
    cases t with
    | half | float | double => simp
    | _ => cases ht
  have hfail := hrefused t hmem x.negative
  rw [htext]
  cases hvalue : value t (signText x.negative ++ ['i', 'n', 'f']) with
  | error e => exact ⟨e, hvalue⟩
  | ok y =>
    rw [hvalue] at hfail
    cases hfail

/-! ## Texts of literals -/

/-- Of the literals that are read under a type, those that are not infinite are read again from their texts: in full,
under their own types, and as literals of these types and these texts. An infinite number is not read again. -/
theorem value_print_iff {t : Ty} {text rest : List Char} {c : Constant} (h : value t text = .ok (.const c, rest)) :
    (∃ d : Constant, value c.type c.print.toList = .ok (.const d, []) ∧ d.type = c.type ∧ d.print = c.print) ↔
      ¬ c.Infinite := by
  have hunder : c.Under t := under_value t text _ rest h c rfl
  constructor
  · rintro ⟨d, hd, -⟩ hinfinite
    cases c with
    | float type x =>
      obtain ⟨e, he⟩ := fails_value_infinite (hunder.1 ▸ hunder.2) (t := type) hinfinite
      exact nomatch he.symm.trans hd
    | _ => exact hinfinite
  · intro hfinite
    have hreads := reads_value_const (hunder.fits_plain hfinite)
    rw [c.print_plain] at hreads
    obtain ⟨v, hv, rfl⟩ := hreads [] nofun
    rw [List.append_nil] at hv
    exact ⟨c.plain, hv, c.type_plain, c.print_plain⟩

/-- The greatest finite number. -/
def greatest : Constant := .float .double ⟨false, 0x7FEFFFFFFFFFFFFF, by decide⟩

/-- The greatest finite number is read from its bits, and again from the decimal that is its text. -/
theorem value_print_greatest :
    value .double "0x7FEFFFFFFFFFFFFF, double 1.0".toList = .ok (.const greatest, ", double 1.0".toList) ∧
      greatest.print = "1.7976931348623157e308" ∧
      ((∃ d : Constant, value greatest.type greatest.print.toList = .ok (.const d, []) ∧ d.type = greatest.type ∧
        d.print = greatest.print) ↔ ¬ greatest.Infinite) := by
  have h : value .double "0x7FEFFFFFFFFFFFFF, double 1.0".toList = .ok (.const greatest, ", double 1.0".toList) :=
    Outcome.toOption_eq_some_iff.1 (by decide +kernel)
  exact ⟨h, by decide +kernel, value_print_iff h⟩

/-- A decimal beyond all finite numbers is read as an infinite one, whose text is refused. -/
theorem not_value_print_beyond : ∃ c : Constant, value .double "1e999".toList = .ok (.const c, []) ∧
    c.print = "inf" ∧ ¬ ∃ d : Constant, value c.type c.print.toList = .ok (.const d, []) := by
  refine ⟨.float .double ⟨false, Double.infinity, le_rfl⟩, Outcome.toOption_eq_some_iff.1 (by decide +kernel),
    by decide +kernel, ?_⟩
  rintro ⟨d, hd⟩
  have hfails : Fails (value .double) (Double.print ⟨false, Double.infinity, le_rfl⟩).toList :=
    fails_value_infinite rfl rfl
  obtain ⟨e, he⟩ := hfails
  exact nomatch he.symm.trans hd

end Source
end SSALint
