/-
Rounding of decimals to doubles. The place nearest to a quotient hangs on the value of the quotient alone
(`nearest_mul`), a place is nearest to its own value (`nearest_quotient`), and so the decimal that is chosen
for a place rounds to that place (`ofDecimal_shortest`).
-/
import SSALint.Double.Shortest
import Mathlib.Data.Nat.Basic
import Mathlib.Tactic.DefEqTransformations
import Mathlib.Algebra.Order.Ring.Nat

namespace SSALint.Double

/-! ## Quotients -/

theorem roundHalfEven_mul (num den : Nat) {c : Nat} (hc : 0 < c) :
    roundHalfEven (num * c) (den * c) = roundHalfEven num den := by
  have hdiv : num * c / (den * c) = num / den := Nat.mul_div_mul_right num den hc
  have hmod : num * c % (den * c) = num % den * c := Nat.mul_mod_mul_right c num den
  have hlt : 2 * (num % den * c) < den * c ↔ 2 * (num % den) < den := by
    rw [← Nat.mul_assoc]
    exact Nat.mul_lt_mul_right hc
  have heq : 2 * (num % den * c) = den * c ↔ 2 * (num % den) = den := by
    rw [← Nat.mul_assoc]
    exact Nat.mul_left_inj (Nat.ne_of_gt hc)
  unfold roundHalfEven
  simp only [hdiv, hmod, hlt, heq]

/-- A factor that numerator and denominator share does not matter. -/
theorem nearest_mul (num den : Nat) {c : Nat} (hc : 0 < c) : nearest (num * c) (den * c) = nearest num den := by
  have hunits : num * c * one = num * one * c := Nat.mul_right_comm num c one
  have hdiv : num * one * c / (den * c) = num * one / den := Nat.mul_div_mul_right _ _ hc
  unfold nearest
  simp only [hunits, hdiv, Nat.mul_right_comm den c, roundHalfEven_mul _ _ hc]

theorem roundHalfEven_mul_self (q : Nat) {den : Nat} (hd : 0 < den) : roundHalfEven (q * den) den = q := by
  have hmod : q * den % den = 0 := Nat.mul_mod_left q den
  unfold roundHalfEven
  simp only [hmod, Nat.mul_zero, Nat.mul_div_cancel _ hd, if_pos (Or.inl hd)]

/-! ## Places -/

theorem binade_eq : binade = 2 ^ 52 := rfl

theorem one_pos : 0 < one := by
  unfold one
  generalize 1074 = n
  exact Nat.two_pow_pos n

/-- A place is its significand on the grid of its shift. -/
theorem significand_add_shift (m : Nat) : significand m + shift m * binade = m := by
  unfold significand shift
  have hle : (m / binade - 1) * binade ≤ m := by
    calc (m / binade - 1) * binade ≤ m / binade * binade := Nat.mul_le_mul_right _ (Nat.sub_le _ _)
      _ ≤ m := Nat.div_mul_le_self m binade
  omega

/-- Below the first power of two places are values; from there on the significand fills a binade. -/
theorem significand_cases (m : Nat) :
    (shift m = 0 ∧ significand m = m ∧ m < binade) ∨ (binade ≤ significand m ∧ significand m < 2 * binade) := by
  have hsum := significand_add_shift m
  by_cases hsmall : m < binade
  · have hshift : shift m = 0 := by
      unfold shift
      rw [Nat.div_eq_of_lt hsmall]
    rw [hshift] at hsum
    exact .inl ⟨hshift, by omega, hsmall⟩
  · have hdiv : 1 ≤ m / binade := (Nat.one_le_div_iff (by decide)).2 (Nat.le_of_not_lt hsmall)
    have hmod := Nat.div_add_mod m binade
    have hlt : m % binade < binade := Nat.mod_lt m (by decide)
    have hsplit : (m / binade - 1) * binade + binade = binade * (m / binade) := by
      have hle : binade ≤ binade * (m / binade) := Nat.le_mul_of_pos_right binade hdiv
      rw [Nat.sub_mul, Nat.one_mul, Nat.mul_comm]
      omega
    unfold shift at hsum
    exact .inr ⟨by omega, by omega⟩

theorem significand_pos {m : Nat} (hm : 0 < m) : 0 < significand m := by
  rcases significand_cases m with ⟨-, hsig, -⟩ | ⟨hsig, -⟩
  · omega
  · exact Nat.lt_of_lt_of_le (by decide) hsig

/-- The value at a place lies in the binade that the shift of the place says. -/
theorem log2_significand_mul {m : Nat} (hm : 0 < m) :
    (significand m * 2 ^ shift m).log2 - 52 = shift m := by
  rcases significand_cases m with ⟨hshift, hsig, hsmall⟩ | ⟨hlow, hhigh⟩
  · have hlog : m.log2 < 52 := by
      rw [Nat.log2_lt (by omega), ← binade_eq]
      exact hsmall
    rw [hshift, hsig, Nat.pow_zero, Nat.mul_one]
    omega
  · have hpow : 0 < 2 ^ shift m := Nat.two_pow_pos _
    have hne : significand m * 2 ^ shift m ≠ 0 := (Nat.mul_pos (significand_pos hm) hpow).ne'
    have hlog : (significand m * 2 ^ shift m).log2 = 52 + shift m := by
      rw [Nat.log2_eq_iff hne, Nat.add_right_comm, Nat.pow_add, Nat.pow_add]
      exact ⟨Nat.mul_le_mul_right _ hlow, Nat.mul_lt_mul_of_pos_right hhigh hpow⟩
    omega

/-- The value at a place is nearest to the place. -/
theorem nearest_quotient {m : Nat} (hm : 0 < m) (hfin : m ≤ infinity) {c : Nat} (hc : 0 < c) :
    nearest (significand m * 2 ^ shift m * c) (one * c) = m := by
  have hdiv : significand m * 2 ^ shift m * one / one = significand m * 2 ^ shift m :=
    Nat.mul_div_cancel _ one_pos
  have hround : roundHalfEven (significand m * 2 ^ shift m * one) (one * 2 ^ shift m) = significand m := by
    rw [Nat.mul_assoc, Nat.mul_comm (2 ^ shift m) one]
    exact roundHalfEven_mul_self _ (Nat.mul_pos one_pos (Nat.two_pow_pos _))
  rw [nearest_mul _ _ hc]
  unfold nearest
  simp only [Nat.pow_eq, hdiv, log2_significand_mul hm, hround, significand_add_shift]
  exact Nat.min_eq_left hfin

/-! ## Decimals -/

theorem ofDecimal_eq_nearest {digits : Nat} {exponent : Int} (hd : digits ≠ 0) (hhigh : exponent < 310)
    (hlow : -330 ≤ exponent + (digits.log2 : Int)) :
    ofDecimal digits exponent = nearest (digits * 10 ^ exponent.toNat) (10 ^ (-exponent).toNat) := by
  unfold ofDecimal decimalQuotient
  rw [if_neg hd, if_neg (by omega), if_neg (by omega)]
  rfl

/-- Moving the point of a decimal with a small exponent behind its first zero changes nothing. -/
theorem ofDecimal_mul_pow (digits : Nat) {exponent : Nat} (he : exponent < 16) :
    ofDecimal (digits * 10 ^ (exponent + 1)) (-1) = ofDecimal digits exponent := by
  by_cases hd : digits = 0
  · rw [hd, Nat.zero_mul]
    unfold ofDecimal
    rw [if_pos rfl, if_pos rfl]
  · have hpos : digits * 10 ^ (exponent + 1) ≠ 0 := Nat.mul_ne_zero hd (Nat.pow_pos (by decide)).ne'
    have hneg : (-(exponent : Int)).toNat = 0 := by omega
    rw [ofDecimal_eq_nearest hpos (by omega) (by omega), ofDecimal_eq_nearest hd (by omega) (by omega),
      Int.toNat_natCast, hneg, Nat.pow_zero, show (-1 : Int).toNat = 0 from rfl,
      show (- -1 : Int).toNat = 1 from rfl, Nat.pow_zero, Nat.pow_one, Nat.mul_one, Nat.pow_succ,
      ← Nat.mul_assoc]
    simpa using nearest_mul (digits * 10 ^ exponent) 1 (c := 10) (by decide)

/-- The decimal that equals the value at a place rounds to the place. -/
theorem ofDecimal_exactDecimal {m : Nat} (hm : 0 < m) (hfin : m ≤ infinity) :
    ofDecimal (exactDecimal m).1 (exactDecimal m).2 = m := by
  have hten : ∀ k, 10 ^ k = Nat.pow 2 k * 5 ^ k := fun k => Nat.mul_pow 2 5 k
  have hvalue : 0 < significand m * 2 ^ shift m := Nat.mul_pos (significand_pos hm) (Nat.two_pow_pos _)
  have hdigits : ∀ k, significand m * 2 ^ shift m * 5 ^ k ≠ 0 := fun k =>
    (Nat.mul_pos hvalue (Nat.pow_pos (by decide))).ne'
  have hlog : ∀ k, k ≤ (significand m * 2 ^ shift m * 5 ^ k).log2 := fun k => by
    rw [Nat.le_log2 (hdigits k)]
    calc 2 ^ k ≤ 5 ^ k := Nat.pow_le_pow_left (by decide) k
      _ ≤ significand m * 2 ^ shift m * 5 ^ k := Nat.le_mul_of_pos_left _ hvalue
  have hround : ∀ (k : Nat) (e : Int), e = -k → one = Nat.pow 2 k →
      ofDecimal (significand m * 2 ^ shift m * 5 ^ k) e = m := by
    rintro k e rfl hone
    have hlow := hlog k
    have hneg : (- -(k : Int)).toNat = k := by omega
    have hpos : (-(k : Int)).toNat = 0 := by omega
    rw [ofDecimal_eq_nearest (hdigits k) (by omega) (by omega), hneg, hpos, Nat.pow_zero, Nat.mul_one, hten,
      ← hone]
    exact nearest_quotient hm hfin (Nat.pow_pos (by decide))
  unfold exactDecimal
  simp only [Nat.pow_eq]
  have hone : one = Nat.pow 2 1074 := by
    unfold one
    generalize 1074 = k
    rfl
  generalize hk : 1074 = k at hone ⊢
  exact hround k (-1074) (by omega) hone

/-- A neighbour is taken only if it is rounded to the place, however decimals are rounded. -/
theorem round_of_neighbour {round : Nat → Int → Nat} {m lower : Nat} {e : Int} {nearLower : Prop}
    [Decidable nearLower] {d : Nat × Int}
    (h : (match round lower e == m, round (lower + 1) e == m with
      | true, true => if nearLower then some (lower, e) else some (lower + 1, e)
      | true, false => some (lower, e)
      | false, true => some (lower + 1, e)
      | false, false => none) = some d) : round d.1 d.2 = m := by
  split at h
  · rename_i hlower hupper
    split at h
    · cases h
      exact eq_of_beq hlower
    · cases h
      exact eq_of_beq hupper
  · rename_i hlower hupper
    cases h
    exact eq_of_beq hlower
  · rename_i hlower hupper
    cases h
    exact eq_of_beq hupper
  · cases h

/-- A decimal is taken from a grid only if it reads back. -/
theorem ofDecimal_of_onGrid? {m : Nat} {e : Int} {d : Nat × Int} (h : onGrid? m e = some d) :
    ofDecimal d.1 d.2 = m := by
  -- Neither the rounding nor the powers are to be computed, so they are generalized.
  generalize hgrid : onGrid? = grid at h
  delta onGrid? at hgrid
  subst hgrid
  generalize ofDecimal = round at h ⊢
  generalize quotient = value at h
  generalize decimalQuotient = scale at h
  beta_reduce at h
  generalize value m = value at h
  generalize scale 1 e = scale at h
  obtain ⟨num, den⟩ := value
  obtain ⟨up, down⟩ := scale
  exact round_of_neighbour h

/-- The decimal that is chosen for a place rounds to the place. -/
theorem ofDecimal_shortest {m : Nat} (hm : 0 < m) (hfin : m ≤ infinity) :
    ofDecimal (shortest m).1 (shortest m).2 = m := by
  have hchosen : ∀ found : Option (Nat × Int), (∀ d, found = some d → ofDecimal d.1 d.2 = m) →
      ∀ d, found.getD (exactDecimal m) = d → ofDecimal d.1 d.2 = m := by
    intro found hfound d hd
    cases found with
    | none =>
      rw [Option.getD_none] at hd
      rw [← hd]
      exact ofDecimal_exactDecimal hm hfin
    | some d' => exact hfound d (congrArg some hd)
  refine hchosen _ (fun d hd => ?_) (shortest m) rfl
  obtain ⟨i, -, hgrid⟩ := List.exists_of_findSome?_eq_some hd
  exact ofDecimal_of_onGrid? hgrid

end SSALint.Double
