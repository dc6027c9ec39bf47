/-
Double precision numbers without the undefined ones. A number is a sign and a magnitude, the
magnitude being the place of its absolute value in the ascending row of all absolute values: 0 is
zero, 1 the least positive number, `infinity` the infinite one. The value at place `m` is
`significand m * 2 ^ shift m` times the least positive number, so places ascend as values do.
-/

namespace SSALint

/-- A double precision number that is not undefined. Both zeros and both infinities are included. -/
structure Double where
  negative : Bool
  magnitude : Nat
  le_infinity : magnitude ≤ 0x7FF0000000000000 := by decide
deriving DecidableEq, Repr

namespace Double

/-- The place of the infinite value: the first one after all finite values. -/
def infinity : Nat := 0x7FF0000000000000

instance : Inhabited Double := ⟨⟨false, 0, by decide⟩⟩

/-- The number with a sign and a magnitude, places beyond infinity being infinity. -/
def ofMagnitude (negative : Bool) (m : Nat) : Double :=
  ⟨negative, min m infinity, Nat.min_le_right m infinity⟩

/-- The number that 64 bits encode, sign first; `none` if they encode an undefined one. -/
def ofBits? (bits : Nat) : Option Double :=
  let sign := 0x8000000000000000
  let m := bits % sign
  if h : m ≤ infinity then some ⟨bits / sign % 2 == 1, m, h⟩ else none

/-- The number of places between two powers of two. -/
def binade : Nat := 0x10000000000000

/-- How often the unit of the least positive number doubles at a place. -/
def shift (m : Nat) : Nat := m / binade - 1

/-- The number of units at a place. -/
def significand (m : Nat) : Nat := m - shift m * binade

/-- The number of units in one: the least positive number is `2 ^ (-1074)`. -/
def one : Nat := Nat.pow 2 1074

/-! ## Rounding -/

/-- The integer nearest to `num / den`; halfway between two integers, the even one. -/
def roundHalfEven (num den : Nat) : Nat :=
  let q := num / den
  let twice := 2 * (num % den)
  if twice < den ∨ (twice = den ∧ q % 2 = 0) then q else q + 1

/-- The place nearest to `num / den`; halfway between two places, the even one. Places of equal
shift are equally far apart, so the quotient is rounded on the grid of its own shift. -/
def nearest (num den : Nat) : Nat :=
  let units := num * one
  let s := (units / den).log2 - 52
  min (roundHalfEven units (den * Nat.pow 2 s) + s * binade) infinity

/-! ## Decimals -/

/-- The decimal `digits * 10 ^ exponent` as a quotient. -/
def decimalQuotient (digits : Nat) (exponent : Int) : Nat × Nat :=
  (digits * Nat.pow 10 exponent.toNat, Nat.pow 10 (-exponent).toNat)

/-- The place nearest to the decimal `digits * 10 ^ exponent`. A decimal from `10 ^ 310` on is
infinite and one below `10 ^ (-330)` is zero, which spares the powers of huge exponents. -/
def ofDecimal (digits : Nat) (exponent : Int) : Nat :=
  if digits = 0 then 0
  else if exponent ≥ 310 then infinity
  else if exponent + (digits.log2 : Int) < -330 then 0
  else
    let (num, den) := decimalQuotient digits exponent
    nearest num den

end Double
end SSALint
