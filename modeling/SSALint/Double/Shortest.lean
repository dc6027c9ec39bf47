/-
The text of a double: the fewest decimal digits that read back as the same number and, of several
decimals with so few digits, the nearest. The search goes through the grids of the multiples of
`10 ^ e` from a coarse one to finer ones; a grid holds a decimal that reads back only if one of the
two neighbours of the value on it does.
-/
import SSALint.Double

namespace SSALint
namespace Double

/-! ## Digits -/

/-- The value at a place as a quotient. -/
def quotient (m : Nat) : Nat × Nat := (significand m * Nat.pow 2 (shift m), one)

/-- The multiple of `10 ^ e` that reads back as place `m`, if one of the two neighbours of the value
does; of two the nearer, and the upper one if they are equally near. -/
def onGrid? (m : Nat) (e : Int) : Option (Nat × Int) :=
  let (num, den) := quotient m
  let (up, down) := decimalQuotient 1 e
  let lower := num * down / (den * up)
  let nearLower := 2 * (num * down % (den * up)) < den * up
  match ofDecimal lower e == m, ofDecimal (lower + 1) e == m with
  | true, true => if nearLower then some (lower, e) else some (lower + 1, e)
  | true, false => some (lower, e)
  | false, true => some (lower + 1, e)
  | false, false => none

/-- The exponent of a grid that is too coarse for the value at a place or has it among its first
ten multiples. The logarithm of 2 to base 10 is taken as 0.30103. -/
def coarsest (m : Nat) : Int :=
  let (num, den) := quotient m
  ((num.log2 : Int) - den.log2 + 1) * 30103 / 100000 + 1

/-- The decimal that equals the value at a place. -/
def exactDecimal (m : Nat) : Nat × Int :=
  (significand m * Nat.pow 2 (shift m) * Nat.pow 5 1074, -1074)

/-- The decimal with the fewest digits that reads back as a place. Seventeen digits are always
enough; the exact decimal closes the search. -/
def shortest (m : Nat) : Nat × Int :=
  ((List.range 20).findSome? fun i => onGrid? m (coarsest m - (i : Nat))).getD (exactDecimal m)

/-! ## Notation -/

/-- The digits of `digits * 10 ^ exponent` around a decimal point, at least one on each side. -/
def positional (digits : List Char) (exponent : Int) : List Char :=
  let point := digits.length + exponent
  if exponent ≥ 0 then digits ++ List.replicate exponent.toNat '0' ++ ['.', '0']
  else if point ≤ 0 then ['0', '.'] ++ List.replicate (-point).toNat '0' ++ digits
  else digits.take point.toNat ++ ['.'] ++ digits.drop point.toNat

/-- The digits of `digits * 10 ^ exponent` with the point after the first one, if there is more
than one, and the power of ten after an `e`. -/
def scientific (digits : List Char) (exponent : Int) : List Char :=
  let power := (toString (exponent + digits.length - 1)).toList
  match digits with
  | [] => []
  | [d] => d :: 'e' :: power
  | d :: ds => d :: '.' :: ds ++ 'e' :: power

/-- The text of a magnitude: positional from `1e-4` up to but not including `1e16` and for zero. -/
def printMagnitude (m : Nat) : List Char :=
  if m = infinity then ['i', 'n', 'f']
  else if m = 0 then ['0', '.', '0']
  else
    let (digits, exponent) := shortest m
    let digits := Nat.toDigits 10 digits
    let power := exponent + digits.length - 1
    if -4 ≤ power ∧ power < 16 then positional digits exponent else scientific digits exponent

/-- The text of a number; a minus sign leads the negative ones, zero included. -/
def print (x : Double) : String :=
  let digits := printMagnitude x.magnitude
  String.ofList (if x.negative then '-' :: digits else digits)

end Double
end SSALint
