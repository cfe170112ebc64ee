/-!
# Exact rationals

Everything in this library is computed with exact rationals. This module holds the few operations on
them that the standard library lacks: the fractional part, the sum and the common denominator of a
list, and the text of a rational, `n` or `n/d` in lowest terms.
-/

namespace ArithDecide

/-- The distance down to the greatest integer below; always at least zero and less than one. -/
def fractionalPart (value : Rat) : Rat :=
  value - value.floor

/-- How far the value is from the nearest integer. -/
def distanceToInteger (value : Rat) : Rat :=
  let below := fractionalPart value
  let above := 1 - below
  if below ≤ above then below else above

/-- The sum of a list. -/
def total (values : List Rat) : Rat :=
  values.foldr (fun value acc => value + acc) 0

/-- The least common multiple of the denominators. -/
def denominatorsLcm (values : List Rat) : Nat :=
  values.foldl (fun acc value => acc.lcm value.den) 1

/-- The greatest common divisor of the absolute values; zero for the empty list. -/
def gcdOfInts (values : List Int) : Nat :=
  values.foldl (fun acc value => acc.gcd value.natAbs) 0

/-- A rational is written as its numerator, followed by its denominator unless that is one. -/
def rationalText (value : Rat) : String :=
  if value.den = 1 then toString value.num else toString value.num ++ "/" ++ toString value.den

end ArithDecide
