import ArithDecide.Number.Rational
import ArithDecide.Snapshot.SExpr

/-!
# Numerals

A rational is written as `5`, `(- 5)`, `(/ 1 2)` or `(- (/ 1 2))`. Reading accepts any nesting of
signs, and a quotient of any two integers that reading accepts.
-/

namespace ArithDecide.Numeral

/-- The text of a rational that is at least zero. -/
def magnitudeText (value : Rat) : String :=
  if value.den = 1 then toString value.num
  else "(/ " ++ toString value.num ++ " " ++ toString value.den ++ ")"

/-- The text of a rational. -/
def text (value : Rat) : String :=
  if value < 0 then "(- " ++ magnitudeText (-value) ++ ")" else magnitudeText value

/-- Whether a character is a decimal digit. -/
def isDigit (c : Char) : Bool := '0' ≤ c && c ≤ '9'

/-- Whether a symbol consists of decimal digits only. -/
def isDigits (name : String) : Bool := name.toList.all isDigit

/-- The number with the given decimal digits. -/
def ofDigits (digits : List Char) : Nat :=
  digits.foldl (fun acc c => 10 * acc + (c.toNat - '0'.toNat)) 0

/-- The rational that an expression stands for. An error is the text of the offending expression. -/
def read : SExpr → Except String Rat
  | .symbol name =>
    if isDigits name then .ok (ofDigits name.toList : Nat) else .error name
  | .list [.symbol sign, inner] =>
    if sign = "-" then (read inner).map (- ·)
    else .error (SExpr.list [.symbol sign, inner]).text
  | .list [.symbol slash, numerator, denominator] =>
    if slash = "/" then do
      let n ← read numerator
      let d ← read denominator
      if n.isInt && d.isInt && d ≠ 0 then .ok (n / d)
      else .error (SExpr.list [.symbol slash, numerator, denominator]).text
    else .error (SExpr.list [.symbol slash, numerator, denominator]).text
  | .list items => .error (SExpr.list items).text

end ArithDecide.Numeral
