import ArithDecide.Snapshot.Basic
import ArithDecide.Snapshot.Numeral

/-!
# Writing snapshots

One command per line: the declarations, the assertions, and `(check-sat)`. An assertion about an
undeclared variable and a product of fewer than two factors cannot be written.
-/

namespace ArithDecide

/-- Why a snapshot cannot be written. -/
inductive WriteError where
  | undeclaredVariable (name : String)
  | degenerateProduct (var : String)
  deriving DecidableEq, Inhabited

namespace WriteError

def message : WriteError → String
  | undeclaredVariable name => "variable '" ++ name ++ "' is used before it is declared"
  | degenerateProduct var => "the product defining '" ++ var ++ "' has fewer than two factors"

end WriteError

/-- An error, and what was written before it. -/
structure WriteFailure where
  error : WriteError
  written : String
  deriving DecidableEq, Inhabited

namespace Snapshot

def declarationText (d : Declaration) : String :=
  "(declare-fun " ++ d.name ++ " () " ++ d.sort.name ++ ")\n"

/-- What is written before the body of an assertion. -/
def assertionStart : String := "(assert "

/-- The terms of a sum, each behind a blank; the empty sum is a zero. -/
def termsText : List (Rat × String) → String
  | [] => " 0"
  | terms => String.join (terms.map fun t => " (* " ++ Numeral.text t.1 ++ " " ++ t.2 ++ ")")

/-- The relation of a bound. -/
def relationText (strict : Bool) : String := if strict then "<" else "<="

/-- The body of an assertion. -/
def bodyText : Assertion → Except WriteError String
  | .row base terms => .ok ("(= " ++ base ++ " (+" ++ termsText terms ++ "))")
  | .product var factors =>
    if factors.length < 2 then .error (.degenerateProduct var)
    else .ok ("(= " ++ var ++ " (*" ++ String.join (factors.map (" " ++ ·)) ++ "))")
  | .fixed var value => .ok ("(= " ++ var ++ " " ++ Numeral.text value ++ ")")
  | .lower var value strict =>
    .ok ("(" ++ relationText strict ++ " " ++ Numeral.text value ++ " " ++ var ++ ")")
  | .upper var value strict =>
    .ok ("(" ++ relationText strict ++ " " ++ var ++ " " ++ Numeral.text value ++ ")")

/-- Writes assertions behind what was written before. -/
def writeAssertions (s : Snapshot) (written : String) :
    List Assertion → Except WriteFailure String
  | [] => .ok written
  | a :: rest =>
    match s.undeclared? a with
    | some name => .error ⟨.undeclaredVariable name, written⟩
    | none =>
      match bodyText a with
      | .error error => .error ⟨error, written ++ assertionStart⟩
      | .ok body => writeAssertions s (written ++ assertionStart ++ body ++ ")\n") rest

/-- The text of a snapshot. -/
def write (s : Snapshot) : Except WriteFailure String := do
  let declared := String.join (s.declarations.map declarationText)
  let asserted ← s.writeAssertions declared s.assertions
  return asserted ++ "(check-sat)\n"

end Snapshot

end ArithDecide
