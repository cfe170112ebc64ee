/-!
# Internal failures

The engine relies on much that it does not show to its callers: that a divisor is not zero, that a bound
which an explanation needs exists, that a row which is taken back is the last one. `Failure` lists what
could go wrong. The modules beside this one run the engine again with every such condition checked before
it is relied on; a guarded function fails where the condition does not hold and otherwise answers what
the function answers.
-/

namespace ArithDecide

/-- A condition that the engine relies on and that does not hold. -/
inductive Failure where
  /-- A number is divided by zero. -/
  | divisionByZero
  /-- The verdict is changed after a conflict was found. -/
  | decided
  /-- There is not one value for every variable. -/
  | unevenColumns
  /-- An explanation needs a bound that the variable does not have. -/
  | missingBound
  /-- A dependency points past the end of the arena. -/
  | missingNode
  /-- A store is shorter than when the scope that is left was entered. -/
  | staleMark
  /-- A variable was moved to bring a base onto its bound, and the base is elsewhere. -/
  | missedTarget
  /-- The base of a new row is in use. -/
  | baseInUse
  /-- A row would mention its own base. -/
  | ownBase
  /-- A row is pivoted on a variable that it does not mention. -/
  | notInRow
  /-- A row is pivoted on a term with the coefficient zero. -/
  | zeroPivot
  /-- A row is substituted in itself. -/
  | ownRow
  /-- A term is removed that is not there. -/
  | deadEntry
  /-- A row or a column is used that is not there. -/
  | outOfRange
  /-- Squashing out tombstones would move an entry to a later position. -/
  | movedBack
  /-- A row is taken back that is not the last one. -/
  | notLastRow
  /-- A variable is forgotten that still occurs in a row. -/
  | columnInUse
  deriving DecidableEq, Inhabited

/-- Fails unless the condition holds. -/
def demand (condition : Prop) [Decidable condition] (failure : Failure) : Except Failure Unit :=
  if condition then .ok () else .error failure

end ArithDecide
