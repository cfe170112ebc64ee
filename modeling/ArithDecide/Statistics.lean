/-!
# Counters

The engine counts what it does. Counters only grow: leaving a scope does not take them back.
-/

namespace ArithDecide

/-- How often each kind of event happened. -/
structure Statistics where
  checks : Nat := 0
  conflicts : Nat := 0
  pivots : Nat := 0
  assertLower : Nat := 0
  assertUpper : Nat := 0
  /-- Literals handed out because the bounds entail them. -/
  boundPropagations : Nat := 0
  /-- Bounds derived from rows. -/
  impliedBounds : Nat := 0
  fixedEqualities : Nat := 0
  gcdTests : Nat := 0
  gcdConflicts : Nat := 0
  patches : Nat := 0
  patchesSucceeded : Nat := 0
  gomoryCuts : Nat := 0
  branches : Nat := 0
  basisSteps : Nat := 0
  nonlinearBounds : Nat := 0
  nestedForms : Nat := 0
  /-- The largest number of rows so far. -/
  maxRows : Nat := 0
  /-- The largest number of variables so far. -/
  maxColumns : Nat := 0
  deriving DecidableEq, Inhabited

end ArithDecide
