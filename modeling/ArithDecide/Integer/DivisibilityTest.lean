import ArithDecide.Engine.Bounds

/-!
# Divisibility tests

A row whose variables are integers, fixed ones apart, is scaled to integer coefficients. It has no
integer solution when the greatest common divisor of the free coefficients does not divide the
constant that the fixed variables contribute. The extended test confines the variables with the
least coefficient to their bounds: the rest must be a multiple of the common divisor of its own
coefficients.
-/

namespace ArithDecide.Engine

/-- The sum `constant + Σ free = 0` with integer coefficients. -/
structure ScaledRow where
  constant : Int
  fixed : List Var
  free : List (Var × Int)

/-- The value to which the bounds fix a variable. -/
def fixedValue? (e : Engine) (v : Var) : Option InfRat :=
  if e.bounds.isFixed v then e.bounds.lowerValue v else none

/-- Scales a row to integer coefficients, unless some free variable is not an integer. -/
def scaleRow? (e : Engine) (row : Row) : Option ScaledRow :=
  let terms := row.zeroTerms
  let fixed := terms.filter fun t => e.bounds.isFixed t.1
  let free := terms.filter fun t => !e.bounds.isFixed t.1
  if free.all fun t => e.isInt t.1 then
    let constant := total (fixed.map fun t => t.2 * ((e.fixedValue? t.1).getD 0).real)
    let scale : Rat := denominatorsLcm (free.map Prod.snd ++ [constant])
    some
      { constant := (constant * scale).floor
        fixed := fixed.map Prod.fst
        free := free.map fun t => (t.1, (t.2 * scale).floor) }
  else none

/-- What fixes the given variables. -/
def fixedReasons (e : Engine) (vs : List Var) : List Dependency :=
  vs.flatMap fun v => [e.bounds.reason v .lower, e.bounds.reason v .upper]

/-- Whether the common divisor of the free coefficients divides the constant. -/
def ScaledRow.divides (row : ScaledRow) : Bool :=
  let divisor := gcdOfInts (row.free.map Prod.snd)
  if divisor = 0 then row.constant = 0 else row.constant % (divisor : Int) = 0

/-- The least absolute value of a free coefficient. -/
def ScaledRow.least? (row : ScaledRow) : Option Nat := (row.free.map fun t => t.2.natAbs).min?

/-- The range of the constant and the given terms within the real parts of their bounds. -/
def confinedRange (e : Engine) (constant : Int) (terms : List (Var × Int)) : Rat × Rat :=
  let bound (v : Var) (kind : BoundKind) : Rat := ((e.bounds.value v kind).getD 0).real
  let extreme (side : BoundKind) (t : Var × Int) : Rat :=
    (t.2 : Rat) * bound t.1 (if 0 < t.2 then side else side.opposite)
  ((constant : Rat) + total (terms.map (extreme .lower)),
    (constant : Rat) + total (terms.map (extreme .upper)))

/-- Whether a variable has both bounds. -/
def isConfined (e : Engine) (v : Var) : Bool :=
  (e.bounds.get v .lower).isSome && (e.bounds.get v .upper).isSome

/-- The reasons why no integer solution exists with the variables of the least coefficient within
their bounds, if the extended test shows that. -/
def extendedRefutation? (e : Engine) (row : ScaledRow) : Option (List Dependency) :=
  let least := row.least?
  let confined := row.free.filter fun t => some t.2.natAbs = least
  let rest := row.free.filter fun t => some t.2.natAbs ≠ least
  let divisor := gcdOfInts (rest.map Prod.snd)
  if confined.all (fun t => e.isConfined t.1) && 1 < divisor then
    let (low, high) := e.confinedRange row.constant confined
    if (low / divisor).ceil ≤ (high / divisor).floor then none
    else some (e.fixedReasons (confined.map Prod.fst) ++ e.fixedReasons row.fixed)
  else none

/-- The reasons why a row has no integer solution, if one of the tests shows that. -/
def divisibilityRefutation? (e : Engine) (row : ScaledRow) : Option (List Dependency) :=
  if row.divides then e.extendedRefutation? row else some (e.fixedReasons row.fixed)

/-- Tests one row. The answer is false when the row has no integer solution, which is a conflict. -/
def testDivisibility (e : Engine) (r : RowId) : Engine × Bool :=
  match ((e.tableau.get? r).filter fun row => !row.pending).bind e.scaleRow? with
  | none => (e, true)
  | some scaled =>
    let tested := e.count fun s => { s with gcdTests := s.gcdTests + 1 }
    match tested.divisibilityRefutation? scaled with
    | none => (tested, true)
    | some reasons =>
      let (joined, reason) := tested.joinReasons reasons
      let counted := joined.count fun s => { s with gcdConflicts := s.gcdConflicts + 1 }
      let traced := counted.trace .integer fun _ =>
        "gcd conflict on " ++ r.text ++ ": " ++ counted.rowText r
      (traced.setConflict reason, false)

end ArithDecide.Engine
