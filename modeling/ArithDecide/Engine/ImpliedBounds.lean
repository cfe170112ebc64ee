import ArithDecide.Engine.Repair

/-!
# Bounds implied by rows

The row `base = Σ c · w` is read as `0 = -base + Σ c · w`. If all terms but one have the bounds that
limit their sum from one side, the remaining variable is bounded too: with the least value `L` of
the other terms, `c · v` is at most `-L`, and with their greatest value `U` it is at least `-U`.
-/

namespace ArithDecide.Engine

/-- The least (for `lower`) or greatest value of a sum of terms, as far as it is known. -/
structure RowSum where
  /-- The sum over the terms which are bounded on this side. -/
  bounded : InfRat
  /-- The terms which are not, in order. -/
  unbounded : List Var

/-- The bound of a variable that limits `coeff · v` on one side. -/
def limitingKind (coeff : Rat) (side : BoundKind) : BoundKind :=
  if 0 < coeff then side else side.opposite

/-- The least (for `lower`) or greatest value of `coeff · v`. -/
def termExtreme (e : Engine) (t : Var × Rat) (side : BoundKind) : Option InfRat :=
  (e.bounds.value t.1 (limitingKind t.2 side)).map fun bound => bound.scale t.2

/-- The least (for `lower`) or greatest value of a sum of terms. -/
def rowSum (e : Engine) (terms : List (Var × Rat)) (side : BoundKind) : RowSum where
  bounded := (terms.filterMap fun t => e.termExtreme t side).foldl (· + ·) 0
  unbounded := (terms.filter fun t => (e.termExtreme t side).isNone).map Prod.fst

/-- The extreme value of the sum without one of its terms, if the other terms have one. -/
def sumWithout (e : Engine) (sum : RowSum) (t : Var × Rat) (side : BoundKind) : Option InfRat :=
  match sum.unbounded with
  | [] => (e.termExtreme t side).map fun own => sum.bounded - own
  | [v] => if v = t.1 then some sum.bounded else none
  | _ => none

/-- Installs the bound of one term that the other terms imply, if it is tighter than the active one.
-/
def impliedBound (terms : List (Var × Rat)) (side : BoundKind) (sum : RowSum) (e : Engine)
    (t : Var × Rat) : Engine × Bool :=
  match e.sumWithout sum t side with
  | none => (e, true)
  | some rest =>
    let kind := (limitingKind t.2 side).opposite
    let value := e.roundBound t.1 kind ((-rest).divide t.2)
    if e.bounds.isTighter t.1 kind value then
      let others := terms.filter fun other => other.1 ≠ t.1
      let (joined, reason) := e.joinReasons (others.map fun other =>
        e.bounds.reason other.1 (limitingKind other.2 side))
      (joined.count fun s => { s with impliedBounds := s.impliedBounds + 1 }).installBound t.1 kind
        value reason .derived
    else (e, true)

/-- Installs the bounds that a row in reduced form implies for its variables. -/
def impliedBoundsOf (e : Engine) (r : RowId) : Engine × Bool :=
  match (e.tableau.get? r).filter fun row => !row.pending with
  | none => (e, true)
  | some row =>
    let terms := row.zeroTerms
    let least := e.rowSum terms .lower
    let greatest := e.rowSum terms .upper
    forEach (fun e t =>
      match impliedBound terms .lower least e t with
      | (next, true) => impliedBound terms .upper greatest next t
      | (next, false) => (next, false)) terms e

/-- Inspects the touched rows, up to the configured number; none is touched afterwards. -/
def propagateImpliedBounds (e : Engine) : Engine × Bool :=
  forEach impliedBoundsOf (e.touched.take e.options.maxImpliedBoundRows) { e with touched := [] }

end ArithDecide.Engine
