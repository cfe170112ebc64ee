import ArithDecide.Engine.Problem

/-!
# Gomory cuts

Take a row whose integer base has the fractional value `β` while every other variable sits on one of
its bounds. With `t` the distance of a variable from that bound and `f₀` the fractional part of `β`,
every integer solution satisfies `Σ g · t ≥ 1`. The weight `g` of an integer variable is `f / f₀` if
the fractional part `f` of its coefficient is at most `f₀` and `(1 - f) / (1 - f₀)` otherwise; that
of a real variable with coefficient `a` is `a / f₀` or `-a / (1 - f₀)`. At the current point all
distances are zero.
-/

namespace ArithDecide.Engine

/-- Whether a cut can be made from a row: its base is an integer variable with a fractional rational
value, and all other variables sit on a bound with a rational value. -/
def isCutSource (e : Engine) (row : Row) : Bool :=
  let value := e.stored row.base
  !row.pending && e.isInt row.base && value.isRational && !value.isInteger &&
    row.form.terms.all fun t =>
      let value := e.stored t.1
      value.isRational && (e.bounds.isAt t.1 .lower value || e.bounds.isAt t.1 .upper value)

/-- The weight of the distance of a variable in a cut. -/
def cutWeight (integer : Bool) (f₀ shifted : Rat) : Rat :=
  if integer then
    let f := fractionalPart shifted
    if f ≤ f₀ then f / f₀ else (1 - f) / (1 - f₀)
  else if shifted < 0 then -shifted / (1 - f₀)
  else shifted / f₀

/-- The part of one variable in a cut. -/
structure CutTerm where
  var : Var
  /-- The side on whose bound the variable sits. -/
  side : BoundKind
  weight : Rat
  limit : Rat

namespace CutTerm

/-- The coefficient of the variable: at its upper bound the distance shrinks when the variable
grows. -/
def coeff (t : CutTerm) : Rat := if t.side = .lower then t.weight else -t.weight

end CutTerm

/-- The part of one variable of the row in the cut. -/
def cutTerm (e : Engine) (f₀ : Rat) (t : Var × Rat) : CutTerm :=
  let value := e.stored t.1
  let side : BoundKind := if e.bounds.isAt t.1 .lower value then .lower else .upper
  let shifted := if side = .lower then -t.2 else t.2
  ⟨t.1, side, cutWeight (e.isInt t.1) f₀ shifted, value.real⟩

/-- The inequality `Σ coeff · v ≥ bound`, and what it rests on. -/
structure Cut where
  terms : List (Var × Rat)
  bound : Rat
  /-- Whether the left side is an integer at every integer point. -/
  integral : Bool
  reasons : List Dependency

/-- The cut made from a row. If only integer variables occur, all is scaled to integer coefficients.
-/
def cutOf (e : Engine) (row : Row) : Cut :=
  let f₀ := fractionalPart (e.stored row.base).real
  let parts := row.form.terms.map (e.cutTerm f₀)
  let used := parts.filter fun t => t.weight ≠ 0
  let integral := row.form.terms.all fun t => e.isInt t.1
  let scale : Rat := if integral then denominatorsLcm (used.map CutTerm.coeff) else 1
  { terms := used.map fun t => (t.var, t.coeff * scale)
    bound := (1 + total (used.map fun t => t.coeff * t.limit)) * scale
    integral := integral
    reasons := parts.map fun t => e.bounds.reason t.var t.side }

/-- Adds a cut as a new variable with a row and a lower bound. A cut without variables is a
conflict. -/
def addCut (e : Engine) (source : RowId) (cut : Cut) : Engine × Bool :=
  let (joined, reason) := e.joinReasons cut.reasons
  if cut.terms.isEmpty then (joined.setConflict reason, false)
  else
    let (added, slack) := joined.mkVar (if cut.integral then .int else .real) .internal
    let (withRow, r) := added.pushRow slack (.ofEntries cut.terms)
    let normal := (withRow.normalizeRow r).count fun s => { s with gomoryCuts := s.gomoryCuts + 1 }
    let traced := normal.trace .integer fun _ =>
      "cut from " ++ source.text ++ ": " ++ normal.rowText r ++ " >= " ++ rationalText cut.bound
    traced.installBound slack .lower (.ofRat cut.bound) reason .cut

end ArithDecide.Engine
