import ArithDecide.Snapshot.Basic

/-!
# Exporting an engine

The snapshot of an engine declares its variables under their names and states its rows, its
monomials and the active bounds. A bound whose infinitesimal points away from the variable is
written as the weak bound.
-/

namespace ArithDecide.Engine

/-- The row as an assertion. -/
def rowAssertion (e : Engine) (row : Row) : Assertion :=
  .row (e.varName row.base) (row.form.terms.map fun t => (t.2, e.varName t.1))

/-- The definition of a monomial as an assertion. -/
def monomialAssertion (e : Engine) (m : Monomial) : Assertion :=
  .product (e.varName m.var) (m.factors.map e.varName)

/-- The active bounds of a variable as assertions; bounds that agree on a rational fix it. -/
def boundAssertions (e : Engine) (v : Var) : List Assertion :=
  let name := e.varName v
  let lower := e.bounds.lowerValue v
  let upper := e.bounds.upperValue v
  let fixed := if lower = upper then lower.filter InfRat.isRational else none
  match fixed with
  | some value => [.fixed name value.real]
  | none =>
    (lower.map fun value => Assertion.lower name value.real (0 < value.eps)).toList ++
      (upper.map fun value => Assertion.upper name value.real (value.eps < 0)).toList

/-- A snapshot that says what the engine says. -/
def exportSnapshot (e : Engine) : Snapshot where
  declarations := e.vars.map fun v => ⟨e.varName v, e.sort v⟩
  assertions :=
    e.tableau.rows.toList.map e.rowAssertion ++ e.monomials.map e.monomialAssertion ++
      e.vars.flatMap e.boundAssertions

end ArithDecide.Engine
