import ArithDecide.Engine.Assignment

/-!
# Harmless moves

A variable that heads no row may be moved when its own bounds and those of the rows that mention it
allow that and no integer base loses an integral value.
-/

namespace ArithDecide.Engine

/-- Whether one row in reduced form allows a move of `v` by `delta`. -/
def rowAdmitsMove (e : Engine) (v : Var) (delta : InfRat) (row : Row) : Bool :=
  let old := e.stored row.base
  let new := old + delta.scale (row.form.coeff v)
  (!e.isInt row.base || new.isInteger || !old.isInteger) && e.bounds.admits row.base new

/-- Whether `v`, which heads no row, can be moved by `delta` to the value `target`. -/
def admitsMove (e : Engine) (v : Var) (target delta : InfRat) : Bool :=
  e.bounds.admits v target &&
    (e.tableau.rowsMentioning v).all fun r =>
      ((e.tableau.get? r).filter fun row => !row.pending).all (e.rowAdmitsMove v delta)

end ArithDecide.Engine
