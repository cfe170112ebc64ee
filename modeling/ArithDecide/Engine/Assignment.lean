import ArithDecide.Engine.Basic

/-!
# Moving values

Every row in reduced form holds under the stored values, and every variable that heads no row lies
within its bounds. `updateValue` moves such a variable and carries the rows along; `normalizeRow`
puts a pending row into reduced form and gives its base the value of the row.
-/

namespace ArithDecide.Engine

/-- Changes the value of the base of one row, unless the row is pending, by what a change of `v` by
`delta` means for it. -/
def carryRow (v : Var) (delta : InfRat) (e : Engine) (r : RowId) : Engine :=
  match e.tableau.get? r with
  | none => e
  | some row =>
    if row.pending then e
    else
      let moved := e.stored row.base + delta.scale (row.form.coeff v)
      (e.setValue row.base moved).markToPatch row.base

/-- Moves a variable that heads no row by `delta` and keeps every row in reduced form satisfied. -/
def updateValue (e : Engine) (v : Var) (delta : InfRat) : Engine :=
  (e.tableau.rowsMentioning v).foldl (carryRow v delta) (e.setValue v (e.stored v + delta))

/-- Puts a pending row into reduced form and gives its base the value of the row. -/
def normalizeRow (e : Engine) (r : RowId) : Engine :=
  let reduced := { e with tableau := e.tableau.normalize r }
  let traced :=
    if (reduced.tableau.get? r).map Row.form = (e.tableau.get? r).map Row.form then reduced
    else reduced.trace .simplex fun _ => "normalized " ++ r.text ++ ": " ++ reduced.rowText r
  match traced.tableau.get? r with
  | none => traced
  | some row =>
    (traced.setValue row.base (row.form.evalInf traced.stored)).markToPatch row.base

/-- The rows that are not in reduced form yet. -/
def pendingRows (e : Engine) : List RowId :=
  e.tableau.rowIds.filter fun r => (e.tableau.get? r).any Row.pending

/-- Puts every pending row into reduced form. -/
def normalizePendingRows (e : Engine) : Engine :=
  e.pendingRows.foldl normalizeRow e

end ArithDecide.Engine
