import ArithDecide.LinearForm

/-!
# The tableau

Every row says that its base variable equals a linear form. A row in reduced form mentions no base
variable of another row; a new row may mention some and is *pending* until `Tableau.normalize` has
replaced them. `Tableau.pivot` exchanges the base of a row with a variable of the row and keeps all
other rows in reduced form. No operation changes the set of solutions.

While `recording` is on, every change is written to a trail, and `Tableau.undoTo` replays the inverse
changes. A pivot is undone by pivoting the same row on the variable that left it.
-/

namespace ArithDecide

/-- A row of the tableau, numbered from zero in order of creation. -/
abbrev RowId := Nat

/-- The text of a row that is shown by its number. -/
def RowId.text (r : RowId) : String := "r" ++ toString r

/-- The equation `base = form`. -/
structure Row where
  base : Var
  form : LinearForm
  /-- Whether the form may still mention the base variables of other rows. -/
  pending : Bool
  deriving DecidableEq, Inhabited

namespace Row

/-- The row read as a sum that is zero: its base with coefficient minus one, then the other terms.
-/
def zeroTerms (row : Row) : List (Var × Rat) := (row.base, -1) :: row.form.terms

/-- The equation solved for another of its variables: `base = c · v + rest` becomes
`v = 1/c · base - 1/c · rest`. -/
def solveFor (row : Row) (v : Var) : Row :=
  let inverse := 1 / row.form.coeff v
  { row with
    base := v
    form := ((row.form.erase v).scale (-inverse)).addTerm row.base inverse }

end Row

/-- The role of a variable in the tableau. -/
inductive VarKind where
  /-- Heads a row in reduced form. -/
  | base
  /-- Heads a row which is still pending. -/
  | pendingBase
  /-- Heads no row. -/
  | nonBase
  deriving DecidableEq, Inhabited

/-- A change of the tableau, with what is needed to take it back. -/
inductive TableauChange where
  | addRow
  /-- The base of a row was exchanged; `leaving` was its base before. -/
  | pivot (r : RowId) (leaving : Var)
  /-- A pending row was put into reduced form; `form` was its form before. -/
  | normalize (r : RowId) (form : LinearForm)
  deriving DecidableEq

/-- The rows, in order of creation. -/
structure Tableau where
  rows : Array Row
  /-- The recorded changes, latest first. -/
  trail : List TableauChange
  /-- Whether changes are recorded. -/
  recording : Bool
  deriving DecidableEq, Inhabited

namespace Tableau

/-- The tableau without rows. -/
def empty : Tableau := ⟨#[], [], false⟩

def get? (t : Tableau) (r : RowId) : Option Row := t.rows[r]?

/-- The numbers of the rows. -/
def rowIds (t : Tableau) : List RowId := List.range t.rows.size

/-- The row that a variable heads. -/
def rowOf? (t : Tableau) (v : Var) : Option RowId :=
  t.rows.findIdx? fun row => row.base == v

/-- The rows whose form mentions a variable. -/
def rowsMentioning (t : Tableau) (v : Var) : List RowId :=
  t.rowIds.filter fun r => (t.get? r).any fun row => row.form.mentions v

def kind (t : Tableau) (v : Var) : VarKind :=
  match (t.rowOf? v).bind t.get? with
  | none => .nonBase
  | some row => if row.pending then .pendingBase else .base

/-- A variable can head a new row if it heads none and occurs in none. -/
def isFresh (t : Tableau) (v : Var) : Bool :=
  (t.rowOf? v).isNone && (t.rowsMentioning v).isEmpty

/-- Writes a change to the trail if changes are recorded. -/
def record (t : Tableau) (change : TableauChange) : Tableau :=
  if t.recording then { t with trail := change :: t.trail } else t

/-- Adds a row. -/
def addRow (t : Tableau) (base : Var) (form : LinearForm) : Tableau :=
  ({ t with rows := t.rows.push ⟨base, form, true⟩ }).record .addRow

/-! ## Reduced form -/

/-- Replaces the base variable of a row wherever the form mentions it. -/
def eliminate (form : LinearForm) (row : Row) : LinearForm :=
  if form.mentions row.base then form.substitute row.base row.form else form

/-- Replaces the base variables of the first `count` rows, the latest row first. A row mentions only
base variables of rows before it, so no replaced variable comes back. -/
def reduceBelow (t : Tableau) : Nat → LinearForm → LinearForm
  | 0, form => form
  | count + 1, form =>
    match t.get? count with
    | none => reduceBelow t count form
    | some row => reduceBelow t count (eliminate form row)

/-- Puts a pending row into reduced form. -/
def normalize (t : Tableau) (r : RowId) : Tableau :=
  match (t.get? r).filter Row.pending with
  | none => t
  | some row =>
    let reduced := { row with form := t.reduceBelow r row.form, pending := false }
    ({ t with rows := t.rows.setIfInBounds r reduced }).record (.normalize r row.form)

/-! ## Pivoting -/

/-- Exchanges the base of a row with one of its variables and rewrites all other rows. -/
def pivotRows (rows : Array Row) (r : RowId) (entering : Var) : Array Row :=
  match rows[r]? with
  | none => rows
  | some row =>
    let solved := row.solveFor entering
    rows.mapIdx fun i other =>
      if i = r then solved else { other with form := eliminate other.form solved }

/-- Exchanges the base of a row with one of its variables, and records that. -/
def pivot (t : Tableau) (r : RowId) (entering : Var) : Tableau :=
  match t.get? r with
  | none => t
  | some row => ({ t with rows := pivotRows t.rows r entering }).record (.pivot r row.base)

/-! ## Going back -/

/-- The rows before a change. -/
def undo (rows : Array Row) : TableauChange → Array Row
  | .addRow => rows.pop
  | .pivot r leaving => pivotRows rows r leaving
  | .normalize r form => rows.modify r fun row => { row with form := form, pending := true }

/-- Takes back all changes since the trail had a length, the latest one first. -/
def undoTo (t : Tableau) (length : Nat) : Tableau :=
  { t with
    rows := (t.trail.take (t.trail.length - length)).foldl undo t.rows
    trail := t.trail.drop (t.trail.length - length) }

end Tableau

end ArithDecide
