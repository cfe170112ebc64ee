import ArithDecide.Engine.Bounds

/-!
# Repairing the assignment

`makeFeasible` brings every base variable back within its bounds. It takes the smallest violated
base variable, exchanges it with the smallest variable of its row that can move in the right
direction, and goes on. If no variable can move, the row and the bounds that block it are a
conflict. Taking the smallest variables is what makes the loop end.
-/

namespace ArithDecide.Engine

/-- A base variable outside one of its bounds. -/
structure Violation where
  base : Var
  row : RowId
  kind : BoundKind
  target : InfRat

/-- How a variable violates its bounds, if it heads a row and does. -/
def violation? (e : Engine) (v : Var) : Option Violation :=
  match e.tableau.rowOf? v with
  | none => none
  | some r =>
    let outside (kind : BoundKind) : Option Violation :=
      ((e.bounds.value v kind).filter fun bound => kind.tighter bound (e.stored v)).map fun bound =>
        ⟨v, r, kind, bound⟩
    (outside .lower).or (outside .upper)

/-- The first violation among the given variables, and the variables behind it. -/
def firstViolation? (e : Engine) : List Var → Option (Violation × List Var)
  | [] => none
  | v :: rest =>
    match e.violation? v with
    | some violation => some (violation, rest)
    | none => firstViolation? e rest

/-- Whether a variable is not stopped by its bound on one side. -/
def canMove (e : Engine) (v : Var) (towards : BoundKind) : Bool :=
  match e.bounds.value v towards with
  | none => true
  | some bound => towards.tighter (e.stored v) bound

/-- The side of a variable that stops it when the base of its row has to leave the violated bound:
with a positive coefficient it has to move the same way as the base. -/
def blockingSide (violated : BoundKind) (coeff : Rat) : BoundKind :=
  if 0 < coeff then violated.opposite else violated

/-- The smallest variable of a row that can bring its base towards the violated bound. -/
def entering? (e : Engine) (form : LinearForm) (violated : BoundKind) : Option Var :=
  (form.terms.find? fun t => e.canMove t.1 (blockingSide violated t.2)).map Prod.fst

/-- Why the base of a row cannot reach its violated bound: that bound, and the bounds that stop the
variables of the row. -/
def rowConflict (e : Engine) (row : Row) (violated : BoundKind) : List Dependency :=
  e.bounds.reason row.base violated ::
    row.form.terms.map fun t => e.bounds.reason t.1 (blockingSide violated t.2)

/-- Brings the base of a row to the target by moving the entering variable, and exchanges the two.
-/
def pivotAndUpdate (e : Engine) (violation : Violation) (row : Row) (entering : Var) : Engine :=
  let theta := (violation.target - e.stored row.base).divide (row.form.coeff entering)
  let moved := e.updateValue entering theta
  let pivoted := { moved with tableau := moved.tableau.pivot violation.row entering }
  let marked := (pivoted.count fun s => { s with pivots := s.pivots + 1 }).markToPatch entering
  marked.trace .simplex fun _ =>
    "pivot " ++ violation.row.text ++ ": " ++ marked.varName row.base ++ " leaves, " ++
      marked.varName entering ++ " enters at " ++ (marked.stored entering).text

/-- Repairs violations with at most the given number of pivots. The answer is false when a violation
cannot be repaired, which is a conflict, or when the pivots ran out. -/
def repair : Nat → Engine → Engine × Bool
  | pivots, e =>
    match e.firstViolation? e.toPatch with
    | none =>
      let settled := if e.status = .checking then .consistent else e.status
      ({ e with toPatch := [], status := settled }, true)
    | some (violation, rest) =>
      let taken := { e with toPatch := rest }
      match taken.tableau.get? violation.row with
      | none => (taken, false)
      | some row =>
        match taken.entering? row.form violation.kind with
        | none =>
          let (joined, conflict) := taken.joinReasons (taken.rowConflict row violation.kind)
          ((joined.markToPatch violation.base).setConflict conflict, false)
        | some entering =>
          match pivots with
          | 0 => (e, false)
          | left + 1 => repair left (taken.pivotAndUpdate violation row entering)

/-- More pivots than a repair can make: no configuration comes twice, and each variable either heads
a row or not and rests at its first value, at its lower or at its upper bound. -/
def pivotLimit (e : Engine) : Nat := Nat.pow 6 e.numVars

/-- Brings every base variable within its bounds. The answer is false when that is impossible. -/
def makeFeasible (e : Engine) : Engine × Bool := repair e.pivotLimit e

end ArithDecide.Engine
