import ArithDecide.Engine.Assignment

/-!
# Installing bounds

`installBound` is the one way in which a bound becomes active. It rounds the bounds of integer
variables, refuses a bound that crosses the opposite one, which is a conflict, moves a variable that
fell outside its new bound, and hands out the literals that the bound decides.
-/

namespace ArithDecide.Engine

/-- Records a conflict. The first one stays. -/
def setConflict (e : Engine) (reason : Dependency) : Engine :=
  if e.isInfeasible then e
  else
    let failed := { e with status := .infeasible reason }
    (failed.count fun s => { s with conflicts := s.conflicts + 1 }).trace .bounds fun _ =>
      "conflict " ++ (e.dependencies.linearize reason).text

/-! ## Rounding -/

/-- The weakest integer bound that says as much about integers as the given bound. -/
def roundInt : BoundKind → InfRat → Int
  | .lower, value => if 0 < value.eps then value.real.floor + 1 else value.real.ceil
  | .upper, value => if value.eps < 0 then value.real.ceil - 1 else value.real.floor

/-- A bound of an integer variable is rounded to the nearest integer on the feasible side. -/
def roundBound (e : Engine) (v : Var) (kind : BoundKind) (value : InfRat) : InfRat :=
  if e.isInt v then .ofRat (roundInt kind value) else value

/-! ## Literals decided by bounds -/

/-- The sign that the active bounds give to the fact `v >= k` or `v <= k`, and the reason. -/
def decided? (e : Engine) (v : Var) (kind : BoundKind) (threshold : Rat) :
    Option (Bool × Dependency) :=
  let k := InfRat.ofRat threshold
  let entailed := (e.bounds.get v kind).filter fun bound => !kind.tighter k bound.value
  let refuted := (e.bounds.get v kind.opposite).filter fun bound =>
    kind.opposite.tighter bound.value k
  match entailed, refuted with
  | some bound, _ => some (true, bound.reason)
  | none, some bound => some (false, bound.reason)
  | none, none => none

/-- Hands out the literal of an atom that was neither asserted nor handed out, if the active bounds
decide it. -/
def propagateAtom (e : Engine) (a : AtomId) : Engine :=
  match (e.atoms.get? a).filter fun atom => atom.assignment.isNone && !atom.propagated with
  | none => e
  | some atom =>
    match e.decided? atom.var atom.kind atom.threshold with
    | none => e
    | some (sign, reason) =>
      let l := Literal.ofSign a sign
      let marked := { e with atoms := e.atoms.markPropagated a }
      let counted := marked.count fun s => { s with boundPropagations := s.boundPropagations + 1 }
      let traced := counted.trace .atoms fun _ => "propagated " ++ l.text
      { traced with
        propagations := traced.propagations ++ [⟨l, traced.dependencies.linearize reason⟩] }

/-- Hands out the literals of all atoms of a variable that the active bounds decide. -/
def propagateAtomsOn (e : Engine) (v : Var) : Engine :=
  (e.atoms.atomsOn v).foldl propagateAtom e

/-! ## Installing -/

/-- Marks all rows in which a variable occurs for inspection. -/
def touchRowsOf (e : Engine) (v : Var) : Engine :=
  let rows := (e.tableau.rowOf? v).toList ++ e.tableau.rowsMentioning v
  { e with touched := SortedSet.union e.touched rows }

/-- Moves a variable that heads no row onto its new bound if it violates it; a base variable is
marked for repair. -/
def respectBound (e : Engine) (v : Var) (kind : BoundKind) (value : InfRat) : Engine :=
  match e.kind v with
  | .nonBase =>
    if kind.tighter value (e.stored v) then e.updateValue v (value - e.stored v) else e
  | .base | .pendingBase => e.markToPatch v

/-- What happens after a bound became active. -/
def afterTightening (e : Engine) (v : Var) (kind : BoundKind) (value : InfRat)
    (origin : BoundOrigin) : Engine :=
  let counted := e.count fun s =>
    match kind with
    | .lower => { s with assertLower := s.assertLower + 1 }
    | .upper => { s with assertUpper := s.assertUpper + 1 }
  let traced := counted.trace .bounds fun _ =>
    counted.varName v ++ " " ++ kind.text ++ " " ++ value.text ++ " (" ++ origin.text ++ ")"
  let touched := if origin = .derived then traced else traced.touchRowsOf v
  let moved := touched.respectBound v kind value
  let checked := if moved.toPatch.isEmpty then moved else moved.declareChecking
  checked.propagateAtomsOn v

/-- Installs a bound. The answer is false when the bound is in conflict with the opposite one. -/
def installBound (e : Engine) (v : Var) (kind : BoundKind) (value : InfRat) (reason : Dependency)
    (origin : BoundOrigin) : Engine × Bool :=
  let rounded := e.roundBound v kind value
  match e.bounds.assert ⟨v, kind, rounded, reason, origin⟩ with
  | .conflict opposite =>
    let (joined, conflict) := e.joinReasons [reason, opposite]
    (joined.setConflict conflict, false)
  | .unchanged store => ({ e with bounds := store }, true)
  | .tightened store => (({ e with bounds := store }).afterTightening v kind rounded origin, true)

end ArithDecide.Engine
