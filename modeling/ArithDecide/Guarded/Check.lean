import ArithDecide.Check
import ArithDecide.Guarded.Integers
import ArithDecide.Guarded.Products

/-!
# The guarded check

What changes the tableau is asked of the store. A pivot is on a variable that its row mentions, it brings
the base onto the bound, and after a repair there is one value for every variable.
-/

namespace ArithDecide

namespace Engine.Guarded

/-! ## Repairing -/

def normalizeRow (e : Engine) (r : RowId) : Guarded Engine := do
  Guarded.ask (.normalize r)
  return e.normalizeRow r

def normalizePendingRows (e : Engine) : Guarded Engine :=
  e.pendingRows.foldlM normalizeRow e

/-- Brings the base of a row to the target by moving the entering variable, and exchanges the two. -/
def pivotAndUpdate (e : Engine) (violation : Violation) (row : Row) (entering : Var) :
    Guarded Engine := do
  demand (row.form.mentions entering = true) .notInRow
  demand (row.form.coeff entering ≠ 0) .divisionByZero
  let theta := (violation.target - e.stored row.base).divide (row.form.coeff entering)
  demand ((e.updateValue entering theta).stored row.base = violation.target) .missedTarget
  Guarded.ask (.pivot violation.row entering)
  return e.pivotAndUpdate violation row entering

/-- Nothing is violated. -/
def declareConsistent (e : Engine) : Guarded Engine :=
  if e.status = .checking then declare e .consistent else return e

/-- The base of a row is kept off its bound, which is a conflict. -/
def block (e : Engine) (violation : Violation) (row : Row) : Guarded (Engine × Bool) := do
  let reasons ← rowConflict e row violation.kind
  let (joined, conflict) ← joinReasons e reasons
  return (← setConflict (joined.markToPatch violation.base) conflict, false)

def repair : Nat → Engine → Guarded (Engine × Bool)
  | pivots, e =>
    match e.firstViolation? e.toPatch with
    | none => do
      let settled ← declareConsistent e
      demand (e.columns.size = e.values.size) .unevenColumns
      return ({ settled with toPatch := [] }, true)
    | some (violation, rest) =>
      let taken := { e with toPatch := rest }
      match taken.tableau.get? violation.row with
      | none => throw .outOfRange
      | some row =>
        match taken.entering? row.form violation.kind with
        | none => block taken violation row
        | some entering =>
          match pivots with
          | 0 => return (e, false)
          | left + 1 => do
            repair left (← pivotAndUpdate taken violation row entering)

def makeFeasible (e : Engine) : Guarded (Engine × Bool) := repair e.pivotLimit e

/-! ## Propagation -/

def propagateRows (e : Engine) : Guarded (Engine × Bool) :=
  if !e.options.propagateBounds || e.touched.isEmpty then return (e, true)
  else do
    match ← propagateImpliedBounds e with
    | (next, true) => if next.toPatch.isEmpty then return (next, true) else makeFeasible next
    | (next, false) => return (next, false)

def propagate (e : Engine) : Guarded (Engine × Bool) :=
  if e.isInfeasible then return (e, false)
  else do
    let normal ← normalizePendingRows e
    match ← installQueued normal.atoms.queued.length normal with
    | (installed, true) =>
      match ← makeFeasible installed with
      | (feasible, true) =>
        match ← propagateRows feasible with
        | (next, true) => return (← propagateFixedEqualities next, true)
        | (next, false) => return (next, false)
      | (feasible, false) => return (feasible, false)
    | (installed, false) => return (installed, false)

/-! ## Variables and rows -/

def mkVar (e : Engine) (sort : NumSort) (term : Term) : Guarded (Engine × Var) := do
  Guarded.ask .addVar
  return e.mkVar sort term

def pushRow (e : Engine) (base : Var) (entries : List (Var × Rat)) : Guarded (Engine × RowId) := do
  Guarded.ask (.addRow base entries)
  return e.pushRow base (.ofEntries entries)

/-! ## Integers -/

def addCut (e : Engine) (source : RowId) (cut : Cut) : Guarded (Engine × Bool) := do
  let (joined, reason) ← joinReasons e cut.reasons
  if cut.terms.isEmpty then return (← setConflict joined reason, false)
  else
    let (added, slack) ← mkVar joined (if cut.integral then .int else .real) .internal
    let (withRow, r) ← pushRow added slack cut.terms
    let normalized ← normalizeRow withRow r
    let normal := normalized.count fun s => { s with gomoryCuts := s.gomoryCuts + 1 }
    let traced := normal.trace .integer fun _ =>
      "cut from " ++ source.text ++ ": " ++ normal.rowText r ++ " >= " ++ rationalText cut.bound
    installBound traced slack .lower (.ofRat cut.bound) reason .cut

def cutOrBranch (e : Engine) (cuts : Nat) : Guarded (Engine × IntegerOutcome) :=
  match (if e.mayCut cuts then e.cutSource? else none) with
  | none => askBranch e
  | some (r, row) => do
    match ← addCut e r (← cutOf e row) with
    | (next, true) => return (next, .cutAdded)
    | (next, false) => return (next, .conflict)

def checkIntegers (e : Engine) (cuts : Nat) : Guarded (Engine × IntegerOutcome) :=
  if e.fractionalVars.isEmpty then return (e, .feasible)
  else do
    let counted := { e with integerChecks := e.integerChecks + 1 }
    match ← forEach testDivisibility counted.tableau.rowIds counted with
    | (tested, false) => return (tested, .conflict)
    | (tested, true) =>
      let patched ← patchIntegers tested
      if patched.fractionalVars.isEmpty then return (patched, .feasible) else cutOrBranch patched cuts

/-! ## The check -/

/-- The answer when no solution was found: the conflict, if one was recorded. -/
def conflictResult (e : Engine) : Except Failure CheckResult := do
  match ← conflict e with
  | some conflict => return .unsat conflict
  | none => return .unknown

def checkRounds : Nat → Nat → NonlinearPass → Engine → Guarded (Engine × CheckResult)
  | 0, _, _, e => return (e, .unknown)
  | rounds + 1, cuts, pass, e => do
    match ← propagate e with
    | (failed, false) => return (failed, ← conflictResult failed)
    | (propagated, true) =>
      match ← checkIntegers propagated cuts with
      | (next, .conflict) => return (next, ← conflictResult next)
      | (next, .cutAdded) => checkRounds rounds (cuts + 1) pass next
      | (next, .branch split) => return (next, .branch split)
      | (next, .giveUp) => return (next, .unknown)
      | (integral, .feasible) =>
        if integral.monomials.isEmpty then return (integral, .sat)
        else
          match ← checkNonlinear integral pass with
          | (next, _, .consistent) => return (next, .sat)
          | (next, _, .conflict) => return (next, ← conflictResult next)
          | (next, spent, .progress) => checkRounds rounds cuts spent next
          | (next, _, .giveUp) => return (next, .unknown)

def check (e : Engine) : Guarded (Engine × CheckResult) :=
  checkRounds (roundLimit e.options) 0 .start (e.count fun s => { s with checks := s.checks + 1 })

end Engine.Guarded

end ArithDecide
