import ArithDecide.Guarded.Bounds
import ArithDecide.Integer.Check

/-!
# Guarded integer reasoning

Numbers are divided by common divisors, coefficients and fractional parts other than zero, and the
bounds exist that divisibility tests and cuts rest on.
-/

namespace ArithDecide.Engine.Guarded

/-! ## Divisibility tests -/

/-- What fixes the given variables. -/
def fixedReasons (e : Engine) (vs : List Var) : Except Failure (List Dependency) :=
  reasons e (vs.flatMap fun v => [(v, .lower), (v, .upper)])

def extendedRefutation? (e : Engine) (row : ScaledRow) : Except Failure (Option (List Dependency)) :=
  let least := row.least?
  let confined := row.free.filter fun t => some t.2.natAbs = least
  let rest := row.free.filter fun t => some t.2.natAbs ≠ least
  let divisor := gcdOfInts (rest.map Prod.snd)
  if confined.all (fun t => e.isConfined t.1) && 1 < divisor then do
    let (low, high) := e.confinedRange row.constant confined
    demand ((divisor : Rat) ≠ 0) .divisionByZero
    if (low / divisor).ceil ≤ (high / divisor).floor then return none
    else
      let used ← fixedReasons e (confined.map Prod.fst)
      let fixed ← fixedReasons e row.fixed
      return some (used ++ fixed)
  else .ok none

def divisibilityRefutation? (e : Engine) (row : ScaledRow) :
    Except Failure (Option (List Dependency)) :=
  if row.divides then extendedRefutation? e row
  else do
    return some (← fixedReasons e row.fixed)

def testDivisibility (e : Engine) (r : RowId) : Guarded (Engine × Bool) :=
  match ((e.tableau.get? r).filter fun row => !row.pending).bind e.scaleRow? with
  | none => return (e, true)
  | some scaled => do
    let tested := e.count fun s => { s with gcdTests := s.gcdTests + 1 }
    match ← divisibilityRefutation? tested scaled with
    | none => return (tested, true)
    | some reasons =>
      let (joined, reason) ← joinReasons tested reasons
      let counted := joined.count fun s => { s with gcdConflicts := s.gcdConflicts + 1 }
      let traced := counted.trace .integer fun _ =>
        "gcd conflict on " ++ r.text ++ ": " ++ counted.rowText r
      return (← setConflict traced reason, false)

/-! ## Patching -/

/-- Tries to make a base integral by moving a real variable of its row. -/
def patchBase (e : Engine) (base : Var) : Guarded Engine := do
  demand (∀ row ∈ (e.tableau.rowOf? base).bind e.tableau.get?,
    ∀ t ∈ row.form.terms, e.isInt t.1 = false → t.2 ≠ 0) .divisionByZero
  return patch rowMoves e base

def patchIntegers (e : Engine) : Guarded Engine :=
  let free := e.fractionalVars.filter fun v => e.kind v = .nonBase
  let patched := free.foldl (patch ownMoves) e
  let bases := patched.fractionalVars.filter fun v => patched.kind v = .base
  bases.foldlM patchBase patched

/-! ## Cuts and case splits -/

/-- The cut made from a row. The weights are quotients by the fractional part of the value of the base
and by its distance from one. -/
def cutOf (e : Engine) (row : Row) : Except Failure Cut := do
  let f₀ := fractionalPart (e.stored row.base).real
  demand (f₀ ≠ 0 ∧ 1 - f₀ ≠ 0) .divisionByZero
  let used ← reasons e (row.form.terms.map fun t => (t.1, (e.cutTerm f₀ t).side))
  return { e.cutOf row with reasons := used }

def internAtom (e : Engine) (v : Var) (kind : BoundKind) (threshold : Rat) :
    Guarded (Engine × Literal) :=
  match e.atoms.find? v kind threshold with
  | some a => return (e, .positive a)
  | none => do
    let a := e.atoms.atoms.size
    let added ← propagateAtom { e with atoms := e.atoms.add v kind threshold } a
    return (added, .positive a)

def selectBranch (e : Engine) : Guarded (Engine × Option CaseSplit) :=
  match e.chosenCandidate? with
  | none => return (e, none)
  | some c => do
    let (e, down) ← internAtom e c.var .upper c.value.floor
    let (e, up) ← internAtom e c.var .lower c.value.ceil
    let counted := e.count fun s => { s with branches := s.branches + 1 }
    let traced := counted.trace .integer fun _ =>
      "branch " ++ counted.varName c.var ++ ": " ++ down.text ++ " | " ++ up.text
    return (traced, some ⟨c.var, c.value, down, up⟩)

def askBranch (e : Engine) : Guarded (Engine × IntegerOutcome) := do
  match ← selectBranch e with
  | (next, some split) => return (next, .branch split)
  | (next, none) => return (next, .giveUp)

end ArithDecide.Engine.Guarded
