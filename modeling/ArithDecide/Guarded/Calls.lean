import ArithDecide.Guarded.Check
import ArithDecide.Search

/-!
# Guarded calls

The calls of the engine by its user. Misuse is answered by an error before anything is done. Leaving a
scope finds the stores at least as long as when the scope was entered.
-/

namespace ArithDecide.Engine.Guarded

/-- Answers misuse by the error that the engine answers with, and else runs the body of the call. -/
def unlessMisused {α : Type} (result : Except EngineError α) (body : Guarded α) :
    Guarded (Except EngineError α) :=
  match result with
  | .error misuse => return .error misuse
  | .ok _ => return .ok (← body)

/-! ## Variables, rows and monomials -/

def setName (e : Engine) (v : Var) (name : String) : Guarded (Except EngineError Engine) :=
  unlessMisused (e.setName v name) (return { e with names := e.names.assign v name })

/-- Gives the base of a new row the value of the row. -/
def valueBase (eager : Bool) (e : Engine) (base : Var) (r : RowId) : Guarded Engine :=
  if eager then normalizeRow e r else return e.setValue base (e.value base)

def placeRow (e : Engine) (base : Var) (entries : List (Var × Rat)) : Guarded (Engine × RowId) := do
  let (added, r) ← pushRow e base entries
  let valued ← valueBase e.options.eagerNormalization added base r
  let marked := { valued.markToPatch base with touched := SortedSet.insert r valued.touched }
  let checked ← declareChecking marked
  return (checked.trace .simplex fun _ => "added " ++ r.text ++ ": " ++ checked.rowText r, r)

def addRow (e : Engine) (base : Var) (entries : List (Var × Rat)) :
    Guarded (Except EngineError (Engine × RowId)) :=
  unlessMisused (e.addRow base entries) (placeRow e base entries)

/-- Adds a variable together with the row that defines it. -/
def placeLinear (e : Engine) (sort : NumSort) (term : Term) (entries : List (Var × Rat)) :
    Guarded (Engine × Var) := do
  let (added, base) ← mkVar e sort term
  let (next, _) ← placeRow added base entries
  return (next, base)

def mkLinear (e : Engine) (sort : NumSort) (term : Term) (entries : List (Var × Rat)) :
    Guarded (Except EngineError (Engine × Var)) :=
  unlessMisused (e.mkLinear sort term entries) (placeLinear e sort term entries)

def placeMonomial (e : Engine) (sorted : List Var) : Guarded (Engine × Var) := do
  Guarded.ask .addVar
  return e.placeMonomial sorted

/-- The variable of a product of sorted factors. -/
def internMonomial (e : Engine) (sorted : List Var) : Guarded (Engine × Var) :=
  match e.monomials.find? fun m => m.factors == sorted with
  | some m => return (e, m.var)
  | none => placeMonomial e sorted

def mkMonomial (e : Engine) (factors : List Var) : Guarded (Except EngineError (Engine × Var)) :=
  unlessMisused (e.mkMonomial factors) (internMonomial e (factors.mergeSort fun v w => v ≤ w))

/-! ## Atoms, literals and bounds -/

def mkAtom (e : Engine) (v : Var) (kind : BoundKind) (threshold : Rat) :
    Guarded (Except EngineError (Engine × Literal)) :=
  unlessMisused (e.mkAtom v kind threshold) (internAtom e v kind threshold)

/-- Asserts the literal of a registered atom. -/
def queueLiteral (e : Engine) (l : Literal) : Guarded Engine :=
  match e.atoms.assign l with
  | .queued atoms => return (({ e with atoms := atoms }).trace .atoms fun _ => "asserted " ++ l.text)
  | .redundant => return e
  | .conflicting => do
    let (first, asserted) := e.dependencies.mkLiteral l
    let (second, opposite) := first.mkLiteral l.negate
    let (joined, conflict) ← joinReasons { e with dependencies := second } [asserted, opposite]
    setConflict joined conflict

def assertLiteral (e : Engine) (l : Literal) : Guarded (Except EngineError Engine) :=
  unlessMisused (e.assertLiteral l) (queueLiteral e l)

/-- Asserts that a variable has a value. -/
def queueEq (e : Engine) (v : Var) (value : Rat) : Guarded (Engine × Literal × Literal) := do
  let (first, lower) ← internAtom e v .lower value
  let (second, upper) ← internAtom first v .upper value
  let third ← queueLiteral second lower
  let fourth ← queueLiteral third upper
  return (fourth, lower, upper)

def assertEq (e : Engine) (v : Var) (value : Rat) :
    Guarded (Except EngineError (Engine × Literal × Literal)) :=
  unlessMisused (e.assertEq v value) (queueEq e v value)

/-- Installs a bound without a reason. -/
def installGiven (e : Engine) (v : Var) (kind : BoundKind) (value : InfRat) : Guarded Engine := do
  let noted := { e with given := e.given ++ [GivenBound.mk v kind value] }
  let (next, _) ← installBound noted v kind value none .given
  return next

def assertGiven (e : Engine) (v : Var) (kind : BoundKind) (value : InfRat) :
    Guarded (Except EngineError Engine) :=
  unlessMisused (e.assertGiven v kind value) (installGiven e v kind value)

def fixDifference (e : Engine) (difference left right : Var) : Guarded Engine := do
  let (arena, reason) := e.dependencies.mkEquality left right
  let noted := { e with dependencies := arena }
  let (next, _) ← forEach (fun e kind => installBound e difference kind 0 reason .derived)
    [.lower, .upper] noted
  return next

/-- Adds the difference of two variables unless they are the same, and fixes it to zero. -/
def equate (e : Engine) (left right : Var) : Guarded Engine :=
  if left = right then return e
  else do
    let (added, difference) ← mkVar e (e.jointSort [left, right]) .internal
    let (withRow, _) ← placeRow added difference [(left, 1), (right, -1)]
    fixDifference withRow difference left right

def assertVarEq (e : Engine) (left right : Var) : Guarded (Except EngineError Engine) :=
  unlessMisused (e.assertVarEq left right) (equate e left right)

/-! ## Scopes -/

def push (e : Engine) : Guarded Engine := do
  Guarded.ask .enter
  return e.push

def popScope (e : Engine) : Guarded Engine :=
  match e.scopes with
  | [] => return e
  | scope :: _ => do
    demand (scope.bounds.trail ≤ e.bounds.trail.length) .staleMark
    demand (scope.atoms.trail ≤ e.atoms.trail.length) .staleMark
    demand (scope.monomials ≤ e.monomials.length) .staleMark
    Guarded.ask .leave
    return e.popScope

def popScopes : Nat → Engine → Guarded Engine
  | 0, e => return e
  | count + 1, e => do popScopes count (← popScope e)

def pop (e : Engine) (count : Nat) : Guarded (Except EngineError Engine) :=
  unlessMisused (e.pop count) (popScopes count e)

def retractTo (e : Engine) (m : Mark) : Guarded (Except EngineError Engine) :=
  unlessMisused (e.retractTo m) (popScopes (e.depth - m.depth) e)

/-! ## Searching -/

/-- A new scope in which a branch literal holds. -/
def enterBranch (e : Engine) (l : Literal) : Guarded Engine := do
  let entered ← push e
  match ← assertLiteral entered l with
  | .ok asserted => return asserted
  | .error _ => return entered

/-- Explores both sides of a case split. -/
def searchSides (explore : Engine → Nat → Literal → Guarded SearchState) (e : Engine)
    (visited : Nat) (split : CaseSplit) : Guarded SearchState := do
  let down ← explore e visited split.down
  match down.result with
  | .unsat refutation =>
    if refutation.contains split.down then
      return .combine split (some refutation) (← explore down.engine down.visited split.up)
    else return down
  | .unknown => return .combine split none (← explore down.engine down.visited split.up)
  | _ => return down

def search (stop : StopCondition) : Nat → Engine → Nat → Guarded SearchState
  | 0, e, visited => return ⟨e, visited, .stopped⟩
  | depth + 1, e, visited =>
    if stop visited then return ⟨e, visited, .stopped⟩
    else do
      match ← check e with
      | (checked, .sat) => return ⟨checked, visited + 1, .sat (← model checked)⟩
      | (checked, .unsat explanation) => return ⟨checked, visited + 1, .unsat explanation⟩
      | (checked, .unknown) => return ⟨checked, visited + 1, .unknown⟩
      | (checked, .branch split) =>
        searchSides (fun e visited l => do
          let s ← search stop depth (← enterBranch e l) visited
          let left ← popScope s.engine
          return { s with engine := left }) checked (visited + 1) split

def solve (e : Engine) (selector : Selector) (stop : StopCondition) : Guarded SearchState :=
  search stop e.depthLimit { e with selector := selector } 0

end ArithDecide.Engine.Guarded
