import ArithDecide.Engine.Problem
import ArithDecide.Engine.Scopes

/-!
# Calls in place

The calls that may fail, as they run: each stage changes the one engine there is, and an error ends the
call with all that the stages before it have done. Some calls are made of others, which check again what
they are given, so an error may come after variables, rows and atoms were added.
-/

namespace ArithDecide.Engine

/-- What is done to an engine in place, up to an error. -/
abbrev InPlace := ExceptT EngineError (StateM Engine)

/-- Takes a literal of a registered atom. -/
def takeLiteral (e : Engine) (l : Literal) : Engine :=
  match e.atoms.assign l with
  | .queued atoms => ({ e with atoms := atoms }).trace .atoms fun _ => "asserted " ++ l.text
  | .redundant => e
  | .conflicting =>
    let (first, asserted) := e.dependencies.mkLiteral l
    let (second, opposite) := first.mkLiteral l.negate
    let (joined, conflict) := ({ e with dependencies := second }).joinReasons [asserted, opposite]
    joined.setConflict conflict

namespace InPlace

variable {α : Type}

/-- The engine that is left, and the answer. -/
def runOn (call : InPlace α) (e : Engine) : Engine × Except EngineError α :=
  let (answer, left) := call.run.run e
  (left, answer)

/-- A stage that cannot fail. -/
def stage (change : Engine → Engine × α) : InPlace α :=
  modifyGet fun e => ((change e).2, (change e).1)

/-- Fails unless the variable exists. -/
def requireVar (v : Var) : InPlace Unit := do
  let e ← get
  if e.hasVar v then return else throw (.unknownVariable v)

/-! ## Variables, rows and monomials -/

def setName (v : Var) (name : String) : InPlace Unit := do
  requireVar v
  modify fun e => { e with names := e.names.assign v name }

/-- Fails unless the entries of a new row are variables other than its base. -/
def requireEntries (base : Var) : List (Var × Rat) → InPlace Unit
  | [] => return
  | (v, _) :: rest => do
    requireVar v
    if v = base then throw (.baseNotFresh base) else requireEntries base rest

/-- Fails unless the variable occurs in no row. -/
def requireFresh (base : Var) : InPlace Unit := do
  let e ← get
  if e.tableau.isFresh base then return else throw (.baseNotFresh base)

def addRow (base : Var) (entries : List (Var × Rat)) : InPlace RowId := do
  requireVar base
  requireEntries base entries
  requireFresh base
  stage (·.placeRow base (.ofEntries entries))

def mkLinear (sort : NumSort) (term : Term) (entries : List (Var × Rat)) : InPlace Var := do
  entries.forM fun entry => requireVar entry.1
  let base ← stage (·.mkVar sort term)
  let _ ← addRow base entries
  return base

/-- The variable of a product of sorted factors, new unless the product has one already. -/
def internMonomial (sorted : List Var) : InPlace Var := do
  let e ← get
  match e.monomials.find? fun m => m.factors == sorted with
  | some m => return m.var
  | none => stage (·.placeMonomial sorted)

def mkMonomial (factors : List Var) : InPlace Var := do
  if factors.length < 2 then throw (.degenerateMonomial factors.length)
  else
    factors.forM requireVar
    internMonomial (factors.mergeSort fun v w => v ≤ w)

/-! ## Atoms, literals and bounds -/

def mkAtom (v : Var) (kind : BoundKind) (threshold : Rat) : InPlace Literal := do
  requireVar v
  stage (·.internAtom v kind threshold)

def assertLiteral (l : Literal) : InPlace Unit := do
  let e ← get
  if (e.atoms.get? l.atom).isNone then throw (.unknownLiteral l) else modify (·.takeLiteral l)

def assertEq (v : Var) (value : Rat) : InPlace (Literal × Literal) := do
  let lower ← mkAtom v .lower value
  let upper ← mkAtom v .upper value
  assertLiteral lower
  assertLiteral upper
  return (lower, upper)

def assertGiven (v : Var) (kind : BoundKind) (value : InfRat) : InPlace Unit := do
  requireVar v
  modify fun e => { e with given := e.given ++ [GivenBound.mk v kind value] }
  modify fun e => (e.installBound v kind value none .given).1

def assertVarEq (left right : Var) : InPlace Unit := do
  requireVar left
  requireVar right
  if left = right then return
  else
    let difference ← stage fun e => e.mkVar (e.jointSort [left, right]) .internal
    let _ ← addRow difference [(left, 1), (right, -1)]
    modify (·.fixDifference difference left right)

/-! ## Scopes -/

def popScopes : Nat → InPlace Unit
  | 0 => return
  | count + 1 => do
    modify popScope
    popScopes count

def pop (count : Nat) : InPlace Unit := do
  let e ← get
  if e.depth < count then throw (.popBelowRoot count e.depth) else popScopes count

def retractTo (m : Mark) : InPlace Unit := do
  let e ← get
  if e.depth < m.depth then throw (.popBelowRoot m.depth e.depth) else pop (e.depth - m.depth)

end InPlace

end ArithDecide.Engine
