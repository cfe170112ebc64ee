import ArithDecide.Engine.Model
import ArithDecide.Engine.Propagation
import ArithDecide.Guarded.Store

/-!
# Guarded bounds

Explanations are built from nodes of the arena that exist, and the bounds that they need exist. The
verdict is changed only while there is no conflict, and bounds are divided by coefficients other than
zero.
-/

namespace ArithDecide

namespace DependencyArena.Guarded

/-- The leaves below the nodes on the stack, each node being visited once. -/
def walk (arena : DependencyArena) (visited : Array Bool) (found : Explanation) :
    List NodeId → Except Failure Explanation
  | [] => .ok found
  | id :: stack =>
    if _unvisited : visited[id]? = some false then
      let marked := visited.setIfInBounds id true
      match arena.nodes[id]? with
      | some (.literal l) => walk arena marked { found with literals := l :: found.literals } stack
      | some (.equality p) =>
        walk arena marked { found with equalities := p :: found.equalities } stack
      | some (.join left right) => walk arena marked found (left :: right :: stack)
      | none => .error .missingNode
    else if visited[id]? = some true then walk arena visited found stack
    else .error .missingNode
termination_by stack => workLeft visited stack
decreasing_by
  all_goals simp only [workLeft, List.length_cons]
  · have := workLeft_mark _unvisited stack
    simp only [workLeft] at this
    omega
  · have := workLeft_mark _unvisited stack
    simp only [workLeft] at this
    omega
  · have := workLeft_mark _unvisited stack
    simp only [workLeft] at this
    omega
  · omega

def linearize (arena : DependencyArena) : Dependency → Except Failure Explanation
  | none => .ok .empty
  | some id => do
    let leaves ← walk arena (.replicate arena.nodes.size false) .empty [id]
    return ⟨SortedSet.ofList leaves.literals, SortedSet.ofList leaves.equalities⟩

end DependencyArena.Guarded

namespace BoundStore.Guarded

/-- What the active bound rests on, which has to exist. -/
def reason (store : BoundStore) (v : Var) (kind : BoundKind) : Except Failure Dependency :=
  match store.get v kind with
  | none => .error .missingBound
  | some bound => .ok bound.reason

end BoundStore.Guarded

namespace Engine.Guarded

/-! ## Reasons and conflicts -/

/-- What the active bounds of some variables on some sides rest on. -/
def reasons (e : Engine) (uses : List (Var × BoundKind)) : Except Failure (List Dependency) :=
  uses.mapM fun u => BoundStore.Guarded.reason e.bounds u.1 u.2

def joinReasons (e : Engine) (reasons : List Dependency) : Guarded (Engine × Dependency) := do
  demand (∀ d ∈ reasons, ∀ id ∈ d, id < e.dependencies.nodes.size) .missingNode
  return e.joinReasons reasons

/-- Changes the verdict. -/
def declare (e : Engine) (status : Status) : Guarded Engine := do
  demand (e.isInfeasible = false) .decided
  return { e with status := status }

def declareChecking (e : Engine) : Guarded Engine :=
  if e.isConsistent then declare e .checking else return e

def setConflict (e : Engine) (reason : Dependency) : Guarded Engine :=
  if e.isInfeasible then return e
  else do
    let failed ← declare e (.infeasible reason)
    let explanation ← DependencyArena.Guarded.linearize e.dependencies reason
    return (failed.count fun s => { s with conflicts := s.conflicts + 1 }).trace .bounds fun _ =>
      "conflict " ++ explanation.text

/-- The explanation of the conflict, if there is one. -/
def conflict (e : Engine) : Except Failure (Option Explanation) :=
  match e.status with
  | .infeasible conflict => do
    return some (← DependencyArena.Guarded.linearize e.dependencies conflict)
  | _ => .ok none

/-- Runs a step for each item in turn and stops at the first one that reports a conflict. -/
def forEach {α : Type} (step : Engine → α → Guarded (Engine × Bool)) :
    List α → Engine → Guarded (Engine × Bool)
  | [], e => return (e, true)
  | a :: rest, e => do
    match ← step e a with
    | (next, true) => forEach step rest next
    | (next, false) => return (next, false)

/-! ## Installing -/

def propagateAtom (e : Engine) (a : AtomId) : Guarded Engine :=
  match (e.atoms.get? a).filter fun atom => atom.assignment.isNone && !atom.propagated with
  | none => return e
  | some atom =>
    match e.decided? atom.var atom.kind atom.threshold with
    | none => return e
    | some (_, reason) => do
      let _ ← DependencyArena.Guarded.linearize e.dependencies reason
      return e.propagateAtom a

def propagateAtomsOn (e : Engine) (v : Var) : Guarded Engine :=
  (e.atoms.atomsOn v).foldlM propagateAtom e

def afterTightening (e : Engine) (v : Var) (kind : BoundKind) (value : InfRat)
    (origin : BoundOrigin) : Guarded Engine := do
  let counted := e.count fun s =>
    match kind with
    | .lower => { s with assertLower := s.assertLower + 1 }
    | .upper => { s with assertUpper := s.assertUpper + 1 }
  let traced := counted.trace .bounds fun _ =>
    counted.varName v ++ " " ++ kind.text ++ " " ++ value.text ++ " (" ++ origin.text ++ ")"
  let touched := if origin = .derived then traced else traced.touchRowsOf v
  let moved := touched.respectBound v kind value
  if moved.toPatch.isEmpty then propagateAtomsOn moved v
  else do propagateAtomsOn (← declareChecking moved) v

def installBound (e : Engine) (v : Var) (kind : BoundKind) (value : InfRat) (reason : Dependency)
    (origin : BoundOrigin) : Guarded (Engine × Bool) :=
  let rounded := e.roundBound v kind value
  match e.bounds.assert ⟨v, kind, rounded, reason, origin⟩ with
  | .conflict opposite => do
    let (joined, conflict) ← joinReasons e [reason, opposite]
    return (← setConflict joined conflict, false)
  | .unchanged store => return ({ e with bounds := store }, true)
  | .tightened store => do
    return (← afterTightening { e with bounds := store } v kind rounded origin, true)

def installLiteral (e : Engine) (l : Literal) : Guarded (Engine × Bool) :=
  match e.atoms.get? l.atom with
  | none => return (e, true)
  | some atom =>
    let (kind, value) := atom.bound l.negative
    let (arena, reason) := e.dependencies.mkLiteral l
    installBound { e with dependencies := arena } atom.var kind value reason (.literal l)

def installQueued : Nat → Engine → Guarded (Engine × Bool)
  | 0, e => return (e, true)
  | count + 1, e =>
    match e.atoms.next? with
    | none => return (e, true)
    | some (l, atoms) => do
      match ← installLiteral { e with atoms := atoms } l with
      | (next, true) => installQueued count next
      | (next, false) => return (next, false)

/-! ## Consequences of rows and of fixed variables -/

/-- Why the base of a row cannot reach its violated bound. -/
def rowConflict (e : Engine) (row : Row) (violated : BoundKind) : Except Failure (List Dependency) :=
  reasons e ((row.base, violated) :: row.form.terms.map fun t => (t.1, blockingSide violated t.2))

def impliedBound (terms : List (Var × Rat)) (side : BoundKind) (sum : RowSum) (e : Engine)
    (t : Var × Rat) : Guarded (Engine × Bool) :=
  match e.sumWithout sum t side with
  | none => return (e, true)
  | some rest => do
    demand (t.2 ≠ 0) .divisionByZero
    let kind := (limitingKind t.2 side).opposite
    let value := e.roundBound t.1 kind ((-rest).divide t.2)
    if e.bounds.isTighter t.1 kind value then
      let others := terms.filter fun other => other.1 ≠ t.1
      let used ← reasons e (others.map fun other => (other.1, limitingKind other.2 side))
      let (joined, reason) ← joinReasons e used
      installBound (joined.count fun s => { s with impliedBounds := s.impliedBounds + 1 }) t.1 kind
        value reason .derived
    else return (e, true)

def impliedBoundsOf (e : Engine) (r : RowId) : Guarded (Engine × Bool) :=
  match (e.tableau.get? r).filter fun row => !row.pending with
  | none => return (e, true)
  | some row =>
    let terms := row.zeroTerms
    let least := e.rowSum terms .lower
    let greatest := e.rowSum terms .upper
    forEach (fun e t => do
      match ← impliedBound terms .lower least e t with
      | (next, true) => impliedBound terms .upper greatest next t
      | (next, false) => return (next, false)) terms e

def propagateImpliedBounds (e : Engine) : Guarded (Engine × Bool) :=
  forEach impliedBoundsOf (e.touched.take e.options.maxImpliedBoundRows) { e with touched := [] }

def reportEquality (e : Engine) (v : Var) : Guarded Engine :=
  match e.sharedFixedValue? v with
  | none => return e
  | some value =>
    let isNew (w : Var) : Bool := w ≠ v && !e.reported.contains (VarPair.mk w v)
    match (e.representative? value).filter isNew with
    | none => return e
    | some w => do
      let used ← reasons e [(w, .lower), (w, .upper), (v, .lower), (v, .upper)]
      let (joined, reason) ← joinReasons e used
      let _ ← DependencyArena.Guarded.linearize joined.dependencies reason
      return e.reportEquality v

def propagateFixedEqualities (e : Engine) : Guarded Engine :=
  e.vars.foldlM reportEquality e

/-! ## Rational models -/

def epsilonLimit? (low high : InfRat) : Except Failure (Option Rat) :=
  if low.real < high.real && high.eps < low.eps then do
    demand (low.eps - high.eps ≠ 0) .divisionByZero
    return some ((high.real - low.real) / (low.eps - high.eps))
  else .ok none

def epsilonLimits (e : Engine) (v : Var) : Except Failure (List Rat) := do
  let value := e.value v
  let below ← (e.bounds.lowerValue v).elim (pure none) fun lower => epsilonLimit? lower value
  let above ← (e.bounds.upperValue v).elim (pure none) fun upper => epsilonLimit? value upper
  return below.toList ++ above.toList

def epsilon (e : Engine) : Except Failure Rat := do
  let limits ← e.vars.mapM (epsilonLimits e)
  return limits.flatten.foldl (fun least limit => if limit < least then limit else least) 1

def model (e : Engine) : Except Failure (List Rat) := do
  let epsilon ← epsilon e
  return e.vars.map fun v => (e.value v).evaluate epsilon

end Engine.Guarded

end ArithDecide
