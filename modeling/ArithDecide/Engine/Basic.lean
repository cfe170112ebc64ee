import ArithDecide.Atom
import ArithDecide.Names
import ArithDecide.Selection
import ArithDecide.Statistics
import ArithDecide.Tableau
import ArithDecide.Trace

/-!
# The state of the engine

The engine decides conjunctions of bounds over rational and integer variables. Its state has two
parts. `Engine.State` is everything that leaving a scope takes back, together with the trails and
marks by which it is taken back: variables, tableau, bounds, atoms, monomials, the current assignment
and the verdict. The rest, counters and trace among it, lives on. This module holds the types and the
questions that do not change the state.
-/

namespace ArithDecide

/-- Whether a variable ranges over the rationals or over the integers only. -/
inductive NumSort where
  | int
  | real
  deriving DecidableEq, Inhabited

/-- What a variable is. -/
structure Variable where
  sort : NumSort
  term : Term
  deriving DecidableEq, Inhabited

/-- A variable that stands for the product of its factors. The factors are sorted, and a factor
occurs once per power. -/
structure Monomial where
  var : Var
  factors : List Var
  deriving DecidableEq, Inhabited

/-- A bound that holds unconditionally. -/
structure GivenBound where
  var : Var
  kind : BoundKind
  value : InfRat
  deriving DecidableEq, Inhabited

/-- A literal that the bounds entail. -/
structure Propagation where
  literal : Literal
  explanation : Explanation
  deriving DecidableEq, Inhabited

/-- Two variables that the bounds force to be equal. -/
structure EqualityReport where
  pair : VarPair
  explanation : Explanation
  deriving DecidableEq, Inhabited

/-- What is known about the assignment. -/
inductive Status where
  /-- Every bound holds. -/
  | consistent
  /-- Some base variable may lie outside its bounds. -/
  | checking
  /-- The constraints have no solution. -/
  | infeasible (conflict : Dependency)
  deriving DecidableEq, Inhabited

/-- What the engine may do. -/
structure Options where
  /-- Derive bounds from rows. -/
  propagateBounds : Bool := true
  /-- How many rows are inspected for bounds in one round. -/
  maxImpliedBoundRows : Nat := 1000
  /-- A cut is tried at every check of this number; zero means never. -/
  branchCutRatio : Nat := 2
  /-- How many cuts one check may add. -/
  maxGomoryCuts : Nat := 4
  /-- How many rounds of interval reasoning one check may do. -/
  nonlinearRounds : Nat := 4
  /-- Whether a check may complete a polynomial basis. -/
  enableBasis : Bool := true
  /-- How many reduction steps a completion may take. -/
  maxBasisSteps : Nat := 64
  /-- Put new rows into reduced form at once. -/
  eagerNormalization : Bool := false
  deriving DecidableEq, Inhabited

/-- Misuse of the engine. -/
inductive EngineError where
  | unknownVariable (v : Var)
  | unknownLiteral (l : Literal)
  | baseNotFresh (v : Var)
  | degenerateMonomial (factors : Nat)
  | popBelowRoot (requested : Nat) (isOpen : Nat)
  deriving DecidableEq, Inhabited

namespace EngineError

def message : EngineError → String
  | unknownVariable v => "variable " ++ v.text ++ " does not exist"
  | unknownLiteral l => "literal " ++ l.text ++ " does not refer to a registered atom"
  | baseNotFresh v =>
    "variable " ++ v.text ++ " cannot head a new row, it already occurs in the tableau"
  | degenerateMonomial factors =>
    "a monomial needs at least two factors, got " ++ toString factors
  | popBelowRoot requested isOpen =>
    "cannot pop " ++ toString requested ++ " scope(s), only " ++ toString isOpen ++ " are open"

end EngineError

/-- What was there when a scope was entered: how long the stores and their trails were, and the
verdict. -/
structure Scope where
  numVars : Nat
  tableau : Nat
  bounds : BoundStore.Mark
  atoms : AtomRegistry.Mark
  dependencies : Nat
  valueTrail : Nat
  monomials : Nat
  given : Nat
  reported : Nat
  status : Status
  /-- The number of the enclosing scope. -/
  parentId : Nat
  deriving DecidableEq, Inhabited

/-- What leaving a scope takes back, the trails by which it does, and the numbers of the scopes. -/
structure Engine.State where
  /-- The variables, by number. -/
  columns : Array Variable
  /-- The current assignment; for the base of a pending row see `Engine.State.value`. -/
  values : Array InfRat
  tableau : Tableau
  bounds : BoundStore
  dependencies : DependencyArena
  atoms : AtomRegistry
  monomials : List Monomial
  /-- The unconditional bounds, oldest first. -/
  given : List GivenBound
  /-- The pairs of fixed variables reported as equal, oldest first. -/
  reported : List VarPair
  status : Status
  /-- Base variables which may lie outside their bounds, in increasing order. -/
  toPatch : List Var
  /-- Rows to inspect for bounds, in increasing order. -/
  touched : List RowId
  /-- Entailed literals not handed out yet, oldest first. -/
  propagations : List Propagation
  /-- Equalities not handed out yet, oldest first. -/
  equalities : List EqualityReport
  /-- Values that variables had before, latest first. -/
  valueTrail : List (Var × InfRat)
  /-- The open scopes, innermost first. -/
  scopes : List Scope
  /-- The number of the innermost open scope, zero when none is open. -/
  scopeId : Nat
  /-- How many scopes were entered so far; leaving a scope does not change it. -/
  scopesEntered : Nat
  deriving DecidableEq, Inhabited

/-- The engine. -/
structure Engine extends Engine.State where
  /-- The number of the scope in which the previous value of each variable was saved last. Numbers have
  32 bits, so after that many scopes a stamp may be that of another scope. -/
  valueStamps : Array Nat
  options : Options
  oracle : Oracle
  selector : Selector
  names : Names
  statistics : Statistics
  /-- How many integer checks found a fractional value. -/
  integerChecks : Nat
  tracer : Tracer

namespace Engine

namespace State

/-- The state without variables and constraints. -/
def empty : State where
  columns := #[]
  values := #[]
  tableau := .empty
  bounds := .empty
  dependencies := .empty
  atoms := .empty
  monomials := []
  given := []
  reported := []
  status := .consistent
  toPatch := []
  touched := []
  propagations := []
  equalities := []
  valueTrail := []
  scopes := []
  scopeId := 0
  scopesEntered := 0

/-! ## Questions -/

def numVars (s : State) : Nat := s.columns.size

/-- All variables, in increasing order. -/
def vars (s : State) : List Var := List.range s.numVars

def numRows (s : State) : Nat := s.tableau.rows.size

def depth (s : State) : Nat := s.scopes.length

def hasVar (s : State) (v : Var) : Bool := v < s.numVars

def sort (s : State) (v : Var) : NumSort := ((s.columns[v]?).map Variable.sort).getD .real

def isInt (s : State) (v : Var) : Bool := s.sort v = .int

def term (s : State) (v : Var) : Term := ((s.columns[v]?).map Variable.term).getD .internal

def kind (s : State) (v : Var) : VarKind := s.tableau.kind v

/-- The stored value of a variable. -/
def stored (s : State) (v : Var) : InfRat := (s.values[v]?).getD 0

/-- The value of a variable whose pending row, if it heads one, is among the first `count` rows. -/
def valueBelow (s : State) : Nat → Var → InfRat
  | 0, v => s.stored v
  | count + 1, v =>
    match (s.tableau.rowOf? v).bind s.tableau.get? with
    | some row => if row.pending then row.form.evalInf (valueBelow s count) else s.stored v
    | none => s.stored v

/-- The current value of a variable. The base of a pending row has the value of its row. -/
def value (s : State) (v : Var) : InfRat := s.valueBelow s.numRows v

def isConsistent (s : State) : Bool := s.status = .consistent

def isInfeasible (s : State) : Bool :=
  match s.status with
  | .infeasible _ => true
  | _ => false

/-- The explanation of the conflict, if there is one. -/
def conflict (s : State) : Option Explanation :=
  match s.status with
  | .infeasible conflict => some (s.dependencies.linearize conflict)
  | _ => none

end State

/-- An engine without constraints. -/
def new (options : Options) : Engine where
  toState := .empty
  valueStamps := #[]
  options := options
  oracle := .detached
  selector := Selector.mostFractional
  names := .empty
  statistics := default
  integerChecks := 0
  tracer := .new .discard

/-- The name of a variable: the one it was given, else that of its term, else `x` and its number. -/
def varName (e : Engine) (v : Var) : String :=
  ((e.names.nameOf? v).or (e.oracle.termName (e.term v))).getD ("x" ++ toString v)

/-- The text of a row: `x = 2·y - z`. -/
def rowText (e : Engine) (r : RowId) : String :=
  match e.tableau.get? r with
  | none => ""
  | some row => e.varName row.base ++ " = " ++ row.form.text e.varName

/-! ## Bookkeeping -/

/-- Writes a trace line. -/
def trace (e : Engine) (tag : TraceTag) (message : Unit → String) : Engine :=
  { e with tracer := e.tracer.trace tag message }

/-- Changes a counter. -/
def count (e : Engine) (change : Statistics → Statistics) : Engine :=
  { e with statistics := change e.statistics }

/-- Notes that a base variable may lie outside its bounds. -/
def markToPatch (e : Engine) (v : Var) : Engine :=
  { e with toPatch := SortedSet.insert v e.toPatch }

/-- Gives a variable a value. The first change of a variable in a scope saves its previous value. -/
def setValue (e : Engine) (v : Var) (value : InfRat) : Engine :=
  if !e.scopes.isEmpty && e.valueStamps[v]? ≠ some e.scopeId then
    { e with
      values := e.values.setIfInBounds v value
      valueStamps := e.valueStamps.setIfInBounds v e.scopeId
      valueTrail := (v, e.stored v) :: e.valueTrail }
  else { e with values := e.values.setIfInBounds v value }

/-- A dependency on everything that one of the given ones rests on. -/
def joinReasons (e : Engine) (reasons : List Dependency) : Engine × Dependency :=
  let (arena, reason) := e.dependencies.joinAll reasons
  ({ e with dependencies := arena }, reason)

/-- Leaves the consistent state when some base variable may lie outside its bounds. -/
def declareChecking (e : Engine) : Engine :=
  if e.isConsistent then { e with status := .checking } else e

/-- Runs a step for each item in turn and stops at the first one that reports a conflict. -/
def forEach {α : Type} (step : Engine → α → Engine × Bool) : List α → Engine → Engine × Bool
  | [], e => (e, true)
  | a :: rest, e =>
    match step e a with
    | (next, true) => forEach step rest next
    | (next, false) => (next, false)

end Engine

end ArithDecide
