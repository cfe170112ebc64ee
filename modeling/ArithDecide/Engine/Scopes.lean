import ArithDecide.Engine.Basic

/-!
# Scopes

`push` enters a scope and `pop` leaves it. Entering notes how long every store and trail is, and
leaving takes back what was added since: values and bounds from their trails, the tableau by the
inverse changes, everything else by cutting it off. Nothing waits to be handed out or inspected
afterwards and every variable that heads a row is to be repaired. Counters, trace and the names of
variables that stay are not taken back.
-/

namespace ArithDecide.Engine

/-! ## Entering -/

namespace State

/-- What is there now. -/
def scope (s : State) : Scope where
  numVars := s.numVars
  tableau := s.tableau.trail.length
  bounds := s.bounds.mark
  atoms := s.atoms.mark
  dependencies := s.dependencies.nodes.size
  valueTrail := s.valueTrail.length
  monomials := s.monomials.length
  given := s.given.length
  reported := s.reported.length
  status := s.status
  parentId := s.scopeId

/-- The state after a scope was entered. Scopes are numbered from one in the order in which they are
entered, with 32 bits: the scope after number `2 ^ 32 - 1` gets zero, and then all numbers come again. -/
def enter (s : State) : State :=
  { s with
    scopes := s.scope :: s.scopes
    scopeId := (s.scopesEntered + 1) % UInt32.size
    scopesEntered := s.scopesEntered + 1
    tableau := { s.tableau with recording := true } }

end State

/-- Enters a scope. Variables that bear the stamp of an earlier scope with the same number are not saved
in it. -/
def push (e : Engine) : Engine :=
  let entered := { e with toState := e.toState.enter }
  entered.trace .backtrack fun _ => "push to depth " ++ toString entered.depth

/-! ## Leaving -/

namespace State

/-- Gives a variable back a saved value. -/
def restoreValue (values : Array InfRat) (saved : Var × InfRat) : Array InfRat :=
  values.setIfInBounds saved.1 saved.2

/-- The values when the trail had a length: the saved ones are given back, the latest one first. -/
def restoredValues (s : State) (length : Nat) : Array InfRat :=
  (s.valueTrail.take (s.valueTrail.length - length)).foldl restoreValue s.values

/-- All variables that head a row, in increasing order. -/
def bases (s : State) : List Var := s.vars.filter fun v => s.kind v ≠ .nonBase

/-- Takes back everything since a scope was entered; `outer` are the scopes that stay open. -/
def rewind (s : State) (scope : Scope) (outer : List Scope) : State where
  columns := s.columns.take scope.numVars
  values := (s.restoredValues scope.valueTrail).take scope.numVars
  tableau := { s.tableau.undoTo scope.tableau with recording := !outer.isEmpty }
  bounds := (s.bounds.retractTo scope.bounds).shrink scope.numVars
  dependencies := s.dependencies.truncate scope.dependencies
  atoms := s.atoms.retractTo scope.atoms
  monomials := s.monomials.take scope.monomials
  given := s.given.take scope.given
  reported := s.reported.take scope.reported
  status := scope.status
  toPatch := s.toPatch
  touched := s.touched
  propagations := s.propagations
  equalities := s.equalities
  valueTrail := s.valueTrail.drop (s.valueTrail.length - scope.valueTrail)
  scopes := outer
  scopeId := scope.parentId
  scopesEntered := s.scopesEntered

/-- Nothing waits to be handed out or inspected, and every base is to be repaired. -/
def settle (s : State) : State :=
  { s with propagations := [], equalities := [], touched := [], toPatch := s.bases }

/-- The state after the innermost scope was left, if one is open. -/
def leave (s : State) : State :=
  match s.scopes with
  | [] => s
  | scope :: outer => (s.rewind scope outer).settle

end State

/-- Leaves the innermost scope, if one is open. -/
def popScope (e : Engine) : Engine :=
  match e.scopes with
  | [] => e
  | scope :: _ =>
    let left := { e with
      toState := e.toState.leave
      valueStamps := e.valueStamps.take scope.numVars
      names := e.names.truncate scope.numVars }
    left.trace .backtrack fun _ => "pop to depth " ++ toString left.depth

/-- Leaves some scopes. -/
def popScopes : Nat → Engine → Engine
  | 0, e => e
  | count + 1, e => popScopes count e.popScope

/-- Leaves the innermost `count` scopes; that many must be open. -/
def pop (e : Engine) (count : Nat) : Except EngineError Engine :=
  if e.depth < count then .error (.popBelowRoot count e.depth) else .ok (popScopes count e)

/-- A depth to return to. -/
structure Mark where
  depth : Nat
  deriving DecidableEq, Inhabited

def mark (e : Engine) : Mark := ⟨e.depth⟩

/-- Leaves scopes until the depth of the mark is reached, which must not lie deeper. -/
def retractTo (e : Engine) (m : Mark) : Except EngineError Engine :=
  if e.depth < m.depth then .error (.popBelowRoot m.depth e.depth) else e.pop (e.depth - m.depth)

end ArithDecide.Engine
