import ArithDecide.Check
import ArithDecide.Engine.Scopes

/-!
# Searching through case splits

`Engine.solve` stands in for a Boolean search: when a check asks for a case split, both sides are
explored in scopes of their own, the lower one first. A refutation that does not mention its branch
literal refutes the whole problem; otherwise the refutations of both sides are resolved. The engine
is back at its depth when the search ends.
-/

namespace ArithDecide

/-- The answer of a search. -/
inductive SearchResult where
  /-- The value of every variable; variables of cuts made on the way are included. -/
  | sat (model : List Rat)
  /-- There is no solution; no branch literal is mentioned. -/
  | unsat (explanation : Explanation)
  /-- Nonlinear reasoning gave up on some node and no node gave a model. -/
  | unknown
  /-- The search was stopped. -/
  | stopped
  deriving DecidableEq, Inhabited

namespace SearchResult

def isSat : SearchResult → Bool
  | sat _ => true
  | _ => false

def isUnsat : SearchResult → Bool
  | unsat _ => true
  | _ => false

end SearchResult

/-- Whether a search that has checked so many nodes stops before the next one. -/
abbrev StopCondition := Nat → Bool

namespace StopCondition

/-- Never stops. -/
def never : StopCondition := fun _ => false

/-- Stops after a number of nodes. -/
def nodeBudget (nodes : Nat) : StopCondition := fun visited => nodes ≤ visited

end StopCondition

/-- A search in progress: the engine, the number of nodes checked so far, and the answer. -/
structure SearchState where
  engine : Engine
  visited : Nat
  result : SearchResult

namespace SearchState

/-- The same search with another answer. -/
def answer (s : SearchState) (result : SearchResult) : SearchState := { s with result := result }

/-- The search after its scope was left. -/
def leaveScope (s : SearchState) : SearchState := { s with engine := s.engine.popScope }

/-- What the answer for the upper side means for a node whose lower side was refuted, or not
decided. -/
def combine (split : CaseSplit) (down : Option Explanation) (up : SearchState) : SearchState :=
  match up.result, down with
  | .unsat refutation, some downRefutation =>
    if refutation.contains split.up then
      up.answer (.unsat (downRefutation.resolve refutation [split.down, split.up]))
    else up
  | .unsat refutation, none => if refutation.contains split.up then up.answer .unknown else up
  | _, _ => up

end SearchState

namespace Engine

/-- A new scope in which a branch literal holds. -/
def enterBranch (e : Engine) (l : Literal) : Engine :=
  match e.push.assertLiteral l with
  | .ok entered => entered
  | .error _ => e.push

/-- Searches through at most `depth` nested case splits. -/
def search (stop : StopCondition) : Nat → Engine → Nat → SearchState
  | 0, e, visited => ⟨e, visited, .stopped⟩
  | depth + 1, e, visited =>
    if stop visited then ⟨e, visited, .stopped⟩
    else
      let (checked, result) := e.check
      match result with
      | .sat => ⟨checked, visited + 1, .sat checked.model⟩
      | .unsat explanation => ⟨checked, visited + 1, .unsat explanation⟩
      | .unknown => ⟨checked, visited + 1, .unknown⟩
      | .branch split =>
        let explore (e : Engine) (visited : Nat) (l : Literal) : SearchState :=
          (search stop depth (e.enterBranch l) visited).leaveScope
        let down := explore checked (visited + 1) split.down
        match down.result with
        | .unsat refutation =>
          if refutation.contains split.down then
            .combine split (some refutation) (explore down.engine down.visited split.up)
          else down
        | .unknown => .combine split none (explore down.engine down.visited split.up)
        | _ => down

/-- The number of integers strictly above the lower bound of an integer variable up to its upper
bound, zero unless it has both. -/
def width (e : Engine) (v : Var) : Nat :=
  match e.isInt v, e.bounds.lowerValue v, e.bounds.upperValue v with
  | true, some lower, some upper => (upper.real - lower.real).floor.toNat
  | _, _, _ => 0

/-- How many case splits may be nested: when all integer variables are bounded, more than each split
on such a variable can shrink their bounds. -/
def depthLimit (e : Engine) : Nat :=
  let propagated := e.propagate.1
  Nat.pow 2 64 + (propagated.vars.map propagated.width).foldl (· + ·) 0

/-- Decides the asserted literals, branching with the given selector, which stays installed. -/
def solve (e : Engine) (selector : Selector) (stop : StopCondition) : SearchState :=
  search stop e.depthLimit { e with selector := selector } 0

end Engine

end ArithDecide
