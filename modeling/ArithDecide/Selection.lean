import ArithDecide.Literal
import ArithDecide.Number.InfRat

/-!
# Choosing a variable to branch on

When an integer variable has a fractional value the engine offers all such variables as candidates,
and a selector picks one. Two selectors are built in: `mostFractional` takes the value farthest from
an integer, variables of the current search first; `firstFractional` takes the smallest variable.
-/

namespace ArithDecide

/-- An integer variable with a fractional value. -/
structure Candidate where
  var : Var
  value : InfRat
  /-- Whether the variable takes part in the current search. -/
  relevant : Bool
  deriving DecidableEq, Inhabited

namespace Candidate

/-- How far the real part of the value is from the nearest integer. -/
def distance (c : Candidate) : Rat := distanceToInteger c.value.real

end Candidate

/-- Picks a variable from the candidates, or none. The engine falls back on its own choice when the
answer is not among the candidates. -/
abbrev Selector := List Candidate → Option Var

namespace Selector

/-- Whether the most-fractional rule strictly prefers the first candidate: relevant ones first, then
the larger distance, then the smaller variable. -/
def prefers (c d : Candidate) : Bool :=
  if c.relevant ≠ d.relevant then c.relevant
  else if c.distance ≠ d.distance then d.distance < c.distance
  else c.var < d.var

/-- The best candidate, the earliest of equally good ones. -/
def best : List Candidate → Option Candidate
  | [] => none
  | c :: rest => some (rest.foldl (fun best d => if prefers d best then d else best) c)

/-- The candidate farthest from an integer. -/
def mostFractional : Selector := fun candidates => (best candidates).map Candidate.var

/-- The smallest candidate. -/
def firstFractional : Selector := fun candidates => (candidates.map Candidate.var).min?

end Selector

end ArithDecide
