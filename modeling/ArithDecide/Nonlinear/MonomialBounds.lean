import ArithDecide.Nonlinear.Refinement

/-!
# Bounds of monomials and their factors

The bounds of the factors bound the monomial, and the bounds of the monomial and of the other
factors bound a factor of degree one if the product of the others excludes zero.
-/

namespace ArithDecide.Engine

/-- Bounds a monomial by its factors. -/
def boundMonomial (e : Engine) (m : Monomial) : Engine × Refinement :=
  e.tighten m.var (e.productInterval m.factors) (e.boundReasons m.factors)

/-- Bounds a factor of degree one by the monomial and the other factors. -/
def boundFactor (m : Monomial) (e : Engine) (factor : Var) : Engine × Refinement :=
  let others := m.factors.filter fun v => v ≠ factor
  match (e.productInterval others).inverse with
  | none => (e, .unchanged)
  | some inverse =>
    e.tighten factor ((e.varInterval m.var).mul inverse) (e.boundReasons (m.var :: others))

/-- The factors of degree one. -/
def simpleFactors (m : Monomial) : List Var :=
  ((powersOf m.factors).filter fun p => p.2 = 1).map Prod.fst

/-- Bounds a monomial, then its factors. -/
def refineMonomial (e : Engine) (m : Monomial) : Engine × Refinement :=
  match e.boundMonomial m with
  | (next, .conflict) => (next, .conflict)
  | (next, outcome) =>
    let (last, others) := refineEach (boundFactor m) (simpleFactors m) next
    (last, outcome.join others)

/-- One round over all monomials. -/
def refineMonomials (e : Engine) : Engine × Refinement :=
  refineEach refineMonomial e.monomials e

end ArithDecide.Engine
