import ArithDecide.Dependency
import ArithDecide.Number.Rational

/-!
# Polynomials

A power product is a sorted list of variables, each once per power. Products are ordered by degree
and then lexicographically, smaller variables ranking higher. The terms of a polynomial decrease
strictly in this order and have nonzero coefficients. A polynomial carries what it was derived from.
-/

namespace ArithDecide

/-- A product of variables, sorted, each variable once per power. -/
abbrev PowerProduct := List Var

namespace PowerProduct

/-- The empty product. -/
def one : PowerProduct := []

/-- The product of two products. -/
def mul (p q : PowerProduct) : PowerProduct := (p ++ q).mergeSort fun v w => v ≤ w

/-- The quotient, if the second product divides the first. -/
def div? : PowerProduct → PowerProduct → Option PowerProduct
  | p, [] => some p
  | [], _ :: _ => none
  | v :: p, w :: q =>
    if v = w then div? p q
    else if w < v then none
    else (div? p (w :: q)).map (v :: ·)

/-- The least common multiple. -/
def lcm : PowerProduct → PowerProduct → PowerProduct
  | [], q => q
  | p, [] => p
  | v :: p, w :: q =>
    if v < w then v :: lcm p (w :: q)
    else if w < v then w :: lcm (v :: p) q
    else v :: lcm p q
termination_by p q => p.length + q.length

/-- Whether the products have no variable in common. -/
def isCoprime (p q : PowerProduct) : Bool := p.all fun v => !q.contains v

/-- Whether the first list comes before the second one in the lexicographic order. -/
def lexBefore : List Var → List Var → Bool
  | [], [] => false
  | [], _ :: _ => true
  | _ :: _, [] => false
  | v :: p, w :: q => v < w || (v = w && lexBefore p q)

/-- By degree, and among products of one degree the lexicographically later list is smaller. -/
def lt (p q : PowerProduct) : Bool :=
  p.length < q.length || (p.length = q.length && lexBefore q p)

/-- The value of a product. -/
def eval (p : PowerProduct) (assignment : Var → Rat) : Rat :=
  p.foldr (fun v acc => assignment v * acc) 1

end PowerProduct

/-- A sum of power products with coefficients, largest product first, and the nodes that its
derivation rests on, in increasing order. -/
structure Polynomial where
  terms : List (PowerProduct × Rat)
  reasons : List NodeId
  deriving DecidableEq, Inhabited

namespace Polynomial

/-- Adds one term to a decreasing list of terms. -/
def addToTerms (p : PowerProduct) (coeff : Rat) :
    List (PowerProduct × Rat) → List (PowerProduct × Rat)
  | [] => if coeff = 0 then [] else [(p, coeff)]
  | (q, d) :: rest =>
    if q.lt p then
      if coeff = 0 then (q, d) :: rest else (p, coeff) :: (q, d) :: rest
    else if p = q then
      if d + coeff = 0 then rest else (q, d + coeff) :: rest
    else (q, d) :: addToTerms p coeff rest

/-- The polynomial without terms. -/
def zero : Polynomial := ⟨[], []⟩

/-- The polynomial with the given terms in any order. -/
def ofTerms (terms : List (PowerProduct × Rat)) (reasons : List NodeId) : Polynomial :=
  ⟨terms.foldl (fun acc t => addToTerms t.1 t.2 acc) [], reasons⟩

def isZero (p : Polynomial) : Bool := p.terms.isEmpty

/-- The largest term. -/
def leading? (p : Polynomial) : Option (PowerProduct × Rat) := p.terms.head?

/-- Whether the polynomial is a constant other than zero. -/
def isConstant (p : Polynomial) : Bool :=
  match p.terms with
  | [(product, _)] => product.isEmpty
  | _ => false

/-- The polynomial `p - factor · shift · q`; its reasons are those of both. -/
def subScaled (p : Polynomial) (factor : Rat) (shift : PowerProduct) (q : Polynomial) :
    Polynomial where
  terms := q.terms.foldl (fun acc t => addToTerms (t.1.mul shift) (-(factor * t.2)) acc) p.terms
  reasons := SortedSet.union p.reasons q.reasons

/-- The variable and the value which a polynomial `c · v + d` gives it. -/
def assignment? (p : Polynomial) : Option (Var × Rat) :=
  match p.terms with
  | [([v], _)] => some (v, 0)
  | [([v], coeff), ([], constant)] => some (v, -(constant / coeff))
  | _ => none

/-- The value of a polynomial. -/
def eval (p : Polynomial) (assignment : Var → Rat) : Rat :=
  total (p.terms.map fun t => t.2 * t.1.eval assignment)

end Polynomial

end ArithDecide
