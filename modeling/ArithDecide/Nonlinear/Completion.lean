import ArithDecide.Polynomial

/-!
# Bounded completion of a basis

A completion reduces the given polynomials and the S-polynomials of pairs of basis members by the
basis and adds what remains, until a nonzero constant appears, no pair is left or the budget of
steps is spent. A reduction step and the forming of an S-polynomial cost one step each; pairs with
coprime leading products cost nothing because they reduce to zero.
-/

namespace ArithDecide

/-- The basis so far, the pairs of its members to look at, and the steps taken. -/
structure Completion where
  basis : List Polynomial
  pairs : List (Nat × Nat)
  steps : Nat
  /-- A nonzero constant that was derived. -/
  refutation : Option Polynomial
  deriving Inhabited

namespace Completion

/-- The completion before anything was added. -/
def empty : Completion := ⟨[], [], 0, none⟩

/-! ## Reduction -/

/-- The first basis member whose leading product divides the product of a term, the quotient, and
the factor that cancels the term. -/
def reducer? : List Polynomial → PowerProduct × Rat → Option (Polynomial × PowerProduct × Rat)
  | [], _ => none
  | p :: rest, t =>
    match p.leading? with
    | none => reducer? rest t
    | some (product, coeff) =>
      match t.1.div? product with
      | none => reducer? rest t
      | some shift => some (p, shift, t.2 / coeff)

/-- Reduces the terms of a polynomial from a position on as far as the budget allows. Answers with
the result and the steps taken so far. -/
def reduceFrom (basis : List Polynomial) (budget steps index : Nat) (p : Polynomial) :
    Polynomial × Nat :=
  if h : steps < budget ∧ index < p.terms.length then
    match reducer? basis (p.terms.get ⟨index, h.2⟩) with
    | some (q, shift, factor) =>
      reduceFrom basis budget (steps + 1) index (p.subScaled factor shift q)
    | none => reduceFrom basis budget steps (index + 1) p
  else (p, steps)
termination_by (budget - steps, p.terms.length - index)

theorem le_reduceFrom_steps (basis : List Polynomial) (budget steps index : Nat) (p : Polynomial) :
    steps ≤ (reduceFrom basis budget steps index p).2 := by
  fun_induction reduceFrom basis budget steps index p with
  | case1 steps index p bound q shift factor found ih => omega
  | case2 steps index p bound found ih => exact ih
  | case3 => exact Nat.le_refl _

/-- Adds a polynomial to the basis, with its pairs, after reducing it. A nonzero constant is a
refutation, and zero adds nothing. -/
def add (c : Completion) (budget : Nat) (p : Polynomial) : Completion :=
  let (reduced, steps) := reduceFrom c.basis budget c.steps 0 p
  if reduced.isZero then { c with steps := steps }
  else if reduced.isConstant then { c with steps := steps, refutation := some reduced }
  else
    { c with
      basis := c.basis ++ [reduced]
      pairs := c.pairs ++ (List.range c.basis.length).map fun other => (other, c.basis.length)
      steps := steps }

/-- Adds polynomials until one of them gives a refutation. -/
def addAll (budget : Nat) (ps : List Polynomial) (c : Completion) : Completion :=
  match ps with
  | [] => c
  | p :: rest =>
    let next := c.add budget p
    if next.refutation.isSome then next else addAll budget rest next

/-! ## Pairs -/

/-- The combination of two polynomials in which the leading terms cancel, unless their leading
products are coprime. -/
def sPolynomial? (p q : Polynomial) : Option Polynomial :=
  match p.leading?, q.leading? with
  | some (pp, pc), some (qp, qc) =>
    if pp.isCoprime qp then none
    else
      let product := pp.lcm qp
      match product.div? pp, product.div? qp with
      | some ps, some qs =>
        some ((Polynomial.zero.subScaled (-(1 / pc)) ps p).subScaled (1 / qc) qs q)
      | _, _ => none
  | _, _ => none

/-- The S-polynomial of two basis members. -/
def pairPolynomial? (c : Completion) (pair : Nat × Nat) : Option Polynomial :=
  match c.basis[pair.1]?, c.basis[pair.2]? with
  | some p, some q => sPolynomial? p q
  | _, _ => none

theorem le_add_steps (c : Completion) (budget : Nat) (p : Polynomial) :
    c.steps ≤ (c.add budget p).steps := by
  have := le_reduceFrom_steps c.basis budget c.steps 0 p
  simp only [add]
  split
  · exact this
  · split <;> exact this

/-- Looks at the pairs in order until there is a refutation, no pair is left or the budget is spent.
-/
def run (budget : Nat) (c : Completion) : Completion :=
  if _running : c.refutation.isNone ∧ c.steps < budget then
    match _front : c.pairs with
    | [] => c
    | pair :: rest =>
      match c.pairPolynomial? pair with
      | none => run budget { c with pairs := rest }
      | some p => run budget (({ c with pairs := rest, steps := c.steps + 1 }).add budget p)
  else c
termination_by (budget - c.steps, c.pairs.length)
decreasing_by
  · rw [_front]; exact Prod.Lex.right _ (by simp)
  · have := le_add_steps { c with pairs := rest, steps := c.steps + 1 } budget p
    exact Prod.Lex.left _ _ (by simp only at this; omega)

/-- Completes the basis of the given polynomials. -/
def complete (budget : Nat) (input : List Polynomial) : Completion :=
  run budget (addAll budget input empty)

end Completion

end ArithDecide
