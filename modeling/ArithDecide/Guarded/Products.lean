import ArithDecide.Guarded.Bounds
import ArithDecide.Nonlinear.Check

/-!
# Guarded nonlinear reasoning

The endpoints of an interval that is inverted and the leading coefficients of the polynomials of a basis
are not zero, and what is concluded rests on nodes that exist.
-/

namespace ArithDecide

/-! ## Intervals and polynomials -/

namespace Interval.Guarded

def inverse (i : Interval) : Except Failure (Option Interval) :=
  if i.contains 0 then .ok none
  else do
    demand (i.lower ≠ .closed 0 ∧ i.upper ≠ .closed 0) .divisionByZero
    return i.inverse

end Interval.Guarded

namespace Polynomial.Guarded

def assignment? (p : Polynomial) : Except Failure (Option (Var × Rat)) :=
  match p.terms with
  | [([_], coeff), ([], _)] => do
    demand (coeff ≠ 0) .divisionByZero
    return p.assignment?
  | _ => .ok p.assignment?

end Polynomial.Guarded

namespace Completion.Guarded

def reducer? : List Polynomial → PowerProduct × Rat →
    Except Failure (Option (Polynomial × PowerProduct × Rat))
  | [], _ => .ok none
  | p :: rest, t =>
    match p.leading? with
    | none => reducer? rest t
    | some (product, coeff) =>
      match t.1.div? product with
      | none => reducer? rest t
      | some shift => do
        demand (coeff ≠ 0) .divisionByZero
        return some (p, shift, t.2 / coeff)

def reduceFrom (basis : List Polynomial) (budget steps index : Nat) (p : Polynomial) :
    Except Failure (Polynomial × Nat) :=
  if h : steps < budget ∧ index < p.terms.length then
    match reducer? basis (p.terms.get ⟨index, h.2⟩) with
    | .error failure => .error failure
    | .ok (some (q, shift, factor)) =>
      reduceFrom basis budget (steps + 1) index (p.subScaled factor shift q)
    | .ok none => reduceFrom basis budget steps (index + 1) p
  else .ok (p, steps)
termination_by (budget - steps, p.terms.length - index)

def add (c : Completion) (budget : Nat) (p : Polynomial) : Except Failure Completion := do
  let _ ← reduceFrom c.basis budget c.steps 0 p
  return c.add budget p

def addAll (budget : Nat) (ps : List Polynomial) (c : Completion) : Except Failure Completion :=
  match ps with
  | [] => .ok c
  | p :: rest => do
    let next ← add c budget p
    if next.refutation.isSome then return next else addAll budget rest next

def sPolynomial? (p q : Polynomial) : Except Failure (Option Polynomial) :=
  match p.leading?, q.leading? with
  | some (pp, pc), some (qp, qc) =>
    if pp.isCoprime qp then .ok none
    else do
      demand (pc ≠ 0 ∧ qc ≠ 0) .divisionByZero
      return Completion.sPolynomial? p q
  | _, _ => .ok none

def pairPolynomial? (c : Completion) (pair : Nat × Nat) : Except Failure (Option Polynomial) :=
  match c.basis[pair.1]?, c.basis[pair.2]? with
  | some p, some q => sPolynomial? p q
  | _, _ => .ok none

def run (budget : Nat) (c : Completion) : Except Failure Completion :=
  if _running : c.refutation.isNone ∧ c.steps < budget then
    match _front : c.pairs with
    | [] => .ok c
    | pair :: rest =>
      match pairPolynomial? c pair with
      | .error failure => .error failure
      | .ok none => run budget { c with pairs := rest }
      | .ok (some p) =>
        let stepped := { c with pairs := rest, steps := c.steps + 1 }
        match add stepped budget p with
        | .error failure => .error failure
        | .ok _ => run budget (stepped.add budget p)
  else .ok c
termination_by (budget - c.steps, c.pairs.length)
decreasing_by
  · rw [_front]; exact Prod.Lex.right _ (by simp)
  · have := le_add_steps { c with pairs := rest, steps := c.steps + 1 } budget p
    exact Prod.Lex.left _ _ (by simp only at this ⊢; omega)

def complete (budget : Nat) (input : List Polynomial) : Except Failure Completion := do
  run budget (← addAll budget input .empty)

end Completion.Guarded

namespace Engine.Guarded

/-! ## Refinement -/

/-- Runs a refinement step for each item in turn and stops at a conflict. -/
def refineEach {α : Type} (step : Engine → α → Guarded (Engine × Refinement)) :
    List α → Engine → Guarded (Engine × Refinement)
  | [], e => return (e, .unchanged)
  | a :: rest, e => do
    match ← step e a with
    | (next, .conflict) => return (next, .conflict)
    | (next, outcome) =>
      let (last, others) ← refineEach step rest next
      return (last, outcome.join others)

def tightenSide (v : Var) (interval : Interval) (reasons : List Dependency) (e : Engine)
    (kind : BoundKind) : Guarded (Engine × Refinement) :=
  let endpoint := match kind with
    | .lower => interval.lower
    | .upper => interval.upper
  match endpoint.toBound kind with
  | none => return (e, .unchanged)
  | some bound =>
    let value := e.roundBound v kind bound
    if e.bounds.isTighter v kind value then do
      let traced := e.trace .nonlinear fun _ =>
        e.varName v ++ " " ++ kind.text ++ " " ++ value.text ++ " from " ++ interval.text
      let counted := traced.count fun s => { s with nonlinearBounds := s.nonlinearBounds + 1 }
      let (joined, reason) ← joinReasons counted reasons
      match ← installBound joined v kind value reason .derived with
      | (next, true) => return (next, .tightened)
      | (next, false) => return (next, .conflict)
    else return (e, .unchanged)

def tighten (e : Engine) (v : Var) (interval : Interval) (reasons : List Dependency) :
    Guarded (Engine × Refinement) :=
  refineEach (tightenSide v interval reasons) [.lower, .upper] e

def boundMonomial (e : Engine) (m : Monomial) : Guarded (Engine × Refinement) :=
  tighten e m.var (e.productInterval m.factors) (e.boundReasons m.factors)

def boundFactor (m : Monomial) (e : Engine) (factor : Var) :
    Guarded (Engine × Refinement) := do
  let others := m.factors.filter fun v => v ≠ factor
  match ← Interval.Guarded.inverse (e.productInterval others) with
  | none => return (e, .unchanged)
  | some inverse =>
    tighten e factor ((e.varInterval m.var).mul inverse) (e.boundReasons (m.var :: others))

def refineMonomial (e : Engine) (m : Monomial) : Guarded (Engine × Refinement) := do
  match ← boundMonomial e m with
  | (next, .conflict) => return (next, .conflict)
  | (next, outcome) =>
    let (last, others) ← refineEach (boundFactor m) (simpleFactors m) next
    return (last, outcome.join others)

def refineMonomials (e : Engine) : Guarded (Engine × Refinement) :=
  refineEach refineMonomial e.monomials e

/-! ## Nested evaluation of rows -/

def checkNestedRow (e : Engine) (r : RowId) : Guarded (Engine × Bool) :=
  match (e.tableau.get? r).filter fun row => !row.pending with
  | none => return (e, true)
  | some row =>
    let products := row.zeroTerms.map e.productTerm
    if products.all fun p => p.monomial.isNone then return (e, true)
    else
      match mostSharedFactor? products with
      | none => return (e, true)
      | some shared =>
        let counted := e.count fun s => { s with nestedForms := s.nestedForms + 1 }
        let total := counted.nestedInterval products shared
        if total.contains 0 then return (counted, true)
        else do
          let used := products.flatMap fun p => p.factors ++ p.monomial.toList
          let (joined, reason) ← joinReasons counted (counted.boundReasons used)
          let traced := joined.trace .nonlinear fun _ =>
            "row of " ++ counted.varName row.base ++ " evaluates to " ++ total.text ++ " around " ++
              counted.varName shared
          return (← setConflict traced reason, false)

def checkNestedForms (e : Engine) : Guarded (Engine × Bool) :=
  forEach checkNestedRow e.tableau.rowIds e

/-! ## The basis step -/

def installValue (v : Var) (value : Rat) (reason : Dependency) (e : Engine) (kind : BoundKind) :
    Guarded (Engine × Refinement) :=
  let bound := InfRat.ofRat value
  if e.bounds.isTighter v kind bound then do
    let traced := e.trace .nonlinear fun _ =>
      e.varName v ++ " = " ++ bound.text ++ " from the basis"
    match ← installBound traced v kind bound reason .derived with
    | (next, true) => return (next, .tightened)
    | (next, false) => return (next, .conflict)
  else return (e, .unchanged)

def installAssignment (e : Engine) (p : Polynomial) : Guarded (Engine × Refinement) := do
  match ← Polynomial.Guarded.assignment? p with
  | none => return (e, .unchanged)
  | some (v, value) =>
    let (joined, reason) ← joinReasons e (p.reasons.map some)
    refineEach (installValue v value reason) [.lower, .upper] joined

def basisStep (e : Engine) : Guarded (Engine × Refinement) := do
  let counted := e.count fun s => { s with basisSteps := s.basisSteps + 1 }
  let completion ← Completion.Guarded.complete e.options.maxBasisSteps counted.basisInput
  match completion.refutation with
  | some constant =>
    let (joined, reason) ← joinReasons counted (constant.reasons.map some)
    let traced := joined.trace .nonlinear fun _ =>
      "basis reduces to a nonzero constant after " ++ toString completion.steps ++ " steps"
    return (← setConflict traced reason, .conflict)
  | none => refineEach installAssignment completion.basis counted

/-! ## Nonlinear reasoning -/

def wrongMonomials (e : Engine) : Except Failure (List Monomial) := do
  let epsilon ← epsilon e
  return e.monomials.filter fun m => !e.monomialHolds epsilon m

def repairMonomials (e : Engine) : Guarded (Engine × Bool) := do
  let wrong ← wrongMonomials e
  let repaired := wrong.foldl repairMonomial e
  let left ← wrongMonomials repaired
  return (repaired, left.isEmpty)

def intervalRound (e : Engine) : Guarded (Engine × Refinement) := do
  match ← checkNestedForms e with
  | (next, false) => return (next, .conflict)
  | (next, true) => refineMonomials next

def basisRound (e : Engine) (pass : NonlinearPass) :
    Guarded (Engine × NonlinearPass × NonlinearOutcome) :=
  if e.options.enableBasis && !pass.basisDone then do
    let spent := { pass with basisDone := true }
    match ← basisStep e with
    | (next, .conflict) => return (next, spent, .conflict)
    | (next, .tightened) => return (next, spent, .progress)
    | (next, .unchanged) => return (next, spent, .giveUp)
  else return (e, pass, .giveUp)

def repairOrComplete (e : Engine) (pass : NonlinearPass) :
    Guarded (Engine × NonlinearPass × NonlinearOutcome) := do
  match ← repairMonomials e with
  | (next, true) => return (next, pass, .consistent)
  | (next, false) => basisRound next pass

def checkNonlinear (e : Engine) (pass : NonlinearPass) :
    Guarded (Engine × NonlinearPass × NonlinearOutcome) := do
  let wrong ← wrongMonomials e
  if wrong.isEmpty then return (e, pass, .consistent)
  else if pass.rounds < e.options.nonlinearRounds then
    let spent := { pass with rounds := pass.rounds + 1 }
    match ← intervalRound e with
    | (next, .conflict) => return (next, spent, .conflict)
    | (next, .tightened) => return (next, spent, .progress)
    | (next, .unchanged) => repairOrComplete next spent
  else repairOrComplete e pass

end Engine.Guarded

end ArithDecide
