import ArithDecide.Engine.Model
import ArithDecide.Engine.Moves
import ArithDecide.Nonlinear.BasisStep
import ArithDecide.Nonlinear.MonomialBounds
import ArithDecide.Nonlinear.NestedForm

/-!
# Nonlinear reasoning

Once the linear and integer parts are satisfied, the model is compared with the definitions of the
monomials. Disagreements are met by interval reasoning, by moving monomials onto the product of
their factors, and by one bounded completion of a basis, in this order.
-/

namespace ArithDecide

/-- What nonlinear reasoning came to. -/
inductive NonlinearOutcome where
  /-- Every monomial agrees with its factors. -/
  | consistent
  /-- There is no solution. -/
  | conflict
  /-- Bounds were tightened and the assignment has to be repaired. -/
  | progress
  | giveUp
  deriving DecidableEq, Inhabited

/-- What one check spent on nonlinear reasoning so far. -/
structure NonlinearPass where
  rounds : Nat
  basisDone : Bool
  deriving DecidableEq, Inhabited

/-- Nothing was spent. -/
def NonlinearPass.start : NonlinearPass := ⟨0, false⟩

namespace Engine

/-- Whether a monomial has the value of the product of its factors in the rational model. -/
def monomialHolds (e : Engine) (epsilon : Rat) (m : Monomial) : Bool :=
  (e.value m.var).evaluate epsilon =
    (m.factors.map fun v => (e.value v).evaluate epsilon).foldl (· * ·) 1

/-- The monomials that disagree with their factors in the rational model. -/
def wrongMonomials (e : Engine) : List Monomial :=
  let epsilon := e.epsilon
  e.monomials.filter fun m => !e.monomialHolds epsilon m

/-- The product of the values of the factors, if they are all rational. -/
def factorProduct? (e : Engine) (m : Monomial) : Option Rat :=
  if m.factors.all fun v => (e.value v).isRational then
    some ((m.factors.map fun v => (e.value v).real).foldl (· * ·) 1)
  else none

/-- Moves a monomial that heads no row onto the product of its factors if the move is harmless. -/
def repairMonomial (e : Engine) (m : Monomial) : Engine :=
  match (if e.kind m.var = .nonBase then e.factorProduct? m else none) with
  | none => e
  | some product =>
    let target := InfRat.ofRat product
    let delta := target - e.stored m.var
    if e.admitsMove m.var target delta then
      let traced := e.trace .nonlinear fun _ =>
        "repair " ++ e.varName m.var ++ " to " ++ target.text
      traced.updateValue m.var delta
    else e

/-- Moves monomials onto the products of their factors where that is harmless. The answer says
whether all monomials agree with their factors afterwards. -/
def repairMonomials (e : Engine) : Engine × Bool :=
  let repaired := e.wrongMonomials.foldl repairMonomial e
  (repaired, repaired.wrongMonomials.isEmpty)

/-- One round of interval reasoning. -/
def intervalRound (e : Engine) : Engine × Refinement :=
  match e.checkNestedForms with
  | (next, false) => (next, .conflict)
  | (next, true) => next.refineMonomials

/-- Completes a basis, if that is allowed and was not done in this check. -/
def basisRound (e : Engine) (pass : NonlinearPass) : Engine × NonlinearPass × NonlinearOutcome :=
  if e.options.enableBasis && !pass.basisDone then
    let spent := { pass with basisDone := true }
    match e.basisStep with
    | (next, .conflict) => (next, spent, .conflict)
    | (next, .tightened) => (next, spent, .progress)
    | (next, .unchanged) => (next, spent, .giveUp)
  else (e, pass, .giveUp)

/-- Repairs monomials and completes a basis if that does not help. -/
def repairOrComplete (e : Engine) (pass : NonlinearPass) :
    Engine × NonlinearPass × NonlinearOutcome :=
  match e.repairMonomials with
  | (next, true) => (next, pass, .consistent)
  | (next, false) => next.basisRound pass

/-- Nonlinear reasoning, given what the check spent on it before. -/
def checkNonlinear (e : Engine) (pass : NonlinearPass) :
    Engine × NonlinearPass × NonlinearOutcome :=
  if e.wrongMonomials.isEmpty then (e, pass, .consistent)
  else if pass.rounds < e.options.nonlinearRounds then
    let spent := { pass with rounds := pass.rounds + 1 }
    match e.intervalRound with
    | (next, .conflict) => (next, spent, .conflict)
    | (next, .tightened) => (next, spent, .progress)
    | (next, .unchanged) => next.repairOrComplete spent
  else e.repairOrComplete pass

end Engine

end ArithDecide
