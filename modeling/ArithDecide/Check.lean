import ArithDecide.Engine.Propagation
import ArithDecide.Integer.Check
import ArithDecide.Nonlinear.Check

/-!
# The check

`Engine.check` decides the asserted literals. It propagates, then reasons about integers and then
about products, and starts over after every cut and after every round of nonlinear reasoning that
tightened a bound.
-/

namespace ArithDecide

/-- The answer of a check. -/
inductive CheckResult where
  /-- The current assignment satisfies everything. -/
  | sat
  /-- There is no solution; the explanation says what is to blame. -/
  | unsat (explanation : Explanation)
  /-- The rational relaxation is feasible, but a case split is needed. -/
  | branch (split : CaseSplit)
  /-- Nonlinear reasoning found neither a model nor a conflict. -/
  | unknown
  deriving DecidableEq, Inhabited

namespace CheckResult

def isSat : CheckResult → Bool
  | sat => true
  | _ => false

def isUnsat : CheckResult → Bool
  | unsat _ => true
  | _ => false

end CheckResult

namespace Engine

/-- The answer when no solution was found: the conflict, if one was recorded. -/
def conflictResult (e : Engine) : CheckResult :=
  match e.conflict with
  | some conflict => .unsat conflict
  | none => .unknown

/-- At most `rounds` rounds of a check, after `cuts` cuts and the given nonlinear reasoning. -/
def checkRounds : Nat → Nat → NonlinearPass → Engine → Engine × CheckResult
  | 0, _, _, e => (e, .unknown)
  | rounds + 1, cuts, pass, e =>
    match e.propagate with
    | (failed, false) => (failed, failed.conflictResult)
    | (propagated, true) =>
      match propagated.checkIntegers cuts with
      | (next, .conflict) => (next, next.conflictResult)
      | (next, .cutAdded) => checkRounds rounds (cuts + 1) pass next
      | (next, .branch split) => (next, .branch split)
      | (next, .giveUp) => (next, .unknown)
      | (integral, .feasible) =>
        if integral.monomials.isEmpty then (integral, .sat)
        else
          match integral.checkNonlinear pass with
          | (next, _, .consistent) => (next, .sat)
          | (next, _, .conflict) => (next, next.conflictResult)
          | (next, spent, .progress) => checkRounds rounds cuts spent next
          | (next, _, .giveUp) => (next, .unknown)

/-- More rounds than a check can take: each but the last adds a cut, spends a nonlinear round or
completes the basis. -/
def roundLimit (options : Options) : Nat := options.maxGomoryCuts + options.nonlinearRounds + 2

/-- Decides the asserted literals. -/
def check (e : Engine) : Engine × CheckResult :=
  checkRounds (roundLimit e.options) 0 .start (e.count fun s => { s with checks := s.checks + 1 })

end Engine

end ArithDecide
