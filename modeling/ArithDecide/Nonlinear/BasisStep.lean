import ArithDecide.Nonlinear.Completion
import ArithDecide.Nonlinear.Refinement

/-!
# The basis step

The definitions of the monomials and the rows connected with them are polynomials that are zero.
Variables that the bounds fix are replaced by their values. A nonzero constant in the completed
basis is a conflict, and a polynomial `c · v + d` gives `v` a value.
-/

namespace ArithDecide.Engine

/-- The value that replaces a variable: the one to which its bounds fix it, if it is rational. -/
def knownValue? (e : Engine) (v : Var) : Option Rat :=
  if e.bounds.isFixed v then
    ((e.bounds.lowerValue v).filter InfRat.isRational).map InfRat.real
  else none

/-- A product with its known variables replaced by their values. -/
def substituteKnown (e : Engine) (factors : List Var) (coeff : Rat) : PowerProduct × Rat :=
  let unknown := factors.filter fun v => (e.knownValue? v).isNone
  (unknown.mergeSort fun v w => v ≤ w,
    (factors.filterMap e.knownValue?).foldl (· * ·) coeff)

/-- A polynomial with its known variables replaced by their values; their bounds are its reasons. -/
def knownPolynomial (e : Engine) (terms : List (List Var × Rat)) : Polynomial :=
  let known := (terms.flatMap Prod.fst).filter fun v => (e.knownValue? v).isSome
  .ofTerms (terms.map fun t => e.substituteKnown t.1 t.2)
    (SortedSet.ofList ((e.boundReasons known).filterMap id))

/-- The polynomial that the definition of a monomial sets to zero. -/
def monomialPolynomial (e : Engine) (m : Monomial) : Polynomial :=
  e.knownPolynomial [([m.var], 1), (m.factors, -1)]

/-- The polynomial that a row sets to zero. -/
def rowPolynomial (e : Engine) (row : Row) : Polynomial :=
  e.knownPolynomial (row.zeroTerms.map fun t => ([t.1], t.2))

/-- Whether a variable is a monomial or a factor of one. -/
def isInvolved (e : Engine) (v : Var) : Bool :=
  e.monomials.any fun m => m.var == v || m.factors.contains v

/-- The definitions of the monomials and the rows that mention an involved variable. -/
def basisInput (e : Engine) : List Polynomial :=
  let rows := (e.tableau.rows.toList.filter fun row => !row.pending).filter fun row =>
    row.zeroTerms.any fun t => e.isInvolved t.1
  (e.monomials.map e.monomialPolynomial ++ rows.map e.rowPolynomial).filter fun p => !p.isZero

/-- Installs the value of a variable as a bound on one side if that is tighter. -/
def installValue (v : Var) (value : Rat) (reason : Dependency) (e : Engine) (kind : BoundKind) :
    Engine × Refinement :=
  let bound := InfRat.ofRat value
  if e.bounds.isTighter v kind bound then
    let traced := e.trace .nonlinear fun _ =>
      e.varName v ++ " = " ++ bound.text ++ " from the basis"
    match traced.installBound v kind bound reason .derived with
    | (next, true) => (next, .tightened)
    | (next, false) => (next, .conflict)
  else (e, .unchanged)

/-- Installs the value that a basis member gives to a variable. -/
def installAssignment (e : Engine) (p : Polynomial) : Engine × Refinement :=
  match p.assignment? with
  | none => (e, .unchanged)
  | some (v, value) =>
    let (joined, reason) := e.joinReasons (p.reasons.map some)
    refineEach (installValue v value reason) [.lower, .upper] joined

/-- Completes the basis within the budget and uses what it says. -/
def basisStep (e : Engine) : Engine × Refinement :=
  let counted := e.count fun s => { s with basisSteps := s.basisSteps + 1 }
  let completion := Completion.complete e.options.maxBasisSteps counted.basisInput
  match completion.refutation with
  | some constant =>
    let (joined, reason) := counted.joinReasons (constant.reasons.map some)
    let traced := joined.trace .nonlinear fun _ =>
      "basis reduces to a nonzero constant after " ++ toString completion.steps ++ " steps"
    (traced.setConflict reason, .conflict)
  | none => refineEach installAssignment completion.basis counted

end ArithDecide.Engine
