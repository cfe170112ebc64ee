import ArithDecide.Engine.Bounds
import ArithDecide.Interval

/-!
# Bounds from intervals

Interval reasoning installs the endpoints of computed intervals as bounds. A refinement step says
whether it changed nothing, tightened a bound or ran into a conflict.
-/

namespace ArithDecide

/-- What a step of nonlinear reasoning did. -/
inductive Refinement where
  | unchanged
  | tightened
  | conflict
  deriving DecidableEq, Inhabited

namespace Refinement

/-- What two steps did together. -/
def join : Refinement → Refinement → Refinement
  | conflict, _ => conflict
  | _, conflict => conflict
  | unchanged, r => r
  | tightened, _ => tightened

end Refinement

namespace Engine

/-- Runs a refinement step for each item in turn and stops at a conflict. -/
def refineEach {α : Type} (step : Engine → α → Engine × Refinement) :
    List α → Engine → Engine × Refinement
  | [], e => (e, .unchanged)
  | a :: rest, e =>
    match step e a with
    | (next, .conflict) => (next, .conflict)
    | (next, outcome) =>
      let (last, others) := refineEach step rest next
      (last, outcome.join others)

/-- The interval of values that the active bounds leave to a variable. -/
def varInterval (e : Engine) (v : Var) : Interval where
  lower := ((e.bounds.lowerValue v).map (Endpoint.ofBound .lower)).getD .infinite
  upper := ((e.bounds.upperValue v).map (Endpoint.ofBound .upper)).getD .infinite

/-- What the active bounds of some variables rest on. -/
def boundReasons (e : Engine) (vs : List Var) : List Dependency :=
  vs.flatMap fun v => [e.bounds.reason v .lower, e.bounds.reason v .upper]

/-- Adds a variable to sorted powers. -/
def addPower (v : Var) : List (Var × Nat) → List (Var × Nat)
  | [] => [(v, 1)]
  | (w, n) :: rest =>
    if v < w then (v, 1) :: (w, n) :: rest
    else if v = w then (w, n + 1) :: rest
    else (w, n) :: addPower v rest

/-- The distinct factors of a product with their exponents, in increasing order. -/
def powersOf (factors : List Var) : List (Var × Nat) :=
  factors.foldl (fun powers v => addPower v powers) []

/-- The interval of a product of variables. -/
def productInterval (e : Engine) (factors : List Var) : Interval :=
  (powersOf factors).foldl (fun acc p => acc.mul ((e.varInterval p.1).power p.2)) (.point 1)

/-- Installs one endpoint as a bound of a variable if it is tighter than the active one. -/
def tightenSide (v : Var) (interval : Interval) (reasons : List Dependency) (e : Engine)
    (kind : BoundKind) : Engine × Refinement :=
  let endpoint := match kind with
    | .lower => interval.lower
    | .upper => interval.upper
  match endpoint.toBound kind with
  | none => (e, .unchanged)
  | some bound =>
    let value := e.roundBound v kind bound
    if e.bounds.isTighter v kind value then
      let traced := e.trace .nonlinear fun _ =>
        e.varName v ++ " " ++ kind.text ++ " " ++ value.text ++ " from " ++ interval.text
      let counted := traced.count fun s => { s with nonlinearBounds := s.nonlinearBounds + 1 }
      let (joined, reason) := counted.joinReasons reasons
      match joined.installBound v kind value reason .derived with
      | (next, true) => (next, .tightened)
      | (next, false) => (next, .conflict)
    else (e, .unchanged)

/-- Installs the endpoints of an interval as bounds of a variable where they are tighter. -/
def tighten (e : Engine) (v : Var) (interval : Interval) (reasons : List Dependency) :
    Engine × Refinement :=
  refineEach (tightenSide v interval reasons) [.lower, .upper] e

end Engine

end ArithDecide
