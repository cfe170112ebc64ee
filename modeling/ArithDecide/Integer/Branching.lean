import ArithDecide.Engine.Problem
import ArithDecide.Integer.Patching

/-!
# Case splits

When nothing else helps, the engine asks for a case split on an integer variable with a fractional
value: either the variable is at most the integer below its value or at least the one above.
-/

namespace ArithDecide

/-- A choice between `var <= floor value` and `var >= ceil value`. -/
structure CaseSplit where
  var : Var
  value : InfRat
  down : Literal
  up : Literal
  deriving DecidableEq, Inhabited

namespace Engine

/-- The variables to choose from. -/
def candidates (e : Engine) : List Candidate :=
  e.fractionalVars.map fun v => ⟨v, e.value v, e.oracle.prefersTerm (e.term v)⟩

/-- The candidate that the selector names, else the smallest one. -/
def chosenCandidate? (e : Engine) : Option Candidate :=
  let candidates := e.candidates
  ((e.selector candidates).bind fun v => candidates.find? fun c => c.var == v).or candidates.head?

/-- Makes the literals of a case split, if some integer variable is fractional. -/
def selectBranch (e : Engine) : Engine × Option CaseSplit :=
  match e.chosenCandidate? with
  | none => (e, none)
  | some c =>
    let (e, down) := e.internAtom c.var .upper c.value.floor
    let (e, up) := e.internAtom c.var .lower c.value.ceil
    let counted := e.count fun s => { s with branches := s.branches + 1 }
    let traced := counted.trace .integer fun _ =>
      "branch " ++ counted.varName c.var ++ ": " ++ down.text ++ " | " ++ up.text
    (traced, some ⟨c.var, c.value, down, up⟩)

end Engine

end ArithDecide
