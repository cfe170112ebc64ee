import ArithDecide.Engine.Basic

/-!
# Rational models

The current assignment contains infinitesimals. `epsilon` is the largest rational up to one which
can stand for the infinitesimal without breaking a bound that holds; `model` puts it in.
-/

namespace ArithDecide.Engine

/-- The largest rational which can stand for the infinitesimal such that `low` stays below `high`,
if there is a limit: the real parts leave room that the infinitesimal parts use up. -/
def epsilonLimit? (low high : InfRat) : Option Rat :=
  if low.real < high.real && high.eps < low.eps then
    some ((high.real - low.real) / (low.eps - high.eps))
  else none

/-- The limits that the active bounds of a variable set. -/
def epsilonLimits (e : Engine) (v : Var) : List Rat :=
  let value := e.value v
  (((e.bounds.lowerValue v).bind fun lower => epsilonLimit? lower value).toList) ++
    (((e.bounds.upperValue v).bind fun upper => epsilonLimit? value upper).toList)

/-- The value given to the infinitesimal in the rational model. -/
def epsilon (e : Engine) : Rat :=
  (e.vars.flatMap e.epsilonLimits).foldl
    (fun least limit => if limit < least then limit else least) 1

/-- The rational value of a variable. -/
def modelValue (e : Engine) (v : Var) : Rat := (e.value v).evaluate e.epsilon

/-- The rational values of all variables. -/
def model (e : Engine) : List Rat :=
  let epsilon := e.epsilon
  e.vars.map fun v => (e.value v).evaluate epsilon

end ArithDecide.Engine
