import ArithDecide.Engine.Bounds

/-!
# Equalities between fixed variables

Two variables of shared terms whose bounds fix them to one value are equal, which other theories
want to know. Each variable is compared with the smallest variable fixed to the same value, and a
pair is reported once as long as its report is alive.
-/

namespace ArithDecide.Engine

/-- The value to which the bounds fix a variable, if its equalities are of interest. -/
def sharedFixedValue? (e : Engine) (v : Var) : Option InfRat :=
  if e.oracle.sharesTerm (e.term v) && e.bounds.isFixed v then e.bounds.lowerValue v else none

/-- The smallest variable of interest that is fixed to a value. -/
def representative? (e : Engine) (value : InfRat) : Option Var :=
  e.vars.find? fun v => e.sharedFixedValue? v = some value

/-- Reports one variable as equal to the representative of its value. -/
def reportEquality (e : Engine) (v : Var) : Engine :=
  match e.sharedFixedValue? v with
  | none => e
  | some value =>
    let isNew (w : Var) : Bool := w ≠ v && !e.reported.contains (VarPair.mk w v)
    match (e.representative? value).filter isNew with
    | none => e
    | some w =>
      let (joined, reason) := e.joinReasons
        [e.bounds.reason w .lower, e.bounds.reason w .upper,
          e.bounds.reason v .lower, e.bounds.reason v .upper]
      let counted := joined.count fun s => { s with fixedEqualities := s.fixedEqualities + 1 }
      let noted := { counted with reported := counted.reported ++ [VarPair.mk w v] }
      let traced := noted.trace .bounds fun _ =>
        noted.varName w ++ " = " ++ noted.varName v ++ " (both fixed to " ++ value.text ++ ")"
      { traced with
        equalities := traced.equalities ++ [⟨⟨w, v⟩, traced.dependencies.linearize reason⟩] }

/-- Reports all equalities between fixed variables that were not reported yet. -/
def propagateFixedEqualities (e : Engine) : Engine := e.vars.foldl reportEquality e

end ArithDecide.Engine
