import ArithDecide.Engine.Moves

/-!
# Patching

Before a case split the engine tries to make fractional integer variables integral by harmless
moves: a variable that heads no row is moved itself, and for a base a real variable of its row is
moved.
-/

namespace ArithDecide.Engine

/-- Whether an integer variable has a value that is not an integer. -/
def isFractional (e : Engine) (v : Var) : Bool := e.isInt v && !(e.value v).isInteger

/-- The integer variables with a value that is not an integer, in increasing order. -/
def fractionalVars (e : Engine) : List Var := e.vars.filter e.isFractional

/-- The first harmless one of some moves, given as a variable and its change. -/
def firstHarmless? (e : Engine) (moves : List (Var × InfRat)) : Option (Var × InfRat) :=
  moves.find? fun move => e.admitsMove move.1 (e.stored move.1 + move.2) move.2

/-- The moves that make a variable integral by itself, the closest integer first. -/
def ownMoves (e : Engine) (v : Var) : List (Var × InfRat) :=
  let value := e.stored v
  let down := InfRat.ofRat value.floor
  let up := InfRat.ofRat value.ceil
  let targets :=
    if (up.real - value.real).abs < (down.real - value.real).abs then [up, down] else [down, up]
  targets.map fun target => (v, target - value)

/-- The moves of real variables of its row that make a base integral. -/
def rowMoves (e : Engine) (base : Var) : List (Var × InfRat) :=
  match (e.tableau.rowOf? base).bind e.tableau.get? with
  | none => []
  | some row =>
    let value := e.stored base
    (row.form.terms.filter fun t => !e.isInt t.1).flatMap fun t =>
      [value.floor, value.ceil].map fun (target : Int) =>
        (t.1, (InfRat.ofRat target - value).divide t.2)

/-- Makes the first harmless move, and counts the attempt. -/
def patch (moves : Engine → Var → List (Var × InfRat)) (e : Engine) (v : Var) : Engine :=
  let tried := e.count fun s => { s with patches := s.patches + 1 }
  match tried.firstHarmless? (moves tried v) with
  | none => tried
  | some (moved, delta) =>
    (tried.updateValue moved delta).count fun s =>
      { s with patchesSucceeded := s.patchesSucceeded + 1 }

/-- Tries to give integral values to the fractional integer variables. -/
def patchIntegers (e : Engine) : Engine :=
  let free := e.fractionalVars.filter fun v => e.kind v = .nonBase
  let patched := free.foldl (patch ownMoves) e
  let bases := patched.fractionalVars.filter fun v => patched.kind v = .base
  bases.foldl (patch rowMoves) patched

end ArithDecide.Engine
