import ArithDecide.Engine.Problem

/-!
# Showing the engine

Texts for people: every variable with its value and bounds, the atoms, the queues, the monomials,
and the size of the tableau.
-/

namespace ArithDecide

/-- The name of a role in the tableau. -/
def VarKind.text : VarKind → String
  | .base => "Base"
  | .pendingBase => "QuasiBase"
  | .nonBase => "NonBase"

/-- The name of a sort. -/
def NumSort.text : NumSort → String
  | .int => "Int"
  | .real => "Real"

namespace Engine

/-- A variable with its role, sort, value and bounds: `x (NonBase Int) = 2 [2, oo)`. -/
def varLine (e : Engine) (v : Var) : String :=
  let lower := match e.bounds.lowerValue v with
    | some value => " [" ++ value.text
    | none => " (-oo"
  let upper := match e.bounds.upperValue v with
    | some value => ", " ++ value.text ++ "]"
    | none => ", oo)"
  e.varName v ++ " (" ++ (e.kind v).text ++ " " ++ (e.sort v).text ++ ") = " ++ (e.value v).text ++
    lower ++ upper ++ "\n"

def varsText (e : Engine) : String := String.join (e.vars.map e.varLine)

/-- An atom with the sign it was asserted with, and whether it was handed out: `a0: x >= 2 (true)`.
-/
def atomLine (e : Engine) (a : AtomId) (atom : Atom) : String :=
  let assigned := match atom.assignment with
    | some true => " (true)"
    | some false => " (false)"
    | none => ""
  let propagated := if atom.propagated then " (propagated)" else ""
  "a" ++ toString a ++ ": " ++ e.varName atom.var ++ " " ++ atom.kind.text ++ " " ++
    rationalText atom.threshold ++ assigned ++ propagated ++ "\n"

def atomsText (e : Engine) : String :=
  String.join (e.atoms.atoms.toList.mapIdx fun a atom => e.atomLine a atom)

/-- Literals with blanks between them. -/
def literalsText (ls : List Literal) : String := " ".intercalate (ls.map Literal.text)

def queuesText (e : Engine) : String :=
  "asserted: " ++ literalsText e.atoms.asserted ++ "\n" ++
    "delayed: " ++ literalsText e.atoms.queued ++ "\n" ++
    "to patch: " ++ toString e.toPatch.length ++ "\n" ++
    "propagations: " ++ toString e.propagations.length ++ "\n" ++
    "equalities: " ++ toString e.equalities.length ++ "\n"

/-- A monomial with its factors and its value: `xy = x·y (0)`. -/
def monomialLine (e : Engine) (m : Monomial) : String :=
  e.varName m.var ++ " = " ++ "·".intercalate (m.factors.map e.varName) ++ " (" ++
    (e.value m.var).text ++ ")\n"

def monomialsText (e : Engine) : String := String.join (e.monomials.map e.monomialLine)

/-- The largest number of a list, zero if there is none. -/
def largest (numbers : List Nat) : Nat := numbers.foldl max 0

def rowStatsText (e : Engine) : String :=
  let sizes := e.tableau.rows.toList.map fun row => row.form.terms.length
  let columns := e.vars.map fun v => (e.tableau.rowsMentioning v).length
  "rows: " ++ toString sizes.length ++ ", entries: " ++ toString (sizes.foldl (· + ·) 0) ++
    ", largest row: " ++ toString (largest sizes) ++
    ", largest column: " ++ toString (largest columns) ++
    ", pivots: " ++ toString e.statistics.pivots

end Engine

end ArithDecide
