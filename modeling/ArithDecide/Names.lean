import ArithDecide.Literal

/-!
# Terms and names

A variable stands for a term of the surrounding solver or is internal. The oracle answers what the
engine has to know about terms. A variable may also be given a name; the last one given counts, and
a name leads to the variable that was given it last.
-/

namespace ArithDecide

/-- What a variable stands for. -/
inductive Term where
  /-- A term of the surrounding solver. -/
  | external (id : Nat)
  /-- Nothing outside the engine. -/
  | internal
  deriving DecidableEq, Inhabited

/-- What the surrounding solver says about its terms. -/
structure Oracle where
  /-- Whether another theory knows the term, so that equalities are worth reporting. -/
  isShared : Nat → Bool
  /-- Whether the term takes part in the current search. -/
  isRelevant : Nat → Bool
  /-- The name of the term for display. -/
  name : Nat → Option String

namespace Oracle

/-- The oracle when there is no surrounding solver: nothing is shared and everything is relevant. -/
def detached : Oracle := ⟨fun _ => false, fun _ => true, fun _ => none⟩

/-- Whether a variable with this term is worth reporting as equal to others. -/
def sharesTerm (oracle : Oracle) : Term → Bool
  | .external id => oracle.isShared id
  | .internal => false

/-- Whether a variable with this term should be branched on first. -/
def prefersTerm (oracle : Oracle) : Term → Bool
  | .external id => oracle.isRelevant id
  | .internal => false

/-- The name of a term. -/
def termName (oracle : Oracle) : Term → Option String
  | .external id => oracle.name id
  | .internal => none

end Oracle

/-- The names given to variables. -/
structure Names where
  /-- The current name of each named variable. -/
  byVar : List (Var × String)
  /-- The variable that each name leads to. -/
  byName : List (String × Var)
  deriving DecidableEq, Inhabited

namespace Names

def empty : Names := ⟨[], []⟩

/-- The name of a variable. -/
def nameOf? (names : Names) (v : Var) : Option String := names.byVar.lookup v

/-- The variable that a name leads to. -/
def varOf? (names : Names) (name : String) : Option Var := names.byName.lookup name

/-- Names a variable. Its previous name leads nowhere afterwards. -/
def assign (names : Names) (v : Var) (name : String) : Names :=
  let kept := match names.nameOf? v with
    | none => names.byName
    | some previous => names.byName.filter fun entry => entry.1 ≠ previous
  { byVar := (v, name) :: names.byVar.filter fun entry => entry.1 ≠ v
    byName := (name, v) :: kept.filter fun entry => entry.1 ≠ name }

/-- Forgets the names of all variables from `count` on. -/
def truncate (names : Names) (count : Nat) : Names where
  byVar := names.byVar.filter fun entry => entry.1 < count
  byName := names.byName.filter fun entry => entry.2 < count

end Names

end ArithDecide
