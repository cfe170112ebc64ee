import ArithDecide.Engine.Basic

/-!
# Snapshots

A snapshot is a list of declared variables and a list of assertions about them: rows, products,
fixed values and bounds. It is what an engine exports and what can be loaded into one.
-/

namespace ArithDecide

namespace NumSort

/-- The name of a sort in snapshots. -/
def name : NumSort → String
  | int => "Int"
  | real => "Real"

/-- The sort with a name. -/
def ofName? (name : String) : Option NumSort := [int, real].find? fun sort => sort.name == name

end NumSort

/-- A declared variable. -/
structure Declaration where
  name : String
  sort : NumSort
  deriving DecidableEq, Inhabited

/-- A statement about declared variables. -/
inductive Assertion where
  /-- `base = Σ coeff · v`. -/
  | row (base : String) (terms : List (Rat × String))
  /-- The variable is the product of the factors; a factor may repeat. -/
  | product (var : String) (factors : List String)
  /-- The variable has a value. -/
  | fixed (var : String) (value : Rat)
  /-- The variable is at least the value, or above it when strict. -/
  | lower (var : String) (value : Rat) (strict : Bool)
  /-- The variable is at most the value, or below it when strict. -/
  | upper (var : String) (value : Rat) (strict : Bool)
  deriving DecidableEq, Inhabited

/-- The variables that an assertion mentions, in order. -/
def Assertion.names : Assertion → List String
  | row base terms => base :: terms.map Prod.snd
  | product var factors => var :: factors
  | fixed var _ => [var]
  | lower var _ _ => [var]
  | upper var _ _ => [var]

/-- Declarations followed by assertions. -/
structure Snapshot where
  declarations : List Declaration
  assertions : List Assertion
  deriving DecidableEq, Inhabited

namespace Snapshot

/-- The snapshot that declares and asserts nothing. -/
def empty : Snapshot := ⟨[], []⟩

def declare (s : Snapshot) (name : String) (sort : NumSort) : Snapshot :=
  { s with declarations := s.declarations ++ [⟨name, sort⟩] }

def assert (s : Snapshot) (a : Assertion) : Snapshot :=
  { s with assertions := s.assertions ++ [a] }

/-- The sort with which a name was first declared. -/
def sortOf? (s : Snapshot) (name : String) : Option NumSort :=
  (s.declarations.find? fun d => d.name == name).map Declaration.sort

/-- The first variable of an assertion that is not declared. -/
def undeclared? (s : Snapshot) (a : Assertion) : Option String :=
  a.names.find? fun name => (s.sortOf? name).isNone

end Snapshot

end ArithDecide
