import ArithDecide.Literal
import ArithDecide.SortedSet

/-!
# Explanations

An explanation lists what a conclusion rests on: asserted literals and asserted equalities between
variables. The explanations that the engine builds are sorted and free of repetitions; `resolve`
takes the union of two of them without the literals that were resolved away.
-/

namespace ArithDecide

/-- A pair of variables that were asserted to be equal. -/
structure VarPair where
  left : Var
  right : Var
  deriving DecidableEq, Inhabited

namespace VarPair

/-- The pair with the smaller variable on the left. -/
def ordered (v w : Var) : VarPair := if v ≤ w then ⟨v, w⟩ else ⟨w, v⟩

/-- Lexicographic. -/
instance : LT VarPair := ⟨fun a b => a.left < b.left ∨ (a.left = b.left ∧ a.right < b.right)⟩

instance (a b : VarPair) : Decidable (a < b) :=
  inferInstanceAs (Decidable (a.left < b.left ∨ (a.left = b.left ∧ a.right < b.right)))

/-- The text of an equality: `v0 = v2`. -/
def text (p : VarPair) : String := p.left.text ++ " = " ++ p.right.text

end VarPair

/-- The literals and equalities that together force a conclusion. -/
structure Explanation where
  literals : List Literal
  equalities : List VarPair
  deriving DecidableEq, Inhabited

namespace Explanation

/-- The explanation of what holds without any assumption. -/
def empty : Explanation := ⟨[], []⟩

def isEmpty (e : Explanation) : Bool := e.literals.isEmpty && e.equalities.isEmpty

def contains (e : Explanation) (l : Literal) : Bool := e.literals.contains l

/-- Everything that either explanation rests on, without the literals in `resolved`. -/
def resolve (e f : Explanation) (resolved : List Literal) : Explanation where
  literals := SortedSet.ofList ((e.literals ++ f.literals).filter fun l => !resolved.contains l)
  equalities := SortedSet.ofList (e.equalities ++ f.equalities)

/-- The text of an explanation: `{a0, ~a1, v0 = v2}`. -/
def text (e : Explanation) : String :=
  let leaves := e.literals.map Literal.text ++ e.equalities.map VarPair.text
  "\x7b" ++ ", ".intercalate leaves ++ "\x7d"

end Explanation

end ArithDecide
