/-!
# Variables, atoms and literals

Variables and atoms are numbered in the order of their creation. A literal is an atom or its
negation; literals are ordered by their atom, the positive one first.
-/

namespace ArithDecide

/-- A variable, numbered from zero in order of creation. -/
abbrev Var := Nat

/-- The text of a variable that is shown by its number. -/
def Var.text (v : Var) : String := "v" ++ toString v

/-- An atom, numbered from zero in order of creation. -/
abbrev AtomId := Nat

/-- An atom or its negation. -/
structure Literal where
  atom : AtomId
  negative : Bool
  deriving DecidableEq, Inhabited

namespace Literal

/-- The literal that says that the atom holds. -/
def positive (atom : AtomId) : Literal := ⟨atom, false⟩

/-- The atom itself if `holds` is true, its negation otherwise. -/
def ofSign (atom : AtomId) (holds : Bool) : Literal := ⟨atom, !holds⟩

/-- The opposite literal of the same atom. -/
def negate (l : Literal) : Literal := ⟨l.atom, !l.negative⟩

/-- The place of a literal in the order of literals: by atom, the positive literal first. -/
def rank (l : Literal) : Nat := 2 * l.atom + if l.negative then 1 else 0

instance : LT Literal := ⟨fun a b => a.rank < b.rank⟩

instance (a b : Literal) : Decidable (a < b) := inferInstanceAs (Decidable (a.rank < b.rank))

/-- The text of a literal: `a3`, and `~a3` for its negation. -/
def text (l : Literal) : String :=
  (if l.negative then "~a" else "a") ++ toString l.atom

theorem negate_negate (l : Literal) : l.negate.negate = l := by
  simp [negate]

end Literal

end ArithDecide
