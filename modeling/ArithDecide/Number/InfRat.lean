import ArithDecide.Number.Rational

/-!
# Rationals with an infinitesimal part

A value `real + eps · ε` where `ε` stands for any small enough positive rational. A strict bound is
a weak bound shifted by `ε`: the variable `x` is above `3` when it is at least `3 + ε`. The order is
lexicographic, which is the order of the values for all small enough positive `ε`.
-/

namespace ArithDecide

/-- The value `real + eps · ε` for a positive infinitesimal `ε`. -/
@[ext]
structure InfRat where
  real : Rat
  eps : Rat
  deriving DecidableEq, Inhabited

namespace InfRat

/-- A rational without infinitesimal part. -/
def ofRat (real : Rat) : InfRat := ⟨real, 0⟩

instance : Zero InfRat := ⟨⟨0, 0⟩⟩
instance : Add InfRat := ⟨fun a b => ⟨a.real + b.real, a.eps + b.eps⟩⟩
instance : Sub InfRat := ⟨fun a b => ⟨a.real - b.real, a.eps - b.eps⟩⟩
instance : Neg InfRat := ⟨fun a => ⟨-a.real, -a.eps⟩⟩

/-- Multiplication by a rational. -/
def scale (factor : Rat) (a : InfRat) : InfRat := ⟨a.real * factor, a.eps * factor⟩

/-- Division by a rational. -/
def divide (a : InfRat) (divisor : Rat) : InfRat := ⟨a.real / divisor, a.eps / divisor⟩

/-- Lexicographic: the real parts decide unless they agree. -/
instance : LT InfRat :=
  ⟨fun a b => a.real < b.real ∨ (a.real = b.real ∧ a.eps < b.eps)⟩

instance : LE InfRat :=
  ⟨fun a b => a.real < b.real ∨ (a.real = b.real ∧ a.eps ≤ b.eps)⟩

instance (a b : InfRat) : Decidable (a < b) :=
  inferInstanceAs (Decidable (a.real < b.real ∨ (a.real = b.real ∧ a.eps < b.eps)))

instance (a b : InfRat) : Decidable (a ≤ b) :=
  inferInstanceAs (Decidable (a.real < b.real ∨ (a.real = b.real ∧ a.eps ≤ b.eps)))

/-- Whether the infinitesimal part vanishes. -/
def isRational (a : InfRat) : Bool := a.eps = 0

/-- Whether the value is an integer without infinitesimal part. -/
def isInteger (a : InfRat) : Bool := a.isRational && a.real.isInt

/-- The greatest integer at most the value. -/
def floor (a : InfRat) : Int :=
  if a.real.isInt && a.eps < 0 then a.real.floor - 1 else a.real.floor

/-- The least integer at least the value. -/
def ceil (a : InfRat) : Int :=
  if a.real.isInt && 0 < a.eps then a.real.ceil + 1 else a.real.ceil

/-- The rational obtained when `ε` is replaced by `delta`. -/
def evaluate (a : InfRat) (delta : Rat) : Rat := a.real + a.eps * delta

/-- The text of a value: `3`, `3 + ε`, `1/2 - 2ε`. A coefficient one is not written. -/
def text (a : InfRat) : String :=
  let coefficient (c : Rat) : String := if c = 1 then "" else rationalText c
  if 0 < a.eps then rationalText a.real ++ " + " ++ coefficient a.eps ++ "ε"
  else if a.eps < 0 then rationalText a.real ++ " - " ++ coefficient (-a.eps) ++ "ε"
  else rationalText a.real

end InfRat

end ArithDecide
