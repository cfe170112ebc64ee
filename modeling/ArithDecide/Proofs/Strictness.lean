import Mathlib
import ArithDecide.Proofs.Models
import ArithDecide.Proofs.Sessions
import ArithDecide.Proofs.Tightness

/-!
# Strictness is the sign of the infinitesimal

A strict bound is a weak bound that is shifted by the infinitesimal, and four places read its strictness
back from the sign of the infinitesimal part: the order of values, the nearest integers of a value, the
rounding of the bounds of integer variables, and the bound of a negated literal. Each has cases of its
own. Here every one of them is compared with what it stands for: the order with the order of the rationals
that small numbers put in for the infinitesimal give, the integers with the order, the rounded bound with
the integers within the bound, and the bound of a literal with the fact that the literal states.
-/

namespace ArithDecide

/-! ## Small numbers in the place of the infinitesimal -/

namespace InfRat

variable {a b : InfRat}

/-- A positive value is a positive rational for all small numbers, up to where its line meets zero. -/
theorem exists_evaluate_pos (pos : 0 < a) :
    ∃ limit > 0, ∀ d, 0 < d → d < limit → 0 < a.evaluate d := by
  by_cases falls : a.FallsFrom 0
  · refine ⟨crossing 0 a, ?_, fun d _ small => falls.evaluate_lt_iff.2 small⟩
    exact div_pos (sub_pos.2 falls.2) (neg_pos.2 falls.1)
  · refine ⟨1, one_pos, fun d d_pos _ => ?_⟩
    rw [evaluate]
    rcases (lt_def 0 a).1 pos with above | ⟨zero, rises⟩
    · have flat : 0 ≤ a.eps := not_lt.1 fun negative => falls ⟨negative, above⟩
      exact add_pos_of_pos_of_nonneg above (mul_nonneg flat d_pos.le)
    · exact add_pos_of_nonneg_of_pos zero.le (mul_pos rises d_pos)

theorem exists_evaluate_lt (less : a < b) :
    ∃ limit > 0, ∀ d, 0 < d → d < limit → a.evaluate d < b.evaluate d := by
  obtain ⟨limit, limit_pos, positive⟩ := exists_evaluate_pos (sub_pos.2 less)
  refine ⟨limit, limit_pos, fun d d_pos small => ?_⟩
  have apart := positive d d_pos small
  rw [← evaluateHom_apply, map_sub] at apart
  exact sub_pos.1 apart

/-- The order of values is the order of the rationals that small numbers give. -/
theorem lt_iff_exists_evaluate_lt :
    a < b ↔ ∃ limit > 0, ∀ d, 0 < d → d < limit → a.evaluate d < b.evaluate d := by
  refine ⟨exists_evaluate_lt, ?_⟩
  rintro ⟨limit, limit_pos, below⟩
  by_contra not_less
  rcases (not_lt.1 not_less).eq_or_lt with rfl | above
  · obtain ⟨d, d_pos, small⟩ := exists_between limit_pos
    exact lt_irrefl _ (below d d_pos small)
  · -- a number that is small enough for both orders
    obtain ⟨other, other_pos, higher⟩ := exists_evaluate_lt above
    obtain ⟨d, d_pos, small⟩ := exists_between (lt_min limit_pos other_pos)
    obtain ⟨within, within_other⟩ := lt_min_iff.1 small
    exact lt_asymm (below d d_pos within) (higher d d_pos within_other)

theorem isGreatest_floor (a : InfRat) : IsGreatest {n : Int | ofRat n ≤ a} a.floor :=
  ⟨le_floor_iff.1 le_rfl, fun _ le => le_floor_iff.2 le⟩

theorem isLeast_ceil (a : InfRat) : IsLeast {n : Int | a ≤ ofRat n} a.ceil :=
  ⟨ceil_le_iff.1 le_rfl, fun _ le => ceil_le_iff.2 le⟩

end InfRat

namespace Engine

variable {e : Engine} {l : Literal} {atom : Atom} {v : Var}

/-! ## Rounded bounds -/

/-- A lower bound of an integer variable is rounded to the least integer at least the bound. -/
theorem roundBound_lower (integer : e.isInt v = true) (value : InfRat) :
    e.roundBound v .lower value = .ofRat value.ceil := by
  rw [roundBound, if_pos integer]
  congr 2
  refine eq_of_forall_ge_iff fun n => ?_
  rw [InfRat.ceil_le_iff, ← BoundKind.admits_lower, ← admits_roundInt, BoundKind.admits_lower,
    InfRat.ofRat_le, Int.cast_le]

/-- An upper bound of an integer variable is rounded to the greatest integer at most the bound. -/
theorem roundBound_upper (integer : e.isInt v = true) (value : InfRat) :
    e.roundBound v .upper value = .ofRat value.floor := by
  rw [roundBound, if_pos integer]
  congr 2
  refine eq_of_forall_le_iff fun n => ?_
  rw [InfRat.le_floor_iff, ← BoundKind.admits_upper, ← admits_roundInt, BoundKind.admits_upper,
    InfRat.ofRat_le, Int.cast_le]

/-! ## Bounds of literals -/

/-- The bound that a literal of a known atom stands for, rounded if its variable is an integer. -/
def literalBound (e : Engine) (l : Literal) : Option (Var × BoundKind × InfRat) :=
  (e.atoms.get? l.atom).map fun atom =>
    let (kind, value) := atom.bound l.negative
    (atom.var, kind, e.roundBound atom.var kind value)

/-- A bound that is rounded already is installed in the same way. -/
theorem installBound_roundBound (e : Engine) (v : Var) (kind : BoundKind) (value : InfRat)
    (reason : Dependency) (origin : BoundOrigin) :
    e.installBound v kind (e.roundBound v kind value) reason origin =
      e.installBound v kind value reason origin := by
  rw [installBound, installBound, roundBound_roundBound]

/-- What is installed for a literal is the bound that it stands for. -/
theorem installLiteral_eq (e : Engine) (l : Literal) :
    e.installLiteral l = match e.literalBound l with
      | none => (e, true)
      | some (v, kind, value) =>
        let (arena, reason) := e.dependencies.mkLiteral l
        ({ e with dependencies := arena }).installBound v kind value reason (.literal l) := by
  rw [installLiteral, literalBound]
  cases e.atoms.get? l.atom with
  | none => rfl
  | some atom => exact (installBound_roundBound _ _ _ _ _ _).symm

/-- A value that the variable may take respects the bound of a literal exactly when the literal is true of
it. -/
theorem exists_literalBound (found : e.atoms.get? l.atom = some atom) :
    ∃ kind value, e.literalBound l = some (atom.var, kind, value) ∧
      ∀ q : Rat, (e.isInt atom.var = true → ∃ n : Int, q = n) →
        (kind.admits value (.ofRat q) = true ↔ atom.Means l.negative q) := by
  refine ⟨(atom.bound l.negative).1,
    e.roundBound atom.var (atom.bound l.negative).1 (atom.bound l.negative).2,
    by rw [literalBound, found]; rfl, fun q integral => ?_⟩
  rw [admits_roundBound integral, Atom.admits_bound_iff]

/-! ## The main statement -/

/-- The order of values is the order of the rationals that all small numbers give; `floor` and `ceil` are
the nearest integers in that order; the bounds of an integer variable are rounded to those integers, and the
same integers respect a bound before and after; and every literal of an atom stands for a bound that exactly
the values which make it true respect, so each value respects either that bound or the one of the opposite
literal, but not both. -/
theorem strictness_exact :
    (∀ a b : InfRat,
        a < b ↔ ∃ limit > 0, ∀ d, 0 < d → d < limit → a.evaluate d < b.evaluate d) ∧
      (∀ a : InfRat, IsGreatest {n : Int | .ofRat n ≤ a} a.floor ∧
        IsLeast {n : Int | a ≤ .ofRat n} a.ceil) ∧
      (∀ (e : Engine) (v : Var), e.isInt v = true → ∀ value : InfRat,
        e.roundBound v .lower value = .ofRat value.ceil ∧
          e.roundBound v .upper value = .ofRat value.floor ∧
          ∀ (kind : BoundKind) (n : Int),
            kind.admits (e.roundBound v kind value) (.ofRat n) = kind.admits value (.ofRat n)) ∧
      ∀ (e : Engine) (l : Literal) (atom : Atom), e.atoms.get? l.atom = some atom →
        ∃ kind value kind' value', e.literalBound l = some (atom.var, kind, value) ∧
          e.literalBound l.negate = some (atom.var, kind', value') ∧
          ∀ q : Rat, (e.isInt atom.var = true → ∃ n : Int, q = n) →
            (kind.admits value (.ofRat q) = true ↔ atom.Means l.negative q) ∧
              Xor (kind.admits value (.ofRat q) = true) (kind'.admits value' (.ofRat q) = true) := by
  refine ⟨fun a b => InfRat.lt_iff_exists_evaluate_lt,
    fun a => ⟨a.isGreatest_floor, a.isLeast_ceil⟩, fun e v integer value => ?_,
    fun e l atom found => ?_⟩
  · refine ⟨roundBound_lower integer value, roundBound_upper integer value, fun kind n => ?_⟩
    exact admits_roundBound (fun _ => ⟨n, rfl⟩) kind value
  · obtain ⟨kind, value, bound, holds⟩ := exists_literalBound found
    obtain ⟨kind', value', bound', holds'⟩ := exists_literalBound (l := l.negate) found
    refine ⟨kind, value, kind', value', bound, bound', fun q integral => ⟨holds q integral, ?_⟩⟩
    have opposite : kind'.admits value' (.ofRat q) = true ↔ ¬kind.admits value (.ofRat q) = true := by
      rw [holds q integral, holds' q integral]
      exact atom.means_negate l.negative q
    rw [opposite]
    exact xor_not_right.2 Iff.rfl

/-- An integer variable, and the fact that it is at least three halves. -/
def threeHalves : List Call := [.mkVar .int .internal, .mkAtom 0 .lower (3 / 2)]

theorem literalBound_threeHalves :
    let e := ((Session.start {}).run threeHalves).engine
    e.isInt 0 = true ∧ e.atoms.get? 0 = some ⟨0, .lower, 3 / 2, none, false⟩ ∧
      e.literalBound ⟨0, false⟩ = some (0, .lower, .ofRat 2) ∧
      e.literalBound ⟨0, true⟩ = some (0, .upper, .ofRat 1) := by
  refine ⟨by cbv, by cbv, by cbv, by cbv⟩

/-- Less than two is at most one for the variable, and it is at least two or at most one. -/
theorem strictness_exact_threeHalves :
    let e := ((Session.start {}).run threeHalves).engine
    e.roundBound 0 .upper ⟨2, -1⟩ = .ofRat 1 ∧
      ∀ n : Int, Xor (InfRat.ofRat 2 ≤ .ofRat n) (InfRat.ofRat n ≤ .ofRat 1) := by
  intro e
  obtain ⟨integer, found, bound, bound'⟩ := literalBound_threeHalves
  have floor_eq : InfRat.floor ⟨2, -1⟩ = 1 := by decide
  refine ⟨?_, fun n => ?_⟩
  · rw [(strictness_exact.2.2.1 e 0 integer ⟨2, -1⟩).2.1, floor_eq, Int.cast_one]
  · obtain ⟨kind, value, kind', value', same, same', exact⟩ :=
      strictness_exact.2.2.2 e ⟨0, false⟩ _ found
    obtain ⟨rfl, rfl⟩ := Prod.mk.inj (Prod.mk.inj (Option.some.inj (bound.symm.trans same))).2
    obtain ⟨rfl, rfl⟩ := Prod.mk.inj (Prod.mk.inj (Option.some.inj (bound'.symm.trans same'))).2
    have holds := (exact n fun _ => ⟨n, rfl⟩).2
    rwa [BoundKind.admits_lower, BoundKind.admits_upper] at holds

end Engine

end ArithDecide
