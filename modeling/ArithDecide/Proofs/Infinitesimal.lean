import Mathlib.Algebra.Module.LinearMap.Defs
import Mathlib.Algebra.Order.Group.Defs
import Mathlib.Algebra.Order.Field.Basic
import Mathlib.Algebra.Order.Ring.Rat
import Mathlib.Tactic.Abel
import Mathlib.Tactic.FieldSimp
import Mathlib.Tactic.Linarith
import Mathlib.Tactic.Ring
import ArithDecide.Number.InfRat

/-!
# Rationals with an infinitesimal part as an ordered module

The values `real + eps · ε` form a linearly ordered module over the rationals. Bounds are compared in
this order, and a rational assignment respects a bound when it does so as a value without
infinitesimal part; this is what the reasoning about rows and bounds is written in.
-/

namespace ArithDecide.InfRat

/-! ## The module -/

@[simp] theorem zero_real : (0 : InfRat).real = 0 := rfl
@[simp] theorem zero_eps : (0 : InfRat).eps = 0 := rfl
@[simp] theorem add_real (a b : InfRat) : (a + b).real = a.real + b.real := rfl
@[simp] theorem add_eps (a b : InfRat) : (a + b).eps = a.eps + b.eps := rfl
@[simp] theorem sub_real (a b : InfRat) : (a - b).real = a.real - b.real := rfl
@[simp] theorem sub_eps (a b : InfRat) : (a - b).eps = a.eps - b.eps := rfl
@[simp] theorem neg_real (a : InfRat) : (-a).real = -a.real := rfl
@[simp] theorem neg_eps (a : InfRat) : (-a).eps = -a.eps := rfl
@[simp] theorem scale_real (c : Rat) (a : InfRat) : (a.scale c).real = a.real * c := rfl
@[simp] theorem scale_eps (c : Rat) (a : InfRat) : (a.scale c).eps = a.eps * c := rfl
@[simp] theorem divide_real (a : InfRat) (c : Rat) : (a.divide c).real = a.real / c := rfl
@[simp] theorem divide_eps (a : InfRat) (c : Rat) : (a.divide c).eps = a.eps / c := rfl
@[simp] theorem ofRat_real (q : Rat) : (ofRat q).real = q := rfl
@[simp] theorem ofRat_eps (q : Rat) : (ofRat q).eps = 0 := rfl

instance : AddCommGroup InfRat where
  add_assoc a b c := by ext <;> simp [add_assoc]
  zero_add a := by ext <;> simp
  add_zero a := by ext <;> simp
  add_comm a b := by ext <;> simp [add_comm]
  neg_add_cancel a := by ext <;> simp
  sub_eq_add_neg a b := by ext <;> simp [sub_eq_add_neg]
  nsmul := nsmulRec
  zsmul := zsmulRec

theorem scale_add (c : Rat) (a b : InfRat) : (a + b).scale c = a.scale c + b.scale c := by
  ext <;> simp [add_mul]

theorem add_scale (c d : Rat) (a : InfRat) : a.scale (c + d) = a.scale c + a.scale d := by
  ext <;> simp [mul_add]

theorem neg_scale (c : Rat) (a : InfRat) : a.scale (-c) = -a.scale c := by
  ext <;> simp

theorem scale_scale (c d : Rat) (a : InfRat) : (a.scale c).scale d = a.scale (c * d) := by
  ext <;> simp [mul_assoc]

@[simp] theorem scale_one (a : InfRat) : a.scale 1 = a := by
  ext <;> simp

@[simp] theorem scale_zero (a : InfRat) : a.scale 0 = 0 := by
  ext <;> simp

@[simp] theorem zero_scale (c : Rat) : (0 : InfRat).scale c = 0 := by
  ext <;> simp

instance : Module ℚ InfRat where
  smul c a := a.scale c
  one_smul a := scale_one a
  mul_smul c d a := (congrArg a.scale (mul_comm c d)).trans (scale_scale d c a).symm
  smul_zero c := zero_scale c
  smul_add c a b := scale_add c a b
  add_smul c d a := add_scale c d a
  zero_smul a := scale_zero a

theorem smul_eq_scale (c : Rat) (a : InfRat) : c • a = a.scale c := rfl

theorem divide_eq_scale (a : InfRat) (c : Rat) : a.divide c = a.scale c⁻¹ := by
  ext <;> simp [div_eq_mul_inv]

theorem scale_divide {c : Rat} (nonzero : c ≠ 0) (a : InfRat) : (a.divide c).scale c = a := by
  ext <;> simp [nonzero]

theorem ofRat_add (p q : Rat) : ofRat (p + q) = ofRat p + ofRat q := by
  ext <;> simp

theorem ofRat_neg (p : Rat) : ofRat (-p) = -ofRat p := by
  ext <;> simp

@[simp] theorem ofRat_zero : ofRat 0 = 0 := rfl

theorem ofRat_scale (c q : Rat) : (ofRat q).scale c = ofRat (q * c) := by
  ext <;> simp

theorem ofRat_injective {p q : Rat} (same : ofRat p = ofRat q) : p = q :=
  congrArg real same

/-! ## The order -/

theorem le_def (a b : InfRat) :
    a ≤ b ↔ a.real < b.real ∨ (a.real = b.real ∧ a.eps ≤ b.eps) := Iff.rfl

theorem lt_def (a b : InfRat) :
    a < b ↔ a.real < b.real ∨ (a.real = b.real ∧ a.eps < b.eps) := Iff.rfl

instance : LinearOrder InfRat where
  le_refl a := by simp [le_def]
  le_trans a b c := by simp only [le_def]; grind
  lt_iff_le_not_ge a b := by simp only [le_def, lt_def]; grind
  le_antisymm a b := by simp only [le_def, InfRat.ext_iff]; grind
  le_total a b := by simp only [le_def]; grind
  toDecidableLE := inferInstance
  toDecidableLT := inferInstance
  toDecidableEq := inferInstance

instance : IsOrderedAddMonoid InfRat where
  add_le_add_left a b below c := by
    simp only [le_def, add_real, add_eps] at below ⊢
    grind

theorem scale_le_scale {c : Rat} (nonneg : 0 ≤ c) {a b : InfRat} (below : a ≤ b) :
    a.scale c ≤ b.scale c := by
  rcases nonneg.eq_or_lt with rfl | positive
  · simp
  · rcases (le_def a b).1 below with less | ⟨same, less⟩
    · exact Or.inl (by simpa using mul_lt_mul_of_pos_right less positive)
    · exact Or.inr ⟨by simp [same], by simpa using mul_le_mul_of_nonneg_right less positive.le⟩

theorem scale_le_scale_of_nonpos {c : Rat} (nonpos : c ≤ 0) {a b : InfRat} (below : a ≤ b) :
    b.scale c ≤ a.scale c := by
  have := scale_le_scale (neg_nonneg.2 nonpos) below
  rwa [neg_scale, neg_scale, neg_le_neg_iff] at this

theorem ofRat_le {p q : Rat} : ofRat p ≤ ofRat q ↔ p ≤ q := by
  simp only [le_def, ofRat_real, ofRat_eps]
  grind

theorem ofRat_lt {p q : Rat} : ofRat p < ofRat q ↔ p < q := by
  rw [← not_le, ofRat_le, not_le]

/-- A rational respects a lower bound: strictly when the infinitesimal part is positive. -/
theorem le_ofRat {a : InfRat} {q : Rat} :
    a ≤ ofRat q ↔ if 0 < a.eps then a.real < q else a.real ≤ q := by
  simp only [le_def, ofRat_real, ofRat_eps]
  grind

/-- A rational respects an upper bound: strictly when the infinitesimal part is negative. -/
theorem ofRat_le_iff {a : InfRat} {q : Rat} :
    ofRat q ≤ a ↔ if a.eps < 0 then q < a.real else q ≤ a.real := by
  simp only [le_def, ofRat_real, ofRat_eps]
  grind

theorem real_le_of_le {a b : InfRat} (below : a ≤ b) : a.real ≤ b.real := by
  rcases (le_def a b).1 below with less | ⟨same, -⟩
  · exact less.le
  · exact same.le

/-- Rationals are values without infinitesimal part. -/
def ofRatHom : ℚ →ₗ[ℚ] InfRat where
  toFun := ofRat
  map_add' := ofRat_add
  map_smul' c q := by
    rw [smul_eq_scale, ofRat_scale, smul_eq_mul, mul_comm]
    rfl

theorem ofRatHom_apply (q : Rat) : ofRatHom q = ofRat q := rfl

/-! ## The nearest integers -/

/-- An integer is less than a rational that is no integer as soon as it is at most that rational. -/
theorem intCast_lt_iff {q : Rat} (fractional : q.isInt = false) {n : Int} :
    (n : Rat) < q ↔ (n : Rat) ≤ q := by
  refine ⟨le_of_lt, fun le => lt_of_le_of_ne le fun same => ?_⟩
  rw [← same, Rat.isInt, Rat.den_intCast] at fractional
  cases fractional

/-- `floor` is the greatest integer at most the value. -/
theorem le_floor_iff {n : Int} {a : InfRat} : n ≤ a.floor ↔ ofRat n ≤ a := by
  rw [ofRat_le_iff, floor]
  by_cases strict : a.eps < 0
  · rw [if_pos strict]
    cases integral : a.real.isInt with
    | true =>
      rw [if_pos (by simp [strict]), Int.le_sub_one_iff, Rat.eq_num_of_isInt integral,
        Rat.floor_intCast, Int.cast_lt]
    | false => rw [if_neg (by simp), intCast_lt_iff integral, Rat.le_floor_iff]
  · rw [if_neg strict, if_neg (by simp [strict]), Rat.le_floor_iff]

theorem ceil_eq_neg_floor_neg (a : InfRat) : a.ceil = -(-a).floor := by
  have integral : (-a.real).isInt = a.real.isInt := by simp [Rat.isInt]
  rw [ceil, floor, neg_real, neg_eps, integral, Rat.ceil_eq_neg_floor_neg]
  simp only [neg_lt_zero]
  split
  · ring
  · rfl

/-- `ceil` is the least integer at least the value. -/
theorem ceil_le_iff {n : Int} {a : InfRat} : a.ceil ≤ n ↔ a ≤ ofRat n := by
  rw [ceil_eq_neg_floor_neg, neg_le, le_floor_iff, Int.cast_neg, ofRat_neg, neg_le_neg_iff]

/-! ## Putting a rational in for the infinitesimal -/

@[simp] theorem evaluate_ofRat (q delta : Rat) : (ofRat q).evaluate delta = q := by
  simp [evaluate]

@[simp] theorem evaluate_zero (delta : Rat) : (0 : InfRat).evaluate delta = 0 := by
  simp [evaluate]

@[simp] theorem evaluate_neg (a : InfRat) (delta : Rat) :
    (-a).evaluate delta = -a.evaluate delta := by
  simp only [evaluate, neg_real, neg_eps]
  ring

/-- Putting a rational in for the infinitesimal is linear. -/
def evaluateHom (delta : Rat) : InfRat →ₗ[ℚ] ℚ where
  toFun a := a.evaluate delta
  map_add' a b := by simp only [evaluate, add_real, add_eps]; ring
  map_smul' c a := by
    simp only [evaluate, smul_eq_scale, scale_real, scale_eps, RingHom.id_apply, smul_eq_mul]
    ring

theorem evaluateHom_apply (delta : Rat) (a : InfRat) : evaluateHom delta a = a.evaluate delta := rfl

end ArithDecide.InfRat
