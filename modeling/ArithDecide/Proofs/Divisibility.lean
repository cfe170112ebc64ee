import Mathlib.Algebra.BigOperators.Ring.Finset
import Mathlib.Algebra.BigOperators.Ring.List
import Mathlib.Algebra.Order.BigOperators.Group.List
import Mathlib.Data.Rat.Lemmas
import Mathlib.Tactic.Linarith
import Mathlib.Tactic.Ring
import ArithDecide.Integer.DivisibilityTest
import ArithDecide.Proofs.Installing

/-!
# The divisibility tests are sound

A solution makes the scaled row an equation between integers, in which the constant and the confined
terms add up to a multiple of the common divisor of the remaining coefficients. When no such multiple
is left between the bounds, the bounds that fix and confine the variables are to blame.
-/

namespace ArithDecide

/-! ## Denominators and divisors -/

theorem dvd_foldl_lcm (values : List Rat) (start : Nat) :
    start ∣ values.foldl (fun acc value => acc.lcm value.den) start ∧
      ∀ q ∈ values, q.den ∣ values.foldl (fun acc value => acc.lcm value.den) start := by
  induction values generalizing start with
  | nil => exact ⟨dvd_refl _, fun q member => by cases member⟩
  | cons q rest ih =>
    obtain ⟨first, others⟩ := ih (start.lcm q.den)
    refine ⟨(Nat.dvd_lcm_left _ _).trans first, fun p member => ?_⟩
    rcases List.mem_cons.1 member with rfl | later
    · exact (Nat.dvd_lcm_right _ _).trans first
    · exact others p later

/-- Multiplied by the common denominator every value is an integer. -/
theorem exists_int_mul_denominatorsLcm (values : List Rat) {q : Rat} (member : q ∈ values) :
    ∃ n : Int, q * denominatorsLcm values = n := by
  obtain ⟨k, same⟩ := (dvd_foldl_lcm values 1).2 q member
  have same : denominatorsLcm values = q.den * k := same
  refine ⟨q.num * k, ?_⟩
  rw [same, Nat.cast_mul, ← mul_assoc, Rat.mul_den_eq_num]
  push_cast
  rfl

theorem floor_of_int {q : Rat} {n : Int} (integral : q = n) : (q.floor : Rat) = q := by
  rw [integral, Rat.floor_intCast]

theorem foldl_lcm_ne_zero (values : List Rat) {start : Nat} (nonzero : start ≠ 0) :
    values.foldl (fun acc value => acc.lcm value.den) start ≠ 0 := by
  induction values generalizing start with
  | nil => exact nonzero
  | cons q rest ih => exact ih (Nat.lcm_ne_zero nonzero q.den_nz)

theorem denominatorsLcm_ne_zero (values : List Rat) : denominatorsLcm values ≠ 0 :=
  foldl_lcm_ne_zero values one_ne_zero

theorem foldl_gcd_dvd (values : List Int) (start : Nat) :
    values.foldl (fun acc value => acc.gcd value.natAbs) start ∣ start ∧
      ∀ k ∈ values, values.foldl (fun acc value => acc.gcd value.natAbs) start ∣ k.natAbs := by
  induction values generalizing start with
  | nil => exact ⟨dvd_refl _, fun k member => by cases member⟩
  | cons k rest ih =>
    obtain ⟨first, others⟩ := ih (start.gcd k.natAbs)
    refine ⟨first.trans (Nat.gcd_dvd_left _ _), fun m member => ?_⟩
    rcases List.mem_cons.1 member with rfl | later
    · exact first.trans (Nat.gcd_dvd_right _ _)
    · exact others m later

theorem gcdOfInts_dvd {values : List Int} {k : Int} (member : k ∈ values) :
    (gcdOfInts values : Int) ∣ k :=
  Int.natCast_dvd.2 ((foldl_gcd_dvd values 0).2 k member)

/-- A combination of integers is a multiple of the common divisor of the coefficients. -/
theorem gcdOfInts_dvd_sum (terms : List (Var × Int)) (n : Var → Int) :
    (gcdOfInts (terms.map Prod.snd) : Int) ∣ (terms.map fun t => t.2 * n t.1).sum := by
  refine List.dvd_sum fun k member => ?_
  obtain ⟨t, at_t, rfl⟩ := List.mem_map.1 member
  exact (gcdOfInts_dvd (List.mem_map_of_mem at_t)).mul_right _

namespace Engine

open State

variable {e : Engine} {h : History} {α : Var → Rat} {row : Row} {scaled : ScaledRow}

/-! ## The scaled row -/

/-- Both bounds of some variables. -/
def bothSides (vs : List Var) : List (Var × BoundKind) :=
  vs.flatMap fun v => [(v, .lower), (v, .upper)]

theorem fixedReasons_eq (e : Engine) (vs : List Var) :
    e.fixedReasons vs = e.reasonsOf (bothSides vs) := by
  simp [fixedReasons, reasonsOf, bothSides, List.map_flatMap]

theorem mem_bothSides {vs : List Var} {v : Var} (member : v ∈ vs) (kind : BoundKind) :
    (v, kind) ∈ bothSides vs := by
  refine List.mem_flatMap.2 ⟨v, member, ?_⟩
  cases kind <;> simp

theorem Respects.admits {uses : List (Var × BoundKind)} (respects : e.Respects α uses)
    (bounds : e.bounds.WellFormed e.numVars) {v : Var} {kind : BoundKind} {value : InfRat}
    (member : (v, kind) ∈ uses) (active : e.bounds.value v kind = some value) : kind.admits value (.ofRat (α v)) = true := by
  obtain ⟨b, found, rfl⟩ := Option.map_eq_some_iff.1 active
  have holds : b.kind.admits b.value (.ofRat (α b.var)) = true := respects _ member b found
  obtain ⟨-, var_eq, kind_eq⟩ := bounds.active found
  rwa [var_eq, kind_eq] at holds

/-- Both bounds of a fixed variable have the value to which it is fixed. -/
theorem fixedValue?_of_isFixed {v : Var} (fixed : e.bounds.isFixed v = true) :
    ∃ value, e.fixedValue? v = some value ∧ ∀ kind, e.bounds.value v kind = some value := by
  have is_fixed := fixed
  rw [BoundStore.isFixed] at fixed
  split at fixed
  · rename_i lower upper at_lower at_upper
    obtain rfl : lower = upper := of_decide_eq_true fixed
    refine ⟨lower, ?_, fun kind => ?_⟩
    · rw [fixedValue?, if_pos is_fixed, at_lower]
    · cases kind with
      | lower => exact at_lower
      | upper => exact at_upper
  · cases fixed

/-- A solution gives a fixed variable the value to which it is fixed. -/
theorem eq_of_isFixed (bounds : e.bounds.WellFormed e.numVars) {v : Var} (fixed : e.bounds.isFixed v = true)
    {uses : List (Var × BoundKind)} (respects : e.Respects α uses)
    (member : ∀ kind, (v, kind) ∈ uses) :
    ∃ value, e.fixedValue? v = some value ∧ e.bounds.value v .lower = some value ∧
      value = .ofRat (α v) := by
  obtain ⟨value, found, active⟩ := fixedValue?_of_isFixed fixed
  refine ⟨value, found, active .lower, le_antisymm ?_ ?_⟩
  · exact BoundKind.admits_lower.1 (respects.admits bounds (member .lower) (active .lower))
  · exact BoundKind.admits_upper.1 (respects.admits bounds (member .upper) (active .upper))

/-- The equation that the scaled row stands for. -/
def ScaledRow.Holds (scaled : ScaledRow) (α : Var → Rat) : Prop :=
  (scaled.constant : Rat) + (scaled.free.map fun t => (t.2 : Rat) * α t.1).sum = 0

theorem sum_filter_split {β M : Type} [AddCommMonoid M] (items : List β) (p : β → Bool)
    (g : β → M) :
    (items.map g).sum = ((items.filter p).map g).sum + ((items.filter fun a => !p a).map g).sum := by
  induction items with
  | nil => simp
  | cons a rest ih =>
    rw [List.map_cons, List.sum_cons, ih]
    cases taken : p a
    · simp [taken, add_left_comm]
    · simp [taken, add_assoc]

/-- The scaled row is the row times a positive number, with nothing cut off. -/
structure ScaledRow.Scales (e : Engine) (row : Row) (scaled : ScaledRow) (scale : Rat) : Prop where
  positive : 0 < scale
  fixed : scaled.fixed = (row.zeroTerms.filter fun t => e.bounds.isFixed t.1).map Prod.fst
  constant : (scaled.constant : Rat) = ((row.zeroTerms.filter fun t => e.bounds.isFixed t.1).map
    fun t => t.2 * ((e.fixedValue? t.1).getD 0).real).sum * scale
  free : scaled.free.map (fun t => (t.1, (t.2 : Rat))) =
    (row.zeroTerms.filter fun t => !e.bounds.isFixed t.1).map fun t => (t.1, t.2 * scale)

/-- A row that could be scaled is the row times the scale, with the fixed terms put together. -/
theorem scales_of_scaleRow? (found : e.scaleRow? row = some scaled) :
    ∃ scale, scaled.Scales e row scale := by
  simp only [scaleRow?, Option.ite_none_right_eq_some, Option.some.injEq, total_eq_sum] at found
  obtain ⟨-, rfl⟩ := found
  generalize constant_eq : ((row.zeroTerms.filter fun t => e.bounds.isFixed t.1).map fun t =>
    t.2 * ((e.fixedValue? t.1).getD 0).real).sum = constant
  generalize free_eq : (row.zeroTerms.filter fun t => !e.bounds.isFixed t.1) = free
  generalize scale_eq : denominatorsLcm (free.map Prod.snd ++ [constant]) = scale
  have exact_floor {q : Rat} (member : q ∈ free.map Prod.snd ++ [constant]) :
      ((q * (scale : Rat)).floor : Rat) = q * scale := by
    obtain ⟨n, integral⟩ := exists_int_mul_denominatorsLcm _ member
    rw [scale_eq] at integral
    exact floor_of_int integral
  refine ⟨scale, ?_, rfl, ?_, ?_⟩
  · rw [← scale_eq]
    exact_mod_cast Nat.pos_of_ne_zero (denominatorsLcm_ne_zero _)
  · rw [constant_eq]
    exact exact_floor (List.mem_append_right _ (List.mem_singleton_self _))
  · rw [free_eq, List.map_map]
    refine List.map_congr_left fun t member => ?_
    exact congrArg (Prod.mk t.1) (exact_floor (List.mem_append_left _ (List.mem_map_of_mem member)))

/-- With the fixed variables at their values the scaled row says what the row says. -/
theorem ScaledRow.Scales.holds_iff {scale : Rat} (scales : scaled.Scales e row scale)
    (at_fixed : ∀ t ∈ row.zeroTerms, e.bounds.isFixed t.1 = true →
      α t.1 = ((e.fixedValue? t.1).getD 0).real) : scaled.Holds α ↔ row.Holds α := by
  have constant : (scaled.constant : Rat) =
      ((row.zeroTerms.filter fun t => e.bounds.isFixed t.1).map fun t => t.2 * α t.1).sum *
        scale := by
    rw [scales.constant]
    refine congrArg (List.sum · * scale) (List.map_congr_left fun t member => ?_)
    obtain ⟨here, fixed⟩ := List.mem_filter.1 member
    rw [at_fixed t here fixed]
  have free : (scaled.free.map fun t => (t.2 : Rat) * α t.1).sum =
      ((row.zeroTerms.filter fun t => !e.bounds.isFixed t.1).map fun t => t.2 * α t.1).sum *
        scale := by
    have scaled_free := congrArg (List.map fun t : Var × Rat => t.2 * α t.1) scales.free
    rw [List.map_map, List.map_map] at scaled_free
    rw [← List.sum_map_mul_right]
    refine (congrArg List.sum scaled_free).trans (congrArg List.sum (List.map_congr_left ?_))
    intro t _
    simp only [Function.comp_apply]
    ring
  have zero : (row.zeroTerms.map fun t => t.2 * α t.1).sum = -α row.base + row.form.combine α := by
    simp [Row.zeroTerms, LinearForm.combine]
  rw [ScaledRow.Holds, constant, free, ← add_mul, ← sum_filter_split, zero,
    mul_eq_zero_iff_right scales.positive.ne', neg_add_eq_zero]
  rfl

/-- A row that a solution satisfies is satisfied after scaling. -/
theorem holds_of_scaleRow? (bounds : e.bounds.WellFormed e.numVars)
    (found : e.scaleRow? row = some scaled) (holds : row.Holds α)
    (respects : e.Respects α (bothSides scaled.fixed)) : scaled.Holds α := by
  obtain ⟨scale, scales⟩ := scales_of_scaleRow? found
  refine (scales.holds_iff fun t member fixed => ?_).2 holds
  have in_fixed : t.1 ∈ scaled.fixed := by
    rw [scales.fixed]
    exact List.mem_map_of_mem (List.mem_filter.2 ⟨member, fixed⟩)
  obtain ⟨value, found, -, rfl⟩ := eq_of_isFixed bounds fixed respects (mem_bothSides in_fixed)
  rw [found]
  rfl

/-- The fixed variables of a scaled row have both bounds. -/
theorem isSome_of_scaleRow? (found : e.scaleRow? row = some scaled) :
    ∀ v ∈ scaled.fixed, ∀ kind, (e.bounds.get v kind).isSome = true := by
  obtain ⟨scale, scales⟩ := scales_of_scaleRow? found
  intro v member kind
  rw [scales.fixed] at member
  obtain ⟨t, at_t, rfl⟩ := List.mem_map.1 member
  obtain ⟨value, -, active⟩ := fixedValue?_of_isFixed (List.mem_filter.1 at_t).2
  obtain ⟨b, found, -⟩ := Option.map_eq_some_iff.1 (active kind)
  exact Option.isSome_iff_exists.2 ⟨b, found⟩

theorem isInt_of_scaleRow? (found : e.scaleRow? row = some scaled) :
    ∀ t ∈ scaled.free, e.isInt t.1 = true := by
  simp only [scaleRow?, Option.ite_none_right_eq_some, Option.some.injEq] at found
  obtain ⟨all_int, rfl⟩ := found
  intro t member
  obtain ⟨u, at_u, rfl⟩ := List.mem_map.1 member
  exact List.all_eq_true.1 all_int u at_u

/-! ## The tests -/

/-- The integers that a solution gives to the variables of a scaled row. -/
theorem exists_int_solution (integral : ∀ t ∈ scaled.free, ∃ n : Int, α t.1 = n)
    (holds : scaled.Holds α) :
    ∃ n : Var → Int, (∀ t ∈ scaled.free, α t.1 = n t.1) ∧
      scaled.constant + (scaled.free.map fun t => t.2 * n t.1).sum = 0 := by
  refine ⟨fun v => (α v).floor, fun t member => ?_, ?_⟩
  · obtain ⟨n, same⟩ := integral t member
    exact (floor_of_int same).symm
  · rw [ScaledRow.Holds] at holds
    have same : (scaled.free.map fun t => (t.2 : Rat) * α t.1).sum =
        ((scaled.free.map fun t => t.2 * (α t.1).floor).sum : Int) := by
      rw [Int.cast_list_sum, List.map_map]
      refine congrArg List.sum (List.map_congr_left fun t member => ?_)
      obtain ⟨n, same⟩ := integral t member
      simp only [Function.comp_apply, Int.cast_mul, floor_of_int same]
    rw [same] at holds
    exact_mod_cast holds

/-- A row with an integer solution passes the first test. -/
theorem divides_of_solution {n : Var → Int}
    (zero : scaled.constant + (scaled.free.map fun t => t.2 * n t.1).sum = 0) :
    scaled.divides = true := by
  have divides := gcdOfInts_dvd_sum scaled.free n
  rw [eq_neg_of_add_eq_zero_right zero, dvd_neg] at divides
  simp only [ScaledRow.divides]
  split
  · rename_i none_free
    rw [none_free, Nat.cast_zero, zero_dvd_iff] at divides
    exact decide_eq_true divides
  · exact decide_eq_true (Int.emod_eq_zero_of_dvd divides)

/-- The real part of a bound limits what a solution may give to its variable. -/
theorem real_le_of_admits {q : Rat} {value : InfRat}
    (admits : BoundKind.lower.admits value (.ofRat q) = true) : value.real ≤ q :=
  InfRat.real_le_of_le (BoundKind.admits_lower.1 admits)

theorem le_real_of_admits {q : Rat} {value : InfRat}
    (admits : BoundKind.upper.admits value (.ofRat q) = true) : q ≤ value.real :=
  InfRat.real_le_of_le (BoundKind.admits_upper.1 admits)

theorem isSome_of_isConfined {v : Var} (confined : e.isConfined v = true) (kind : BoundKind) :
    (e.bounds.get v kind).isSome = true := by
  obtain ⟨lower, upper⟩ := Bool.and_eq_true_iff.1 confined
  cases kind
  · exact lower
  · exact upper

/-- A confined variable lies within the real parts of its bounds. -/
theorem confined_mem (bounds : e.bounds.WellFormed e.numVars) {uses : List (Var × BoundKind)}
    (respects : e.Respects α uses) {v : Var} (member : ∀ kind, (v, kind) ∈ uses)
    (confined : e.isConfined v = true) :
    ((e.bounds.value v .lower).getD 0).real ≤ α v ∧
      α v ≤ ((e.bounds.value v .upper).getD 0).real := by
  rw [isConfined, Bool.and_eq_true, Option.isSome_iff_exists, Option.isSome_iff_exists] at confined
  obtain ⟨⟨lower, at_lower⟩, upper, at_upper⟩ := confined
  have lower_value : e.bounds.value v .lower = some lower.value := by
    rw [BoundStore.value, at_lower, Option.map_some]
  have upper_value : e.bounds.value v .upper = some upper.value := by
    rw [BoundStore.value, at_upper, Option.map_some]
  rw [lower_value, upper_value]
  exact ⟨real_le_of_admits (respects.admits bounds (member .lower) lower_value),
    le_real_of_admits (respects.admits bounds (member .upper) upper_value)⟩

/-- The constant and the confined terms lie in the range of the extended test. -/
theorem mem_confinedRange (bounds : e.bounds.WellFormed e.numVars) {terms : List (Var × Int)}
    (respects : e.Respects α (bothSides (terms.map Prod.fst)))
    (confined : ∀ t ∈ terms, e.isConfined t.1 = true) (constant : Int) :
    (e.confinedRange constant terms).1 ≤
        (constant : Rat) + (terms.map fun t => (t.2 : Rat) * α t.1).sum ∧
      (constant : Rat) + (terms.map fun t => (t.2 : Rat) * α t.1).sum ≤
        (e.confinedRange constant terms).2 := by
  have within (t : Var × Int) (member : t ∈ terms) :=
    confined_mem bounds respects (mem_bothSides (List.mem_map_of_mem member)) (confined t member)
  simp only [confinedRange, total_eq_sum]
  constructor
  · refine add_le_add_right (List.sum_le_sum fun t member => ?_) _
    obtain ⟨lower, upper⟩ := within t member
    split
    · rename_i positive
      exact mul_le_mul_of_nonneg_left lower (by exact_mod_cast positive.le)
    · rename_i nonpositive
      exact mul_le_mul_of_nonpos_left upper (by exact_mod_cast not_lt.1 nonpositive)
  · refine add_le_add_right (List.sum_le_sum fun t member => ?_) _
    obtain ⟨lower, upper⟩ := within t member
    split
    · rename_i positive
      exact mul_le_mul_of_nonneg_left upper (by exact_mod_cast positive.le)
    · rename_i nonpositive
      exact mul_le_mul_of_nonpos_left lower (by exact_mod_cast not_lt.1 nonpositive)

/-- The variables with the least coefficient. -/
def ScaledRow.leastVars (scaled : ScaledRow) : List Var :=
  (scaled.free.filter fun t => decide (some t.2.natAbs = scaled.least?)).map Prod.fst

/-- What the extended test blames refutes the row: no multiple of the common divisor is left. -/
theorem refuted_of_extended (bounds : e.bounds.WellFormed e.numVars) {reasons : List Dependency}
    (found : e.extendedRefutation? scaled = some reasons) :
    reasons = e.reasonsOf (bothSides scaled.leastVars ++ bothSides scaled.fixed) ∧
      ∀ α : Var → Rat, (∀ t ∈ scaled.free, ∃ n : Int, α t.1 = n) → scaled.Holds α →
        e.Respects α (bothSides scaled.leastVars) → False := by
  simp only [extendedRefutation?, Option.ite_none_right_eq_some, Option.ite_none_left_eq_some,
    Option.some.injEq, Bool.and_eq_true, decide_eq_true_eq, not_le] at found
  rw [ScaledRow.leastVars]
  generalize confined_eq :
    (scaled.free.filter fun t => decide (some t.2.natAbs = scaled.least?)) = confined at found
  generalize rest_eq :
    (scaled.free.filter fun t => decide (some t.2.natAbs ≠ scaled.least?)) = rest at found
  obtain ⟨⟨all_confined, large⟩, empty, rfl⟩ := found
  refine ⟨by simp [fixedReasons_eq, reasonsOf], fun α integral holds respects => ?_⟩
  obtain ⟨n, values, zero⟩ := exists_int_solution integral holds
  generalize divisor_eq : gcdOfInts (rest.map Prod.snd) = divisor at large empty
  have split := sum_filter_split scaled.free
    (fun t => decide (some t.2.natAbs = scaled.least?)) fun t => t.2 * n t.1
  have rest_eq' : (scaled.free.filter fun t => !decide (some t.2.natAbs = scaled.least?)) = rest := by
    rw [← rest_eq]
    refine List.filter_congr fun t _ => ?_
    simp
  rw [confined_eq, rest_eq'] at split
  obtain ⟨m, multiple⟩ := gcdOfInts_dvd_sum rest n
  rw [divisor_eq] at multiple
  rw [split, multiple] at zero
  have confined_sum : (scaled.constant : Rat) + (confined.map fun t => (t.2 : Rat) * α t.1).sum =
      divisor * ((-m : Int) : Rat) := by
    have same : (confined.map fun t => (t.2 : Rat) * α t.1).sum =
        ((confined.map fun t => t.2 * n t.1).sum : Int) := by
      rw [Int.cast_list_sum, List.map_map]
      refine congrArg List.sum (List.map_congr_left fun t member => ?_)
      have in_free : t ∈ scaled.free := (List.mem_filter.1 (confined_eq ▸ member)).1
      simp only [Function.comp_apply, Int.cast_mul, values t in_free]
    rw [same]
    have sum_eq : scaled.constant + (confined.map fun t => t.2 * n t.1).sum = divisor * -m := by
      linarith
    exact_mod_cast sum_eq
  obtain ⟨low, high⟩ := mem_confinedRange bounds respects (List.all_eq_true.1 all_confined)
    scaled.constant
  rw [confined_sum] at low high
  have positive : (0 : Rat) < divisor := by exact_mod_cast Nat.zero_lt_of_lt large
  have above : ((e.confinedRange scaled.constant confined).1 / divisor).ceil ≤ -m := by
    rw [Rat.ceil_le_iff, div_le_iff₀ positive, mul_comm]
    exact low
  have below : -m ≤ ((e.confinedRange scaled.constant confined).2 / divisor).floor := by
    rw [Rat.le_floor_iff, le_div_iff₀ positive, mul_comm]
    exact high
  exact absurd (above.trans below) (not_le.2 empty)

/-- The bounds that a failed test blames. -/
def ScaledRow.blamed (scaled : ScaledRow) : List (Var × BoundKind) :=
  if scaled.divides then bothSides scaled.leastVars ++ bothSides scaled.fixed
  else bothSides scaled.fixed

/-- What a test blames refutes the row. -/
theorem refuted_of_divisibility (bounds : e.bounds.WellFormed e.numVars)
    {reasons : List Dependency} (found : e.divisibilityRefutation? scaled = some reasons) :
    reasons = e.reasonsOf scaled.blamed ∧
      ∀ α : Var → Rat, (∀ t ∈ scaled.free, ∃ n : Int, α t.1 = n) →
        (e.Respects α (bothSides scaled.fixed) → scaled.Holds α) →
        e.Respects α scaled.blamed → False := by
  rw [divisibilityRefutation?] at found
  rw [ScaledRow.blamed]
  split at found
  · rename_i divides
    rw [if_pos divides]
    obtain ⟨reasons_eq, refuted⟩ := refuted_of_extended bounds found
    refine ⟨reasons_eq, fun α integral row_holds respects => ?_⟩
    refine refuted α integral (row_holds fun u member => ?_) fun u member => ?_
    · exact respects u (List.mem_append_right _ member)
    · exact respects u (List.mem_append_left _ member)
  · rename_i indivisible
    rw [if_neg indivisible]
    obtain rfl := Option.some.inj found
    refine ⟨fixedReasons_eq e _, fun α integral row_holds respects => ?_⟩
    obtain ⟨n, -, zero⟩ := exists_int_solution integral (row_holds respects)
    exact indivisible (divides_of_solution zero)

/-- The divisibility tests answer soundly: a refutation rests on the bounds that fix the variables it
used, and on those that enclose the extended sum. -/
theorem answers_testDivisibility (inv : e.Invariant h) (r : RowId) :
    Answers h e (e.testDivisibility r) := by
  rw [testDivisibility]
  split
  · exact .yes .refl
  · rename_i scaled found
    obtain ⟨row, filtered, scaled_row⟩ := Option.bind_eq_some_iff.1 found
    have at_r := (Option.filter_eq_some_iff.1 filtered).1
    simp only
    split
    · exact .yes (Becomes.steps ⟨rfl, rfl⟩)
    · rename_i reasons refutation
      have bounds := inv.founded.formed.bounds
      obtain ⟨rfl, refuted⟩ := refuted_of_divisibility bounds refutation
      have blames := blames_reasonsOf inv scaled.blamed fun _ α solves respects =>
        refuted α
          (fun t member => solves.integral t.1 (isInt_of_scaleRow? scaled_row t member))
          (holds_of_scaleRow? bounds scaled_row (solves.rows r row at_r)) respects
      have steps := (joined_reasonsOf inv scaled.blamed).steps
      refine .conflict ?_ (fails_setConflict ?_)
      · exact steps.tail (.quiet ⟨rfl, rfl⟩)
      · exact blames

/-- A row that passes the tests changes nothing. -/
theorem toState_testDivisibility {r : RowId} (yes : (e.testDivisibility r).2 = true) :
    (e.testDivisibility r).1.toState = e.toState := by
  rw [testDivisibility] at yes ⊢
  split at yes
  · rfl
  · simp only at yes ⊢
    split at yes
    · rfl
    · cases yes

end Engine

end ArithDecide
