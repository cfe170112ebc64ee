import Mathlib
import ArithDecide.Proofs.Intervals

/-!
# Interval operations are exact

An interval is the hull of a set of rationals when it contains the set and both endpoints are the exact
ends of it: a closed endpoint is the least or the greatest element, a strict one an infimum or supremum
that is not attained, and an infinite one says that the set is unbounded on that side. Every operation
yields the hull of its results (`Interval.operations_exact`).

That the results are enclosed is known from the corners that limit them. What is added here is that each
endpoint is *reached*: it is a result, results come arbitrarily close to it, or they go beyond every
rational. A corner of a product is reached because both of its factors are; a strict zero times an
infinity is approached along one fixed member of the infinite side.
-/

namespace ArithDecide

open scoped Pointwise
open Filter Topology

/-- The set goes beyond every rational on one side. -/
def BoundKind.Unbounded : BoundKind → Set Rat → Prop
  | .lower, S => ¬BddBelow S
  | .upper, S => ¬BddAbove S

variable {kind side : BoundKind} {S T : Set Rat} {p q : Rat}

/-! ## Unbounded sets -/

theorem unbounded_neg : kind.Unbounded (-S) ↔ kind.opposite.Unbounded S := by
  cases kind
  · exact not_congr bddBelow_neg
  · exact not_congr bddAbove_neg

/-- Multiples of an unbounded set by a positive number are unbounded on the same side. -/
theorem unbounded_mul_of_pos (member : p ∈ S) (positive : 0 < p) (unbounded : kind.Unbounded T) :
    kind.Unbounded (S * T) := by
  cases kind with
  | lower =>
    rintro ⟨bound, below⟩
    refine unbounded ⟨bound / p, fun q at_q => ?_⟩
    rw [div_le_iff₀ positive, mul_comm]
    exact below (Set.mul_mem_mul member at_q)
  | upper =>
    rintro ⟨bound, above⟩
    refine unbounded ⟨bound / p, fun q at_q => ?_⟩
    rw [le_div_iff₀ positive, mul_comm]
    exact above (Set.mul_mem_mul member at_q)

theorem unbounded_mul_of_neg (member : p ∈ S) (negative : p < 0) (unbounded : kind.Unbounded T) :
    kind.opposite.Unbounded (S * T) := by
  rw [← unbounded_neg, ← neg_mul]
  exact unbounded_mul_of_pos (Set.neg_mem_neg.2 member) (neg_pos.2 negative) unbounded

theorem unbounded_add (member : q ∈ T) (unbounded : kind.Unbounded S) :
    kind.Unbounded (S + T) := by
  cases kind with
  | lower =>
    rintro ⟨bound, below⟩
    refine unbounded ⟨bound - q, fun p at_p => ?_⟩
    exact sub_le_iff_le_add.2 (below (Set.add_mem_add at_p member))
  | upper =>
    rintro ⟨bound, above⟩
    refine unbounded ⟨bound - q, fun p at_p => ?_⟩
    exact le_sub_iff_add_le.2 (above (Set.add_mem_add at_p member))

/-! ## Ends of a set -/

namespace Endpoint

variable {a b : Endpoint}

/-- The endpoint is the exact end of a set on one side. -/
def Ends : BoundKind → Endpoint → Set Rat → Prop
  | .lower, .infinite, S => ¬BddBelow S
  | .lower, .closed value, S => IsLeast S value
  | .lower, .strict value, S => IsGLB S value ∧ value ∉ S
  | .upper, .infinite, S => ¬BddAbove S
  | .upper, .closed value, S => IsGreatest S value
  | .upper, .strict value, S => IsLUB S value ∧ value ∉ S

/-- The endpoint belongs to the set, or elements of it come arbitrarily close. -/
def Reached : BoundKind → Endpoint → Set Rat → Prop
  | kind, .infinite, S => kind.Unbounded S
  | _, .closed value, S => value ∈ S
  | _, .strict value, S => value ∈ closure S

/-- An endpoint that limits a set and is reached by it is an end of it. -/
theorem ends_of_reached (limits : ∀ q ∈ S, a.Limits kind q) (reached : a.Reached kind S) :
    a.Ends kind S := by
  cases kind <;> cases a <;> simp only [Limits, Reached, Ends] at limits reached ⊢
  · exact reached
  · exact ⟨reached, limits⟩
  · exact ⟨isGLB_of_mem_closure (fun q member => (limits q member).le) reached,
      fun member => lt_irrefl _ (limits _ member)⟩
  · exact reached
  · exact ⟨reached, limits⟩
  · exact ⟨isLUB_of_mem_closure (fun q member => (limits q member).le) reached,
      fun member => lt_irrefl _ (limits _ member)⟩

theorem Ends.limits (ends : a.Ends kind S) (member : q ∈ S) : a.Limits kind q := by
  cases kind <;> cases a <;> simp only [Limits, Ends] at ends ⊢
  · exact ends.2 member
  · exact lt_of_le_of_ne (ends.1.1 member) fun same => ends.2 (same ▸ member)
  · exact ends.2 member
  · exact lt_of_le_of_ne (ends.1.1 member) fun same => ends.2 (same ▸ member)

theorem Ends.reached (ends : a.Ends kind S) (nonempty : S.Nonempty) : a.Reached kind S := by
  cases kind <;> cases a <;> simp only [Reached, Ends] at ends ⊢
  · exact ends
  · exact ends.1
  · exact ends.1.mem_closure nonempty
  · exact ends
  · exact ends.1
  · exact ends.1.mem_closure nonempty

/-- Elements of a set come as close to its lower end as anything that the end limits. -/
theorem Ends.exists_le (ends : a.Ends .lower S) (limits : a.Limits .lower q) : ∃ s ∈ S, s ≤ q := by
  cases a with
  | infinite =>
    obtain ⟨s, member, below⟩ := not_bddBelow_iff.1 ends q
    exact ⟨s, member, below.le⟩
  | closed value => exact ⟨value, ends.1, limits⟩
  | strict value =>
    obtain ⟨s, member, below⟩ := (isGLB_lt_iff ends.1).1 limits
    exact ⟨s, member, below.le⟩

theorem Ends.exists_ge (ends : a.Ends .upper S) (limits : a.Limits .upper q) : ∃ s ∈ S, q ≤ s := by
  cases a with
  | infinite =>
    obtain ⟨s, member, above⟩ := not_bddAbove_iff.1 ends q
    exact ⟨s, member, above.le⟩
  | closed value => exact ⟨value, ends.1, limits⟩
  | strict value =>
    obtain ⟨s, member, above⟩ := (lt_isLUB_iff ends.1).1 limits
    exact ⟨s, member, above.le⟩

/-- The lower end of a set is that of any set above it which reaches as far down. -/
theorem Ends.of_below (ends : a.Ends .lower S) (limits : ∀ t ∈ T, a.Limits .lower t)
    (below : ∀ s ∈ S, ∃ t ∈ T, t ≤ s) : a.Ends .lower T := by
  cases a with
  | infinite =>
    rintro ⟨bound, lowest⟩
    refine ends ⟨bound, fun s member => ?_⟩
    obtain ⟨t, at_t, le⟩ := below s member
    exact (lowest at_t).trans le
  | closed value =>
    obtain ⟨t, at_t, le⟩ := below value ends.1
    exact ⟨le_antisymm le (limits t at_t) ▸ at_t, limits⟩
  | strict value =>
    refine ⟨⟨fun t member => (limits t member).le, fun bound lowest => ?_⟩,
      fun member => lt_irrefl _ (limits _ member)⟩
    refine ends.1.2 fun s member => ?_
    obtain ⟨t, at_t, le⟩ := below s member
    exact (lowest at_t).trans le

/-- An upper end of one set is one of another set that it limits, if that set reaches as far up. -/
theorem Ends.of_above (ends : a.Ends .upper S) (limits : ∀ t ∈ T, a.Limits .upper t)
    (above : ∀ s ∈ S, ∃ t ∈ T, s ≤ t) : a.Ends .upper T := by
  cases a with
  | infinite =>
    rintro ⟨bound, highest⟩
    refine ends ⟨bound, fun s member => ?_⟩
    obtain ⟨t, at_t, le⟩ := above s member
    exact le.trans (highest at_t)
  | closed value =>
    obtain ⟨t, at_t, le⟩ := above value ends.1
    exact ⟨le_antisymm (limits t at_t) le ▸ at_t, limits⟩
  | strict value =>
    refine ⟨⟨fun t member => (limits t member).le, fun bound highest => ?_⟩,
      fun member => lt_irrefl _ (limits _ member)⟩
    refine ends.1.2 fun s member => ?_
    obtain ⟨t, at_t, le⟩ := above s member
    exact le.trans (highest at_t)

/-! ### Endpoints of results -/

/-- Ends that are reached add up to one that is: where both are attained by their sum, else by sums that
come arbitrarily close or grow without limit. -/
theorem reached_add (first : a.Reached kind S) (second : b.Reached kind T) (left : S.Nonempty)
    (right : T.Nonempty) : (a.add b).Reached kind (S + T) := by
  obtain ⟨p, at_p⟩ := left
  obtain ⟨q, at_q⟩ := right
  -- a value that is not attained on one side is approached by sums
  have near {x y : Rat} (x_near : x ∈ closure S) (y_near : y ∈ closure T) :
      x + y ∈ closure (S + T) :=
    map_mem_closure₂ continuous_add x_near y_near fun _ at_x _ at_y => Set.add_mem_add at_x at_y
  cases a with
  | infinite => exact unbounded_add at_q first
  | closed x =>
    cases b with
    | infinite => exact add_comm T S ▸ unbounded_add at_p second
    | closed y => exact Set.add_mem_add first second
    | strict y => exact near (subset_closure first) second
  | strict x =>
    cases b with
    | infinite => exact add_comm T S ▸ unbounded_add at_p second
    | closed y => exact near first (subset_closure second)
    | strict y => exact near first second

theorem reached_map_neg (reached : a.Reached kind S) : (a.map (- ·)).Reached kind.opposite (-S) := by
  cases a with
  | infinite =>
    refine unbounded_neg.2 ?_
    cases kind <;> exact reached
  | closed value => exact Set.neg_mem_neg.2 reached
  | strict value =>
    refine map_mem_closure continuous_neg reached fun q member => ?_
    exact Set.neg_mem_neg.2 member

/-- Odd powers of an unbounded set are unbounded on the same side. -/
theorem unbounded_pow {exponent : Nat} (odd : Odd exponent) (unbounded : kind.Unbounded S) :
    kind.Unbounded ((· ^ exponent) '' S) := by
  have nonzero : exponent ≠ 0 := odd.pos.ne'
  cases kind with
  | lower =>
    rintro ⟨bound, lowest⟩
    refine unbounded ⟨min bound (-1), fun q member => not_lt.1 fun beyond => ?_⟩
    obtain ⟨small, negative⟩ := lt_min_iff.1 beyond
    have grows : -q ≤ (-q) ^ exponent := le_self_pow₀ (by linarith) nonzero
    rw [odd.neg_pow] at grows
    have : bound ≤ q ^ exponent := lowest (Set.mem_image_of_mem _ member)
    linarith
  | upper =>
    rintro ⟨bound, highest⟩
    refine unbounded ⟨max bound 1, fun q member => not_lt.1 fun beyond => ?_⟩
    obtain ⟨large, positive⟩ := max_lt_iff.1 beyond
    have grows : q ≤ q ^ exponent := le_self_pow₀ positive.le nonzero
    have : q ^ exponent ≤ bound := highest (Set.mem_image_of_mem _ member)
    linarith

theorem reached_map_pow {exponent : Nat} (odd : Odd exponent) (reached : a.Reached kind S) :
    (a.map (· ^ exponent)).Reached kind ((· ^ exponent) '' S) := by
  cases a with
  | infinite => exact unbounded_pow odd reached
  | closed value => exact Set.mem_image_of_mem _ reached
  | strict value => exact mem_closure_image (continuous_pow exponent).continuousAt reached

/-- Reciprocals of an unbounded set come arbitrarily close to zero. -/
theorem zero_mem_closure_inv (unbounded : kind.Unbounded S) : (0 : Rat) ∈ closure S⁻¹ := by
  rw [mem_closure_iff_frequently]
  cases kind with
  | lower =>
    refine tendsto_inv_atBot_zero.frequently (Filter.frequently_atBot.2 fun bound => ?_)
    obtain ⟨q, member, below⟩ := not_bddBelow_iff.1 unbounded bound
    exact ⟨q, below.le, Set.inv_mem_inv.2 member⟩
  | upper =>
    refine tendsto_inv_atTop_zero.frequently (Filter.frequently_atTop.2 fun bound => ?_)
    obtain ⟨q, member, above⟩ := not_bddAbove_iff.1 unbounded bound
    exact ⟨q, above.le, Set.inv_mem_inv.2 member⟩

/-- Reciprocals of numbers that come close to zero from one side are unbounded on that side. -/
theorem unbounded_inv (near : (0 : Rat) ∈ closure S) (limits : ∀ q ∈ S, (strict 0).Limits kind q) :
    kind.opposite.Unbounded S⁻¹ := by
  cases kind with
  | lower =>
    rintro ⟨bound, highest⟩
    have positive : (0 : Rat) < max bound 1 := lt_max_of_lt_right one_pos
    obtain ⟨q, small, member⟩ := mem_closure_iff.1 near (Set.Iio (1 / max bound 1)) isOpen_Iio
      (one_div_pos.2 positive)
    have large : max bound 1 < 1 / q := (lt_one_div positive (limits q member)).2 small
    have : q⁻¹ ≤ bound := highest (Set.inv_mem_inv.2 member)
    rw [← one_div] at this
    exact absurd (this.trans (le_max_left bound 1)) (not_le.2 large)
  | upper =>
    rintro ⟨bound, lowest⟩
    have negative : min bound (-1) < (0 : Rat) := min_lt_of_right_lt neg_one_lt_zero
    obtain ⟨q, small, member⟩ := mem_closure_iff.1 near (Set.Ioi (1 / min bound (-1))) isOpen_Ioi
      (one_div_neg.2 negative)
    have large : 1 / q < min bound (-1) := (one_div_lt_of_neg (limits q member) negative).2 small
    have : bound ≤ q⁻¹ := lowest (Set.inv_mem_inv.2 member)
    rw [← one_div] at this
    exact absurd ((min_le_left bound (-1)).trans this) (not_le.2 large)

/-- The inverse of an end is reached by inverses of what reaches it, on the opposite side. -/
theorem reached_invertEndpoint (reached : a.Reached kind S) (limits : ∀ q ∈ S, a.Limits kind q) :
    (Interval.invertEndpoint a).Reached kind.opposite S⁻¹ := by
  cases a with
  | infinite => exact zero_mem_closure_inv reached
  | closed value =>
    show 1 / value ∈ S⁻¹
    rw [one_div]
    exact Set.inv_mem_inv.2 reached
  | strict value =>
    rw [Interval.invertEndpoint]
    split_ifs with zero
    · subst zero
      exact unbounded_inv reached limits
    · have near := mem_closure_image (continuousAt_inv₀ zero) reached
      rw [Set.image_inv_eq_inv] at near
      show 1 / value ∈ closure S⁻¹
      rw [one_div]
      exact near

/-- The farther of two upper endpoints is reached by the union. -/
theorem reached_fartherUpper (first : a.Reached .upper S) (second : b.Reached .upper T) :
    (Interval.fartherUpper a b).Reached .upper (S ∪ T) := by
  have mono {c : Endpoint} {U : Set Rat} (reached : c.Reached .upper U) (subset : U ⊆ S ∪ T) :
      c.Reached .upper (S ∪ T) := by
    cases c with
    | infinite => exact fun bounded => reached (bounded.mono subset)
    | closed value => exact subset reached
    | strict value => exact closure_mono subset reached
  -- one of the two is chosen, or both sides of an infinity go beyond everything
  have chosen {c d : Endpoint} (from_left : c.Reached .upper (S ∪ T))
      (from_right : d.Reached .upper (S ∪ T)) :
      (Interval.fartherUpper c d).Reached .upper (S ∪ T) := by
    cases c <;> cases d <;> simp only [Interval.fartherUpper, value?] <;> try split_ifs
    all_goals first | exact from_left | exact from_right
  exact chosen (mono first Set.subset_union_left) (mono second Set.subset_union_right)

end Endpoint

/-! ## Corners of products -/

theorem Extended.eq_of_not_lt {x y : Extended} (left : x.lt y = false) (right : y.lt x = false) :
    x = y := by
  cases x <;> cases y <;>
    simp only [lt, decide_eq_false_iff_not, not_lt, Bool.true_eq_false] at left right ⊢
  exact congrArg finite (le_antisymm right left)

namespace Corner

variable {c d : Corner}

/-- The corner belongs to the set, elements of it come arbitrarily close, or the set is unbounded on the
side of an infinite corner. -/
def Reached : Corner → Set Rat → Prop
  | ⟨.finite value, true⟩, S => value ∈ S
  | ⟨.finite value, false⟩, S => value ∈ closure S
  | ⟨.negInfinity, attained⟩, S => attained = false ∧ BoundKind.lower.Unbounded S
  | ⟨.posInfinity, attained⟩, S => attained = false ∧ BoundKind.upper.Unbounded S

theorem reached_ofEndpoint {a : Endpoint} (reached : a.Reached kind S) :
    (ofEndpoint kind a).Reached S := by
  cases a with
  | infinite => cases kind <;> exact ⟨rfl, reached⟩
  | closed value => exact reached
  | strict value => exact reached

theorem reached_toEndpoint (reached : c.Reached S) (limits : ∀ q ∈ S, c.Limits kind q)
    (nonempty : S.Nonempty) : c.toEndpoint.Reached kind S := by
  obtain ⟨q, member⟩ := nonempty
  obtain ⟨point, attained⟩ := c
  cases point with
  | finite value => cases attained <;> exact reached
  | negInfinity =>
    cases kind with
    | lower => exact reached.2
    | upper => exact (limits q member).elim
  | posInfinity =>
    cases kind with
    | lower => exact (limits q member).elim
    | upper => exact reached.2

theorem mem_closure_of_reached {value : Rat} {attained : Bool}
    (reached : Reached ⟨.finite value, attained⟩ S) : value ∈ closure S := by
  cases attained with
  | false => exact reached
  | true => exact subset_closure reached

theorem exists_pos_of_reached (reached : c.Reached S) (positive : 0 < c.point.sign) :
    ∃ p ∈ S, 0 < p := by
  obtain ⟨point, attained⟩ := c
  cases point with
  | negInfinity => cases positive
  | posInfinity => exact not_bddAbove_iff.1 reached.2 0
  | finite value =>
    have above : 0 < value := by
      simp only [Extended.sign] at positive
      grind
    obtain ⟨p, at_p, member⟩ :=
      mem_closure_iff.1 (mem_closure_of_reached reached) (Set.Ioi 0) isOpen_Ioi above
    exact ⟨p, member, at_p⟩

theorem reached_negate (reached : c.Reached S) : c.negate.Reached (-S) := by
  obtain ⟨point, attained⟩ := c
  cases point with
  | negInfinity => exact ⟨reached.1, unbounded_neg.2 reached.2⟩
  | posInfinity => exact ⟨reached.1, unbounded_neg.2 reached.2⟩
  | finite value =>
    cases attained with
    | true => exact Set.neg_mem_neg.2 reached
    | false =>
      exact map_mem_closure continuous_neg reached fun _ member => Set.neg_mem_neg.2 member

theorem exists_neg_of_reached (reached : c.Reached S) (negative : c.point.sign < 0) :
    ∃ p ∈ S, p < 0 := by
  obtain ⟨p, member, positive⟩ := exists_pos_of_reached (reached_negate reached)
    (by rw [negate, Extended.sign_negate]; exact neg_pos.2 negative)
  exact ⟨-p, Set.mem_neg.1 member, neg_neg_of_pos positive⟩

/-- Zero is a product as soon as it is a factor. -/
theorem reached_mul_of_isZero (reached : c.Reached S) (zero : c.isZero = true) (member : q ∈ T) :
    (c.mul d).Reached (S * T) := by
  rw [mul, zero, Bool.true_or, if_pos rfl]
  simp only [isZero, Bool.and_eq_true, decide_eq_true_eq] at zero
  obtain ⟨point, attained⟩ := c
  obtain ⟨sign_zero, rfl⟩ := zero
  cases point with
  | negInfinity => cases sign_zero
  | posInfinity => cases sign_zero
  | finite value =>
    have is_zero : value = 0 := by
      simp only [Extended.sign] at sign_zero
      grind
    exact Set.mem_mul.2 ⟨value, reached, q, member, by rw [is_zero, zero_mul]⟩

/-- The point at infinity on one side. -/
def infinity : BoundKind → Corner
  | .lower => ⟨.negInfinity, false⟩
  | .upper => ⟨.posInfinity, false⟩

theorem reached_infinity : (infinity kind).Reached S ↔ kind.Unbounded S := by
  cases kind <;> exact and_iff_right rfl

/-- An infinite end of one factor makes the product unbounded on the side that the sign of the other end
gives. -/
theorem reached_mul_infinity (reached : c.Reached S) (not_zero : c.isZero = false) (member : q ∈ T)
    (unbounded : kind.Unbounded T) : (c.mul (infinity kind)).Reached (S * T) := by
  have no_zero : (infinity kind).isZero = false := by cases kind <;> rfl
  have product : c.mul (infinity kind) =
      if c.point.sign = 0 then ⟨.finite 0, false⟩
      else if 0 < c.point.sign then infinity kind else infinity kind.opposite := by
    have attained : (infinity kind).attained = false := by cases kind <;> rfl
    rw [mul, not_zero, no_zero, Bool.or_self, if_neg Bool.false_ne_true, attained, Bool.and_false]
    obtain ⟨point, attained⟩ := c
    cases kind <;> cases point <;>
      simp only [infinity, Extended.mul, Extended.sign, BoundKind.opposite] <;> grind
  rw [product]
  split_ifs with sign_zero positive
  · obtain ⟨point, attained⟩ := c
    cases point with
    | negInfinity => cases sign_zero
    | posInfinity => cases sign_zero
    | finite value =>
      have is_zero : value = 0 := by
        simp only [Extended.sign] at sign_zero
        grind
      have near := mem_closure_of_reached reached
      rw [is_zero] at near
      have scaled : 0 * q ∈ closure (S * T) :=
        map_mem_closure₂ continuous_mul near (subset_closure member)
          fun _ at_x _ at_y => Set.mul_mem_mul at_x at_y
      rwa [zero_mul] at scaled
  · obtain ⟨p, at_p, above⟩ := exists_pos_of_reached reached positive
    exact reached_infinity.2 (unbounded_mul_of_pos at_p above unbounded)
  · obtain ⟨p, at_p, below⟩ := exists_neg_of_reached reached
      (lt_of_le_of_ne (not_lt.1 positive) sign_zero)
    exact reached_infinity.2 (unbounded_mul_of_neg at_p below unbounded)

/-- Products reach the product of corners that the factors reach. -/
theorem reached_mul (first : c.Reached S) (second : d.Reached T) (left : S.Nonempty)
    (right : T.Nonempty) : (c.mul d).Reached (S * T) := by
  obtain ⟨p, at_p⟩ := left
  obtain ⟨q, at_q⟩ := right
  cases zero : c.isZero with
  | true => exact reached_mul_of_isZero first zero at_q
  | false =>
    cases zero' : d.isZero with
    | true =>
      rw [mul_swap, mul_comm S]
      exact reached_mul_of_isZero second zero' at_p
    | false =>
      obtain ⟨point, attained⟩ := c
      obtain ⟨point', attained'⟩ := d
      cases point' with
      | negInfinity =>
        obtain ⟨rfl, unbounded⟩ := second
        have product := reached_mul_infinity first zero at_q unbounded
        exact product
      | posInfinity =>
        obtain ⟨rfl, unbounded⟩ := second
        have product := reached_mul_infinity first zero at_q unbounded
        exact product
      | finite y =>
        rw [mul_swap, mul_comm S]
        cases point with
        | negInfinity =>
          obtain ⟨rfl, unbounded⟩ := first
          have product := reached_mul_infinity second zero' at_p unbounded
          exact product
        | posInfinity =>
          obtain ⟨rfl, unbounded⟩ := first
          have product := reached_mul_infinity second zero' at_p unbounded
          exact product
        | finite x =>
          have near : y * x ∈ closure (T * S) :=
            map_mem_closure₂ continuous_mul (mem_closure_of_reached second)
              (mem_closure_of_reached first) fun _ at_y _ at_x => Set.mul_mem_mul at_y at_x
          rw [mul, zero, zero', Bool.or_self, if_neg Bool.false_ne_true]
          cases attained <;> cases attained' <;> first
            | exact near
            | exact Set.mul_mem_mul second first

/-- Of two corners that are reached, the farther one is. -/
theorem reached_farther (first : c.Reached S) (second : d.Reached S) (kind : BoundKind) :
    (c.farther kind d).Reached S := by
  obtain ⟨point, attained⟩ := c
  obtain ⟨point', attained'⟩ := d
  have tie (same : point = point') : Reached ⟨point, attained || attained'⟩ S := by
    subst same
    cases attained with
    | true => exact first
    | false => exact second
  cases kind <;> simp only [farther, reduceCtorEq, if_true, if_false] <;> split_ifs with beyond behind
  · exact second
  · exact first
  · exact tie (Extended.eq_of_not_lt (Bool.eq_false_iff.2 behind) (Bool.eq_false_iff.2 beyond))
  · exact second
  · exact first
  · exact tie (Extended.eq_of_not_lt (Bool.eq_false_iff.2 beyond) (Bool.eq_false_iff.2 behind))

end Corner

/-! ## Hulls -/

namespace Interval

variable {i j k : Interval}

/-- The rationals in an interval. -/
def members (i : Interval) : Set Rat := {q | i.contains q = true}

/-- The interval contains the set, and its endpoints are the exact ends of the set. -/
structure IsHull (i : Interval) (S : Set Rat) : Prop where
  contains : ∀ q ∈ S, i.contains q = true
  lower : i.lower.Ends .lower S
  upper : i.upper.Ends .upper S

theorem isHull_of_reached (contains : ∀ q ∈ S, i.contains q = true)
    (lower : i.lower.Reached .lower S) (upper : i.upper.Reached .upper S) : i.IsHull S where
  contains := contains
  lower := Endpoint.ends_of_reached (fun q member => (contains_iff.1 (contains q member)).1) lower
  upper := Endpoint.ends_of_reached (fun q member => (contains_iff.1 (contains q member)).2) upper

theorem limits_of_le {a : Endpoint} (limits : a.Limits .upper q) (le : p ≤ q) :
    a.Limits .upper p := by
  cases a with
  | infinite => trivial
  | closed value => exact le.trans limits
  | strict value => exact le.trans_lt limits

theorem limits_of_ge {a : Endpoint} (limits : a.Limits .lower p) (le : p ≤ q) :
    a.Limits .lower q := by
  cases a with
  | infinite => trivial
  | closed value => exact le_trans limits le
  | strict value => exact lt_of_lt_of_le limits le

/-- A nonempty interval is the hull of its members. -/
theorem isHull_members (nonempty : i.members.Nonempty) : i.IsHull i.members := by
  obtain ⟨q, member⟩ := nonempty
  obtain ⟨above, below⟩ := contains_iff.1 member
  have from_below {p : Rat} (limits : i.lower.Limits .lower p) (le : p ≤ q) : p ∈ i.members :=
    contains_iff.2 ⟨limits, limits_of_le below le⟩
  have from_above {p : Rat} (limits : i.upper.Limits .upper p) (le : q ≤ p) : p ∈ i.members :=
    contains_iff.2 ⟨limits_of_ge above le, limits⟩
  refine isHull_of_reached (fun _ => id) ?_ ?_
  · cases endpoint : i.lower <;> rw [endpoint] at from_below above
    · rintro ⟨bound, lowest⟩
      have := lowest (from_below (p := min bound q - 1) trivial (by linarith [min_le_right bound q]))
      linarith [min_le_left bound q]
    · exact from_below (le_refl _) above
    · rename_i value
      have near : value ∈ closure (Set.Ioo value q) := by
        rw [closure_Ioo (ne_of_lt above)]
        exact Set.left_mem_Icc.2 (le_of_lt above)
      exact closure_mono (fun x inside => from_below inside.1 inside.2.le) near
  · cases endpoint : i.upper <;> rw [endpoint] at from_above below
    · rintro ⟨bound, highest⟩
      have := highest (from_above (p := max bound q + 1) trivial (by linarith [le_max_right bound q]))
      linarith [le_max_left bound q]
    · exact from_above (le_refl _) below
    · rename_i value
      have near : value ∈ closure (Set.Ioo q value) := by
        rw [closure_Ioo (ne_of_lt below)]
        exact Set.right_mem_Icc.2 (le_of_lt below)
      exact closure_mono (fun x inside => from_above inside.2 inside.1.le) near

/-- Elements of the set lie on both sides of every member of its hull. -/
theorem IsHull.exists_le (hull : i.IsHull S) (member : q ∈ i.members) : ∃ s ∈ S, s ≤ q :=
  hull.lower.exists_le (contains_iff.1 member).1

theorem IsHull.exists_ge (hull : i.IsHull S) (member : q ∈ i.members) : ∃ s ∈ S, q ≤ s :=
  hull.upper.exists_ge (contains_iff.1 member).2

/-- The hull of a set is the hull of any set inside it that reaches as far on both sides. -/
theorem IsHull.of_cofinal (hull : i.IsHull S) (contains : ∀ q ∈ T, i.contains q = true)
    (below : ∀ s ∈ S, ∃ t ∈ T, t ≤ s) (above : ∀ s ∈ S, ∃ t ∈ T, s ≤ t) : i.IsHull T where
  contains := contains
  lower := hull.lower.of_below (fun t member => (contains_iff.1 (contains t member)).1) below
  upper := hull.upper.of_above (fun t member => (contains_iff.1 (contains t member)).2) above

/-! ### Sums and products -/

theorem isHull_add (left : i.members.Nonempty) (right : j.members.Nonempty) :
    (i.add j).IsHull (i.members + j.members) := by
  have first := isHull_members left
  have second := isHull_members right
  refine isHull_of_reached ?_ ?_ ?_
  · rintro _ ⟨p, at_p, q, at_q, rfl⟩
    exact contains_add at_p at_q
  · exact Endpoint.reached_add (first.lower.reached left) (second.lower.reached right) left right
  · exact Endpoint.reached_add (first.upper.reached left) (second.upper.reached right) left right

/-- The product of two intervals is the hull of the products of their members; its ends are among those
of the four corners. -/
theorem isHull_mul (left : i.members.Nonempty) (right : j.members.Nonempty) :
    (i.mul j).IsHull (i.members * j.members) := by
  have first := isHull_members left
  have second := isHull_members right
  have first_lower := Corner.reached_ofEndpoint (first.lower.reached left)
  have first_upper := Corner.reached_ofEndpoint (first.upper.reached left)
  have second_lower := Corner.reached_ofEndpoint (second.lower.reached right)
  have second_upper := Corner.reached_ofEndpoint (second.upper.reached right)
  have extreme (kind : BoundKind) : Corner.toEndpoint
      (((((Corner.ofEndpoint .lower i.lower).mul (.ofEndpoint .lower j.lower)).farther kind
        ((Corner.ofEndpoint .lower i.lower).mul (.ofEndpoint .upper j.upper))).farther kind
        ((Corner.ofEndpoint .upper i.upper).mul (.ofEndpoint .lower j.lower))).farther kind
        ((Corner.ofEndpoint .upper i.upper).mul (.ofEndpoint .upper j.upper))) |>.Reached kind
      (i.members * j.members) := by
    refine Corner.reached_toEndpoint ?_ ?_ (left.mul right)
    · refine Corner.reached_farther (Corner.reached_farther (Corner.reached_farther ?_ ?_ kind) ?_ kind)
        ?_ kind
      · exact Corner.reached_mul first_lower second_lower left right
      · exact Corner.reached_mul first_lower second_upper left right
      · exact Corner.reached_mul first_upper second_lower left right
      · exact Corner.reached_mul first_upper second_upper left right
    · rintro _ ⟨p, at_p, q, at_q, rfl⟩
      exact Corner.limits_extreme
        (Corner.covers_mul kind (around_of_contains at_p) (around_of_contains at_q))
  refine isHull_of_reached ?_ (extreme .lower) (extreme .upper)
  rintro _ ⟨p, at_p, q, at_q, rfl⟩
  exact contains_mul at_p at_q

theorem isHull_scale (nonempty : i.members.Nonempty) (factor : Rat) :
    (i.scale factor).IsHull (factor • i.members) := by
  have alone : (point factor).members = {factor} := by
    ext q
    exact contains_iff.trans ⟨fun ⟨lower, upper⟩ => le_antisymm upper lower,
      fun same => same ▸ ⟨le_refl q, le_refl q⟩⟩
  have hull := isHull_mul nonempty (alone ▸ Set.singleton_nonempty factor)
  rw [alone, mul_comm, Set.singleton_mul] at hull
  exact hull

/-! ### Powers -/

theorem isHull_negate (nonempty : i.members.Nonempty) : i.negate.IsHull (-i.members) := by
  have hull := isHull_members nonempty
  refine isHull_of_reached (fun q member => ?_) ?_ ?_
  · exact neg_neg q ▸ contains_negate member
  · exact Endpoint.reached_map_neg (hull.upper.reached nonempty)
  · exact Endpoint.reached_map_neg (hull.lower.reached nonempty)

/-- An interval that is not known to lie on one side of zero contains it. -/
theorem zero_mem_members (not_above : ¬i.isNonNegative = true) (not_below : ¬i.isNonPositive = true) :
    (0 : Rat) ∈ i.members := by
  refine contains_iff.2 ⟨?_, ?_⟩
  · rw [isNonNegative] at not_above
    cases endpoint : i.lower <;> rw [endpoint] at not_above <;>
      simp only [Endpoint.Limits, Endpoint.value?, Option.any_some, decide_eq_true_eq, not_le]
        at not_above ⊢
    · exact not_above.le
    · exact not_above
  · rw [isNonPositive] at not_below
    cases endpoint : i.upper <;> rw [endpoint] at not_below <;>
      simp only [Endpoint.Limits, Endpoint.value?, Option.any_some, decide_eq_true_eq, not_le]
        at not_below ⊢
    · exact not_below.le
    · exact not_below

/-- The absolute value of an interval is the hull of the absolute values: from zero if the interval
contains it, else from the end closer to it. -/
theorem isHull_abs (nonempty : i.members.Nonempty) : i.abs.IsHull ((|·|) '' i.members) := by
  have contains : ∀ q ∈ (|·|) '' i.members, i.abs.contains q = true := by
    rintro _ ⟨q, member, rfl⟩
    exact contains_abs member
  rw [Interval.abs] at contains ⊢
  split_ifs at contains ⊢ with nonneg nonpos
  · have same : (|·|) '' i.members = i.members :=
      (Set.image_congr fun q member =>
        abs_of_nonneg (nonneg_of_isNonNegative nonneg member)).trans (Set.image_id' _)
    rw [same]
    exact isHull_members nonempty
  · have same : (|·|) '' i.members = -i.members :=
      (Set.image_congr fun q member =>
        abs_of_nonpos (nonpos_of_isNonPositive nonpos member)).trans Set.image_neg_eq_neg
    rw [same]
    exact isHull_negate nonempty
  · have limits (q : Rat) (member : q ∈ (|·|) '' i.members) := contains_iff.1 (contains q member)
    have lower : (Endpoint.closed 0).Reached .lower ((|·|) '' i.members) :=
      ⟨0, zero_mem_members nonneg nonpos, abs_zero⟩
    have upper := Endpoint.reached_fartherUpper
      ((isHull_negate nonempty).upper.reached nonempty.neg)
      ((isHull_members nonempty).upper.reached nonempty)
    refine ⟨contains, Endpoint.ends_of_reached (fun q member => (limits q member).1) lower, ?_⟩
    -- a number or its negation lies below its absolute value, and each of them is the value of some member
    refine (Endpoint.ends_of_reached (fun q member => limits_fartherUpper ?_) upper).of_above
      (fun q member => (limits q member).2) ?_
    · refine member.imp (fun negated => ?_) fun plain => (contains_iff.1 plain).2
      exact (contains_iff.1 ((isHull_negate nonempty).contains q negated)).2
    · rintro s (negated | plain)
      · exact ⟨|-s|, Set.mem_image_of_mem _ negated, abs_neg s ▸ le_abs_self s⟩
      · exact ⟨|s|, Set.mem_image_of_mem _ plain, le_abs_self s⟩

/-- A product of members of a nonnegative interval lies between the powers of its least and of its
greatest factor, so multiplying an interval by itself loses nothing. -/
theorem isHull_mulSelf (nonempty : i.members.Nonempty) (nonneg : ∀ q ∈ i.members, 0 ≤ q)
    (count : Nat) : (i.mulSelf count).IsHull ((· ^ (count + 1)) '' i.members) := by
  induction count with
  | zero => simpa [mulSelf] using isHull_members nonempty
  | succ count ih =>
    obtain ⟨q, member⟩ := nonempty
    have product := isHull_mul (i := i.mulSelf count) (j := i)
      ⟨_, contains_mulSelf member count⟩ ⟨q, member⟩
    refine product.of_cofinal ?_ ?_ ?_
    · rintro _ ⟨x, at_x, rfl⟩
      exact contains_mulSelf at_x (count + 1)
    · rintro _ ⟨a, at_a, x, at_x, rfl⟩
      obtain ⟨_, ⟨y, at_y, rfl⟩, le⟩ := ih.exists_le at_a
      have least : min y x ∈ i.members := by rcases min_choice y x with same | same <;> rwa [same]
      refine ⟨_, Set.mem_image_of_mem _ least, ?_⟩
      calc min y x ^ (count + 1 + 1) = min y x ^ (count + 1) * min y x := pow_succ _ _
        _ ≤ y ^ (count + 1) * x :=
          mul_le_mul (pow_le_pow_left₀ (nonneg _ least) (min_le_left y x) _) (min_le_right y x)
            (nonneg _ least) (pow_nonneg (nonneg y at_y) _)
        _ ≤ a * x := mul_le_mul_of_nonneg_right le (nonneg x at_x)
    · rintro _ ⟨a, at_a, x, at_x, rfl⟩
      obtain ⟨_, ⟨y, at_y, rfl⟩, le⟩ := ih.exists_ge at_a
      have greatest : max y x ∈ i.members := by
        rcases max_choice y x with same | same <;> rwa [same]
      refine ⟨_, Set.mem_image_of_mem _ greatest, ?_⟩
      calc a * x ≤ y ^ (count + 1) * x := mul_le_mul_of_nonneg_right le (nonneg x at_x)
        _ ≤ max y x ^ (count + 1) * max y x :=
          mul_le_mul (pow_le_pow_left₀ (nonneg y at_y) (le_max_left y x) _) (le_max_right y x)
            (nonneg x at_x) (pow_nonneg (nonneg _ greatest) _)
        _ = max y x ^ (count + 1 + 1) := (pow_succ _ _).symm

/-- A power of an interval is the hull of the powers. Odd exponents keep the order of the ends, even
ones are powers of the absolute value. -/
theorem isHull_power (nonempty : i.members.Nonempty) {exponent : Nat} (positive : exponent ≠ 0) :
    (i.power exponent).IsHull ((· ^ exponent) '' i.members) := by
  have contains : ∀ q ∈ (· ^ exponent) '' i.members, (i.power exponent).contains q = true := by
    rintro _ ⟨q, member, rfl⟩
    exact contains_power member positive
  rw [power] at contains ⊢
  split_ifs at contains ⊢ with odd
  · have hull := isHull_members nonempty
    have odd := Nat.odd_iff.2 odd
    exact isHull_of_reached contains (Endpoint.reached_map_pow odd (hull.lower.reached nonempty))
      (Endpoint.reached_map_pow odd (hull.upper.reached nonempty))
  · have even : Even exponent := Nat.not_odd_iff_even.1 fun is_odd => odd (Nat.odd_iff.1 is_odd)
    have hull := isHull_abs nonempty
    have nonneg (q : Rat) (member : q ∈ i.abs.members) : 0 ≤ q := by
      obtain ⟨_, ⟨x, -, rfl⟩, le⟩ := hull.exists_le member
      exact (abs_nonneg x).trans le
    obtain ⟨q, member⟩ := nonempty
    have powers := isHull_mulSelf ⟨_, contains_abs member⟩ nonneg (exponent - 1)
    rw [Nat.sub_add_cancel (Nat.one_le_iff_ne_zero.2 positive)] at powers
    refine powers.of_cofinal contains ?_ ?_
    · rintro _ ⟨y, at_y, rfl⟩
      obtain ⟨_, ⟨x, at_x, rfl⟩, le⟩ := hull.exists_le at_y
      refine ⟨_, Set.mem_image_of_mem _ at_x, ?_⟩
      exact (even.pow_abs x).symm.le.trans (pow_le_pow_left₀ (abs_nonneg x) le exponent)
    · rintro _ ⟨y, at_y, rfl⟩
      obtain ⟨_, ⟨x, at_x, rfl⟩, le⟩ := hull.exists_ge at_y
      refine ⟨_, Set.mem_image_of_mem _ at_x, ?_⟩
      exact (pow_le_pow_left₀ (nonneg y at_y) le exponent).trans (even.pow_abs x).le

/-! ### Reciprocals -/

theorem isSome_inverse : i.inverse.isSome = true ↔ (0 : Rat) ∉ i.members := by
  show _ ↔ ¬i.contains 0 = true
  rw [inverse]
  split_ifs with member <;> simp [member]

theorem isHull_inverse (nonempty : i.members.Nonempty) (found : i.inverse = some k) :
    k.IsHull (i.members)⁻¹ := by
  have hull := isHull_members nonempty
  have contains : ∀ q ∈ (i.members)⁻¹, k.contains q = true := by
    intro q member
    have := (contains_inverse member found).2
    rwa [one_div, inv_inv] at this
  rw [inverse, Option.ite_none_left_eq_some] at found
  obtain ⟨-, found⟩ := found
  obtain rfl := Option.some.inj found
  exact isHull_of_reached contains
    (Endpoint.reached_invertEndpoint (hull.upper.reached nonempty) fun q => hull.upper.limits)
    (Endpoint.reached_invertEndpoint (hull.lower.reached nonempty) fun q => hull.lower.limits)

/-! ## The main statement -/

/-- For nonempty intervals every operation yields the hull of its results: it contains them, a finite
endpoint is their exact infimum or supremum and is closed exactly if it is attained, and an endpoint is
infinite exactly if they are unbounded on its side. A reciprocal exists exactly if zero is excluded. -/
theorem operations_exact (left : i.members.Nonempty) (right : j.members.Nonempty) :
    (i.add j).IsHull (i.members + j.members) ∧
      (i.mul j).IsHull (i.members * j.members) ∧
      (∀ factor, (i.scale factor).IsHull (factor • i.members)) ∧
      (∀ exponent, 1 ≤ exponent → (i.power exponent).IsHull ((· ^ exponent) '' i.members)) ∧
      (i.inverse.isSome = true ↔ (0 : Rat) ∉ i.members) ∧
      ∀ k, i.inverse = some k → k.IsHull (i.members)⁻¹ :=
  ⟨isHull_add left right, isHull_mul left right, isHull_scale left,
    fun _ positive => isHull_power left (Nat.one_le_iff_ne_zero.1 positive), isSome_inverse,
    fun _ found => isHull_inverse left found⟩

/-- A strict zero next to a positive number, and everything from minus one on. -/
theorem operations_exact_open_zero :
    (Interval.mul ⟨.strict 0, .closed 2⟩ ⟨.closed (-1), .infinite⟩).IsHull
      (members ⟨.strict 0, .closed 2⟩ * members ⟨.closed (-1), .infinite⟩) ∧
      Interval.mul ⟨.strict 0, .closed 2⟩ ⟨.closed (-1), .infinite⟩ = ⟨.closed (-2), .infinite⟩ := by
  refine ⟨(operations_exact ⟨1, ?_⟩ ⟨0, ?_⟩).2.1, by cbv⟩
  · show contains _ _ = true
    decide
  · show contains _ _ = true
    decide

end Interval

end ArithDecide
