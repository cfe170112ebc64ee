import Mathlib.Algebra.Order.Field.Power
import Mathlib.Algebra.Order.Ring.Abs
import Mathlib.Tactic.GCongr
import ArithDecide.Interval
import ArithDecide.Proofs.Invariant

/-!
# Interval operations enclose

Every operation on intervals yields an interval that contains the results for all members. For a
product one of the four products of corners lies beyond the product of the members: the upper side is
the lower side of the negated product, and negating both factors leaves one with the signs of the
factors to tell apart.
-/

namespace ArithDecide

/-! ## Endpoints -/

namespace Endpoint

/-- The rational lies on the inner side of an endpoint of the given side. -/
def Limits : BoundKind → Endpoint → Rat → Prop
  | _, .infinite, _ => True
  | .lower, .closed value, q => value ≤ q
  | .lower, .strict value, q => value < q
  | .upper, .closed value, q => q ≤ value
  | .upper, .strict value, q => q < value

variable {kind : BoundKind} {p q : Rat} {a b : Endpoint}

/-- A bound limits what the endpoint that stands for it limits. -/
theorem limits_ofBound {value : InfRat} (admits : kind.admits value (.ofRat q) = true) :
    (ofBound kind value).Limits kind q := by
  cases kind with
  | lower =>
    have above := InfRat.le_ofRat.1 (BoundKind.admits_lower.1 admits)
    simp only [ofBound]
    split_ifs with zero positive negative
    · rwa [zero, if_neg (lt_irrefl _)] at above
    · rwa [if_pos positive.2] at above
    · cases negative.1
    · trivial
  | upper =>
    have below := InfRat.ofRat_le_iff.1 (BoundKind.admits_upper.1 admits)
    simp only [ofBound]
    split_ifs with zero positive negative
    · rwa [zero, if_neg (lt_irrefl _)] at below
    · cases positive.1
    · rwa [if_pos negative.2] at below
    · trivial

theorem admits_toBound {bound : InfRat} (limits : a.Limits kind q)
    (found : a.toBound kind = some bound) : kind.admits bound (.ofRat q) = true := by
  cases a with
  | infinite => cases found
  | closed value =>
    obtain rfl := Option.some.inj found
    cases kind with
    | lower => exact BoundKind.admits_lower.2 (InfRat.ofRat_le.2 limits)
    | upper => exact BoundKind.admits_upper.2 (InfRat.ofRat_le.2 limits)
  | strict value =>
    obtain rfl := Option.some.inj found
    cases kind with
    | lower => exact BoundKind.admits_lower.2 (.inl limits)
    | upper => exact BoundKind.admits_upper.2 (.inl limits)

theorem coherent_toBound {bound : InfRat} (found : a.toBound kind = some bound) :
    kind.Coherent bound := by
  cases a with
  | infinite => cases found
  | closed value =>
    obtain rfl := Option.some.inj found
    cases kind <;> exact le_refl (0 : Rat)
  | strict value =>
    obtain rfl := Option.some.inj found
    cases kind with
    | lower => exact zero_le_one
    | upper => exact neg_nonpos.2 zero_le_one

theorem limits_add (first : a.Limits kind p) (second : b.Limits kind q) :
    (a.add b).Limits kind (p + q) := by
  cases kind <;> cases a <;> cases b <;>
    simp only [Limits, add, value?, isClosed, Bool.and_self, Bool.and_false, Bool.false_and,
      Bool.false_eq_true, if_true, if_false] at first second ⊢ <;> linarith

theorem limits_map_neg (limits : a.Limits kind q) : (a.map (- ·)).Limits kind.opposite (-q) := by
  cases kind <;> cases a <;>
    simp only [Limits, map, BoundKind.opposite] at limits ⊢ <;> linarith

theorem limits_map_of_strictMono {f : Rat → Rat} (mono : StrictMono f) (limits : a.Limits kind q) :
    (a.map f).Limits kind (f q) := by
  cases kind <;> cases a <;> simp only [Limits, map] at limits ⊢
  · exact mono.monotone limits
  · exact mono limits
  · exact mono.monotone limits
  · exact mono limits

end Endpoint

/-! ## Corners -/

namespace Extended

/-- The mirror image of a point. -/
def negate : Extended → Extended
  | negInfinity => posInfinity
  | finite value => finite (-value)
  | posInfinity => negInfinity

theorem sign_negate (p : Extended) : p.negate.sign = -p.sign := by
  cases p with
  | negInfinity => rfl
  | posInfinity => rfl
  | finite value =>
    simp only [negate, sign]
    grind

/-- The point that a product with an infinity is, by its sign. -/
def ofSign (n : Int) : Extended :=
  if n = 0 then finite 0 else if 0 < n then posInfinity else negInfinity

theorem ofSign_neg (n : Int) : ofSign (-n) = (ofSign n).negate := by
  rcases lt_trichotomy n 0 with negative | rfl | positive
  · simp [ofSign, negate, negative, negative.ne, negative.not_gt]
  · simp [ofSign, negate]
  · simp [ofSign, negate, positive, positive.ne', positive.not_gt]

theorem negate_mul (p q : Extended) : p.negate.mul q = (p.mul q).negate := by
  have infinite (r : Extended) (signs : r.sign = -p.sign) :
      ofSign (r.sign * q.sign) = (ofSign (p.sign * q.sign)).negate := by
    rw [signs, neg_mul, ofSign_neg]
  have signs := sign_negate p
  cases p with
  | negInfinity => cases q <;> exact infinite _ signs
  | posInfinity => cases q <;> exact infinite _ signs
  | finite a =>
    cases q with
    | finite b => exact congrArg finite (neg_mul a b)
    | negInfinity => exact infinite _ signs
    | posInfinity => exact infinite _ signs

end Extended

namespace Corner

variable {kind : BoundKind} {p q : Rat} {c d : Corner}

/-- The rational lies on the inner side of the corner. -/
def Limits : BoundKind → Corner → Rat → Prop
  | .lower, ⟨.negInfinity, _⟩, _ => True
  | .lower, ⟨.finite value, attained⟩, q => if attained then value ≤ q else value < q
  | .lower, ⟨.posInfinity, _⟩, _ => False
  | .upper, ⟨.posInfinity, _⟩, _ => True
  | .upper, ⟨.finite value, attained⟩, q => if attained then q ≤ value else q < value
  | .upper, ⟨.negInfinity, _⟩, _ => False

theorem limits_ofEndpoint {a : Endpoint} (limits : a.Limits kind q) :
    (ofEndpoint kind a).Limits kind q := by
  cases kind <;> cases a <;> simp_all [Limits, ofEndpoint, Endpoint.Limits]

theorem limits_toEndpoint (limits : c.Limits kind q) : c.toEndpoint.Limits kind q := by
  obtain ⟨point, attained⟩ := c
  cases kind <;> cases point <;> cases attained <;>
    simp_all [Limits, toEndpoint, Endpoint.Limits]

/-- Of two corners the farther one limits what either of them limits. -/
theorem limits_farther (limits : c.Limits kind q ∨ d.Limits kind q) :
    (c.farther kind d).Limits kind q := by
  obtain ⟨point, attained⟩ := c
  obtain ⟨point', attained'⟩ := d
  cases kind <;> cases point <;> cases point' <;>
    simp only [farther, Limits, Extended.lt] at limits ⊢ <;> grind [Limits]

/-! ### Negation -/

/-- The mirror image of a corner. -/
def negate (c : Corner) : Corner := ⟨c.point.negate, c.attained⟩

theorem limits_negate : c.negate.Limits kind (-q) ↔ c.Limits kind.opposite q := by
  obtain ⟨point, attained⟩ := c
  cases kind <;> cases point <;>
    simp [negate, Extended.negate, Limits, BoundKind.opposite, neg_le_neg_iff, neg_lt_neg_iff]

theorem isZero_negate (c : Corner) : c.negate.isZero = c.isZero := by
  simp [isZero, negate, Extended.sign_negate]

theorem negate_negate (c : Corner) : c.negate.negate = c := by
  obtain ⟨point, attained⟩ := c
  cases point <;> simp [negate, Extended.negate]

theorem negate_mul (c d : Corner) : c.negate.mul d = (c.mul d).negate := by
  rw [mul, mul, isZero_negate]
  split
  · simp [negate, Extended.negate]
  · simp [negate, Extended.negate_mul]

theorem mul_swap (c d : Corner) : c.mul d = d.mul c := by
  have points (p q : Extended) : p.mul q = q.mul p := by
    cases p <;> cases q <;> simp only [Extended.mul, mul_comm]
  rw [mul, mul, Bool.or_comm, Bool.and_comm, points]

theorem negate_mul_negate (c d : Corner) : c.negate.mul d.negate = c.mul d := by
  rw [negate_mul, mul_swap, negate_mul, negate_negate, mul_swap]

/-! ### Signs -/

theorem sign_pos_of_upper (limits : c.Limits .upper q) (positive : 0 < q) : 0 < c.point.sign := by
  obtain ⟨point, attained⟩ := c
  cases point <;> simp only [Limits, Extended.sign] at limits ⊢ <;> grind

theorem sign_neg_of_lower (limits : c.Limits .lower q) (negative : q < 0) : c.point.sign < 0 := by
  obtain ⟨point, attained⟩ := c
  cases point <;> simp only [Limits, Extended.sign] at limits ⊢ <;> grind

/-- An upper corner of zero is an attained zero or lies above it. -/
theorem isZero_or_sign_pos (limits : c.Limits .upper 0) : c.isZero = true ∨ 0 < c.point.sign := by
  obtain ⟨point, attained⟩ := c
  cases point <;> simp only [Limits, isZero, Extended.sign] at limits ⊢ <;> grind

theorem isZero_or_sign_neg (limits : c.Limits .lower 0) : c.isZero = true ∨ c.point.sign < 0 := by
  obtain ⟨point, attained⟩ := c
  cases point <;> simp only [Limits, isZero, Extended.sign] at limits ⊢ <;> grind

theorem limits_mul_of_isZero (zero : c.isZero = true) (nonneg : 0 ≤ q) (d : Corner) :
    (c.mul d).Limits .lower q := by
  rw [mul, zero, Bool.true_or, if_pos rfl]
  exact nonneg

/-- A product of corners on different sides of zero lies below anything that is not negative. -/
theorem limits_mul_of_signs (above : 0 < c.point.sign) (below : d.point.sign < 0) (nonneg : 0 ≤ q) :
    (c.mul d).Limits .lower q := by
  have not_zero : (c.isZero || d.isZero) = false := by
    simp [isZero, above.ne', below.ne]
  obtain ⟨point, attained⟩ := c
  obtain ⟨point', attained'⟩ := d
  rw [mul, not_zero, if_neg Bool.false_ne_true]
  have product : ¬point.sign * point'.sign = 0 ∧ ¬0 < point.sign * point'.sign :=
    ⟨(mul_neg_of_pos_of_neg above below).ne, (mul_neg_of_pos_of_neg above below).not_gt⟩
  cases point with
  | negInfinity => cases above
  | posInfinity =>
    cases point' <;> simp only [Extended.mul, if_neg product.1, if_neg product.2, Limits]
  | finite a =>
    cases point' with
    | negInfinity => simp only [Extended.mul, if_neg product.1, if_neg product.2, Limits]
    | posInfinity => cases below
    | finite b =>
      have a_pos : 0 < a := by
        simp only [Extended.sign] at above
        grind
      have b_neg : b < 0 := by
        simp only [Extended.sign] at below
        grind
      have less : a * b < q := (mul_neg_of_pos_of_neg a_pos b_neg).trans_le nonneg
      cases attained <;> cases attained' <;> simp [Extended.mul, Limits, less, less.le]

/-! ### Products -/

/-- Corners beyond two numbers of different signs have a product beyond theirs. -/
theorem limits_mul_of_pos_of_neg (first : c.Limits .upper p) (second : d.Limits .lower q)
    (positive : 0 < p) (negative : q < 0) : (c.mul d).Limits .lower (p * q) := by
  have above := sign_pos_of_upper first positive
  have below := sign_neg_of_lower second negative
  have not_zero : (c.isZero || d.isZero) = false := by
    simp [isZero, above.ne', below.ne]
  obtain ⟨point, attained⟩ := c
  obtain ⟨point', attained'⟩ := d
  rw [mul, not_zero, if_neg Bool.false_ne_true]
  have product : ¬point.sign * point'.sign = 0 ∧ ¬0 < point.sign * point'.sign :=
    ⟨(mul_neg_of_pos_of_neg above below).ne, (mul_neg_of_pos_of_neg above below).not_gt⟩
  cases point with
  | negInfinity => cases above
  | posInfinity =>
    cases point' <;> simp only [Extended.mul, if_neg product.1, if_neg product.2, Limits]
  | finite a =>
    cases point' with
    | negInfinity => simp only [Extended.mul, if_neg product.1, if_neg product.2, Limits]
    | posInfinity => cases below
    | finite b =>
      simp only [Limits] at first second
      simp only [Extended.mul, Limits]
      cases attained <;> cases attained' <;>
        simp only [Bool.and_self, Bool.and_false, Bool.false_and, Bool.false_eq_true, if_true,
          if_false] at first second ⊢ <;> nlinarith

/-- Corners between zero and two positive numbers have a product below theirs. -/
theorem limits_mul_of_nonneg (first : c.Limits .lower p) (second : d.Limits .lower q)
    (p_pos : 0 < p) (q_pos : 0 < q) (above : 0 ≤ c.point.sign) (above' : 0 ≤ d.point.sign) :
    (c.mul d).Limits .lower (p * q) := by
  obtain ⟨point, attained⟩ := c
  obtain ⟨point', attained'⟩ := d
  cases point with
  | negInfinity => simp [Extended.sign] at above
  | posInfinity => exact absurd first id
  | finite a =>
    cases point' with
    | negInfinity => simp [Extended.sign] at above'
    | posInfinity => exact absurd second id
    | finite b =>
      have a_nonneg : 0 ≤ a := by
        simp only [Extended.sign] at above
        grind
      have b_nonneg : 0 ≤ b := by
        simp only [Extended.sign] at above'
        grind
      rw [mul]
      split
      · exact (mul_pos p_pos q_pos).le
      · simp only [Limits] at first second
        simp only [Extended.mul, Limits]
        cases attained <;> cases attained' <;>
          simp only [Bool.and_self, Bool.and_false, Bool.false_and, Bool.false_eq_true, if_true,
            if_false] at first second ⊢ <;> nlinarith

/-- Corners on both sides of a number. -/
structure Around (lower upper : Corner) (q : Rat) : Prop where
  lower : lower.Limits .lower q
  upper : upper.Limits .upper q

variable {l u l' u' : Corner}

theorem Around.negate (around : Around l u p) : Around u.negate l.negate (-p) :=
  ⟨limits_negate.2 around.upper, limits_negate.2 around.lower⟩

/-- One of the products of the corners lies on the given side of the product. -/
def Covers (kind : BoundKind) (l u l' u' : Corner) (x : Rat) : Prop :=
  ∃ c ∈ [l, u], ∃ d ∈ [l', u'], (c.mul d).Limits kind x

/-- A positive product of two members is at least the least product of two corners: move one factor to
an end, then the other. -/
theorem covers_of_pos (first : Around l u p) (second : Around l' u' q) (positive : 0 < p) :
    Covers .lower l u l' u' (p * q) := by
  have u_pos := sign_pos_of_upper first.upper positive
  rcases lt_trichotomy q 0 with negative | rfl | q_pos
  · exact ⟨u, by simp, l', by simp,
      limits_mul_of_pos_of_neg first.upper second.lower positive negative⟩
  · rw [mul_zero]
    rcases isZero_or_sign_neg second.lower with zero | below
    · exact ⟨l, by simp, l', by simp, mul_swap l' l ▸ limits_mul_of_isZero zero le_rfl l⟩
    · exact ⟨u, by simp, l', by simp, limits_mul_of_signs u_pos below le_rfl⟩
  · have nonneg := (mul_pos positive q_pos).le
    have u'_pos := sign_pos_of_upper second.upper q_pos
    by_cases above : 0 ≤ l.point.sign
    · by_cases above' : 0 ≤ l'.point.sign
      · exact ⟨l, by simp, l', by simp,
          limits_mul_of_nonneg first.lower second.lower positive q_pos above above'⟩
      · exact ⟨u, by simp, l', by simp, limits_mul_of_signs u_pos (not_le.1 above') nonneg⟩
    · exact ⟨l, by simp, u', by simp,
        mul_swap u' l ▸ limits_mul_of_signs u'_pos (not_le.1 above) nonneg⟩

/-- A product that is zero lies above the corner of two ends of different signs, or of an end that is
zero. -/
theorem covers_of_zero (first : Around l u 0) (second : Around l' u' q) :
    Covers .lower l u l' u' (0 * q) := by
  rw [zero_mul]
  rcases isZero_or_sign_neg first.lower with zero | below
  · exact ⟨l, by simp, l', by simp, limits_mul_of_isZero zero le_rfl l'⟩
  rcases lt_trichotomy q 0 with negative | rfl | positive
  · have below' := sign_neg_of_lower second.lower negative
    rcases isZero_or_sign_pos first.upper with zero | above
    · exact ⟨u, by simp, l', by simp, limits_mul_of_isZero zero le_rfl l'⟩
    · exact ⟨u, by simp, l', by simp, limits_mul_of_signs above below' le_rfl⟩
  · rcases isZero_or_sign_pos second.upper with zero | above
    · exact ⟨l, by simp, u', by simp, mul_swap u' l ▸ limits_mul_of_isZero zero le_rfl l⟩
    · exact ⟨l, by simp, u', by simp, mul_swap u' l ▸ limits_mul_of_signs above below le_rfl⟩
  · exact ⟨l, by simp, u', by simp, mul_swap u' l ▸
      limits_mul_of_signs (sign_pos_of_upper second.upper positive) below le_rfl⟩

theorem covers_lower (first : Around l u p) (second : Around l' u' q) :
    Covers .lower l u l' u' (p * q) := by
  rcases lt_trichotomy p 0 with negative | rfl | positive
  · obtain ⟨c, at_c, d, at_d, limits⟩ :=
      covers_of_pos first.negate second.negate (neg_pos.2 negative)
    rw [neg_mul_neg] at limits
    have back {x y : Corner} (member : c ∈ [y.negate, x.negate]) : c.negate ∈ [x, y] := by
      rcases List.mem_pair.1 member with rfl | rfl <;> simp [negate_negate]
    have back' {x y : Corner} (member : d ∈ [y.negate, x.negate]) : d.negate ∈ [x, y] := by
      rcases List.mem_pair.1 member with rfl | rfl <;> simp [negate_negate]
    exact ⟨c.negate, back at_c, d.negate, back' at_d, (negate_mul_negate c d).symm ▸ limits⟩
  · exact covers_of_zero first second
  · exact covers_of_pos first second positive

theorem covers_mul (kind : BoundKind) (first : Around l u p) (second : Around l' u' q) :
    Covers kind l u l' u' (p * q) := by
  cases kind with
  | lower => exact covers_lower first second
  | upper =>
    obtain ⟨c, at_c, d, at_d, limits⟩ := covers_lower first.negate second
    refine ⟨c.negate, ?_, d, at_d, ?_⟩
    · rcases List.mem_pair.1 at_c with rfl | rfl <;> simp [negate_negate]
    · rw [← negate_negate c, negate_mul, neg_mul] at limits
      exact limits_negate.1 limits

/-- The extreme of the four products covers the product. -/
theorem limits_extreme {kind : BoundKind} {x : Rat} (covers : Covers kind l u l' u' x) :
    ((((l.mul l').farther kind (l.mul u')).farther kind (u.mul l')).farther kind
      (u.mul u')).Limits kind x := by
  obtain ⟨c, at_c, d, at_d, limits⟩ := covers
  rcases List.mem_pair.1 at_c with rfl | rfl <;> rcases List.mem_pair.1 at_d with rfl | rfl
  · exact limits_farther (.inl (limits_farther (.inl (limits_farther (.inl limits)))))
  · exact limits_farther (.inl (limits_farther (.inl (limits_farther (.inr limits)))))
  · exact limits_farther (.inl (limits_farther (.inr limits)))
  · exact limits_farther (.inr limits)

end Corner

/-! ## Intervals -/

namespace Interval

variable {i j k : Interval} {p q : Rat}

theorem contains_iff : i.contains q = true ↔ i.lower.Limits .lower q ∧ i.upper.Limits .upper q := by
  rw [contains, Bool.and_eq_true, aboveLower, belowUpper]
  cases i.lower <;> cases i.upper <;> simp [Endpoint.Limits]

theorem around_of_contains (member : i.contains q = true) :
    Corner.Around (.ofEndpoint .lower i.lower) (.ofEndpoint .upper i.upper) q :=
  ⟨Corner.limits_ofEndpoint (contains_iff.1 member).1,
    Corner.limits_ofEndpoint (contains_iff.1 member).2⟩

theorem contains_point (q : Rat) : (point q).contains q = true :=
  contains_iff.2 ⟨le_refl q, le_refl q⟩

theorem contains_add (first : i.contains p = true) (second : j.contains q = true) :
    (i.add j).contains (p + q) = true := by
  rw [contains_iff] at first second ⊢
  exact ⟨Endpoint.limits_add first.1 second.1, Endpoint.limits_add first.2 second.2⟩

theorem contains_mul (first : i.contains p = true) (second : j.contains q = true) :
    (i.mul j).contains (p * q) = true := by
  have covers (kind : BoundKind) :=
    Corner.covers_mul kind (around_of_contains first) (around_of_contains second)
  exact contains_iff.2 ⟨Corner.limits_toEndpoint (Corner.limits_extreme (covers .lower)),
    Corner.limits_toEndpoint (Corner.limits_extreme (covers .upper))⟩

theorem contains_scale (factor : Rat) (member : i.contains q = true) :
    (i.scale factor).contains (q * factor) = true :=
  contains_mul member (contains_point factor)

theorem contains_negate (member : i.contains q = true) : i.negate.contains (-q) = true := by
  rw [contains_iff] at member ⊢
  exact ⟨Endpoint.limits_map_neg member.2, Endpoint.limits_map_neg member.1⟩

theorem nonneg_of_isNonNegative (nonneg : i.isNonNegative = true) (member : i.contains q = true) :
    0 ≤ q := by
  obtain ⟨lower, -⟩ := contains_iff.1 member
  rw [isNonNegative] at nonneg
  cases endpoint : i.lower with
  | infinite => simp [endpoint, Endpoint.value?] at nonneg
  | closed value =>
    rw [endpoint] at lower nonneg
    exact le_trans (of_decide_eq_true nonneg) lower
  | strict value =>
    rw [endpoint] at lower nonneg
    exact (lt_of_le_of_lt (of_decide_eq_true nonneg) lower).le

theorem nonpos_of_isNonPositive (nonpos : i.isNonPositive = true) (member : i.contains q = true) :
    q ≤ 0 := by
  obtain ⟨-, upper⟩ := contains_iff.1 member
  rw [isNonPositive] at nonpos
  cases endpoint : i.upper with
  | infinite => simp [endpoint, Endpoint.value?] at nonpos
  | closed value =>
    rw [endpoint] at upper nonpos
    exact le_trans upper (of_decide_eq_true nonpos)
  | strict value =>
    rw [endpoint] at upper nonpos
    exact (lt_of_lt_of_le upper (of_decide_eq_true nonpos)).le

/-- The farther of two upper endpoints limits what either of them limits. -/
theorem limits_fartherUpper {a b : Endpoint} (limits : a.Limits .upper q ∨ b.Limits .upper q) :
    (fartherUpper a b).Limits .upper q := by
  cases a <;> cases b <;> simp only [fartherUpper, Endpoint.value?, Endpoint.isClosed,
    Endpoint.Limits] at limits ⊢ <;> grind [Endpoint.Limits]

theorem contains_abs (member : i.contains q = true) : i.abs.contains |q| = true := by
  rw [Interval.abs]
  split
  · rename_i nonneg
    rwa [abs_of_nonneg (nonneg_of_isNonNegative nonneg member)]
  split
  · rename_i nonpos
    rw [abs_of_nonpos (nonpos_of_isNonPositive nonpos member)]
    exact contains_negate member
  · refine contains_iff.2 ⟨abs_nonneg q, limits_fartherUpper ?_⟩
    rcases abs_choice q with same | same <;> rw [same]
    · exact .inr (contains_iff.1 member).2
    · exact .inl (contains_iff.1 (contains_negate member)).2

theorem contains_mulSelf (member : i.contains q = true) (count : Nat) :
    (i.mulSelf count).contains (q ^ (count + 1)) = true := by
  induction count with
  | zero => rwa [pow_one]
  | succ count ih =>
    rw [pow_succ]
    exact contains_mul ih member

theorem contains_power (member : i.contains q = true) {exponent : Nat} (positive : exponent ≠ 0) :
    (i.power exponent).contains (q ^ exponent) = true := by
  rw [power]
  split
  · rename_i odd
    have mono : StrictMono fun x : Rat => x ^ exponent := (Nat.odd_iff.2 odd).strictMono_pow
    rw [contains_iff] at member ⊢
    exact ⟨Endpoint.limits_map_of_strictMono mono member.1,
      Endpoint.limits_map_of_strictMono mono member.2⟩
  · rename_i not_odd
    have even : Even exponent := Nat.not_odd_iff_even.1 fun odd => not_odd (Nat.odd_iff.1 odd)
    have powers := contains_mulSelf (contains_abs member) (exponent - 1)
    rwa [Nat.sub_add_cancel (Nat.one_le_iff_ne_zero.2 positive), even.pow_abs] at powers

/-- The side of an interval that excludes zero gives its members a sign, and the reciprocals with
it. -/
theorem contains_inverse (member : i.contains q = true) (found : i.inverse = some j) :
    q ≠ 0 ∧ j.contains (1 / q) = true := by
  obtain ⟨lower, upper⟩ := contains_iff.1 member
  rw [inverse, Option.ite_none_left_eq_some] at found
  obtain ⟨excluded, found⟩ := found
  obtain rfl := Option.some.inj found
  rw [contains_iff, not_and_or] at excluded
  rw [contains_iff]
  rcases excluded with above | below
  · have positive : 0 < q := by
      cases endpoint : i.lower <;> rw [endpoint] at lower above <;>
        simp only [Endpoint.Limits, not_true_eq_false, not_le, not_lt] at lower above <;> linarith
    refine ⟨positive.ne', ?_, ?_⟩
    · cases endpoint : i.upper <;> rw [endpoint] at upper <;>
        simp only [Endpoint.Limits, invertEndpoint] at upper ⊢
      · exact one_div_pos.2 positive
      · exact one_div_le_one_div_of_le positive upper
      · rw [if_neg (positive.trans upper).ne']
        exact one_div_lt_one_div_of_lt positive upper
    · cases endpoint : i.lower <;> rw [endpoint] at lower above <;>
        simp only [Endpoint.Limits, invertEndpoint, not_true_eq_false, not_le, not_lt]
          at lower above ⊢
      · exact one_div_le_one_div_of_le above lower
      · split_ifs with zero
        · trivial
        · exact one_div_lt_one_div_of_lt (lt_of_le_of_ne above (Ne.symm zero)) lower
  · have negative : q < 0 := by
      cases endpoint : i.upper <;> rw [endpoint] at upper below <;>
        simp only [Endpoint.Limits, not_true_eq_false, not_le, not_lt] at upper below <;> linarith
    refine ⟨negative.ne, ?_, ?_⟩
    · cases endpoint : i.upper <;> rw [endpoint] at upper below <;>
        simp only [Endpoint.Limits, invertEndpoint, not_true_eq_false, not_le, not_lt]
          at upper below ⊢
      · exact one_div_le_one_div_of_neg_of_le below upper
      · split_ifs with zero
        · trivial
        · exact one_div_lt_one_div_of_neg_of_lt (lt_of_le_of_ne below zero) upper
    · cases endpoint : i.lower <;> rw [endpoint] at lower <;>
        simp only [Endpoint.Limits, invertEndpoint] at lower ⊢
      · exact one_div_neg.2 negative
      · exact one_div_le_one_div_of_neg_of_le negative lower
      · rw [if_neg (lower.trans negative).ne]
        exact one_div_lt_one_div_of_neg_of_lt negative lower

theorem limits_tighterEndpoint {kind : BoundKind} {a b : Endpoint} (first : a.Limits kind q)
    (second : b.Limits kind q) : (tighterEndpoint kind a b).Limits kind q := by
  rw [tighterEndpoint]
  split
  · split
    · exact second
    · exact first
  · exact second
  · exact first

theorem contains_intersect (first : i.contains q = true) (second : j.contains q = true) :
    (i.intersect j).contains q = true := by
  rw [contains_iff] at first second ⊢
  exact ⟨limits_tighterEndpoint first.1 second.1, limits_tighterEndpoint first.2 second.2⟩

end Interval

end ArithDecide
