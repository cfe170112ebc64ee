import Mathlib.Algebra.MvPolynomial.CommRing
import Mathlib.Data.Finsupp.Interval
import Mathlib.Data.Finsupp.MonomialOrder.DegLex
import Mathlib.Data.Set.Card
import Mathlib.RingTheory.Ideal.Span
import ArithDecide.Polynomial

/-!
# A criterion for bases of ideals

A set of polynomials is a basis that decides membership in its ideal if the leading exponents of all
polynomials of the ideal are among the multiples of its own leading exponents. It suffices to look at
pairs (`exists_le_of_settled`): for any two members the combination in which their leading terms cancel
has to be a sum of multiples of members that stay below the least common multiple (`Settled`).

Exponents are ordered by degree and then lexicographically. With infinitely many variables this order has
infinite descending chains, so all sums are kept to the first `n` variables, where it has none (`rank`).
-/

namespace ArithDecide

open MvPolynomial

/-- The exponents of the variables in a product. -/
abbrev Exponents := Var →₀ ℕ

namespace Exponents

/-- Only the first variables occur. -/
def Within (n : Nat) (d : Exponents) : Prop := ∀ v, d v ≠ 0 → v < n

variable {n m : Nat} {a b d e : Exponents}

theorem Within.mono (within : d.Within n) (le : n ≤ m) : d.Within m :=
  fun v occurs => (within v occurs).trans_le le

theorem Within.add (first : a.Within n) (second : b.Within n) : (a + b).Within n := by
  intro v occurs
  by_cases absent : a v = 0
  · exact second v fun other => occurs (by rw [Finsupp.add_apply, absent, other])
  · exact first v absent

theorem Within.of_le (within : d.Within n) (le : e ≤ d) : e.Within n := by
  intro v occurs
  have := le v
  exact within v (by omega)

theorem Within.sup (first : a.Within n) (second : b.Within n) : (a ⊔ b).Within n :=
  (first.add second).of_le (sup_le le_self_add le_add_self)

theorem exists_within (d : Exponents) : ∃ n, d.Within n := by
  refine ⟨d.support.sup id + 1, fun v occurs => Nat.lt_succ_of_le ?_⟩
  exact Finset.le_sup (f := id) (Finsupp.mem_support_iff.2 occurs)

/-- There are only finitely many exponents of the first variables before given ones. -/
theorem finite_before (n : Nat) (d : Exponents) :
    {e : Exponents | e.Within n ∧ toDegLex e < toDegLex d}.Finite := by
  refine (Set.finite_Icc 0 (∑ v ∈ Finset.range n, Finsupp.single v d.degree)).subset ?_
  rintro e ⟨within, before⟩
  refine ⟨zero_le, fun v => ?_⟩
  have degree : e.degree ≤ d.degree := Finsupp.DegLex.monotone_degree before.le
  by_cases occurs : e v = 0
  · rw [occurs]
    exact Nat.zero_le _
  · rw [Finsupp.finsetSum_apply, Finset.sum_eq_single_of_mem v (Finset.mem_range.2 (within v occurs))
      fun w _ apart => Finsupp.single_eq_of_ne apart.symm, Finsupp.single_eq_same]
    exact (Finsupp.le_degree v e).trans degree

/-- How many exponents of the first variables are before. -/
noncomputable def rank (n : Nat) (d : Exponents) : Nat :=
  {e : Exponents | e.Within n ∧ toDegLex e < toDegLex d}.ncard

theorem rank_lt (within : e.Within n) (before : toDegLex e < toDegLex d) : rank n e < rank n d := by
  refine Set.ncard_lt_ncard ⟨fun a inside => ⟨inside.1, inside.2.trans before⟩, fun all => ?_⟩
    (finite_before n d)
  exact lt_irrefl _ (all ⟨within, before⟩).2

end Exponents

/-! ## Leading exponents -/

/-- The exponents are the largest ones of the polynomial. -/
structure Leads (d : Exponents) (f : MvPolynomial Var ℚ) : Prop where
  nonzero : f.coeff d ≠ 0
  top : ∀ e, f.coeff e ≠ 0 → toDegLex e ≤ toDegLex d

section

variable {a b d e m : Exponents} {f g h : MvPolynomial Var ℚ} {n : Nat} {c : ℚ}

theorem Leads.unique (first : Leads d f) (second : Leads e f) : d = e :=
  toDegLex_injective (le_antisymm (second.top d first.nonzero) (first.top e second.nonzero))

/-- The exponents of a multiple come from those of the polynomial. -/
theorem exists_of_coeff_monomial_mul (occurs : (monomial a c * f).coeff m ≠ 0) :
    ∃ e, m = a + e ∧ f.coeff e ≠ 0 := by
  rw [coeff_monomial_mul'] at occurs
  split at occurs
  · rename_i le
    exact ⟨m - a, (add_tsub_cancel_of_le le).symm, right_ne_zero_of_mul occurs⟩
  · exact absurd rfl occurs

theorem Leads.le_of_monomial_mul (leads : Leads d f)
    (occurs : (monomial a c * f).coeff m ≠ 0) : toDegLex m ≤ toDegLex (a + d) := by
  obtain ⟨e, rfl, in_f⟩ := exists_of_coeff_monomial_mul occurs
  rw [toDegLex_add, toDegLex_add]
  exact add_le_add_right (leads.top e in_f) _

/-! ## Multiples of members -/

variable {G H : Set (MvPolynomial Var ℚ)} {D E : Set Exponents}

/-- The sums of multiples of members whose leading exponents are in a set. -/
noncomputable def multiples (G : Set (MvPolynomial Var ℚ)) (D : Set Exponents) :
    AddSubgroup (MvPolynomial Var ℚ) :=
  AddSubgroup.closure {f | ∃ g ∈ G, ∃ d a c, Leads d g ∧ a + d ∈ D ∧ f = monomial a c * g}

theorem monomial_mul_mem (member : g ∈ G) (leads : Leads d g) (inside : a + d ∈ D) (c : ℚ) :
    monomial a c * g ∈ multiples G D :=
  AddSubgroup.subset_closure ⟨g, member, d, a, c, leads, inside, rfl⟩

theorem multiples_mono (members : G ⊆ H) (inside : D ⊆ E) : multiples G D ≤ multiples H E := by
  refine AddSubgroup.closure_mono ?_
  rintro f ⟨g, member, d, a, c, leads, at_d, rfl⟩
  exact ⟨g, members member, d, a, c, leads, inside at_d, rfl⟩

/-- Multiplying moves the leading exponents along. -/
theorem monomial_mul_mem_multiples (sum : f ∈ multiples G D) (inside : ∀ e ∈ D, b + e ∈ E) :
    monomial b c * f ∈ multiples G E := by
  induction sum using AddSubgroup.closure_induction with
  | mem f generator =>
    obtain ⟨g, member, d, a, r, leads, at_d, rfl⟩ := generator
    rw [← mul_assoc, monomial_mul]
    exact monomial_mul_mem member leads (by rw [add_assoc]; exact inside _ at_d) _
  | zero => simp
  | add f g _ _ left right =>
    rw [mul_add]
    exact add_mem left right
  | neg f _ ih =>
    rw [mul_neg]
    exact neg_mem ih

theorem C_mul_mem (sum : f ∈ multiples G D) (c : ℚ) : C c * f ∈ multiples G D :=
  monomial_mul_mem_multiples sum fun e inside => by rwa [zero_add]

/-- Nothing is above the leading exponents of the multiples. -/
theorem exists_le_of_mem_multiples (sum : f ∈ multiples G D) (occurs : f.coeff e ≠ 0) :
    ∃ m ∈ D, toDegLex e ≤ toDegLex m := by
  induction sum using AddSubgroup.closure_induction with
  | mem f generator =>
    obtain ⟨g, member, d, a, c, leads, at_d, rfl⟩ := generator
    exact ⟨a + d, at_d, leads.le_of_monomial_mul occurs⟩
  | zero => exact absurd (coeff_zero e) occurs
  | add f g _ _ left right =>
    by_cases at_f : f.coeff e = 0
    · refine right fun at_g => occurs ?_
      rw [coeff_add, at_f, at_g, add_zero]
    · exact left at_f
  | neg f _ ih =>
    rw [coeff_neg, neg_ne_zero] at occurs
    exact ih occurs

/-- Sums of multiples belong to the ideal. -/
theorem mem_span_of_mem_multiples (sum : f ∈ multiples G D) : f ∈ Ideal.span G := by
  induction sum using AddSubgroup.closure_induction with
  | mem f generator =>
    obtain ⟨g, member, d, a, c, -, -, rfl⟩ := generator
    exact Ideal.mul_mem_left _ _ (Ideal.subset_span member)
  | zero => exact zero_mem _
  | add f g _ _ left right => exact add_mem left right
  | neg f _ ih => exact neg_mem ih

/-- The exponents of the first variables before given ones. -/
def below (n : Nat) (d : Exponents) : Set Exponents :=
  {e | e.Within n ∧ toDegLex e < toDegLex d}

/-- The exponents of the first variables up to given ones. -/
def upTo (n : Nat) (d : Exponents) : Set Exponents :=
  {e | e.Within n ∧ toDegLex e ≤ toDegLex d}

theorem coeff_eq_zero_of_below (sum : f ∈ multiples G (below n d)) : f.coeff d = 0 := by
  by_contra occurs
  obtain ⟨m, ⟨-, before⟩, le⟩ := exists_le_of_mem_multiples sum occurs
  exact lt_irrefl _ (before.trans_le le)

/-! ## Pairs -/

/-- The multiples of two polynomials with the same leading term, subtracted from each other. -/
noncomputable def pairDifference (d e : Exponents) (g h : MvPolynomial Var ℚ) :
    MvPolynomial Var ℚ :=
  monomial (d ⊔ e - d) (g.coeff d)⁻¹ * g - monomial (d ⊔ e - e) (h.coeff e)⁻¹ * h

theorem Leads.coeff_multiple (leads : Leads d f) (le : d ≤ m) :
    (monomial (m - d) (f.coeff d)⁻¹ * f).coeff m = 1 := by
  have lead := coeff_monomial_mul d (m - d) (f.coeff d)⁻¹ f
  rwa [tsub_add_cancel_of_le le, inv_mul_cancel₀ leads.nonzero] at lead

/-- The leading terms cancel. -/
theorem lt_of_coeff_pairDifference (leads : Leads d g) (leads' : Leads e h)
    (occurs : (pairDifference d e g h).coeff m ≠ 0) : toDegLex m < toDegLex (d ⊔ e) := by
  have left : d ⊔ e - d + d = d ⊔ e := tsub_add_cancel_of_le le_sup_left
  have right : d ⊔ e - e + e = d ⊔ e := tsub_add_cancel_of_le le_sup_right
  rw [pairDifference, coeff_sub] at occurs
  refine lt_of_le_of_ne ?_ fun same => occurs ?_
  · by_cases absent : (monomial (d ⊔ e - d) (g.coeff d)⁻¹ * g).coeff m = 0
    · rw [absent, zero_sub, neg_ne_zero] at occurs
      exact right ▸ leads'.le_of_monomial_mul occurs
    · exact left ▸ leads.le_of_monomial_mul absent
  · rw [toDegLex_injective same, leads.coeff_multiple le_sup_left, leads'.coeff_multiple le_sup_right,
      sub_self]

/-- The difference is a sum of multiples that stay below. -/
def Settled (G : Set (MvPolynomial Var ℚ)) (n : Nat) (g h : MvPolynomial Var ℚ) : Prop :=
  ∀ d e, Leads d g → Leads e h → pairDifference d e g h ∈ multiples G (below n (d ⊔ e))

theorem Settled.mono (settled : Settled G n g h) (members : G ⊆ H) : Settled H n g h :=
  fun d e leads leads' => multiples_mono members subset_rfl (settled d e leads leads')

theorem Settled.symm (settled : Settled G n g h) : Settled G n h g := by
  intro e d leads leads'
  have opposite : pairDifference e d h g = -pairDifference d e g h := by
    rw [pairDifference, pairDifference, sup_comm, neg_sub]
  rw [opposite, sup_comm]
  exact neg_mem (settled d e leads' leads)

theorem settled_self (g : MvPolynomial Var ℚ) : Settled G n g g := by
  intro d e leads leads'
  obtain rfl := leads.unique leads'
  rw [pairDifference, sub_self]
  exact zero_mem _

/-- A product with a member is a sum of multiples of it. -/
theorem mul_mem_multiples (member : g ∈ G) (leads : Leads d g)
    (inside : ∀ u, f.coeff u ≠ 0 → u + d ∈ D) : f * g ∈ multiples G D := by
  rw [f.as_sum, Finset.sum_mul]
  exact sum_mem fun u at_u => monomial_mul_mem member leads (inside u (mem_support_iff.1 at_u)) _

theorem sup_eq_add_of_disjoint (disjoint : Disjoint d e) : d ⊔ e = d + e := by
  ext v
  have apart : d v ⊓ e v = 0 := by
    have bottom := disjoint.eq_bot
    rw [← Finsupp.inf_apply, bottom]
    rfl
  rw [Finsupp.sup_apply, Finsupp.add_apply]
  omega

/-- The exponents of the rest of a polynomial, without the leading ones, are below. -/
theorem Leads.rest (leads : Leads d f) {u : Exponents}
    (occurs : (f - monomial d (f.coeff d)).coeff u ≠ 0) :
    f.coeff u ≠ 0 ∧ toDegLex u < toDegLex d := by
  rw [coeff_sub, coeff_monomial] at occurs
  split at occurs
  · rename_i same
    rw [same, sub_self] at occurs
    exact absurd rfl occurs
  · rename_i apart
    rw [sub_zero] at occurs
    exact ⟨occurs, lt_of_le_of_ne (leads.top u occurs) fun same => apart (toDegLex_injective same).symm⟩

/-- Members without a common variable in their leading terms are settled by their products with the rests
of each other. -/
theorem settled_of_disjoint (member : g ∈ G) (member' : h ∈ G)
    (within : ∀ u : Exponents, g.coeff u ≠ 0 → u.Within n)
    (within' : ∀ u : Exponents, h.coeff u ≠ 0 → u.Within n)
    (disjoint : ∀ d e, Leads d g → Leads e h → Disjoint d e) : Settled G n g h := by
  intro d e leads leads'
  have sup := sup_eq_add_of_disjoint (disjoint d e leads leads')
  have first : (g - monomial d (g.coeff d)) * h ∈ multiples G (below n (d + e)) := by
    refine mul_mem_multiples member' leads' fun u occurs => ?_
    obtain ⟨at_u, before⟩ := leads.rest occurs
    exact ⟨(within u at_u).add (within' e leads'.nonzero), add_lt_add_left before _⟩
  have second : (h - monomial e (h.coeff e)) * g ∈ multiples G (below n (d + e)) := by
    refine mul_mem_multiples member leads fun u occurs => ?_
    obtain ⟨at_u, before⟩ := leads'.rest occurs
    rw [add_comm d e]
    exact ⟨(within' u at_u).add (within d leads.nonzero), add_lt_add_left before _⟩
  have combined : pairDifference d e g h = C ((g.coeff d)⁻¹ * (h.coeff e)⁻¹) *
      ((g - monomial d (g.coeff d)) * h - (h - monomial e (h.coeff e)) * g) := by
    have left : C ((g.coeff d)⁻¹ * (h.coeff e)⁻¹) * monomial e (h.coeff e) =
        monomial e (g.coeff d)⁻¹ := by
      rw [C_mul_monomial, mul_assoc, inv_mul_cancel₀ leads'.nonzero, mul_one]
    have right : C ((g.coeff d)⁻¹ * (h.coeff e)⁻¹) * monomial d (g.coeff d) =
        monomial d (h.coeff e)⁻¹ := by
      rw [C_mul_monomial, mul_right_comm, inv_mul_cancel₀ leads.nonzero, one_mul]
    rw [pairDifference, sup, add_tsub_cancel_left, add_tsub_cancel_right, ← left, ← right]
    ring
  rw [combined, sup]
  exact C_mul_mem (sub_mem first second) _

/-! ## The criterion -/

/-- Two multiples with the same leading exponents differ, once scaled, by multiples that stay below. -/
theorem Settled.sub_mem (settled : Settled G n g h) (leads : Leads d g) (leads' : Leads e h)
    (first : a + d = m) (second : b + e = m) (within : m.Within n) :
    monomial a (g.coeff d)⁻¹ * g - monomial b (h.coeff e)⁻¹ * h ∈ multiples G (below n m) := by
  have le : d ⊔ e ≤ m := sup_le (first ▸ le_add_self) (second ▸ le_add_self)
  have left : (m - d ⊔ e) + (d ⊔ e - d) = a := by
    rw [tsub_add_tsub_cancel le le_sup_left, ← first, add_tsub_cancel_right]
  have right : (m - d ⊔ e) + (d ⊔ e - e) = b := by
    rw [tsub_add_tsub_cancel le le_sup_right, ← second, add_tsub_cancel_right]
  have moved : monomial a (g.coeff d)⁻¹ * g - monomial b (h.coeff e)⁻¹ * h =
      monomial (m - d ⊔ e) 1 * pairDifference d e g h := by
    rw [pairDifference, mul_sub, ← mul_assoc, ← mul_assoc, monomial_mul, monomial_mul, one_mul,
      one_mul, left, right]
  rw [moved]
  refine monomial_mul_mem_multiples (settled d e leads leads') fun u inside => ⟨?_, ?_⟩
  · exact (within.of_le tsub_le_self).add inside.1
  · have exact_sum : (m - d ⊔ e) + (d ⊔ e) = m := tsub_add_cancel_of_le le
    rw [toDegLex_add, ← exact_sum, toDegLex_add, exact_sum]
    exact add_lt_add_right inside.2 _

variable (settled : ∀ g ∈ G, ∀ h ∈ G, Settled G n g h)
include settled

/-- Where the leading terms cancel, a sum of multiples is one of multiples that stay below. -/
theorem mem_below_of_coeff_eq_zero (sum : f ∈ multiples G (upTo n m)) (within : m.Within n)
    (cancels : f.coeff m = 0) : f ∈ multiples G (below n m) := by
  by_cases reached : ∃ g ∈ G, ∃ d a, Leads d g ∧ a + d = m
  · -- every multiple is compared with one that has the leading exponents in question
    obtain ⟨g₀, member₀, d₀, a₀, leads₀, sum₀⟩ := reached
    have compared : f - C (f.coeff m) * (monomial a₀ (g₀.coeff d₀)⁻¹ * g₀) ∈
        multiples G (below n m) := by
      clear cancels
      induction sum using AddSubgroup.closure_induction with
      | mem f generator =>
        obtain ⟨g, member, d, a, c, leads, inside, rfl⟩ := generator
        rcases inside.2.lt_or_eq with before | same
        · have lower : a + d ∈ below n m := ⟨inside.1, before⟩
          have below_m := monomial_mul_mem member leads lower c
          rw [coeff_eq_zero_of_below below_m, C_0, zero_mul, sub_zero]
          exact below_m
        · have same := toDegLex_injective same
          have lead : (monomial a c * g).coeff m = c * g.coeff d := by
            rw [← same, coeff_monomial_mul]
          have scaled : monomial a c * g = C (c * g.coeff d) * (monomial a (g.coeff d)⁻¹ * g) := by
            rw [← mul_assoc, C_mul_monomial, mul_inv_cancel_right₀ leads.nonzero]
          rw [lead, scaled, ← mul_sub]
          exact C_mul_mem ((settled g member g₀ member₀).sub_mem leads leads₀ same sum₀ within) _
      | zero => simp
      | add f g _ _ left right =>
        have sum := add_mem left right
        rwa [sub_add_sub_comm, ← add_mul, ← C_add, ← coeff_add] at sum
      | neg f _ ih =>
        have negated := neg_mem ih
        rwa [neg_sub, ← neg_sub_neg, ← neg_mul, ← C_neg, ← coeff_neg] at negated
    rwa [cancels, C_0, zero_mul, sub_zero] at compared
  · refine ((AddSubgroup.closure_le _).2 ?_ : multiples G (upTo n m) ≤ multiples G (below n m)) sum
    rintro f ⟨g, member, d, a, c, leads, inside, rfl⟩
    have lower : a + d ∈ below n m := ⟨inside.1, lt_of_le_of_ne inside.2 fun same =>
      reached ⟨g, member, d, a, leads, toDegLex_injective same⟩⟩
    exact monomial_mul_mem member leads lower c

omit settled in
/-- Finitely many multiples have a largest leading exponent. -/
theorem exists_upTo_of_mem {D : Set Exponents} (early : ∀ e ∈ D, e.Within n)
    (sum : f ∈ multiples G D) : f = 0 ∨ ∃ m ∈ D, f ∈ multiples G (upTo n m) := by
  induction sum using AddSubgroup.closure_induction with
  | mem f generator =>
    obtain ⟨g, member, d, a, c, leads, inside, rfl⟩ := generator
    have itself : a + d ∈ upTo n (a + d) := ⟨early _ inside, le_refl _⟩
    exact .inr ⟨a + d, inside, monomial_mul_mem member leads itself c⟩
  | zero => exact .inl rfl
  | add f g _ _ left right =>
    rcases left with rfl | ⟨m, at_m, left⟩
    · rwa [zero_add]
    rcases right with rfl | ⟨k, at_k, right⟩
    · exact .inr ⟨m, at_m, by rwa [add_zero]⟩
    have up {x y : Exponents} (le : toDegLex x ≤ toDegLex y) : upTo n x ⊆ upTo n y :=
      fun _ inside => ⟨inside.1, inside.2.trans le⟩
    rcases le_total (toDegLex m) (toDegLex k) with le | le
    · exact .inr ⟨k, at_k, add_mem (multiples_mono subset_rfl (up le) left) right⟩
    · exact .inr ⟨m, at_m, add_mem left (multiples_mono subset_rfl (up le) right)⟩
  | neg f _ ih =>
    rcases ih with rfl | ⟨m, at_m, sum⟩
    · exact .inl neg_zero
    · exact .inr ⟨m, at_m, neg_mem sum⟩

/-- By induction on the rank: a sum of multiples is written with smaller and smaller leading exponents
until those of the sum itself are reached. -/
theorem exists_le_of_upTo (sum : f ∈ multiples G (upTo n m)) (within : m.Within n)
    (nonzero : f ≠ 0) : ∃ g ∈ G, ∃ d top, Leads d g ∧ Leads top f ∧ d ≤ top := by
  induction rank : Exponents.rank n m using Nat.strong_induction_on generalizing m with
  | _ k ih =>
    subst rank
    by_cases cancels : f.coeff m = 0
    · have lower := mem_below_of_coeff_eq_zero settled sum within cancels
      rcases exists_upTo_of_mem (fun e inside => inside.1) lower with rfl | ⟨top, before, upper⟩
      · exact absurd rfl nonzero
      · exact ih _ (Exponents.rank_lt before.1 before.2) upper before.1 rfl
    · have leads : Leads m f := ⟨cancels, fun e occurs => by
        obtain ⟨k, inside, le⟩ := exists_le_of_mem_multiples sum occurs
        exact le.trans inside.2⟩
      by_contra none_divides
      refine cancels (coeff_eq_zero_of_below (((AddSubgroup.closure_le _).2 ?_ :
        multiples G (upTo n m) ≤ multiples G (below n m)) sum))
      rintro f' ⟨g, member, d, a, c, leads', inside, rfl⟩
      have lower : a + d ∈ below n m := by
        refine ⟨inside.1, lt_of_le_of_ne inside.2 fun same => ?_⟩
        exact none_divides ⟨g, member, d, m, leads', leads, toDegLex_injective same ▸ le_add_self⟩
      exact monomial_mul_mem member leads' lower c

omit settled in
theorem exists_within_of_coeff (f : MvPolynomial Var ℚ) :
    ∃ k, ∀ u : Exponents, f.coeff u ≠ 0 → u.Within k := by
  choose bound within using Exponents.exists_within
  refine ⟨f.support.sup bound, fun u occurs => (within u).mono ?_⟩
  exact Finset.le_sup (f := bound) (mem_support_iff.2 occurs)

omit settled in
/-- An element of the ideal is a sum of multiples, in which only so many variables occur. -/
theorem exists_mem_multiples (leading : ∀ g ∈ G, ∃ d, Leads d g) (member : f ∈ Ideal.span G) :
    ∃ k, f ∈ multiples G {e | e.Within k} := by
  have wider {k l : Nat} (le : k ≤ l) :
      multiples G {e | e.Within k} ≤ multiples G {e | e.Within l} :=
    multiples_mono subset_rfl fun _ within => within.mono le
  induction member using Submodule.span_induction with
  | mem g member =>
    obtain ⟨d, leads⟩ := leading g member
    obtain ⟨k, within⟩ := Exponents.exists_within d
    have itself : monomial 0 1 * g ∈ multiples G {e | e.Within k} :=
      monomial_mul_mem member leads (by rwa [zero_add]) 1
    exact ⟨k, by rwa [show monomial 0 (1 : ℚ) = 1 from rfl, one_mul] at itself⟩
  | zero => exact ⟨0, zero_mem _⟩
  | add f g _ _ left right =>
    obtain ⟨k, left⟩ := left
    obtain ⟨l, right⟩ := right
    exact ⟨max k l, add_mem (wider (le_max_left k l) left) (wider (le_max_right k l) right)⟩
  | smul r f _ ih =>
    obtain ⟨k, sum⟩ := ih
    obtain ⟨l, within⟩ := exists_within_of_coeff r
    refine ⟨max l k, ?_⟩
    rw [smul_eq_mul, r.as_sum, Finset.sum_mul]
    refine sum_mem fun u at_u => monomial_mul_mem_multiples sum fun e early => ?_
    exact ((within u (mem_support_iff.1 at_u)).mono (le_max_left l k)).add
      (Exponents.Within.mono early (le_max_right l k))

/-- If all pairs of members are settled, the leading exponents of every polynomial of the ideal are a
multiple of those of a member. -/
theorem exists_le_of_settled (leading : ∀ g ∈ G, ∃ d, Leads d g) (member : f ∈ Ideal.span G)
    (nonzero : f ≠ 0) : ∃ g ∈ G, ∃ d top, Leads d g ∧ Leads top f ∧ d ≤ top := by
  obtain ⟨k, sum⟩ := exists_mem_multiples leading member
  have more : ∀ g ∈ G, ∀ h ∈ G, Settled G (max n k) g h := fun g member h member' d e leads leads' =>
    have early : below n (d ⊔ e) ⊆ below (max n k) (d ⊔ e) :=
      fun _ inside => ⟨inside.1.mono (le_max_left n k), inside.2⟩
    multiples_mono subset_rfl early (settled g member h member' d e leads leads')
  have wide : f ∈ multiples G {e | e.Within (max n k)} :=
    multiples_mono subset_rfl (fun _ within => Exponents.Within.mono within (le_max_right n k)) sum
  rcases exists_upTo_of_mem (fun _ within => within) wide with rfl | ⟨m, within, upper⟩
  · exact absurd rfl nonzero
  · exact exists_le_of_upTo more upper within nonzero

end

end ArithDecide
