import Mathlib.Data.Multiset.UnionInter
import ArithDecide.Proofs.Completing

/-!
# Products as multisets, their order, and reducing

A sorted product is a multiset of variables, and the operations on products are those of multisets
(`PowerProduct.ActsAsMultiset`). The order of products is total, compatible with multiplication and has
the empty product as its least element; with infinitely many variables it has infinite descending chains,
but none within finitely many of them (`PowerProduct.isMonomialOrder`). This is why walking along the
terms of a polynomial reduces it: what is subtracted never touches the terms that were passed, and in the
end no term is left that a leading product of the basis divides (`Completion.reduction_exact`).
-/

namespace ArithDecide

namespace PowerProduct

variable {p q r : PowerProduct}

/-! ## Products as multisets -/

theorem exponents_eq_iff : p.exponents = q.exponents ↔ (p : Multiset Var) = q :=
  Multiset.toFinsupp.injective.eq_iff

theorem exponents_le_iff : p.exponents ≤ q.exponents ↔ (p : Multiset Var) ≤ q := by
  rw [Multiset.le_iff_count]
  refine forall_congr' fun v => ?_
  rw [exponents_apply, exponents_apply, Multiset.coe_count, Multiset.coe_count]

theorem coe_mul (p q : PowerProduct) : (p.mul q : Multiset Var) = (p : Multiset Var) + q := by
  apply Multiset.toFinsupp.injective
  rw [map_add]
  exact exponents_mul p q

/-- A quotient is the difference of the multisets. -/
theorem div?_eq_some_iff (sorted : p.Sorted) (sorted' : q.Sorted) :
    p.div? q = some r ↔ r.Sorted ∧ (p : Multiset Var) = (q : Multiset Var) + r := by
  constructor
  · intro found
    obtain ⟨sorted_r, same⟩ := of_div?_eq_some sorted found
    refine ⟨sorted_r, ?_⟩
    rw [← coe_mul, ← exponents_eq_iff, exponents_mul]
    exact same
  · rintro ⟨sorted_r, same⟩
    rw [← coe_mul, ← exponents_eq_iff, exponents_mul] at same
    obtain ⟨quotient, found⟩ := exists_div? sorted sorted' (same ▸ le_self_add)
    obtain ⟨sorted_quotient, same'⟩ := of_div?_eq_some sorted found
    rw [found, sorted_quotient.eq_of_exponents sorted_r (add_left_cancel (same'.symm.trans same))]

theorem div?_eq_none_iff (sorted : p.Sorted) (sorted' : q.Sorted) :
    p.div? q = none ↔ ¬(q : Multiset Var) ≤ p := by
  rw [← exponents_le_iff]
  constructor
  · intro absent le
    obtain ⟨quotient, found⟩ := exists_div? sorted sorted' le
    rw [absent] at found
    cases found
  · intro not_le
    cases found : p.div? q with
    | none => rfl
    | some quotient =>
      obtain ⟨-, same⟩ := of_div?_eq_some sorted found
      exact absurd (same ▸ le_self_add) not_le

theorem coe_lcm (sorted : p.Sorted) (sorted' : q.Sorted) :
    (p.lcm q : Multiset Var) = (p : Multiset Var) ∪ q := by
  ext v
  have here := DFunLike.congr_fun (exponents_lcm sorted sorted') v
  rw [Finsupp.sup_apply, exponents_apply, exponents_apply, exponents_apply] at here
  rw [Multiset.count_union, Multiset.coe_count, Multiset.coe_count, Multiset.coe_count]
  exact here

theorem isCoprime_iff_disjoint : p.isCoprime q = true ↔ Disjoint (p : Multiset Var) q := by
  rw [isCoprime, List.all_eq_true, Multiset.disjoint_left]
  refine forall₂_congr fun v _ => ?_
  simp

/-- The operations on two products are those of multisets of variables. -/
structure ActsAsMultiset (p q : PowerProduct) : Prop where
  sorted_mul : (p.mul q).Sorted
  mul : (p.mul q : Multiset Var) = (p : Multiset Var) + q
  quotient : ∀ r, p.div? q = some r ↔ r.Sorted ∧ (p : Multiset Var) = (q : Multiset Var) + r
  no_quotient : p.div? q = none ↔ ¬(q : Multiset Var) ≤ p
  sorted_lcm : (p.lcm q).Sorted
  lcm : (p.lcm q : Multiset Var) = (p : Multiset Var) ∪ q
  coprime : p.isCoprime q = true ↔ Disjoint (p : Multiset Var) q

theorem Sorted.actsAsMultiset (sorted : p.Sorted) (sorted' : q.Sorted) : p.ActsAsMultiset q where
  sorted_mul := PowerProduct.sorted_mul p q
  mul := coe_mul p q
  quotient _ := div?_eq_some_iff sorted sorted'
  no_quotient := div?_eq_none_iff sorted sorted'
  sorted_lcm := PowerProduct.sorted_lcm sorted sorted'
  lcm := coe_lcm sorted sorted'
  coprime := isCoprime_iff_disjoint

/-! ## The order of products -/

theorem lt_mul_right (sorted : p.Sorted) (sorted' : q.Sorted) (less : p.lt q = true)
    (r : PowerProduct) : (p.mul r).lt (q.mul r) = true := by
  rw [lt_iff (sorted_mul p r) (sorted_mul q r), exponents_mul, exponents_mul, toDegLex_add,
    toDegLex_add, add_lt_add_iff_right]
  exact (lt_iff sorted sorted').1 less

theorem one_lt (nonempty : p ≠ one) : one.lt p = true := by
  have positive : 0 < p.length := List.length_pos_iff.2 nonempty
  rw [lt, Bool.or_eq_true, decide_eq_true_eq]
  exact .inl positive

/-- There is no infinite descending chain of products over finitely many variables. -/
theorem wellFounded_over (among : Finset Var) :
    WellFounded fun p q : {p : PowerProduct // p.Sorted ∧ ∀ v ∈ p, v ∈ among} =>
      p.1.lt q.1 = true := by
  obtain ⟨n, bound⟩ := among.exists_nat_subset_range
  refine Subrelation.wf ?_ (InvImage.wf (fun p => Exponents.rank n p.1.exponents) wellFounded_lt)
  intro p q less
  refine Exponents.rank_lt (fun v occurs => ?_) ((lt_iff p.2.1 q.2.1).1 less)
  exact Finset.mem_range.1 (bound (p.2.2 v (mem_iff_exponents.2 occurs)))

/-- A total order of the sorted products which multiplication keeps, with the empty product as its least
element, and well-founded on the products over any finite set of variables. -/
structure IsMonomialOrder (less : PowerProduct → PowerProduct → Bool) : Prop where
  irrefl : ∀ p, p.Sorted → less p p = false
  trans : ∀ p q r, p.Sorted → q.Sorted → r.Sorted → less p q = true → less q r = true → less p r = true
  total : ∀ p q, p.Sorted → q.Sorted → less p q = true ∨ p = q ∨ less q p = true
  mul : ∀ p q r, p.Sorted → q.Sorted → r.Sorted → less p q = true → less (p.mul r) (q.mul r) = true
  least : ∀ p, p.Sorted → p ≠ one → less one p = true
  wellFounded : ∀ among : Finset Var,
    WellFounded fun p q : {p : PowerProduct // p.Sorted ∧ ∀ v ∈ p, v ∈ among} =>
      less p.1 q.1 = true

theorem isMonomialOrder : IsMonomialOrder lt where
  irrefl _ := lt_irrefl
  trans _ _ _ := lt_trans
  total p q sorted sorted' := by
    by_cases less : q.lt p = true
    · exact .inr (.inr less)
    · by_cases same : p = q
      · exact .inr (.inl same)
      · exact .inl (lt_of_not_lt sorted sorted' less same)
  mul _ _ r sorted sorted' _ less := lt_mul_right sorted sorted' less r
  least _ _ := one_lt
  wellFounded := wellFounded_over

end PowerProduct

/-! ## Polynomials -/

namespace Polynomial

open MvPolynomial

/-- A polynomial denotes the sum of the terms it was made of. -/
theorem denote_ofTerms (terms : List (PowerProduct × Rat)) (reasons : List NodeId) :
    (ofTerms terms reasons).denote = (terms.map fun t => monomial t.1.exponents t.2).sum := by
  have sum := sum_foldl_addToTerms
    (fun product => (monomial product.exponents : ℚ →ₗ[ℚ] MvPolynomial Var ℚ).toAddMonoidHom)
    terms Prod.fst Prod.snd []
  exact sum.trans (zero_add _)

end Polynomial

/-! ## Reducing -/

namespace Completion

open MvPolynomial

variable {basis : List Polynomial} {p q : Polynomial} {budget steps : Nat}

/-- What reducing a polynomial comes to: the difference is in the ideal of the basis, and unless the budget
is spent no leading product of the basis divides a product that is left. -/
structure Reduced (basis : List Polynomial) (budget : Nat) (p : Polynomial) (result : Polynomial × Nat) :
    Prop where
  ordered : result.1.Ordered
  congruent : p.denote - result.1.denote ∈ Ideal.span (members basis)
  irreducible : result.2 < budget → ∀ t ∈ result.1.terms, ∀ q ∈ basis, ∀ lead,
    q.leading? = some lead → ¬(lead.1 : Multiset Var) ≤ t.1

theorem reduced_reduceFrom (ordered : ∀ q ∈ basis, q.Ordered) (budget steps : Nat)
    (ordered_p : p.Ordered) : Reduced basis budget p (reduceFrom basis budget steps 0 p) := by
  obtain ⟨n, tidy_all⟩ := exists_tidy (List.forall_mem_cons.2 ⟨ordered_p, ordered⟩)
  have tidy : Tidy n basis := ⟨ordered, (List.forall_mem_cons.1 tidy_all.within).2⟩
  have within := tidy_all.within p List.mem_cons_self
  have reduct := reduct_reduceFrom tidy lower_within budget steps 0 ordered_p within
    fun e occurs => within.of_coeff occurs
  refine ⟨reduct.ordered, mem_span_of_mem_multiples reduct.difference, ?_⟩
  intro unspent t at_t q at_q lead leads
  have irreducible := irreducible_reduceFrom tidy ordered_p unspent (by simp) t at_t
  have sorted := reduct.ordered.sorted t at_t
  have sorted_lead := (ordered q at_q).sorted lead ((ordered q at_q).leads leads).1
  exact (PowerProduct.div?_eq_none_iff sorted sorted_lead).1 (reducer?_eq_none irreducible at_q leads)

/-- Products are sorted multisets in a monomial order; making a polynomial and subtracting a multiple of one
give polynomials in order that denote what they should; and reducing by a basis of polynomials other than
zero leads to a congruent polynomial, which is irreducible unless the budget is spent. -/
theorem reduction_exact :
    (∀ p q : PowerProduct, p.Sorted → q.Sorted → p.ActsAsMultiset q) ∧
      PowerProduct.IsMonomialOrder PowerProduct.lt ∧
      (∀ (terms : List (PowerProduct × Rat)) (reasons : List NodeId), (∀ t ∈ terms, t.1.Sorted) →
        (Polynomial.ofTerms terms reasons).Ordered ∧ (Polynomial.ofTerms terms reasons).denote =
          (terms.map fun t => monomial t.1.exponents t.2).sum) ∧
      (∀ (p q : Polynomial) (factor : Rat) (shift : PowerProduct), p.Ordered → q.Ordered → shift.Sorted →
        (p.subScaled factor shift q).Ordered ∧ (p.subScaled factor shift q).denote =
          p.denote - C factor * monomial shift.exponents 1 * q.denote) ∧
      ∀ basis : List Polynomial, (∀ q ∈ basis, q.Ordered ∧ q.isZero = false) →
        ∀ (budget steps : Nat) (p : Polynomial), p.Ordered →
          Reduced basis budget p (reduceFrom basis budget steps 0 p) := by
  refine ⟨fun p q => PowerProduct.Sorted.actsAsMultiset, PowerProduct.isMonomialOrder, ?_, ?_, ?_⟩
  · intro terms reasons sorted
    exact ⟨Polynomial.ordered_ofTerms sorted reasons, Polynomial.denote_ofTerms terms reasons⟩
  · intro p q factor shift ordered _ _
    refine ⟨ordered.subScaled factor shift q, ?_⟩
    rw [Polynomial.denote_subScaled, C_mul_monomial, mul_one]
  · intro basis nonzero budget steps p ordered
    exact reduced_reduceFrom (fun q member => (nonzero q member).1) budget steps ordered

/-- The product of the first three variables leads to the square of the third one. -/
theorem reduction_exact_cubic :
    reduceFrom cubic 10 0 0 ⟨[([0, 1, 2], 1), ([1], 3)], []⟩ = (⟨[([2, 2], 1), ([1], 3)], [1]⟩, 1) ∧
      Reduced cubic 10 ⟨[([0, 1, 2], 1), ([1], 3)], []⟩ (⟨[([2, 2], 1), ([1], 3)], [1]⟩, 1) := by
  have reduces : reduceFrom cubic 10 0 0 ⟨[([0, 1, 2], 1), ([1], 3)], []⟩ =
      (⟨[([2, 2], 1), ([1], 3)], [1]⟩, 1) := by cbv
  refine ⟨reduces, ?_⟩
  rw [← reduces]
  exact reduction_exact.2.2.2.2 cubic (by decide) 10 0 _ (by decide)

end Completion

end ArithDecide
