import ArithDecide.Proofs.Polynomials

/-!
# Reducing a polynomial by a basis

Reducing subtracts multiples of members with leading exponents that occur in the polynomial
(`Completion.reduct_reduceFrom`). Each step cancels the term it looks at and leaves all larger terms as
they are, so the terms that are yet to be looked at get smaller and smaller: with enough budget reducing
ends (`Completion.steps_reduceFrom_lt`), and then no member divides any of the terms.
-/

namespace ArithDecide

open MvPolynomial

namespace Polynomial

variable {p : Polynomial} {n : Nat} {t : PowerProduct × Rat}

theorem Within.exponents (within : p.Within n) (member : t ∈ p.terms) :
    Exponents.Within n t.1.exponents :=
  fun v occurs => (within t member).2 v (PowerProduct.mem_iff_exponents.2 occurs)

theorem Within.of_coeff (within : p.Within n) {e : Exponents} (occurs : p.denote.coeff e ≠ 0) :
    e.Within n := by
  obtain ⟨t, member, rfl⟩ := exists_of_coeff occurs
  exact within.exponents member

theorem Ordered.lt_of_getElem (ordered : p.Ordered) {i j : Nat} (less : i < j)
    (bound : j < p.terms.length) : (p.terms[j]).1.lt (p.terms[i]).1 = true :=
  List.pairwise_iff_getElem.1 ordered.decreasing i j (less.trans bound) bound less

end Polynomial

namespace Completion

variable {basis : List Polynomial} {n budget steps index : Nat} {p q r : Polynomial}
  {t : PowerProduct × Rat} {shift : PowerProduct} {factor : Rat} {D : Set Exponents}

/-- The polynomials of a basis as elements of the polynomial ring. -/
def members (basis : List Polynomial) : Set (MvPolynomial Var ℚ) := {g | ∃ p ∈ basis, p.denote = g}

/-- The polynomials are in order and mention only the first variables. -/
structure Tidy (n : Nat) (basis : List Polynomial) : Prop where
  ordered : ∀ p ∈ basis, p.Ordered
  within : ∀ p ∈ basis, p.Within n

/-- What is not larger belongs to the set too. -/
def Lower (n : Nat) (D : Set Exponents) : Prop :=
  ∀ d ∈ D, ∀ e : Exponents, e.Within n → toDegLex e ≤ toDegLex d → e ∈ D

theorem lower_below (d : Exponents) : Lower n (below n d) :=
  fun _ inside _ within le => ⟨within, le.trans_lt inside.2⟩

theorem lower_within : Lower n {e | e.Within n} := fun _ _ _ within _ => within

/-! ## One step -/

/-- The multiple that is subtracted has the exponents of the term as its leading ones. -/
theorem Tidy.reducer (tidy : Tidy n basis) (sorted : t.1.Sorted)
    (found : reducer? basis t = some (q, shift, factor)) : q ∈ basis ∧ ∃ lead ∈ q.terms,
      Leads lead.1.exponents q.denote ∧ shift.exponents + lead.1.exponents = t.1.exponents ∧
        factor * lead.2 = t.2 := by
  obtain ⟨at_basis, lead, leads, quotient, rfl⟩ := reducer?_eq_some found
  obtain ⟨member, leading⟩ := (tidy.ordered q at_basis).leads leads
  obtain ⟨-, same⟩ := PowerProduct.of_div?_eq_some sorted quotient
  refine ⟨at_basis, lead, member, leading, by rw [same, add_comm], ?_⟩
  exact div_mul_cancel₀ _ ((tidy.ordered q at_basis).nonzero lead member)

/-- What reducing leads to: another polynomial with exponents in the set, and the difference is a sum of
multiples with leading exponents in the set. -/
structure Reduct (n : Nat) (basis : List Polynomial) (D : Set Exponents) (p r : Polynomial) : Prop where
  ordered : r.Ordered
  within : r.Within n
  inside : ∀ e, r.denote.coeff e ≠ 0 → e ∈ D
  difference : p.denote - r.denote ∈ multiples (members basis) D

theorem Reduct.trans (first : Reduct n basis D p q) (second : Reduct n basis D q r) :
    Reduct n basis D p r where
  ordered := second.ordered
  within := second.within
  inside := second.inside
  difference := by
    rw [← sub_add_sub_cancel p.denote q.denote r.denote]
    exact add_mem first.difference second.difference

section Step

variable (tidy : Tidy n basis) (ordered : p.Ordered)
include tidy ordered

/-- A step of reduction cancels a term and brings in smaller ones only, and changes the polynomial by a
multiple of a member. -/
theorem reduct_subScaled (within : p.Within n) (lower : Lower n D)
    (inside : ∀ e, p.denote.coeff e ≠ 0 → e ∈ D) (member : t ∈ p.terms)
    (found : reducer? basis t = some (q, shift, factor)) :
    Reduct n basis D p (p.subScaled factor shift q) := by
  obtain ⟨at_basis, lead, at_lead, leads, same, -⟩ := tidy.reducer (ordered.sorted t member) found
  have at_t : shift.exponents + lead.1.exponents ∈ D := same ▸ inside _ (ordered.coeff_ne_zero member)
  have early : ∀ v ∈ shift, v < n := fun v occurs => within.exponents member v (by
    rw [← same, Finsupp.add_apply]
    have := PowerProduct.mem_iff_exponents.1 occurs
    omega)
  have fewer := within.subScaled (tidy.within q at_basis) factor early
  refine ⟨ordered.subScaled factor shift q, fewer, fun e occurs => ?_, ?_⟩
  · have early_e := fewer.of_coeff occurs
    rw [Polynomial.denote_subScaled, coeff_sub] at occurs
    by_cases at_p : p.denote.coeff e = 0
    · rw [at_p, zero_sub, neg_ne_zero] at occurs
      exact lower _ at_t e early_e (leads.le_of_monomial_mul occurs)
    · exact inside e at_p
  · rw [Polynomial.denote_subScaled, sub_sub_cancel]
    have multiplied : q.denote ∈ members basis := ⟨q, at_basis, rfl⟩
    exact monomial_mul_mem multiplied leads at_t factor

/-- The terms that are larger than the one that is looked at stay where they are. -/
theorem take_subScaled {index : Nat} (bound : index < p.terms.length)
    (found : reducer? basis p.terms[index] = some (q, shift, factor)) :
    (p.subScaled factor shift q).terms.take index = p.terms.take index := by
  have member := List.getElem_mem bound
  have sorted := ordered.sorted _ member
  obtain ⟨at_basis, lead, at_lead, leads, same, -⟩ := tidy.reducer sorted found
  refine ordered.take_subScaled (fun u at_u s at_s => ?_) bound.le
  obtain ⟨j, less, rfl⟩ := List.mem_take_iff_getElem.1 at_u
  have j_less : j < index := (lt_min_iff.1 less).1
  have above := (PowerProduct.lt_iff sorted (ordered.sorted _ (List.getElem_mem _))).1
    (ordered.lt_of_getElem j_less bound)
  refine (PowerProduct.lt_iff (PowerProduct.sorted_mul _ _)
    (ordered.sorted _ (List.getElem_mem _))).2 (lt_of_le_of_lt ?_ above)
  rw [PowerProduct.exponents_mul, ← same, add_comm, toDegLex_add, toDegLex_add]
  exact add_le_add_right (leads.top _ ((tidy.ordered q at_basis).coeff_ne_zero at_s)) _

/-- What is left from the position on is smaller than the term that was looked at: that term cancels. -/
theorem lt_of_mem_drop_subScaled {index : Nat} (bound : index < p.terms.length)
    (found : reducer? basis p.terms[index] = some (q, shift, factor))
    {s : PowerProduct × Rat} (left : s ∈ (p.subScaled factor shift q).terms.drop index) :
    toDegLex s.1.exponents < toDegLex p.terms[index].1.exponents := by
  have member := List.getElem_mem bound
  have sorted := ordered.sorted _ member
  obtain ⟨at_basis, lead, at_lead, leads, same, cancels⟩ := tidy.reducer sorted found
  have ordered' := ordered.subScaled factor shift q
  have at_s := List.mem_of_mem_drop left
  have occurs := ordered'.coeff_ne_zero at_s
  rw [Polynomial.denote_subScaled, coeff_sub] at occurs
  refine lt_of_not_ge fun ge => ?_
  rcases ge.eq_or_lt with equal | above
  · refine occurs ?_
    rw [← toDegLex_injective equal, ordered.coeff_denote member, ← same, coeff_monomial_mul,
      (tidy.ordered q at_basis).coeff_denote at_lead, cancels, sub_self]
  · -- a larger term is one of those before the position, and these are not among what is left
    have absent : (monomial shift.exponents factor * q.denote).coeff s.1.exponents = 0 := by
      by_contra other
      exact absurd (leads.le_of_monomial_mul other) (same ▸ not_le_of_gt above)
    rw [absent, sub_zero] at occurs
    obtain ⟨u, at_u, same_u⟩ := Polynomial.exists_of_coeff occurs
    obtain ⟨j, j_lt, rfl⟩ := List.getElem_of_mem at_u
    have before : j < index := by
      by_contra late
      rcases (Nat.not_lt.1 late).eq_or_lt with rfl | later
      · exact above.ne (congrArg toDegLex same_u)
      · have smaller := (PowerProduct.lt_iff (ordered.sorted _ (List.getElem_mem j_lt)) sorted).1
          (ordered.lt_of_getElem later j_lt)
        rw [same_u] at smaller
        exact lt_asymm smaller above
    have taken : p.terms[j] ∈ (p.subScaled factor shift q).terms.take index := by
      rw [take_subScaled tidy ordered bound found]
      exact List.mem_take_iff_getElem.2 ⟨j, lt_min before j_lt, rfl⟩
    have decreasing := ordered'.decreasing
    rw [← List.take_append_drop index (p.subScaled factor shift q).terms, List.pairwise_append]
      at decreasing
    have apart := decreasing.2.2 _ taken s left
    have smaller := (PowerProduct.lt_iff (ordered'.sorted s at_s)
      (ordered'.sorted _ (List.mem_of_mem_take taken))).1 apart
    exact smaller.ne (congrArg toDegLex same_u.symm)

end Step

/-! ## All steps -/

section Steps

variable (tidy : Tidy n basis) (lower : Lower n D)
include tidy

include lower in
theorem reduct_reduceFrom (budget steps index : Nat) (ordered : p.Ordered) (within : p.Within n)
    (inside : ∀ e, p.denote.coeff e ≠ 0 → e ∈ D) :
    Reduct n basis D p (reduceFrom basis budget steps index p).1 := by
  fun_induction reduceFrom basis budget steps index p with
  | case1 steps index p bound q shift factor found ih =>
    have step := reduct_subScaled tidy ordered within lower inside (List.getElem_mem bound.2) found
    exact step.trans (ih step.ordered step.within step.inside)
  | case2 steps index p bound found ih => exact ih ordered within inside
  | case3 => exact ⟨ordered, within, inside, by rw [sub_self]; exact zero_mem _⟩

/-- Unless the budget is spent no member divides any of the terms in the end. -/
theorem irreducible_reduceFrom (ordered : p.Ordered)
    (unspent : (reduceFrom basis budget steps index p).2 < budget)
    (so_far : ∀ t ∈ p.terms.take index, reducer? basis t = none) :
    ∀ t ∈ (reduceFrom basis budget steps index p).1.terms, reducer? basis t = none := by
  fun_induction reduceFrom basis budget steps index p with
  | case1 steps index p bound q shift factor found ih =>
    refine ih (ordered.subScaled factor shift q) unspent ?_
    rwa [take_subScaled tidy ordered bound.2 found]
  | case2 steps index p bound found ih =>
    refine ih ordered unspent fun t member => ?_
    rw [List.take_succ_eq_append_getElem bound.2, List.mem_append, List.mem_singleton] at member
    rcases member with before | rfl
    · exact so_far t before
    · exact found
  | case3 steps index p finished =>
    have all : p.terms.length ≤ index := by
      by_contra more
      exact finished ⟨unspent, Nat.not_le.1 more⟩
    rwa [List.take_of_length_le all] at so_far

/-- How many exponents of the first variables the next term, if there is one, and smaller ones can have. -/
noncomputable def leftover (n : Nat) (p : Polynomial) (index : Nat) : Nat :=
  match p.terms[index]? with
  | none => 0
  | some t => Exponents.rank n t.1.exponents + 1

omit tidy in
theorem leftover_lt (bound : index < p.terms.length) (within : r.Within n) {k : Nat}
    (smaller : ∀ s ∈ r.terms.drop k, toDegLex s.1.exponents < toDegLex p.terms[index].1.exponents) :
    leftover n r k < leftover n p index := by
  rw [leftover, leftover, List.getElem?_eq_getElem bound]
  cases next : r.terms[k]? with
  | none => exact Nat.succ_pos _
  | some s =>
    obtain ⟨k_lt, rfl⟩ := List.getElem?_eq_some_iff.1 next
    refine Nat.succ_lt_succ (Exponents.rank_lt (within.exponents (List.getElem_mem k_lt)) ?_)
    exact smaller _ (List.mem_drop_iff_getElem.2 ⟨0, by omega, by simp⟩)

/-- With enough budget reducing ends before the budget is spent. -/
theorem steps_reduceFrom_lt (ordered : p.Ordered) (within : p.Within n)
    (enough : steps + leftover n p index < budget) :
    (reduceFrom basis budget steps index p).2 < budget := by
  fun_induction reduceFrom basis budget steps index p with
  | case1 steps index p bound q shift factor found ih =>
    have step := reduct_subScaled tidy ordered within lower_within
      (fun e occurs => within.of_coeff occurs) (List.getElem_mem bound.2) found
    have less := leftover_lt bound.2 step.within fun s left =>
      lt_of_mem_drop_subScaled tidy ordered bound.2 found left
    exact ih step.ordered step.within (by omega)
  | case2 steps index p bound found ih =>
    have less : leftover n p (index + 1) < leftover n p index := by
      refine leftover_lt bound.2 within fun s left => ?_
      obtain ⟨j, j_lt, rfl⟩ := List.mem_drop_iff_getElem.1 left
      exact (PowerProduct.lt_iff (ordered.sorted _ (List.getElem_mem _))
        (ordered.sorted _ (List.getElem_mem bound.2))).1 (ordered.lt_of_getElem (by omega) _)
    exact ih ordered within (by omega)
  | case3 => omega

end Steps

end Completion

end ArithDecide
