import Mathlib
import ArithDecide.Nonlinear.BasisStep
import ArithDecide.Proofs.Criterion
import ArithDecide.Proofs.Reducing

/-!
# Completed bases decide membership

A pair of members is dealt with once the combination in which their leading terms cancel is a sum of
multiples that stay below: its reduction is either zero or a member from then on, and for coprime leading
products there is nothing to do. A completion keeps every other pair in its queue (`Settles`), so when the
queue is empty without a refutation, the criterion applies: with enough budget exactly the polynomials of
the ideal of the input reduce to zero (`Completion.complete_decides`).
-/

namespace ArithDecide

open MvPolynomial

theorem Leads.isZero_eq_false {d : Exponents} {p : Polynomial} (leads : Leads d p.denote) :
    p.isZero = false := by
  rw [Polynomial.isZero, List.isEmpty_eq_false_iff]
  intro empty
  apply leads.nonzero
  rw [Polynomial.denote, empty]
  rfl

namespace Polynomial

variable {p : Polynomial} {t : PowerProduct × Rat}

theorem exists_leading (nonzero : p.isZero = false) : ∃ t, p.leading? = some t := by
  rw [isZero, List.isEmpty_eq_false_iff] at nonzero
  exact ⟨_, List.head?_eq_some_head nonzero⟩

theorem Ordered.exists_leads (ordered : p.Ordered) (nonzero : p.isZero = false) :
    ∃ d, Leads d p.denote := by
  obtain ⟨t, first⟩ := exists_leading nonzero
  exact ⟨_, (ordered.leads first).2⟩

/-- Nothing is smaller than the empty product, so it leads in constants only. -/
theorem Ordered.isConstant (ordered : p.Ordered) (leads : Leads 0 p.denote) :
    p.isConstant = true := by
  obtain ⟨t, member, none_occurs⟩ := exists_of_coeff leads.nonzero
  have empty : t.1 = [] := by
    rw [← List.length_eq_zero_iff, ← PowerProduct.degree_exponents, none_occurs, map_zero]
  obtain ⟨before, rest, terms_eq⟩ := List.append_of_mem member
  have decreasing := ordered.decreasing
  have alone : before = [] ∧ rest = [] := by
    rw [terms_eq, List.pairwise_append, List.pairwise_cons] at decreasing
    obtain ⟨-, ⟨after, -⟩, earlier⟩ := decreasing
    refine ⟨List.eq_nil_iff_forall_not_mem.2 fun s at_s => ?_,
      List.eq_nil_iff_forall_not_mem.2 fun s at_s => ?_⟩
    · have at_p : s ∈ p.terms := terms_eq ▸ List.mem_append_left _ at_s
      have above := (PowerProduct.lt_iff (ordered.sorted t member) (ordered.sorted s at_p)).1
        (earlier s at_s t List.mem_cons_self)
      rw [none_occurs] at above
      exact not_le_of_gt above (leads.top _ (ordered.coeff_ne_zero at_p))
    · have below := after s at_s
      rw [empty] at below
      revert below
      cases s.1 <;> simp [PowerProduct.lt, PowerProduct.lexBefore]
  rw [Polynomial.isConstant, terms_eq, alone.1, alone.2, List.nil_append]
  exact List.isEmpty_iff.2 empty

/-- A nonzero constant is a unit. -/
theorem Ordered.one_mem (ordered : p.Ordered) (constant : p.isConstant = true)
    {I : Ideal (MvPolynomial Var ℚ)} (member : p.denote ∈ I) : 1 ∈ I := by
  rw [Polynomial.isConstant] at constant
  split at constant
  · rename_i product coeff terms_eq
    have nonzero : coeff ≠ 0 := ordered.nonzero (product, coeff) (by simp [terms_eq])
    have scalar : p.denote = C coeff := by
      rw [denote, terms_eq, List.isEmpty_iff.1 constant, List.map_singleton, List.sum_singleton,
        PowerProduct.exponents_nil]
      rfl
    have product := I.mul_mem_left (C coeff⁻¹) member
    rwa [scalar, ← C_mul, inv_mul_cancel₀ nonzero, C_1] at product
  · cases constant

end Polynomial

namespace Completion

variable {n budget : Nat} {basis ps : List Polynomial} {p q s : Polynomial} {t : PowerProduct × Rat}
  {c : Completion} {pair : Nat × Nat} {waiting : List (Nat × Nat)}
  {done : Set (MvPolynomial Var ℚ)} {D : Set Exponents}

theorem members_cons (p : Polynomial) (ps : List Polynomial) :
    members (p :: ps) = insert p.denote (members ps) := by
  ext f
  simp [members, eq_comm]

theorem members_append (basis : List Polynomial) (p : Polynomial) :
    members (basis ++ [p]) = insert p.denote (members basis) := by
  ext f
  simp [members, or_and_right, exists_or, or_comm, eq_comm]

/-- Finitely many polynomials mention finitely many variables. -/
theorem exists_tidy (ordered : ∀ p ∈ ps, p.Ordered) : ∃ n, Tidy n ps := by
  obtain ⟨n, bound⟩ := Finset.exists_nat_subset_range
    (ps.flatMap fun p => p.terms.flatMap Prod.fst).toFinset
  refine ⟨n, ordered, fun p at_p t at_t => ⟨(ordered p at_p).nonzero t at_t, fun v at_v => ?_⟩⟩
  refine Finset.mem_range.1 (bound (List.mem_toFinset.2 ?_))
  exact List.mem_flatMap.2 ⟨p, at_p, List.mem_flatMap.2 ⟨t, at_t, at_v⟩⟩

/-! ## Pairs -/

section Pair

variable (tidy : Tidy n basis) (at_p : p ∈ basis) (at_q : q ∈ basis)
include tidy at_p at_q

/-- A pair is only skipped if the leading products are coprime. -/
theorem settled_of_skipped (skipped : sPolynomial? p q = none) :
    Settled (members basis) n p.denote q.denote := by
  have p_ordered := tidy.ordered p at_p
  have q_ordered := tidy.ordered q at_q
  refine settled_of_disjoint ⟨p, at_p, rfl⟩ ⟨q, at_q, rfl⟩ (fun u => (tidy.within p at_p).of_coeff)
    (fun u => (tidy.within q at_q).of_coeff) fun d e leads leads' => ?_
  obtain ⟨s, p_first⟩ := Polynomial.exists_leading leads.isZero_eq_false
  obtain ⟨t, q_first⟩ := Polynomial.exists_leading leads'.isZero_eq_false
  obtain ⟨at_s, s_leads⟩ := p_ordered.leads p_first
  obtain ⟨at_t, t_leads⟩ := q_ordered.leads q_first
  have s_sorted := p_ordered.sorted s at_s
  have t_sorted := q_ordered.sorted t at_t
  rw [leads.unique s_leads, leads'.unique t_leads, ← PowerProduct.isCoprime_iff]
  by_contra shared
  -- the least common multiple is divisible by both, so there would be a combination
  have sorted := PowerProduct.sorted_lcm s_sorted t_sorted
  have common := PowerProduct.exponents_lcm s_sorted t_sorted
  obtain ⟨ps, left⟩ := PowerProduct.exists_div? sorted s_sorted (common ▸ le_sup_left)
  obtain ⟨qs, right⟩ := PowerProduct.exists_div? sorted t_sorted (common ▸ le_sup_right)
  simp only [sPolynomial?, p_first, q_first, shared, left, right] at skipped
  cases skipped

/-- The combination of a pair, in which the leading terms cancel. -/
theorem denote_of_sPolynomial?_eq_some (found : sPolynomial? p q = some s) :
    s.Ordered ∧ s.Within n ∧ ∃ d e, Leads d p.denote ∧ Leads e q.denote ∧
      s.denote = pairDifference d e p.denote q.denote := by
  have p_ordered := tidy.ordered p at_p
  have q_ordered := tidy.ordered q at_q
  rw [sPolynomial?] at found
  split at found
  · rename_i pp pc qp qc p_first q_first
    split at found
    · cases found
    · simp only at found
      split at found
      · rename_i ps qs left right
        obtain rfl := Option.some.inj found
        obtain ⟨p_term, p_leads⟩ := p_ordered.leads p_first
        obtain ⟨q_term, q_leads⟩ := q_ordered.leads q_first
        have p_sorted := p_ordered.sorted _ p_term
        have q_sorted := q_ordered.sorted _ q_term
        have sorted := PowerProduct.sorted_lcm p_sorted q_sorted
        have shift {p r : PowerProduct} (found : (pp.lcm qp).div? p = some r) :
            r.exponents = pp.exponents ⊔ qp.exponents - p.exponents := by
          rw [← PowerProduct.exponents_lcm p_sorted q_sorted,
            (PowerProduct.of_div?_eq_some sorted found).2, add_tsub_cancel_left]
        have lt := PowerProduct.lt_of_mem_lcm (tidy.within p at_p _ p_term).2
          (tidy.within q at_q _ q_term).2
        refine ⟨(Polynomial.ordered_zero.subScaled _ _ _).subScaled _ _ _, ?_, _, _, p_leads,
          q_leads, ?_⟩
        · have zero : Polynomial.zero.Within n := by simp [Polynomial.Within, Polynomial.zero]
          refine (zero.subScaled (tidy.within p at_p) _ fun v member => ?_).subScaled
            (tidy.within q at_q) _ fun v member => ?_
          · exact lt v (PowerProduct.mem_of_div? left member)
          · exact lt v (PowerProduct.mem_of_div? right member)
        · rw [Polynomial.denote_subScaled, Polynomial.denote_subScaled, Polynomial.denote_zero,
            pairDifference, shift left, shift right, p_ordered.coeff_denote p_term,
            q_ordered.coeff_denote q_term, one_div, one_div, map_neg, neg_mul, sub_neg_eq_add,
            zero_add]
      · cases found
  · cases found

end Pair

/-! ## Adding a polynomial -/

/-- The outcomes of adding: nothing, a refutation, or a new member with its pairs. -/
theorem add_cases (c : Completion) (budget : Nat) (p : Polynomial) :
    let result := reduceFrom c.basis budget c.steps 0 p
    (result.1.isZero = true ∧ c.add budget p = { c with steps := result.2 }) ∨
    (result.1.isConstant = true ∧
      c.add budget p = { c with steps := result.2, refutation := some result.1 }) ∨
    (result.1.isZero = false ∧ result.1.isConstant = false ∧
      c.add budget p = { c with
        basis := c.basis ++ [result.1]
        pairs := c.pairs ++ (List.range c.basis.length).map fun other => (other, c.basis.length)
        steps := result.2 }) := by
  simp only [add]
  split
  · rename_i zero
    exact .inl ⟨zero, rfl⟩
  · rename_i nonzero
    split
    · rename_i constant
      exact .inr (.inl ⟨constant, rfl⟩)
    · rename_i varying
      exact .inr (.inr ⟨Bool.eq_false_iff.2 nonzero, Bool.eq_false_iff.2 varying, rfl⟩)

/-- Members stay where they are. -/
theorem getElem?_add {i : Nat} (found : c.basis[i]? = some q) :
    (c.add budget p).basis[i]? = some q := by
  obtain ⟨-, added⟩ | ⟨-, added⟩ | ⟨-, -, added⟩ := add_cases c budget p <;> rw [added]
  · exact found
  · exact found
  · rw [List.getElem?_append_left (List.getElem?_eq_some_iff.1 found).1]
    exact found

/-- What was added is a sum of multiples of members afterwards, with leading exponents that are not larger
than its own. -/
theorem mem_multiples_add (tidy : Tidy n c.basis) (ordered : p.Ordered) (within : p.Within n)
    (lower : Lower n D) (inside : ∀ e, p.denote.coeff e ≠ 0 → e ∈ D)
    (calm : (c.add budget p).refutation = none) :
    p.denote ∈ multiples (members (c.add budget p).basis) D := by
  have reduct := reduct_reduceFrom tidy lower budget c.steps 0 ordered within inside
  obtain ⟨zero, added⟩ | ⟨-, added⟩ | ⟨nonzero, -, added⟩ := add_cases c budget p <;>
    rw [added] at calm ⊢
  · have difference := reduct.difference
    rwa [reduct.ordered.denote_eq_zero_iff.2 zero, sub_zero] at difference
  · cases calm
  · obtain ⟨d, leads⟩ := reduct.ordered.exists_leads nonzero
    rw [members_append]
    have itself := monomial_mul_mem (Set.mem_insert _ (members c.basis)) leads
      (by rw [zero_add]; exact reduct.inside d leads.nonzero) 1
    rw [show monomial 0 (1 : ℚ) = 1 from rfl, one_mul] at itself
    have sum := add_mem
      (multiples_mono (Set.subset_insert _ _) subset_rfl reduct.difference) itself
    rwa [sub_add_cancel] at sum

/-! ## The invariant -/

/-- All pairs of members are settled, but for the given ones. -/
def Settles (n : Nat) (basis : List Polynomial) (pairs : List (Nat × Nat)) : Prop :=
  ∀ i j p q, i < j → basis[i]? = some p → basis[j]? = some q →
    (i, j) ∈ pairs ∨ Settled (members basis) n p.denote q.denote

/-- A new member comes with all its pairs. -/
theorem Settles.append {pairs : List (Nat × Nat)} (settles : Settles n basis pairs)
    (p : Polynomial) : Settles n (basis ++ [p])
      (pairs ++ (List.range basis.length).map fun other => (other, basis.length)) := by
  intro i j a b less at_i at_j
  have bound := (List.getElem?_eq_some_iff.1 at_j).1
  rw [List.length_append, List.length_singleton] at bound
  rcases (Nat.lt_succ_iff.1 bound).lt_or_eq with old | rfl
  · rw [List.getElem?_append_left (by omega)] at at_i at_j
    rcases settles i j a b less at_i at_j with waits | settled
    · exact .inl (List.mem_append_left _ waits)
    · rw [members_append]
      exact .inr (settled.mono (Set.subset_insert _ _))
  · exact .inl (List.mem_append_right _ (List.mem_map.2 ⟨i, List.mem_range.2 less, rfl⟩))

/-- The polynomials that were added generate the same ideal as the members, unless there is a refutation,
and all pairs of members are settled but for those in the queue and the given ones. -/
structure Progress (n : Nat) (done : Set (MvPolynomial Var ℚ)) (waiting : List (Nat × Nat))
    (c : Completion) : Prop where
  tidy : Tidy n c.basis
  varying : ∀ p ∈ c.basis, p.isZero = false ∧ p.isConstant = false
  inside : members c.basis ⊆ Ideal.span done
  refuted : ∀ p, c.refutation = some p →
    p.Ordered ∧ p.isConstant = true ∧ p.denote ∈ Ideal.span done
  covers : c.refutation = none → done ⊆ Ideal.span (members c.basis)
  settles : c.refutation = none → Settles n c.basis (waiting ++ c.pairs)

theorem progress_empty (n : Nat) : Progress n ∅ [] empty where
  tidy := ⟨by simp [empty], by simp [empty]⟩
  varying := by simp [empty]
  inside := by simp [empty, members]
  refuted := by simp [empty]
  covers _ := Set.empty_subset _
  settles _ := by simp [Settles, empty]

/-- Adding an ordered polynomial makes progress with it: its remainder becomes a member, the refutation,
or nothing, and every pair of the new member waits. -/
theorem Progress.add (progress : Progress n done waiting c) (ordered : p.Ordered)
    (within : p.Within n) (budget : Nat) :
    Progress n (insert p.denote done) waiting (c.add budget p) := by
  have reduct := reduct_reduceFrom progress.tidy lower_within budget c.steps 0 ordered within
    fun e => within.of_coeff
  have covered : (c.add budget p).refutation = none →
      p.denote ∈ multiples (members (c.add budget p).basis) {e | e.Within n} :=
    mem_multiples_add progress.tidy ordered within lower_within fun e => within.of_coeff
  have wider : Ideal.span done ≤ Ideal.span (insert p.denote done) :=
    Ideal.span_mono (Set.subset_insert _ _)
  have result : (reduceFrom c.basis budget c.steps 0 p).1.denote ∈
      Ideal.span (insert p.denote done) := by
    have difference := Ideal.span_le.2 progress.inside (mem_span_of_mem_multiples reduct.difference)
    have rest := sub_mem (Ideal.subset_span (Set.mem_insert p.denote done)) (wider difference)
    rwa [sub_sub_cancel] at rest
  obtain ⟨zero, added⟩ | ⟨constant, added⟩ | ⟨nonzero, varying, added⟩ := add_cases c budget p <;>
    rw [added] at covered ⊢
  · exact
      { tidy := progress.tidy
        varying := progress.varying
        inside := progress.inside.trans wider
        refuted := fun q found => (progress.refuted q found).imp_right (And.imp_right (wider ·))
        covers := fun calm => Set.insert_subset (mem_span_of_mem_multiples (covered calm))
          (progress.covers calm)
        settles := progress.settles }
  · exact
      { tidy := progress.tidy
        varying := progress.varying
        inside := progress.inside.trans wider
        refuted := fun q found => by
          obtain rfl := Option.some.inj found
          exact ⟨reduct.ordered, constant, result⟩
        covers := fun calm => by cases calm
        settles := fun calm => by cases calm }
  · exact
      { tidy := ⟨List.forall_mem_append.2
            ⟨progress.tidy.ordered, List.forall_mem_singleton.2 reduct.ordered⟩,
          List.forall_mem_append.2
            ⟨progress.tidy.within, List.forall_mem_singleton.2 reduct.within⟩⟩
        varying := List.forall_mem_append.2
          ⟨progress.varying, List.forall_mem_singleton.2 ⟨nonzero, varying⟩⟩
        inside := by
          rw [members_append]
          exact Set.insert_subset result (progress.inside.trans wider)
        refuted := fun q found => (progress.refuted q found).imp_right (And.imp_right (wider ·))
        covers := fun calm => Set.insert_subset (mem_span_of_mem_multiples (covered calm)) <| by
          rw [members_append]
          exact (progress.covers calm).trans (Ideal.span_mono (Set.subset_insert _ _))
        settles := fun calm => by
          rw [← List.append_assoc]
          exact (progress.settles calm).append _ }

/-- Adding an element of the ideal leaves the ideal as it is. -/
theorem Progress.of_mem {f : MvPolynomial Var ℚ} (progress : Progress n (insert f done) waiting c)
    (member : f ∈ Ideal.span done) : Progress n done waiting c := by
  have same : Ideal.span (insert f done) = Ideal.span done :=
    le_antisymm (Ideal.span_le.2 (Set.insert_subset member Ideal.subset_span))
      (Ideal.span_mono (Set.subset_insert f done))
  exact
    { tidy := progress.tidy
      varying := progress.varying
      inside := same ▸ progress.inside
      refuted := same ▸ progress.refuted
      covers := fun calm => (Set.subset_insert f done).trans (progress.covers calm)
      settles := progress.settles }

/-- After a refutation it does not matter what else the input has. -/
theorem Progress.of_refutation {more : Set (MvPolynomial Var ℚ)} (progress : Progress n done waiting c)
    (refuted : c.refutation.isSome = true) (subset : done ⊆ more) : Progress n more waiting c where
  tidy := progress.tidy
  varying := progress.varying
  inside := progress.inside.trans (Ideal.span_mono subset)
  refuted q found := (progress.refuted q found).imp_right (And.imp_right (Ideal.span_mono subset ·))
  covers calm := by simp [calm] at refuted
  settles calm := by simp [calm] at refuted

theorem Progress.addAll (progress : Progress n done [] c) (tidy : Tidy n ps) (budget : Nat) :
    Progress n (done ∪ members ps) [] (addAll budget ps c) := by
  induction ps generalizing c done with
  | nil => simpa [Completion.addAll, members] using progress
  | cons p rest ih =>
    obtain ⟨ordered, others_ordered⟩ := List.forall_mem_cons.1 tidy.ordered
    obtain ⟨within, others_within⟩ := List.forall_mem_cons.1 tidy.within
    have next := progress.add ordered within budget
    simp only [Completion.addAll]
    rw [members_cons, Set.union_insert, ← Set.insert_union]
    split
    · rename_i refuted
      exact next.of_refutation refuted Set.subset_union_left
    · exact ih next ⟨others_ordered, others_within⟩

/-- A pair that is settled needs no place in the queue. -/
theorem Progress.settle (progress : Progress n done [pair] c)
    (settled : c.refutation = none → ∀ p q, c.basis[pair.1]? = some p → c.basis[pair.2]? = some q →
      Settled (members c.basis) n p.denote q.denote) : Progress n done [] c :=
  { progress with
    settles := fun calm i j p q less at_i at_j => by
      rcases progress.settles calm i j p q less at_i at_j with waits | other
      · rcases List.mem_cons.1 waits with rfl | later
        · exact .inr (settled calm p q at_i at_j)
        · exact .inl later
      · exact .inr other }

/-- Taking a pair from the queue. -/
theorem Progress.pop {rest : List (Nat × Nat)} (progress : Progress n done [] c)
    (front : c.pairs = pair :: rest) (steps : Nat) :
    Progress n done [pair] { c with pairs := rest, steps := steps } where
  tidy := progress.tidy
  varying := progress.varying
  inside := progress.inside
  refuted := progress.refuted
  covers := progress.covers
  settles calm := by
    have settles := progress.settles calm
    rwa [front] at settles

/-- Once the combination of a pair was added, the pair is settled. -/
theorem Progress.settle_add (progress : Progress n done [pair] c)
    (found : c.pairPolynomial? pair = some s) (budget : Nat) :
    Progress n done [] (c.add budget s) := by
  rw [pairPolynomial?] at found
  split at found
  · rename_i p q at_first at_second
    have at_p := List.mem_of_getElem? at_first
    have at_q := List.mem_of_getElem? at_second
    obtain ⟨ordered, within, d, e, leads, leads', denotes⟩ :=
      denote_of_sPolynomial?_eq_some progress.tidy at_p at_q found
    have in_ideal : s.denote ∈ Ideal.span done := by
      rw [denotes, pairDifference]
      exact sub_mem (Ideal.mul_mem_left _ _ (progress.inside ⟨p, at_p, rfl⟩))
        (Ideal.mul_mem_left _ _ (progress.inside ⟨q, at_q, rfl⟩))
    refine ((progress.add ordered within budget).of_mem in_ideal).settle
      fun calm a b at_a at_b d' e' lead lead' => ?_
    obtain rfl := Option.some.inj ((getElem?_add at_first).symm.trans at_a)
    obtain rfl := Option.some.inj ((getElem?_add at_second).symm.trans at_b)
    obtain rfl := leads.unique lead
    obtain rfl := leads'.unique lead'
    rw [← denotes]
    refine mem_multiples_add progress.tidy ordered within (lower_below _) (fun u occurs => ?_) calm
    refine ⟨within.of_coeff occurs, lt_of_coeff_pairDifference leads leads' ?_⟩
    rwa [← denotes]
  · cases found

theorem Progress.run (progress : Progress n done [] c) (budget : Nat) :
    Progress n done [] (run budget c) := by
  fun_induction Completion.run budget c with
  | case1 => exact progress
  | case2 c running pair rest front skipped ih =>
    refine ih ((progress.pop front c.steps).settle fun _ p q at_p at_q => ?_)
    simp only [pairPolynomial?, at_p, at_q] at skipped
    exact settled_of_skipped progress.tidy (List.mem_of_getElem? at_p) (List.mem_of_getElem? at_q)
      skipped
  | case3 c running pair rest front s found ih =>
    exact ih ((progress.pop front (c.steps + 1)).settle_add found budget)
  | case4 => exact progress

theorem progress_complete (tidy : Tidy n ps) (budget : Nat) :
    Progress n (members ps) [] (complete budget ps) := by
  have added := (progress_empty n).addAll tidy budget
  rw [Set.empty_union] at added
  exact added.run budget

/-- There are three reasons to stop. -/
theorem run_ends (budget : Nat) (c : Completion) : (run budget c).refutation.isSome = true ∨
    budget ≤ (run budget c).steps ∨ (run budget c).pairs = [] := by
  fun_induction run budget c with
  | case1 c running empty => exact .inr (.inr empty)
  | case2 c running pair rest front skipped ih => exact ih
  | case3 c running pair rest front s found ih => exact ih
  | case4 c stopped =>
    by_cases refuted : c.refutation.isSome = true
    · exact .inl refuted
    · refine .inr (.inl (Nat.not_lt.1 fun unspent => stopped ⟨?_, unspent⟩))
      simpa using refuted

/-! ## The main statement -/

/-- The polynomials generate the ideal, their leading exponents divide all those of the ideal, and reducing
a polynomial by them tells whether it belongs to the ideal, if the budget is large enough. -/
structure Decides (basis : List Polynomial) (I : Ideal (MvPolynomial Var ℚ)) : Prop where
  generates : Ideal.span (members basis) = I
  leading : ∀ f ∈ I, f ≠ 0 →
    ∃ p ∈ basis, ∃ d top, Leads d p.denote ∧ Leads top f ∧ d ≤ top
  reduces : ∀ p : Polynomial, p.Ordered → ∃ enough, ∀ budget ≥ enough,
    ((reduceFrom basis budget 0 0 p).1.isZero = true ↔ p.denote ∈ I)

/-- If no member is found that divides a term, none of the leading products divides it. -/
theorem reducer?_eq_none {lead : PowerProduct × Rat} (absent : reducer? basis t = none)
    (member : p ∈ basis) (first : p.leading? = some lead) : t.1.div? lead.1 = none := by
  induction basis with
  | nil => cases member
  | cons head rest ih =>
    rw [reducer?] at absent
    rcases List.mem_cons.1 member with rfl | later
    · simp only [first] at absent
      split at absent
      · assumption
      · cases absent
    · split at absent
      · exact ih absent later
      · split at absent
        · exact ih absent later
        · cases absent

/-- If all leading exponents of an ideal are multiples of those of members, only zero is irreducible. -/
theorem isZero_of_irreducible (tidy : Tidy n basis) (ordered : p.Ordered)
    (irreducible : ∀ t ∈ p.terms, reducer? basis t = none)
    (leading : p.denote ≠ 0 → ∃ q ∈ basis, ∃ d top, Leads d q.denote ∧ Leads top p.denote ∧ d ≤ top) :
    p.isZero = true := by
  by_contra nonzero
  obtain ⟨q, member, d, top, q_leads, p_leads, le⟩ :=
    leading fun zero => nonzero (ordered.denote_eq_zero_iff.1 zero)
  obtain ⟨t, p_first⟩ := Polynomial.exists_leading p_leads.isZero_eq_false
  obtain ⟨s, q_first⟩ := Polynomial.exists_leading q_leads.isZero_eq_false
  obtain ⟨at_t, t_leads⟩ := ordered.leads p_first
  obtain ⟨at_s, s_leads⟩ := (tidy.ordered q member).leads q_first
  rw [q_leads.unique s_leads, p_leads.unique t_leads] at le
  obtain ⟨shift, divides⟩ := PowerProduct.exists_div? (ordered.sorted t at_t)
    ((tidy.ordered q member).sorted s at_s) le
  rw [reducer?_eq_none (irreducible t at_t) member q_first] at divides
  cases divides

/-- A basis all of whose pairs are settled decides membership. -/
theorem Progress.decides (progress : Progress n done [] c) (calm : c.refutation = none)
    (finished : c.pairs = []) : Decides c.basis (Ideal.span done) := by
  have generates : Ideal.span (members c.basis) = Ideal.span done :=
    le_antisymm (Ideal.span_le.2 progress.inside) (Ideal.span_le.2 (progress.covers calm))
  have settled : ∀ g ∈ members c.basis, ∀ h ∈ members c.basis, Settled (members c.basis) n g h := by
    have settles := progress.settles calm
    rw [finished, List.append_nil] at settles
    rintro g ⟨p, at_p, rfl⟩ h ⟨q, at_q, rfl⟩
    obtain ⟨i, at_i⟩ := List.getElem?_of_mem at_p
    obtain ⟨j, at_j⟩ := List.getElem?_of_mem at_q
    rcases lt_trichotomy i j with less | rfl | more
    · exact (settles i j p q less at_i at_j).resolve_left List.not_mem_nil
    · obtain rfl := Option.some.inj (at_i.symm.trans at_j)
      exact settled_self _
    · exact ((settles j i q p more at_j at_i).resolve_left List.not_mem_nil).symm
  have leading : ∀ f ∈ Ideal.span done, f ≠ 0 →
      ∃ p ∈ c.basis, ∃ d top, Leads d p.denote ∧ Leads top f ∧ d ≤ top := by
    intro f member nonzero
    have all : ∀ g ∈ members c.basis, ∃ d, Leads d g := by
      rintro g ⟨p, at_p, rfl⟩
      exact (progress.tidy.ordered p at_p).exists_leads (progress.varying p at_p).1
    obtain ⟨g, ⟨p, at_p, rfl⟩, leads⟩ :=
      exists_le_of_settled settled all (generates ▸ member) nonzero
    exact ⟨p, at_p, leads⟩
  refine ⟨generates, leading, fun p ordered => ?_⟩
  -- the polynomial may mention more variables than the input
  obtain ⟨m, tidy⟩ := exists_tidy (List.forall_mem_cons.2 ⟨ordered, progress.tidy.ordered⟩)
  obtain ⟨-, basis_ordered⟩ := List.forall_mem_cons.1 tidy.ordered
  obtain ⟨within, basis_within⟩ := List.forall_mem_cons.1 tidy.within
  have tidy : Tidy m c.basis := ⟨basis_ordered, basis_within⟩
  refine ⟨leftover m p 0 + 1, fun budget enough => ?_⟩
  have reduct := reduct_reduceFrom tidy lower_within budget 0 0 ordered within
    fun e => within.of_coeff
  have difference := generates ▸ mem_span_of_mem_multiples reduct.difference
  constructor
  · intro zero
    rwa [reduct.ordered.denote_eq_zero_iff.2 zero, sub_zero] at difference
  · intro member
    have unspent : (reduceFrom c.basis budget 0 0 p).2 < budget :=
      steps_reduceFrom_lt tidy ordered within (by omega)
    refine isZero_of_irreducible tidy reduct.ordered
      (irreducible_reduceFrom tidy ordered unspent (by simp)) (leading _ ?_)
    have rest := sub_mem member difference
    rwa [sub_sub_cancel] at rest

/-- If one is in the ideal, a completion that has time to end refutes. -/
theorem Progress.one_mem_iff (progress : Progress n done [] c)
    (finished : c.refutation.isSome = true ∨ c.pairs = []) :
    1 ∈ Ideal.span done ↔ c.refutation.isSome = true := by
  constructor
  · intro member
    by_contra calm
    have calm : c.refutation = none := by simpa using calm
    have decides := progress.decides calm (finished.resolve_left (by simp [calm]))
    obtain ⟨p, at_p, d, top, leads, one_leads, le⟩ := decides.leading 1 member one_ne_zero
    have zero : top = 0 := by
      have occurs := one_leads.nonzero
      rw [coeff_one] at occurs
      exact (of_not_not fun apart => occurs (if_neg apart)).symm
    rw [zero, nonpos_iff_eq_zero] at le
    subst le
    have constant := (progress.tidy.ordered p at_p).isConstant leads
    rw [(progress.varying p at_p).2] at constant
    cases constant
  · intro refuted
    obtain ⟨p, found⟩ := Option.isSome_iff_exists.1 refuted
    obtain ⟨ordered, constant, member⟩ := progress.refuted p found
    exact ordered.one_mem constant member

/-- Unless the budget is spent. -/
theorem complete_ends (unspent : (complete budget ps).steps < budget) :
    (complete budget ps).refutation.isSome = true ∨ (complete budget ps).pairs = [] := by
  rcases run_ends budget (addAll budget ps empty) with refuted | spent | finished
  · exact .inl refuted
  · exact absurd spent (Nat.not_le.2 unspent)
  · exact .inr finished

/-- A completion that ends with an empty queue and no refutation decides membership in the ideal of the
input. Unless the budget is spent it ends so or refutes, and it refutes just when one is in the ideal. -/
theorem complete_decides (budget : Nat) (input : List Polynomial) (ordered : ∀ p ∈ input, p.Ordered) :
    let c := complete budget input
    let I := Ideal.span (members input)
    (c.refutation = none → c.pairs = [] → Decides c.basis I) ∧
      (c.steps < budget → (c.refutation = none → c.pairs = []) ∧
        (c.refutation.isSome = true ↔ 1 ∈ I)) := by
  intro c I
  obtain ⟨n, tidy⟩ := exists_tidy ordered
  have progress : Progress n (members input) [] c := progress_complete tidy budget
  refine ⟨progress.decides, fun unspent => ?_⟩
  have ends := complete_ends unspent
  exact ⟨fun calm => ends.resolve_left (by simp [c, calm]), (progress.one_mem_iff ends).symm⟩

/-- The parabola and the hyperbolas over it, two equations of the twisted cubic. -/
def cubic : List Polynomial :=
  [⟨[([0, 0], 1), ([1], -1)], [0]⟩, ⟨[([0, 1], 1), ([2], -1)], [1]⟩]

/-- Two more members show up, and their pairs reduce to zero. -/
theorem complete_cubic : complete 10 cubic =
    { basis := cubic ++
        [⟨[([0, 2], 1), ([1, 1], -1)], [0, 1]⟩, ⟨[([1, 1, 1], 1), ([2, 2], -1)], [0, 1]⟩]
      pairs := []
      steps := 6
      refutation := none } := by
  cbv

theorem complete_decides_cubic : Decides (complete 10 cubic).basis (Ideal.span (members cubic)) ∧
    1 ∉ Ideal.span (members cubic) := by
  have ordered : ∀ p ∈ cubic, p.Ordered := by decide
  obtain ⟨decides, unspent⟩ := complete_decides 10 cubic ordered
  rw [complete_cubic] at decides unspent ⊢
  refine ⟨decides rfl rfl, fun member => ?_⟩
  have refuted := (unspent (by decide)).2.2 member
  cases refuted

end Completion

/-! ## The basis step -/

namespace Engine

open Completion

/-- The polynomials of the definitions and the rows are in order. -/
theorem ordered_basisInput (e : Engine) : ∀ p ∈ e.basisInput, p.Ordered := by
  have known (terms : List (List Var × Rat)) : (e.knownPolynomial terms).Ordered := by
    refine Polynomial.ordered_ofTerms (fun t member => ?_) _
    obtain ⟨s, -, rfl⟩ := List.mem_map.1 member
    exact PowerProduct.sorted_mergeSort _
  intro p member
  rcases List.mem_append.1 (List.mem_filter.1 member).1 with from_monomial | from_row
  · obtain ⟨m, -, rfl⟩ := List.mem_map.1 from_monomial
    exact known _
  · obtain ⟨row, -, rfl⟩ := List.mem_map.1 from_row
    exact known _

/-- If one is in the ideal of the definitions and the rows, the step finds a conflict unless it spends its
budget. -/
theorem basisStep_of_one_mem (e : Engine)
    (unspent : (complete e.options.maxBasisSteps e.basisInput).steps < e.options.maxBasisSteps)
    (member : 1 ∈ Ideal.span (members e.basisInput)) : e.basisStep.2 = .conflict := by
  obtain ⟨n, tidy⟩ := exists_tidy e.ordered_basisInput
  have refuted := ((progress_complete tidy _).one_mem_iff (complete_ends unspent)).1 member
  obtain ⟨p, found⟩ := Option.isSome_iff_exists.1 refuted
  have counted : (e.count fun s => { s with basisSteps := s.basisSteps + 1 }).basisInput =
      e.basisInput := rfl
  simp only [basisStep, counted, found]

end Engine

end ArithDecide
