import ArithDecide.Proofs.Criterion
import ArithDecide.Proofs.Exponents

/-!
# Polynomials in order

A polynomial is in order (`Polynomial.Ordered`) if its products are sorted and strictly decrease and no
coefficient is zero. Then its terms are the terms of what it denotes, and the first one is the leading one
(`Polynomial.Ordered.leads`). All operations keep the order and denote what they should.
-/

namespace ArithDecide

namespace PowerProduct

variable {p q r : PowerProduct}

theorem lt_irrefl (sorted : p.Sorted) : p.lt p = false := by
  rw [Bool.eq_false_iff, Ne, lt_iff sorted sorted]
  exact fun less => (less.ne rfl)

theorem lt_trans (sorted : p.Sorted) (sorted' : q.Sorted) (sorted'' : r.Sorted)
    (first : p.lt q = true) (second : q.lt r = true) : p.lt r = true :=
  (lt_iff sorted sorted'').2
    (((lt_iff sorted sorted').1 first).trans ((lt_iff sorted' sorted'').1 second))

theorem lt_asymm (sorted : p.Sorted) (sorted' : q.Sorted) (less : p.lt q = true) :
    q.lt p = false := by
  by_contra other
  have cycle := lt_trans sorted sorted' sorted less (by simpa using other)
  rw [lt_irrefl sorted] at cycle
  cases cycle

theorem lt_of_not_lt (sorted : p.Sorted) (sorted' : q.Sorted) (not_less : ¬q.lt p = true)
    (apart : p ≠ q) : p.lt q = true := by
  rw [lt_iff sorted' sorted, not_lt] at not_less
  refine (lt_iff sorted sorted').2 (lt_of_le_of_ne not_less fun same => apart ?_)
  exact sorted.eq_of_exponents sorted' (toDegLex_injective same)

end PowerProduct

namespace Polynomial

open MvPolynomial PowerProduct

variable {terms : List (PowerProduct × Rat)} {product : PowerProduct} {coeff : Rat}

/-! ## Lists of terms -/

/-- Adding a term adds to a sum over the terms what the term has in it. -/
theorem sum_addToTerms {M : Type*} [AddCommMonoid M] (value : PowerProduct → Rat →+ M)
    (product : PowerProduct) (coeff : Rat) (terms : List (PowerProduct × Rat)) :
    ((addToTerms product coeff terms).map fun t => value t.1 t.2).sum =
      (terms.map fun t => value t.1 t.2).sum + value product coeff := by
  induction terms with
  | nil =>
    rw [addToTerms]
    split
    · rename_i zero
      simp [zero]
    · simp
  | cons head rest ih =>
    obtain ⟨other, d⟩ := head
    rw [addToTerms]
    split
    · split
      · rename_i zero
        simp [zero]
      · simp only [List.map_cons, List.sum_cons]
        exact add_comm _ _
    · split
      · rename_i same
        subst same
        split
        · rename_i cancel
          have gone : value product d + value product coeff = 0 := by rw [← map_add, cancel, map_zero]
          rw [List.map_cons, List.sum_cons, add_right_comm, gone, zero_add]
        · simp only [List.map_cons, List.sum_cons, map_add]
          exact add_right_comm _ _ _
      · simp only [List.map_cons, List.sum_cons, ih]
        exact (add_assoc _ _ _).symm

theorem sum_foldl_addToTerms {M β : Type*} [AddCommMonoid M] (value : PowerProduct → Rat →+ M)
    (items : List β) (product : β → PowerProduct) (coeff : β → Rat)
    (terms : List (PowerProduct × Rat)) :
    ((items.foldl (fun acc a => addToTerms (product a) (coeff a) acc) terms).map fun t =>
        value t.1 t.2).sum =
      (terms.map fun t => value t.1 t.2).sum +
        (items.map fun a => value (product a) (coeff a)).sum := by
  induction items generalizing terms with
  | nil => simp
  | cons a rest ih =>
    rw [List.foldl_cons, ih, sum_addToTerms, List.map_cons, List.sum_cons, add_assoc]

/-- The products are sorted and strictly decrease, and no coefficient is zero. -/
structure OrderedTerms (terms : List (PowerProduct × Rat)) : Prop where
  sorted : ∀ t ∈ terms, t.1.Sorted
  nonzero : ∀ t ∈ terms, t.2 ≠ 0
  decreasing : terms.Pairwise fun s t => t.1.lt s.1 = true

theorem orderedTerms_nil : OrderedTerms [] := ⟨by simp, by simp, .nil⟩

theorem orderedTerms_cons {t : PowerProduct × Rat} : OrderedTerms (t :: terms) ↔
    t.1.Sorted ∧ t.2 ≠ 0 ∧ (∀ s ∈ terms, s.1.lt t.1 = true) ∧ OrderedTerms terms := by
  constructor
  · rintro ⟨sorted, nonzero, decreasing⟩
    obtain ⟨sorted_t, sorted⟩ := List.forall_mem_cons.1 sorted
    obtain ⟨nonzero_t, nonzero⟩ := List.forall_mem_cons.1 nonzero
    obtain ⟨largest, decreasing⟩ := List.pairwise_cons.1 decreasing
    exact ⟨sorted_t, nonzero_t, largest, sorted, nonzero, decreasing⟩
  · rintro ⟨sorted_t, nonzero_t, largest, sorted, nonzero, decreasing⟩
    exact ⟨List.forall_mem_cons.2 ⟨sorted_t, sorted⟩, List.forall_mem_cons.2 ⟨nonzero_t, nonzero⟩,
      List.pairwise_cons.2 ⟨largest, decreasing⟩⟩

/-- The products of the new terms are those of the old ones and the one that is added. -/
theorem product_of_mem_addToTerms {t : PowerProduct × Rat}
    (member : t ∈ addToTerms product coeff terms) : t.1 = product ∨ ∃ s ∈ terms, s.1 = t.1 := by
  induction terms with
  | nil =>
    rw [addToTerms] at member
    split at member
    · cases member
    · rw [List.mem_singleton.1 member]
      exact .inl rfl
  | cons head rest ih =>
    obtain ⟨other, d⟩ := head
    have old {s : PowerProduct × Rat} (at_s : s ∈ (other, d) :: rest) :
        s.1 = product ∨ ∃ u ∈ (other, d) :: rest, u.1 = s.1 := .inr ⟨s, at_s, rfl⟩
    rw [addToTerms] at member
    split at member
    · split at member
      · exact old member
      · rcases List.mem_cons.1 member with rfl | later
        · exact .inl rfl
        · exact old later
    · split at member
      · split at member
        · exact old (List.mem_cons_of_mem _ member)
        · rcases List.mem_cons.1 member with rfl | later
          · exact .inr ⟨_, List.mem_cons_self, rfl⟩
          · exact old (List.mem_cons_of_mem _ later)
      · rcases List.mem_cons.1 member with rfl | later
        · exact .inr ⟨_, List.mem_cons_self, rfl⟩
        · rcases ih later with same | ⟨s, at_s, same⟩
          · exact .inl same
          · exact .inr ⟨s, List.mem_cons_of_mem _ at_s, same⟩

/-- Adding a term keeps the terms in the order of their products, without zero coefficients. -/
theorem OrderedTerms.addToTerms (ordered : OrderedTerms terms) (sorted : product.Sorted) :
    OrderedTerms (addToTerms product coeff terms) := by
  induction terms with
  | nil =>
    rw [Polynomial.addToTerms]
    split
    · exact orderedTerms_nil
    · rename_i nonzero
      exact orderedTerms_cons.2 ⟨sorted, nonzero, by simp, orderedTerms_nil⟩
  | cons head rest ih =>
    obtain ⟨other, d⟩ := head
    obtain ⟨sorted_other, nonzero, largest, ordered_rest⟩ := orderedTerms_cons.1 ordered
    rw [Polynomial.addToTerms]
    split
    · rename_i less
      split
      · exact ordered
      · rename_i nonzero'
        refine orderedTerms_cons.2 ⟨sorted, nonzero', List.forall_mem_cons.2 ⟨less, fun s at_s => ?_⟩,
          ordered⟩
        exact PowerProduct.lt_trans (ordered_rest.sorted s at_s) sorted_other sorted
          (largest s at_s) less
    · rename_i not_less
      split
      · split
        · exact ordered_rest
        · rename_i left
          exact orderedTerms_cons.2 ⟨sorted_other, left, largest, ordered_rest⟩
      · rename_i apart
        have less := PowerProduct.lt_of_not_lt sorted sorted_other not_less apart
        refine orderedTerms_cons.2 ⟨sorted_other, nonzero, fun s at_s => ?_, ih ordered_rest⟩
        rcases product_of_mem_addToTerms at_s with same | ⟨u, at_u, same⟩
        · exact same ▸ less
        · exact same ▸ largest u at_u

theorem OrderedTerms.foldl_addToTerms {β : Type*} {items : List β} {product : β → PowerProduct}
    {coeff : β → Rat} (ordered : OrderedTerms terms) (sorted : ∀ a ∈ items, (product a).Sorted) :
    OrderedTerms (items.foldl (fun acc a => Polynomial.addToTerms (product a) (coeff a) acc) terms) := by
  induction items generalizing terms with
  | nil => exact ordered
  | cons a rest ih =>
    obtain ⟨first, others⟩ := List.forall_mem_cons.1 sorted
    exact ih (ordered.addToTerms first) others

/-- Terms that are larger than what is added stay where they are. -/
theorem OrderedTerms.take_addToTerms {k : Nat} (ordered : OrderedTerms terms) (sorted : product.Sorted)
    (larger : ∀ t ∈ terms.take k, product.lt t.1 = true) (le : k ≤ terms.length) :
    (Polynomial.addToTerms product coeff terms).take k = terms.take k := by
  induction terms generalizing k with
  | nil =>
    rw [Nat.le_zero.1 le]
    rfl
  | cons head rest ih =>
    cases k with
    | zero => rfl
    | succ k =>
      obtain ⟨other, d⟩ := head
      obtain ⟨sorted_other, -, -, ordered_rest⟩ := orderedTerms_cons.1 ordered
      obtain ⟨less, larger⟩ := List.forall_mem_cons.1 larger
      have not_before := PowerProduct.lt_asymm sorted sorted_other less
      have apart : product ≠ other := fun same => by
        rw [same, PowerProduct.lt_irrefl sorted_other] at less
        cases less
      rw [Polynomial.addToTerms, if_neg (Bool.eq_false_iff.1 not_before), if_neg apart,
        List.take_succ_cons, List.take_succ_cons, ih ordered_rest larger (Nat.le_of_succ_le_succ le)]

/-! ## Polynomials and what they denote -/

/-- The products of the polynomial are sorted and strictly decrease, and no coefficient is zero. -/
def Ordered (p : Polynomial) : Prop := OrderedTerms p.terms

instance : DecidablePred Ordered := fun p =>
  decidable_of_iff ((∀ t ∈ p.terms, t.1.Pairwise (· ≤ ·)) ∧ (∀ t ∈ p.terms, t.2 ≠ 0) ∧
      p.terms.Pairwise fun s t => t.1.lt s.1 = true)
    ⟨fun all => ⟨all.1, all.2.1, all.2.2⟩, fun all => ⟨all.sorted, all.nonzero, all.decreasing⟩⟩

/-- The polynomial as an element of the polynomial ring. -/
noncomputable def denote (p : Polynomial) : MvPolynomial Var ℚ :=
  (p.terms.map fun t => monomial t.1.exponents t.2).sum

variable {p q : Polynomial} {t : PowerProduct × Rat} {e : Exponents}

theorem exists_of_coeff_sum (occurs :
    ((terms.map fun t => (monomial t.1.exponents t.2 : MvPolynomial Var ℚ)).sum).coeff e ≠ 0) :
    ∃ t ∈ terms, t.1.exponents = e := by
  induction terms with
  | nil => exact absurd (coeff_zero e) occurs
  | cons head rest ih =>
    rw [List.map_cons, List.sum_cons, coeff_add, coeff_monomial] at occurs
    split at occurs
    · rename_i same
      exact ⟨head, List.mem_cons_self, same⟩
    · rw [zero_add] at occurs
      obtain ⟨t, member, same⟩ := ih occurs
      exact ⟨t, List.mem_cons_of_mem _ member, same⟩

/-- In ordered terms no product occurs twice, so the coefficient of each is that of its term. -/
theorem OrderedTerms.coeff_sum (ordered : OrderedTerms terms) (member : t ∈ terms) :
    ((terms.map fun t => (monomial t.1.exponents t.2 : MvPolynomial Var ℚ)).sum).coeff
      t.1.exponents = t.2 := by
  induction terms with
  | nil => cases member
  | cons head rest ih =>
    obtain ⟨sorted, -, largest, ordered_rest⟩ := orderedTerms_cons.1 ordered
    have apart {s : PowerProduct × Rat} (at_s : s ∈ rest) : s.1.exponents ≠ head.1.exponents := by
      intro same
      have less := (PowerProduct.lt_iff (ordered_rest.sorted s at_s) sorted).1 (largest s at_s)
      exact less.ne (congrArg toDegLex same)
    rw [List.map_cons, List.sum_cons, coeff_add, coeff_monomial]
    rcases List.mem_cons.1 member with rfl | later
    · rw [if_pos rfl, add_eq_left]
      by_contra occurs
      obtain ⟨s, at_s, same⟩ := exists_of_coeff_sum occurs
      exact apart at_s same
    · rw [if_neg (apart later).symm, zero_add, ih ordered_rest later]

/-- The exponents that occur are those of the terms. -/
theorem exists_of_coeff (occurs : p.denote.coeff e ≠ 0) : ∃ t ∈ p.terms, t.1.exponents = e :=
  exists_of_coeff_sum occurs

theorem Ordered.coeff_denote (ordered : p.Ordered) (member : t ∈ p.terms) :
    p.denote.coeff t.1.exponents = t.2 :=
  OrderedTerms.coeff_sum ordered member

theorem Ordered.coeff_ne_zero (ordered : p.Ordered) (member : t ∈ p.terms) :
    p.denote.coeff t.1.exponents ≠ 0 := by
  rw [ordered.coeff_denote member]
  exact ordered.nonzero t member

/-- The first term leads. -/
theorem Ordered.leads (ordered : p.Ordered) (first : p.leading? = some t) :
    t ∈ p.terms ∧ Leads t.1.exponents p.denote := by
  obtain ⟨rest, terms_eq⟩ := List.head?_eq_some_iff.1 first
  have member : t ∈ p.terms := terms_eq ▸ List.mem_cons_self
  refine ⟨member, ordered.coeff_ne_zero member, fun e occurs => ?_⟩
  obtain ⟨s, at_s, rfl⟩ := exists_of_coeff occurs
  rw [terms_eq] at at_s
  rcases List.mem_cons.1 at_s with rfl | later
  · exact le_refl _
  · have parts := ordered
    rw [Ordered, terms_eq, orderedTerms_cons] at parts
    exact ((PowerProduct.lt_iff (parts.2.2.2.sorted s later) parts.1).1
      (parts.2.2.1 s later)).le

theorem Ordered.denote_eq_zero_iff (ordered : p.Ordered) : p.denote = 0 ↔ p.isZero = true := by
  rw [isZero, List.isEmpty_iff]
  constructor
  · intro zero
    refine List.eq_nil_iff_forall_not_mem.2 fun t member => ordered.coeff_ne_zero member ?_
    rw [zero, MvPolynomial.coeff_zero]
  · intro empty
    rw [denote, empty]
    rfl

/-! ### Operations -/

theorem ordered_zero : zero.Ordered := orderedTerms_nil

@[simp] theorem denote_zero : zero.denote = 0 := rfl

theorem ordered_ofTerms (sorted : ∀ t ∈ terms, t.1.Sorted) (reasons : List NodeId) :
    (ofTerms terms reasons).Ordered :=
  orderedTerms_nil.foldl_addToTerms sorted

theorem Ordered.subScaled (ordered : p.Ordered) (factor : Rat) (shift : PowerProduct)
    (q : Polynomial) : (p.subScaled factor shift q).Ordered :=
  OrderedTerms.foldl_addToTerms ordered fun _ _ => sorted_mul _ _

theorem denote_subScaled (p : Polynomial) (factor : Rat) (shift : PowerProduct) (q : Polynomial) :
    (p.subScaled factor shift q).denote =
      p.denote - monomial shift.exponents factor * q.denote := by
  have sum := sum_foldl_addToTerms
    (fun product => (monomial product.exponents : ℚ →ₗ[ℚ] MvPolynomial Var ℚ).toAddMonoidHom)
    q.terms (fun t => t.1.mul shift) (fun t => -(factor * t.2)) p.terms
  refine sum.trans ?_
  rw [sub_eq_add_neg, ← neg_mul, denote, denote, ← List.sum_map_mul_left]
  refine congrArg _ (congrArg List.sum (List.map_congr_left fun t _ => ?_))
  simp only [LinearMap.toAddMonoidHom_coe]
  rw [exponents_mul, ← map_neg, monomial_mul, neg_mul, add_comm]

/-- What is larger than all that is subtracted stays in its place. -/
theorem Ordered.take_subScaled {k : Nat} {factor : Rat} {shift : PowerProduct} (ordered : p.Ordered)
    (larger : ∀ t ∈ p.terms.take k, ∀ s ∈ q.terms, (s.1.mul shift).lt t.1 = true)
    (le : k ≤ p.terms.length) : (p.subScaled factor shift q).terms.take k = p.terms.take k := by
  have kept : ∀ (items terms : List (PowerProduct × Rat)), OrderedTerms terms →
      terms.take k = p.terms.take k → k ≤ terms.length → (∀ s ∈ items, s ∈ q.terms) →
      (items.foldl (fun acc t => addToTerms (t.1.mul shift) (-(factor * t.2)) acc) terms).take k =
        p.terms.take k := by
    intro items
    induction items with
    | nil => exact fun terms _ same _ _ => same
    | cons s rest ih =>
      intro terms ordered_terms same le_terms inside
      obtain ⟨first, others⟩ := List.forall_mem_cons.1 inside
      have sorted := sorted_mul s.1 shift
      have added : (addToTerms (s.1.mul shift) (-(factor * s.2)) terms).take k = terms.take k :=
        ordered_terms.take_addToTerms sorted (fun t member => larger t (same ▸ member) s first) le_terms
      have long : k ≤ (addToTerms (s.1.mul shift) (-(factor * s.2)) terms).length := by
        have length := congrArg List.length added
        rw [List.length_take, List.length_take] at length
        omega
      exact ih _ (ordered_terms.addToTerms sorted) (added.trans same) long others
  exact kept q.terms p.terms ordered rfl le fun _ member => member

end Polynomial

end ArithDecide
