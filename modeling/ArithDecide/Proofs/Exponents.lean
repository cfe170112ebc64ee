import Mathlib.Data.Finsupp.MonomialOrder.DegLex
import Mathlib.Data.Finsupp.Multiset
import ArithDecide.Polynomial

/-!
# Power products and their exponents

A sorted product is determined by the exponents of its variables (`PowerProduct.exponents`). In terms of
exponents products are sums, quotients are differences, least common multiples are suprema, and the order
of products is the degree-lexicographic one (`PowerProduct.lt_iff`).
-/

namespace ArithDecide.PowerProduct

/-- The variables stand in order. -/
def Sorted (p : PowerProduct) : Prop := p.Pairwise (· ≤ ·)

/-- The exponents of the variables. -/
noncomputable def exponents (p : PowerProduct) : Var →₀ ℕ := Multiset.toFinsupp (p : Multiset Var)

variable {p q r : PowerProduct} {v w : Var}

@[simp] theorem exponents_apply (p : PowerProduct) (v : Var) : p.exponents v = p.count v := by
  rw [exponents, Multiset.toFinsupp_apply, Multiset.coe_count]

@[simp] theorem exponents_nil : exponents [] = 0 := by
  ext v
  simp

theorem exponents_cons (v : Var) (p : PowerProduct) :
    exponents (v :: p) = Finsupp.single v 1 + p.exponents := by
  rw [exponents, ← Multiset.cons_coe, ← Multiset.singleton_add, map_add, Multiset.toFinsupp_singleton]
  rfl

theorem mem_iff_exponents : v ∈ p ↔ p.exponents v ≠ 0 := by
  rw [exponents_apply, ← List.count_pos_iff, Nat.pos_iff_ne_zero]

/-- The degree counts the variables with their powers. -/
theorem degree_exponents (p : PowerProduct) : p.exponents.degree = p.length := by
  induction p with
  | nil => simp
  | cons v p ih => rw [exponents_cons, map_add, ih, Finsupp.degree_single, List.length_cons, Nat.add_comm]

theorem Sorted.tail (sorted : Sorted (v :: p)) : Sorted p := (List.pairwise_cons.1 sorted).2

theorem Sorted.le (sorted : Sorted (v :: p)) (member : w ∈ v :: p) : v ≤ w := by
  rcases List.mem_cons.1 member with rfl | later
  · exact Nat.le_refl _
  · exact (List.pairwise_cons.1 sorted).1 w later

/-- A variable before the first one does not occur. -/
theorem Sorted.exponents_eq_zero (sorted : Sorted (v :: p)) (less : w < v) :
    exponents (v :: p) w = 0 := by
  by_contra occurs
  exact Nat.not_lt.2 (sorted.le (mem_iff_exponents.2 occurs)) less

/-- Sorted products with the same exponents are equal. -/
theorem Sorted.eq_of_exponents (first : p.Sorted) (second : q.Sorted)
    (same : p.exponents = q.exponents) : p = q := by
  have perm : p.Perm q := by
    apply Multiset.coe_eq_coe.1
    exact Multiset.toFinsupp.injective same
  exact perm.eq_of_pairwise (fun v w _ _ => Nat.le_antisymm) first second

/-! ## Products and quotients -/

theorem sorted_mergeSort (p : List Var) : Sorted (p.mergeSort fun v w => v ≤ w) := by
  have sorted : (p.mergeSort fun v w => v ≤ w).Pairwise fun v w => decide (v ≤ w) = true := by
    apply List.pairwise_mergeSort
    · intro a b c first second
      exact decide_eq_true (Nat.le_trans (of_decide_eq_true first) (of_decide_eq_true second))
    · intro a b
      simpa using Nat.le_total a b
  exact sorted.imp fun ordered => of_decide_eq_true ordered

theorem exponents_mergeSort (p : List Var) :
    exponents (p.mergeSort fun v w => v ≤ w) = exponents p := by
  rw [exponents, exponents, Multiset.coe_eq_coe.2 (List.mergeSort_perm p _)]

theorem sorted_mul (p q : PowerProduct) : (p.mul q).Sorted := sorted_mergeSort _

@[simp] theorem exponents_mul (p q : PowerProduct) :
    (p.mul q).exponents = p.exponents + q.exponents := by
  ext v
  rw [mul, exponents_mergeSort, Finsupp.add_apply, exponents_apply, exponents_apply, exponents_apply,
    List.count_append]

/-- A quotient is what is missing from the divisor. -/
theorem of_div?_eq_some (sorted : p.Sorted) (found : p.div? q = some r) :
    r.Sorted ∧ p.exponents = q.exponents + r.exponents := by
  fun_induction div? p q generalizing r with
  | case1 p =>
    obtain rfl := Option.some.inj found
    exact ⟨sorted, by simp⟩
  | case2 => cases found
  | case3 p w q ih =>
    obtain ⟨sorted', same⟩ := ih sorted.tail found
    exact ⟨sorted', by rw [exponents_cons, exponents_cons, same, add_assoc]⟩
  | case4 => cases found
  | case5 u p w q apart not_less ih =>
    obtain ⟨rest, quotient, rfl⟩ := Option.map_eq_some_iff.1 found
    obtain ⟨sorted', same⟩ := ih sorted.tail quotient
    refine ⟨List.pairwise_cons.2 ⟨fun v member => sorted.le ?_, sorted'⟩, ?_⟩
    · refine List.mem_cons_of_mem _ (mem_iff_exponents.2 ?_)
      rw [same, Finsupp.add_apply]
      have := mem_iff_exponents.1 member
      omega
    · rw [exponents_cons, exponents_cons u rest, same, add_left_comm]

/-- A product that has all powers of another one is divided by it. -/
theorem exists_div? (sorted : p.Sorted) (sorted' : q.Sorted) (le : q.exponents ≤ p.exponents) :
    ∃ r, p.div? q = some r := by
  fun_induction div? p q with
  | case1 p => exact ⟨p, rfl⟩
  | case2 w q =>
    have := le w
    simp at this
  | case3 p w q ih =>
    rw [exponents_cons, exponents_cons] at le
    exact ih sorted.tail sorted'.tail (le_of_add_le_add_left le)
  | case4 v p w q apart less =>
    have := le w
    rw [sorted.exponents_eq_zero less, exponents_cons, Finsupp.add_apply, Finsupp.single_eq_same]
      at this
    omega
  | case5 v p w q apart not_less ih =>
    have before : v < w := Nat.lt_of_le_of_ne (Nat.not_lt.1 not_less) apart
    obtain ⟨r, found⟩ := ih sorted.tail sorted' fun u => by
      have := le u
      rw [exponents_cons v p, Finsupp.add_apply, Finsupp.single_apply] at this
      split at this
      · rename_i same
        rw [← same, sorted'.exponents_eq_zero before]
        exact Nat.zero_le _
      · omega
    exact ⟨v :: r, by rw [found]; rfl⟩

/-- The least common multiple takes the greater exponent of each variable; the merge of the sorted
factors finds it. -/
theorem exponents_lcm (sorted : p.Sorted) (sorted' : q.Sorted) :
    (p.lcm q).exponents = p.exponents ⊔ q.exponents := by
  fun_induction lcm p q with
  | case1 q => rw [exponents_nil, sup_eq_right.2 zero_le]
  | case2 p _ => rw [exponents_nil, sup_eq_left.2 zero_le]
  | case3 v p w q less ih =>
    have absent := sorted'.exponents_eq_zero less
    rw [exponents_cons, ih sorted.tail sorted', exponents_cons v p]
    ext u
    simp only [Finsupp.add_apply, Finsupp.sup_apply, Finsupp.single_apply]
    split
    · rename_i same
      rw [← same, absent]
      omega
    · omega
  | case4 v p w q _ less ih =>
    have absent := sorted.exponents_eq_zero less
    rw [exponents_cons, ih sorted sorted'.tail, exponents_cons w q]
    ext u
    simp only [Finsupp.add_apply, Finsupp.sup_apply, Finsupp.single_apply]
    split
    · rename_i same
      rw [← same, absent]
      omega
    · omega
  | case5 v p w q not_less not_greater ih =>
    obtain rfl : v = w := Nat.le_antisymm (Nat.not_lt.1 not_greater) (Nat.not_lt.1 not_less)
    rw [exponents_cons, ih sorted.tail sorted'.tail, exponents_cons, exponents_cons]
    ext u
    simp only [Finsupp.add_apply, Finsupp.sup_apply]
    omega

theorem mem_lcm_iff (sorted : p.Sorted) (sorted' : q.Sorted) : v ∈ p.lcm q ↔ v ∈ p ∨ v ∈ q := by
  rw [mem_iff_exponents, exponents_lcm sorted sorted', Finsupp.sup_apply, mem_iff_exponents,
    mem_iff_exponents]
  omega

/-- The least common multiple of sorted products is sorted. -/
theorem sorted_lcm (sorted : p.Sorted) (sorted' : q.Sorted) : (p.lcm q).Sorted := by
  fun_induction lcm p q with
  | case1 q => exact sorted'
  | case2 p _ => exact sorted
  | case3 v p w q less ih =>
    refine List.pairwise_cons.2 ⟨fun u member => ?_, ih sorted.tail sorted'⟩
    rcases (mem_lcm_iff sorted.tail sorted').1 member with left | right
    · exact sorted.le (List.mem_cons_of_mem _ left)
    · exact Nat.le_trans (Nat.le_of_lt less) (sorted'.le right)
  | case4 v p w q _ less ih =>
    refine List.pairwise_cons.2 ⟨fun u member => ?_, ih sorted sorted'.tail⟩
    rcases (mem_lcm_iff sorted sorted'.tail).1 member with left | right
    · exact Nat.le_trans (Nat.le_of_lt less) (sorted.le left)
    · exact sorted'.le (List.mem_cons_of_mem _ right)
  | case5 v p w q not_less not_greater ih =>
    obtain rfl : v = w := Nat.le_antisymm (Nat.not_lt.1 not_greater) (Nat.not_lt.1 not_less)
    refine List.pairwise_cons.2 ⟨fun u member => ?_, ih sorted.tail sorted'.tail⟩
    rcases (mem_lcm_iff sorted.tail sorted'.tail).1 member with left | right
    · exact sorted.le (List.mem_cons_of_mem _ left)
    · exact sorted'.le (List.mem_cons_of_mem _ right)

theorem isCoprime_iff : p.isCoprime q = true ↔ Disjoint p.exponents q.exponents := by
  rw [isCoprime, List.all_eq_true, Finsupp.disjoint_iff, Finset.disjoint_left]
  refine forall_congr' fun v => ?_
  simp [mem_iff_exponents]

/-! ## The order -/

theorem lex_lt_of_before (sorted : Sorted (v :: p)) (sorted' : Sorted (w :: q)) (less : w < v) :
    toLex (exponents (v :: p)) < toLex (exponents (w :: q)) := by
  refine Finsupp.lex_def.2 ⟨w, fun u before => ?_, ?_⟩ <;> rw [ofLex_toLex, ofLex_toLex]
  · rw [sorted.exponents_eq_zero (Nat.lt_trans before less), sorted'.exponents_eq_zero before]
  · rw [sorted.exponents_eq_zero less]
    exact Nat.pos_of_ne_zero (mem_iff_exponents.1 List.mem_cons_self)

/-- Of two products of one degree the one that comes first is the larger one: where they differ first,
the smaller variable has another power. -/
theorem lexBefore_iff (sorted : p.Sorted) (sorted' : q.Sorted) (length : p.length = q.length) :
    lexBefore q p = true ↔ toLex p.exponents < toLex q.exponents := by
  induction p generalizing q with
  | nil =>
    obtain rfl := List.length_eq_zero_iff.1 length.symm
    simp [lexBefore]
  | cons v p ih =>
    cases q with
    | nil => cases length
    | cons w q =>
      have later := ih sorted.tail sorted'.tail (Nat.succ.inj length)
      rw [lexBefore, Bool.or_eq_true, Bool.and_eq_true, decide_eq_true_eq, decide_eq_true_eq]
      rcases Nat.lt_trichotomy w v with less | rfl | greater
      · exact iff_of_true (.inl less) (lex_lt_of_before sorted sorted' less)
      · rw [exponents_cons, exponents_cons, toLex_add, toLex_add, add_lt_add_iff_left, ← later]
        simp
      · refine iff_of_false ?_ (lt_asymm (lex_lt_of_before sorted' sorted greater))
        rintro (less | ⟨same, -⟩)
        · exact Nat.lt_asymm less greater
        · exact Nat.ne_of_lt greater same.symm

/-- Products are ordered by degree and then lexicographically. -/
theorem lt_iff (sorted : p.Sorted) (sorted' : q.Sorted) :
    p.lt q = true ↔ toDegLex p.exponents < toDegLex q.exponents := by
  rw [lt, Bool.or_eq_true, Bool.and_eq_true, decide_eq_true_eq, decide_eq_true_eq,
    Finsupp.DegLex.lt_iff, ofDegLex_toDegLex, ofDegLex_toDegLex, degree_exponents, degree_exponents]
  exact or_congr_right (and_congr_right fun length => lexBefore_iff sorted sorted' length)

end ArithDecide.PowerProduct
