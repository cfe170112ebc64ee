import ArithDecide.Nonlinear.NestedForm
import ArithDecide.Proofs.Refining

/-!
# Nested evaluation of rows is sound

Expanding the monomials of a row and collecting the products around a shared variable does not change
its value, which is zero for a solution. So an interval of the row without zero refutes the bounds of
the variables it was computed from.
-/

namespace ArithDecide.Engine

open State

variable {e : Engine} {h : History} {α : Var → Rat} {p : ProductTerm}

/-- The value of an expanded term. -/
def ProductTerm.eval (p : ProductTerm) (α : Var → Rat) : Rat := (p.factors.map α).prod * p.coeff

/-- The variables whose bounds the evaluation of some products uses. -/
def usedVars (products : List ProductTerm) : List Var :=
  products.flatMap fun p => p.factors ++ p.monomial.toList

theorem monomial?_eq_some {v : Var} {m : Monomial} (found : e.monomial? v = some m) :
    m ∈ e.monomials ∧ m.var = v :=
  ⟨List.mem_of_find?_eq_some found, by simpa using List.find?_some found⟩

/-- An expanded term has the value of the term. -/
theorem eval_productTerm (solves : e.Solves α) (t : Var × Rat) :
    (e.productTerm t).eval α = t.2 * α t.1 := by
  rw [productTerm, ProductTerm.eval]
  split
  · rename_i m found
    obtain ⟨member, same⟩ := monomial?_eq_some found
    have product : α t.1 = (m.factors.map α).prod := same ▸ solves.monomials m member
    rw [product, mul_comm]
  · simp [mul_comm]

/-- The monomial of an expanded term has the value of the product. -/
theorem monomial_productTerm (solves : e.Solves α) {t : Var × Rat} {v : Var}
    (expanded : (e.productTerm t).monomial = some v) :
    α v = ((e.productTerm t).factors.map α).prod := by
  rw [productTerm] at expanded ⊢
  split at expanded
  · rename_i m found
    obtain ⟨member, same⟩ := monomial?_eq_some found
    obtain rfl := Option.some.inj expanded
    rw [← same]
    exact solves.monomials m member
  · cases expanded

theorem contains_foldl_add {β : Type} {items : List β} {f : β → Interval} {g : β → Rat}
    {start : Interval} {q : Rat} (at_start : start.contains q = true)
    (each : ∀ a ∈ items, (f a).contains (g a) = true) :
    ((items.map f).foldl Interval.add start).contains (q + (items.map g).sum) = true := by
  induction items generalizing start q with
  | nil => simpa using at_start
  | cons a rest ih =>
    obtain ⟨first, others⟩ := List.forall_mem_cons.1 each
    rw [List.map_cons, List.foldl_cons, List.map_cons, List.sum_cons, ← add_assoc]
    exact ih (Interval.contains_add at_start first) others

theorem contains_sum {β : Type} {items : List β} {f : β → Interval} {g : β → Rat}
    (each : ∀ a ∈ items, (f a).contains (g a) = true) :
    ((items.map f).foldl Interval.add (.point 0)).contains (items.map g).sum = true := by
  have := contains_foldl_add (Interval.contains_point 0) each
  rwa [zero_add] at this

theorem contains_restInterval (within : ∀ v ∈ p.factors, (e.varInterval v).contains (α v) = true)
    (monomial : ∀ v, p.monomial = some v →
      (e.varInterval v).contains (α v) = true ∧ α v = (p.factors.map α).prod) :
    (e.restInterval p).contains (p.eval α) = true := by
  refine Interval.contains_scale p.coeff ?_
  have product := contains_productInterval within
  split
  · rename_i v expanded
    obtain ⟨own, same⟩ := monomial v expanded
    exact Interval.contains_intersect product (same ▸ own)
  · exact product

/-- The nested interval holds the sum of the products. -/
theorem contains_nestedInterval {products : List ProductTerm}
    (within : ∀ v ∈ usedVars products, (e.varInterval v).contains (α v) = true)
    (monomials : ∀ p ∈ products, ∀ v, p.monomial = some v → α v = (p.factors.map α).prod)
    {shared : Var} (occurs : ∃ p ∈ products, shared ∈ p.factors) :
    (e.nestedInterval products shared).contains
      ((products.map fun p => p.eval α).sum) = true := by
  have of_product {p : ProductTerm} (member : p ∈ products) {v : Var}
      (used : v ∈ p.factors ++ p.monomial.toList) : (e.varInterval v).contains (α v) = true :=
    within v (List.mem_flatMap.2 ⟨p, member, used⟩)
  have factors {p : ProductTerm} (member : p ∈ products) :
      ∀ v ∈ p.factors, (e.varInterval v).contains (α v) = true := fun v at_v =>
    of_product member (List.mem_append_left _ at_v)
  have inner : (((products.filter fun p => p.factors.contains shared).map fun p =>
      (e.productInterval (p.factors.erase shared)).scale p.coeff).foldl Interval.add
        (.point 0)).contains (((products.filter fun p => p.factors.contains shared).map fun p =>
          ((p.factors.erase shared).map α).prod * p.coeff).sum) = true := by
    refine contains_sum fun p member => Interval.contains_scale p.coeff ?_
    exact contains_productInterval fun v at_v =>
      factors (List.mem_filter.1 member).1 v (List.mem_of_mem_erase at_v)
  have rest : (((products.filter fun p => !p.factors.contains shared).map e.restInterval).foldl
      Interval.add (.point 0)).contains
        (((products.filter fun p => !p.factors.contains shared).map fun p => p.eval α).sum) = true := by
    refine contains_sum fun p member => ?_
    have at_p := (List.mem_filter.1 member).1
    refine contains_restInterval (factors at_p) fun v expanded => ⟨?_, monomials p at_p v expanded⟩
    exact of_product at_p (List.mem_append_right _ (by simp [expanded]))
  have around : α shared * ((products.filter fun p => p.factors.contains shared).map fun p =>
      ((p.factors.erase shared).map α).prod * p.coeff).sum =
      ((products.filter fun p => p.factors.contains shared).map fun p => p.eval α).sum := by
    rw [← List.sum_map_mul_left]
    refine congrArg List.sum (List.map_congr_left fun p member => ?_)
    have holds_shared : shared ∈ p.factors := by simpa using (List.mem_filter.1 member).2
    rw [ProductTerm.eval, ← mul_assoc, List.prod_map_erase α holds_shared]
  obtain ⟨p, member, at_shared⟩ := occurs
  rw [sum_filter_split _ fun p : ProductTerm => p.factors.contains shared, ← around]
  exact Interval.contains_add
    (Interval.contains_mul (factors member shared at_shared) inner) rest

/-- The shared variable is a factor of some product. -/
theorem mem_of_mostSharedFactor? {products : List ProductTerm} {shared : Var}
    (found : mostSharedFactor? products = some shared) : ∃ p ∈ products, shared ∈ p.factors := by
  rw [mostSharedFactor?] at found
  obtain ⟨q, best, rfl⟩ := Option.map_eq_some_iff.1 found
  generalize counts_eq : powersOf _ = counts at best
  have at_counts : q ∈ counts := by
    refine List.foldlRecOn counts _ (motive := fun best => best = some q → q ∈ counts)
      (fun impossible => by cases impossible) (fun best ih p member result => ?_) best
    split at result
    · exact ih result
    · split at result
      · exact Option.some.inj result ▸ member
      · split at result
        · exact Option.some.inj result ▸ member
        · exact ih result
  subst counts_eq
  obtain ⟨at_flat, -⟩ := (powers_powersOf _).counts q at_counts
  obtain ⟨distinct, at_distinct, at_q⟩ := List.mem_flatten.1 at_flat
  obtain ⟨p, member, rfl⟩ := List.mem_map.1 at_distinct
  obtain ⟨power, at_power, same⟩ := List.mem_map.1 at_q
  exact ⟨p, member, same ▸ ((powers_powersOf _).counts power at_power).1⟩

/-- A solution that respects the used bounds gives the row the value zero. -/
theorem contains_zero_of_respects {r : RowId} {row : Row} (inv : e.Invariant h)
    (found : e.tableau.get? r = some row) {shared : Var}
    (chosen : mostSharedFactor? (row.zeroTerms.map e.productTerm) = some shared)
    (solves : e.Solves α)
    (respects : e.Respects α (bothSides (usedVars (row.zeroTerms.map e.productTerm)))) :
    (e.nestedInterval (row.zeroTerms.map e.productTerm) shared).contains 0 = true := by
  have zero : ((row.zeroTerms.map e.productTerm).map fun p => p.eval α).sum = 0 := by
    have same : (row.zeroTerms.map e.productTerm).map (fun p => p.eval α) =
        row.zeroTerms.map fun t => t.2 * α t.1 := by
      rw [List.map_map]
      exact List.map_congr_left fun t _ => eval_productTerm solves t
    have holds : α row.base = (row.form.terms.map fun t => t.2 * α t.1).sum :=
      solves.rows r row found
    rw [same, Row.zeroTerms, List.map_cons, List.sum_cons, holds]
    ring
  rw [← zero]
  refine contains_nestedInterval (fun v used => ?_) (fun p member v expanded => ?_)
    (mem_of_mostSharedFactor? chosen)
  · exact contains_varInterval inv respects (mem_bothSides used)
  · obtain ⟨t, -, rfl⟩ := List.mem_map.1 member
    exact monomial_productTerm solves expanded

theorem productTerm_congr {next : Engine} (same : next.toState = e.toState) :
    next.productTerm = e.productTerm := by
  funext t
  simp only [productTerm, monomial?, same]

/-- The test of a row in nested form is sound: the interval of the form has all values that bounds allow
the row, so a conflict of the two rests on these bounds. -/
theorem answers_checkNestedRow (inv : e.Invariant h) (r : RowId) :
    Answers h e (e.checkNestedRow r) := by
  rw [checkNestedRow]
  split
  · exact .yes .refl
  · rename_i row filtered
    have found := (Option.filter_eq_some_iff.1 filtered).1
    simp only
    split
    · exact .yes .refl
    · split
      · exact .yes .refl
      · rename_i shared chosen
        split
        · exact .yes (Becomes.steps ⟨rfl, rfl⟩)
        · rename_i excluded
          generalize counted_eq : e.count (fun s => { s with nestedForms := s.nestedForms + 1 }) =
            counted at excluded ⊢
          have becomes : e.Becomes e.toState counted := by
            rw [← counted_eq]
            exact ⟨rfl, rfl⟩
          have counted_inv := becomes.steps.invariant inv
          have derives : Derives h counted (counted.boundReasons
              (usedVars (row.zeroTerms.map e.productTerm))) fun _ => False := by
            rw [boundReasons_eq]
            rw [← productTerm_congr becomes.toState] at chosen excluded ⊢
            refine derives_reasonsOf counted_inv _ fun α solves respects => excluded ?_
            have at_row : counted.tableau.get? r = some row := becomes.toState ▸ found
            exact contains_zero_of_respects counted_inv at_row chosen solves respects
          refine Answers.after becomes.steps (derives.conflict counted_inv ?_)
          exact ⟨rfl, rfl⟩

/-- A row that can be zero changes nothing. -/
theorem toState_checkNestedRow {r : RowId} (yes : (e.checkNestedRow r).2 = true) :
    (e.checkNestedRow r).1.toState = e.toState := by
  generalize result_eq : e.checkNestedRow r = result at yes ⊢
  rw [checkNestedRow] at result_eq
  split at result_eq
  · exact result_eq ▸ rfl
  · simp only at result_eq
    split at result_eq
    · exact result_eq ▸ rfl
    · split at result_eq
      · exact result_eq ▸ rfl
      · split at result_eq
        · exact result_eq ▸ rfl
        · rw [← result_eq] at yes
          cases yes

theorem answers_checkNestedForms (inv : e.Invariant h) : Answers h e e.checkNestedForms :=
  answers_forEach fun _ steps r _ => answers_checkNestedRow (steps.invariant inv) r

theorem toState_checkNestedForms (yes : e.checkNestedForms.2 = true) :
    e.checkNestedForms.1.toState = e.toState :=
  toState_forEach _ _ (fun _ _ => toState_checkNestedRow) yes

end ArithDecide.Engine
