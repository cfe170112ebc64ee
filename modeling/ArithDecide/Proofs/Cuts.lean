import Mathlib.Algebra.Order.Floor.Ring
import Mathlib.Tactic.Positivity
import ArithDecide.Integer.GomoryCut
import ArithDecide.Proofs.Divisibility

/-!
# Gomory cuts cut off no integer solution

Written with the distances `t` of the other variables from the bounds they sit on, the row of a cut
says that its base is `β - Σ a · t`. Up to multiples of integers the coefficients may be replaced by
remainders `r`, so `Σ r · t` has the same fractional part `f₀` as `β`: it is at least `f₀` or at most
`f₀ - 1`. Either way `Σ g · t ≥ 1`, since a weight `g` is at least `r / f₀` and at least
`-r / (1 - f₀)`.
-/

namespace ArithDecide

/-! ## Entries of a form -/

/-- A variable of the form is a variable of one of its entries. -/
theorem LinearForm.mem_of_coeff_ofEntries {entries : List (Var × Rat)} {v : Var}
    (occurs : (ofEntries entries).coeff v ≠ 0) : ∃ t ∈ entries, t.1 = v := by
  by_contra absent
  push Not at absent
  refine occurs ?_
  rw [coeff_eq_combine, combine_ofEntries]
  refine List.sum_eq_zero fun x member => ?_
  obtain ⟨t, at_t, rfl⟩ := List.mem_map.1 member
  rw [unit_apply, if_neg (absent t at_t), smul_zero]

theorem LinearForm.exists_int_coeff_ofEntries {entries : List (Var × Rat)}
    (integral : ∀ t ∈ entries, ∃ n : Int, t.2 = n) (v : Var) :
    ∃ n : Int, (ofEntries entries).coeff v = n := by
  rw [coeff_eq_combine, combine_ofEntries]
  refine exists_int_sum fun x member => ?_
  obtain ⟨t, at_t, rfl⟩ := List.mem_map.1 member
  obtain ⟨n, same⟩ := integral t at_t
  rw [unit_apply, same]
  split
  · exact ⟨n, by simp⟩
  · exact ⟨0, by simp⟩

/-! ## Weights -/

theorem fractionalPart_nonneg (q : Rat) : 0 ≤ fractionalPart q :=
  sub_nonneg.2 (Rat.le_floor_iff.1 (le_refl _))

theorem fractionalPart_lt_one (q : Rat) : fractionalPart q < 1 := by
  rw [fractionalPart, sub_lt_iff_lt_add, add_comm]
  exact_mod_cast Rat.floor_lt_iff.1 (Int.lt_succ q.floor)

theorem fractionalPart_pos {q : Rat} (fractional : q.isInt = false) : 0 < fractionalPart q := by
  refine lt_of_le_of_ne (fractionalPart_nonneg q) fun zero => ?_
  have same : q = q.floor := (sub_eq_zero.1 zero.symm)
  rw [same, Rat.isInt, Rat.den_intCast] at fractional
  cases fractional

namespace Engine

/-- The shifted coefficient of an integer variable up to an integer, from `f₀ - 1` to `f₀`; the
shifted coefficient of a real one. -/
def cutRemainder (integer : Bool) (f₀ shifted : Rat) : Rat :=
  if integer then
    let f := fractionalPart shifted
    if f ≤ f₀ then f else f - 1
  else shifted

theorem exists_int_sub_cutRemainder (f₀ shifted : Rat) :
    ∃ n : Int, shifted - cutRemainder true f₀ shifted = n := by
  simp only [cutRemainder, if_true]
  split
  · exact ⟨shifted.floor, by rw [fractionalPart]; ring⟩
  · exact ⟨shifted.floor + 1, by rw [fractionalPart]; push_cast; ring⟩

/-- A weight is at least the remainder over `f₀` and at least its negation over `1 - f₀`; it is equal
to one of them. -/
theorem le_cutWeight (integer : Bool) {f₀ : Rat} (positive : 0 < f₀) (below : f₀ < 1)
    (shifted : Rat) :
    cutRemainder integer f₀ shifted / f₀ ≤ cutWeight integer f₀ shifted ∧
      -cutRemainder integer f₀ shifted / (1 - f₀) ≤ cutWeight integer f₀ shifted := by
  have rest : 0 < 1 - f₀ := sub_pos.2 below
  -- Of the two quotients the one with the sign of the remainder is the weight, the other is negative.
  have at_least {r : Rat} (nonneg : 0 ≤ r) : r / f₀ ≤ r / f₀ ∧ -r / (1 - f₀) ≤ r / f₀ :=
    ⟨le_refl _, (div_nonpos_of_nonpos_of_nonneg (neg_nonpos.2 nonneg) rest.le).trans
      (div_nonneg nonneg positive.le)⟩
  have at_most {r : Rat} (nonpos : r ≤ 0) :
      r / f₀ ≤ -r / (1 - f₀) ∧ -r / (1 - f₀) ≤ -r / (1 - f₀) :=
    ⟨(div_nonpos_of_nonpos_of_nonneg nonpos positive.le).trans
      (div_nonneg (neg_nonneg.2 nonpos) rest.le), le_refl _⟩
  cases integer with
  | false =>
    simp only [cutRemainder, cutWeight, Bool.false_eq_true, if_false]
    split
    · rename_i negative
      exact at_most negative.le
    · rename_i nonneg
      exact at_least (not_lt.1 nonneg)
  | true =>
    simp only [cutRemainder, cutWeight, if_true]
    split
    · exact at_least (fractionalPart_nonneg shifted)
    · rw [← neg_sub (fractionalPart shifted) 1]
      exact at_most (sub_nonpos.2 (fractionalPart_lt_one shifted).le)

/-- When the remainders sum up to a number with the fractional part `f₀`, the weights sum up to at
least one. -/
theorem one_le_sum_weights {ι : Type} {items : List ι} {w r t : ι → Rat} {f₀ : Rat} {k : Int}
    (positive : 0 < f₀) (below : f₀ < 1) (nonneg : ∀ i ∈ items, 0 ≤ t i)
    (weights : ∀ i ∈ items, r i / f₀ ≤ w i ∧ -r i / (1 - f₀) ≤ w i)
    (sum : (items.map fun i => r i * t i).sum = f₀ + k) :
    1 ≤ (items.map fun i => w i * t i).sum := by
  have rest : 0 < 1 - f₀ := sub_pos.2 below
  rcases le_or_gt 0 k with above | under
  · calc (1 : Rat) ≤ (f₀ + k) / f₀ := by
          rw [le_div_iff₀ positive]
          have : (0 : Rat) ≤ k := by exact_mod_cast above
          linarith
      _ = (items.map fun i => r i / f₀ * t i).sum := by
          rw [← sum, div_eq_mul_inv, ← List.sum_map_mul_right]
          exact congrArg List.sum (List.map_congr_left fun i _ => by ring)
      _ ≤ (items.map fun i => w i * t i).sum :=
          List.sum_le_sum fun i member =>
            mul_le_mul_of_nonneg_right (weights i member).1 (nonneg i member)
  · calc (1 : Rat) ≤ -(f₀ + k) / (1 - f₀) := by
          rw [le_div_iff₀ rest]
          have : (k : Rat) ≤ -1 := by exact_mod_cast Int.le_sub_one_of_lt under
          linarith
      _ = (items.map fun i => -r i / (1 - f₀) * t i).sum := by
          rw [← sum, div_eq_mul_inv, neg_mul, ← mul_neg, ← List.sum_map_mul_right]
          exact congrArg List.sum (List.map_congr_left fun i _ => by ring)
      _ ≤ (items.map fun i => w i * t i).sum :=
          List.sum_le_sum fun i member =>
            mul_le_mul_of_nonneg_right (weights i member).2 (nonneg i member)

/-! ## The row of a cut -/

open State

variable {e next : Engine} {h : History} {α : Var → Rat} {row : Row} {f₀ : Rat} {t : Var × Rat}

/-- How far the variable is from the bound on which it sat. -/
def CutTerm.distance (part : CutTerm) (α : Var → Rat) : Rat :=
  if part.side = .lower then α part.var - part.limit else part.limit - α part.var

theorem CutTerm.weight_mul_distance (part : CutTerm) (α : Var → Rat) :
    part.weight * part.distance α = part.coeff * α part.var - part.coeff * part.limit := by
  rw [distance, coeff]
  split <;> ring

/-- The coefficient of the distance of a variable of the row. -/
def shiftedCoeff (e : Engine) (f₀ : Rat) (t : Var × Rat) : Rat :=
  if (e.cutTerm f₀ t).side = .lower then -t.2 else t.2

theorem shiftedCoeff_mul_distance (e : Engine) (f₀ : Rat) (t : Var × Rat) (α : Var → Rat) :
    e.shiftedCoeff f₀ t * (e.cutTerm f₀ t).distance α =
      -(t.2 * (α t.1 - (e.stored t.1).real)) := by
  have var_eq : (e.cutTerm f₀ t).var = t.1 := rfl
  have limit_eq : (e.cutTerm f₀ t).limit = (e.stored t.1).real := rfl
  rw [shiftedCoeff, CutTerm.distance, var_eq, limit_eq]
  split <;> ring

/-- The bounds that a cut from the row rests on. -/
def cutUses (e : Engine) (f₀ : Rat) (row : Row) : List (Var × BoundKind) :=
  row.form.terms.map fun t => (t.1, (e.cutTerm f₀ t).side)

/-- Every variable of the row sits on the bound that its part of the cut uses. -/
theorem value_of_isCutSource (source : e.isCutSource row = true) (f₀ : Rat)
    (member : t ∈ row.form.terms) :
    e.bounds.value t.1 (e.cutTerm f₀ t).side = some (.ofRat (e.cutTerm f₀ t).limit) := by
  simp only [isCutSource, Bool.and_eq_true, List.all_eq_true] at source
  obtain ⟨rational, sits⟩ := source.2 t member
  have limit_eq : InfRat.ofRat (e.cutTerm f₀ t).limit = e.stored t.1 :=
    InfRat.ext rfl (of_decide_eq_true rational).symm
  rw [limit_eq]
  simp only [cutTerm]
  split
  · rename_i at_lower
    exact of_decide_eq_true at_lower
  · rename_i away
    exact of_decide_eq_true ((Bool.or_eq_true_iff.1 sits).resolve_left away)

theorem distance_nonneg (bounds : e.bounds.WellFormed e.numVars) (source : e.isCutSource row = true)
    (member : t ∈ row.form.terms) (respects : e.Respects α (e.cutUses f₀ row)) :
    0 ≤ (e.cutTerm f₀ t).distance α := by
  have value := value_of_isCutSource source f₀ member
  have admits := respects.admits bounds (List.mem_map_of_mem member) value
  have var_eq : (e.cutTerm f₀ t).var = t.1 := rfl
  rw [CutTerm.distance, var_eq]
  cases side : (e.cutTerm f₀ t).side <;> rw [side] at admits
  · exact sub_nonneg.2 (InfRat.ofRat_le.1 (BoundKind.admits_lower.1 admits))
  · exact sub_nonneg.2 (InfRat.ofRat_le.1 (BoundKind.admits_upper.1 admits))

theorem exists_int_distance (f₀ : Rat) (rounded : e.Rounded) (source : e.isCutSource row = true)
    (member : t ∈ row.form.terms) (fits : e.Fits α) (integer : e.isInt t.1 = true) :
    ∃ n : Int, (e.cutTerm f₀ t).distance α = n := by
  obtain ⟨n, limit⟩ := rounded _ _ _ integer (value_of_isCutSource source f₀ member)
  have limit : (e.cutTerm f₀ t).limit = n := InfRat.ofRat_injective limit
  obtain ⟨m, integral⟩ := fits.integral t.1 integer
  have var_eq : (e.cutTerm f₀ t).var = t.1 := rfl
  rw [CutTerm.distance, var_eq, limit, integral]
  split
  · exact ⟨m - n, by push_cast; rfl⟩
  · exact ⟨n - m, by push_cast; rfl⟩

/-- The row written with the distances. -/
theorem sum_shifted {r : RowId} (assigned : e.Assigned) (found : e.tableau.get? r = some row)
    (settled : row.pending = false) (holds : e.tableau.Holds α) (f₀ : Rat) :
    (row.form.terms.map fun t => e.shiftedCoeff f₀ t * (e.cutTerm f₀ t).distance α).sum =
      (e.stored row.base).real - α row.base := by
  have current : (e.stored row.base).real =
      (row.form.terms.map fun t => t.2 * (e.stored t.1).real).sum := by
    have real_eq (a : InfRat) : a.real = InfRat.evaluateHom 0 a := by
      rw [InfRat.evaluateHom_apply, InfRat.evaluate, mul_zero, add_zero]
    have current : e.stored row.base = row.form.combine e.stored :=
      assigned.rows r row found settled
    simp only [real_eq]
    rw [current, LinearForm.combine_map]
    rfl
  have holds : α row.base = (row.form.terms.map fun t => t.2 * α t.1).sum := holds r row found
  rw [current, holds, eq_sub_iff_add_eq, ← List.sum_map_add]
  refine congrArg List.sum (List.map_congr_left fun t _ => ?_)
  rw [shiftedCoeff_mul_distance]
  ring

/-- The distances weighed by the remainders sum up to a number with the fractional part of the value
of the base. -/
theorem sum_remainders {r : RowId} (assigned : e.Assigned) (rounded : e.Rounded)
    (source : e.isCutSource row = true) (found : e.tableau.get? r = some row) (fits : e.Fits α)
    (f₀_eq : f₀ = fractionalPart (e.stored row.base).real) :
    ∃ k : Int, (row.form.terms.map fun t => cutRemainder (e.isInt t.1) f₀ (e.shiftedCoeff f₀ t) *
      (e.cutTerm f₀ t).distance α).sum = f₀ + k := by
  have checks := source
  simp only [isCutSource, Bool.and_eq_true, Bool.not_eq_true'] at checks
  obtain ⟨⟨⟨⟨settled, integer⟩, -⟩, -⟩, -⟩ := checks
  have shifted := sum_shifted assigned found settled fits.rows f₀
  have difference : ∃ n : Int, (row.form.terms.map fun t =>
      (e.shiftedCoeff f₀ t - cutRemainder (e.isInt t.1) f₀ (e.shiftedCoeff f₀ t)) *
        (e.cutTerm f₀ t).distance α).sum = n := by
    refine LinearForm.exists_int_sum fun x member => ?_
    obtain ⟨t, at_t, rfl⟩ := List.mem_map.1 member
    cases sort : e.isInt t.1 with
    | false => exact ⟨0, by simp [cutRemainder]⟩
    | true =>
      obtain ⟨n, coeff_eq⟩ := exists_int_sub_cutRemainder f₀ (e.shiftedCoeff f₀ t)
      obtain ⟨m, distance_eq⟩ := exists_int_distance f₀ rounded source at_t fits sort
      exact ⟨n * m, by rw [coeff_eq, distance_eq]; push_cast; rfl⟩
  obtain ⟨n, difference⟩ := difference
  obtain ⟨m, integral⟩ := fits.integral row.base integer
  refine ⟨(e.stored row.base).real.floor - m - n, ?_⟩
  have split : (row.form.terms.map fun t => cutRemainder (e.isInt t.1) f₀ (e.shiftedCoeff f₀ t) *
      (e.cutTerm f₀ t).distance α).sum = (e.stored row.base).real - α row.base - n := by
    rw [← shifted, ← difference, eq_sub_iff_add_eq, ← List.sum_map_add]
    refine congrArg List.sum (List.map_congr_left fun t _ => ?_)
    ring
  rw [split, f₀_eq, fractionalPart, integral]
  push_cast
  ring

theorem fractionalPart_pos_of_isCutSource (source : e.isCutSource row = true) :
    0 < fractionalPart (e.stored row.base).real := by
  simp only [isCutSource, Bool.and_eq_true, Bool.not_eq_true', InfRat.isInteger] at source
  obtain ⟨⟨⟨-, rational⟩, fractional⟩, -⟩ := source
  rw [rational, Bool.true_and] at fractional
  exact fractionalPart_pos fractional

/-- Every assignment that fits and respects the used bounds satisfies the inequality of the cut. -/
theorem one_le_sum_distances {r : RowId} (formed : e.Formed) (assigned : e.Assigned)
    (rounded : e.Rounded) (source : e.isCutSource row = true)
    (found : e.tableau.get? r = some row) (fits : e.Fits α)
    (f₀_eq : f₀ = fractionalPart (e.stored row.base).real)
    (respects : e.Respects α (e.cutUses f₀ row)) :
    1 ≤ (row.form.terms.map fun t =>
      (e.cutTerm f₀ t).weight * (e.cutTerm f₀ t).distance α).sum := by
  have positive : 0 < f₀ := f₀_eq ▸ fractionalPart_pos_of_isCutSource source
  have below : f₀ < 1 := f₀_eq ▸ fractionalPart_lt_one _
  obtain ⟨k, sum⟩ := sum_remainders assigned rounded source found fits f₀_eq
  refine one_le_sum_weights positive below
    (fun t member => distance_nonneg formed.bounds source member respects) (fun t _ => ?_) sum
  exact le_cutWeight (e.isInt t.1) positive below (e.shiftedCoeff f₀ t)

/-- At the current values all distances are zero. -/
theorem sum_distances_stored (e : Engine) (f₀ : Rat) (row : Row) :
    (row.form.terms.map fun t => (e.cutTerm f₀ t).weight *
      (e.cutTerm f₀ t).distance fun v => (e.stored v).real).sum = 0 := by
  refine List.sum_eq_zero fun x member => ?_
  obtain ⟨t, -, rfl⟩ := List.mem_map.1 member
  have zero : (e.cutTerm f₀ t).distance (fun v => (e.stored v).real) = 0 := by
    rw [CutTerm.distance]
    split <;> exact sub_self _
  rw [zero, mul_zero]

/-! ## The cut of a row -/

/-- Parts without weight contribute nothing. -/
theorem sum_weights_used (parts : List CutTerm) (α : Var → Rat) :
    (parts.map fun part => part.weight * part.distance α).sum =
      ((parts.filter fun part => part.weight ≠ 0).map fun part => part.coeff * α part.var).sum -
        ((parts.filter fun part => part.weight ≠ 0).map fun part =>
          part.coeff * part.limit).sum := by
  induction parts with
  | nil => simp
  | cons part rest ih =>
    rw [List.map_cons, List.sum_cons, ih]
    by_cases unused : part.weight = 0
    · rw [List.filter_cons_of_neg (by simpa using unused), unused, zero_mul, zero_add]
    · rw [List.filter_cons_of_pos (by simpa using unused), CutTerm.weight_mul_distance]
      simp only [List.map_cons, List.sum_cons]
      ring

/-- A cut is the inequality between the distances times a positive number, which makes the coefficients
integers if only integer variables occur. -/
theorem cutOf_spec (e : Engine) (row : Row) (f₀_eq : f₀ = fractionalPart (e.stored row.base).real) :
    ∃ scale : Rat, 0 < scale ∧
      ((e.cutOf row).integral = true → ∀ t ∈ (e.cutOf row).terms, ∃ n : Int, t.2 = n) ∧
      ∀ α : Var → Rat, ((e.cutOf row).terms.map fun t => t.2 * α t.1).sum =
        (e.cutOf row).bound + ((row.form.terms.map fun t =>
          (e.cutTerm f₀ t).weight * (e.cutTerm f₀ t).distance α).sum - 1) * scale := by
  generalize used_eq : (row.form.terms.map (e.cutTerm f₀)).filter (fun part => part.weight ≠ 0) = used
  generalize scale_eq : (if row.form.terms.all fun t => e.isInt t.1 then
    (denominatorsLcm (used.map CutTerm.coeff) : Rat) else 1) = scale
  have cut_eq : e.cutOf row =
      { terms := used.map fun part => (part.var, part.coeff * scale)
        bound := (1 + total (used.map fun part => part.coeff * part.limit)) * scale
        integral := row.form.terms.all fun t => e.isInt t.1
        reasons := (row.form.terms.map (e.cutTerm f₀)).map fun part =>
          e.bounds.reason part.var part.side } := by
    rw [← scale_eq, ← used_eq, f₀_eq]
    rfl
  refine ⟨scale, ?_, ?_, fun α => ?_⟩
  · rw [← scale_eq]
    split
    · exact_mod_cast Nat.pos_of_ne_zero (denominatorsLcm_ne_zero _)
    · exact one_pos
  · rw [cut_eq]
    intro all_int t member
    obtain ⟨part, at_part, rfl⟩ := List.mem_map.1 member
    simp only [← scale_eq, if_pos all_int]
    exact exists_int_mul_denominatorsLcm _ (List.mem_map_of_mem at_part)
  · have sum := sum_weights_used (row.form.terms.map (e.cutTerm f₀)) α
    rw [List.map_map, used_eq] at sum
    have scaled : ((used.map fun part => (part.var, part.coeff * scale)).map fun t =>
        t.2 * α t.1).sum = (used.map fun part => part.coeff * α part.var).sum * scale := by
      rw [← List.sum_map_mul_right, List.map_map]
      refine congrArg List.sum (List.map_congr_left fun part _ => ?_)
      simp only [Function.comp_apply]
      ring
    rw [cut_eq, scaled, total_eq_sum, ← Function.comp_def fun part : CutTerm =>
      part.weight * part.distance α, sum]
    ring

/-- The variables of a cut are variables of its row. -/
theorem exists_of_mem_cutOf (member : t ∈ (e.cutOf row).terms) : ∃ u ∈ row.form.terms, u.1 = t.1 := by
  obtain ⟨part, at_part, rfl⟩ := List.mem_map.1 member
  obtain ⟨u, at_u, rfl⟩ := List.mem_map.1 (List.mem_filter.1 at_part).1
  exact ⟨u, at_u, rfl⟩

/-! ## Adding a cut -/

/-- A cut that, if the current values are right, every assignment satisfies which fits and respects the
used bounds. -/
structure Cut.Valid (e : Engine) (cut : Cut) (uses : List (Var × BoundKind)) : Prop where
  reasons : cut.reasons = e.reasonsOf uses
  lt : ∀ t ∈ cut.terms, t.1 < e.numVars
  integral : cut.integral = true → ∀ t ∈ cut.terms, e.isInt t.1 = true ∧ ∃ n : Int, t.2 = n
  holds : e.Assigned → ∀ α, e.Fits α → e.Respects α uses →
    cut.bound ≤ (cut.terms.map fun t => t.2 * α t.1).sum
  positive : cut.terms = [] → 0 < cut.bound

/-- The current values violate the cut of a row. -/
theorem sum_stored_lt_bound (e : Engine) (row : Row) :
    ((e.cutOf row).terms.map fun t => t.2 * (e.stored t.1).real).sum < (e.cutOf row).bound := by
  obtain ⟨scale, positive, -, sum⟩ := cutOf_spec e row rfl
  rw [sum fun v => (e.stored v).real, sum_distances_stored]
  linarith

/-- The cut of a row is valid under the bounds that it uses: it counts how far the variables are from
these, and the base is an integer. -/
theorem valid_cutOf {r : RowId} (formed : e.Formed) (rounded : e.Rounded)
    (source : e.isCutSource row = true) (found : e.tableau.get? r = some row) :
    (e.cutOf row).Valid e (e.cutUses (fractionalPart (e.stored row.base).real) row) := by
  obtain ⟨scale, positive, integral, sum⟩ := cutOf_spec e row rfl
  refine ⟨?_, fun t member => ?_, fun all_int t member => ?_,
    fun assigned α fits respects => ?_, fun no_terms => ?_⟩
  · simp [cutOf, reasonsOf, cutUses, cutTerm]
  · obtain ⟨u, at_u, same⟩ := exists_of_mem_cutOf member
    have mentioned : row.form.mentions u.1 = true := LinearForm.mentions_of_mem at_u
    exact same ▸ formed.tableau.var_lt found (LinearForm.mentions_iff.1 mentioned)
  · obtain ⟨u, at_u, same⟩ := exists_of_mem_cutOf member
    exact ⟨same ▸ List.all_eq_true.1 all_int u at_u, integral all_int t member⟩
  · have cut := one_le_sum_distances formed assigned rounded source found fits rfl respects
    rw [sum α, le_add_iff_nonneg_right]
    exact mul_nonneg (sub_nonneg.2 cut) positive.le
  · have violated := sum_stored_lt_bound e row
    rwa [no_terms] at violated

/-- The new variable of a cut has the value of its row. -/
theorem steps_slack {sort : NumSort} {entries : List (Var × Rat)}
    (lt : ∀ t ∈ entries, t.1 < e.numVars)
    (integral : sort = .int → ∀ t ∈ entries, e.isInt t.1 = true ∧ ∃ n : Int, t.2 = n)
    {withRow : Engine}
    (becomes : (e.mkVar sort .internal).1.Becomes
      { (e.mkVar sort .internal).1.toState with
        tableau := e.tableau.addRow e.numVars (.ofEntries entries) } withRow) :
    Steps h e (withRow.normalizeRow e.numRows) ∧
      e.numVars < (withRow.normalizeRow e.numRows).numVars ∧
      ∀ α : Var → Rat, (withRow.normalizeRow e.numRows).tableau.Holds α →
        α e.numVars = (entries.map fun t => t.2 * α t.1).sum := by
  refine ⟨.single (.define sort (.ofEntries entries) withRow (fun v occurs => ?_)
    (fun is_int v occurs => ?_) becomes rfl), ?_, fun α holds => ?_⟩
  · obtain ⟨t, member, rfl⟩ := LinearForm.mem_of_coeff_ofEntries occurs
    exact lt t member
  · obtain ⟨t, member, rfl⟩ := LinearForm.mem_of_coeff_ofEntries occurs
    exact ⟨(integral is_int t member).1,
      LinearForm.exists_int_coeff_ofEntries (fun u at_u => (integral is_int u at_u).2) t.1⟩
  · refine Nat.lt_of_lt_of_le ?_ (keeps_normalizeRow withRow e.numRows).numVars
    rw [becomes.toState]
    exact Nat.lt_of_lt_of_eq (Nat.lt_succ_self _) (numVars_withVar e.toState _).symm
  · have added := (keeps_normalizeRow withRow e.numRows).rows α holds
    rw [becomes.toState] at added
    have defines := ((Tableau.holds_addRow e.numVars (.ofEntries entries) α).1 added).2
    rw [LinearForm.combine_ofEntries] at defines
    exact defines

/-- The bound of a cut may be offered once its variable is defined. -/
theorem offered_slack {v : Var} (bound : Rat) {reason : Dependency} (inv : e.Invariant h)
    (steps : Steps h e next) (names : e.dependencies.Names reason) (grounded : e.Grounded h reason)
    (entails : e.Reliable → ∀ α, e.Solves α → e.Believes α reason → next.tableau.Holds α →
      bound ≤ α v)
    (lt : v < next.numVars) : next.Offered h ⟨v, .lower, .ofRat bound, reason, .cut⟩ := by
  have keeps := steps.keeps inv
  have closed := inv.founded.formed.closed
  refine ⟨lt, ⟨keeps.grows.nodes.names names, ?_, fun reliable α solves believes => ?_⟩, ?_, ?_⟩
  · exact keeps.grows.grounded closed names (fun _ member => member) grounded
  · have bounded := entails (keeps.grows.reliable reliable) α (keeps.grows.solves α solves)
      (keeps.grows.believes closed names believes) solves.rows
    exact BoundKind.admits_lower.2 (InfRat.ofRat_le.2 bounded)
  · intro drifting
    exact absurd (.inl (BoundKind.coherent_ofRat .lower bound)) drifting
  · intro is_given
    cases is_given

/-- Adding a valid cut is a sound step. An empty cut is a conflict of the used bounds; any other one
becomes a variable with a row, an integer if its terms say so, and its bound follows from the used ones.
-/
theorem answers_addCut {cut : Cut} {uses : List (Var × BoundKind)} (inv : e.Invariant h)
    (valid : cut.Valid e uses) (source : RowId) : Answers h e (e.addCut source cut) := by
  rw [addCut, valid.reasons]
  generalize joined_eq : e.joinReasons (e.reasonsOf uses) = result
  obtain ⟨joined, reason⟩ := result
  have j : Joined h e (e.reasonsOf uses) joined reason := by
    have := joined_reasonsOf inv uses
    rwa [joined_eq] at this
  have joined_inv := j.steps.invariant inv
  have solution (reliable : joined.Reliable) {α : Var → Rat} (solves : joined.Solves α)
      (believes : joined.Believes α reason) :
      cut.bound ≤ (cut.terms.map fun t => t.2 * α t.1).sum := by
    have before := j.grows.solves α solves
    have reliable := j.grows.reliable reliable
    exact valid.holds (inv.assigned reliable) α before.fits
      (respects_of_believes inv reliable before (j.believes believes))
  simp only
  split
  · rename_i no_terms
    have empty := List.isEmpty_iff.1 no_terms
    refine .conflict j.steps (fails_setConflict ⟨j.names, .inl ⟨j.grounded (grounded_reasonsOf inv uses),
      fun reliable α solves believes => ?_⟩⟩)
    have := solution reliable solves believes
    rw [empty, List.map_nil, List.sum_nil] at this
    exact absurd (valid.positive empty) (not_lt.2 this)
  · have same : joined.toState = { e.toState with dependencies := joined.dependencies } :=
      j.becomes.toState
    have lt : ∀ t ∈ cut.terms, t.1 < joined.numVars := by
      rw [same]
      exact valid.lt
    have integral : (if cut.integral then NumSort.int else .real) = .int →
        ∀ t ∈ cut.terms, joined.isInt t.1 = true ∧ ∃ n : Int, t.2 = n := by
      rw [same]
      intro is_int
      refine valid.integral ?_
      by_contra real
      rw [if_neg real] at is_int
      cases is_int
    generalize sort_eq : (if cut.integral then NumSort.int else .real) = sort at integral ⊢
    have becomes : (joined.mkVar sort .internal).1.Becomes
        { (joined.mkVar sort .internal).1.toState with
          tableau := joined.tableau.addRow joined.numVars (.ofEntries cut.terms) }
        ((joined.mkVar sort .internal).1.pushRow joined.numVars (.ofEntries cut.terms)).1 :=
      ⟨rfl, rfl⟩
    change Answers h e (Engine.installBound (Engine.trace (Engine.count (Engine.normalizeRow
      ((joined.mkVar sort .internal).1.pushRow joined.numVars (.ofEntries cut.terms)).1
      joined.numRows) _) _ _) joined.numVars _ _ _ _)
    generalize ((joined.mkVar sort .internal).1.pushRow joined.numVars
      (.ofEntries cut.terms)).1 = withRow at becomes ⊢
    obtain ⟨defined, new_lt, value⟩ := steps_slack (h := h) lt integral becomes
    generalize withRow.normalizeRow joined.numRows = normal at defined new_lt value ⊢
    have normal_inv := defined.invariant joined_inv
    have offered := offered_slack cut.bound joined_inv defined j.names
      (j.grounded (grounded_reasonsOf inv uses))
      (fun reliable α solves believes holds =>
        (solution reliable solves believes).trans_eq (value α holds).symm)
      new_lt
    refine Answers.after ?_ (answers_installBound ?_ ?_)
    · exact (j.steps.trans defined).tail (.quiet ⟨rfl, rfl⟩)
    · exact normal_inv
    · exact offered

end Engine

end ArithDecide
