import Mathlib.Algebra.Order.Ring.GeomSum
import ArithDecide.Proofs.Tableau

/-!
# Reduced forms are unique

The bases of the first rows can be replaced in any order. Every point can be lifted to one that satisfies
these rows by changing it at their bases (`Tableau.lift`), so two forms without such bases that agree
where the rows hold are equal (`Tableau.eq_of_reduced`). Replacing ends: a replaced base brings in
bases of rows before its own only, so `Tableau.weight` falls, and it is below `2 ^ count`.
-/

namespace ArithDecide.Tableau

open LinearForm

variable {M : Type*} [AddCommGroup M] [Module ℚ M] {t : Tableau} {n count : Nat}
  {form other : LinearForm}

/-! ## Lifting points -/

/-- The point with the values that the first rows give their bases, the first row first. -/
def lift (t : Tableau) : Nat → (Var → M) → Var → M
  | 0, φ => φ
  | count + 1, φ =>
    match t.get? count with
    | none => lift t count φ
    | some row => Function.update (lift t count φ) row.base (row.form.combine (lift t count φ))

theorem lift_succ {row : Row} (found : t.get? count = some row) (φ : Var → M) :
    t.lift (count + 1) φ =
      Function.update (t.lift count φ) row.base (row.form.combine (t.lift count φ)) := by
  rw [lift, found]

theorem lift_succ_of_none (missing : t.get? count = none) (φ : Var → M) :
    t.lift (count + 1) φ = t.lift count φ := by
  rw [lift, missing]

theorem lift_apply {φ : Var → M} {v : Var}
    (free : ∀ r row, r < count → t.get? r = some row → row.base ≠ v) : t.lift count φ v = φ v := by
  induction count with
  | zero => rfl
  | succ count ih =>
    have before := ih fun r row below => free r row (Nat.lt_succ_of_lt below)
    cases found : t.get? count with
    | none => rw [lift_succ_of_none found, before]
    | some row =>
      rw [lift_succ found,
        Function.update_of_ne (free count row (Nat.lt_succ_self _) found).symm, before]

/-- A point that is lifted over all rows up to some number satisfies each of them, as rows mention bases
of earlier rows only. -/
theorem holds_lift (well : t.WellFormed n) (φ : Var → M) {r : RowId} {row : Row} (below : r < count)
    (at_r : t.get? r = some row) : row.Holds (t.lift count φ) := by
  induction count with
  | zero => cases below
  | succ count ih =>
    cases found : t.get? count with
    | none =>
      have apart : r ≠ count := fun same => by
        rw [same, found] at at_r
        cases at_r
      rw [lift_succ_of_none found]
      exact ih (Nat.lt_of_le_of_ne (Nat.le_of_lt_succ below) apart)
    | some last =>
      rw [lift_succ found, Row.Holds, combine_update]
      rcases Nat.lt_succ_iff_lt_or_eq.1 below with less | same
      · have apart : row.base ≠ last.base := fun same =>
          Nat.ne_of_lt less (well.distinct at_r found same)
        rw [Function.update_of_ne apart, well.separate at_r found (.inr less.le), zero_smul,
          add_zero]
        exact ih less
      · rw [same, found] at at_r
        cases at_r
        rw [Function.update_self, well.own found, zero_smul, add_zero]

/-! ## Uniqueness -/

/-- The form mentions no base of the first rows. -/
def Reduced (t : Tableau) (count : Nat) (form : LinearForm) : Prop :=
  ∀ r row, r < count → t.get? r = some row → form.coeff row.base = 0

theorem combine_lift (reduced : t.Reduced count form) (φ : Var → M) :
    form.combine (t.lift count φ) = form.combine φ := by
  refine combine_congr fun v mentioned => lift_apply fun r row below found same => ?_
  exact mentions_iff.1 mentioned (same ▸ reduced r row below found)

/-- Reduced forms that have the same values where the rows hold are equal. -/
theorem eq_of_reduced (well : t.WellFormed n) (reduced : t.Reduced count form)
    (reduced' : t.Reduced count other)
    (agree : ∀ φ : Var → Rat, (∀ r row, r < count → t.get? r = some row → row.Holds φ) →
      form.combine φ = other.combine φ) : form = other := by
  refine ext_coeff fun v => ?_
  rw [coeff_eq_combine, coeff_eq_combine, ← combine_lift reduced, ← combine_lift reduced']
  exact agree _ fun r row below => holds_lift well (unit v) below

/-! ## The weight -/

/-- The first rows whose base a form mentions. -/
def mentioned (t : Tableau) (count : Nat) (form : LinearForm) : Finset Nat :=
  (Finset.range count).filter fun r => (t.get? r).any fun row => form.mentions row.base

theorem mem_mentioned {r : Nat} : r ∈ t.mentioned count form ↔
    r < count ∧ ∃ row, t.get? r = some row ∧ form.coeff row.base ≠ 0 := by
  rw [mentioned, Finset.mem_filter, Finset.mem_range]
  cases t.get? r with
  | none => simp
  | some row => simp [mentions_iff]

/-- How much of a form is left to be replaced. -/
def weight (t : Tableau) (count : Nat) (form : LinearForm) : Nat :=
  ∑ r ∈ t.mentioned count form, 2 ^ r

theorem weight_lt (t : Tableau) (count : Nat) (form : LinearForm) :
    t.weight count form < 2 ^ count :=
  Nat.geomSum_lt (Nat.le_refl 2) fun _ member => (mem_mentioned.1 member).1

theorem reduced_of_weight (nothing : t.weight count form = 0) : t.Reduced count form := by
  intro r row below found
  by_contra occurs
  have member := mem_mentioned.2 ⟨below, row, found, occurs⟩
  have := Finset.single_le_sum (f := fun r => 2 ^ r) (fun _ _ => Nat.zero_le _) member
  have := Nat.two_pow_pos r
  rw [weight] at nothing
  omega

/-- Replacing a base makes the form lighter. -/
theorem weight_eliminate (well : t.WellFormed n) {q : RowId} {row : Row} (below : q < count)
    (found : t.get? q = some row) (occurs : form.coeff row.base ≠ 0) :
    t.weight count (eliminate form row) < t.weight count form := by
  have member := mem_mentioned.2 ⟨below, row, found, occurs⟩
  have left : t.mentioned count (eliminate form row) ⊆
      (t.mentioned count form).erase q ∪ Finset.range q := by
    intro r mentioned
    obtain ⟨r_lt, other, at_r, left⟩ := mem_mentioned.1 mentioned
    rw [Finset.mem_union, Finset.mem_erase, Finset.mem_range]
    refine or_iff_not_imp_right.2 fun late => ?_
    rw [coeff_eliminate, well.separate found at_r (.inr (Nat.not_lt.1 late)), mul_zero, add_zero]
      at left
    have apart : row.base ≠ other.base := fun same => left (if_pos same)
    rw [if_neg apart] at left
    refine ⟨fun same => apart ?_, mem_mentioned.2 ⟨r_lt, other, at_r, left⟩⟩
    rw [same, found] at at_r
    cases at_r
    rfl
  calc t.weight count (eliminate form row)
      ≤ ∑ r ∈ (t.mentioned count form).erase q ∪ Finset.range q, 2 ^ r :=
        Finset.sum_le_sum_of_subset left
    _ ≤ ∑ r ∈ (t.mentioned count form).erase q, 2 ^ r + ∑ r ∈ Finset.range q, 2 ^ r :=
        Finset.sum_union_inter (f := fun r => 2 ^ r) ▸ Nat.le_add_right _ _
    _ < ∑ r ∈ (t.mentioned count form).erase q, 2 ^ r + 2 ^ q :=
        Nat.add_lt_add_left (Nat.geomSum_lt (Nat.le_refl 2) fun _ => Finset.mem_range.1) _
    _ = t.weight count form := Finset.sum_erase_add _ _ member

end ArithDecide.Tableau
