import ArithDecide.Proofs.LinearForm
import ArithDecide.Tableau

/-!
# The tableau keeps its solutions and can be taken back

`Tableau.WellFormed` says which variables may occur where: every row has a base of its own, a row in
reduced form mentions no base, and a pending row only bases of rows before it. Adding, normalizing
and pivoting keep it, and the last two keep the set of solutions, in every module over the rationals.
Every change is taken back exactly; for a pivot this is `Tableau.undo_pivot`, and it needs that no row
is pending.
-/

namespace ArithDecide

variable {M : Type*} [AddCommGroup M] [Module ℚ M]

/-! ## Solutions -/

/-- A point satisfies the equation of a row. -/
def Row.Holds (row : Row) (φ : Var → M) : Prop := φ row.base = row.form.combine φ

/-- A point satisfies the equations of all rows. -/
def Tableau.Holds (t : Tableau) (φ : Var → M) : Prop :=
  ∀ r row, t.get? r = some row → row.Holds φ

/-- Equations without a constant hold for differences. -/
theorem Tableau.Holds.sub {t : Tableau} {φ ψ : Var → M} (first : t.Holds φ) (second : t.Holds ψ) :
    t.Holds fun v => φ v - ψ v := by
  intro r row found
  rw [Row.Holds, LinearForm.combine_sub, first r row found, second r row found]

theorem Row.coeff_solveFor (row : Row) (v w : Var) :
    (row.solveFor v).form.coeff w =
      (if v = w then 0 else -(1 / row.form.coeff v) * row.form.coeff w) +
        if row.base = w then 1 / row.form.coeff v else 0 := by
  simp only [Row.solveFor, LinearForm.coeff_addTerm, LinearForm.coeff_scale,
    LinearForm.coeff_erase, mul_ite, mul_zero]

/-- A row solved for another variable mentions its former base. -/
theorem Row.coeff_base_solveFor (row : Row) {v : Var} (own : row.form.coeff row.base = 0)
    (apart : v ≠ row.base) : (row.solveFor v).form.coeff row.base = 1 / row.form.coeff v := by
  rw [row.coeff_solveFor, if_neg apart, if_pos rfl, own, mul_zero, zero_add]

/-- A row solved for a variable does not mention it. -/
theorem Row.coeff_self_solveFor (row : Row) {v : Var} (apart : row.base ≠ v) :
    (row.solveFor v).form.coeff v = 0 := by
  rw [row.coeff_solveFor, if_pos rfl, if_neg apart, add_zero]

theorem Row.ne_base_of_occurs {row : Row} {v : Var} (own : row.form.coeff row.base = 0)
    (occurs : row.form.coeff v ≠ 0) : row.base ≠ v := by
  rintro rfl
  exact occurs own

/-- Solving a row for a variable and then for its base again gives the row back. -/
theorem Row.solveFor_solveFor {row : Row} {v : Var} (own : row.form.coeff row.base = 0)
    (occurs : row.form.coeff v ≠ 0) : (row.solveFor v).solveFor row.base = row := by
  set c := row.form.coeff v with coeff_eq
  have apart := Row.ne_base_of_occurs own occurs
  have same_form : ((row.solveFor v).solveFor row.base).form = row.form := by
    refine LinearForm.ext_coeff fun w => ?_
    have base_eq : (row.solveFor v).base = v := rfl
    rw [Row.coeff_solveFor, row.coeff_base_solveFor own apart.symm, row.coeff_solveFor, base_eq,
      ← coeff_eq]
    by_cases is_base : row.base = w
    · subst is_base
      rw [if_pos rfl, if_neg apart.symm, add_zero, own]
    · by_cases is_entering : v = w
      · subst is_entering
        rw [if_neg is_base, if_pos rfl, if_neg is_base, if_pos rfl, ← coeff_eq]
        simp
      · rw [if_neg is_base, if_neg is_entering, if_neg is_base, if_neg is_entering]
        field_simp
        ring
  cases row
  exact congrArg (fun form => Row.mk _ form _) same_form

/-- Solving the equation of a row for another variable does not change what it says. -/
theorem Row.holds_solveFor {row : Row} {v : Var} (occurs : row.form.coeff v ≠ 0) (φ : Var → M) :
    (row.solveFor v).Holds φ ↔ row.Holds φ := by
  set c := row.form.coeff v with coeff_eq
  have solved : (row.solveFor v).form.combine φ =
      (-(1 / c)) • (row.form.combine φ - c • φ v) + (1 / c) • φ row.base := by
    simp only [Row.solveFor, LinearForm.combine_addTerm, LinearForm.combine_scale,
      LinearForm.combine_erase, ← coeff_eq]
  have rearranged : (row.solveFor v).form.combine φ =
      φ v + (1 / c) • (φ row.base - row.form.combine φ) := by
    have cancel : (1 / c) • c • φ v = φ v := by rw [smul_smul, one_div_mul_cancel occurs, one_smul]
    rw [solved, neg_smul, smul_sub, smul_sub, cancel]
    abel
  show φ v = (row.solveFor v).form.combine φ ↔ φ row.base = row.form.combine φ
  rw [rearranged, left_eq_add, (IsUnit.mk0 _ (one_div_ne_zero occurs)).smul_eq_zero, sub_eq_zero]

namespace Tableau

/-! ## Replacing bases -/

theorem coeff_eliminate (form : LinearForm) (row : Row) (w : Var) :
    (eliminate form row).coeff w =
      (if row.base = w then 0 else form.coeff w) + form.coeff row.base * row.form.coeff w := by
  rw [eliminate]
  split
  · exact LinearForm.coeff_substitute _ _ _ _
  · rename_i absent
    have zero := LinearForm.mentions_eq_false_iff.1 (Bool.eq_false_iff.2 absent)
    by_cases same : row.base = w
    · subst same
      simp [zero]
    · simp [zero, same]

/-- What a row is eliminated from does not mention its base any longer. -/
theorem coeff_base_eliminate {row : Row} (own : row.form.coeff row.base = 0) (form : LinearForm) :
    (eliminate form row).coeff row.base = 0 := by
  rw [coeff_eliminate, if_pos rfl, own, mul_zero, add_zero]

/-- Eliminating a variable by a solved row is taken back by eliminating the base by the row itself. -/
theorem eliminate_eliminate {row : Row} {v : Var} {form : LinearForm}
    (own : row.form.coeff row.base = 0) (occurs : row.form.coeff v ≠ 0)
    (absent : form.coeff row.base = 0) : eliminate (eliminate form (row.solveFor v)) row = form := by
  set c := row.form.coeff v with coeff_eq
  have apart := Row.ne_base_of_occurs own occurs
  refine LinearForm.ext_coeff fun w => ?_
  have base_eq : (row.solveFor v).base = v := rfl
  rw [coeff_eliminate, coeff_eliminate, coeff_eliminate, base_eq, if_neg apart.symm,
    row.coeff_base_solveFor own apart.symm, absent, row.coeff_solveFor, ← coeff_eq]
  by_cases is_base : row.base = w
  · subst is_base
    rw [if_pos rfl, own, absent]
    ring
  · by_cases is_entering : v = w
    · subst is_entering
      rw [if_neg is_base, if_pos rfl, if_pos rfl, if_neg is_base, ← coeff_eq]
      field_simp
      ring
    · rw [if_neg is_base, if_neg is_entering, if_neg is_entering, if_neg is_base]
      field_simp
      ring

theorem combine_eliminate {row : Row} {φ : Var → M} (holds : row.Holds φ) (form : LinearForm) :
    (eliminate form row).combine φ = form.combine φ := by
  rw [eliminate]
  split
  · exact LinearForm.combine_substitute_of_eq holds form
  · rfl

theorem combine_reduceBelow {t : Tableau} {count : Nat} {φ : Var → M}
    (holds : ∀ r row, r < count → t.get? r = some row → row.Holds φ) (form : LinearForm) :
    (t.reduceBelow count form).combine φ = form.combine φ := by
  induction count generalizing form with
  | zero => rfl
  | succ count ih =>
    have below := ih fun r row less => holds r row (Nat.lt_succ_of_lt less)
    rw [reduceBelow]
    cases found : t.get? count with
    | none => exact below form
    | some row =>
      exact (below _).trans (combine_eliminate (holds count row (Nat.lt_succ_self _) found) form)

/-! ## Which variables occur where -/

/-- Every row has a base of its own, a row in reduced form mentions no base, a pending row only bases
of rows before it, and all variables are below `n`. -/
structure WellFormed (t : Tableau) (n : Nat) : Prop where
  distinct : ∀ {r q row other}, t.get? r = some row → t.get? q = some other →
    row.base = other.base → r = q
  separate : ∀ {r q row other}, t.get? r = some row → t.get? q = some other →
    row.pending = false ∨ r ≤ q → row.form.coeff other.base = 0
  base_lt : ∀ {r row}, t.get? r = some row → row.base < n
  var_lt : ∀ {r row v}, t.get? r = some row → row.form.coeff v ≠ 0 → v < n

/-- No row is pending. -/
def Normalized (t : Tableau) : Prop := ∀ r row, t.get? r = some row → row.pending = false

variable {t : Tableau} {n : Nat}

theorem WellFormed.mono {m : Nat} (well : t.WellFormed n) (le : n ≤ m) : t.WellFormed m where
  distinct := well.distinct
  separate := well.separate
  base_lt found := Nat.lt_of_lt_of_le (well.base_lt found) le
  var_lt found occurs := Nat.lt_of_lt_of_le (well.var_lt found occurs) le

/-- Only the rows count. -/
theorem WellFormed.of_rows {u : Tableau} (well : t.WellFormed n) (same : u.rows = t.rows) :
    u.WellFormed n := by
  have get (r : RowId) : u.get? r = t.get? r := congrArg (·[r]?) same
  constructor <;> simp only [get]
  · exact well.distinct
  · exact well.separate
  · exact well.base_lt
  · exact well.var_lt

theorem WellFormed.own {r : RowId} {row : Row} (well : t.WellFormed n)
    (found : t.get? r = some row) : row.form.coeff row.base = 0 :=
  well.separate found found (.inr (Nat.le_refl r))

theorem wellFormed_empty : empty.WellFormed n where
  distinct found := by simp [get?, empty] at found
  separate found := by simp [get?, empty] at found
  base_lt found := by simp [get?, empty] at found
  var_lt found := by simp [get?, empty] at found

theorem rowOf?_eq_none_iff {v : Var} :
    t.rowOf? v = none ↔ ∀ r row, t.get? r = some row → row.base ≠ v := by
  simp only [rowOf?, Array.findIdx?_eq_none_iff, get?]
  constructor
  · intro none_heads r row found
    simpa using none_heads row (Array.mem_of_getElem? found)
  · intro none_heads row member
    obtain ⟨r, found⟩ := Array.mem_iff_getElem?.1 member
    simpa using none_heads r row found

theorem get?_of_rowOf? {v : Var} {r : RowId} (heads : t.rowOf? v = some r) :
    ∃ row, t.get? r = some row ∧ row.base = v := by
  obtain ⟨bound, holds, -⟩ := Array.findIdx?_eq_some_iff_getElem.1 heads
  exact ⟨t.rows[r], Array.getElem?_eq_getElem bound, by simpa using holds⟩

theorem WellFormed.rowOf?_base {r : RowId} {row : Row} (well : t.WellFormed n)
    (found : t.get? r = some row) : t.rowOf? row.base = some r := by
  cases heads : t.rowOf? row.base with
  | none => exact absurd rfl (rowOf?_eq_none_iff.1 heads r row found)
  | some q =>
    obtain ⟨other, at_q, same⟩ := get?_of_rowOf? heads
    rw [well.distinct at_q found same]

theorem mem_rowsMentioning {v : Var} {r : RowId} :
    r ∈ t.rowsMentioning v ↔ ∃ row, t.get? r = some row ∧ row.form.coeff v ≠ 0 := by
  simp only [rowsMentioning, rowIds, List.mem_filter, List.mem_range, Option.any_eq_true,
    LinearForm.mentions_iff]
  constructor
  · rintro ⟨-, occurs⟩
    exact occurs
  · rintro ⟨row, found, occurs⟩
    exact ⟨(Array.getElem?_eq_some_iff.1 found).1, row, found, occurs⟩

theorem kind_eq_nonBase_iff {v : Var} :
    t.kind v = .nonBase ↔ ∀ r row, t.get? r = some row → row.base ≠ v := by
  rw [← rowOf?_eq_none_iff, kind]
  cases heads : t.rowOf? v with
  | none => simp
  | some r =>
    obtain ⟨row, found, -⟩ := get?_of_rowOf? heads
    simp only [Option.bind_some, found]
    split <;> simp

theorem pending_of_kind {v : Var} (pending : t.kind v = .pendingBase) :
    ∃ r row, t.get? r = some row ∧ row.base = v ∧ row.pending = true := by
  rw [kind] at pending
  cases heads : t.rowOf? v with
  | none =>
    rw [heads] at pending
    cases pending
  | some r =>
    obtain ⟨row, found, same⟩ := get?_of_rowOf? heads
    rw [heads, Option.bind_some, found] at pending
    refine ⟨r, row, found, same, ?_⟩
    by_contra settled
    simp [settled] at pending

theorem WellFormed.kind_base {r : RowId} {row : Row} (well : t.WellFormed n)
    (found : t.get? r = some row) :
    t.kind row.base = if row.pending then .pendingBase else .base := by
  rw [kind, well.rowOf?_base found, Option.bind_some, found]

theorem Normalized.kind_ne (normalized : t.Normalized) (v : Var) : t.kind v ≠ .pendingBase := by
  intro pending
  obtain ⟨r, row, found, -, still⟩ := pending_of_kind pending
  rw [normalized r row found] at still
  cases still

/-! ## Adding a row -/

@[simp] theorem record_rows (t : Tableau) (change : TableauChange) :
    (t.record change).rows = t.rows := by
  rw [record]
  split <;> rfl

@[simp] theorem record_recording (t : Tableau) (change : TableauChange) :
    (t.record change).recording = t.recording := by
  rw [record]
  split <;> rfl

@[simp] theorem record_get? (t : Tableau) (change : TableauChange) (r : RowId) :
    (t.record change).get? r = t.get? r := by
  rw [get?, record_rows, get?]

theorem isFresh_iff {v : Var} :
    t.isFresh v = true ↔
      ∀ r row, t.get? r = some row → row.base ≠ v ∧ row.form.coeff v = 0 := by
  rw [isFresh, Bool.and_eq_true, Option.isNone_iff_eq_none, rowOf?_eq_none_iff, List.isEmpty_iff,
    List.eq_nil_iff_forall_not_mem]
  constructor
  · rintro ⟨none_heads, none_mentions⟩ r row found
    refine ⟨none_heads r row found, not_not.1 fun occurs => ?_⟩
    exact none_mentions r (mem_rowsMentioning.2 ⟨row, found, occurs⟩)
  · intro absent
    refine ⟨fun r row found => (absent r row found).1, fun r member => ?_⟩
    obtain ⟨row, found, occurs⟩ := mem_rowsMentioning.1 member
    exact occurs (absent r row found).2

theorem get?_addRow (t : Tableau) (base : Var) (form : LinearForm) (r : RowId) :
    (t.addRow base form).get? r =
      if r = t.rows.size then some ⟨base, form, true⟩ else t.get? r := by
  rw [addRow, record_get?, get?, get?, Array.getElem?_push]

/-- A row for a fresh base that does not mention it keeps the tableau well formed. -/
theorem wellFormed_addRow {base : Var} {form : LinearForm} (well : t.WellFormed n)
    (fresh : t.isFresh base = true) (own : form.coeff base = 0) (base_lt : base < n)
    (var_lt : ∀ v, form.coeff v ≠ 0 → v < n) : (t.addRow base form).WellFormed n := by
  have old {r : RowId} {row : Row} (found : t.get? r = some row) : r < t.rows.size :=
    (Array.getElem?_eq_some_iff.1 found).1
  have absent := isFresh_iff.1 fresh
  constructor
  · intro r q row other at_r at_q same
    rw [get?_addRow] at at_r at_q
    split at at_r <;> split at at_q
    · simp_all
    · obtain rfl := Option.some.inj at_r
      exact absurd same.symm (absent q other at_q).1
    · obtain rfl := Option.some.inj at_q
      exact absurd same (absent r row at_r).1
    · exact well.distinct at_r at_q same
  · intro r q row other at_r at_q apart
    rw [get?_addRow] at at_r at_q
    split at at_r <;> split at at_q
    · obtain rfl := Option.some.inj at_r
      obtain rfl := Option.some.inj at_q
      exact own
    · rename_i last _
      obtain rfl := Option.some.inj at_r
      simp only [last, Bool.true_eq_false, false_or] at apart
      exact absurd (old at_q) (Nat.not_lt.2 apart)
    · obtain rfl := Option.some.inj at_q
      exact (absent r row at_r).2
    · exact well.separate at_r at_q apart
  · intro r row found
    rw [get?_addRow] at found
    split at found
    · obtain rfl := Option.some.inj found
      exact base_lt
    · exact well.base_lt found
  · intro r row v found occurs
    rw [get?_addRow] at found
    split at found
    · obtain rfl := Option.some.inj found
      exact var_lt v occurs
    · exact well.var_lt found occurs

theorem holds_addRow (base : Var) (form : LinearForm) (φ : Var → M) :
    (t.addRow base form).Holds φ ↔ t.Holds φ ∧ φ base = form.combine φ := by
  constructor
  · intro holds
    refine ⟨fun r row found => holds r row ?_, ?_⟩
    · have bound := (Array.getElem?_eq_some_iff.1 found).1
      rw [get?_addRow, if_neg (Nat.ne_of_lt bound), found]
    · exact holds t.rows.size ⟨base, form, true⟩ (by rw [get?_addRow, if_pos rfl])
  · rintro ⟨holds, new⟩ r row found
    rw [get?_addRow] at found
    split at found
    · obtain rfl := Option.some.inj found
      exact new
    · exact holds r row found

/-! ## Normalizing -/

/-- A row in reduced form. -/
def reducedRow (t : Tableau) (r : RowId) (row : Row) : Row :=
  { row with form := t.reduceBelow r row.form, pending := false }

theorem normalize_of_pending {r : RowId} {row : Row} (found : t.get? r = some row)
    (pending : row.pending = true) :
    t.normalize r =
      ({ t with rows := t.rows.setIfInBounds r (t.reducedRow r row) }).record
        (.normalize r row.form) := by
  simp only [normalize, found, Option.filter_some, pending, if_true]
  rfl

theorem normalize_of_not_pending {r : RowId}
    (settled : ∀ row, t.get? r = some row → row.pending = false) : t.normalize r = t := by
  have none_pending : (t.get? r).filter Row.pending = none := by
    rw [Option.filter_eq_none_iff]
    intro row found
    simp [settled row found]
  simp only [normalize, none_pending]

/-- Normalising changes the row with the given number only, and only if it is pending. -/
theorem get?_normalize (t : Tableau) (r q : RowId) :
    (t.normalize r).get? q =
      (t.get? q).map fun row => if q = r ∧ row.pending = true then t.reducedRow r row else row := by
  cases found : t.get? r with
  | none =>
    rw [normalize_of_not_pending (by simp [found])]
    cases at_q : t.get? q with
    | none => rfl
    | some row =>
      have apart : q ≠ r := by rintro rfl; simp [found] at at_q
      simp [apart]
  | some row =>
    cases pending : row.pending with
    | false =>
      rw [normalize_of_not_pending fun other same => by simp_all]
      cases at_q : t.get? q with
      | none => rfl
      | some other =>
        rw [Option.map_some, if_neg]
        rintro ⟨rfl, still⟩
        simp_all
    | true =>
      rw [normalize_of_pending found pending, record_get?, get?, Array.getElem?_setIfInBounds]
      have bound := (Array.getElem?_eq_some_iff.1 found).1
      by_cases same : r = q
      · subst same
        simp [bound, found, pending]
      · have apart : ¬q = r := fun h => same h.symm
        simp only [same, if_false, apart, false_and]
        exact (Option.map_id' (x := t.get? q)).symm

theorem get?_normalize_of_ne {r q : RowId} (apart : q ≠ r) :
    (t.normalize r).get? q = t.get? q := by
  rw [get?_normalize]
  simp [apart]

@[simp] theorem size_normalize (t : Tableau) (r : RowId) :
    (t.normalize r).rows.size = t.rows.size := by
  rw [normalize]
  split <;> simp

/-- In a reduced form no base is left, except for those of rows from `count` on that the form
mentioned before. -/
theorem coeff_reduceBelow (well : t.WellFormed n) {count : Nat} {form : LinearForm}
    (above : ∀ q other, count ≤ q → t.get? q = some other → form.coeff other.base = 0)
    {q : RowId} {other : Row} (found : t.get? q = some other) :
    (t.reduceBelow count form).coeff other.base = 0 := by
  induction count generalizing form with
  | zero => exact above q other (Nat.zero_le q) found
  | succ count ih =>
    rw [reduceBelow]
    cases at_count : t.get? count with
    | none =>
      refine ih fun p another le at_p => above p another ?_ at_p
      have : p ≠ count := by rintro rfl; simp [at_count] at at_p
      omega
    | some row =>
      refine ih fun p another le at_p => ?_
      rw [coeff_eliminate]
      have later : row.form.coeff another.base = 0 := well.separate at_count at_p (.inr le)
      split
      · rw [later, mul_zero, add_zero]
      · rename_i apart
        have : p ≠ count := by
          rintro rfl
          rw [at_count] at at_p
          exact apart (congrArg Row.base (Option.some.inj at_p))
        rw [above p another (by omega) at_p, later, mul_zero, add_zero]

/-- Replacing bases brings in no variable that does not exist. -/
theorem coeff_reduceBelow_lt (well : t.WellFormed n) {count : Nat} {form : LinearForm}
    (var_lt : ∀ v, form.coeff v ≠ 0 → v < n) {v : Var}
    (occurs : (t.reduceBelow count form).coeff v ≠ 0) : v < n := by
  induction count generalizing form with
  | zero => exact var_lt v occurs
  | succ count ih =>
    rw [reduceBelow] at occurs
    cases at_count : t.get? count with
    | none =>
      rw [at_count] at occurs
      exact ih var_lt occurs
    | some row =>
      rw [at_count] at occurs
      refine ih (fun w occurs => ?_) occurs
      by_contra large
      have absent : form.coeff w = 0 := not_not.1 fun h => large (var_lt w h)
      have absent' : row.form.coeff w = 0 := not_not.1 fun h => large (well.var_lt at_count h)
      rw [coeff_eliminate, absent, absent', mul_zero, add_zero, ite_self] at occurs
      exact occurs rfl

/-- Normalising a row keeps the tableau well formed, as bases are replaced by rows before it. -/
theorem wellFormed_normalize (well : t.WellFormed n) (r : RowId) : (t.normalize r).WellFormed n := by
  -- every row of the new tableau keeps its base and is either as before or newly reduced
  have origin {q : RowId} {row : Row} (found : (t.normalize r).get? q = some row) :
      ∃ old, t.get? q = some old ∧ row.base = old.base ∧
        (row = old ∨ row.form = t.reduceBelow r old.form ∧ q = r) := by
    rw [get?_normalize, Option.map_eq_some_iff] at found
    obtain ⟨old, at_q, rfl⟩ := found
    refine ⟨old, at_q, ?_⟩
    split
    · rename_i reduced
      exact ⟨rfl, .inr ⟨rfl, reduced.1⟩⟩
    · exact ⟨rfl, .inl rfl⟩
  constructor
  · intro p q row other at_p at_q same
    obtain ⟨old, at_p, base, -⟩ := origin at_p
    obtain ⟨old', at_q, base', -⟩ := origin at_q
    exact well.distinct at_p at_q (by rw [← base, ← base', same])
  · intro p q row other at_p at_q apart
    obtain ⟨old', old_q, base', -⟩ := origin at_q
    obtain ⟨old, old_p, -, same | ⟨form, rfl⟩⟩ := origin at_p
    · subst same
      rw [base']
      exact well.separate old_p old_q apart
    · rw [form, base']
      exact coeff_reduceBelow well
        (fun k another le at_k => well.separate old_p at_k (.inr le)) old_q
  · intro q row found
    obtain ⟨old, at_q, base, -⟩ := origin found
    exact base ▸ well.base_lt at_q
  · intro q row v found occurs
    obtain ⟨old, at_q, -, same | ⟨form, -⟩⟩ := origin found
    · exact well.var_lt at_q (same ▸ occurs)
    · rw [form] at occurs
      exact coeff_reduceBelow_lt well (fun w => well.var_lt at_q) occurs

/-- Normalising a row changes none of the assignments that satisfy all rows. -/
theorem holds_normalize (r : RowId) (φ : Var → M) : (t.normalize r).Holds φ ↔ t.Holds φ := by
  constructor
  · intro holds q row found
    by_cases reduced : q = r ∧ row.pending = true
    · obtain ⟨rfl, pending⟩ := reduced
      have new : (t.reducedRow q row).Holds φ :=
        holds q _ (by rw [get?_normalize, found]; simp [pending])
      have below : (t.reduceBelow q row.form).combine φ = row.form.combine φ :=
        combine_reduceBelow (fun p other less at_p =>
          holds p other (by rw [get?_normalize_of_ne (Nat.ne_of_lt less), at_p])) row.form
      exact Eq.trans new below
    · exact holds q row (by rw [get?_normalize, found, Option.map_some, if_neg reduced])
  · intro holds q row found
    rw [get?_normalize, Option.map_eq_some_iff] at found
    obtain ⟨old, at_q, rfl⟩ := found
    split
    · exact (holds q old at_q).trans
        (combine_reduceBelow (fun p other _ at_p => holds p other at_p) old.form).symm
    · exact holds q old at_q

/-! ## Pivoting -/

theorem getElem?_pivotRows {rows : Array Row} {r : RowId} {row : Row} (found : rows[r]? = some row)
    (entering : Var) (i : Nat) :
    (pivotRows rows r entering)[i]? = (rows[i]?).map fun other =>
      if i = r then row.solveFor entering
      else { other with form := eliminate other.form (row.solveFor entering) } := by
  simp only [pivotRows, found, Array.getElem?_mapIdx]

@[simp] theorem size_pivotRows (rows : Array Row) (r : RowId) (entering : Var) :
    (pivotRows rows r entering).size = rows.size := by
  rw [pivotRows]
  split
  · rfl
  · exact Array.size_mapIdx

theorem get?_pivot {r : RowId} {row : Row} (found : t.get? r = some row) (entering : Var)
    (i : Nat) :
    (t.pivot r entering).get? i = (t.get? i).map fun other =>
      if i = r then row.solveFor entering
      else { other with form := eliminate other.form (row.solveFor entering) } := by
  simp only [pivot, found, record_get?]
  exact getElem?_pivotRows found entering i

/-- Where the rows after a pivot come from. -/
theorem get?_pivot_cases {r q : RowId} {row other : Row} {entering : Var} (found : t.get? r = some row)
    (at_q : (t.pivot r entering).get? q = some other) :
    (q = r ∧ other = row.solveFor entering) ∨
      ∃ old, q ≠ r ∧ t.get? q = some old ∧ other.base = old.base ∧
        other.form = eliminate old.form (row.solveFor entering) := by
  rw [get?_pivot found, Option.map_eq_some_iff] at at_q
  obtain ⟨old, at_q, rfl⟩ := at_q
  by_cases same : q = r
  · exact .inl ⟨same, if_pos same⟩
  · exact .inr ⟨old, same, at_q, by rw [if_neg same], by rw [if_neg same]⟩

theorem normalized_pivot {r : RowId} {entering : Var} (settled : t.Normalized) :
    (t.pivot r entering).Normalized := by
  intro i other at_i
  cases found : t.get? r with
  | none =>
    simp only [pivot, found] at at_i
    exact settled i other at_i
  | some row =>
    rw [get?_pivot found, Option.map_eq_some_iff] at at_i
    obtain ⟨old, at_i, rfl⟩ := at_i
    split
    · exact settled r row found
    · exact settled i old at_i

/-- Exchanging a base changes none of the assignments that satisfy all rows. -/
theorem holds_pivot {r : RowId} {row : Row} {entering : Var} (found : t.get? r = some row)
    (occurs : row.form.coeff entering ≠ 0) (φ : Var → M) :
    (t.pivot r entering).Holds φ ↔ t.Holds φ := by
  have solved := Row.holds_solveFor occurs φ
  constructor
  · intro holds
    have new : (row.solveFor entering).Holds φ :=
      holds r _ (by rw [get?_pivot found, found, Option.map_some, if_pos rfl])
    intro i other at_i
    by_cases same : i = r
    · subst same
      obtain rfl := Option.some.inj (found.symm.trans at_i)
      exact solved.1 new
    · have := holds i _ (by rw [get?_pivot found, at_i, Option.map_some, if_neg same])
      exact Eq.trans this (combine_eliminate new other.form)
  · intro holds i other at_i
    have new := solved.2 (holds r row found)
    rw [get?_pivot found, Option.map_eq_some_iff] at at_i
    obtain ⟨old, at_i, rfl⟩ := at_i
    split
    · exact new
    · exact (holds i old at_i).trans (combine_eliminate new old.form).symm

/-- In a tableau without pending rows no row mentions a base. -/
theorem WellFormed.apart (well : t.WellFormed n) (settled : t.Normalized) {r q : RowId}
    {row other : Row} (at_r : t.get? r = some row) (at_q : t.get? q = some other) :
    row.form.coeff other.base = 0 :=
  well.separate at_r at_q (.inl (settled r row at_r))

/-- A row solved for one of its variables mentions no base of another row. -/
theorem WellFormed.coeff_solveFor_eq_zero {r q : RowId} {row other : Row} {entering : Var}
    (well : t.WellFormed n) (settled : t.Normalized) (found : t.get? r = some row)
    (at_q : t.get? q = some other) (ne : q ≠ r) (occurs : row.form.coeff entering ≠ 0) :
    (row.solveFor entering).form.coeff other.base = 0 := by
  have absent := well.apart settled found at_q
  have ne_base : row.base ≠ other.base := fun same => ne (well.distinct found at_q same).symm
  have ne_entering : entering ≠ other.base := by
    rintro rfl
    exact occurs absent
  rw [row.coeff_solveFor, if_neg ne_entering, if_neg ne_base, absent, mul_zero, add_zero]

theorem WellFormed.var_lt_solveFor {r : RowId} {row : Row} {entering v : Var} (well : t.WellFormed n)
    (found : t.get? r = some row) (nonzero : (row.solveFor entering).form.coeff v ≠ 0) : v < n := by
  by_contra large
  have ne_base : row.base ≠ v := fun same => large (same ▸ well.base_lt found)
  have absent : row.form.coeff v = 0 := not_not.1 fun occurs => large (well.var_lt found occurs)
  rw [row.coeff_solveFor, if_neg ne_base, absent, mul_zero, ite_self, add_zero] at nonzero
  exact nonzero rfl

/-- Exchanging a base keeps the tableau well formed: the entering variable heads its row and occurs in
no other. -/
theorem wellFormed_pivot {r : RowId} {row : Row} {entering : Var} (well : t.WellFormed n)
    (settled : t.Normalized) (found : t.get? r = some row)
    (occurs : row.form.coeff entering ≠ 0) : (t.pivot r entering).WellFormed n := by
  have solved_own : (row.solveFor entering).form.coeff entering = 0 :=
    row.coeff_self_solveFor (Row.ne_base_of_occurs (well.own found) occurs)
  -- the entering variable headed no row
  have not_base {q : RowId} {other : Row} (at_q : t.get? q = some other) :
      other.base ≠ entering := by
    rintro rfl
    exact occurs (well.apart settled found at_q)
  constructor
  · intro p q first second at_p at_q same
    rcases get?_pivot_cases found at_p with ⟨rfl, rfl⟩ | ⟨old, ne, old_p, base, -⟩ <;>
      rcases get?_pivot_cases found at_q with ⟨rfl, rfl⟩ | ⟨old', ne', old_q, base', -⟩
    · rfl
    · exact absurd (base'.symm.trans same.symm) (not_base old_q)
    · exact absurd (base.symm.trans same) (not_base old_p)
    · exact well.distinct old_p old_q (by rw [← base, ← base', same])
  · intro p q first second at_p at_q _
    rcases get?_pivot_cases found at_p with ⟨rfl, rfl⟩ | ⟨old, ne, old_p, -, form⟩ <;>
      rcases get?_pivot_cases found at_q with ⟨rfl, rfl⟩ | ⟨old', ne', old_q, base', -⟩
    · exact solved_own
    · rw [base']
      exact well.coeff_solveFor_eq_zero settled found old_q ne' occurs
    · rw [form]
      exact coeff_base_eliminate solved_own old.form
    · rw [form, base', coeff_eliminate, well.coeff_solveFor_eq_zero settled found old_q ne' occurs,
        mul_zero, add_zero, well.apart settled old_p old_q, ite_self]
  · intro q other at_q
    rcases get?_pivot_cases found at_q with ⟨rfl, rfl⟩ | ⟨old, -, at_q, base, -⟩
    · exact well.var_lt found occurs
    · exact base ▸ well.base_lt at_q
  · intro q other v at_q nonzero
    rcases get?_pivot_cases found at_q with ⟨rfl, rfl⟩ | ⟨old, -, at_q, -, form⟩
    · exact well.var_lt_solveFor found nonzero
    · by_contra large
      have absent : old.form.coeff v = 0 := not_not.1 fun h => large (well.var_lt at_q h)
      have absent' : (row.solveFor entering).form.coeff v = 0 :=
        not_not.1 fun h => large (well.var_lt_solveFor found h)
      rw [form, coeff_eliminate, absent, absent', mul_zero, add_zero, ite_self] at nonzero
      exact nonzero rfl

/-- After a pivot the variables that head no row are those of before, with the base that left in place
of the variable that entered. -/
theorem kind_pivot_eq_nonBase_iff {r : RowId} {row : Row} {entering v : Var} (well : t.WellFormed n)
    (found : t.get? r = some row) (occurs : row.form.coeff entering ≠ 0) :
    (t.pivot r entering).kind v = .nonBase ↔
      v = row.base ∨ t.kind v = .nonBase ∧ v ≠ entering := by
  have apart_base := (Row.ne_base_of_occurs (well.own found) occurs).symm
  rw [kind_eq_nonBase_iff, kind_eq_nonBase_iff]
  constructor
  · intro heads_none
    refine or_iff_not_imp_left.2 fun stays => ⟨fun q other at_q => ?_, ?_⟩
    · by_cases here : q = r
      · subst here
        obtain rfl := Option.some.inj (at_q.symm.trans found)
        exact fun same => stays same.symm
      · have after := get?_pivot found entering q
        rw [at_q, Option.map_some, if_neg here] at after
        have apart : other.base ≠ v := (heads_none q _ after :)
        exact apart
    · have after := get?_pivot found entering r
      rw [found, Option.map_some, if_pos rfl] at after
      exact (heads_none r _ after).symm
  · intro before q other at_q
    rw [get?_pivot found, Option.map_eq_some_iff] at at_q
    obtain ⟨old, at_q, rfl⟩ := at_q
    split
    · rcases before with rfl | ⟨-, apart⟩
      · exact apart_base
      · exact apart.symm
    · rename_i away
      rcases before with rfl | ⟨heads_none, -⟩
      · exact fun same => away (well.distinct at_q found same)
      · exact heads_none q old at_q

/-! ## Taking changes back -/

theorem undo_normalize {r : RowId} {row : Row} (found : t.get? r = some row)
    (pending : row.pending = true) :
    undo (t.normalize r).rows (.normalize r row.form) = t.rows := by
  refine Array.ext_getElem? fun i => ?_
  rw [normalize_of_pending found pending, record_rows]
  simp only [undo, Array.getElem?_modify, Array.getElem?_setIfInBounds]
  have bound := (Array.getElem?_eq_some_iff.1 found).1
  by_cases same : r = i
  · subst same
    have at_r : t.rows[r]? = some row := found
    simp only [if_true, bound, Option.map_some, at_r, reducedRow, Option.some.injEq]
    rw [← pending]
  · simp [same]

/-- A pivot is taken back by pivoting the same row on the variable that left it. -/
theorem undo_pivot {r : RowId} {row : Row} {entering : Var} (well : t.WellFormed n)
    (settled : t.Normalized) (found : t.get? r = some row)
    (occurs : row.form.coeff entering ≠ 0) :
    undo (t.pivot r entering).rows (.pivot r row.base) = t.rows := by
  have pivoted (i : Nat) : (t.pivot r entering).rows[i]? = _ := get?_pivot found entering i
  have at_r : (t.pivot r entering).rows[r]? = some (row.solveFor entering) := by
    rw [pivoted, found, Option.map_some, if_pos rfl]
  refine Array.ext_getElem? fun i => ?_
  rw [undo, getElem?_pivotRows at_r, pivoted, Row.solveFor_solveFor (well.own found) occurs]
  cases at_i : t.get? i with
  | none =>
    have absent : t.rows[i]? = none := at_i
    rw [absent]
    rfl
  | some other =>
    have present : t.rows[i]? = some other := at_i
    rw [present, Option.map_some, Option.map_some]
    by_cases same : i = r
    · subst same
      rw [if_pos rfl, Option.some.inj (found.symm.trans at_i)]
    · simp only [same, if_false]
      rw [eliminate_eliminate (well.own found) occurs (well.apart settled at_i found)]

/-- A recorded change that can be taken back is not seen from before it. -/
theorem undoTo_record {rows : Array Row} {change : TableauChange} {length : Nat}
    (recording : t.recording = true) (le : length ≤ t.trail.length)
    (undone : undo rows change = t.rows) :
    (({ t with rows := rows }).record change).undoTo length = t.undoTo length := by
  have longer : (change :: t.trail).length - length = (t.trail.length - length) + 1 := by
    rw [List.length_cons]
    omega
  simp only [record, recording, if_true, undoTo, longer, List.take_succ_cons, List.drop_succ_cons,
    List.foldl_cons, undone]

theorem undoTo_addRow {length : Nat} (recording : t.recording = true)
    (le : length ≤ t.trail.length) (base : Var) (form : LinearForm) :
    (t.addRow base form).undoTo length = t.undoTo length :=
  undoTo_record recording le (by simp [undo])

theorem undoTo_normalize {length : Nat} (recording : t.recording = true)
    (le : length ≤ t.trail.length) (r : RowId) : (t.normalize r).undoTo length = t.undoTo length := by
  by_cases pending : ∃ row, t.get? r = some row ∧ row.pending = true
  · obtain ⟨row, found, pending⟩ := pending
    have undone := undo_normalize found pending
    rw [normalize_of_pending found pending] at undone ⊢
    exact undoTo_record recording le (by rwa [record_rows] at undone)
  · rw [normalize_of_not_pending fun row found =>
      Bool.eq_false_iff.2 fun still => pending ⟨row, found, still⟩]

theorem undoTo_pivot {length : Nat} {r : RowId} {row : Row} {entering : Var}
    (recording : t.recording = true) (le : length ≤ t.trail.length) (well : t.WellFormed n)
    (settled : t.Normalized) (found : t.get? r = some row)
    (occurs : row.form.coeff entering ≠ 0) :
    (t.pivot r entering).undoTo length = t.undoTo length := by
  have undone := undo_pivot well settled found occurs
  simp only [pivot, found] at undone ⊢
  exact undoTo_record recording le (by rwa [record_rows] at undone)

end Tableau

end ArithDecide
