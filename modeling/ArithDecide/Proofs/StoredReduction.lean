import ArithDecide.Proofs.Consistency
import ArithDecide.Proofs.Reduction

/-!
# The store reduces rows as the tableau does

`SparseTableau.normalize` replaces the first base that it finds in a row until none is left, and
`Tableau.normalize` the bases of the rows before it from the last row to the first. Reduced forms are
unique, so both store the same row (`SparseTableau.normalize_keeps`).
-/

namespace ArithDecide.SparseTableau

variable {s t u : SparseTableau} {r q : RowId} {v w : Var} {i k n : Nat} {c d : Rat}

/-! ## Finding a base -/

theorem baseTerm?_eq_some {source : RowId} (found : t.baseTerm? r = some (i, source)) :
    ∃ v c, t.content r i = some (v, c) ∧ t.rowOf? v = some source ∧ source ≠ r := by
  obtain ⟨row, at_r, found⟩ := Option.bind_eq_some_iff.1 found
  obtain ⟨⟨k, entry⟩, live, chosen⟩ := List.exists_of_findSome?_eq_some found
  obtain ⟨_, filtered, same⟩ := Option.map_eq_some_iff.1 chosen
  obtain ⟨rfl, rfl⟩ := Prod.mk.inj same
  obtain ⟨heads, apart⟩ := Option.filter_eq_some_iff.1 filtered
  refine ⟨entry.var, entry.coeff, content_eq_some_iff.2 ⟨entry, ?_, rfl, rfl⟩, heads,
    of_decide_eq_true apart⟩
  rw [term?, at_r]
  exact Slots.mem_live.1 live

theorem eq_of_baseTerm?_eq_none (missing : t.baseTerm? r = none) (occurs : t.Occurs r v c)
    (heads : t.rowOf? v = some q) : q = r := by
  obtain ⟨i, at_i⟩ := occurs
  obtain ⟨entry, found, rfl, -⟩ := content_eq_some_iff.1 at_i
  obtain ⟨row, at_r, at_entry⟩ := Option.bind_eq_some_iff.1 found
  rw [baseTerm?, at_r] at missing
  have none_here := List.findSome?_eq_none_iff.1 missing (i, entry) (Slots.mem_live.2 at_entry)
  rw [heads] at none_here
  by_contra apart
  rw [Option.filter_some, if_pos (decide_eq_true apart)] at none_here
  cases none_here

/-! ## Reducing -/

/-- A row whose terms are those of a form, in a store that is otherwise as before. -/
structure RowIs (s : SparseTableau) (r : RowId) (form : LinearForm) (t : SparseTableau) : Prop where
  linked : t.Linked
  nonzero : t.Nonzero
  edits : s.Edits r t
  same : ∀ v, t.coeff r v = form.coeff v

/-- No base of the row or a later one is mentioned. -/
def Early (s : SparseTableau) (r : RowId) (form : LinearForm) : Prop :=
  ∀ q row, r ≤ q → s.view.get? q = some row → form.coeff row.base = 0

variable {form : LinearForm}

theorem RowIs.rowOf? (is : s.RowIs r form t) (v : Var) : t.rowOf? v = s.rowOf? v := by
  rw [SparseTableau.rowOf?, SparseTableau.rowOf?, is.edits.frame.baseRow]

/-- A row that mentions no base of another row is reduced. -/
theorem RowIs.reduced (is : s.RowIs r form t) (consistent : s.Consistent)
    (missing : ∀ v c q, t.Occurs r v c → t.rowOf? v = some q → q = r) : s.view.Reduced r form := by
  intro q row below found
  by_contra occurs
  rw [← is.same] at occurs
  obtain ⟨stored, at_q, rfl⟩ := get?_view found
  have heads := consistent.heads at_q
  rw [← is.rowOf?] at heads
  have here := missing _ _ _ ((occurs_iff_coeff is.linked is.nonzero).2 ⟨rfl, occurs⟩) heads
  exact absurd below (here ▸ Nat.lt_irrefl r)

/-- A base that is found anywhere is that of a row before, and it is replaced by what that row says of
it. -/
theorem RowIs.replace (is : s.RowIs r form t) (consistent : s.Consistent)
    (early : s.Early r form) {source : RowId} (at_i : t.content r i = some (v, c))
    (heads : t.rowOf? v = some source) (apart : source ≠ r) :
    ∃ row, s.view.get? source = some row ∧ source < r ∧ form.coeff row.base ≠ 0 ∧
      s.RowIs r (Tableau.eliminate form row) (t.substitute r i source) := by
  rw [is.rowOf?] at heads
  obtain ⟨stored, at_source, rfl⟩ := consistent.headed heads
  have found : s.view.get? source = some stored.view := by
    rw [view_get?, at_source]
    rfl
  have occurs : form.coeff stored.base = c := by
    rw [← is.same, coeff_of_occurs is.linked ⟨i, at_i⟩]
  have nonzero : c ≠ 0 := is.nonzero _ _ _ ⟨i, at_i⟩
  have before : source < r := by
    by_contra late
    exact nonzero (occurs ▸ early source _ (Nat.not_lt.1 late) found)
  have source_lt : source < t.rows.size := by
    rw [is.edits.frame.size]
    exact (Array.getElem?_eq_some_iff.1 at_source).1
  obtain ⟨linked, nonzero', edits, coeff⟩ :=
    substitute_keeps is.linked is.nonzero at_i apart source_lt
  refine ⟨stored.view, found, before, occurs ▸ nonzero, linked, nonzero', is.edits.trans edits,
    fun w => ?_⟩
  rw [coeff, Tableau.coeff_eliminate, coeff_view found, is.same,
    is.edits.coeff consistent.toLinked is.linked apart]
  rw [show stored.view.base = stored.base from rfl, occurs]

theorem RowIs.substitute (is : s.RowIs r form t) (consistent : s.Consistent)
    (early : s.Early r form) {source : RowId} (found : t.baseTerm? r = some (i, source)) :
    ∃ row, s.view.get? source = some row ∧ source < r ∧ form.coeff row.base ≠ 0 ∧
      s.RowIs r (Tableau.eliminate form row) (t.substitute r i source) := by
  obtain ⟨v, c, at_i, heads, apart⟩ := baseTerm?_eq_some found
  exact is.replace consistent early at_i heads apart

theorem Early.eliminate (early : s.Early r form) (well : s.view.WellFormed n) {source : RowId}
    {row : Row} (found : s.view.get? source = some row) (before : source < r) :
    s.Early r (Tableau.eliminate form row) := by
  intro q other late at_q
  rw [Tableau.coeff_eliminate, early q other late at_q, ite_self, zero_add,
    well.separate found at_q (.inr (before.le.trans late)), mul_zero]

/-- With enough substitutions no base is left, and the value of the row stays where the rows before it
hold. -/
theorem RowIs.reduceRow (is : s.RowIs r form t) (consistent : s.Consistent)
    (well : s.view.WellFormed n) (early : s.Early r form) {count : Nat}
    (enough : s.view.weight r form ≤ count) :
    ∃ reduced, s.RowIs r reduced (reduceRow r count t).1 ∧ s.view.Reduced r reduced ∧
      ∀ φ : Var → Rat, (∀ q row, q < r → s.view.get? q = some row → row.Holds φ) →
        reduced.combine φ = form.combine φ := by
  induction count generalizing t form with
  | zero =>
    exact ⟨form, is, Tableau.reduced_of_weight (Nat.le_zero.1 enough), fun _ _ => rfl⟩
  | succ count ih =>
    rw [SparseTableau.reduceRow]
    cases found : t.baseTerm? r with
    | none =>
      exact ⟨form, is, is.reduced consistent fun _ _ _ => eq_of_baseTerm?_eq_none found,
        fun _ _ => rfl⟩
    | some base =>
      obtain ⟨i, source⟩ := base
      obtain ⟨row, at_source, before, occurs, is'⟩ := is.substitute consistent early found
      have lighter := Tableau.weight_eliminate well before at_source occurs
      obtain ⟨reduced, done, settled, same⟩ := ih is' (early.eliminate well at_source before)
        (by omega)
      refine ⟨reduced, done, settled, fun φ holds => ?_⟩
      rw [same φ holds, Tableau.combine_eliminate (holds source row before at_source)]

/-! ## Normalizing -/

theorem RowIs.refl (consistent : t.Consistent) {row : Row} (found : t.view.get? r = some row) :
    t.RowIs r row.form t :=
  ⟨consistent.toLinked, consistent.nonzero, .refl t r, fun v => (coeff_view found v).symm⟩

/-- The row that is found is the one that the tableau computes. -/
theorem reduceRow_view (consistent : t.Consistent) (well : t.view.WellFormed n) {row : Row}
    (found : t.view.get? r = some row) :
    t.RowIs r (t.view.reduceBelow r row.form) (reduceRow r (Nat.pow 2 r) t).1 := by
  have early : t.Early r row.form := fun q other late at_q =>
    well.separate found at_q (.inr late)
  obtain ⟨reduced, is, settled, same⟩ := (RowIs.refl consistent found).reduceRow consistent well
    early (Tableau.weight_lt t.view r row.form).le
  have settled' : t.view.Reduced r (t.view.reduceBelow r row.form) := fun q other _ at_q =>
    Tableau.coeff_reduceBelow well early at_q
  rwa [← Tableau.eq_of_reduced well settled settled' fun φ holds => by
    rw [same φ holds, Tableau.combine_reduceBelow holds]]

theorem ofEntries_sortedTerms (row : SparseRow) :
    LinearForm.ofEntries row.sortedTerms = row.view.form := by
  refine LinearForm.ext_coeff fun v => ?_
  rw [SparseRow.view, LinearForm.coeff_ofEntries, LinearForm.coeff_ofEntries]
  exact ((List.mergeSort_perm _ _).map _).sum_eq

/-- A pending row is stored in the reduced form that the tableau computes. -/
theorem normalize_of_pending (consistent : t.Consistent) (well : t.view.WellFormed n)
    {row : SparseRow} (at_r : t.rows[r]? = some row) (pending : row.pending = true) :
    t.Stores (t.view.rows.setIfInBounds r (t.view.reducedRow r row.view))
      (t.recorded (.normalize r row.sortedTerms)) (t.normalize r).1 := by
  have found : t.view.get? r = some row.view := by
    rw [view_get?, at_r]
    rfl
  have is := reduceRow_view consistent well found
  have reduced := consistent.stores is.edits.frame is.linked is.nonzero
    (is.edits.view_rows consistent.toLinked is.linked found is.same)
  have settled := reduced.trans (reduced.consistent.withPending r false)
  rw [reduced.rows_eq, reduced.trail_eq, modify_setIfInBounds] at settled
  have normalized : (t.normalize r).1 = ((reduceRow r (Nat.pow 2 r) t).1.withPending r false).record
      (.normalize r row.sortedTerms) := by
    rw [normalize, at_r, Option.filter_some, if_pos pending]
    rfl
  rw [normalized]
  exact settled.record _

theorem normalize_of_not_pending (settled : ∀ row, t.rows[r]? = some row → row.pending = false) :
    (t.normalize r).1 = t := by
  have none_pending : (t.rows[r]?).filter SparseRow.pending = none :=
    Option.filter_eq_none_iff.2 fun row at_r => Bool.eq_false_iff.1 (settled row at_r)
  rw [normalize, none_pending]

/-- Normalising a row of the store reduces the row that it stands for. -/
theorem view_normalize (consistent : t.Consistent) (well : t.view.WellFormed n) (r : RowId) :
    (t.normalize r).1.view = t.view.normalize r := by
  by_cases pending : ∃ row, t.rows[r]? = some row ∧ row.pending = true
  · obtain ⟨row, at_r, pending⟩ := pending
    have found : t.view.get? r = some row.view := by
      rw [view_get?, at_r]
      rfl
    rw [(normalize_of_pending consistent well at_r pending).view,
      Tableau.normalize_of_pending found pending, ← ofEntries_sortedTerms]
    exact (record_view t _ (.normalize r row.sortedTerms)).symm
  · have settled : ∀ row, t.rows[r]? = some row → row.pending = false :=
      fun row at_r => Bool.eq_false_iff.2 fun is => pending ⟨row, at_r, is⟩
    rw [normalize_of_not_pending settled, Tableau.normalize_of_not_pending]
    intro row found
    obtain ⟨stored, at_r, rfl⟩ := get?_view found
    exact settled stored at_r

end ArithDecide.SparseTableau
