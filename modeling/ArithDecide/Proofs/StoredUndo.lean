import ArithDecide.Proofs.StoredPivot
import ArithDecide.Proofs.StoredReduction

/-!
# The store takes changes back as the tableau does

`SparseTableau.Reversible` is what the store needs to take a change back: a row to be removed is the last
one, a row to be pivoted mentions the variable that left it, and recorded terms are those of a form. Then
what is stored afterwards is `Tableau.undo` of what was stored before (`SparseTableau.undo_keeps`).
-/

namespace ArithDecide.SparseTableau

variable {t u : SparseTableau} {r n : Nat}

/-! ## Removing the last row -/

/-- The store without its last row, whose terms were removed before. -/
def dropRow (t : SparseTableau) (base : Var) : SparseTableau :=
  { t with baseRow := t.baseRow.setIfInBounds base none, rows := t.rows.pop }

theorem term?_dropRow (last : r + 1 = t.rows.size) (empty : ∀ k, t.term? r k = none) (base : Var)
    (q k : Nat) : (t.dropRow base).term? q k = t.term? q k := by
  simp only [term?, dropRow, Array.getElem?_pop]
  split
  · rfl
  · rename_i beyond
    symm
    rcases Nat.lt_or_ge q t.rows.size with inside | outside
    · obtain rfl : q = r := by omega
      exact empty k
    · rw [Array.getElem?_eq_none outside, Option.bind_none]

/-- The last row can be dropped once it has no terms: no column has an entry for it any more. -/
theorem consistent_dropRow (consistent : t.Consistent) {row : SparseRow}
    (found : t.rows[r]? = some row) (last : r + 1 = t.rows.size)
    (empty : ∀ k, t.term? r k = none) : (t.dropRow row.base).Consistent := by
  have terms := term?_dropRow last empty row.base
  have heads_r := consistent.heads found
  have rowOf (v : Var) : (t.dropRow row.base).rowOf? v =
      if v = row.base then none else t.rowOf? v := by
    simp only [rowOf?, dropRow, Array.getElem?_setIfInBounds]
    by_cases same : row.base = v
    · rw [if_pos same, if_pos same.symm]
      split <;> rfl
    · rw [if_neg same, if_neg (Ne.symm same)]
  have inside {q : Nat} {other : SparseRow} :
      (t.dropRow row.base).rows[q]? = some other ↔ q < r ∧ t.rows[q]? = some other := by
    rw [dropRow, Array.getElem?_pop, ← last, Nat.add_sub_cancel]
    split <;> simp [*]
  refine { toLinked := consistent.toLinked.of_same ⟨fun at_q => consistent.rows (inside.1 at_q).2,
             consistent.columns⟩ terms (fun _ _ => rfl),
           nonzero := ?_, heads := ?_, headed := ?_, sizes := ?_ }
  · intro q v c occurs
    simp only [Occurs, content, terms] at occurs
    exact consistent.nonzero q v c occurs
  · intro q other at_q
    obtain ⟨before, at_q⟩ := inside.1 at_q
    have heads := consistent.heads at_q
    rw [rowOf, if_neg, heads]
    intro same
    rw [same, heads_r] at heads
    cases heads
    exact Nat.lt_irrefl _ before
  · intro v q heads
    rw [rowOf] at heads
    split at heads
    · cases heads
    · rename_i apart
      obtain ⟨other, at_q, rfl⟩ := consistent.headed heads
      refine ⟨other, inside.2 ⟨?_, at_q⟩, rfl⟩
      have q_lt := (Array.getElem?_eq_some_iff.1 at_q).1
      have ne : q ≠ r := by
        rintro rfl
        rw [found] at at_q
        cases at_q
        exact apart rfl
      exact Nat.lt_of_le_of_ne (Nat.le_of_lt_succ (q_lt.trans_eq last.symm)) ne
  · rw [dropRow, Array.size_setIfInBounds]
    exact consistent.sizes

/-- Removing the last row removes the row that it stands for: first its terms, then the row. -/
theorem removeLastRow_keeps (consistent : t.Consistent) (last : r + 1 = t.rows.size) :
    t.Stores t.view.rows.pop t.trail (t.removeLastRow r) := by
  obtain ⟨linked, nonzero, edits, empty⟩ := clearRow_keeps consistent.toLinked consistent.nonzero r
  obtain ⟨row, found⟩ : ∃ row, t.rows[r]? = some row :=
    ⟨_, Array.getElem?_eq_getElem (by omega)⟩
  obtain ⟨later, later_at, base, -⟩ := edits.frame.row found
  have dropped : t.removeLastRow r = (t.clearRow r).dropRow later.base := by
    rw [removeLastRow, found, base]
    rfl
  have cleared := consistent.of_frame edits.frame linked nonzero
  have last' : r + 1 = (t.clearRow r).rows.size := by rw [edits.frame.size, last]
  have no_term (k : Nat) : (t.clearRow r).term? r k = none := Option.map_eq_none_iff.1 (empty k)
  have consistent' := consistent_dropRow cleared later_at last' no_term
  rw [dropped]
  refine ⟨consistent', edits.frame.columns, view_rows_eq ?_ fun q row' at_q v => ?_,
    edits.frame.trail, edits.frame.recording⟩
  · rw [dropRow, Array.map_pop, edits.frame.heads, ← heads_view, Array.map_pop]
  · rw [Array.getElem?_pop, view, Array.size_map, ← last, Nat.add_sub_cancel] at at_q
    split at at_q
    · rename_i before
      rw [coeff_view at_q, ← edits.coeff consistent.toLinked linked (Nat.ne_of_lt before)]
      refine coeff_congr linked consistent'.toLinked fun d => ?_
      simp only [Occurs, content, term?_dropRow last' no_term]
    · cases at_q

/-! ## Giving a row back its terms -/

/-- Terms that a row can have: no variable twice, no zero, and all variables exist. -/
structure Storable (numVars : Nat) (terms : List (Var × Rat)) : Prop where
  distinct : (terms.map Prod.fst).Nodup
  nonzero : ∀ term ∈ terms, term.2 ≠ 0
  lt : ∀ term ∈ terms, term.1 < numVars

/-- Giving a row its former terms back keeps the store consistent, whatever the row has become since. -/
theorem replaceTerms_keeps (consistent : t.Consistent) {row : Row}
    (found : t.view.get? r = some row) {terms : List (Var × Rat)}
    (storable : Storable t.numVars terms) :
    t.Stores (t.view.rows.modify r fun row =>
      { row with form := .ofEntries terms, pending := true }) t.trail (t.replaceTerms r terms) := by
  obtain ⟨stored, at_r, rfl⟩ := get?_view found
  obtain ⟨linked, nonzero, edits, empty⟩ := clearRow_keeps consistent.toLinked consistent.nonzero r
  have absent (v : Var) (d : Rat) : ¬(t.clearRow r).Occurs r v d := by
    rintro ⟨k, at_k⟩
    rw [empty] at at_k
    cases at_k
  have r_lt : r < (t.clearRow r).rows.size := by
    rw [edits.frame.size]
    exact (Array.getElem?_eq_some_iff.1 at_r).1
  obtain ⟨linked', nonzero', edits', coeff⟩ := fillRow_keeps linked nonzero r_lt storable.distinct
    (fun term member => by
      rw [edits.frame.columns]
      exact storable.lt term member)
    storable.nonzero fun term _ => absent term.1
  have edited := edits.trans edits'
  have same (v : Var) : ((t.clearRow r).fillRow r terms).coeff r v =
      (LinearForm.ofEntries terms).coeff v := by
    rw [coeff, coeff_of_absent (absent v), zero_add]
  have filled := consistent.stores edited.frame linked' nonzero'
    (edited.view_rows consistent.toLinked linked' found same)
  have replaced := filled.trans (filled.consistent.withPending r true)
  rw [filled.rows_eq, filled.trail_eq, modify_setIfInBounds] at replaced
  rw [modify_eq_setIfInBounds found]
  exact replaced

/-! ## Taking changes back -/

/-- What is needed to take a change back from some rows. -/
def Reversible (n : Nat) (rows : Array Row) : SparseChange → Prop
  | .addRow r => r + 1 = rows.size
  | .pivot r leaving => (∀ row ∈ rows, row.pending = false) ∧
      ∃ row, rows[r]? = some row ∧ row.form.coeff leaving ≠ 0
  | .normalize r terms => r < rows.size ∧ Storable n terms

/-- Undoing a change of the store undoes it in the rows that it stands for. -/
theorem undo_keeps (consistent : t.Consistent) (well : t.view.WellFormed t.numVars)
    {change : SparseChange} (reversible : Reversible t.numVars t.view.rows change) :
    t.Stores (Tableau.undo t.view.rows change.view) t.trail (t.undo change) := by
  cases change with
  | addRow r =>
    refine removeLastRow_keeps consistent ?_
    rw [show r + 1 = t.view.rows.size from reversible, view, Array.size_map]
  | pivot r leaving =>
    obtain ⟨settled, row, found, occurs⟩ := reversible
    have normalized : t.view.Normalized := fun q other at_q =>
      settled other (Array.mem_of_getElem? at_q)
    exact pivotRow_keeps consistent found occurs (well.own found)
      (consistent.rowOf?_eq_none well normalized found occurs)
  | normalize r terms =>
    obtain ⟨lt, storable⟩ := reversible
    exact replaceTerms_keeps consistent (Array.getElem?_eq_getElem lt) storable

/-- Taking the changes back, the latest one first, leads to some rows. -/
inductive Retrace (n : Nat) : Array Row → List SparseChange → Array Row → Prop
  | refl (rows : Array Row) : Retrace n rows [] rows
  | step {rows back : Array Row} {change : SparseChange} {rest : List SparseChange} :
      Tableau.WellFormed ⟨rows, [], false⟩ n → Reversible n rows change →
      Retrace n (Tableau.undo rows change.view) rest back → Retrace n rows (change :: rest) back

theorem Reversible.mono {m : Nat} {rows : Array Row} {change : SparseChange} (le : n ≤ m)
    (reversible : Reversible n rows change) : Reversible m rows change := by
  cases change with
  | addRow r => exact reversible
  | pivot r leaving => exact reversible
  | normalize r terms =>
    obtain ⟨lt, storable⟩ := reversible
    exact ⟨lt, { storable with lt := fun term member => (storable.lt term member).trans_le le }⟩

theorem Retrace.mono {m : Nat} {rows back : Array Row} {changes : List SparseChange}
    (retrace : Retrace n rows changes back) (le : n ≤ m) : Retrace m rows changes back := by
  induction retrace with
  | refl rows => exact .refl rows
  | step well reversible _ ih => exact .step (well.mono le) (reversible.mono le) ih

/-- The tableau takes the same changes back. -/
theorem Retrace.foldl_eq {rows back : Array Row} {changes : List SparseChange}
    (retrace : Retrace n rows changes back) :
    (changes.map SparseChange.view).foldl Tableau.undo rows = back := by
  induction retrace with
  | refl => rfl
  | step _ _ _ ih => exact ih

/-- The store takes back what can be taken back. -/
theorem Retrace.foldl_undo {changes : List SparseChange} {back : Array Row}
    (retrace : Retrace t.numVars t.view.rows changes back) (consistent : t.Consistent) :
    t.Stores back t.trail (changes.foldl undo t) := by
  induction changes generalizing t with
  | nil =>
    cases retrace
    exact consistent.stores_self
  | cons change rest ih =>
    cases retrace with
    | step well reversible later =>
      have undone := undo_keeps consistent (well.of_rows rfl) reversible
      rw [← undone.trail_eq]
      refine undone.trans (ih ?_ undone.consistent)
      rwa [undone.numVars, undone.rows_eq]

theorem Consistent.withTrail (consistent : t.Consistent) (trail : List SparseChange) :
    ({ t with trail := trail } : SparseTableau).Consistent := { consistent with }

/-- Undoing leads back to the rows and the trail of before. -/
theorem Retrace.undoTo {changes rest : List SparseChange} {back : Array Row}
    (retrace : Retrace t.numVars t.view.rows changes back) (consistent : t.Consistent)
    (recorded : t.trail = changes ++ rest) : t.Stores back rest (t.undoTo rest.length) := by
  have undone := retrace.foldl_undo consistent
  have length : t.trail.length - rest.length = changes.length := by
    rw [recorded, List.length_append, Nat.add_sub_cancel]
  have rewound : t.undoTo rest.length = { changes.foldl undo t with trail := rest } := by
    rw [SparseTableau.undoTo, length, recorded, List.take_left, List.drop_left]
  rw [rewound]
  exact ⟨undone.consistent.withTrail rest, undone.numVars, undone.rows_eq, rfl, undone.recording⟩

theorem Retrace.undoTo_view {changes rest : List SparseChange} {back : Array Row}
    (retrace : Retrace n t.view.rows changes back) (recorded : t.trail = changes ++ rest) :
    t.view.undoTo rest.length = ⟨back, rest.map SparseChange.view, t.recording⟩ := by
  have trail : t.view.trail = changes.map SparseChange.view ++ rest.map SparseChange.view := by
    rw [view, recorded, List.map_append]
  have length : t.view.trail.length - rest.length = (changes.map SparseChange.view).length := by
    rw [trail, List.length_append, List.length_map, List.length_map, Nat.add_sub_cancel]
  rw [Tableau.undoTo, length, trail, List.take_left, List.drop_left, retrace.foldl_eq]
  rfl

end ArithDecide.SparseTableau
