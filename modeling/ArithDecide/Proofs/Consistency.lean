import ArithDecide.Proofs.Prefix
import ArithDecide.Proofs.Refilling
import ArithDecide.Proofs.Tableau

/-!
# A consistent store, and the tableau that it stores

`SparseTableau.Consistent` says that rows and columns index each other, that no term is zero and that the
rows are found by their bases. Then what is asked of the stored tableau has the same answer there, and
adding variables and rows and forgetting variables do to the stored tableau what they should
(`SparseTableau.addRow_keeps`).
-/

namespace ArithDecide.SparseTableau

variable {t u : SparseTableau} {r q : RowId} {v w : Var} {i k : Nat} {c d : Rat}

/-- Rows and columns index each other, no term is zero, and every row is found by its base. -/
structure Consistent (t : SparseTableau) : Prop extends Linked t where
  nonzero : t.Nonzero
  heads : ∀ {r : RowId} {row : SparseRow}, t.rows[r]? = some row → t.rowOf? row.base = some r
  headed : ∀ {v : Var} {r : RowId}, t.rowOf? v = some r → ∃ row, t.rows[r]? = some row ∧ row.base = v
  sizes : t.baseRow.size = t.columns.size

theorem consistent_empty (ratio : Nat) : (empty ratio).Consistent where
  toLinked := linked_empty ratio
  nonzero := by rintro r v c ⟨i, at_i⟩; simp [content, term?, empty] at at_i
  heads found := by simp [empty] at found
  headed found := by simp [empty, rowOf?] at found
  sizes := rfl

/-- A change of terms keeps a store consistent if it keeps the links and leaves no zero. -/
theorem Consistent.of_frame (consistent : t.Consistent) (frame : t.SameFrame u)
    (linked : u.Linked) (nonzero : u.Nonzero) : u.Consistent where
  toLinked := linked
  nonzero := nonzero
  heads {r row} found := by
    obtain ⟨old, at_r, base, -⟩ := frame.symm.row found
    rw [rowOf?, frame.baseRow, ← base]
    exact consistent.heads at_r
  headed {v r} found := by
    rw [rowOf?, frame.baseRow] at found
    obtain ⟨old, at_r, rfl⟩ := consistent.headed found
    obtain ⟨row, found, base, -⟩ := frame.row at_r
    exact ⟨row, found, base⟩
  sizes := by rw [frame.baseRow, frame.columns, consistent.sizes]

theorem Consistent.base_lt (consistent : t.Consistent) {row : SparseRow}
    (found : t.rows[r]? = some row) : row.base < t.numVars := by
  have at_base := consistent.heads found
  rw [rowOf?, Option.join_eq_some_iff] at at_base
  rw [numVars, ← consistent.sizes]
  exact (Array.getElem?_eq_some_iff.1 at_base).1

/-! ## What the store knows of the stored tableau -/

theorem get?_view {row : Row} (found : t.view.get? r = some row) :
    ∃ stored, t.rows[r]? = some stored ∧ stored.view = row :=
  Option.map_eq_some_iff.1 (view_get? t r ▸ found)

theorem coeff_view {row : Row} (found : t.view.get? r = some row) (v : Var) :
    row.form.coeff v = t.coeff r v := by
  obtain ⟨stored, at_r, rfl⟩ := get?_view found
  exact (coeff_eq at_r v).symm

/-- The array of bases tells which row a variable heads. -/
theorem Consistent.rowOf?_view (consistent : t.Consistent) (v : Var) :
    t.view.rowOf? v = t.rowOf? v := by
  cases stored : t.rowOf? v with
  | none =>
    refine Tableau.rowOf?_eq_none_iff.2 fun r row found => ?_
    obtain ⟨row, at_r, rfl⟩ := get?_view found
    rintro rfl
    rw [show (SparseRow.view row).base = row.base from rfl, consistent.heads at_r] at stored
    cases stored
  | some r =>
    obtain ⟨row, at_r, rfl⟩ := consistent.headed stored
    cases found : t.view.rowOf? row.base with
    | none =>
      refine absurd rfl (Tableau.rowOf?_eq_none_iff.1 found r row.view ?_)
      rw [view_get?, at_r]
      rfl
    | some q =>
      obtain ⟨other, other_at, same⟩ := Tableau.get?_of_rowOf? found
      obtain ⟨other, at_q, rfl⟩ := get?_view other_at
      have heads := consistent.heads at_q
      rw [show other.base = row.base from same, stored] at heads
      exact heads.symm

/-- A fresh variable exists, heads no row and occurs in none. -/
theorem Consistent.of_isFresh (consistent : t.Consistent) (fresh : t.isFresh v = true) :
    v < t.numVars ∧ t.rowOf? v = none ∧ ∀ r c, ¬t.Occurs r v c := by
  rw [isFresh, Bool.and_eq_true, Option.isNone_iff_eq_none] at fresh
  obtain ⟨heads_none, column_empty⟩ := fresh
  obtain ⟨column, at_v, empty⟩ : ∃ column, t.columns[v]? = some column ∧
      (column.size == 0) = true := by
    cases at_v : t.columns[v]? with
    | none =>
      rw [at_v] at column_empty
      cases column_empty
    | some column =>
      rw [at_v] at column_empty
      exact ⟨column, rfl, column_empty⟩
  refine ⟨(Array.getElem?_eq_some_iff.1 at_v).1, heads_none, fun r c occurs => ?_⟩
  obtain ⟨i, at_i⟩ := occurs
  obtain ⟨entry, found, rfl, -⟩ := content_eq_some_iff.1 at_i
  have paired := consistent.forth found
  rw [place?, at_v, Option.bind_some,
    (consistent.columns at_v).get?_eq_none (eq_of_beq empty)] at paired
  cases paired

theorem Consistent.isFresh_view (consistent : t.Consistent) (fresh : t.isFresh v = true) :
    t.view.isFresh v = true := by
  obtain ⟨-, heads_none, absent⟩ := consistent.of_isFresh fresh
  refine Tableau.isFresh_iff.2 fun r row found => ⟨?_, ?_⟩
  · rw [← consistent.rowOf?_view] at heads_none
    exact Tableau.rowOf?_eq_none_iff.1 heads_none r row found
  · rw [coeff_view found, coeff_of_absent (absent r)]

/-- A consistent store of some rows with a trail that is otherwise as before. -/
structure Stores (t : SparseTableau) (rows : Array Row) (trail : List SparseChange)
    (u : SparseTableau) : Prop where
  consistent : u.Consistent
  numVars : u.numVars = t.numVars
  rows_eq : u.view.rows = rows
  trail_eq : u.trail = trail
  recording : u.recording = t.recording

section

variable {rows later : Array Row} {trail trail' : List SparseChange}

theorem Stores.view (stores : t.Stores rows trail u) :
    u.view = ⟨rows, trail.map SparseChange.view, t.recording⟩ := by
  rw [← stores.rows_eq, ← stores.trail_eq, ← stores.recording]
  rfl

theorem Stores.trans {s : SparseTableau} (first : t.Stores rows trail u)
    (second : u.Stores later trail' s) : t.Stores later trail' s :=
  ⟨second.consistent, second.numVars.trans first.numVars, second.rows_eq, second.trail_eq,
    second.recording.trans first.recording⟩

theorem Consistent.stores_self (consistent : t.Consistent) : t.Stores t.view.rows t.trail t :=
  ⟨consistent, rfl, rfl, rfl, rfl⟩

/-- A change of terms that keeps the links and leaves no zero. -/
theorem Consistent.stores (consistent : t.Consistent) (frame : t.SameFrame u) (linked : u.Linked)
    (nonzero : u.Nonzero) (same : u.view.rows = rows) : t.Stores rows t.trail u :=
  ⟨consistent.of_frame frame linked nonzero, frame.columns, same, frame.trail, frame.recording⟩

end

/-! ## Variables -/

theorem Linked.of_same (linked : t.Linked) (tidy : u.Tidy)
    (terms : ∀ q k, u.term? q k = t.term? q k) (places : ∀ w k, u.place? w k = t.place? w k) :
    u.Linked :=
  linked.of_changed tidy (fun _ _ entry => entry) (fun _ _ _ => ⟨rfl, rfl⟩)
    (fun q k => by rw [terms]; exact Option.map_id'.symm) places

/-- Where the same terms and bases are found at the same places, a store is consistent. -/
theorem Consistent.of_same (consistent : t.Consistent) (tidy : u.Tidy)
    (terms : ∀ q k, u.term? q k = t.term? q k) (places : ∀ w k, u.place? w k = t.place? w k)
    (bases : ∀ r : RowId, (u.rows[r]?).map SparseRow.base = (t.rows[r]?).map SparseRow.base)
    (rowOf : ∀ v, u.rowOf? v = t.rowOf? v) (sizes : u.baseRow.size = u.columns.size) :
    u.Consistent where
  toLinked := consistent.toLinked.of_same tidy terms places
  nonzero r v c occurs := by
    simp only [Occurs, content, terms] at occurs
    exact consistent.nonzero r v c occurs
  heads {r row} found := by
    have same := bases r
    rw [found, Option.map_some, eq_comm, Option.map_eq_some_iff] at same
    obtain ⟨old, at_r, base⟩ := same
    rw [rowOf, ← base]
    exact consistent.heads at_r
  headed {v r} found := by
    rw [rowOf] at found
    obtain ⟨old, at_r, rfl⟩ := consistent.headed found
    have same := bases r
    rw [at_r, Option.map_some, Option.map_eq_some_iff] at same
    exact same
  sizes := sizes

/-- A new variable has an empty column and heads no row. -/
theorem Consistent.addVar (consistent : t.Consistent) : t.addVar.Consistent := by
  refine consistent.of_same ⟨consistent.rows, fun {v column} found => ?_⟩ (fun _ _ => rfl)
    (fun w k => ?_) (fun _ => rfl) (fun v => ?_) ?_
  · rw [SparseTableau.addVar, Array.getElem?_push] at found
    split at found
    · cases found
      exact Slots.wellFormed_empty
    · exact consistent.columns found
  · simp only [SparseTableau.addVar, place?, Array.getElem?_push]
    split
    · rename_i last
      rw [last, Array.getElem?_eq_none (Nat.le_refl _)]
      rfl
    · rfl
  · simp only [SparseTableau.addVar, rowOf?, Array.getElem?_push]
    split
    · rename_i last
      rw [last, Array.getElem?_eq_none (Nat.le_refl _)]
      rfl
    · rfl
  · simp only [SparseTableau.addVar, Array.size_push, consistent.sizes]

theorem numVars_addVar (t : SparseTableau) : t.addVar.numVars = t.numVars + 1 :=
  Array.size_push _

/-- Variables that are in no row can be forgotten. -/
theorem Consistent.truncateVars (consistent : t.Consistent) {count : Nat}
    (well : t.view.WellFormed count) : (t.truncateVars count).Consistent := by
  refine consistent.of_same ⟨consistent.rows, fun {v column} found => ?_⟩ (fun _ _ => rfl)
    (fun w k => ?_) (fun _ => rfl) (fun v => ?_) ?_
  · rw [SparseTableau.truncateVars, getElem?_take] at found
    split at found
    · exact consistent.columns found
    · cases found
  · simp only [SparseTableau.truncateVars, place?, getElem?_take]
    split
    · rfl
    · rename_i beyond
      refine Eq.symm (Option.eq_none_iff_forall_ne_some.2 fun place at_k => beyond ?_)
      obtain ⟨entry, at_place, rfl, -⟩ := consistent.back at_k
      have at_content : t.content place.row place.rowIndex = some (entry.var, entry.coeff) :=
        content_eq_some_iff.2 ⟨entry, at_place, rfl, rfl⟩
      have occurs : t.Occurs place.row entry.var entry.coeff := ⟨_, at_content⟩
      obtain ⟨row, found⟩ : ∃ row, t.view.get? place.row = some row := by
        rw [view_get?, Array.getElem?_eq_getElem (lt_of_content at_content)]
        exact ⟨_, rfl⟩
      refine well.var_lt found ?_
      rw [coeff_view found, coeff_of_occurs consistent.toLinked occurs]
      exact consistent.nonzero _ _ _ occurs
  · simp only [SparseTableau.truncateVars, rowOf?, getElem?_take]
    split
    · rfl
    · rename_i beyond
      refine Eq.symm (Option.eq_none_iff_forall_ne_some.2 fun r heads => beyond ?_)
      obtain ⟨row, found, rfl⟩ := consistent.headed heads
      refine well.base_lt (show t.view.get? r = some row.view from ?_)
      rw [view_get?, found]
      rfl
  · simp only [SparseTableau.truncateVars, Array.take_eq_extract, Array.size_extract,
      consistent.sizes]

theorem numVars_truncateVars {count : Nat} (le : count ≤ t.numVars) :
    (t.truncateVars count).numVars = count := by
  rw [numVars] at le
  rw [truncateVars, numVars, Array.take_eq_extract, Array.size_extract, Nat.min_eq_left le,
    Nat.sub_zero]

/-! ## Recording -/

/-- The trail after a change. -/
def recorded (t : SparseTableau) (change : SparseChange) : List SparseChange :=
  if t.recording then change :: t.trail else t.trail

theorem Stores.record {rows : Array Row} (stores : t.Stores rows t.trail u)
    (change : SparseChange) : t.Stores rows (t.recorded change) (u.record change) := by
  obtain ⟨consistent, numVars, rows_eq, trail, recording⟩ := stores
  rw [SparseTableau.record, recorded, ← recording, ← trail]
  split
  · exact ⟨{ consistent with }, numVars, rows_eq, rfl, recording⟩
  · exact ⟨consistent, numVars, rows_eq, rfl, recording⟩

/-- The tableau writes the same change to its trail. -/
theorem record_view (t : SparseTableau) (rows : Array Row) (change : SparseChange) :
    (⟨rows, t.view.trail, t.view.recording⟩ : Tableau).record change.view =
      ⟨rows, (t.recorded change).map SparseChange.view, t.recording⟩ := by
  rw [Tableau.record, recorded, show t.view.recording = t.recording from rfl]
  split <;> rfl

theorem Consistent.setRecording (consistent : t.Consistent) (recording : Bool) :
    (t.setRecording recording).Consistent := { consistent with }

theorem view_setRecording (t : SparseTableau) (recording : Bool) :
    (t.setRecording recording).view = { t.view with recording := recording } := rfl

/-! ## Changing one row of the stored tableau -/

theorem heads_view (t : SparseTableau) :
    t.view.rows.map (fun row => (row.base, row.pending)) =
      t.rows.map fun row => (row.base, row.pending) := by
  rw [view, Array.map_map]
  rfl

/-- A change of the terms of one row stores another form there. -/
theorem Edits.view_rows (edits : t.Edits r u) (linked : t.Linked) (linked' : u.Linked) {row : Row}
    (found : t.view.get? r = some row) {form : LinearForm}
    (same : ∀ v, u.coeff r v = form.coeff v) :
    u.view.rows = t.view.rows.setIfInBounds r { row with form := form } := by
  have at_r : (t.view.rows.map fun row => (row.base, row.pending))[r]? =
      some (row.base, row.pending) := by
    rw [Array.getElem?_map, show t.view.rows[r]? = some row from found]
    rfl
  refine view_rows_eq ?_ fun q other at_q v => ?_
  · rw [edits.frame.heads, Array.map_setIfInBounds, setIfInBounds_of_getElem? at_r, heads_view]
  · rw [Array.getElem?_setIfInBounds] at at_q
    split at at_q
    · rename_i here
      split at at_q
      · cases at_q
        rw [← here, same]
      · cases at_q
    · rename_i apart
      rw [edits.coeff linked linked' (Ne.symm apart), ← coeff_view at_q]

/-- The store with a row that is pending or settled. -/
def withPending (t : SparseTableau) (r : RowId) (pending : Bool) : SparseTableau :=
  { t with rows := t.rows.modify r fun row => { row with pending := pending } }

theorem term?_withPending (t : SparseTableau) (r : RowId) (pending : Bool) (q : RowId) (k : Nat) :
    (t.withPending r pending).term? q k = t.term? q k := by
  simp only [term?, withPending, Array.getElem?_modify]
  split
  · cases t.rows[q]? <;> rfl
  · rfl

/-- Whether a row is pending concerns neither its terms nor the columns. -/
theorem Consistent.withPending (consistent : t.Consistent) (r : RowId) (pending : Bool) :
    t.Stores (t.view.rows.modify r fun row => { row with pending := pending }) t.trail
      (t.withPending r pending) := by
  refine ⟨consistent.of_same ⟨fun {q row} found => ?_, consistent.columns⟩
    (term?_withPending t r pending) (fun _ _ => rfl) (fun q => ?_) (fun _ => rfl) consistent.sizes,
    rfl, Array.ext_getElem? fun q => ?_, rfl, rfl⟩
  · obtain ⟨old, at_q, rfl | rfl⟩ := getElem?_modify_eq_some found
    · exact consistent.rows at_q
    · exact (consistent.rows at_q :)
  · simp only [SparseTableau.withPending, Array.getElem?_modify]
    split
    · cases t.rows[q]? <;> rfl
    · rfl
  · simp only [SparseTableau.view, SparseTableau.withPending, Array.getElem?_map,
      Array.getElem?_modify]
    split
    · cases t.rows[q]? <;> rfl
    · rfl

/-! ## Adding a row -/

/-- The store with a new row that has no terms yet. -/
def withRow (t : SparseTableau) (base : Var) : SparseTableau :=
  { t with rows := t.rows.push ⟨base, .empty, true⟩ }

theorem term?_withRow (t : SparseTableau) (base : Var) (q : RowId) (k : Nat) :
    (t.withRow base).term? q k = t.term? q k := by
  simp only [term?, withRow, Array.getElem?_push]
  split
  · rename_i last
    rw [last, Array.getElem?_eq_none (Nat.le_refl _)]
    rfl
  · rfl

theorem Linked.withRow (linked : t.Linked) (base : Var) : (t.withRow base).Linked := by
  refine linked.of_same ⟨fun {r row} found => ?_, linked.columns⟩ (term?_withRow t base)
    fun _ _ => rfl
  rw [SparseTableau.withRow, Array.getElem?_push] at found
  split at found
  · cases found
    exact Slots.wellFormed_empty
  · exact linked.rows found

theorem occurs_withRow (t : SparseTableau) (base : Var) :
    (t.withRow base).Occurs r v c ↔ t.Occurs r v c := by
  simp only [Occurs, content, term?_withRow]

theorem not_occurs_size (t : SparseTableau) (v : Var) (c : Rat) :
    ¬t.Occurs t.rows.size v c := by
  rintro ⟨i, at_i⟩
  exact Nat.lt_irrefl _ (lt_of_content at_i)

theorem coeff_withRow (linked : t.Linked) (base : Var) (q : RowId) (v : Var) :
    (t.withRow base).coeff q v = t.coeff q v :=
  coeff_congr linked (linked.withRow base) fun _ => occurs_withRow t base

/-- The store with a new row that is filled and found by its base. -/
def withFilledRow (t : SparseTableau) (base : Var) (entries : List (Var × Rat)) : SparseTableau :=
  let filled := (t.withRow base).fillRow t.rows.size (mergedEntries entries)
  { filled with baseRow := filled.baseRow.setIfInBounds base (some t.rows.size) }

theorem addRow_eq (t : SparseTableau) (base : Var) (entries : List (Var × Rat)) :
    t.addRow base entries = (t.withFilledRow base entries).record (.addRow t.rows.size) := rfl

section

variable {base : Var} {entries : List (Var × Rat)}

/-- Filling a new row with merged entries gives it the form that they stand for. -/
theorem fillRow_withRow (consistent : t.Consistent) (base : Var)
    (lt : ∀ entry ∈ entries, entry.1 < t.numVars) :
    ((t.withRow base).fillRow t.rows.size (mergedEntries entries)).Linked ∧
      ((t.withRow base).fillRow t.rows.size (mergedEntries entries)).Nonzero ∧
      (t.withRow base).Edits t.rows.size
        ((t.withRow base).fillRow t.rows.size (mergedEntries entries)) ∧
      ∀ w, ((t.withRow base).fillRow t.rows.size (mergedEntries entries)).coeff t.rows.size w =
        (LinearForm.ofEntries entries).coeff w := by
  obtain ⟨linked, nonzero, edits, coeff⟩ :=
    fillRow_keeps (r := t.rows.size) (consistent.toLinked.withRow base)
      (fun q w d occurs => consistent.nonzero q w d ((occurs_withRow t base).1 occurs))
      (by simp [withRow]) (nodup_mergedEntries entries)
      (fun term member => by
        obtain ⟨entry, in_entries, same⟩ := List.mem_map.1 (mem_of_mem_mergedEntries member)
        exact same ▸ lt entry in_entries)
      (fun term => ne_zero_of_mem_mergedEntries)
      (fun term _ d occurs => not_occurs_size t _ d ((occurs_withRow t base).1 occurs))
  refine ⟨linked, nonzero, edits, fun w => ?_⟩
  rw [coeff, coeff_withRow consistent.toLinked, coeff_of_absent (not_occurs_size t w), zero_add,
    ofEntries_mergedEntries]

theorem rowOf?_withFilledRow (consistent : t.Consistent) (base_lt : base < t.numVars)
    (lt : ∀ entry ∈ entries, entry.1 < t.numVars) (v : Var) :
    (t.withFilledRow base entries).rowOf? v =
      if v = base then some t.rows.size else t.rowOf? v := by
  obtain ⟨-, -, edits, -⟩ := fillRow_withRow consistent base lt
  have kept : ((t.withRow base).fillRow t.rows.size (mergedEntries entries)).baseRow =
      t.baseRow := edits.frame.baseRow
  rw [numVars, ← consistent.sizes] at base_lt
  simp only [rowOf?, withFilledRow, kept, Array.getElem?_setIfInBounds]
  by_cases same : base = v
  · rw [if_pos same, if_pos base_lt, if_pos same.symm]
    rfl
  · rw [if_neg same, if_neg (Ne.symm same)]

/-- A row for a fresh base keeps the store consistent: its terms are put in with their column entries,
one for each variable. -/
theorem consistent_withFilledRow (consistent : t.Consistent) (fresh : t.isFresh base = true)
    (lt : ∀ entry ∈ entries, entry.1 < t.numVars) :
    (t.withFilledRow base entries).Consistent := by
  obtain ⟨linked, nonzero, edits, -⟩ := fillRow_withRow consistent base lt
  obtain ⟨base_lt, no_row, -⟩ := consistent.of_isFresh fresh
  have rowOf := rowOf?_withFilledRow consistent base_lt lt
  refine { toLinked := linked.of_same ⟨linked.rows, linked.columns⟩ (fun _ _ => rfl) fun _ _ => rfl,
           nonzero := nonzero, heads := ?_, headed := ?_, sizes := ?_ }
  · intro q row found
    obtain ⟨old, old_at, same, -⟩ := edits.frame.symm.row found
    rw [rowOf, ← same]
    rw [withRow, Array.getElem?_push] at old_at
    split at old_at
    · rename_i last
      cases old_at
      rw [if_pos rfl, last]
    · have heads := consistent.heads old_at
      rw [if_neg, heads]
      intro same
      rw [same, no_row] at heads
      cases heads
  · intro v q heads
    rw [rowOf] at heads
    obtain ⟨old, old_at, same⟩ : ∃ old, (t.withRow base).rows[q]? = some old ∧ old.base = v := by
      rw [withRow, Array.getElem?_push]
      split at heads
      · rename_i here
        cases heads
        exact ⟨_, if_pos rfl, here.symm⟩
      · obtain ⟨old, old_at, same⟩ := consistent.headed heads
        refine ⟨old, ?_, same⟩
        rw [if_neg (Nat.ne_of_lt (Array.getElem?_eq_some_iff.1 old_at).1), old_at]
    obtain ⟨row, found, kept, -⟩ := edits.frame.row old_at
    exact ⟨row, found, kept.trans same⟩
  · rw [withFilledRow, Array.size_setIfInBounds, edits.frame.baseRow, edits.frame.columns]
    exact consistent.sizes

/-- A new row with entries stores the form that they stand for, as a pending row. -/
theorem stores_withFilledRow (consistent : t.Consistent) (fresh : t.isFresh base = true)
    (lt : ∀ entry ∈ entries, entry.1 < t.numVars) :
    t.Stores (t.view.rows.push ⟨base, .ofEntries entries, true⟩) t.trail
      (t.withFilledRow base entries) := by
  obtain ⟨linked, nonzero, edits, coeff⟩ := fillRow_withRow consistent base lt
  refine ⟨consistent_withFilledRow consistent fresh lt, edits.frame.columns,
    view_rows_eq ?_ fun q row found v => ?_, edits.frame.trail, edits.frame.recording⟩
  · refine edits.frame.heads.trans ?_
    simp only [withRow, view, Array.map_push, Array.map_map]
    rfl
  · rw [Array.getElem?_push] at found
    rw [show (t.withFilledRow base entries).coeff q v = ((t.withRow base).fillRow t.rows.size
      (mergedEntries entries)).coeff q v from rfl]
    split at found
    · rename_i last
      cases found
      rw [last, view, Array.size_map, coeff]
    · rename_i apart
      rw [view, Array.size_map] at apart
      rw [edits.coeff (consistent.toLinked.withRow base) linked apart,
        coeff_withRow consistent.toLinked, coeff_view found]

/-- A new row is stored with its entries of one variable merged and without zeros. -/
theorem addRow_keeps (consistent : t.Consistent) (fresh : t.isFresh base = true)
    (lt : ∀ entry ∈ entries, entry.1 < t.numVars) :
    t.Stores (t.view.rows.push ⟨base, .ofEntries entries, true⟩)
      (t.recorded (.addRow t.rows.size)) (t.addRow base entries) :=
  (stores_withFilledRow consistent fresh lt).record _

theorem view_addRow (consistent : t.Consistent) (fresh : t.isFresh base = true)
    (lt : ∀ entry ∈ entries, entry.1 < t.numVars) :
    (t.addRow base entries).view = t.view.addRow base (.ofEntries entries) :=
  (addRow_keeps consistent fresh lt).view.trans (record_view t _ (.addRow t.rows.size)).symm

end

end ArithDecide.SparseTableau
