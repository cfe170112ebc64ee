import Mathlib
import ArithDecide.Proofs.StoredUndo
import ArithDecide.Storage.Session

/-!
# The store keeps its meaning

In every session the rows that are stored have the solutions of the equations that were passed for them
(`TableauSession.holds_iff_given`). Each step keeps `TableauSession.Kept`: the store is consistent, the
rows mean what was given (`Means`), and for every open scope the recorded changes lead back to rows that
meant what was given then (`Nested`). Adding, normalizing and pivoting add a change that can be taken
back, and leaving takes the changes of the innermost scope back.
-/

namespace ArithDecide

open SparseTableau

/-! ## Meaning -/

/-- The rows are well-formed, and their solutions are those of the first equations that were given. -/
structure Means (given : List Equation) (n : Nat) (rows : Array Row) : Prop where
  well : Tableau.WellFormed ⟨rows, [], false⟩ n
  le : rows.size ≤ given.length
  holds : ∀ α : Var → Rat, Tableau.Holds ⟨rows, [], false⟩ α ↔
    ∀ equation ∈ given.take rows.size, equation.Holds α

variable {given : List Equation} {n m : Nat} {rows back : Array Row} {trail : List SparseChange}
  {scopes : List (Nat × Nat)}

theorem Means.mono (means : Means given n rows) (le : n ≤ m) : Means given m rows :=
  { means with well := means.well.mono le }

theorem Means.append (means : Means given n rows) (more : List Equation) :
    Means (given ++ more) n rows where
  well := means.well
  le := by
    rw [List.length_append]
    exact means.le.trans (Nat.le_add_right _ _)
  holds α := by rw [means.holds, List.take_append_of_le_length means.le]

theorem Means.take (means : Means given n rows) {count : Nat} (le : rows.size ≤ count) :
    Means (given.take count) n rows where
  well := means.well
  le := by
    rw [List.length_take]
    exact Nat.le_min.2 ⟨le, means.le⟩
  holds α := by rw [means.holds, List.take_take, Nat.min_eq_left le]

/-- Rows with the same solutions mean the same. -/
theorem Means.of_same (means : Means given n rows) {t : Tableau} (well : t.WellFormed n)
    (size : t.rows.size = rows.size)
    (same : ∀ α : Var → Rat, t.Holds α ↔ Tableau.Holds ⟨rows, [], false⟩ α) :
    Means given n t.rows where
  well := well.of_rows rfl
  le := size ▸ means.le
  holds α := by
    rw [size, ← means.holds, ← same]
    exact Iff.rfl

theorem equation_holds_iff (base : Var) (entries : List (Var × Rat)) (α : Var → Rat) :
    (⟨base, entries⟩ : Equation).Holds α ↔
      α base = (LinearForm.ofEntries entries).combine α := by
  rw [LinearForm.combine_ofEntries, Equation.Holds, total_eq_sum]
  exact Iff.rfl

/-- A new row means the equation that was passed for it. -/
theorem Means.addRow (means : Means given n rows) {base : Var} {entries : List (Var × Rat)}
    (all_given : given.length = rows.size)
    (well : Tableau.WellFormed ⟨rows.push ⟨base, .ofEntries entries, true⟩, [], false⟩ n) :
    Means (given ++ [⟨base, entries⟩]) n (rows.push ⟨base, .ofEntries entries, true⟩) where
  well := well
  le := by rw [Array.size_push, List.length_append, all_given]; rfl
  holds α := by
    have added := Tableau.holds_addRow (t := ⟨rows, [], false⟩) base (.ofEntries entries) α
    have before := means.holds α
    rw [← all_given, List.take_length] at before
    rw [Array.size_push, ← all_given, List.take_of_length_le (by simp)]
    simp only [List.mem_append, List.mem_singleton, or_imp, forall_and, forall_eq]
    rw [← before, equation_holds_iff]
    exact added

/-! ## Scopes inside scopes -/

/-- Taking a change back adds no row. -/
theorem size_undo_le (rows : Array Row) (change : TableauChange) :
    (Tableau.undo rows change).size ≤ rows.size := by
  cases change with
  | addRow => simp [Tableau.undo]
  | pivot r leaving => simp [Tableau.undo]
  | normalize r form => simp [Tableau.undo]

theorem SparseTableau.Retrace.size_le {changes : List SparseChange}
    (retrace : Retrace n rows changes back) : back.size ≤ rows.size := by
  induction retrace with
  | refl => exact Nat.le_refl _
  | step _ _ _ ih => exact ih.trans (size_undo_le _ _)

/-- The rows mean what was given, and in every open scope, innermost first, the changes made since it was
entered lead back to rows that do. -/
inductive Nested (given : List Equation) :
    Nat → Array Row → List SparseChange → List (Nat × Nat) → Prop
  | bottom {n : Nat} {rows : Array Row} : Means given n rows → Nested given n rows [] []
  | scope {n m : Nat} {rows back : Array Row} {changes rest : List SparseChange}
      {outer : List (Nat × Nat)} :
      Means given n rows → Retrace n rows changes back → m ≤ n → Nested given m back rest outer →
      Nested given n rows (changes ++ rest) ((rest.length, m) :: outer)

theorem Nested.means (nested : Nested given n rows trail scopes) : Means given n rows := by
  cases nested with
  | bottom means => exact means
  | scope means => exact means

theorem Nested.append (nested : Nested given n rows trail scopes) (more : List Equation) :
    Nested (given ++ more) n rows trail scopes := by
  induction nested with
  | bottom means => exact .bottom (means.append more)
  | scope means retrace le _ ih => exact .scope (means.append more) retrace le ih

theorem Nested.take (nested : Nested given n rows trail scopes) {count : Nat}
    (le : rows.size ≤ count) : Nested (given.take count) n rows trail scopes := by
  induction nested with
  | bottom means => exact .bottom (means.take le)
  | scope means retrace fewer _ ih =>
    exact .scope (means.take le) retrace fewer (ih (retrace.size_le.trans le))

/-- More variables do not matter. -/
theorem Nested.mono (nested : Nested given n rows trail scopes) (le : n ≤ m) :
    Nested given m rows trail scopes := by
  cases nested with
  | bottom means => exact .bottom (means.mono le)
  | scope means retrace fewer inner =>
    exact .scope (means.mono le) (retrace.mono le) (fewer.trans le) inner

/-- A change that can be taken back is recorded if a scope is open. -/
theorem Nested.record (nested : Nested given n rows trail scopes) {later : Array Row}
    {change : SparseChange} (means : Means given n later) (reversible : Reversible n later change)
    (undone : Tableau.undo later change.view = rows) {recording : Bool}
    (recorded : recording = !scopes.isEmpty) :
    Nested given n later (if recording then change :: trail else trail) scopes := by
  cases nested with
  | bottom _ =>
    rw [recorded]
    exact .bottom means
  | scope _ retrace fewer inner =>
    rw [recorded]
    exact .scope means (.step means.well reversible (undone ▸ retrace)) fewer inner

/-! ## What every step keeps -/

/-- The store is consistent and means what was given, and it stores the tableau that the engine works
with. -/
structure TableauSession.Kept (s : TableauSession) (plain : PlainSession) : Prop where
  consistent : s.store.Consistent
  nested : Nested s.given s.store.numVars s.store.view.rows s.store.trail s.scopes
  all_given : s.given.length = s.store.view.rows.size
  recording : s.store.recording = !s.scopes.isEmpty
  view : s.store.view = plain.tableau
  marks : s.scopes.map Prod.fst = plain.marks

namespace TableauSession

variable {s : TableauSession} {plain : PlainSession} {calls : List TableauCall}

theorem view_empty (ratio : Nat) : (SparseTableau.empty ratio).view = Tableau.empty := by
  simp [SparseTableau.view, SparseTableau.empty, Tableau.empty]

theorem kept_start (ratio : Nat) : (start ratio).Kept .start where
  consistent := consistent_empty ratio
  nested := by
    rw [start, view_empty]
    exact .bottom ⟨Tableau.wellFormed_empty, Nat.le_refl _, fun α =>
      ⟨fun _ _ => nofun, fun _ r row found => by simp [Tableau.get?, Tableau.empty] at found⟩⟩
  all_given := by
    rw [start, view_empty]
    rfl
  recording := rfl
  view := view_empty ratio
  marks := rfl

theorem Kept.well (kept : s.Kept plain) : s.store.view.WellFormed s.store.numVars :=
  kept.nested.means.well.of_rows rfl

theorem Kept.addVar (kept : s.Kept plain) : (s.step .addVar).Kept (plain.step .addVar) where
  consistent := kept.consistent.addVar
  nested := by
    refine kept.nested.mono ?_
    rw [show (s.step .addVar).store = s.store.addVar from rfl, numVars_addVar]
    exact Nat.le_succ _
  all_given := kept.all_given
  recording := kept.recording
  view := kept.view
  marks := kept.marks

theorem Kept.enter (kept : s.Kept plain) : (s.step .enter).Kept (plain.step .enter) where
  consistent := kept.consistent.setRecording true
  nested :=
    show Nested _ _ _ ([] ++ s.store.trail) _ from
      .scope kept.nested.means (.refl _) (Nat.le_refl _) kept.nested
  all_given := kept.all_given
  recording := rfl
  view := by
    rw [step, PlainSession.step, view_setRecording, kept.view]
  marks := by
    have same : s.store.trail.length = plain.tableau.trail.length := by
      rw [← kept.view, SparseTableau.view, List.length_map]
    simp only [step, PlainSession.step, List.map_cons, kept.marks, same]

/-- A recorded change of the rows. -/
theorem Kept.of_stores (kept : s.Kept plain) {store : SparseTableau} {change : SparseChange}
    {tableau : Tableau} (stores : s.store.Stores rows (s.store.recorded change) store)
    (means : Means s.given s.store.numVars rows) (size : rows.size = s.store.view.rows.size)
    (reversible : Reversible s.store.numVars rows change)
    (undone : Tableau.undo rows change.view = s.store.view.rows) (same : store.view = tableau) :
    ({ s with store := store } : TableauSession).Kept { plain with tableau := tableau } where
  consistent := stores.consistent
  nested := by
    simp only [stores.numVars, stores.rows_eq, stores.trail_eq]
    exact kept.nested.record means reversible undone kept.recording
  all_given := by rw [stores.rows_eq, size, kept.all_given]
  recording := stores.recording.trans kept.recording
  view := same
  marks := kept.marks

theorem storable_sortedTerms {t : SparseTableau} (consistent : t.Consistent) {r : RowId}
    {row : SparseRow} (at_r : t.rows[r]? = some row) : Storable t.numVars row.sortedTerms := by
  have same : row.sortedTerms.Perm row.terms := List.mergeSort_perm _ _
  have occurs {term : Var × Rat} (member : term ∈ row.sortedTerms) : t.Occurs r term.1 term.2 :=
    occurs_iff.2 ⟨row, at_r, same.mem_iff.1 member⟩
  refine ⟨((same.map Prod.fst).nodup_iff).2 (consistent.nodup_terms at_r),
    fun term member => consistent.nonzero r _ _ (occurs member), fun term member => ?_⟩
  obtain ⟨i, at_i⟩ := occurs member
  exact consistent.lt_of_content at_i

/-- Normalising a row of the store is normalising the row that it stands for; the trail keeps what the
row was. -/
theorem Kept.normalize (kept : s.Kept plain) (r : RowId) :
    (s.step (.normalize r)).Kept (plain.step (.normalize r)) := by
  have well := kept.well
  have same : (s.store.normalize r).1.view = plain.tableau.normalize r := by
    rw [view_normalize kept.consistent well r, kept.view]
  by_cases pending : ∃ row, s.store.rows[r]? = some row ∧ row.pending = true
  · obtain ⟨row, at_r, pending⟩ := pending
    have found : s.store.view.get? r = some row.view := by
      rw [view_get?, at_r]
      rfl
    have rows : (s.store.view.normalize r).rows =
        s.store.view.rows.setIfInBounds r (s.store.view.reducedRow r row.view) := by
      rw [Tableau.normalize_of_pending found pending, Tableau.record_rows]
    have means := kept.nested.means.of_same (Tableau.wellFormed_normalize well r)
      (Tableau.size_normalize _ r) fun α => Tableau.holds_normalize r α
    have undone := Tableau.undo_normalize found pending
    rw [rows] at means undone
    rw [← ofEntries_sortedTerms] at undone
    exact kept.of_stores (normalize_of_pending kept.consistent well at_r pending) means
      Array.size_setIfInBounds
      ⟨by
        rw [Array.size_setIfInBounds]
        exact (Array.getElem?_eq_some_iff.1 found).1, storable_sortedTerms kept.consistent at_r⟩
      undone same
  · have settled : ∀ row, s.store.rows[r]? = some row → row.pending = false :=
      fun row at_r => Bool.eq_false_iff.2 fun is => pending ⟨row, at_r, is⟩
    rw [normalize_of_not_pending settled] at same
    rw [step, PlainSession.step, normalize_of_not_pending settled, ← same, kept.view]
    exact kept

/-- A pivot is allowed on a variable of a row when no row is pending. -/
theorem Kept.allows_pivot_iff (kept : s.Kept plain) {r : RowId} {entering : Var} :
    s.allows (.pivot r entering) = true ↔ s.store.view.Normalized ∧
      ∃ row, s.store.view.get? r = some row ∧ row.form.coeff entering ≠ 0 := by
  rw [allows, Bool.and_eq_true]
  refine and_congr ?_ ?_
  · rw [Array.all_eq_true']
    constructor
    · intro none_pending q row found
      obtain ⟨stored, at_q, rfl⟩ := get?_view found
      exact (Bool.not_eq_true' _).mp (none_pending stored (Array.mem_of_getElem? at_q))
    · intro settled stored member
      obtain ⟨q, at_q⟩ := Array.mem_iff_getElem?.1 member
      have found : s.store.view.get? q = some stored.view := by
        rw [view_get?, at_q]
        rfl
      exact (Bool.not_eq_true' _).mpr (settled q stored.view found)
  · rw [Option.any_eq_true]
    constructor
    · rintro ⟨row, at_r, is_term⟩
      obtain ⟨i, at_i⟩ := Option.isSome_iff_exists.1 is_term
      obtain ⟨c, at_content⟩ := content_of_positionOf? at_r at_i
      have found : s.store.view.get? r = some row.view := by
        rw [view_get?, at_r]
        rfl
      refine ⟨row.view, found, ?_⟩
      rw [coeff_view found, coeff_of_occurs kept.consistent.toLinked ⟨i, at_content⟩]
      exact kept.consistent.nonzero r entering c ⟨i, at_content⟩
    · rintro ⟨row, found, occurs⟩
      obtain ⟨stored, at_r, rfl⟩ := get?_view found
      obtain ⟨i, c, at_i, -⟩ := kept.consistent.exists_position at_r occurs
      exact ⟨stored, at_r, Option.isSome_iff_exists.2 ⟨i, at_i⟩⟩

/-- Exchanging a base in the store is exchanging it in the rows that it stands for. -/
theorem Kept.pivot (kept : s.Kept plain) {r : RowId} {entering : Var}
    (allowed : s.allows (.pivot r entering) = true) :
    (s.step (.pivot r entering)).Kept (plain.step (.pivot r entering)) := by
  have well := kept.well
  obtain ⟨settled, row, found, occurs⟩ := kept.allows_pivot_iff.1 allowed
  obtain ⟨row, at_r, rfl⟩ := get?_view found
  have rows : (s.store.view.pivot r entering).rows =
      Tableau.pivotRows s.store.view.rows r entering := by
    rw [Tableau.pivot, found, Tableau.record_rows]
  have means := kept.nested.means.of_same
    (Tableau.wellFormed_pivot well settled found occurs) (by rw [rows, Tableau.size_pivotRows])
    fun α => Tableau.holds_pivot found occurs α
  have settled' : (s.store.view.pivot r entering).Normalized := Tableau.normalized_pivot settled
  have undone := Tableau.undo_pivot well settled found occurs
  rw [rows] at means undone
  refine kept.of_stores (pivot_keeps kept.consistent well settled at_r occurs) means
    (Tableau.size_pivotRows ..) ⟨fun other member => ?_, row.view.solveFor entering, ?_, ?_⟩ undone
    (by rw [view_pivot kept.consistent well settled at_r occurs, kept.view])
  · obtain ⟨q, at_q⟩ := Array.mem_iff_getElem?.1 member
    refine settled' q other ?_
    rw [Tableau.get?, rows, at_q]
  · rw [Tableau.getElem?_pivotRows found, show s.store.view.rows[r]? = _ from found,
      Option.map_some, if_pos rfl]
  · have apart : entering ≠ row.base := fun same =>
      occurs (same ▸ well.own found)
    rw [show row.base = row.view.base from rfl, row.view.coeff_base_solveFor (well.own found) apart]
    exact one_div_ne_zero occurs

/-- Adding a row to the store adds the row that its entries stand for, and the trail says that it is
new. -/
theorem Kept.addRow (kept : s.Kept plain) {base : Var} {entries : List (Var × Rat)}
    (allowed : s.allows (.addRow base entries) = true) :
    (s.step (.addRow base entries)).Kept (plain.step (.addRow base entries)) := by
  rw [allows, Bool.and_eq_true] at allowed
  obtain ⟨fresh, entries_ok⟩ := allowed
  have entry_ok {entry : Var × Rat} (member : entry ∈ entries) :
      entry.1 ≠ base ∧ entry.1 < s.store.numVars := by
    have ok := List.all_eq_true.1 entries_ok entry member
    rw [Bool.and_eq_true, bne_iff_ne, decide_eq_true_eq] at ok
    exact ok
  have lt : ∀ entry ∈ entries, entry.1 < s.store.numVars := fun entry member => (entry_ok member).2
  have own : (LinearForm.ofEntries entries).coeff base = 0 :=
    LinearForm.coeff_ofEntries_of_absent fun entry member => (entry_ok member).1
  have fresh_view := kept.consistent.isFresh_view fresh
  have well' := Tableau.wellFormed_addRow kept.well fresh_view own
    (kept.consistent.of_isFresh fresh).1 fun v occurs => by
      by_contra beyond
      refine occurs (LinearForm.coeff_ofEntries_of_absent fun entry member same => beyond ?_)
      exact same ▸ lt entry member
  have stores := addRow_keeps kept.consistent fresh lt
  have means := kept.nested.means.addRow kept.all_given
    (well'.of_rows (by rw [Tableau.addRow, Tableau.record_rows]))
  refine ⟨stores.consistent, ?_, ?_, stores.recording.trans kept.recording, ?_, kept.marks⟩
  · simp only [step, stores.numVars, stores.rows_eq, stores.trail_eq]
    refine (kept.nested.append _).record means ?_ ?_ kept.recording
    · rw [Reversible, Array.size_push, SparseTableau.view, Array.size_map]
    · exact Array.pop_push
  · simp only [step, stores.rows_eq, Array.size_push, List.length_append, kept.all_given,
      List.length_singleton]
  · simp only [step, PlainSession.step, view_addRow kept.consistent fresh lt, kept.view]

/-- Leaving a scope gives the store back the rows that it had when the scope was entered. -/
theorem Kept.leave (kept : s.Kept plain) : (s.step .leave).Kept (plain.step .leave) := by
  obtain ⟨store, scopes, given⟩ := s
  obtain ⟨tableau, marks⟩ := plain
  obtain ⟨consistent, nested, all_given, recording, view, marks_eq⟩ := kept
  simp only at consistent nested all_given recording view marks_eq
  subst marks_eq view
  cases scopes with
  | nil => exact ⟨consistent, nested, all_given, recording, rfl, rfl⟩
  | cons scope outer =>
    obtain ⟨length, numVars⟩ := scope
    generalize trail_eq : store.trail = trail at nested
    cases nested with
    | @scope _ _ _ back changes rest _ means retrace fewer inner =>
      have undone := retrace.undoTo consistent trail_eq
      have size : (store.undoTo rest.length).rows.size = back.size := by
        rw [← undone.rows_eq, SparseTableau.view, Array.size_map]
      refine ⟨(undone.consistent.truncateVars (inner.means.well.of_rows undone.rows_eq)).setRecording
        _, ?_, ?_, rfl, ?_, rfl⟩
      · have vars : ((store.undoTo rest.length).truncateVars numVars).numVars = numVars :=
          numVars_truncateVars (undone.numVars ▸ fewer)
        show Nested (given.take (store.undoTo rest.length).rows.size)
          ((store.undoTo rest.length).truncateVars numVars).numVars
          (store.undoTo rest.length).view.rows (store.undoTo rest.length).trail outer
        rw [vars, undone.rows_eq, undone.trail_eq, size]
        exact inner.take (Nat.le_refl _)
      · show (given.take (store.undoTo rest.length).rows.size).length =
          (store.undoTo rest.length).view.rows.size
        rw [undone.rows_eq, size, List.length_take, all_given, Nat.min_eq_left retrace.size_le]
      · have same : (store.undoTo rest.length).view = store.view.undoTo rest.length := by
          rw [undone.view, retrace.undoTo_view trail_eq]
        show ({ (store.undoTo rest.length).view with recording := !outer.isEmpty } : Tableau) =
          { store.view.undoTo rest.length with recording := !(outer.map Prod.fst).isEmpty }
        rw [same, List.isEmpty_map]

/-- Every allowed call keeps what is kept. -/
theorem Kept.step (kept : s.Kept plain) {call : TableauCall} (allowed : s.allows call = true) :
    (s.step call).Kept (plain.step call) := by
  cases call with
  | addVar => exact kept.addVar
  | addRow base entries => exact kept.addRow allowed
  | normalize r => exact kept.normalize r
  | pivot r entering => exact kept.pivot allowed
  | enter => exact kept.enter
  | leave => exact kept.leave

theorem Kept.run (kept : s.Kept plain) (allowed : s.allowsAll calls = true) :
    (s.run calls).Kept (plain.run calls) := by
  induction calls generalizing s plain with
  | nil => exact kept
  | cons call rest ih =>
    rw [allowsAll, Bool.and_eq_true] at allowed
    exact ih (kept.step allowed.1) allowed.2

/-! ## The meaning of the store -/

theorem holds_view (t : SparseTableau) (α : Var → Rat) : t.view.Holds α ↔ t.Holds α := by
  constructor
  · intro holds row member
    obtain ⟨r, at_r⟩ := Array.mem_iff_getElem?.1 member
    have here := holds r row.view (by rw [view_get?, at_r]; rfl)
    rw [Row.Holds, SparseRow.view, LinearForm.combine_ofEntries] at here
    rw [total_eq_sum]
    exact here
  · intro holds r row found
    obtain ⟨stored, at_r, rfl⟩ := get?_view found
    rw [Row.Holds, SparseRow.view, LinearForm.combine_ofEntries]
    exact holds stored (Array.mem_of_getElem? at_r)

/-- In every session the store stays consistent and stores the tableau that the engine works with, there
is a row for each equation that was given, and the stored rows have the same solutions as these
equations as they were passed. -/
theorem holds_iff_given {ratio : Nat} (allowed : (start ratio).allowsAll calls = true) :
    ((start ratio).run calls).store.Consistent ∧
      ((start ratio).run calls).store.view = (PlainSession.start.run calls).tableau ∧
      ((start ratio).run calls).store.rows.size = ((start ratio).run calls).given.length ∧
      ∀ α : Var → Rat, ((start ratio).run calls).store.Holds α ↔
        ∀ equation ∈ ((start ratio).run calls).given, equation.Holds α := by
  have kept := (kept_start ratio).run allowed
  have size : ((start ratio).run calls).store.view.rows.size =
      ((start ratio).run calls).store.rows.size := by
    rw [SparseTableau.view, Array.size_map]
  refine ⟨kept.consistent, kept.view, by rw [kept.all_given, size], fun α => ?_⟩
  have means := kept.nested.means.holds α
  rw [← kept.all_given, List.take_length] at means
  rw [← holds_view, ← means]
  exact Iff.rfl

/-- A row in reduced form, a scope in which a second row joins it and a variable of the first one
enters, and a pending row after the scope was left. -/
def exchanging : List TableauCall :=
  [.addVar, .addVar, .addVar, .addRow 2 [(0, 1), (1, 2), (0, 1)], .normalize 0, .enter, .addVar,
    .addRow 3 [(2, 1), (1, -2)], .normalize 1, .pivot 0 1, .leave, .addVar, .addRow 3 [(2, 5)]]

theorem run_exchanging : (start 50).allowsAll exchanging = true ∧
    ((start 50).run exchanging).given =
      [⟨2, [(0, 1), (1, 2), (0, 1)]⟩, ⟨3, [(2, 5)]⟩] := by
  refine ⟨by cbv, by cbv⟩

theorem holds_iff_given_exchanging :
    (start 50).allowsAll exchanging = true ∧
      ∀ α : Var → Rat, ((start 50).run exchanging).store.Holds α ↔
        (Equation.mk 2 [(0, 1), (1, 2), (0, 1)]).Holds α ∧ (Equation.mk 3 [(2, 5)]).Holds α := by
  obtain ⟨allowed, given⟩ := run_exchanging
  refine ⟨allowed, fun α => ?_⟩
  rw [(holds_iff_given allowed).2.2.2, given]
  simp only [List.forall_mem_cons, List.not_mem_nil, false_imp_iff, forall_true_iff, and_true]

end TableauSession

end ArithDecide
