import Mathlib
import ArithDecide.Proofs.GuardedSessions

/-!
# The layout of the store

What lies where in the store, term by term (`SparseTableau.Exact`): terms and column entries mirror each
other at their very positions, no row has two terms for one variable, a zero term or its own base, the
free lists name the tombstones and nothing else, the rows are found by their bases and by nothing else,
and rows in reduced form mention no base.

Most of this is part of `SparseTableau.Consistent` and of `Tableau.WellFormed`, which every session keeps.
That every tombstone is listed (`Slots.Listed`) is not, as no other property needs it. It concerns single
slots only, so it is kept by whatever is composed of operations on slots.
-/

namespace ArithDecide

/-! ## Tombstones are listed -/

namespace Slots

variable {α : Type} {s : Slots α}

/-- Every tombstone is listed as free. -/
def Listed (s : Slots α) : Prop := ∀ i, s.entries[i]? = some none → i ∈ s.free

theorem listed_empty : (empty : Slots α).Listed := by
  intro i dead
  cases dead

/-- An entry takes the first position of the free list, or one at the end if the list is empty. -/
theorem Listed.insert (listed : s.Listed) (a : α) : (s.insert a).2.Listed := by
  intro i dead
  unfold Slots.insert at dead ⊢
  split at dead
  · rename_i k free free_eq
    -- the position that is taken is no tombstone any more, and all others are still listed
    rw [Array.getElem?_setIfInBounds] at dead
    split at dead
    · split at dead <;> cases dead
    · rename_i apart
      rcases List.mem_cons.1 (free_eq ▸ listed i dead) with rfl | later
      · exact absurd rfl apart
      · exact later
  · rename_i free_eq
    rw [Array.getElem?_push] at dead
    split at dead
    · cases dead
    · have old := listed i dead
      rwa [free_eq] at old

theorem Listed.kill (listed : s.Listed) (i : Nat) : (s.kill i).Listed := by
  unfold Slots.kill
  split
  · intro k dead
    rw [Array.getElem?_setIfInBounds] at dead
    split at dead
    · rename_i same
      rw [same]
      exact List.mem_cons_self
    · exact List.mem_cons_of_mem _ (listed k dead)
  · exact listed

/-- Changing entries makes no tombstone. -/
theorem Listed.modify (listed : s.Listed) (i : Nat) (change : α → α) : (s.modify i change).Listed := by
  intro k dead
  apply listed k
  simp only [Slots.modify, Array.getElem?_modify] at dead
  split at dead
  · obtain ⟨slot, at_k, same⟩ := Option.map_eq_some_iff.1 dead
    rw [at_k, Option.map_eq_none_iff.1 same]
  · exact dead

theorem Listed.map (listed : s.Listed) (change : α → α) : (s.map change).Listed := by
  intro k dead
  apply listed k
  simp only [Slots.map, Array.getElem?_map] at dead
  obtain ⟨slot, at_k, same⟩ := Option.map_eq_some_iff.1 dead
  rw [at_k, Option.map_eq_none_iff.1 same]

/-- No tombstone is left after squashing. -/
theorem listed_compact (s : Slots α) : s.compact.2.Listed := by
  intro k dead
  simp only [compact, List.getElem?_toArray, List.getElem?_map] at dead
  obtain ⟨_, _, same⟩ := Option.map_eq_some_iff.1 dead
  cases same

/-- The size counts the entries, and the free list names the tombstones, each once. -/
structure Exact (s : Slots α) : Prop where
  size_eq : s.size = s.entries.countP Option.isSome
  mem_free_iff : ∀ i, i ∈ s.free ↔ s.entries[i]? = some none
  free_nodup : s.free.Nodup

theorem WellFormed.exact (well : s.WellFormed) (listed : s.Listed) : s.Exact :=
  ⟨well.size_eq, fun i => ⟨well.free_dead i, listed i⟩, well.free_nodup⟩

end Slots

namespace SparseTableau

variable {t : SparseTableau} {r q : RowId} {v : Var} {i : Nat}

/-- All tombstones of rows and columns are listed. -/
structure Listed (t : SparseTableau) : Prop where
  rows : ∀ {r : RowId} {row : SparseRow}, t.rows[r]? = some row → row.slots.Listed
  columns : ∀ {v : Var} {column : Slots ColumnEntry}, t.columns[v]? = some column → column.Listed

/-- Only rows and columns count. -/
theorem Listed.of_same {u : SparseTableau} (listed : t.Listed) (rows : u.rows = t.rows)
    (columns : u.columns = t.columns) : u.Listed where
  rows found := listed.rows (rows ▸ found)
  columns found := listed.columns (columns ▸ found)

theorem listed_empty (ratio : Nat) : (empty ratio).Listed where
  rows found := by cases found
  columns found := by cases found

/-! ### Single changes -/

theorem Listed.modifyRow (listed : t.Listed) (r : RowId) (change : SparseRow → SparseRow)
    (keeps : ∀ row : SparseRow, row.slots.Listed → (change row).slots.Listed) :
    ({ t with rows := t.rows.modify r change } : SparseTableau).Listed where
  rows found := by
    rcases getElem?_modify_eq_some found with ⟨old, at_q, rfl | rfl⟩
    · exact listed.rows at_q
    · exact keeps old (listed.rows at_q)
  columns found := listed.columns found

theorem Listed.modifyColumn (listed : t.Listed) (v : Var)
    {change : Slots ColumnEntry → Slots ColumnEntry}
    (keeps : ∀ column : Slots ColumnEntry, column.Listed → (change column).Listed) :
    ({ t with columns := t.columns.modify v change } : SparseTableau).Listed where
  rows found := listed.rows found
  columns found := by
    rcases getElem?_modify_eq_some found with ⟨old, at_w, rfl | rfl⟩
    · exact listed.columns at_w
    · exact keeps old (listed.columns at_w)

theorem Listed.setRow (listed : t.Listed) {row : SparseRow} (listed_row : row.slots.Listed) :
    ({ t with rows := t.rows.setIfInBounds r row } : SparseTableau).Listed where
  rows {q other} found := by
    rw [Array.getElem?_setIfInBounds] at found
    split at found
    · split at found
      · cases found
        exact listed_row
      · cases found
    · exact listed.rows found
  columns found := listed.columns found

theorem Listed.setColumn (listed : t.Listed) {column : Slots ColumnEntry}
    (listed_column : column.Listed) :
    ({ t with columns := t.columns.setIfInBounds v column } : SparseTableau).Listed where
  rows found := listed.rows found
  columns {w other} found := by
    rw [Array.getElem?_setIfInBounds] at found
    split at found
    · split at found
      · cases found
        exact listed_column
      · cases found
    · exact listed.columns found

theorem Listed.modifyTerm (listed : t.Listed) (r : RowId) (i : Nat)
    (change : RowEntry → RowEntry) : (t.modifyTerm r i change).Listed :=
  listed.modifyRow r _ fun _ listed_row => listed_row.modify i change

theorem Listed.modifyPlace (listed : t.Listed) (v : Var) (i : Nat)
    (change : ColumnEntry → ColumnEntry) : (t.modifyPlace v i change).Listed :=
  listed.modifyColumn v fun _ listed_column => listed_column.modify i change

/-! ### Terms -/

theorem Listed.insertTerm (listed : t.Listed) (r : RowId) (v : Var) (c : Rat) :
    (t.insertTerm r v c).2.Listed := by
  unfold SparseTableau.insertTerm
  split
  · rename_i row column at_r at_v
    have stored := (listed.rows at_r).insert ⟨v, c, 0⟩
    have placed := (listed.columns at_v).insert ⟨r, (row.slots.insert ⟨v, c, 0⟩).1⟩
    exact (Listed.setColumn (listed.setRow stored) placed).modifyTerm _ _ _
  · exact listed

theorem Listed.repointTerm (listed : t.Listed) (v : Var) (move : Nat × Nat) :
    (repointTerm v t move).Listed := by
  unfold SparseTableau.repointTerm
  split
  · exact listed
  · exact listed.modifyTerm _ _ _

theorem Listed.repointPlace (listed : t.Listed) (r : RowId) (move : Nat × Nat) :
    (repointPlace r t move).Listed := by
  unfold SparseTableau.repointPlace
  split
  · exact listed
  · exact listed.modifyPlace _ _ _

theorem Listed.compactColumn (listed : t.Listed) (v : Var) : (t.compactColumn v).Listed := by
  unfold SparseTableau.compactColumn
  split
  · exact listed
  · split
    · rename_i column _ _
      exact List.foldlRecOn _ _ (listed.setColumn column.listed_compact) fun _ listed move _ =>
        listed.repointTerm v move
    · exact listed

theorem Listed.compactRow (listed : t.Listed) (r : RowId) : (t.compactRow r).Listed := by
  unfold SparseTableau.compactRow
  split
  · exact listed
  · split
    · rename_i row _ _
      exact List.foldlRecOn _ _ (listed.setRow row.slots.listed_compact) fun _ listed move _ =>
        listed.repointPlace r move
    · exact listed

theorem Listed.removeTerm (listed : t.Listed) (r : RowId) (i : Nat) :
    (t.removeTerm r i).2.Listed := by
  unfold SparseTableau.removeTerm
  split
  · exact listed
  · rename_i entry _
    have killed := listed.modifyRow r (fun row => { row with slots := row.slots.kill i })
      fun _ listed_row => listed_row.kill i
    exact (killed.modifyColumn entry.var fun _ listed_column =>
      listed_column.kill entry.columnIndex).compactColumn _

theorem Listed.clearRow (listed : t.Listed) (r : RowId) : (t.clearRow r).Listed :=
  List.foldlRecOn _ _ listed fun _ listed i _ => listed.removeTerm r i

theorem Listed.fillRow (listed : t.Listed) (r : RowId) (terms : List (Var × Rat)) :
    (t.fillRow r terms).Listed :=
  List.foldlRecOn _ _ listed fun _ listed term _ => listed.insertTerm r term.1 term.2

theorem Listed.addTerm {positions : PositionMap} (listed : t.Listed) (target : RowId) (factor : Rat)
    (term : Var × Rat) : (addTerm target factor (t, positions) term).1.Listed := by
  unfold SparseTableau.addTerm
  dsimp only
  split
  · split
    · exact listed
    · rename_i i _ _ _ _
      have added := listed.modifyTerm target i
        fun entry => { entry with coeff := entry.coeff + factor * term.2 }
      split
      · exact added.removeTerm target i
      · exact added
  · exact listed.insertTerm target term.1 (factor * term.2)

theorem Listed.substitute (listed : t.Listed) (target : RowId) (i : Nat) (source : RowId) :
    (t.substitute target i source).Listed := by
  have removed := listed.removeTerm target i
  unfold SparseTableau.substitute
  exact (List.foldlRecOn (motive := fun acc : SparseTableau × PositionMap => acc.1.Listed) _ _ removed
    fun acc listed term _ => listed.addTerm target _ term).compactRow target

/-! ### Operations -/

theorem Listed.record (listed : t.Listed) (change : SparseChange) : (t.record change).Listed := by
  unfold SparseTableau.record
  split
  · exact listed.of_same rfl rfl
  · exact listed

theorem Listed.addVar (listed : t.Listed) : t.addVar.Listed where
  rows found := listed.rows found
  columns {w column} found := by
    rw [SparseTableau.addVar, Array.getElem?_push] at found
    split at found
    · cases found
      exact Slots.listed_empty
    · exact listed.columns found

theorem Listed.truncateVars (listed : t.Listed) (count : Nat) : (t.truncateVars count).Listed where
  rows found := listed.rows found
  columns {w column} found := by
    rw [SparseTableau.truncateVars, getElem?_take] at found
    split at found
    · exact listed.columns found
    · cases found

theorem Listed.addRow (listed : t.Listed) (base : Var) (entries : List (Var × Rat)) :
    (t.addRow base entries).Listed := by
  have started : (t.withRow base).Listed := by
    refine ⟨fun {q row} found => ?_, listed.columns⟩
    rw [withRow, Array.getElem?_push] at found
    split at found
    · cases found
      exact Slots.listed_empty
    · exact listed.rows found
  have filled := started.fillRow t.rows.size (mergedEntries entries)
  rw [addRow_eq]
  exact (filled.of_same rfl rfl : (t.withFilledRow base entries).Listed).record _

theorem Listed.reduceRow (listed : t.Listed) (r : RowId) (count : Nat) :
    (reduceRow r count t).1.Listed := by
  induction count generalizing t with
  | zero => exact listed
  | succ count ih =>
    unfold SparseTableau.reduceRow
    split
    · exact listed
    · exact ih (listed.substitute r _ _)

theorem Listed.normalize (listed : t.Listed) (r : RowId) : (t.normalize r).1.Listed := by
  unfold SparseTableau.normalize
  split
  · exact listed
  · exact (Listed.modifyRow (listed.reduceRow r (Nat.pow 2 r)) r
      (fun row => { row with pending := false }) fun _ listed_row => listed_row).record _

theorem Listed.solveRow (listed : t.Listed) (r : RowId) (i : Nat) (base : Var) :
    (t.solveRow r i base).Listed :=
  ((listed.removeTerm r i).modifyRow r _ fun _ listed_row => listed_row.map _).insertTerm r base _

theorem Listed.exchangeBase (listed : t.Listed) (r : RowId) (leaving entering : Var) :
    (t.exchangeBase r leaving entering).Listed :=
  Listed.of_same (listed.modifyRow r (fun row => { row with base := entering })
    fun _ listed_row => listed_row) rfl rfl

/-- Exchanging a base keeps free positions listed, in rows and in columns. -/
theorem Listed.pivotRow (listed : t.Listed) (r : RowId) (entering : Var) :
    (t.pivotRow r entering).Listed := by
  cases at_r : t.rows[r]? with
  | none =>
    rw [SparseTableau.pivotRow, at_r]
    exact listed
  | some row =>
    cases at_i : row.positionOf? entering with
    | none =>
      simp only [SparseTableau.pivotRow, at_r, at_i]
      exact listed
    | some i =>
      have exchanged := (listed.solveRow r i row.base).exchangeBase r row.base entering
      rw [pivotRow_eq at_r at_i]
      exact List.foldlRecOn _ _ exchanged fun _ listed target _ => listed.substitute _ _ _

theorem Listed.pivot (listed : t.Listed) (r : RowId) (entering : Var) : (t.pivot r entering).Listed := by
  unfold SparseTableau.pivot
  split
  · exact listed
  · exact (listed.pivotRow r entering).record _

theorem Listed.removeLastRow (listed : t.Listed) (r : RowId) : (t.removeLastRow r).Listed := by
  have cleared := listed.clearRow r
  unfold SparseTableau.removeLastRow
  split
  · exact cleared
  · refine ⟨fun {q row} found => ?_, cleared.columns⟩
    rw [Array.getElem?_pop] at found
    split at found
    · exact cleared.rows found
    · cases found

theorem Listed.undo (listed : t.Listed) (change : SparseChange) : (t.undo change).Listed := by
  cases change with
  | addRow r => exact listed.removeLastRow r
  | pivot r leaving => exact listed.pivotRow r leaving
  | normalize r terms =>
    exact ((listed.clearRow r).fillRow r terms).modifyRow r _ fun _ listed_row => listed_row

theorem Listed.undoTo (listed : t.Listed) (length : Nat) : (t.undoTo length).Listed :=
  Listed.of_same (List.foldlRecOn _ _ listed fun _ listed change _ => listed.undo change) rfl rfl

/-! ## The exact layout -/

/-- What lies where in a store. -/
structure Exact (t : SparseTableau) : Prop where
  rows : ∀ {r : RowId} {row : SparseRow}, t.rows[r]? = some row → row.slots.Exact
  columns : ∀ {v : Var} {column : Slots ColumnEntry}, t.columns[v]? = some column → column.Exact
  /-- Terms and column entries mirror each other. -/
  mirrored : ∀ {r i v k}, (∃ entry, t.term? r i = some entry ∧ entry.var = v ∧
    entry.columnIndex = k) ↔ t.place? v k = some ⟨r, i⟩
  distinct : ∀ {r i j a b}, t.term? r i = some a → t.term? r j = some b → a.var = b.var → i = j
  nonzero : ∀ {r i entry}, t.term? r i = some entry → entry.coeff ≠ 0
  own : ∀ {r row i entry}, t.rows[r]? = some row → t.term? r i = some entry → entry.var ≠ row.base
  /-- The rows are found by their bases and by nothing else. -/
  bases : ∀ {v r}, t.rowOf? v = some r ↔ ∃ row, t.rows[r]? = some row ∧ row.base = v
  /-- A row that is not pending mentions no base. -/
  reduced : ∀ {r row i entry}, t.rows[r]? = some row → row.pending = false →
    t.term? r i = some entry → t.rowOf? entry.var = none

/-- The variable of a term occurs in the tableau that is stored. -/
theorem Consistent.coeff_of_term? (consistent : t.Consistent) {row : SparseRow} {entry : RowEntry}
    (at_r : t.rows[r]? = some row) (at_i : t.term? r i = some entry) :
    t.view.get? r = some row.view ∧ row.view.form.coeff entry.var = entry.coeff ∧
      entry.coeff ≠ 0 := by
  have occurs : t.Occurs r entry.var entry.coeff :=
    ⟨i, content_eq_some_iff.2 ⟨entry, at_i, rfl, rfl⟩⟩
  have found : t.view.get? r = some row.view := by
    rw [view_get?, at_r]
    rfl
  refine ⟨found, ?_, consistent.nonzero _ _ _ occurs⟩
  rw [coeff_view found, coeff_of_occurs consistent.toLinked occurs]

/-- A row that is not pending mentions no base. -/
theorem Consistent.rowOf?_of_settled (consistent : t.Consistent) {n : Nat}
    (well : t.view.WellFormed n) {row : SparseRow} {entry : RowEntry} (at_r : t.rows[r]? = some row)
    (settled : row.pending = false) (at_i : t.term? r i = some entry) :
    t.rowOf? entry.var = none := by
  obtain ⟨found, coeff, nonzero⟩ := consistent.coeff_of_term? at_r at_i
  rw [← consistent.rowOf?_view, Tableau.rowOf?_eq_none_iff]
  intro q other at_q same
  apply nonzero
  rw [← coeff, ← same]
  exact well.separate found at_q (.inl settled)

/-- A consistent store in which every tombstone is listed as free has the exact layout. -/
theorem Consistent.exact (consistent : t.Consistent) {n : Nat} (well : t.view.WellFormed n)
    (listed : t.Listed) : t.Exact where
  rows at_r := (consistent.rows at_r).exact (listed.rows at_r)
  columns at_v := (consistent.columns at_v).exact (listed.columns at_v)
  mirrored {r i v k} := by
    constructor
    · rintro ⟨entry, at_i, rfl, rfl⟩
      exact consistent.forth at_i
    · intro at_k
      exact consistent.back at_k
  distinct := consistent.distinct
  nonzero {r i entry} at_i :=
    consistent.nonzero r entry.var entry.coeff ⟨i, content_eq_some_iff.2 ⟨entry, at_i, rfl, rfl⟩⟩
  own {r row i entry} at_r at_i same := by
    obtain ⟨found, coeff, nonzero⟩ := consistent.coeff_of_term? at_r at_i
    apply nonzero
    rw [← coeff, same]
    exact well.own found
  bases {v r} := by
    constructor
    · exact consistent.headed
    · rintro ⟨row, at_r, rfl⟩
      exact consistent.heads at_r
  reduced := consistent.rowOf?_of_settled well

/-- An exact store passes the check. -/
theorem Exact.isConsistent (exact : t.Exact) : t.isConsistent = true := by
  rw [SparseTableau.isConsistent, Bool.and_eq_true, List.all_eq_true, List.all_eq_true]
  constructor
  · rintro ⟨row, r⟩ member
    have at_r : t.rows[r]? = some row := by
      rw [← Array.getElem?_toList]
      exact List.mem_zipIdx_iff_getElem?.1 member
    simp only [isConsistentRow, Bool.and_eq_true, beq_iff_eq, List.all_eq_true]
    refine ⟨exact.bases.2 ⟨row, at_r, rfl⟩, ?_⟩
    rintro ⟨i, entry⟩ live
    have at_i : t.term? r i = some entry := by
      rw [term?, at_r]
      exact Slots.mem_live.1 live
    refine ⟨⟨exact.mirrored.1 ⟨entry, at_i, rfl, rfl⟩, bne_iff_ne.2 (exact.nonzero at_i)⟩, ?_⟩
    cases settled : row.pending with
    | true => rfl
    | false =>
      rw [exact.reduced at_r settled at_i]
      rfl
  · rintro ⟨column, v⟩ member
    have at_v : t.columns[v]? = some column := by
      rw [← Array.getElem?_toList]
      exact List.mem_zipIdx_iff_getElem?.1 member
    simp only [isConsistentColumn, List.all_eq_true]
    rintro ⟨k, place⟩ live
    have at_k : t.place? v k = some place := by
      rw [place?, at_v]
      exact Slots.mem_live.1 live
    obtain ⟨entry, at_i, var, index⟩ := exact.mirrored.2 at_k
    simp only [at_i, Option.any_some, Bool.and_eq_true, beq_iff_eq]
    exact ⟨var, index⟩

end SparseTableau

/-! ## Sessions -/

namespace TableauSession

variable {s : TableauSession} {plain : PlainSession} {calls : List TableauCall}

theorem listed_step (listed : s.store.Listed) (call : TableauCall) :
    (s.step call).store.Listed := by
  cases call with
  | addVar => exact listed.addVar
  | addRow base entries => exact listed.addRow base entries
  | normalize r => exact listed.normalize r
  | pivot r entering => exact listed.pivot r entering
  | enter => exact listed.of_same rfl rfl
  | leave =>
    rcases s with ⟨store, _ | ⟨⟨length, numVars⟩, outer⟩, given⟩
    · exact listed
    · exact ((listed.undoTo length).truncateVars numVars).of_same rfl rfl

theorem listed_start (ratio : Nat) : (start ratio).store.Listed := SparseTableau.listed_empty ratio

theorem listed_run (listed : s.store.Listed) (calls : List TableauCall) :
    (s.run calls).store.Listed := by
  induction calls generalizing s with
  | nil => exact listed
  | cons call rest ih => exact ih (listed_step listed call)

theorem Kept.exact (kept : s.Kept plain) (listed : s.store.Listed) : s.store.Exact :=
  kept.consistent.exact kept.well listed

/-- Once the changes of the innermost scope are taken back, before its variables are forgotten. -/
theorem Kept.exact_undoTo (kept : s.Kept plain) (listed : s.store.Listed) {length numVars : Nat}
    {outer : List (Nat × Nat)} (scopes : s.scopes = (length, numVars) :: outer) :
    (s.store.undoTo length).Exact := by
  have nested := kept.nested
  rw [scopes] at nested
  generalize trail_eq : s.store.trail = trail at nested
  cases nested with
  | scope _ retrace _ inner =>
    have undone := retrace.undoTo kept.consistent trail_eq
    exact undone.consistent.exact (inner.means.well.of_rows undone.rows_eq) (listed.undoTo _)

/-- The layout is exact after every sequence of allowed calls, and in the middle of leaving a scope; and
whatever an engine is asked, the store that its guarded calls lead to is one that allowed calls lead to.
-/
theorem exact_stores (ratio : Nat) :
    (∀ calls, (start ratio).allowsAll calls = true →
      ((start ratio).run calls).store.Exact ∧ ((start ratio).run calls).store.isConsistent = true ∧
        ∀ length numVars outer, ((start ratio).run calls).scopes = (length, numVars) :: outer →
          (((start ratio).run calls).store.undoTo length).Exact) ∧
      ∀ (options : Options) (calls : List Call), ∃ made : List TableauCall,
        (start ratio).allowsAll made = true ∧
          Engine.Guarded.run (Engine.new options) calls (start ratio) =
            .ok (((Session.start options).run calls).engine, (start ratio).run made) := by
  constructor
  · intro calls allowed
    have kept := (kept_start ratio).run allowed
    have listed : ((start ratio).run calls).store.Listed := listed_run (listed_start ratio) calls
    have exact_run := kept.exact listed
    exact ⟨exact_run, exact_run.isConsistent, fun _ _ _ scopes => kept.exact_undoTo listed scopes⟩
  · intro options calls
    obtain ⟨store, ran, leads⟩ := Session.leadsTo_run options ratio calls
    obtain ⟨made, allowed, rfl⟩ := leads.led
    exact ⟨made, allowed, ran⟩

theorem exact_stores_exchanging : (start 50).allowsAll exchanging = true ∧
    ((start 50).run exchanging).store.Exact :=
  ⟨run_exchanging.1, ((exact_stores 50).1 exchanging run_exchanging.1).1⟩

end TableauSession

end ArithDecide
