import ArithDecide.Proofs.LinearForm
import ArithDecide.Proofs.Slots
import ArithDecide.Storage.Basic

/-!
# Rows and columns index each other

`SparseTableau.Linked` says that every term knows the position of its column entry and every column entry
that of its term, and that a row has at most one term for each variable. `SparseTableau.content` is what
lies at a position of a row, without the link. `SparseTableau.SameFrame` says that a change is one of
terms only, and `SparseTableau.Edits` that it is one of the terms of a single row.
-/

namespace ArithDecide.SparseTableau

variable {t u : SparseTableau} {r q : RowId} {v w : Var} {i j k : Nat} {c : Rat}

/-- The slots of all rows and columns are well-formed. -/
structure Tidy (t : SparseTableau) : Prop where
  rows : ∀ {r : RowId} {row : SparseRow}, t.rows[r]? = some row → row.slots.WellFormed
  columns : ∀ {v : Var} {column : Slots ColumnEntry}, t.columns[v]? = some column →
    column.WellFormed

/-- Terms and column entries are paired, and no row has two terms for one variable. -/
structure Linked (t : SparseTableau) : Prop extends Tidy t where
  forth : ∀ {r i entry}, t.term? r i = some entry →
    t.place? entry.var entry.columnIndex = some ⟨r, i⟩
  back : ∀ {v j place}, t.place? v j = some place →
    ∃ entry, t.term? place.row place.rowIndex = some entry ∧ entry.var = v ∧ entry.columnIndex = j
  distinct : ∀ {r i j a b}, t.term? r i = some a → t.term? r j = some b → a.var = b.var → i = j

theorem linked_empty (ratio : Nat) : (empty ratio).Linked where
  rows found := by simp [empty] at found
  columns found := by simp [empty] at found
  forth found := by simp [empty, term?] at found
  back found := by simp [empty, place?] at found
  distinct found := by simp [empty, term?] at found

/-- The variable and the coefficient at a position of a row. -/
def content (t : SparseTableau) (r : RowId) (i : Nat) : Option (Var × Rat) :=
  (t.term? r i).map fun entry => (entry.var, entry.coeff)

theorem content_eq_some_iff : t.content r i = some (v, c) ↔
    ∃ entry, t.term? r i = some entry ∧ entry.var = v ∧ entry.coeff = c := by
  simp only [content, Option.map_eq_some_iff, Prod.mk.injEq]

theorem Linked.distinct_content (linked : t.Linked) {d : Rat} (at_i : t.content r i = some (v, c))
    (at_j : t.content r j = some (v, d)) : i = j := by
  obtain ⟨a, at_i, var_a, -⟩ := content_eq_some_iff.1 at_i
  obtain ⟨b, at_j, var_b, -⟩ := content_eq_some_iff.1 at_j
  exact linked.distinct at_i at_j (var_a.trans var_b.symm)

theorem lt_of_content {slot : Var × Rat} (at_i : t.content r i = some slot) : r < t.rows.size := by
  by_contra beyond
  rw [content, term?, Array.getElem?_eq_none (Nat.not_lt.1 beyond)] at at_i
  cases at_i

/-- A variable that occurs exists. -/
theorem Linked.lt_of_content (linked : t.Linked) (at_i : t.content r i = some (v, c)) :
    v < t.columns.size := by
  obtain ⟨entry, found, rfl, -⟩ := content_eq_some_iff.1 at_i
  have paired := linked.forth found
  by_contra beyond
  rw [place?, Array.getElem?_eq_none (Nat.not_lt.1 beyond)] at paired
  cases paired

/-- The terms of a row, whatever their positions. -/
def Occurs (t : SparseTableau) (r : RowId) (v : Var) (c : Rat) : Prop :=
  ∃ i, t.content r i = some (v, c)

/-! ## Single changes -/

theorem term?_setRow (row : SparseRow) (lt : r < t.rows.size) (q : RowId) (k : Nat) :
    ({ t with rows := t.rows.setIfInBounds r row } : SparseTableau).term? q k =
      if q = r then row.slots.get? k else t.term? q k := by
  simp only [term?, Array.getElem?_setIfInBounds]
  by_cases same : r = q
  · rw [if_pos same, if_pos lt, if_pos same.symm]
    rfl
  · rw [if_neg same, if_neg (Ne.symm same)]

theorem place?_setColumn {column : Slots ColumnEntry} (lt : v < t.columns.size) (w : Var) (k : Nat) :
    ({ t with columns := t.columns.setIfInBounds v column } : SparseTableau).place? w k =
      if w = v then column.get? k else t.place? w k := by
  simp only [place?, Array.getElem?_setIfInBounds]
  by_cases same : v = w
  · rw [if_pos same, if_pos lt, if_pos same.symm]
    rfl
  · rw [if_neg same, if_neg (Ne.symm same)]

theorem term?_modifyTerm (t : SparseTableau) (r : RowId) (i : Nat) (change : RowEntry → RowEntry)
    (q : RowId) (k : Nat) : (t.modifyTerm r i change).term? q k =
      if q = r ∧ k = i then (t.term? r i).map change else t.term? q k := by
  simp only [term?, modifyTerm, Array.getElem?_modify]
  by_cases same : r = q
  · subst same
    cases t.rows[r]? with
    | none => simp
    | some row =>
      simp only [if_true, Option.map_some, Option.bind_some, Slots.get?_modify, true_and]
  · rw [if_neg same, if_neg fun both => same both.1.symm]

theorem place?_modifyPlace (t : SparseTableau) (v : Var) (i : Nat)
    (change : ColumnEntry → ColumnEntry) (w : Var) (k : Nat) :
    (t.modifyPlace v i change).place? w k =
      if w = v ∧ k = i then (t.place? v i).map change else t.place? w k := by
  simp only [place?, modifyPlace, Array.getElem?_modify]
  by_cases same : v = w
  · subst same
    cases t.columns[v]? with
    | none => simp
    | some column =>
      simp only [if_true, Option.map_some, Option.bind_some, Slots.get?_modify, true_and]
  · rw [if_neg same, if_neg fun both => same both.1.symm]

theorem getElem?_modify_eq_some {α : Type} {xs : Array α} {n m : Nat} {f : α → α} {a : α}
    (found : (xs.modify n f)[m]? = some a) : ∃ old, xs[m]? = some old ∧ (a = old ∨ a = f old) := by
  rw [Array.getElem?_modify] at found
  split at found
  · obtain ⟨old, at_m, rfl⟩ := Option.map_eq_some_iff.1 found
    exact ⟨old, at_m, .inr rfl⟩
  · exact ⟨a, found, .inl rfl⟩

theorem Tidy.modifyTerm (tidy : t.Tidy) (r : RowId) (i : Nat) (change : RowEntry → RowEntry) :
    (t.modifyTerm r i change).Tidy where
  rows found := by
    obtain ⟨row, at_r, rfl | rfl⟩ := getElem?_modify_eq_some found
    · exact tidy.rows at_r
    · exact (tidy.rows at_r).modify i change
  columns found := tidy.columns found

theorem Tidy.modifyPlace (tidy : t.Tidy) (v : Var) (i : Nat) (change : ColumnEntry → ColumnEntry) :
    (t.modifyPlace v i change).Tidy where
  rows found := tidy.rows found
  columns found := by
    obtain ⟨column, at_v, rfl | rfl⟩ := getElem?_modify_eq_some found
    · exact tidy.columns at_v
    · exact (tidy.columns at_v).modify i change

theorem Tidy.setRow (tidy : t.Tidy) {row : SparseRow} (well : row.slots.WellFormed) :
    ({ t with rows := t.rows.setIfInBounds r row } : SparseTableau).Tidy where
  rows {q other} found := by
    rw [Array.getElem?_setIfInBounds] at found
    split at found
    · split at found
      · cases found
        exact well
      · cases found
    · exact tidy.rows found
  columns found := tidy.columns found

theorem Tidy.setColumn (tidy : t.Tidy) {column : Slots ColumnEntry} (well : column.WellFormed) :
    ({ t with columns := t.columns.setIfInBounds v column } : SparseTableau).Tidy where
  rows found := tidy.rows found
  columns {w other} found := by
    rw [Array.getElem?_setIfInBounds] at found
    split at found
    · split at found
      · cases found
        exact well
      · cases found
    · exact tidy.columns found

/-! ## What stays -/

/-- The rows have the same bases and states, and the variables are the same. -/
structure SameFrame (t u : SparseTableau) : Prop where
  heads : u.rows.map (fun row => (row.base, row.pending)) =
    t.rows.map fun row => (row.base, row.pending)
  columns : u.columns.size = t.columns.size
  baseRow : u.baseRow = t.baseRow
  trail : u.trail = t.trail
  recording : u.recording = t.recording
  ratio : u.deadEntryRatio = t.deadEntryRatio

theorem SameFrame.refl (t : SparseTableau) : t.SameFrame t := ⟨rfl, rfl, rfl, rfl, rfl, rfl⟩

theorem SameFrame.trans {s : SparseTableau} (first : t.SameFrame u) (second : u.SameFrame s) :
    t.SameFrame s :=
  ⟨second.heads.trans first.heads, second.columns.trans first.columns,
    second.baseRow.trans first.baseRow, second.trail.trans first.trail,
    second.recording.trans first.recording, second.ratio.trans first.ratio⟩

theorem SameFrame.symm (frame : t.SameFrame u) : u.SameFrame t :=
  ⟨frame.heads.symm, frame.columns.symm, frame.baseRow.symm, frame.trail.symm,
    frame.recording.symm, frame.ratio.symm⟩

theorem SameFrame.size (frame : t.SameFrame u) : u.rows.size = t.rows.size := by
  simpa using congrArg Array.size frame.heads

/-- A row is still there, with the same base and in the same state. -/
theorem SameFrame.row (frame : t.SameFrame u) {row : SparseRow} (found : t.rows[r]? = some row) :
    ∃ later, u.rows[r]? = some later ∧ later.base = row.base ∧ later.pending = row.pending := by
  have at_r := congrArg (·[r]?) frame.heads
  simp only [Array.getElem?_map, found, Option.map_some, Option.map_eq_some_iff,
    Prod.mk.injEq] at at_r
  exact at_r

theorem heads_modify {rows : Array SparseRow} (change : SparseRow → SparseRow)
    (same : ∀ row, (change row).base = row.base ∧ (change row).pending = row.pending) :
    (rows.modify r change).map (fun row => (row.base, row.pending)) =
      rows.map fun row => (row.base, row.pending) := by
  refine Array.ext_getElem? fun q => ?_
  simp only [Array.getElem?_map, Array.getElem?_modify]
  split
  · cases rows[q]? with
    | none => rfl
    | some row => simp [same row]
  · rfl

theorem heads_set {rows : Array SparseRow} {row row' : SparseRow} (found : rows[r]? = some row)
    (same : row'.base = row.base ∧ row'.pending = row.pending) :
    (rows.setIfInBounds r row').map (fun row => (row.base, row.pending)) =
      rows.map fun row => (row.base, row.pending) := by
  refine Array.ext_getElem? fun q => ?_
  simp only [Array.getElem?_map, Array.getElem?_setIfInBounds]
  split
  · rename_i here
    rw [← here, found, if_pos (Array.getElem?_eq_some_iff.1 found).1]
    simp [same]
  · rfl

theorem frame_modifyTerm (t : SparseTableau) (r : RowId) (i : Nat)
    (change : RowEntry → RowEntry) : t.SameFrame (t.modifyTerm r i change) :=
  ⟨heads_modify (fun row => { row with slots := row.slots.modify i change }) fun _ => ⟨rfl, rfl⟩,
    rfl, rfl, rfl, rfl, rfl⟩

theorem frame_modifyPlace (t : SparseTableau) (v : Var) (i : Nat)
    (change : ColumnEntry → ColumnEntry) : t.SameFrame (t.modifyPlace v i change) :=
  ⟨rfl, Array.size_modify, rfl, rfl, rfl, rfl⟩

/-- At most the terms of one row are different. -/
structure Edits (t : SparseTableau) (r : RowId) (u : SparseTableau) : Prop where
  frame : t.SameFrame u
  others : ∀ q, q ≠ r → ∀ i, u.content q i = t.content q i

theorem Edits.refl (t : SparseTableau) (r : RowId) : t.Edits r t := ⟨.refl t, fun _ _ _ => rfl⟩

theorem Edits.trans {s : SparseTableau} (first : t.Edits r u) (second : u.Edits r s) :
    t.Edits r s :=
  ⟨first.frame.trans second.frame, fun q apart i =>
    (second.others q apart i).trans (first.others q apart i)⟩

/-- What lies at one position of a row is replaced, and nothing else changes. -/
structure Replaces (t : SparseTableau) (r : RowId) (i : Nat) (slot : Option (Var × Rat))
    (u : SparseTableau) : Prop where
  frame : t.SameFrame u
  contents : ∀ q k, u.content q k = if q = r ∧ k = i then slot else t.content q k

section

variable {slot : Option (Var × Rat)}

theorem Replaces.edits (replaces : t.Replaces r i slot u) : t.Edits r u where
  frame := replaces.frame
  others q apart k := by
    rw [replaces.contents, if_neg fun both => apart both.1]

theorem Replaces.trans {s : SparseTableau} {between : Option (Var × Rat)}
    (first : t.Replaces r i between u) (second : u.Replaces r i slot s) :
    t.Replaces r i slot s where
  frame := first.frame.trans second.frame
  contents q k := by
    rw [second.contents, first.contents]
    split <;> rfl

theorem Replaces.here (replaces : t.Replaces r i slot u) : u.content r i = slot := by
  rw [replaces.contents, if_pos ⟨rfl, rfl⟩]

theorem Replaces.elsewhere (replaces : t.Replaces r i slot u) (apart : k ≠ i) :
    u.content q k = t.content q k := by
  rw [replaces.contents, if_neg fun both => apart both.2]

end

end ArithDecide.SparseTableau
