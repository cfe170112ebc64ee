import ArithDecide.Proofs.Compacting

/-!
# Adding and removing terms keeps the links

A term is added where none was, together with its column entry (`SparseTableau.insertTerm_keeps`), and
removed together with it (`SparseTableau.removeTerm_keeps`). No other term moves. A change of coefficients
only keeps the links too.
-/

namespace ArithDecide.SparseTableau

variable {t u : SparseTableau} {r q : RowId} {v w : Var} {i j k : Nat} {c : Rat}

/-! ## Adding a term -/

theorem term?_insert {row : SparseRow} (at_r : t.rows[r]? = some row)
    (well : row.slots.WellFormed) (entry : RowEntry) (q : RowId) (k : Nat) :
    ({ t with rows := t.rows.setIfInBounds r { row with slots := (row.slots.insert entry).2 } } :
        SparseTableau).term? q k =
      if q = r ∧ k = (row.slots.insert entry).1 then some entry else t.term? q k := by
  rw [term?_setRow _ (Array.getElem?_eq_some_iff.1 at_r).1, Slots.get?_insert well]
  by_cases same : q = r
  · subst same
    rw [if_pos rfl, term?, at_r]
    grind
  · rw [if_neg same, if_neg fun both => same both.1]

theorem place?_insert {column : Slots ColumnEntry} (at_v : t.columns[v]? = some column)
    (well : column.WellFormed) (place : ColumnEntry) (w : Var) (k : Nat) :
    ({ t with columns := t.columns.setIfInBounds v (column.insert place).2 } :
        SparseTableau).place? w k =
      if w = v ∧ k = (column.insert place).1 then some place else t.place? w k := by
  rw [place?_setColumn (Array.getElem?_eq_some_iff.1 at_v).1, Slots.get?_insert well]
  by_cases same : w = v
  · subst same
    rw [if_pos rfl, place?, at_v]
    grind
  · rw [if_neg same, if_neg fun both => same both.1]

theorem insertTerm_eq {row : SparseRow} {column : Slots ColumnEntry}
    (at_r : t.rows[r]? = some row) (at_v : t.columns[v]? = some column) (c : Rat) :
    t.insertTerm r v c =
      let stored := row.slots.insert ⟨v, c, 0⟩
      let placed := column.insert ⟨r, stored.1⟩
      (stored.1, ({ t with
        rows := t.rows.setIfInBounds r { row with slots := stored.2 }
        columns := t.columns.setIfInBounds v placed.2 } : SparseTableau).modifyTerm r stored.1
          fun entry => { entry with columnIndex := placed.1 }) := by
  rw [insertTerm, at_r, at_v]

/-- An added term and its column entry lie where none was and know each other. -/
theorem insertTerm_entries (tidy : t.Tidy) (r_lt : r < t.rows.size) (v_lt : v < t.columns.size)
    (c : Rat) :
    ∃ p n u, t.insertTerm r v c = (p, u) ∧ u.Tidy ∧ t.SameFrame u ∧
      t.term? r p = none ∧ t.place? v n = none ∧
      (∀ q k, u.term? q k = if q = r ∧ k = p then some ⟨v, c, n⟩ else t.term? q k) ∧
      ∀ w k, u.place? w k = if w = v ∧ k = n then some ⟨r, p⟩ else t.place? w k := by
  obtain ⟨row, at_r⟩ : ∃ row, t.rows[r]? = some row := ⟨_, Array.getElem?_eq_getElem r_lt⟩
  obtain ⟨column, at_v⟩ : ∃ column, t.columns[v]? = some column := ⟨_, Array.getElem?_eq_getElem v_lt⟩
  have row_well := tidy.rows at_r
  have column_well := tidy.columns at_v
  refine ⟨_, _, _, insertTerm_eq at_r at_v c, ?_, ?_, ?_, ?_, fun q k => ?_,
    fun w k => (place?_insert at_v column_well ⟨r, _⟩ w k)⟩
  · exact ((tidy.setRow (row_well.insert _)).setColumn (column_well.insert _)).modifyTerm ..
  · exact ⟨(heads_modify (fun row => { row with slots := row.slots.modify _ _ })
      fun _ => ⟨rfl, rfl⟩).trans (heads_set at_r ⟨rfl, rfl⟩), Array.size_setIfInBounds .., rfl, rfl,
      rfl, rfl⟩
  · rw [term?, at_r]
    exact Slots.get?_insert_fresh row_well
  · rw [place?, at_v]
    exact Slots.get?_insert_fresh column_well
  · have stored := term?_insert at_r row_well ⟨v, c, 0⟩
    refine (term?_modifyTerm ..).trans ?_
    split
    · exact congrArg (Option.map _) ((stored ..).trans (if_pos ⟨rfl, rfl⟩))
    · rename_i apart
      exact (stored q k).trans (if_neg apart)

/-- A term and its column entry, added where none was, know each other. -/
theorem Linked.of_added (linked : t.Linked) (tidy : u.Tidy) {p n : Nat}
    (no_term : t.term? r p = none) (no_place : t.place? v n = none)
    (absent : ∀ d, ¬t.Occurs r v d)
    (terms : ∀ q k, u.term? q k = if q = r ∧ k = p then some ⟨v, c, n⟩ else t.term? q k)
    (places : ∀ w k, u.place? w k = if w = v ∧ k = n then some ⟨r, p⟩ else t.place? w k) :
    u.Linked where
  toTidy := tidy
  forth {q k entry} at_k := by
    rw [terms] at at_k
    rw [places]
    split at at_k
    · rename_i here
      cases at_k
      rw [if_pos ⟨rfl, rfl⟩, here.1, here.2]
    · have paired := linked.forth at_k
      rw [if_neg, paired]
      rintro ⟨var, index⟩
      rw [var, index, no_place] at paired
      cases paired
  back {w k place} at_k := by
    rw [places] at at_k
    split at at_k
    · rename_i here
      cases at_k
      exact ⟨_, (terms ..).trans (if_pos ⟨rfl, rfl⟩), here.1.symm, here.2.symm⟩
    · obtain ⟨entry, at_place, var, index⟩ := linked.back at_k
      refine ⟨entry, ?_, var, index⟩
      rw [terms, if_neg, at_place]
      rintro ⟨row, position⟩
      rw [row, position, no_term] at at_place
      cases at_place
  distinct {q k l a b} at_k at_l same := by
    have fresh {k : Nat} {entry : RowEntry} (at_k : t.term? r k = some entry) : entry.var ≠ v :=
      fun same => absent entry.coeff ⟨k, content_eq_some_iff.2 ⟨entry, at_k, same, rfl⟩⟩
    rw [terms] at at_k at_l
    split at at_k <;> split at at_l
    · rename_i here there
      exact here.2.trans there.2.symm
    · rename_i here _
      cases at_k
      exact absurd same.symm (fresh (here.1 ▸ at_l))
    · rename_i _ there
      cases at_l
      exact absurd same (fresh (there.1 ▸ at_k))
    · exact linked.distinct at_k at_l same

/-- Adding a term of a variable that the row does not have. -/
theorem insertTerm_keeps (linked : t.Linked) (r_lt : r < t.rows.size) (v_lt : v < t.columns.size)
    (absent : ∀ d, ¬t.Occurs r v d) (c : Rat) :
    ∃ p u, t.insertTerm r v c = (p, u) ∧ u.Linked ∧ t.content r p = none ∧
      t.Replaces r p (some (v, c)) u := by
  obtain ⟨p, n, u, inserted, tidy, frame, no_term, no_place, terms, places⟩ :=
    insertTerm_entries linked.toTidy r_lt v_lt c
  refine ⟨p, u, inserted, linked.of_added tidy no_term no_place absent terms places, ?_, frame,
    fun q k => ?_⟩
  · rw [content, no_term]
    rfl
  · rw [content, terms]
    split <;> rfl

/-! ## Removing a term -/

/-- The tableau without a term and its column entry. -/
def killTerm (t : SparseTableau) (r : RowId) (i : Nat) (entry : RowEntry) : SparseTableau :=
  { t with
    rows := t.rows.modify r fun row => { row with slots := row.slots.kill i }
    columns := t.columns.modify entry.var fun column => column.kill entry.columnIndex }

theorem term?_killTerm (t : SparseTableau) (r : RowId) (i : Nat) (entry : RowEntry) (q : RowId)
    (k : Nat) :
    (t.killTerm r i entry).term? q k = if q = r ∧ k = i then none else t.term? q k := by
  simp only [killTerm, term?, Array.getElem?_modify]
  by_cases same : r = q
  · subst same
    cases t.rows[r]? with
    | none => simp
    | some row => simp [Slots.get?_kill]
  · rw [if_neg same, if_neg fun both => same both.1.symm]

theorem place?_killTerm (t : SparseTableau) (r : RowId) (i : Nat) (entry : RowEntry) (w : Var)
    (k : Nat) : (t.killTerm r i entry).place? w k =
      if w = entry.var ∧ k = entry.columnIndex then none else t.place? w k := by
  simp only [killTerm, place?, Array.getElem?_modify]
  by_cases same : entry.var = w
  · subst same
    cases t.columns[entry.var]? with
    | none => simp
    | some column => simp [Slots.get?_kill]
  · rw [if_neg same, if_neg fun both => same both.1.symm]

theorem frame_killTerm (t : SparseTableau) (r : RowId) (i : Nat) (entry : RowEntry) :
    t.SameFrame (t.killTerm r i entry) :=
  ⟨heads_modify (fun row => { row with slots := row.slots.kill i }) fun _ => ⟨rfl, rfl⟩,
    Array.size_modify, rfl, rfl, rfl, rfl⟩

/-- Taking out a term together with its column entry keeps the others paired. -/
theorem Linked.killTerm (linked : t.Linked) {entry : RowEntry} (at_i : t.term? r i = some entry) :
    (t.killTerm r i entry).Linked where
  rows found := by
    obtain ⟨row, at_r, rfl | rfl⟩ := getElem?_modify_eq_some found
    · exact linked.rows at_r
    · exact (linked.rows at_r).kill i
  columns found := by
    obtain ⟨column, at_v, rfl | rfl⟩ := getElem?_modify_eq_some found
    · exact linked.columns at_v
    · exact (linked.columns at_v).kill entry.columnIndex
  forth {q k other} at_k := by
    rw [term?_killTerm] at at_k
    split at at_k
    · cases at_k
    · rename_i apart
      rw [place?_killTerm, if_neg, linked.forth at_k]
      rintro ⟨var, index⟩
      have paired := linked.forth at_k
      rw [var, index, linked.forth at_i] at paired
      cases paired
      exact apart ⟨rfl, rfl⟩
  back {w k place} at_k := by
    rw [place?_killTerm] at at_k
    split at at_k
    · cases at_k
    · rename_i apart
      obtain ⟨other, at_place, rfl, rfl⟩ := linked.back at_k
      refine ⟨other, ?_, rfl, rfl⟩
      rw [term?_killTerm, if_neg, at_place]
      rintro ⟨row, position⟩
      rw [row, position, at_i] at at_place
      cases at_place
      exact apart ⟨rfl, rfl⟩
  distinct {q k l a b} at_k at_l same := by
    rw [term?_killTerm] at at_k at_l
    split at at_k
    · cases at_k
    · split at at_l
      · cases at_l
      · exact linked.distinct at_k at_l same

theorem removeTerm_keeps (linked : t.Linked) (at_i : t.content r i = some (v, c)) :
    ∃ u, t.removeTerm r i = (c, u) ∧ u.Linked ∧ t.Replaces r i none u := by
  obtain ⟨entry, found, rfl, rfl⟩ := content_eq_some_iff.1 at_i
  obtain ⟨compacted, frame, contents⟩ :=
    compactColumn_keeps (linked.killTerm found) entry.var
  refine ⟨(t.killTerm r i entry).compactColumn entry.var, ?_, compacted,
    (frame_killTerm ..).trans frame, fun q k => ?_⟩
  · rw [removeTerm, found]
    rfl
  · rw [contents, content, term?_killTerm]
    split <;> rfl

/-! ## Changing coefficients -/

/-- Where variables and links stay, the links are right. -/
theorem Linked.of_changed (linked : t.Linked) (tidy : u.Tidy)
    (change : RowId → Nat → RowEntry → RowEntry)
    (same : ∀ q k entry, (change q k entry).var = entry.var ∧
      (change q k entry).columnIndex = entry.columnIndex)
    (terms : ∀ q k, u.term? q k = (t.term? q k).map (change q k))
    (places : ∀ w k, u.place? w k = t.place? w k) : u.Linked where
  toTidy := tidy
  forth {q k entry} at_k := by
    rw [terms] at at_k
    obtain ⟨old, at_old, rfl⟩ := Option.map_eq_some_iff.1 at_k
    rw [places, (same q k old).1, (same q k old).2]
    exact linked.forth at_old
  back {w k place} at_k := by
    rw [places] at at_k
    obtain ⟨entry, at_place, var, index⟩ := linked.back at_k
    have kept := same place.row place.rowIndex entry
    exact ⟨_, by rw [terms, at_place]; rfl, kept.1.trans var, kept.2.trans index⟩
  distinct {q k l a b} at_k at_l var := by
    rw [terms] at at_k at_l
    obtain ⟨a, at_a, rfl⟩ := Option.map_eq_some_iff.1 at_k
    obtain ⟨b, at_b, rfl⟩ := Option.map_eq_some_iff.1 at_l
    rw [(same q k a).1, (same q l b).1] at var
    exact linked.distinct at_a at_b var

theorem Linked.addToCoeff (linked : t.Linked) (r : RowId) (i : Nat) (d : Rat) :
    (t.modifyTerm r i fun entry => { entry with coeff := entry.coeff + d }).Linked := by
  refine linked.of_changed (linked.toTidy.modifyTerm ..)
    (fun q k entry =>
      if q = r ∧ k = i then { entry with coeff := entry.coeff + d } else entry)
    (fun q k entry => by split <;> exact ⟨rfl, rfl⟩) (fun q k => ?_) fun _ _ => rfl
  rw [term?_modifyTerm]
  split
  · rename_i here
    rw [here.1, here.2]
  · simp

theorem addToCoeff_replaces {entry : RowEntry} (at_i : t.term? r i = some entry) (d : Rat) :
    t.Replaces r i (some (entry.var, entry.coeff + d))
      (t.modifyTerm r i fun entry => { entry with coeff := entry.coeff + d }) where
  frame := frame_modifyTerm ..
  contents q k := by
    rw [content, term?_modifyTerm]
    split
    · rw [at_i]
      rfl
    · rfl

end ArithDecide.SparseTableau
