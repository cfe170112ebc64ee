import ArithDecide.Proofs.Editing
import ArithDecide.Proofs.LinearForm

/-!
# What the stored terms mean

`SparseTableau.coeff` is the coefficient of a variable in the row that is stored. Where the links are
right it is that of the only term of the variable, and zero if there is none. The stored tableau is
determined by its bases and its coefficients (`SparseTableau.view_rows_eq`).
-/

namespace ArithDecide.SparseTableau

variable {t u : SparseTableau} {r q : RowId} {v w : Var} {i : Nat} {c d : Rat}

/-! ## Terms and coefficients -/

theorem occurs_iff : t.Occurs r v c ↔ ∃ row, t.rows[r]? = some row ∧ (v, c) ∈ row.terms := by
  simp only [Occurs, content_eq_some_iff, SparseRow.terms, List.mem_map, Prod.exists,
    Slots.mem_live, Prod.mk.injEq, term?, Option.bind_eq_some_iff]
  grind

/-- The coefficient of a variable in a row. -/
def coeff (t : SparseTableau) (r : RowId) (v : Var) : Rat :=
  ((t.rows[r]?).map fun row => row.view.form.coeff v).getD 0

theorem coeff_eq {row : SparseRow} (found : t.rows[r]? = some row) (v : Var) :
    t.coeff r v = row.view.form.coeff v := by
  rw [coeff, found]
  rfl

theorem Linked.nodup_terms (linked : t.Linked) {row : SparseRow} (found : t.rows[r]? = some row) :
    (row.terms.map Prod.fst).Nodup := by
  rw [SparseRow.terms, List.map_map, List.nodup_iff_pairwise_ne, List.pairwise_map]
  refine row.slots.increasing_live.imp_of_mem fun {x y} at_x at_y less same => ?_
  have in_row {slot : Nat × RowEntry} (member : slot ∈ row.slots.live) :
      t.term? r slot.1 = some slot.2 := by
    rw [term?, found]
    exact Slots.mem_live.1 member
  exact absurd (linked.distinct (in_row at_x) (in_row at_y) same) (Nat.ne_of_lt less)

theorem coeff_of_occurs (linked : t.Linked) (occurs : t.Occurs r v c) : t.coeff r v = c := by
  obtain ⟨row, found, member⟩ := occurs_iff.1 occurs
  rw [coeff_eq found]
  exact LinearForm.coeff_ofEntries_of_mem (linked.nodup_terms found) member

theorem coeff_of_absent (absent : ∀ c, ¬t.Occurs r v c) : t.coeff r v = 0 := by
  rw [coeff]
  cases found : t.rows[r]? with
  | none => rfl
  | some row =>
    refine LinearForm.coeff_ofEntries_of_absent fun term member same => ?_
    exact absent term.2 (occurs_iff.2 ⟨row, found, same ▸ member⟩)

/-- Every term has a coefficient that is not zero. -/
def Nonzero (t : SparseTableau) : Prop := ∀ r v c, t.Occurs r v c → c ≠ 0

/-- Where no term is zero, the coefficients tell the terms. -/
theorem occurs_iff_coeff (linked : t.Linked) (nonzero : t.Nonzero) :
    t.Occurs r v c ↔ t.coeff r v = c ∧ c ≠ 0 := by
  refine ⟨fun occurs => ⟨coeff_of_occurs linked occurs, nonzero r v c occurs⟩, ?_⟩
  rintro ⟨rfl, occurs⟩
  by_contra absent
  refine occurs (coeff_of_absent fun d present => absent ?_)
  rwa [coeff_of_occurs linked present]

theorem coeff_congr (linked : t.Linked) (linked' : u.Linked)
    (same : ∀ d, u.Occurs q w d ↔ t.Occurs r v d) : u.coeff q w = t.coeff r v := by
  by_cases present : ∃ d, t.Occurs r v d
  · obtain ⟨d, occurs⟩ := present
    rw [coeff_of_occurs linked occurs, coeff_of_occurs linked' ((same d).2 occurs)]
  · have absent : ∀ d, ¬t.Occurs r v d := fun d occurs => present ⟨d, occurs⟩
    rw [coeff_of_absent absent, coeff_of_absent fun d occurs => absent d ((same d).1 occurs)]

/-! ## Changes -/

theorem Edits.occurs (edits : t.Edits r u) (apart : q ≠ r) :
    u.Occurs q w d ↔ t.Occurs q w d := by
  simp only [Occurs, edits.others q apart]

theorem Edits.coeff (edits : t.Edits r u) (linked : t.Linked) (linked' : u.Linked)
    (apart : q ≠ r) (w : Var) : u.coeff q w = t.coeff q w :=
  coeff_congr linked linked' fun _ => edits.occurs apart

section

variable {slot : Option (Var × Rat)}

theorem Replaces.nonzero (replaces : t.Replaces r i slot u) (nonzero : t.Nonzero)
    (slot_nonzero : ∀ w d, slot = some (w, d) → d ≠ 0) : u.Nonzero := by
  rintro q w d ⟨k, at_k⟩
  rw [replaces.contents] at at_k
  split at at_k
  · exact slot_nonzero w d at_k
  · exact nonzero q w d ⟨k, at_k⟩

theorem Replaces.coeff_some (replaces : t.Replaces r i (some (v, c)) u) (linked' : u.Linked) :
    u.coeff r v = c :=
  coeff_of_occurs linked' ⟨i, replaces.here⟩

theorem Replaces.coeff_none (replaces : t.Replaces r i none u) (linked : t.Linked)
    (at_i : t.content r i = some (v, c)) : u.coeff r v = 0 := by
  refine coeff_of_absent fun d ⟨k, at_k⟩ => ?_
  rw [replaces.contents] at at_k
  split at at_k
  · cases at_k
  · rename_i apart
    exact apart ⟨rfl, linked.distinct_content at_k at_i⟩

/-- The coefficients of variables that neither the old nor the new term has stay. -/
theorem Replaces.coeff_of_ne (replaces : t.Replaces r i slot u) (linked : t.Linked)
    (linked' : u.Linked) (before : ∀ d, t.content r i ≠ some (w, d))
    (after : ∀ d, slot ≠ some (w, d)) : u.coeff r w = t.coeff r w := by
  refine coeff_congr linked linked' fun d => exists_congr fun k => ?_
  rw [replaces.contents]
  split
  · rename_i here
    rw [here.2]
    exact ⟨fun same => absurd same (after d), fun same => absurd same (before d)⟩
  · exact Iff.rfl

/-- A removed term leaves no coefficient of its variable. -/
theorem Replaces.coeff_removed (replaces : t.Replaces r i none u) (linked : t.Linked)
    (linked' : u.Linked) (at_i : t.content r i = some (v, c)) (w : Var) :
    u.coeff r w = if v = w then 0 else t.coeff r w := by
  split
  · rename_i same
    rw [← same, replaces.coeff_none linked at_i]
  · rename_i apart
    refine replaces.coeff_of_ne linked linked' (fun d same => ?_) nofun
    rw [at_i] at same
    cases same
    exact apart rfl

/-- A term of a variable that the row did not have adds its coefficient. -/
theorem Replaces.coeff_added (replaces : t.Replaces r i (some (v, c)) u) (linked : t.Linked)
    (linked' : u.Linked) (free : t.content r i = none) (absent : ∀ d, ¬t.Occurs r v d) (w : Var) :
    u.coeff r w = t.coeff r w + if v = w then c else 0 := by
  split
  · rename_i same
    rw [← same, replaces.coeff_some linked', coeff_of_absent absent, zero_add]
  · rename_i apart
    rw [add_zero]
    refine replaces.coeff_of_ne linked linked' (fun d => by rw [free]; nofun) fun d same => ?_
    cases same
    exact apart rfl

end

/-! ## The stored tableau -/

theorem view_get? (t : SparseTableau) (r : RowId) :
    t.view.get? r = (t.rows[r]?).map SparseRow.view := by
  rw [Tableau.get?, view, Array.getElem?_map]

/-- A tableau with the right bases and coefficients is the stored one. -/
theorem view_rows_eq {rows : Array Row}
    (heads : t.rows.map (fun row => (row.base, row.pending)) =
      rows.map fun row => (row.base, row.pending))
    (coeff : ∀ r row, rows[r]? = some row → ∀ v, t.coeff r v = row.form.coeff v) :
    t.view.rows = rows := by
  refine Array.ext_getElem? fun r => ?_
  have at_r := congrArg (·[r]?) heads
  simp only [Array.getElem?_map] at at_r
  simp only [view, Array.getElem?_map]
  cases found : rows[r]? with
  | none =>
    rw [found] at at_r
    rw [Option.map_eq_none_iff.1 at_r]
    rfl
  | some row =>
    rw [found] at at_r
    obtain ⟨stored, found', same⟩ := Option.map_eq_some_iff.1 at_r
    rw [found', Option.map_some, Option.some.injEq]
    have same_form : stored.view.form = row.form := LinearForm.ext_coeff fun v => by
      rw [← coeff_eq found', coeff r row found]
    obtain ⟨base, pending⟩ := Prod.mk.inj same
    cases row
    simp only [SparseRow.view] at same_form ⊢
    rw [same_form]
    simp only at base pending
    rw [base, pending]

end ArithDecide.SparseTableau
