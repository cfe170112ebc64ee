import ArithDecide.Proofs.Consistency

/-!
# The store pivots as the tableau does

`SparseTableau.pivotRow` solves a row for one of its variables and replaces this variable in all rows that
its column names. The targets are collected before the first of them is changed; that they stay where
they are follows from `SparseTableau.Edits`: replacing in one row moves no term of another. What is
stored in the end is `Tableau.pivotRows` (`SparseTableau.pivotRow_keeps`).
-/

namespace ArithDecide.SparseTableau

variable {t u : SparseTableau} {r q : RowId} {v w entering : Var} {i k n : Nat} {c d factor : Rat}

/-! ## Solving the row -/

theorem content_of_positionOf? {row : SparseRow} (found : t.rows[r]? = some row)
    (at_i : row.positionOf? v = some i) : ∃ c, t.content r i = some (v, c) := by
  obtain ⟨slot, first, rfl⟩ := Option.map_eq_some_iff.1 at_i
  have same := List.find?_some (p := fun slot : Nat × RowEntry => slot.2.var == v) first
  refine ⟨slot.2.coeff, content_eq_some_iff.2 ⟨slot.2, ?_, eq_of_beq same, rfl⟩⟩
  rw [term?, found]
  exact Slots.mem_live.1 (List.mem_of_find?_eq_some first)

theorem positionOf?_of_occurs (occurs : t.Occurs r v c) {row : SparseRow}
    (found : t.rows[r]? = some row) : ∃ i, row.positionOf? v = some i := by
  obtain ⟨k, at_k⟩ := occurs
  obtain ⟨entry, at_entry, rfl, -⟩ := content_eq_some_iff.1 at_k
  rw [term?, found] at at_entry
  cases first : row.slots.live.find? fun slot => slot.2.var == entry.var with
  | none =>
    have other := List.find?_eq_none.1 first _ (Slots.mem_live.2 at_entry)
    exact absurd (beq_self_eq_true _) other
  | some slot => exact ⟨slot.1, by rw [SparseRow.positionOf?, first]; rfl⟩

/-- The store with the terms of a row multiplied by a factor. -/
def scaleRow (t : SparseTableau) (r : RowId) (factor : Rat) : SparseTableau :=
  { t with rows := t.rows.modify r fun row =>
    { row with slots := row.slots.map fun entry => { entry with coeff := entry.coeff * factor } } }

theorem term?_scaleRow (t : SparseTableau) (r : RowId) (factor : Rat) (q : RowId) (k : Nat) :
    (t.scaleRow r factor).term? q k = (t.term? q k).map fun entry =>
      if q = r then { entry with coeff := entry.coeff * factor } else entry := by
  simp only [term?, scaleRow, Array.getElem?_modify]
  by_cases same : r = q
  · subst same
    cases t.rows[r]? with
    | none => simp
    | some row => simp [Slots.get?_map]
  · rw [if_neg same]
    simp [Ne.symm same]

theorem Linked.scaleRow (linked : t.Linked) (r : RowId) (factor : Rat) :
    (t.scaleRow r factor).Linked := by
  refine linked.of_changed ⟨fun {q row} found => ?_, linked.columns⟩
    (fun q _ entry => if q = r then { entry with coeff := entry.coeff * factor } else entry)
    (fun q _ entry => by split <;> exact ⟨rfl, rfl⟩) (term?_scaleRow t r factor) fun _ _ => rfl
  obtain ⟨old, at_q, rfl | rfl⟩ := getElem?_modify_eq_some found
  · exact linked.rows at_q
  · exact (linked.rows at_q).map _

theorem frame_scaleRow (t : SparseTableau) (r : RowId) (factor : Rat) :
    t.SameFrame (t.scaleRow r factor) :=
  ⟨heads_modify (fun row => { row with slots := row.slots.map _ }) fun _ => ⟨rfl, rfl⟩, rfl, rfl,
    rfl, rfl, rfl⟩

theorem content_scaleRow (t : SparseTableau) (r : RowId) (factor : Rat) (q : RowId) (k : Nat) :
    (t.scaleRow r factor).content q k = (t.content q k).map fun term =>
      if q = r then (term.1, term.2 * factor) else term := by
  rw [content, term?_scaleRow, content, Option.map_map, Option.map_map]
  refine congrArg (Option.map · _) (funext fun entry => ?_)
  simp only [Function.comp_apply]
  split <;> rfl

theorem edits_scaleRow (t : SparseTableau) (r : RowId) (factor : Rat) :
    t.Edits r (t.scaleRow r factor) where
  frame := frame_scaleRow t r factor
  others q apart k := by
    rw [content_scaleRow]
    simp [apart]

theorem nonzero_scaleRow (nonzero : t.Nonzero) (factor_ne : factor ≠ 0) :
    (t.scaleRow r factor).Nonzero := by
  rintro q v c ⟨k, at_k⟩
  rw [content_scaleRow] at at_k
  obtain ⟨⟨w, d⟩, at_k, same⟩ := Option.map_eq_some_iff.1 at_k
  have d_ne := nonzero q w d ⟨k, at_k⟩
  split at same
  · cases same
    exact mul_ne_zero d_ne factor_ne
  · cases same
    exact d_ne

/-- Scaling a row scales each of its coefficients. -/
theorem coeff_scaleRow (linked : t.Linked) (r : RowId) (factor : Rat) (w : Var) :
    (t.scaleRow r factor).coeff r w = t.coeff r w * factor := by
  by_cases present : ∃ d, t.Occurs r w d
  · obtain ⟨d, k, at_k⟩ := present
    rw [coeff_of_occurs linked ⟨k, at_k⟩]
    refine coeff_of_occurs (linked.scaleRow r factor) ⟨k, ?_⟩
    rw [content_scaleRow, at_k]
    simp
  · have absent : ∀ d, ¬t.Occurs r w d := fun d occurs => present ⟨d, occurs⟩
    rw [coeff_of_absent absent, zero_mul]
    refine coeff_of_absent fun d ⟨k, at_k⟩ => ?_
    rw [content_scaleRow] at at_k
    obtain ⟨⟨x, e⟩, old, same⟩ := Option.map_eq_some_iff.1 at_k
    rw [if_pos rfl] at same
    cases same
    exact absent e ⟨k, old⟩

/-- The terms of the row after it was solved for a variable. -/
def solveRow (t : SparseTableau) (r : RowId) (i : Nat) (base : Var) : SparseTableau :=
  ((((t.removeTerm r i).2).scaleRow r (-(1 / (t.removeTerm r i).1))).insertTerm r base
    (1 / (t.removeTerm r i).1)).2

/-- The row holds the terms that the tableau computes, and no other row is touched. -/
theorem solveRow_keeps (linked : t.Linked) (nonzero : t.Nonzero) {row : Row}
    (found : t.view.get? r = some row) (at_i : t.content r i = some (entering, c))
    (own : row.form.coeff row.base = 0) (base_lt : row.base < t.columns.size) :
    (t.solveRow r i row.base).Linked ∧ (t.solveRow r i row.base).Nonzero ∧
      t.Edits r (t.solveRow r i row.base) ∧
      ∀ w, (t.solveRow r i row.base).coeff r w = (row.solveFor entering).form.coeff w := by
  obtain ⟨removed, removed_eq, linked₁, emptied⟩ := removeTerm_keeps linked at_i
  have c_ne : c ≠ 0 := nonzero r entering c ⟨i, at_i⟩
  have inverse_ne : 1 / c ≠ 0 := one_div_ne_zero c_ne
  have linked₂ := linked₁.scaleRow r (-(1 / c))
  have edits₂ := emptied.edits.trans (edits_scaleRow removed r (-(1 / c)))
  have nonzero₂ : (removed.scaleRow r (-(1 / c))).Nonzero :=
    nonzero_scaleRow (emptied.nonzero nonzero nofun) (neg_ne_zero.2 inverse_ne)
  have coeff₂ (w : Var) : (removed.scaleRow r (-(1 / c))).coeff r w =
      (if entering = w then 0 else t.coeff r w) * -(1 / c) := by
    rw [coeff_scaleRow linked₁, emptied.coeff_removed linked linked₁ at_i]
  have absent (d : Rat) : ¬(removed.scaleRow r (-(1 / c))).Occurs r row.base d := by
    intro occurs
    refine nonzero₂ r row.base d occurs ?_
    rw [← coeff_of_occurs linked₂ occurs, coeff₂, ← coeff_view found, own, ite_self, zero_mul]
  obtain ⟨p, solved, inserted, linked₃, free, replaces⟩ :=
    insertTerm_keeps linked₂ (by rw [edits₂.frame.size]; exact lt_of_content at_i)
      (by rwa [edits₂.frame.columns]) absent (1 / c)
  have solved_eq : t.solveRow r i row.base = solved := by
    rw [solveRow, removed_eq, inserted]
  rw [solved_eq]
  refine ⟨linked₃, ?_, edits₂.trans replaces.edits, fun w => ?_⟩
  · refine replaces.nonzero nonzero₂ fun w d same => ?_
    cases same
    exact inverse_ne
  · have occurs : row.form.coeff entering = c := by
      rw [coeff_view found, coeff_of_occurs linked ⟨i, at_i⟩]
    rw [replaces.coeff_added linked₂ linked₃ free absent, coeff₂, Row.coeff_solveFor, occurs,
      coeff_view found, ite_mul, zero_mul, mul_comm]

/-! ## Exchanging the base -/

/-- The store with another base of a row. -/
def exchangeBase (t : SparseTableau) (r : RowId) (leaving entering : Var) : SparseTableau :=
  { t with
    rows := t.rows.modify r fun row => { row with base := entering }
    baseRow := (t.baseRow.setIfInBounds leaving none).setIfInBounds entering (some r) }

theorem term?_exchangeBase (t : SparseTableau) (r : RowId) (leaving entering : Var) (q : RowId)
    (k : Nat) : (t.exchangeBase r leaving entering).term? q k = t.term? q k := by
  simp only [term?, exchangeBase, Array.getElem?_modify]
  split
  · cases t.rows[q]? <;> rfl
  · rfl

theorem tidy_exchangeBase (tidy : t.Tidy) (r : RowId) (leaving entering : Var) :
    (t.exchangeBase r leaving entering).Tidy := by
  refine ⟨fun {q row} found => ?_, tidy.columns⟩
  obtain ⟨old, at_q, rfl | rfl⟩ := getElem?_modify_eq_some found
  · exact tidy.rows at_q
  · exact (tidy.rows at_q :)

theorem rowOf?_exchangeBase {leaving : Var} (entering_lt : entering < t.baseRow.size) (v : Var) :
    (t.exchangeBase r leaving entering).rowOf? v =
      if v = entering then some r else if v = leaving then none else t.rowOf? v := by
  simp only [rowOf?, exchangeBase, Array.getElem?_setIfInBounds, Array.size_setIfInBounds]
  by_cases enters : entering = v
  · rw [if_pos enters, if_pos entering_lt, if_pos enters.symm]
    rfl
  · rw [if_neg enters, if_neg (Ne.symm enters)]
    by_cases leaves : leaving = v
    · rw [if_pos leaves, if_pos leaves.symm]
      split <;> rfl
    · rw [if_neg leaves, if_neg (Ne.symm leaves)]

/-- Once the terms are as they should be, naming the entering variable as the base of the row makes the
store consistent again: only the two variables of the exchange change which row they head. -/
theorem consistent_exchangeBase {s : SparseTableau} {row : SparseRow} (consistent : t.Consistent)
    (frame : t.SameFrame s) (linked : s.Linked) (nonzero : s.Nonzero)
    (found : t.rows[r]? = some row) (entering_lt : entering < t.numVars)
    (free : t.rowOf? entering = none) : (s.exchangeBase r row.base entering).Consistent := by
  have rowOf (v : Var) : s.rowOf? v = t.rowOf? v := by rw [rowOf?, rowOf?, frame.baseRow]
  have heads_r := consistent.heads found
  have later : (s.exchangeBase r row.base entering).rowOf? = fun v =>
      if v = entering then some r else if v = row.base then none else t.rowOf? v := by
    funext v
    rw [rowOf?_exchangeBase, rowOf]
    rw [frame.baseRow, consistent.sizes]
    exact entering_lt
  refine { toLinked := linked.of_same (tidy_exchangeBase linked.toTidy r _ _)
             (term?_exchangeBase s r _ _) (fun _ _ => rfl),
           nonzero := ?_, heads := ?_, headed := ?_, sizes := ?_ }
  · intro q v c occurs
    simp only [Occurs, content, term?_exchangeBase] at occurs
    exact nonzero q v c occurs
  · intro q other at_q
    rw [later]
    rw [exchangeBase, Array.getElem?_modify] at at_q
    split at at_q
    · rename_i here
      obtain ⟨old, -, rfl⟩ := Option.map_eq_some_iff.1 at_q
      simp only [if_true, here]
    · rename_i apart
      obtain ⟨old, old_at, base, -⟩ := frame.symm.row at_q
      have heads := consistent.heads old_at
      have enters : old.base ≠ entering := fun same => by
        rw [same, free] at heads
        cases heads
      have leaves : old.base ≠ row.base := fun same => by
        rw [same, heads_r] at heads
        cases heads
        exact apart rfl
      simp only [← base, if_neg enters, if_neg leaves, heads]
  · intro v q heads
    rw [later] at heads
    simp only at heads
    rw [exchangeBase, Array.getElem?_modify]
    split at heads
    · rename_i enters
      cases heads
      obtain ⟨old, old_at, -⟩ := frame.row found
      rw [if_pos rfl, old_at]
      exact ⟨_, rfl, enters.symm⟩
    · split at heads
      · cases heads
      · rename_i stays
        obtain ⟨old, old_at, rfl⟩ := consistent.headed heads
        obtain ⟨other, at_q, base, -⟩ := frame.row old_at
        have apart : r ≠ q := by
          rintro rfl
          rw [found] at old_at
          cases old_at
          exact stays rfl
        rw [if_neg apart]
        exact ⟨other, at_q, base⟩
  · rw [exchangeBase, Array.size_setIfInBounds, Array.size_setIfInBounds, frame.baseRow,
      frame.columns]
    exact consistent.sizes

/-! ## Replacing the variable in the other rows -/

/-- The variable is replaced in all rows that are given, each by the position of its term. -/
theorem substituteAll_keeps {targets : List (Nat × ColumnEntry)} (linked : t.Linked)
    (nonzero : t.Nonzero) (r_lt : r < t.rows.size) (own : t.coeff r v = 0)
    (present : ∀ target ∈ targets, ∃ c, t.content target.2.row target.2.rowIndex = some (v, c))
    (apart : ∀ target ∈ targets, r ≠ target.2.row)
    (distinct : (targets.map fun target => target.2.row).Nodup) :
    ∃ u, targets.foldl (fun t target => t.substitute target.2.row target.2.rowIndex r) t = u ∧
      u.Linked ∧ u.Nonzero ∧ t.SameFrame u ∧ ∀ q w, u.coeff q w =
        if q ∈ targets.map fun target => target.2.row then
          (if v = w then 0 else t.coeff q w) + t.coeff q v * t.coeff r w
        else t.coeff q w := by
  induction targets generalizing t with
  | nil => exact ⟨t, rfl, linked, nonzero, .refl t, fun q w => (if_neg List.not_mem_nil).symm⟩
  | cons first rest ih =>
    obtain ⟨c, at_first⟩ := present first List.mem_cons_self
    obtain ⟨absent, distinct⟩ := List.nodup_cons.1 distinct
    have first_apart := apart first List.mem_cons_self
    obtain ⟨linked₁, nonzero₁, edits, coeff⟩ :=
      substitute_keeps linked nonzero at_first first_apart r_lt
    have others {q : RowId} (ne : q ≠ first.2.row) (w : Var) :=
      edits.coeff linked linked₁ ne w
    obtain ⟨u, done, linked₂, nonzero₂, frame, coeff'⟩ := ih linked₁ nonzero₁
      (by rwa [edits.frame.size]) ((others first_apart v).trans own)
      (fun target member => by
        have ne : target.2.row ≠ first.2.row := fun same =>
          absent (List.mem_map.2 ⟨target, member, same⟩)
        rw [edits.others _ ne]
        exact present target (List.mem_cons_of_mem _ member))
      (fun target member => apart target (List.mem_cons_of_mem _ member)) distinct
    refine ⟨u, done, linked₂, nonzero₂, edits.frame.trans frame, fun q w => ?_⟩
    rw [coeff', List.map_cons]
    by_cases same : q = first.2.row
    · subst same
      rw [if_neg absent, if_pos List.mem_cons_self, coeff, coeff_of_occurs linked ⟨_, at_first⟩]
    · simp only [List.mem_cons, same, false_or, others same, others first_apart]

/-- The places of the terms of a variable. -/
def targets (t : SparseTableau) (v : Var) : List (Nat × ColumnEntry) :=
  ((t.columns[v]?).map Slots.live).getD []

theorem mem_targets {target : Nat × ColumnEntry} :
    target ∈ t.targets v ↔ t.place? v target.1 = some target.2 := by
  rw [targets, place?]
  cases t.columns[v]? with
  | none => simp
  | some column => exact Slots.mem_live

/-- Every target is the place of a term of the variable. -/
theorem Linked.content_of_target (linked : t.Linked) {target : Nat × ColumnEntry}
    (member : target ∈ t.targets v) :
    ∃ c, t.content target.2.row target.2.rowIndex = some (v, c) := by
  obtain ⟨entry, at_place, var, -⟩ := linked.back (mem_targets.1 member)
  exact ⟨entry.coeff, content_eq_some_iff.2 ⟨entry, at_place, var, rfl⟩⟩

/-- A column has at most one entry for each row. -/
theorem Linked.nodup_targets (linked : t.Linked) (v : Var) :
    ((t.targets v).map fun target => target.2.row).Nodup := by
  have increasing : (t.targets v).Pairwise fun x y => x.1 < y.1 := by
    rw [targets]
    cases t.columns[v]? with
    | none => exact .nil
    | some column => exact column.increasing_live
  rw [List.nodup_iff_pairwise_ne, List.pairwise_map]
  refine increasing.imp_of_mem fun {x y} at_x at_y less same => ?_
  obtain ⟨a, at_a, var_a, index_a⟩ := linked.back (mem_targets.1 at_x)
  obtain ⟨b, at_b, var_b, index_b⟩ := linked.back (mem_targets.1 at_y)
  rw [same] at at_a
  rw [linked.distinct at_a at_b (var_a.trans var_b.symm), at_b] at at_a
  cases at_a
  exact absurd (index_a.symm.trans index_b) (Nat.ne_of_lt less)

/-- A row that is no target does not have the variable. -/
theorem Linked.absent_of_no_target (linked : t.Linked)
    (missing : q ∉ (t.targets v).map fun target => target.2.row) (c : Rat) :
    ¬t.Occurs q v c := by
  rintro ⟨k, at_k⟩
  obtain ⟨entry, at_entry, rfl, -⟩ := content_eq_some_iff.1 at_k
  exact missing (List.mem_map.2 ⟨(entry.columnIndex, ⟨q, k⟩), mem_targets.2 (linked.forth at_entry),
    rfl⟩)

/-- The variable is replaced in every row but the one that heads it. -/
theorem substituteTargets_keeps (consistent : t.Consistent) (r_lt : r < t.rows.size)
    (own : t.coeff r v = 0) :
    ∃ u, (t.targets v).foldl
        (fun t target => t.substitute target.2.row target.2.rowIndex r) t = u ∧
      u.Consistent ∧ t.SameFrame u ∧ (∀ w, u.coeff r w = t.coeff r w) ∧
      ∀ q, q ≠ r → ∀ w,
        u.coeff q w = (if v = w then 0 else t.coeff q w) + t.coeff q v * t.coeff r w := by
  have linked := consistent.toLinked
  have apart : ∀ target ∈ t.targets v, r ≠ target.2.row := by
    rintro target member rfl
    obtain ⟨c, at_target⟩ := linked.content_of_target member
    have occurs : t.Occurs target.2.row v c := ⟨_, at_target⟩
    exact consistent.nonzero _ _ _ occurs (own ▸ (coeff_of_occurs linked occurs).symm)
  obtain ⟨u, done, linked', nonzero, frame, coeff⟩ := substituteAll_keeps linked
    consistent.nonzero r_lt own (fun _ => linked.content_of_target) apart (linked.nodup_targets v)
  refine ⟨u, done, consistent.of_frame frame linked' nonzero, frame, fun w => ?_,
    fun q ne w => ?_⟩
  · rw [coeff, if_neg fun member => ?_]
    obtain ⟨target, in_targets, same⟩ := List.mem_map.1 member
    exact apart target in_targets same.symm
  · rw [coeff]
    split
    · rfl
    · rename_i missing
      rw [coeff_of_absent (linked.absent_of_no_target missing), zero_mul, add_zero]
      split
      · rename_i same
        rw [← same, coeff_of_absent (linked.absent_of_no_target missing)]
      · rfl

/-! ## Pivoting -/

theorem pivotRow_eq {row : SparseRow} (found : t.rows[r]? = some row)
    (at_i : row.positionOf? entering = some i) :
    t.pivotRow r entering =
      let exchanged := (t.solveRow r i row.base).exchangeBase r row.base entering
      (exchanged.targets entering).foldl
        (fun t target => t.substitute target.2.row target.2.rowIndex r) exchanged := by
  rw [pivotRow, found]
  simp only [at_i]
  rfl

theorem coeff_exchangeBase (linked : t.Linked) (r : RowId) (leaving entering : Var) (q : RowId)
    (w : Var) : (t.exchangeBase r leaving entering).coeff q w = t.coeff q w := by
  refine coeff_congr linked (linked.of_same (tidy_exchangeBase linked.toTidy r _ _)
    (term?_exchangeBase t r _ _) fun _ _ => rfl) fun d => ?_
  simp only [Occurs, content, term?_exchangeBase]

/-- The bases and states after a pivot. -/
theorem heads_exchangeBase {s : SparseTableau} (frame : t.SameFrame s) {row : SparseRow}
    (found : t.rows[r]? = some row) (entering : Var) :
    (s.exchangeBase r row.base entering).rows.map (fun row => (row.base, row.pending)) =
      (Tableau.pivotRows t.view.rows r entering).map fun row => (row.base, row.pending) := by
  have at_r : t.view.rows[r]? = some row.view := by
    rw [view, Array.getElem?_map, found]
    rfl
  refine Array.ext_getElem? fun q => ?_
  rw [Array.getElem?_map, Array.getElem?_map, Tableau.getElem?_pivotRows at_r, exchangeBase,
    Array.getElem?_modify]
  split
  · rename_i here
    subst here
    obtain ⟨later, later_at, -, pending⟩ := frame.row found
    rw [at_r, later_at]
    simp [Row.solveFor, SparseRow.view, pending]
  · rename_i apart
    have same := congrArg (·[q]?) frame.heads
    simp only [Array.getElem?_map] at same
    rw [same, view, Array.getElem?_map, Option.map_map, Option.map_map]
    refine congrArg (Option.map · _) (funext fun other => ?_)
    simp [Ne.symm apart, SparseRow.view]

/-- A variable that occurs in a row has a position in it. -/
theorem Consistent.exists_position (consistent : t.Consistent) {stored : SparseRow}
    (at_r : t.rows[r]? = some stored) (occurs : stored.view.form.coeff v ≠ 0) :
    ∃ i c, stored.positionOf? v = some i ∧ t.content r i = some (v, c) := by
  have nonzero : t.coeff r v ≠ 0 := by
    rw [coeff_eq at_r]
    exact occurs
  obtain ⟨i, at_i⟩ := positionOf?_of_occurs
    ((occurs_iff_coeff consistent.toLinked consistent.nonzero).2 ⟨rfl, nonzero⟩) at_r
  obtain ⟨c, at_content⟩ := content_of_positionOf? at_r at_i
  exact ⟨i, c, at_i, at_content⟩

/-- What is stored after a pivot is what the tableau computes. -/
theorem pivotRow_keeps (consistent : t.Consistent) {row : Row} (found : t.view.get? r = some row)
    (occurs : row.form.coeff entering ≠ 0) (own : row.form.coeff row.base = 0)
    (free : t.rowOf? entering = none) :
    t.Stores (Tableau.pivotRows t.view.rows r entering) t.trail (t.pivotRow r entering) := by
  obtain ⟨stored, at_r, rfl⟩ := get?_view found
  obtain ⟨i, c, at_i, at_content⟩ := consistent.exists_position at_r occurs
  obtain ⟨linked₁, nonzero₁, edits, coeff₁⟩ := solveRow_keeps consistent.toLinked
    consistent.nonzero found at_content own (consistent.base_lt at_r)
  have entering_lt : entering < t.numVars := consistent.lt_of_content at_content
  have consistent₂ := consistent_exchangeBase consistent edits.frame linked₁ nonzero₁ at_r
    entering_lt free
  have coeff₂ := coeff_exchangeBase linked₁ r stored.base entering
  have apart : stored.base ≠ entering := fun same => occurs (same ▸ own)
  obtain ⟨u, done, consistent₃, frame, same_r, others⟩ := substituteTargets_keeps (r := r)
    (v := entering) consistent₂
    (by rw [exchangeBase, Array.size_modify, edits.frame.size]; exact lt_of_content at_content)
    (by
      rw [coeff₂, coeff₁, Row.coeff_solveFor, if_pos rfl, zero_add]
      exact if_neg apart)
  have pivoted : t.pivotRow r entering = u := (pivotRow_eq at_r at_i).trans done
  rw [pivoted]
  refine ⟨consistent₃, frame.columns.trans edits.frame.columns, view_rows_eq
    (frame.heads.trans (heads_exchangeBase edits.frame at_r entering)) fun q row' at_q w => ?_,
    frame.trail.trans edits.frame.trail, frame.recording.trans edits.frame.recording⟩
  rw [Tableau.getElem?_pivotRows found] at at_q
  obtain ⟨other, at_other, rfl⟩ := Option.map_eq_some_iff.1 at_q
  split
  · rename_i here
    rw [here, same_r, coeff₂, coeff₁]
  · rename_i ne
    rw [others q ne, coeff₂, coeff₂, coeff₂, coeff₁, edits.coeff consistent.toLinked linked₁ ne,
      edits.coeff consistent.toLinked linked₁ ne, ← coeff_view at_other, ← coeff_view at_other,
      Tableau.coeff_eliminate]
    rfl

/-- In a tableau without pending rows a variable of a row heads none. -/
theorem Consistent.rowOf?_eq_none (consistent : t.Consistent) (well : t.view.WellFormed n)
    (settled : t.view.Normalized) {row : Row} (found : t.view.get? r = some row)
    (occurs : row.form.coeff v ≠ 0) : t.rowOf? v = none := by
  rw [← consistent.rowOf?_view]
  refine Tableau.rowOf?_eq_none_iff.2 fun q other at_q same => occurs ?_
  rw [← same, well.apart settled found at_q]

/-- A pivot of a tableau without pending rows is stored and recorded. -/
theorem pivot_keeps (consistent : t.Consistent) (well : t.view.WellFormed n)
    (settled : t.view.Normalized) {row : SparseRow} (at_r : t.rows[r]? = some row)
    (occurs : row.view.form.coeff entering ≠ 0) :
    t.Stores (Tableau.pivotRows t.view.rows r entering) (t.recorded (.pivot r row.base))
      (t.pivot r entering) := by
  have found : t.view.get? r = some row.view := by
    rw [view_get?, at_r]
    rfl
  have pivoted := pivotRow_keeps consistent found occurs (well.own found)
    (consistent.rowOf?_eq_none well settled found occurs)
  rw [pivot, at_r]
  exact pivoted.record _

theorem view_pivot (consistent : t.Consistent) (well : t.view.WellFormed n)
    (settled : t.view.Normalized) {row : SparseRow} (at_r : t.rows[r]? = some row)
    (occurs : row.view.form.coeff entering ≠ 0) :
    (t.pivot r entering).view = t.view.pivot r entering := by
  have found : t.view.get? r = some row.view := by
    rw [view_get?, at_r]
    rfl
  rw [(pivot_keeps consistent well settled at_r occurs).view, Tableau.pivot, found]
  exact (record_view t _ (.pivot r row.base)).symm

end ArithDecide.SparseTableau
