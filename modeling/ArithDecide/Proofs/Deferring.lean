import ArithDecide.Proofs.Alike
import ArithDecide.Proofs.PendingRows
import ArithDecide.Proofs.Posing

/-!
# Deferred reduction

Of two engines one puts a new row into reduced form at once, the other one leaves it pending. As long
as nothing is propagated the second engine lags behind: its pending rows are the rows of the first one
before reduction, and the values stored for the bases of pending rows are out of date. Nothing else is
affected. A pending row is noted for inspection and its base for repair from the start, so it makes no
difference that later operations note them once more in one of the engines and not in the other.

`Deferred` is this relation. Operations that state a problem keep it, and putting all pending rows into
reduced form turns it into equality.
-/

namespace ArithDecide

namespace Engine

open State

/-- The second engine has reduced the pending rows of the first one. Apart from the values stored for
the bases of pending rows the engines have the same values, and what is noted about pending rows and
their bases is noted already. -/
structure Deferred (l e : Core) : Prop where
  rows : Tableau.Reduces ⟨l.rows, [], false⟩ ⟨e.rows, [], false⟩
  size : e.values.size = l.values.size
  values : ∀ v : Var, (∀ (r : RowId) (row : Row), l.rows[r]? = some row → row.pending = true →
    row.base ≠ v) → e.values[v]? = l.values[v]?
  distinct : ∀ (r q : RowId) (row other : Row), l.rows[r]? = some row → l.rows[q]? = some other →
    row.base = other.base → r = q
  toPatch : e.toPatch = l.toPatch
  touched : e.touched = l.touched
  noted : ∀ (r : RowId) (row : Row), l.rows[r]? = some row → row.pending = true →
    SortedSet.insert row.base l.toPatch = l.toPatch ∧ SortedSet.insert r l.touched = l.touched

variable {o p : Options} {a b : Engine} {r : RowId} {row : Row}

theorem Alike.reduces (alike : Alike Deferred o p a b) : a.tableau.Reduces b.tableau :=
  alike.core.rows.of_rows rfl rfl

theorem Alike.stored_eq (alike : Alike Deferred o p a b) {v : Var}
    (apart : ∀ r row, a.tableau.get? r = some row → row.pending = true → row.base ≠ v) :
    b.stored v = a.stored v :=
  congrArg (fun found : Option InfRat => found.getD 0) (alike.core.values v apart)

/-- Only one row has the base, so the base of a row in reduced form is not that of a pending one. -/
theorem Alike.apart (alike : Alike Deferred o p a b) (found : a.tableau.get? r = some row)
    (settled : row.pending = false) : ∀ q other, a.tableau.get? q = some other →
      other.pending = true → other.base ≠ row.base := by
  intro q other at_q pending same
  obtain rfl := alike.core.distinct q r other row at_q found same
  obtain rfl := Option.some.inj (found.symm.trans at_q)
  rw [pending] at settled
  cases settled

/-! ## Values -/

section Values

variable (alike : Alike Deferred o p a b)
include alike

/-- Both engines give a variable the same value. -/
theorem Alike.setBoth (v : Var) (x : InfRat) : Alike Deferred o p (a.setValue v x) (b.setValue v x) := by
  have given : Deferred { a.core with values := a.values.setIfInBounds v x }
      { b.core with values := b.values.setIfInBounds v x } :=
    { alike.core with
      size := by
        show (b.values.setIfInBounds v x).size = (a.values.setIfInBounds v x).size
        rw [Array.size_setIfInBounds, Array.size_setIfInBounds]
        exact alike.core.size
      values := fun w apart => by
        have same : b.values[w]? = a.values[w]? := alike.core.values w apart
        have size : b.values.size = a.values.size := alike.core.size
        simp only [Array.getElem?_setIfInBounds, same, size] }
  rw [Engine.setValue, Engine.setValue]
  split <;> split <;> exact { alike with core := given }

/-- The second engine gives the base of a pending row a value. -/
theorem Alike.setAhead (found : a.tableau.get? r = some row) (pending : row.pending = true)
    (x : InfRat) : Alike Deferred o p a (b.setValue row.base x) := by
  have given : Deferred a.core { b.core with values := b.values.setIfInBounds row.base x } :=
    { alike.core with
      size := Array.size_setIfInBounds.trans alike.core.size
      values := fun w apart => by
        rw [Array.getElem?_setIfInBounds, if_neg (apart r row found pending)]
        exact alike.core.values w apart }
  rw [Engine.setValue]
  split <;> exact { alike with core := given }

/-- Both engines note a variable for repair. -/
theorem Alike.markBoth (v : Var) : Alike Deferred o p (a.markToPatch v) (b.markToPatch v) :=
  { alike with
    core := { alike.core with
      toPatch := congrArg (SortedSet.insert v) alike.core.toPatch
      noted := fun r row found pending =>
        (alike.core.noted r row found pending).imp_left SortedSet.insert_of_absorbed } }

/-- The second engine notes the base of a pending row for repair, which was noted already. -/
theorem Alike.markAhead (found : a.tableau.get? r = some row) (pending : row.pending = true) :
    Alike Deferred o p a (b.markToPatch row.base) :=
  { alike with
    core := { alike.core with
      toPatch := by
        have same : b.toPatch = a.toPatch := alike.core.toPatch
        show SortedSet.insert row.base b.toPatch = a.toPatch
        rw [same]
        exact (alike.core.noted r row found pending).1 } }

/-- A move changes the bases of the rows in reduced form alike; that of a pending row changes in the
second engine only. -/
theorem Alike.carryEither (v : Var) (delta : InfRat) (r : RowId) :
    Alike Deferred o p
      (if (a.tableau.get? r).any fun row => row.form.mentions v then Engine.carryRow v delta a r else a)
      (if (b.tableau.get? r).any fun row => row.form.mentions v then Engine.carryRow v delta b r else b) := by
  cases found : a.tableau.get? r with
  | none =>
    have absent : b.tableau.get? r = none := by rw [alike.reduces r, found]; rfl
    rw [absent]
    exact alike
  | some row =>
    cases pending : row.pending with
    | false =>
      have at_b := alike.reduces.settled found pending
      rw [at_b]
      split
      · rw [Engine.carryRow, Engine.carryRow, found, at_b]
        simp only [pending, Bool.false_eq_true, if_false,
          alike.stored_eq (alike.apart found pending)]
        exact (alike.setBoth _ _).markBoth _
      · exact alike
    | true =>
      have at_b := alike.reduces.pending found pending
      have skipped : Engine.carryRow v delta a r = a := by
        rw [Engine.carryRow, found]
        exact if_pos pending
      rw [skipped, ite_self, at_b]
      split
      · rw [Engine.carryRow, at_b]
        have moved (x : InfRat) := (alike.setAhead found pending x).markAhead found pending
        exact moved _
      · exact alike

omit alike in
theorem tableau_carryEither (e : Engine) (v : Var) (delta : InfRat) (r : RowId) :
    (if (e.tableau.get? r).any fun row => row.form.mentions v then carryRow v delta e r
      else e).tableau = e.tableau := by
  split
  · exact (valuesOnly_carryRow v delta e r).tableau
  · rfl

/-- Moving a variable moves the bases of rows in reduced form alike, and those of deferred rows wait in
both engines. -/
theorem Alike.updateBoth {v : Var} (same : b.stored v = a.stored v) (delta : InfRat) :
    Alike Deferred o p (a.updateValue v delta) (b.updateValue v delta) := by
  have moved := alike.setBoth v (a.stored v + delta)
  rw [Engine.updateValue, Engine.updateValue, Tableau.rowsMentioning, Tableau.rowsMentioning,
    alike.reduces.rowIds, List.foldl_filter, List.foldl_filter, same]
  have tableau_a : (a.setValue v (a.stored v + delta)).tableau = a.tableau :=
    (valuesOnly_setValue _ _ _).tableau
  have tableau_b : (b.setValue v (a.stored v + delta)).tableau = b.tableau :=
    (valuesOnly_setValue _ _ _).tableau
  generalize a.setValue v (a.stored v + delta) = x at moved tableau_a ⊢
  generalize b.setValue v (a.stored v + delta) = y at moved tableau_b ⊢
  induction a.tableau.rowIds generalizing x y with
  | nil => exact moved
  | cons r rest ih =>
    have next := moved.carryEither v delta r
    have same_a := tableau_carryEither x v delta r
    have same_b := tableau_carryEither y v delta r
    rw [tableau_a] at next same_a
    rw [tableau_b] at next same_b
    exact ih _ same_a _ next same_b

end Values

/-! ## Bounds -/

/-- Rows that are noted once more in one of the engines are pending, and were noted already. -/
theorem Alike.touchBoth (alike : Alike Deferred o p a b) (v : Var) :
    Alike Deferred o p (a.touchRowsOf v) (b.touchRowsOf v) := by
  have touched : (b.touchRowsOf v).touched = (a.touchRowsOf v).touched := by
    have before : b.touched = a.touched := alike.core.touched
    simp only [Engine.touchRowsOf, SortedSet.union, List.foldl_append, alike.reduces.rowOf?, before]
    rw [Tableau.rowsMentioning, Tableau.rowsMentioning, alike.reduces.rowIds]
    refine SortedSet.union_filter_congr (fun r => (a.tableau.get? r).any Row.pending)
      (fun r _ pending => ?_) fun r _ settled => ?_
    · obtain ⟨row, found, still⟩ := Option.any_eq_true _ _ |>.1 pending
      exact SortedSet.insert_union_of_absorbed (alike.core.noted r row found still).2 _
    · cases found : a.tableau.get? r with
      | none => rw [alike.reduces r, found]; rfl
      | some row =>
        rw [found, Option.any_some] at settled
        rw [alike.reduces.settled found settled]
  have noted (r : RowId) (absorbed : SortedSet.insert r a.touched = a.touched) :
      SortedSet.insert r (a.touchRowsOf v).touched = (a.touchRowsOf v).touched :=
    SortedSet.insert_union_of_absorbed absorbed _
  exact { alike with
    core := { alike.core with
      touched := touched
      noted := fun r row found pending =>
        (alike.core.noted r row found pending).imp_right (noted r) } }

/-- Moving a variable to a bound that it violates keeps engines alike that defer different rows. -/
theorem Alike.respectBoth (alike : Alike Deferred o p a b) (v : Var) (kind : BoundKind)
    (value : InfRat) :
    Alike Deferred o p (a.respectBound v kind value) (b.respectBound v kind value) := by
  have free_iff (e : Engine) : e.kind v = .nonBase ↔ e.tableau.rowOf? v = none :=
    Tableau.kind_eq_nonBase_iff.trans Tableau.rowOf?_eq_none_iff.symm
  have marks {e : Engine} (heads : e.kind v ≠ .nonBase) :
      e.respectBound v kind value = e.markToPatch v := by
    rw [Engine.respectBound]
    split
    · exact absurd ‹_› heads
    · rfl
    · rfl
  by_cases free : a.kind v = .nonBase
  · have free_b : b.kind v = .nonBase := by rwa [free_iff, alike.reduces.rowOf?, ← free_iff]
    have same : b.stored v = a.stored v :=
      alike.stored_eq fun r row found _ => Tableau.kind_eq_nonBase_iff.1 free r row found
    rw [Engine.respectBound, Engine.respectBound, free, free_b, same]
    simp only
    split
    · exact alike.updateBoth same _
    · exact alike
  · have heads_b : b.kind v ≠ .nonBase := by rwa [ne_eq, free_iff, alike.reduces.rowOf?, ← free_iff]
    rw [marks free, marks heads_b]
    exact alike.markBoth v

theorem keptByBounds_deferred : KeptByBounds Deferred o p :=
  ⟨fun alike => alike.core.toPatch, Alike.touchBoth, Alike.respectBoth⟩

/-! ## New variables and rows -/

theorem Alike.mkVarBoth (alike : Alike Deferred o p a b) (sort : NumSort) (term : Term) :
    AlikeWith Deferred o p (a.mkVar sort term) (b.mkVar sort term) := by
  have size : b.values.size = a.values.size := alike.core.size
  refine alike.mkVar ({ alike.core with
    size := ?_
    values := fun v apart => ?_ } : Deferred { a.core with values := a.values.push 0 }
      { b.core with values := b.values.push 0 })
  · show (b.values.push 0).size = (a.values.push 0).size
    rw [Array.size_push, Array.size_push, size]
  · have same : b.values[v]? = a.values[v]? := alike.core.values v apart
    simp only [Array.getElem?_push, size, same]

/-- What a new row that stays pending in the first engine does to the relation. -/
theorem Deferred.place {l e : Core} (deferred : Deferred l e) {base : Var} {form : LinearForm}
    {rows : Array Row} (fresh : ∀ (r : RowId) (row : Row), l.rows[r]? = some row → row.base ≠ base)
    (reduces : Tableau.Reduces ⟨l.rows.push ⟨base, form, true⟩, [], false⟩ ⟨rows, [], false⟩)
    (x y : InfRat) :
    Deferred
      { values := l.values.setIfInBounds base x
        rows := l.rows.push ⟨base, form, true⟩
        toPatch := SortedSet.insert base l.toPatch
        touched := SortedSet.insert l.rows.size l.touched }
      { values := e.values.setIfInBounds base y
        rows := rows
        toPatch := SortedSet.insert base (SortedSet.insert base e.toPatch)
        touched := SortedSet.insert l.rows.size e.touched } where
  rows := reduces
  size := by
    rw [Array.size_setIfInBounds, Array.size_setIfInBounds]
    exact deferred.size
  values v apart := by
    have other : base ≠ v := apart l.rows.size ⟨base, form, true⟩ (by simp) rfl
    rw [Array.getElem?_setIfInBounds_ne other, Array.getElem?_setIfInBounds_ne other]
    refine deferred.values v fun r row found => apart r row ?_
    have less := (Array.getElem?_eq_some_iff.1 found).1
    rw [Array.getElem?_push, if_neg (Nat.ne_of_lt less), found]
  distinct r q row other at_r at_q same := by
    rw [Array.getElem?_push] at at_r at_q
    split at at_r <;> split at at_q
    · rename_i first second
      rw [first, second]
    · obtain rfl := Option.some.inj at_r
      exact absurd same.symm (fresh q other at_q)
    · obtain rfl := Option.some.inj at_q
      exact absurd same (fresh r row at_r)
    · exact deferred.distinct r q row other at_r at_q same
  toPatch := by
    rw [SortedSet.insert_insert_self]
    exact congrArg (SortedSet.insert base) deferred.toPatch
  touched := congrArg (SortedSet.insert l.rows.size) deferred.touched
  noted r row found pending := by
    rw [Array.getElem?_push] at found
    split at found
    · rename_i last
      obtain rfl := Option.some.inj found
      rw [last]
      exact ⟨SortedSet.insert_insert_self _, SortedSet.insert_insert_self _⟩
    · exact (deferred.noted r row found pending).imp SortedSet.insert_of_absorbed
        SortedSet.insert_of_absorbed

/-- A new row stays pending in the first engine, and the second one reduces it. -/
theorem Alike.placeBoth (alike : Alike Deferred o p a b) (lazy : o.eagerNormalization = false)
    (eager : p.eagerNormalization = true) {base : Var} (fresh : a.tableau.isFresh base = true)
    (form : LinearForm) :
    AlikeWith Deferred o p (a.placeRow base form) (b.placeRow base form) := by
  have size : b.tableau.rows.size = a.tableau.rows.size := alike.reduces.size
  let grown := (b.tableau.addRow base form).normalize a.tableau.rows.size
  have pushed_rows : (a.tableau.addRow base form).rows = a.tableau.rows.push ⟨base, form, true⟩ :=
    Tableau.record_rows _ _
  have reduces : Tableau.Reduces ⟨a.tableau.rows.push ⟨base, form, true⟩, [], false⟩
      ⟨grown.rows, [], false⟩ :=
    (alike.reduces.addRow base form).of_rows pushed_rows.symm rfl
  obtain ⟨form', found⟩ : ∃ form', grown.get? a.tableau.rows.size = some ⟨base, form', false⟩ := by
    have pushed : Tableau.get? ⟨a.tableau.rows.push ⟨base, form, true⟩, [], false⟩
        a.tableau.rows.size = some ⟨base, form, true⟩ := Array.getElem?_push_size
    exact ⟨_, reduces.pending pushed rfl⟩
  -- the cores before the new row and its base are noted
  let lagging (x : InfRat) : Core :=
    { a.core with
      values := a.values.setIfInBounds base x
      rows := a.tableau.rows.push ⟨base, form, true⟩ }
  let ahead (y : InfRat) : Core :=
    { b.core with
      values := b.values.setIfInBounds base y
      rows := grown.rows
      toPatch := SortedSet.insert base b.toPatch }
  have valued (x : InfRat) : ∃ y, Alike (fun l e => l = lagging x ∧ e = ahead y) o p
      ((a.pushRow base form).1.setValue base x)
      ((b.pushRow base form).1.normalizeRow a.tableau.rows.size) := by
    obtain ⟨tracer, at_b⟩ := normalizeRow_of_some (e := (b.pushRow base form).1) found
    refine ⟨form'.evalInf (b.pushRow base form).1.stored, ?_⟩
    rw [at_b, Engine.setValue, Engine.setValue]
    split <;> split <;>
      exact { alike with core :=
        ⟨congrArg (fun rows : Array Row => { lagging x with rows }) pushed_rows, rfl⟩ }
  have off : a.options.eagerNormalization = false := by rw [alike.first, lazy]
  have on : b.options.eagerNormalization = true := by rw [alike.second, eager]
  have number_a : (a.pushRow base form).2 = a.tableau.rows.size := rfl
  have number_b : (b.pushRow base form).2 = a.tableau.rows.size := size
  rw [Engine.placeRow, Engine.placeRow]
  simp only [off, on, number_a, number_b, if_true, Bool.false_eq_true, if_false]
  obtain ⟨y, settled⟩ := valued ((a.pushRow base form).1.value base)
  generalize (a.pushRow base form).1.setValue base ((a.pushRow base form).1.value base) = lazily
    at settled ⊢
  generalize (b.pushRow base form).1.normalizeRow a.tableau.rows.size = eagerly at settled ⊢
  obtain ⟨at_a, at_b⟩ := settled.core
  have noted : Alike Deferred o p
      { lazily.markToPatch base with
        touched := SortedSet.insert a.tableau.rows.size lazily.touched }
      { eagerly.markToPatch base with
        touched := SortedSet.insert a.tableau.rows.size eagerly.touched } := by
    refine { settled with core := ?_ }
    have fresh_base (r : RowId) (row : Row) (found : a.tableau.rows[r]? = some row) :
        row.base ≠ base := (Tableau.isFresh_iff.1 fresh r row found).1
    show Deferred
      { lazily.core with
        toPatch := SortedSet.insert base lazily.core.toPatch
        touched := SortedSet.insert a.tableau.rows.size lazily.core.touched }
      { eagerly.core with
        toPatch := SortedSet.insert base eagerly.core.toPatch
        touched := SortedSet.insert a.tableau.rows.size eagerly.core.touched }
    rw [at_a, at_b]
    exact alike.core.place fresh_base reduces _ y
  exact ⟨noted.declareChecking.trace _ _ _ _, rfl⟩

/-! ## Reducing what was deferred -/

/-- What reducing rows one after the other has changed so far: neither what is noted, nor the values
of variables that head no pending row. -/
structure Normalizing (l c : Core) : Prop where
  bases : ∀ r : RowId, (c.rows[r]?).map Row.base = (l.rows[r]?).map Row.base
  size : c.values.size = l.values.size
  values : ∀ v : Var, (∀ (r : RowId) (row : Row), l.rows[r]? = some row → row.pending = true →
    row.base ≠ v) → c.values[v]? = l.values[v]?
  toPatch : c.toPatch = l.toPatch
  touched : c.touched = l.touched

/-- Normalising a pending row whose base waits leaves an engine that differs only in what it would have
normalised later. -/
theorem normalizing_normalizeRow {e x : Engine} (so_far : Alike Normalizing o o e x)
    (found : e.tableau.get? r = some row) (pending : row.pending = true)
    (noted : SortedSet.insert row.base e.toPatch = e.toPatch) :
    Alike Normalizing o o e (x.normalizeRow r) := by
  have bases (q : RowId) : ((x.tableau.normalize r).get? q).map Row.base =
      (e.tableau.get? q).map Row.base := by
    refine Eq.trans ?_ (so_far.core.bases q)
    rw [Tableau.get?_normalize, Option.map_map]
    refine congrArg (Option.map · (x.tableau.get? q)) (funext fun other => ?_)
    simp only [Function.comp]
    split <;> rfl
  obtain ⟨reduced, at_r, base⟩ : ∃ reduced, (x.tableau.normalize r).get? r = some reduced ∧
      reduced.base = row.base := by
    have here := bases r
    rw [found, Option.map_some] at here
    exact Option.map_eq_some_iff.1 here
  have toPatch : x.toPatch = e.toPatch := so_far.core.toPatch
  have after (value : InfRat) : Normalizing e.core
      { x.core with
        values := x.values.setIfInBounds row.base value
        rows := (x.tableau.normalize r).rows
        toPatch := SortedSet.insert row.base x.toPatch } :=
    { so_far.core with
      bases := bases
      size := Array.size_setIfInBounds.trans so_far.core.size
      values := fun v apart => by
        rw [Array.getElem?_setIfInBounds, if_neg (apart r row found pending)]
        exact so_far.core.values v apart
      toPatch := by rw [toPatch, noted]; rfl }
  obtain ⟨tracer, result⟩ := normalizeRow_of_some at_r
  rw [result, base, Engine.setValue]
  split <;> exact { so_far with core := after _ }

/-- If the bases of all pending rows wait, normalising these rows at once changes nothing but the rows.
-/
theorem normalizing_normalizePendingRows (e : Engine)
    (noted : ∀ r row, e.tableau.get? r = some row → row.pending = true →
      SortedSet.insert row.base e.toPatch = e.toPatch) :
    Alike Normalizing e.options e.options e e.normalizePendingRows := by
  have each (x : Engine) (so_far : Alike Normalizing e.options e.options e x) (rows : List RowId)
      (within : ∀ r ∈ rows, r ∈ e.pendingRows) :
      Alike Normalizing e.options e.options e (rows.foldl Engine.normalizeRow x) := by
    induction rows generalizing x with
    | nil => exact so_far
    | cons r rest ih =>
      obtain ⟨here, others⟩ := List.forall_mem_cons.1 within
      obtain ⟨row, found, pending⟩ := Option.any_eq_true _ _ |>.1 (List.mem_filter.1 here).2
      exact ih _ (normalizing_normalizeRow so_far found pending (noted r row found pending)) others
  have start : Alike Normalizing e.options e.options e e :=
    { Alike.refl e with core := ⟨fun _ => rfl, rfl, fun _ _ => rfl, rfl, rfl⟩ }
  exact each e start e.pendingRows fun _ => id

theorem tableau_foldl_normalizeRow (rows : List RowId) (e : Engine) :
    (rows.foldl normalizeRow e).tableau = rows.foldl Tableau.normalize e.tableau := by
  induction rows generalizing e with
  | nil => rfl
  | cons r rest ih => rw [List.foldl_cons, List.foldl_cons, ih, tableau_normalizeRow]

/-- Once the first engine has reduced its pending rows, it is where the second engine is. -/
theorem Alike.normalized {h k : History} (alike : Alike Deferred o p a b) (inv_a : a.Invariant h)
    (inv_b : b.Invariant k) (reliable_a : a.Reliable) (reliable_b : b.Reliable) :
    Alike Eq o p a.normalizePendingRows b := by
  have frame := normalizing_normalizePendingRows a fun r row found pending =>
    (alike.core.noted r row found pending).1
  have rows : a.normalizePendingRows.tableau.rows = b.tableau.rows := by
    rw [Engine.normalizePendingRows, tableau_foldl_normalizeRow]
    exact alike.reduces.foldl_normalize
  have assigned : a.normalizePendingRows.Assigned := by
    have steps := steps_normalizePendingRows h a
    exact (steps.invariant inv_a).assigned ((steps.reliable_iff inv_a).2 reliable_a)
  generalize a.normalizePendingRows = x at frame rows assigned ⊢
  have off_pending {v : Var} (apart : ∀ r row, a.tableau.get? r = some row → row.pending = true →
      row.base ≠ v) : b.values[v]? = x.values[v]? :=
    (alike.core.values v apart).trans (frame.core.values v apart).symm
  have stored_eq {v : Var} (apart : ∀ r row, a.tableau.get? r = some row → row.pending = true →
      row.base ≠ v) : b.stored v = x.stored v :=
    congrArg (fun found : Option InfRat => found.getD 0) (off_pending apart)
  have values : b.values = x.values := by
    refine Array.ext_getElem? fun v => ?_
    by_cases heads : ∃ r row, a.tableau.get? r = some row ∧ row.pending = true ∧ row.base = v
    · obtain ⟨r, row, found, pending, rfl⟩ := heads
      have size : b.values.size = x.values.size := alike.core.size.trans frame.core.size.symm
      -- the value of a base follows from its row, which mentions variables that head no row
      have at_b := alike.reduces.pending found pending
      have at_x : x.tableau.get? r = b.tableau.get? r := congrArg (·[r]?) rows
      have holds_b : (b.tableau.reducedRow r row).Holds b.stored :=
        (inv_b.assigned reliable_b).rows r _ at_b rfl
      have holds_x : (b.tableau.reducedRow r row).Holds x.stored :=
        assigned.rows r _ (at_x.trans at_b) rfl
      have same : b.stored row.base = x.stored row.base := by
        refine holds_b.trans ((LinearForm.combine_congr fun w mentioned => ?_).trans holds_x.symm)
        refine stored_eq fun q other at_q _ base => ?_
        obtain ⟨other', at_q', base'⟩ := alike.reduces.base at_q
        have absent := inv_b.founded.formed.tableau.separate at_b at_q' (.inl rfl)
        rw [base', base] at absent
        exact LinearForm.mentions_iff.1 mentioned absent
      by_cases inside : row.base < b.values.size
      · rw [State.stored, State.stored, Array.getElem?_eq_getElem inside,
          Array.getElem?_eq_getElem (size ▸ inside)] at same
        rw [Array.getElem?_eq_getElem inside, Array.getElem?_eq_getElem (size ▸ inside)]
        exact congrArg some same
      · rw [Array.getElem?_eq_none (Nat.not_lt.1 inside),
          Array.getElem?_eq_none (size ▸ Nat.not_lt.1 inside)]
    · exact off_pending fun r row found pending same => heads ⟨r, row, found, pending, same⟩
  have toPatch : b.toPatch = x.toPatch := alike.core.toPatch.trans frame.core.toPatch.symm
  have touched : b.touched = x.touched := alike.core.touched.trans frame.core.touched.symm
  exact
    { similar := alike.similar
      first := frame.second.trans alike.first
      second := alike.second
      core := by rw [Engine.core, Engine.core, rows, values, toPatch, touched]
      columns := alike.columns.trans frame.columns.symm
      bounds := alike.bounds.trans frame.bounds.symm
      dependencies := alike.dependencies.trans frame.dependencies.symm
      atoms := alike.atoms.trans frame.atoms.symm
      monomials := alike.monomials.trans frame.monomials.symm
      given := alike.given.trans frame.given.symm
      reported := alike.reported.trans frame.reported.symm
      status := alike.status.trans frame.status.symm
      propagations := alike.propagations.trans frame.propagations.symm
      equalities := alike.equalities.trans frame.equalities.symm
      oracle := alike.oracle.trans frame.oracle.symm
      selector := alike.selector.trans frame.selector.symm
      integerChecks := alike.integerChecks.trans frame.integerChecks.symm }

/-- The second engine stores the values which the first one computes from its pending rows. -/
theorem Alike.valueBoth {h k : History} (alike : Alike Deferred o p a b) (inv_a : a.Invariant h)
    (inv_b : b.Invariant k) (reliable_b : b.Reliable) : b.value = a.value := by
  have well := inv_a.founded.formed.tableau
  have normalized : b.tableau.Normalized := alike.reduces.normalized
  have holds : a.tableau.Holds b.stored := alike.reduces.holds fun r row found =>
    (inv_b.assigned reliable_b).rows r row found (normalized r row found)
  have below (count : Nat) (v : Var) (early : ∀ r row, a.tableau.get? r = some row →
      row.pending = true → row.base = v → r < count) : a.valueBelow count v = b.stored v := by
    induction count generalizing v with
    | zero =>
      exact (alike.stored_eq fun r row found pending base =>
        Nat.not_lt_zero r (early r row found pending base)).symm
    | succ count ih =>
      rw [State.valueBelow]
      cases heads : a.tableau.rowOf? v with
      | none =>
        exact (alike.stored_eq fun r row found _ =>
          Tableau.rowOf?_eq_none_iff.1 heads r row found).symm
      | some r =>
        obtain ⟨row, found, rfl⟩ := Tableau.get?_of_rowOf? heads
        rw [Option.bind_some, found]
        simp only
        split
        · rename_i pending
          rw [LinearForm.evalInf_eq_combine]
          refine (LinearForm.combine_congr fun w mentioned => ?_).trans (holds r row found).symm
          refine ih w fun q other at_q _ base => ?_
          -- a pending row mentions only bases of rows before it
          have before : q < r := by
            by_contra not_before
            refine LinearForm.mentions_iff.1 mentioned ?_
            rw [← base]
            exact well.separate found at_q (.inr (Nat.not_lt.1 not_before))
          exact Nat.lt_of_lt_of_le before (Nat.lt_succ_iff.1 (early r row found pending rfl))
        · rename_i settled
          exact (alike.stored_eq (alike.apart found (Bool.eq_false_iff.2 settled))).symm
  funext v
  rw [State.value_of_kind (normalized.kind_ne v), State.value]
  exact (below _ v fun r row found _ _ => (Array.getElem?_eq_some_iff.1 found).1).symm

end Engine

end ArithDecide
