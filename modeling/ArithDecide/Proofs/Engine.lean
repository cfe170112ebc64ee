import ArithDecide.Engine.Moves
import ArithDecide.Engine.Repair
import ArithDecide.Proofs.Semantics

/-!
# What the elementary operations of the engine change

Counting and tracing leave the state alone. Giving values changes the values, their trail and the
variables to patch, and nothing else; `Engine.stored_updateValue` says which values
`Engine.updateValue` gives.
-/

namespace ArithDecide.Engine

variable {e : Engine} {v w : Var} {x delta : InfRat}

/-! ## Bookkeeping -/

@[simp] theorem trace_toState (e : Engine) (tag : TraceTag) (message : Unit → String) :
    (e.trace tag message).toState = e.toState := rfl

@[simp] theorem trace_valueStamps (e : Engine) (tag : TraceTag) (message : Unit → String) :
    (e.trace tag message).valueStamps = e.valueStamps := rfl

@[simp] theorem trace_options (e : Engine) (tag : TraceTag) (message : Unit → String) :
    (e.trace tag message).options = e.options := rfl

@[simp] theorem count_toState (e : Engine) (change : Statistics → Statistics) :
    (e.count change).toState = e.toState := rfl

@[simp] theorem count_valueStamps (e : Engine) (change : Statistics → Statistics) :
    (e.count change).valueStamps = e.valueStamps := rfl

@[simp] theorem count_options (e : Engine) (change : Statistics → Statistics) :
    (e.count change).options = e.options := rfl

@[simp] theorem markToPatch_toState (e : Engine) (v : Var) :
    (e.markToPatch v).toState = { e.toState with toPatch := SortedSet.insert v e.toPatch } := rfl

@[simp] theorem markToPatch_valueStamps (e : Engine) (v : Var) :
    (e.markToPatch v).valueStamps = e.valueStamps := rfl

/-- The second engine has the given state; apart from that it differs from the first one in counters
and the like only. -/
structure Becomes (e : Engine) (s : State) (next : Engine) : Prop where
  toState : next.toState = s
  valueStamps : next.valueStamps = e.valueStamps

theorem Becomes.refl (e : Engine) : e.Becomes e.toState e := ⟨rfl, rfl⟩

/-! ## Giving values -/

/-- Whether the previous value of a variable has to be saved before it changes. -/
def saves (e : Engine) (v : Var) : Bool :=
  !e.scopes.isEmpty && e.valueStamps[v]? ≠ some e.scopeId

/-- The trail of values after a variable was given a value. -/
def savedTrail (e : Engine) (v : Var) : List (Var × InfRat) :=
  if e.saves v then (v, e.stored v) :: e.valueTrail else e.valueTrail

@[simp] theorem setValue_toState (e : Engine) (v : Var) (x : InfRat) :
    (e.setValue v x).toState =
      { e.toState with values := e.values.setIfInBounds v x, valueTrail := e.savedTrail v } := by
  rw [setValue, savedTrail]
  split
  · rename_i fresh
    rw [if_pos (show e.saves v = true from fresh)]
  · rename_i known
    rw [if_neg (show ¬e.saves v = true from known)]

theorem setValue_valueStamps (e : Engine) (v : Var) (x : InfRat) :
    (e.setValue v x).valueStamps =
      if e.saves v then e.valueStamps.setIfInBounds v e.scopeId else e.valueStamps := by
  rw [setValue]
  split
  · rename_i fresh
    rw [if_pos (show e.saves v = true from fresh)]
  · rename_i known
    rw [if_neg (show ¬e.saves v = true from known)]

theorem mem_insert_var {vs : List Var} : w ∈ SortedSet.insert v vs ↔ w = v ∨ w ∈ vs :=
  SortedSet.mem_insert fun _ _ left right => Nat.le_antisymm (Nat.not_lt.1 right) (Nat.not_lt.1 left)

/-- Only values, their trail and the variables to patch differ, and the latter two only grew. -/
structure ValuesOnly (e next : Engine) : Prop where
  toState : next.toState =
    { e.toState with
      values := next.values
      valueTrail := next.valueTrail
      toPatch := next.toPatch }
  size : next.values.size = e.values.size
  trail : e.valueTrail.length ≤ next.valueTrail.length
  marked : ∀ v ∈ e.toPatch, v ∈ next.toPatch

theorem ValuesOnly.refl (e : Engine) : ValuesOnly e e := ⟨rfl, rfl, Nat.le_refl _, fun _ => id⟩

theorem ValuesOnly.trans {a b c : Engine} (first : ValuesOnly a b) (second : ValuesOnly b c) :
    ValuesOnly a c where
  toState := by rw [second.toState, first.toState]
  size := second.size.trans first.size
  trail := first.trail.trans second.trail
  marked v waits := second.marked v (first.marked v waits)

theorem valuesOnly_setValue (e : Engine) (v : Var) (x : InfRat) :
    ValuesOnly e (e.setValue v x) where
  toState := by rw [setValue_toState]
  size := by rw [setValue_toState, Array.size_setIfInBounds]
  trail := by
    rw [setValue_toState]
    simp only [savedTrail]
    split
    · exact Nat.le_succ _
    · exact Nat.le_refl _
  marked w waits := by rwa [setValue_toState]

theorem valuesOnly_markToPatch (e : Engine) (v : Var) : ValuesOnly e (e.markToPatch v) :=
  ⟨rfl, rfl, Nat.le_refl _, fun _ waits => mem_insert_var.2 (.inr waits)⟩

theorem ValuesOnly.tableau {next : Engine} (only : ValuesOnly e next) :
    next.tableau = e.tableau := by rw [only.toState]

theorem ValuesOnly.bounds {next : Engine} (only : ValuesOnly e next) : next.bounds = e.bounds := by
  rw [only.toState]

theorem ValuesOnly.columns {next : Engine} (only : ValuesOnly e next) :
    next.columns = e.columns := by rw [only.toState]

theorem ValuesOnly.scopes {next : Engine} (only : ValuesOnly e next) : next.scopes = e.scopes := by
  rw [only.toState]

theorem stored_setIfInBounds {values : Array InfRat} (bound : v < values.size) :
    ((values.setIfInBounds v x)[w]?).getD 0 = if w = v then x else (values[w]?).getD 0 := by
  rw [Array.getElem?_setIfInBounds]
  grind

theorem stored_setValue (bound : v < e.values.size) (w : Var) :
    (e.setValue v x).stored w = if w = v then x else e.stored w := by
  rw [State.stored, setValue_toState]
  exact stored_setIfInBounds bound

/-! ## Carrying the rows along -/

/-- By how much a move of `v` changes the base of a row: by nothing while the row is pending. -/
def carried (v : Var) (delta : InfRat) (row : Row) : InfRat :=
  if row.pending then 0 else delta.scale (row.form.coeff v)

theorem valuesOnly_carryRow (v : Var) (delta : InfRat) (e : Engine) (r : RowId) :
    ValuesOnly e (carryRow v delta e r) := by
  rw [carryRow]
  cases e.tableau.get? r with
  | none => exact .refl e
  | some row =>
    simp only
    split
    · exact .refl e
    · exact (valuesOnly_setValue _ _ _).trans (valuesOnly_markToPatch _ _)

theorem valuesOnly_foldl_carryRow (rows : List RowId) (v : Var) (delta : InfRat) (e : Engine) :
    ValuesOnly e (rows.foldl (carryRow v delta) e) := by
  induction rows generalizing e with
  | nil => exact .refl e
  | cons r rest ih => exact (valuesOnly_carryRow v delta e r).trans (ih _)

theorem valuesOnly_updateValue (e : Engine) (v : Var) (delta : InfRat) :
    ValuesOnly e (e.updateValue v delta) :=
  (valuesOnly_setValue _ _ _).trans (valuesOnly_foldl_carryRow _ _ _ _)

section Moves

variable {t : Tableau} {n : Nat} {rows : List RowId} {r : RowId} {row : Row}

theorem stored_carryRow_of_base (sized : e.values.size = n) (well : e.tableau.WellFormed n)
    (found : e.tableau.get? r = some row) :
    (carryRow v delta e r).stored row.base = e.stored row.base + carried v delta row := by
  have bound : row.base < e.values.size := sized ▸ well.base_lt found
  simp only [carryRow, found, carried]
  split
  · rw [add_zero]
  · exact (stored_setValue bound row.base).trans (if_pos rfl)

theorem stored_carryRow_of_ne (sized : e.values.size = n) (well : e.tableau.WellFormed n)
    (apart : ∀ row, e.tableau.get? r = some row → row.base ≠ w) :
    (carryRow v delta e r).stored w = e.stored w := by
  rw [carryRow]
  cases found : e.tableau.get? r with
  | none => rfl
  | some row =>
    have bound : row.base < e.values.size := sized ▸ well.base_lt found
    simp only
    split
    · rfl
    · exact (stored_setValue bound w).trans (if_neg (apart row found).symm)

theorem stored_foldl_carryRow_of_ne (sized : e.values.size = n) (well : e.tableau.WellFormed n)
    (apart : ∀ r ∈ rows, ∀ row, e.tableau.get? r = some row → row.base ≠ w) :
    (rows.foldl (carryRow v delta) e).stored w = e.stored w := by
  induction rows generalizing e with
  | nil => rfl
  | cons r rest ih =>
    have ⟨apart_r, apart_rest⟩ := List.forall_mem_cons.1 apart
    have same := (valuesOnly_carryRow v delta e r).tableau
    rw [List.foldl_cons, ih ((valuesOnly_carryRow v delta e r).size.trans sized) (same ▸ well)
      (by rwa [same]), stored_carryRow_of_ne sized well apart_r]

/-- Carrying a move over to rows moves the base of each by its coefficient once, as no row is listed
twice and no two rows have one base. -/
theorem stored_foldl_carryRow_of_mem (sized : e.values.size = n) (well : e.tableau.WellFormed n)
    (nodup : rows.Nodup) (member : r ∈ rows) (found : e.tableau.get? r = some row) :
    (rows.foldl (carryRow v delta) e).stored row.base =
      e.stored row.base + carried v delta row := by
  induction rows generalizing e with
  | nil => cases member
  | cons q rest ih =>
    have ⟨absent, nodup_rest⟩ := List.nodup_cons.1 nodup
    have same := (valuesOnly_carryRow v delta e q).tableau
    have sized' := (valuesOnly_carryRow v delta e q).size.trans sized
    rw [List.foldl_cons]
    rcases List.mem_cons.1 member with rfl | later
    · have apart : ∀ p ∈ rest, ∀ other, e.tableau.get? p = some other → other.base ≠ row.base := by
        rintro p at_rest other at_p same_base
        obtain rfl := well.distinct at_p found same_base
        exact absent at_rest
      rw [stored_foldl_carryRow_of_ne sized' (same ▸ well) (by rwa [same]),
        stored_carryRow_of_base sized well found]
    · have apart : ∀ other, e.tableau.get? q = some other → other.base ≠ row.base := by
        rintro other at_q same_base
        obtain rfl := well.distinct at_q found same_base
        exact absent later
      rw [ih sized' (same ▸ well) nodup_rest later (by rwa [same]),
        stored_carryRow_of_ne sized well apart]

theorem nodup_rowsMentioning (t : Tableau) (v : Var) : (t.rowsMentioning v).Nodup :=
  List.nodup_range.filter _

/-- A moved variable gets its new value. -/
theorem stored_updateValue_self (sized : e.values.size = n) (well : e.tableau.WellFormed n)
    (lt : v < n) (free : ∀ r row, e.tableau.get? r = some row → row.base ≠ v) :
    (e.updateValue v delta).stored v = e.stored v + delta := by
  have same := (valuesOnly_setValue e v (e.stored v + delta)).tableau
  rw [updateValue, stored_foldl_carryRow_of_ne ((valuesOnly_setValue _ _ _).size.trans sized) (same ▸ well)
    (fun r _ row found => free r row (same ▸ found)), stored_setValue (sized ▸ lt), if_pos rfl]

/-- The base of a row follows a move. -/
theorem stored_updateValue_base (delta : InfRat) (sized : e.values.size = n) (well : e.tableau.WellFormed n)
    (lt : v < n) (free : ∀ r row, e.tableau.get? r = some row → row.base ≠ v)
    (found : e.tableau.get? r = some row) :
    (e.updateValue v delta).stored row.base = e.stored row.base + carried v delta row := by
  have same := (valuesOnly_setValue e v (e.stored v + delta)).tableau
  have sized' := (valuesOnly_setValue e v (e.stored v + delta)).size.trans sized
  have kept : (e.setValue v (e.stored v + delta)).stored row.base = e.stored row.base := by
    rw [stored_setValue (sized ▸ lt), if_neg (free r row found)]
  rw [updateValue]
  by_cases member : r ∈ e.tableau.rowsMentioning v
  · rw [stored_foldl_carryRow_of_mem sized' (same ▸ well) (nodup_rowsMentioning _ _) member
      (by rwa [same]), kept]
  · have absent : row.form.coeff v = 0 := not_not.1 fun occurs =>
      member (Tableau.mem_rowsMentioning.2 ⟨row, found, occurs⟩)
    have unmoved : carried v delta row = 0 := by
      rw [carried, absent, InfRat.scale_zero, ite_self]
    rw [unmoved, add_zero, stored_foldl_carryRow_of_ne sized' (same ▸ well), kept]
    rintro q at_q other found_q same_base
    obtain rfl := well.distinct (same ▸ found_q) found same_base
    exact member at_q

/-- Nothing else changes. -/
theorem stored_updateValue_of_ne (sized : e.values.size = n) (well : e.tableau.WellFormed n)
    (lt : v < n) (apart : w ≠ v) (free : ∀ r row, e.tableau.get? r = some row → row.base ≠ w) :
    (e.updateValue v delta).stored w = e.stored w := by
  have same := (valuesOnly_setValue e v (e.stored v + delta)).tableau
  rw [updateValue, stored_foldl_carryRow_of_ne ((valuesOnly_setValue _ _ _).size.trans sized) (same ▸ well)
    (fun r _ row found => free r row (same ▸ found)), stored_setValue (sized ▸ lt), if_neg apart]

/-! ## Variables to patch -/

theorem base_mem_toPatch_foldl (member : r ∈ rows) (found : e.tableau.get? r = some row)
    (settled : row.pending = false) : row.base ∈ (rows.foldl (carryRow v delta) e).toPatch := by
  induction rows generalizing e with
  | nil => cases member
  | cons q rest ih =>
    rw [List.foldl_cons]
    rcases List.mem_cons.1 member with rfl | later
    · refine (valuesOnly_foldl_carryRow rest v delta _).marked _ ?_
      simp only [carryRow, found, settled, Bool.false_eq_true, if_false]
      exact mem_insert_var.2 (.inl rfl)
    · exact ih later (by rwa [(valuesOnly_carryRow v delta e q).tableau])

/-- The base of a row in reduced form is to be patched after a move unless it kept its value. -/
theorem base_mem_toPatch_updateValue (found : e.tableau.get? r = some row)
    (settled : row.pending = false) (occurs : row.form.coeff v ≠ 0) :
    row.base ∈ (e.updateValue v delta).toPatch := by
  have same := (valuesOnly_setValue e v (e.stored v + delta)).tableau
  exact base_mem_toPatch_foldl (Tableau.mem_rowsMentioning.2 ⟨row, found, occurs⟩)
    (by rwa [same]) settled

end Moves

end ArithDecide.Engine
