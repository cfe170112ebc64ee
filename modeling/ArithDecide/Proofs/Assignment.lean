import ArithDecide.Proofs.Changes

/-!
# The assignment under moves, exchanges and new rows

A move of a variable that heads no row keeps every row in reduced form satisfied and leaves all other
such variables where they are; what it may break is that the moved variable lies within its bounds,
and that the bases of the rows that mention it do, which is why those are noted for repair.
-/

namespace ArithDecide.Engine

open State

variable {e : Engine} {v w : Var} {exempt : List Var} {delta : InfRat}

/-- A variable may be exempted, and an exempt one that is where it belongs needs no exemption. -/
theorem State.AssignedBut.of_exempt {s : State} (assigned : s.AssignedBut (v :: exempt))
    (within : v < s.numVars → s.kind v = .nonBase → s.bounds.admits v (s.stored v) = true) :
    s.AssignedBut exempt where
  rows := assigned.rows
  within w lt free apart := by
    by_cases same : w = v
    · subst same
      exact within lt free
    · exact assigned.within w lt free (by simp [same, apart])

theorem State.PatchedBut.of_exempt {s : State} (patched : s.PatchedBut (v :: exempt))
    (waiting : s.kind v ≠ .nonBase → s.bounds.admits v (s.stored v) = true ∨ v ∈ s.toPatch) :
    s.PatchedBut exempt := by
  intro r row found settled apart
  by_cases same : row.base = v
  · rw [same]
    exact waiting fun free => Tableau.kind_eq_nonBase_iff.1 free r row found same
  · exact patched r row found settled (by simp [same, apart])

theorem State.AssignedBut.mono {s : State} {more : List Var} (assigned : s.AssignedBut exempt)
    (subset : ∀ v ∈ exempt, v ∈ more) : s.AssignedBut more where
  rows := assigned.rows
  within v lt free apart := assigned.within v lt free fun member => apart (subset v member)

theorem State.PatchedBut.mono {s : State} {more : List Var} (patched : s.PatchedBut exempt)
    (subset : ∀ v ∈ exempt, v ∈ more) : s.PatchedBut more :=
  fun r row found settled apart => patched r row found settled fun member => apart (subset _ member)

/-- A row in reduced form mentions no variable that heads a row. -/
theorem State.Fitted.ne_base {s : State} (fitted : s.Fitted) {r q : RowId} {row other : Row}
    (found : s.tableau.get? r = some row) (settled : row.pending = false)
    (mentioned : row.form.mentions w = true) (at_q : s.tableau.get? q = some other) :
    other.base ≠ w := by
  rintro rfl
  exact LinearForm.mentions_iff.1 mentioned (fitted.tableau.separate found at_q (.inl settled))

/-- The values depend on what is stored and on the rows. -/
theorem State.value_congr {s t : State} (values : t.values = s.values)
    (rows : t.tableau.rows = s.tableau.rows) : t.value = s.value := by
  have get : t.tableau.get? = s.tableau.get? := by
    funext r
    rw [Tableau.get?, Tableau.get?, rows]
  have below (count : Nat) (w : Var) : t.valueBelow count w = s.valueBelow count w := by
    induction count generalizing w with
    | zero => rw [State.valueBelow, State.valueBelow, State.stored, State.stored, values]
    | succ count ih =>
      rw [State.valueBelow, State.valueBelow, funext ih, State.stored, State.stored, values,
        Tableau.rowOf?, Tableau.rowOf?, rows, get]
  funext w
  rw [State.value, State.value, below, State.numRows, State.numRows, rows]

/-- Only the base of a pending row has another value than the stored one. -/
theorem State.valueBelow_of_kind {s : State} (settled : s.kind v ≠ .pendingBase) (count : Nat) :
    s.valueBelow count v = s.stored v := by
  cases count with
  | zero => rfl
  | succ count =>
    rw [State.valueBelow]
    cases heads : (s.tableau.rowOf? v).bind s.tableau.get? with
    | none => rfl
    | some row =>
      rw [State.kind, Tableau.kind, heads] at settled
      exact if_neg fun pending => settled (if_pos pending)

theorem State.value_of_kind {s : State} (settled : s.kind v ≠ .pendingBase) :
    s.value v = s.stored v :=
  valueBelow_of_kind settled s.numRows

section Moves

variable (fitted : e.Fitted) (lt : v < e.numVars) (free : e.kind v = .nonBase)
include fitted lt free

/-- The rows follow a move, whether they hold or not. -/
theorem shift_updateValue {r : RowId} {row : Row} (found : e.tableau.get? r = some row)
    (settled : row.pending = false) :
    row.Holds fun w => (e.updateValue v delta).stored w - e.stored w := by
  have sized := fitted.values_size
  have well := fitted.tableau
  have heads_none := Tableau.kind_eq_nonBase_iff.1 free
  have moved : row.form.combine (e.updateValue v delta).stored =
      row.form.combine (Function.update e.stored v (e.stored v + delta)) := by
    refine LinearForm.combine_congr fun w mentioned => ?_
    by_cases same : w = v
    · subst same
      rw [stored_updateValue_self sized well lt heads_none, Function.update_self]
    · rw [stored_updateValue_of_ne sized well lt same
        fun q other at_q => fitted.ne_base found settled mentioned at_q,
        Function.update_of_ne same]
  rw [Row.Holds, LinearForm.combine_sub, moved, LinearForm.combine_update,
    stored_updateValue_base _ sized well lt heads_none found, add_sub_cancel_left, add_sub_cancel_left,
    add_sub_cancel_left, carried, settled, InfRat.smul_eq_scale]
  rfl

theorem holds_updateValue {r : RowId} {row : Row} (found : e.tableau.get? r = some row)
    (settled : row.pending = false) (holds : row.Holds e.stored) :
    row.Holds (e.updateValue v delta).stored := by
  have shift : row.Holds fun w => (e.updateValue v delta).stored w - e.stored w :=
    shift_updateValue fitted lt free found settled
  rw [Row.Holds, LinearForm.combine_sub, ← holds] at shift
  exact sub_left_injective shift

/-- A move may break the bounds of the moved variable only. -/
theorem State.AssignedBut.updateValue (assigned : e.AssignedBut exempt) (delta : InfRat) :
    (e.updateValue v delta).AssignedBut (v :: exempt) := by
  have sized := fitted.values_size
  have well := fitted.tableau
  have heads_none := Tableau.kind_eq_nonBase_iff.1 free
  have only := valuesOnly_updateValue e v delta
  constructor
  · intro r row found settled
    rw [only.tableau] at found
    exact holds_updateValue fitted lt free found settled (assigned.rows r row found settled)
  · intro w w_lt w_free apart
    rw [kind_congr only.tableau] at w_free
    rw [numVars_congr only.columns] at w_lt
    rw [List.mem_cons, not_or] at apart
    rw [only.bounds, stored_updateValue_of_ne sized well lt apart.1
      (Tableau.kind_eq_nonBase_iff.1 w_free)]
    exact assigned.within w w_lt w_free apart.2

/-- A base that a move carries along waits to be patched afterwards. -/
theorem State.PatchedBut.updateValue (patched : e.PatchedBut exempt) (delta : InfRat) :
    (e.updateValue v delta).PatchedBut exempt := by
  have only := valuesOnly_updateValue e v delta
  intro r row found settled apart
  rw [only.tableau] at found
  by_cases occurs : row.form.coeff v = 0
  · have unmoved : carried v delta row = 0 := by
      rw [carried, occurs, InfRat.scale_zero, ite_self]
    rw [only.bounds, stored_updateValue_base _ fitted.values_size fitted.tableau lt
      (Tableau.kind_eq_nonBase_iff.1 free) found, unmoved, add_zero]
    exact (patched r row found settled apart).imp_right (only.marked _)
  · exact .inr (base_mem_toPatch_updateValue found settled occurs)

/-- A variable that is moved to where its bounds allow stays within them. -/
theorem assigned_updateValue (assigned : e.AssignedBut [v])
    (admits : e.bounds.admits v (e.stored v + delta) = true) :
    (e.updateValue v delta).Assigned := by
  have only := valuesOnly_updateValue e v delta
  have heads_none := Tableau.kind_eq_nonBase_iff.1 free
  have moved : (e.updateValue v delta).AssignedBut [v] :=
    (assigned.updateValue fitted lt free delta).mono (by simp)
  refine moved.of_exempt fun _ _ => ?_
  rw [only.bounds, stored_updateValue_self fitted.values_size fitted.tableau lt heads_none]
  exact admits

end Moves

/-! ## New bounds -/

/-- A new bound concerns its variable only. -/
theorem admits_installed_of_ne {store next : BoundStore} {b : Bound}
    (installed : BoundStore.Installed store next b) (apart : w ≠ b.var) (x : InfRat) :
    next.admits w x = store.admits w x := by
  rw [Bool.eq_iff_iff, BoundStore.admits_iff, BoundStore.admits_iff]
  simp only [installed.get, apart, false_and, if_false]

/-- A new bound may break nothing but that its variable lies within it. -/
theorem State.AssignedBut.install {s : State} {store : BoundStore} {b : Bound}
    (assigned : s.AssignedBut exempt) (installed : BoundStore.Installed s.bounds store b) :
    AssignedBut { s with bounds := store } (b.var :: exempt) where
  rows := assigned.rows
  within w lt free apart := by
    rw [List.mem_cons, not_or] at apart
    exact (admits_installed_of_ne installed apart.1 _).trans (assigned.within w lt free apart.2)

theorem State.PatchedBut.install {s : State} {store : BoundStore} {b : Bound}
    (patched : s.PatchedBut exempt) (installed : BoundStore.Installed s.bounds store b) :
    PatchedBut { s with bounds := store } (b.var :: exempt) := by
  intro r row found settled apart
  rw [List.mem_cons, not_or] at apart
  refine (patched r row found settled apart.2).imp_left fun admits => ?_
  exact (admits_installed_of_ne installed apart.1 _).trans admits

/-- A value on the new bound is within both bounds. -/
theorem admits_installed_value {store next : BoundStore} {b : Bound}
    (installed : BoundStore.Installed store next b) : next.admits b.var b.value = true := by
  rw [BoundStore.admits_iff]
  intro side active at_side
  rw [installed.get] at at_side
  split at at_side
  · rename_i here
    obtain rfl := Option.some.inj at_side
    rw [here.2]
    exact BoundKind.admits_refl _ _
  · rename_i away
    have opposite : side = b.kind.opposite := by
      cases side <;> cases h : b.kind <;> simp_all [BoundKind.opposite]
    subst opposite
    exact BoundKind.opposite_admits.2 (installed.apart active at_side)

/-- A value that was within the bounds and respects the new one is within the new bounds. -/
theorem admits_installed {store next : BoundStore} {b : Bound} {x : InfRat}
    (installed : BoundStore.Installed store next b) (before : store.admits b.var x = true)
    (respects : b.kind.admits b.value x = true) : next.admits b.var x = true := by
  rw [BoundStore.admits_iff] at before ⊢
  intro side active at_side
  rw [installed.get] at at_side
  split at at_side
  · rename_i here
    obtain rfl := Option.some.inj at_side
    rw [here.2]
    exact respects
  · exact before side active at_side

/-- Moving the variable onto a bound that it violates, or noting it for repair, makes up for that
bound. -/
theorem assigned_respectBound {kind : BoundKind} {value : InfRat} (formed : e.Formed)
    (lt : v < e.numVars) (assigned : e.AssignedBut [v]) (admits : e.bounds.admits v value = true)
    (respects : e.kind v = .nonBase → kind.admits value (e.stored v) = true →
      e.bounds.admits v (e.stored v) = true) : (e.respectBound v kind value).Assigned := by
  rw [respectBound]
  cases role : e.kind v with
  | nonBase =>
    simp only
    split
    · refine assigned_updateValue formed.toFitted lt role assigned ?_
      rwa [add_sub_cancel]
    · rename_i inside
      have within := respects role
        (BoundKind.tighter_eq_false_iff.1 (Bool.eq_false_iff.2 inside))
      exact assigned.of_exempt fun _ _ => within
  | base | pendingBase =>
    have noted : (e.markToPatch v).AssignedBut [v] := assigned.congr rfl rfl rfl fun _ _ => rfl
    exact noted.of_exempt fun _ free => absurd (role.symm.trans free) (by simp)

theorem patched_respectBound {kind : BoundKind} {value : InfRat} (formed : e.Formed)
    (lt : v < e.numVars) (patched : e.PatchedBut [v]) : (e.respectBound v kind value).Patched := by
  rw [respectBound]
  cases role : e.kind v with
  | nonBase =>
    have heads_none : e.Patched := patched.of_exempt fun heads => absurd role heads
    simp only
    split
    · exact heads_none.updateValue formed.toFitted lt role _
    · exact heads_none
  | base | pendingBase =>
    have noted : (e.markToPatch v).PatchedBut [v] :=
      patched.congr rfl rfl (fun _ _ => rfl) fun w member => mem_insert_var.2 (.inr member)
    exact noted.of_exempt fun _ => .inr (mem_insert_var.2 (.inl rfl))

/-! ## Violations -/

/-- A base without violation lies within its bounds. -/
theorem admits_of_violation?_eq_none {r : RowId} (heads : e.tableau.rowOf? v = some r)
    (none_found : e.violation? v = none) : e.bounds.admits v (e.stored v) = true := by
  simp only [violation?, heads, Option.or_eq_none_iff, Option.map_eq_none_iff,
    Option.filter_eq_none_iff, BoundStore.value, Option.map_eq_some_iff] at none_found
  rw [BoundStore.admits_iff]
  intro side active at_side
  have not_tighter : ¬side.tighter active.value (e.stored v) = true := by
    cases side with
    | lower => exact none_found.1 _ ⟨active, at_side, rfl⟩
    | upper => exact none_found.2 _ ⟨active, at_side, rfl⟩
  exact BoundKind.tighter_eq_false_iff.1 (Bool.eq_false_iff.2 not_tighter)

/-- What a violation says. -/
structure Violates (e : Engine) (violation : Violation) : Prop where
  heads : e.tableau.rowOf? violation.base = some violation.row
  target : e.bounds.value violation.base violation.kind = some violation.target
  outside : violation.kind.tighter violation.target (e.stored violation.base) = true

theorem violates_of_violation? {violation : Violation} (found : e.violation? v = some violation) :
    violation.base = v ∧ e.Violates violation := by
  rw [violation?] at found
  split at found
  · cases found
  · rename_i r heads
    simp only [Option.or_eq_some_iff, Option.map_eq_some_iff, Option.filter_eq_some_iff] at found
    rcases found with ⟨bound, ⟨active, outside⟩, rfl⟩ | ⟨-, bound, ⟨active, outside⟩, rfl⟩
    · exact ⟨rfl, heads, active, outside⟩
    · exact ⟨rfl, heads, active, outside⟩

/-- A bound that a base violates is within both of its bounds. -/
theorem Violates.admits_target {violation : Violation} (ordered : ∀ v lower upper,
      e.bounds.get v .lower = some lower → e.bounds.get v .upper = some upper →
        lower.value ≤ upper.value) (violates : e.Violates violation) :
    e.bounds.admits violation.base violation.target = true := by
  obtain ⟨active, at_side, value_eq⟩ := Option.map_eq_some_iff.1 violates.target
  rw [BoundStore.admits_iff]
  intro side other at_other
  rw [← value_eq]
  cases side <;> cases role : violation.kind <;> rw [role] at at_side
  · rw [Option.some.inj (at_other.symm.trans at_side)]
    exact BoundKind.admits_refl _ _
  · exact BoundKind.admits_lower.2 (ordered _ _ _ at_other at_side)
  · exact BoundKind.admits_upper.2 (ordered _ _ _ at_side at_other)
  · rw [Option.some.inj (at_other.symm.trans at_side)]
    exact BoundKind.admits_refl _ _

/-- The base of a violated row is the base of that row. -/
theorem Violates.base_eq {violation : Violation} {row : Row} (violates : e.Violates violation)
    (found : e.tableau.get? violation.row = some row) : row.base = violation.base := by
  obtain ⟨row', at_row, same⟩ := Tableau.get?_of_rowOf? violates.heads
  obtain rfl := Option.some.inj (found.symm.trans at_row)
  exact same

theorem firstViolation?_eq_none {vs : List Var} (none_found : e.firstViolation? vs = none)
    (member : v ∈ vs) : e.violation? v = none := by
  induction vs with
  | nil => cases member
  | cons w rest ih =>
    rw [firstViolation?] at none_found
    split at none_found
    · cases none_found
    · rename_i here
      rcases List.mem_cons.1 member with rfl | later
      · exact here
      · exact ih none_found later

/-- The violation that is found first is one, and of the variables that are passed over none violates a
bound. -/
theorem firstViolation?_eq_some {vs rest : List Var} {violation : Violation}
    (found : e.firstViolation? vs = some (violation, rest)) :
    e.Violates violation ∧
      ∀ v ∈ vs, v ∈ rest ∨ v = violation.base ∨ e.violation? v = none := by
  induction vs with
  | nil => cases found
  | cons w others ih =>
    rw [firstViolation?] at found
    split at found
    · rename_i here
      obtain ⟨rfl, rfl⟩ := Prod.mk.inj (Option.some.inj found)
      obtain ⟨rfl, violates⟩ := violates_of_violation? here
      refine ⟨violates, fun v member => ?_⟩
      rcases List.mem_cons.1 member with same | later
      · exact .inr (.inl same)
      · exact .inl later
    · rename_i here
      obtain ⟨violates, kept⟩ := ih found
      refine ⟨violates, fun v member => ?_⟩
      rcases List.mem_cons.1 member with rfl | later
      · exact .inr (.inr here)
      · exact kept v later

/-- Dropping variables that violate nothing from those to be patched. -/
theorem State.PatchedBut.relax {vs : List Var} (fitted : e.Fitted) (patched : e.PatchedBut exempt)
    (dropped : ∀ v ∈ e.toPatch, v ∈ vs ∨ v ∈ exempt ∨ e.violation? v = none) :
    PatchedBut { e.toState with toPatch := vs } exempt := by
  intro r row found settled apart
  rcases patched r row found settled apart with admits | waits
  · exact .inl admits
  · rcases dropped _ waits with kept | is_exempt | harmless
    · exact .inr kept
    · exact absurd is_exempt apart
    · exact .inl (admits_of_violation?_eq_none (fitted.tableau.rowOf?_base found) harmless)

/-! ## Exchanges -/

theorem kind_eq_nonBase_of_mentioned {r : RowId} {row : Row} (fitted : e.Fitted)
    (found : e.tableau.get? r = some row) (settled : row.pending = false)
    (occurs : row.form.coeff v ≠ 0) : e.kind v = .nonBase :=
  Tableau.kind_eq_nonBase_iff.2 fun _ _ at_q =>
    fitted.ne_base found settled (LinearForm.mentions_iff.2 occurs) at_q

/-- The state after an exchange. -/
theorem pivotAndUpdate_toState (e : Engine) (violation : Violation) (row : Row) (entering : Var) :
    (e.pivotAndUpdate violation row entering).toState =
      let moved := e.updateValue entering
        ((violation.target - e.stored row.base).divide (row.form.coeff entering))
      { moved.toState with
        tableau := moved.tableau.pivot violation.row entering
        toPatch := SortedSet.insert entering moved.toPatch } := rfl

theorem columns_pivotAndUpdate (e : Engine) (violation : Violation) (row : Row) (entering : Var) :
    (e.pivotAndUpdate violation row entering).columns = e.columns := by
  rw [pivotAndUpdate_toState]
  exact (valuesOnly_updateValue _ _ _).columns

section Exchange

variable {violation : Violation} {row : Row} {entering : Var} (fitted : e.Fitted)
  (found : e.tableau.get? violation.row = some row) (occurs : row.form.coeff entering ≠ 0)
include fitted found occurs

/-- After an exchange the variable that left the row is where it was to be brought. -/
theorem stored_pivotAndUpdate_base (settled : row.pending = false) :
    (e.pivotAndUpdate violation row entering).stored row.base = violation.target := by
  have heads_none := Tableau.kind_eq_nonBase_iff.1
    (kind_eq_nonBase_of_mentioned fitted found settled occurs)
  rw [pivotAndUpdate_toState]
  show (e.updateValue entering _).stored row.base = violation.target
  rw [stored_updateValue_base _ fitted.values_size fitted.tableau
    (fitted.tableau.var_lt found occurs) heads_none found, carried, settled]
  simp only [Bool.false_eq_true, if_false]
  rw [InfRat.scale_divide occurs, add_sub_cancel]

/-- No variable that heads no row is moved by an exchange but the one that enters. -/
theorem stored_pivotAndUpdate_of_ne (free : e.kind v = .nonBase) (apart : v ≠ entering) :
    (e.pivotAndUpdate violation row entering).stored v = e.stored v := by
  rw [pivotAndUpdate_toState]
  exact stored_updateValue_of_ne fitted.values_size fitted.tableau
    (fitted.tableau.var_lt found occurs) apart (Tableau.kind_eq_nonBase_iff.1 free)

/-- An exchange replaces the violated base by the entering variable. -/
theorem kind_pivotAndUpdate_eq_nonBase_iff :
    (e.pivotAndUpdate violation row entering).kind v = .nonBase ↔
      v = row.base ∨ e.kind v = .nonBase ∧ v ≠ entering := by
  rw [pivotAndUpdate_toState]
  simp only [State.kind, (valuesOnly_updateValue e entering _).tableau]
  exact Tableau.kind_pivot_eq_nonBase_iff fitted.tableau found occurs

/-- An exchange keeps the rows satisfied and the variables that head no row within their bounds. -/
theorem assigned_pivotAndUpdate (normalized : e.tableau.Normalized)
    (assigned : e.AssignedBut [row.base])
    (admits : e.bounds.admits row.base violation.target = true) :
    (e.pivotAndUpdate violation row entering).Assigned := by
  have settled := normalized _ _ found
  have free := kind_eq_nonBase_of_mentioned fitted found settled occurs
  have heads_none := Tableau.kind_eq_nonBase_iff.1 free
  have lt : entering < e.numVars := fitted.tableau.var_lt found occurs
  have left := stored_pivotAndUpdate_base fitted found occurs settled
  have kind_iff (w : Var) := kind_pivotAndUpdate_eq_nonBase_iff (v := w) fitted found occurs
  rw [pivotAndUpdate_toState] at left kind_iff ⊢
  generalize (violation.target - e.stored row.base).divide (row.form.coeff entering) = theta
    at left kind_iff
  have only := valuesOnly_updateValue e entering theta
  have moved := assigned.updateValue fitted lt free theta
  have rows : e.tableau.Holds (e.updateValue entering theta).stored := fun q other at_q =>
    moved.rows q other (only.tableau ▸ at_q) (normalized q other at_q)
  constructor
  · intro q other at_q _
    simp only [only.tableau] at at_q
    exact (Tableau.holds_pivot found occurs _).2 rows q other at_q
  · intro w w_lt w_free _
    show (e.updateValue entering theta).bounds.admits w _ = true
    by_cases is_left : w = row.base
    · subst is_left
      rw [only.bounds]
      exact left.symm ▸ admits
    · obtain ⟨was_free, apart⟩ := ((kind_iff w).1 w_free).resolve_left is_left
      exact moved.within w (numVars_congr only.columns ▸ w_lt)
        ((kind_congr only.tableau w).trans was_free) (by simp [apart, is_left])

/-- What may be violated after an exchange is noted for repair. -/
theorem patched_pivotAndUpdate (normalized : e.tableau.Normalized)
    (patched : e.PatchedBut [row.base]) : (e.pivotAndUpdate violation row entering).Patched := by
  have free := kind_eq_nonBase_of_mentioned fitted found (normalized _ _ found) occurs
  rw [pivotAndUpdate_toState]
  generalize (violation.target - e.stored row.base).divide (row.form.coeff entering) = theta
  have only := valuesOnly_updateValue e entering theta
  have moved := patched.updateValue fitted (fitted.tableau.var_lt found occurs) free theta
  intro q other at_q _ _
  simp only [only.tableau] at at_q
  rw [Tableau.get?_pivot found, Option.map_eq_some_iff] at at_q
  obtain ⟨before, at_q, rfl⟩ := at_q
  split
  · exact .inr (mem_insert_var.2 (.inl rfl))
  · rename_i away
    have stays : before.base ∉ [row.base] := fun same =>
      away (fitted.tableau.distinct at_q found (List.mem_singleton.1 same))
    exact (moved q before (only.tableau ▸ at_q) (normalized q before at_q) stays).imp_right
      fun waits => mem_insert_var.2 (.inr waits)

/-- The same for the first violation, taken off those to be patched. -/
theorem assigned_exchange {rest : List Var} (ordered : ∀ v lower upper,
      e.bounds.get v .lower = some lower → e.bounds.get v .upper = some upper →
        lower.value ≤ upper.value) (normalized : e.tableau.Normalized) (assigned : e.Assigned)
    (first : e.firstViolation? e.toPatch = some (violation, rest)) :
    (({ e with toPatch := rest }).pivotAndUpdate violation row entering).Assigned := by
  obtain ⟨violates, -⟩ := firstViolation?_eq_some first
  have relaxed : ({ e with toPatch := rest } : Engine).AssignedBut [row.base] :=
    (assigned.mono (by simp)).congr rfl rfl rfl fun _ _ => rfl
  have fitted' : ({ e with toPatch := rest } : Engine).Fitted := ⟨fitted.values_size, fitted.tableau⟩
  have admits := violates.admits_target ordered
  rw [← violates.base_eq found] at admits
  exact assigned_pivotAndUpdate fitted' found occurs normalized relaxed admits

theorem patched_exchange {rest : List Var} (normalized : e.tableau.Normalized) (patched : e.Patched)
    (first : e.firstViolation? e.toPatch = some (violation, rest)) :
    (({ e with toPatch := rest }).pivotAndUpdate violation row entering).Patched := by
  obtain ⟨violates, kept⟩ := firstViolation?_eq_some first
  have relaxed : ({ e with toPatch := rest } : Engine).PatchedBut [row.base] := by
    refine (patched.mono (by simp)).relax fitted fun v waits => ?_
    rcases kept v waits with later | same | harmless
    · exact .inl later
    · refine .inr (.inl ?_)
      rw [violates.base_eq found, same]
      exact List.mem_singleton_self _
    · exact .inr (.inr harmless)
  have fitted' : ({ e with toPatch := rest } : Engine).Fitted := ⟨fitted.values_size, fitted.tableau⟩
  exact patched_pivotAndUpdate fitted' found occurs normalized relaxed

end Exchange

/-! ## Putting rows into reduced form -/

theorem normalizeRow_spec (e : Engine) (r : RowId) :
    ∃ mid, e.Becomes { e.toState with tableau := e.tableau.normalize r } mid ∧
      e.normalizeRow r = match mid.tableau.get? r with
        | none => mid
        | some row =>
          (mid.setValue row.base (row.form.evalInf mid.stored)).markToPatch row.base := by
  refine ⟨_, ?_, rfl⟩
  split <;> exact ⟨rfl, rfl⟩

/-- Apart from the tableau, putting a row into reduced form changes values only. -/
theorem valuesOnly_normalizeRow (e : Engine) (r : RowId) :
    ∃ mid, e.Becomes { e.toState with tableau := e.tableau.normalize r } mid ∧
      ValuesOnly mid (e.normalizeRow r) := by
  obtain ⟨mid, becomes, result⟩ := normalizeRow_spec e r
  refine ⟨mid, becomes, ?_⟩
  rw [result]
  split
  · exact .refl mid
  · exact (valuesOnly_setValue _ _ _).trans (valuesOnly_markToPatch _ _)

/-- A variable heads a row before exactly when it does after a row was put into reduced form. -/
theorem kind_normalize_eq_nonBase_iff {t : Tableau} {r : RowId} :
    (t.normalize r).kind v = .nonBase ↔ t.kind v = .nonBase := by
  rw [Tableau.kind_eq_nonBase_iff, Tableau.kind_eq_nonBase_iff]
  constructor
  · intro none_after q row at_q
    have after := Tableau.get?_normalize t r q
    rw [at_q, Option.map_some] at after
    have apart := none_after q _ after
    split at apart <;> exact apart
  · intro none_before q row at_q
    rw [Tableau.get?_normalize, Option.map_eq_some_iff] at at_q
    obtain ⟨before, at_q, rfl⟩ := at_q
    have apart := none_before q before at_q
    split <;> exact apart

/-- A row was put into reduced form, and its base has got the value of the row and waits for repair. -/
structure State.Reduced (s t : State) (r : RowId) (row : Row) : Prop where
  well : (s.tableau.normalize r).WellFormed s.numVars
  at_r : (s.tableau.normalize r).get? r = some row
  tableau : t.tableau = s.tableau.normalize r
  bounds : t.bounds = s.bounds
  numVars : t.numVars = s.numVars
  stored : ∀ w, t.stored w = if w = row.base then row.form.evalInf s.stored else s.stored w
  waiting : ∀ w, w = row.base ∨ w ∈ s.toPatch → w ∈ t.toPatch

section Reduced

variable {s t : State} {r : RowId} {row : Row} (reduced : s.Reduced t r row)
include reduced

/-- Rows and bounds hold as far as they did before. -/
theorem State.Reduced.assigned (assigned : s.AssignedBut exempt) : t.AssignedBut exempt where
  rows q other at_q settled := by
    rw [reduced.tableau] at at_q
    have apart := reduced.well.separate at_q reduced.at_r (.inl settled)
    have kept : other.form.combine t.stored = other.form.combine s.stored := by
      refine LinearForm.combine_congr fun w mentioned => ?_
      rw [reduced.stored, if_neg]
      rintro rfl
      exact LinearForm.mentions_iff.1 mentioned apart
    rw [Row.Holds, reduced.stored, kept]
    by_cases here : q = r
    · subst here
      obtain rfl := Option.some.inj (at_q.symm.trans reduced.at_r)
      rw [if_pos rfl, LinearForm.evalInf_eq_combine]
    · have away : other.base ≠ row.base := fun same =>
        here (reduced.well.distinct at_q reduced.at_r same)
      rw [Tableau.get?_normalize_of_ne here] at at_q
      rw [if_neg away]
      exact assigned.rows q other at_q settled
  within w lt free apart := by
    rw [State.kind, reduced.tableau] at free
    have away : w ≠ row.base := (Tableau.kind_eq_nonBase_iff.1 free _ _ reduced.at_r).symm
    rw [reduced.stored, if_neg away, reduced.bounds]
    exact assigned.within w (reduced.numVars ▸ lt) (kind_normalize_eq_nonBase_iff.1 free) apart

theorem State.Reduced.patched (patched : s.PatchedBut exempt) : t.PatchedBut exempt := by
  intro q other at_q settled apart
  rw [reduced.tableau] at at_q
  rw [reduced.stored, reduced.bounds]
  by_cases here : q = r
  · subst here
    obtain rfl := Option.some.inj (at_q.symm.trans reduced.at_r)
    exact .inr (reduced.waiting _ (.inl rfl))
  · have away : other.base ≠ row.base := fun same =>
      here (reduced.well.distinct at_q reduced.at_r same)
    rw [Tableau.get?_normalize_of_ne here] at at_q
    rw [if_neg away]
    exact (patched q other at_q settled apart).imp_right fun waits => reduced.waiting _ (.inr waits)

end Reduced

/-- A row that exists is put into reduced form. -/
theorem reduced_normalizeRow (formed : e.Formed) (r : RowId) :
    (e.normalizeRow r).toState = e.toState ∨
      ∃ row, e.toState.Reduced (e.normalizeRow r).toState r row := by
  obtain ⟨mid, becomes, result⟩ := normalizeRow_spec e r
  rw [result]
  have well := Tableau.wellFormed_normalize formed.tableau r
  have same_tableau : mid.tableau = e.tableau.normalize r := by rw [becomes.toState]
  cases found : mid.tableau.get? r with
  | none =>
    have absent : ∀ row, e.tableau.get? r = some row → row.pending = false := by
      intro row at_r
      rw [same_tableau, Tableau.get?_normalize, at_r] at found
      cases found
    exact .inl (by rw [becomes.toState, Tableau.normalize_of_not_pending absent])
  | some row =>
    rw [same_tableau] at found
    have mid_stored : mid.stored = e.stored := by rw [becomes.toState]; rfl
    have in_range : row.base < mid.values.size := by
      rw [becomes.toState]
      exact formed.values_size.symm ▸ well.base_lt found
    refine .inr ⟨row, well, found, ?_, ?_, ?_, fun w => ?_, fun w waits => ?_⟩
    · simp [becomes.toState]
    · simp [becomes.toState]
    · simp [State.numVars, becomes.toState]
    · rw [← mid_stored]
      exact stored_setValue in_range w
    · exact mem_insert_var.2 (by simpa [becomes.toState] using waits)

theorem assigned_normalizeRow (formed : e.Formed) (assigned : e.AssignedBut exempt) (r : RowId) :
    (e.normalizeRow r).AssignedBut exempt := by
  rcases reduced_normalizeRow formed r with same | ⟨row, reduced⟩
  · exact same.symm ▸ assigned
  · exact reduced.assigned assigned

theorem patched_normalizeRow (formed : e.Formed) (patched : e.PatchedBut exempt) (r : RowId) :
    (e.normalizeRow r).PatchedBut exempt := by
  rcases reduced_normalizeRow formed r with same | ⟨row, reduced⟩
  · exact same.symm ▸ patched
  · exact reduced.patched patched

section Pending

variable {x : InfRat} (formed : e.Formed) (role : e.kind v = .pendingBase)
include formed role

/-- The base of a pending row heads no row in reduced form. -/
theorem exists_pending_row : ∃ r row, e.tableau.get? r = some row ∧ row.base = v ∧
    v < e.values.size ∧ ∀ q other, e.tableau.get? q = some other → other.pending = false →
      other.base ≠ v := by
  rw [State.kind, Tableau.kind] at role
  split at role
  · cases role
  · rename_i row found
    obtain ⟨r, heads, at_r⟩ := Option.bind_eq_some_iff.1 found
    obtain ⟨row', at_r', same_base⟩ := Tableau.get?_of_rowOf? heads
    obtain rfl := Option.some.inj (at_r.symm.trans at_r')
    subst same_base
    have pending : row.pending = true := by
      cases h : row.pending <;> simp_all
    refine ⟨r, row, at_r, rfl, formed.values_size.symm ▸ formed.tableau.base_lt at_r,
      fun q other at_q settled same => ?_⟩
    obtain rfl := formed.tableau.distinct at_q at_r same
    obtain rfl := Option.some.inj (at_q.symm.trans at_r)
    exact absurd pending (by simp [settled])

/-- The stored value of the base of a pending row may be anything. -/
theorem assigned_setValue_of_pending (assigned : e.AssignedBut exempt) :
    (e.setValue v x).AssignedBut exempt := by
  obtain ⟨r, row, at_r, rfl, in_range, away⟩ := exists_pending_row formed role
  constructor
  · intro q other at_q settled
    rw [setValue_toState] at at_q
    rw [Row.Holds, stored_setValue in_range, if_neg (away q other at_q settled),
      assigned.rows q other at_q settled]
    refine LinearForm.combine_congr fun w mentioned => ?_
    rw [stored_setValue in_range, if_neg (formed.ne_base at_q settled mentioned at_r).symm]
  · intro w lt free apart
    rw [setValue_toState] at lt free
    have heads_none := Tableau.kind_eq_nonBase_iff.1 free
    rw [stored_setValue in_range, if_neg (heads_none _ _ at_r).symm, setValue_toState]
    exact assigned.within w lt free apart

theorem patched_setValue_of_pending (patched : e.PatchedBut exempt) :
    (e.setValue v x).PatchedBut exempt := by
  obtain ⟨-, -, -, -, in_range, away⟩ := exists_pending_row formed role
  intro q other at_q settled apart
  rw [setValue_toState] at at_q
  rw [stored_setValue in_range, if_neg (away q other at_q settled), setValue_toState]
  exact patched q other at_q settled apart

end Pending

/-! ## New rows and variables -/

/-- A row that was in reduced form before another one was added. -/
theorem get?_of_addRow {t : Tableau} {base : Var} {form : LinearForm} {q : RowId} {row : Row}
    (at_q : (t.addRow base form).get? q = some row) (settled : row.pending = false) :
    t.get? q = some row := by
  rw [Tableau.get?_addRow] at at_q
  split at at_q
  · rw [← Option.some.inj at_q] at settled
    cases settled
  · exact at_q

theorem State.AssignedBut.addRow {s : State} {base : Var} {form : LinearForm}
    (assigned : s.AssignedBut exempt) :
    AssignedBut { s with tableau := s.tableau.addRow base form } exempt := by
  constructor
  · intro q row at_q settled
    exact assigned.rows q row (get?_of_addRow at_q settled) settled
  · intro w lt free
    refine assigned.within w lt (Tableau.kind_eq_nonBase_iff.2 fun q row at_q => ?_)
    have in_range := (Array.getElem?_eq_some_iff.1 at_q).1
    refine Tableau.kind_eq_nonBase_iff.1 free q row ?_
    rw [Tableau.get?_addRow, if_neg (Nat.ne_of_lt in_range), at_q]

theorem State.PatchedBut.addRow {s : State} {base : Var} {form : LinearForm}
    (patched : s.PatchedBut exempt) :
    PatchedBut { s with tableau := s.tableau.addRow base form } exempt :=
  fun q row at_q settled => patched q row (get?_of_addRow at_q settled) settled

theorem admits_withVar (s : State) (column : Variable) (w : Var) (x : InfRat) :
    (s.withVar column).bounds.admits w x = s.bounds.admits w x :=
  admits_congr (BoundStore.get_addVar s.bounds) w x

theorem State.PatchedBut.withVar {s : State} (patched : s.PatchedBut exempt) (column : Variable) :
    (s.withVar column).PatchedBut exempt := by
  intro r row found settled apart
  rw [stored_withVar, admits_withVar]
  exact patched r row found settled apart

/-- A new variable has the value zero, no bounds and no row, so the assignment stays as right as it was.
-/
theorem State.AssignedBut.withVar {s : State} (formed : s.Formed) (assigned : s.AssignedBut exempt)
    (column : Variable) : (s.withVar column).AssignedBut exempt := by
  have stored := stored_withVar s column
  constructor
  · intro r row found settled
    rw [stored]
    exact assigned.rows r row found settled
  · intro w lt free apart
    rw [stored, admits_withVar]
    by_cases here : w < s.numVars
    · exact assigned.within w here free apart
    · rw [BoundStore.admits_iff]
      intro side active at_side
      have member := (formed.bounds.active at_side)
      exact absurd (member.2.1 ▸ formed.record_lt member.1) here

end ArithDecide.Engine
