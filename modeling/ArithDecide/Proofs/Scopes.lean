import ArithDecide.Engine.Problem
import ArithDecide.Proofs.Assignment

/-!
# What leaving a scope takes back

While a scope is open, no step of the engine changes the state to which leaving the scope leads:
`Engine.Inside` says so, and that whatever was saved stays saved. Values are the delicate part, since
only the first change of a variable in a scope is saved. `Engine.Stamped` is why that is enough: a
variable that bears the stamp of the open scope was saved in it.
-/

namespace ArithDecide.Engine

variable {e next last : Engine} {v w : Var} {x : InfRat}

namespace State

variable {s t u : State} {scope : Scope} {outer : List Scope}

/-- The value of the variable was saved since the innermost scope was entered. -/
def Saved (s : State) (v : Var) : Prop :=
  ∃ scope outer, s.scopes = scope :: outer ∧
    v ∈ (s.valueTrail.take (s.valueTrail.length - scope.valueTrail)).map Prod.fst

/-- The trail of values is at least as long as when the innermost scope was entered. -/
def Marked (s : State) : Prop :=
  ∀ scope outer, s.scopes = scope :: outer → scope.valueTrail ≤ s.valueTrail.length

theorem Formed.marked (formed : s.Formed) : s.Marked :=
  fun scope outer is_open => (formed.passed scope outer is_open).valueTrail

/-- The second state differs from the first one in the values of the variables and in how many scopes
were entered only. -/
structure Resembles (s t : State) : Prop where
  same : t = { s with values := t.values, scopesEntered := t.scopesEntered }
  size : t.values.size = s.values.size

theorem Resembles.refl (s : State) : s.Resembles s := ⟨rfl, rfl⟩

theorem Resembles.trans (first : s.Resembles t) (second : t.Resembles u) : s.Resembles u where
  same := by rw [second.same, first.same]
  size := second.size.trans first.size

theorem Resembles.settle (resembles : s.Resembles t) : s.settle.Resembles t.settle where
  same := by rw [resembles.same]; rfl
  size := resembles.size

@[simp] theorem size_restoredValues (s : State) (length : Nat) :
    (s.restoredValues length).size = s.values.size := by
  rw [restoredValues]
  generalize s.values = values
  induction s.valueTrail.take (s.valueTrail.length - length) generalizing values with
  | nil => rfl
  | cons saved rest ih => rw [List.foldl_cons, ih, restoreValue, Array.size_setIfInBounds]

theorem size_values_rewind (s : State) (scope : Scope) (outer : List Scope) :
    (s.rewind scope outer).values.size = min scope.numVars s.values.size := by
  rw [rewind, Array.take_eq_extract, Array.size_extract, size_restoredValues, Nat.sub_zero]

/-- Leaving the scope takes the stores of both states back to the same contents, apart from the
values. -/
structure Rewinds (s t : State) (scope : Scope) : Prop where
  columns : t.columns.take scope.numVars = s.columns.take scope.numVars
  size : min scope.numVars t.values.size = min scope.numVars s.values.size
  valueTrail : t.valueTrail.drop (t.valueTrail.length - scope.valueTrail) =
    s.valueTrail.drop (s.valueTrail.length - scope.valueTrail)
  tableau : t.tableau.undoTo scope.tableau = s.tableau.undoTo scope.tableau
  bounds : (t.bounds.retractTo scope.bounds).shrink scope.numVars =
    (s.bounds.retractTo scope.bounds).shrink scope.numVars
  dependencies : t.dependencies.truncate scope.dependencies =
    s.dependencies.truncate scope.dependencies
  atoms : t.atoms.retractTo scope.atoms = s.atoms.retractTo scope.atoms
  monomials : t.monomials.take scope.monomials = s.monomials.take scope.monomials
  given : t.given.take scope.given = s.given.take scope.given
  reported : t.reported.take scope.reported = s.reported.take scope.reported

theorem Rewinds.refl (s : State) (scope : Scope) : s.Rewinds s scope := by
  constructor <;> rfl

/-- What waits to be handed out, inspected or patched does not matter when a scope is left. -/
theorem Rewinds.settle (rewinds : s.Rewinds t scope) (outer : List Scope) :
    (s.rewind scope outer).settle.Resembles (t.rewind scope outer).settle where
  same := by
    obtain ⟨columns, -, valueTrail, tableau, bounds, dependencies, atoms, monomials, given,
      reported⟩ := rewinds
    have same : t.rewind scope outer =
        { s.rewind scope outer with
          values := (t.rewind scope outer).values
          scopesEntered := t.scopesEntered
          toPatch := t.toPatch
          touched := t.touched
          propagations := t.propagations
          equalities := t.equalities } := by
      simp only [rewind, columns, valueTrail, tableau, bounds, dependencies, atoms, monomials, given,
        reported]
    rw [same]
    rfl
  size := by
    show (t.rewind scope outer).values.size = (s.rewind scope outer).values.size
    rw [size_values_rewind, size_values_rewind, rewinds.size]

theorem Resembles.rewinds (resembles : s.Resembles t) (scope : Scope) : s.Rewinds t scope := by
  have size := resembles.size
  rw [resembles.same]
  exact { Rewinds.refl s scope with size := congrArg (min _) size }

theorem leave_of_open (is_open : s.scopes = scope :: outer) :
    s.leave = (s.rewind scope outer).settle := by
  rw [leave, is_open]

/-- Leaving a scope does not look at the values. -/
theorem Resembles.leave (resembles : s.Resembles t) : s.leave.Resembles t.leave := by
  have scopes : t.scopes = s.scopes := by rw [resembles.same]
  cases is_open : s.scopes with
  | nil =>
    rw [State.leave, State.leave, scopes, is_open]
    exact resembles
  | cons scope outer =>
    rw [leave_of_open is_open, leave_of_open (scopes.trans is_open)]
    exact (resembles.rewinds scope).settle outer

theorem Resembles.leave_iterate (resembles : s.Resembles t) (count : Nat) :
    (State.leave^[count] s).Resembles (State.leave^[count] t) := by
  induction count generalizing s t with
  | zero => exact resembles
  | succ count ih => exact ih resembles.leave

theorem Resembles.values_leave (resembles : s.Resembles t) (values : t.values = s.values) :
    t.leave.values = s.leave.values := by
  have same := resembles.same
  rw [values] at same
  rw [same, State.leave, State.leave]
  cases s.scopes with
  | nil => rfl
  | cons scope outer => rfl

theorem Resembles.values_leave_iterate (resembles : s.Resembles t) (values : t.values = s.values)
    (count : Nat) : (State.leave^[count] t).values = (State.leave^[count] s).values := by
  induction count generalizing s t with
  | zero => exact values
  | succ count ih => exact ih resembles.leave (resembles.values_leave values)

@[simp] theorem settle_settle (s : State) : s.settle.settle = s.settle := rfl

end State

/-! ## Staying inside a scope -/

/-- Stamps tell truly which variables were saved since the innermost scope was entered. -/
structure Stamped (e : Engine) : Prop where
  sized : e.valueStamps.size = e.numVars
  bounded : ∀ v id : Nat, e.valueStamps[v]? = some id → id ≤ e.scopesEntered
  current : e.scopeId ≤ e.scopesEntered
  positive : e.scopes ≠ [] → 0 < e.scopeId
  saved : e.scopes ≠ [] → ∀ v : Nat, e.valueStamps[v]? = some e.scopeId → e.Saved v

/-- The second engine is reached from the first one without leaving a scope that was open, and leaving
the innermost one leads to the same state from both, with the same values as long as numbers of scopes
do not come again. -/
structure Inside (e next : Engine) : Prop where
  scopes : next.scopes = e.scopes
  scopeId : next.scopeId = e.scopeId
  entered : e.scopesEntered ≤ next.scopesEntered
  leaves : ∀ scope outer, e.scopes = scope :: outer →
    (e.rewind scope outer).settle.Resembles (next.rewind scope outer).settle
  values : next.Numbered → e.Stamped → ∀ scope outer, e.scopes = scope :: outer →
    (next.rewind scope outer).values = (e.rewind scope outer).values
  trail : e.valueTrail.length ≤ next.valueTrail.length
  saved : ∀ v, e.Saved v → next.Saved v
  sized : e.valueStamps.size = e.numVars → next.valueStamps.size = next.numVars
  stamps : next.Numbered → ∀ v id : Nat, next.valueStamps[v]? = some id →
    e.valueStamps[v]? = some id ∨ id = 0 ∨ (id = e.scopeId ∧ next.Saved v) ∨
      (e.scopesEntered < id ∧ id ≤ next.scopesEntered)

theorem Inside.refl (e : Engine) : e.Inside e where
  scopes := rfl
  scopeId := rfl
  entered := Nat.le_refl _
  leaves _ _ _ := .refl _
  values _ _ _ _ _ := rfl
  trail := Nat.le_refl _
  saved _ saved := saved
  sized sized := sized
  stamps _ _ _ stamp := .inl stamp

/-- Fewer scopes were entered before. -/
theorem Inside.numbered (inside : e.Inside next) (numbered : next.Numbered) : e.Numbered :=
  Nat.lt_of_le_of_lt inside.entered numbered

theorem Inside.marked (inside : e.Inside next) (marked : e.Marked) : next.Marked :=
  fun scope outer is_open => (marked scope outer (inside.scopes ▸ is_open)).trans inside.trail

/-- Stamps stay true. -/
theorem Inside.stamped (inside : e.Inside next) (numbered : next.Numbered) (stamped : e.Stamped) :
    next.Stamped where
  sized := inside.sized stamped.sized
  bounded v id stamp := by
    rcases inside.stamps numbered v id stamp with before | rfl | ⟨rfl, -⟩ | ⟨-, below⟩
    · exact (stamped.bounded v id before).trans inside.entered
    · exact Nat.zero_le _
    · exact stamped.current.trans inside.entered
    · exact below
  current := inside.scopeId ▸ stamped.current.trans inside.entered
  positive is_open := inside.scopeId ▸ stamped.positive (inside.scopes ▸ is_open)
  saved is_open v stamp := by
    rw [inside.scopes] at is_open
    rw [inside.scopeId] at stamp
    have positive := stamped.positive is_open
    have current := stamped.current
    rcases inside.stamps numbered v _ stamp with before | zero | ⟨-, saved⟩ | ⟨above, -⟩
    · exact inside.saved v (stamped.saved is_open v before)
    · omega
    · exact saved
    · omega

/-- Staying inside of a scope twice is staying inside of it. -/
theorem Inside.trans (first : e.Inside next) (second : next.Inside last) : e.Inside last where
  scopes := second.scopes.trans first.scopes
  scopeId := second.scopeId.trans first.scopeId
  entered := first.entered.trans second.entered
  leaves scope outer is_open :=
    (first.leaves scope outer is_open).trans (second.leaves scope outer (first.scopes.trans is_open))
  values numbered stamped scope outer is_open := by
    have between := second.numbered numbered
    exact (second.values numbered (first.stamped between stamped) scope outer
      (first.scopes.trans is_open)).trans (first.values between stamped scope outer is_open)
  trail := first.trail.trans second.trail
  saved v saved := second.saved v (first.saved v saved)
  sized sized := second.sized (first.sized sized)
  stamps numbered v id stamp := by
    have between := second.numbered numbered
    rcases second.stamps numbered v id stamp with before | zero | ⟨same, saved⟩ | ⟨above, below⟩
    · rcases first.stamps between v id before with before | zero | ⟨same, saved⟩ | ⟨above, below⟩
      · exact .inl before
      · exact .inr (.inl zero)
      · exact .inr (.inr (.inl ⟨same, second.saved v saved⟩))
      · exact .inr (.inr (.inr ⟨above, below.trans second.entered⟩))
    · exact .inr (.inl zero)
    · exact .inr (.inr (.inl ⟨same.trans first.scopeId, saved⟩))
    · exact .inr (.inr (.inr ⟨Nat.lt_of_le_of_lt first.entered above, below⟩))

/-- A change of stores that leaving a scope takes back. -/
theorem Becomes.inside {s : State} (becomes : e.Becomes s next) (scopes : s.scopes = e.scopes)
    (scopeId : s.scopeId = e.scopeId) (entered : s.scopesEntered = e.scopesEntered)
    (values : s.values = e.values) (valueTrail : s.valueTrail = e.valueTrail)
    (columns : s.columns = e.columns)
    (rewinds : ∀ scope outer, e.scopes = scope :: outer → e.Rewinds s scope) : e.Inside next where
  scopes := by rw [becomes.toState, scopes]
  scopeId := by rw [becomes.toState, scopeId]
  entered := by rw [becomes.toState, entered]
  leaves scope outer is_open := by
    rw [becomes.toState]
    exact (rewinds scope outer is_open).settle outer
  values _ _ scope outer _ := by
    simp only [becomes.toState, State.rewind, State.restoredValues, values, valueTrail]
  trail := by rw [becomes.toState, valueTrail]
  saved v saved := by
    rw [becomes.toState, State.Saved, scopes, valueTrail]
    exact saved
  sized sized := by
    rw [becomes.valueStamps, becomes.toState, sized, State.numVars, State.numVars, columns]
  stamps _ v id stamp := .inl (becomes.valueStamps ▸ stamp)

/-! ## Values -/

/-- What is given back later hides a value given now. -/
theorem foldl_restoreValue_set {changes : List (Var × InfRat)} {values : Array InfRat}
    (saved : v ∈ changes.map Prod.fst) :
    changes.foldl State.restoreValue (values.setIfInBounds v x) =
      changes.foldl State.restoreValue values := by
  induction changes generalizing values with
  | nil => cases saved
  | cons change rest ih =>
    obtain ⟨w, y⟩ := change
    simp only [List.foldl_cons, State.restoreValue]
    by_cases same : v = w
    · subst same
      rw [Array.setIfInBounds_setIfInBounds]
    · have later : v ∈ rest.map Prod.fst := by
        simpa [same] using saved
      rw [Array.setIfInBounds_comm _ _ same, ih later]

theorem restoreValue_set (s : State) (v : Var) (x : InfRat) :
    State.restoreValue (s.values.setIfInBounds v x) (v, s.stored v) = s.values := by
  rw [State.restoreValue, Array.setIfInBounds_setIfInBounds, State.stored]
  cases found : s.values[v]? with
  | none => exact setIfInBounds_of_size_le (Array.getElem?_eq_none_iff.1 found)
  | some y =>
    have kept : (s.values.setIfInBounds v y).setIfInBounds v y = s.values :=
      setIfInBounds_getElem? found
    rw [Array.setIfInBounds_setIfInBounds] at kept
    exact kept

/-- Giving a value is taken back: either it is the first change of the variable in the scope and its
value before is saved, or an earlier value is saved already. -/
theorem inside_setValue (marked : e.Marked) (v : Var) (x : InfRat) : e.Inside (e.setValue v x) where
  scopes := by rw [setValue_toState]
  scopeId := by rw [setValue_toState]
  entered := by rw [setValue_toState]
  leaves scope outer is_open := by
    have longer := marked scope outer is_open
    rw [setValue_toState]
    refine State.Rewinds.settle ?_ outer
    have size : min scope.numVars (e.values.setIfInBounds v x).size =
        min scope.numVars e.values.size := by
      rw [Array.size_setIfInBounds]
    cases saves : e.saves v with
    | true =>
      rw [savedTrail, if_pos saves]
      exact
        { State.Rewinds.refl e.toState scope with
          size := size
          valueTrail := drop_cons_length longer }
    | false =>
      rw [savedTrail, if_neg (by simp [saves])]
      exact { State.Rewinds.refl e.toState scope with size := size }
  values _ stamped scope outer is_open := by
    have longer := marked scope outer is_open
    rw [setValue_toState]
    refine congrArg (fun a : Array InfRat => a.take scope.numVars) ?_
    cases saves : e.saves v with
    | true =>
      rw [savedTrail, if_pos saves]
      exact foldl_take_cons (restoreValue_set e.toState v x) longer
    | false =>
      rw [savedTrail, if_neg (by simp [saves])]
      have is_stamped : e.valueStamps[v]? = some e.scopeId := by
        simpa [Engine.saves, is_open] using saves
      obtain ⟨scope', outer', is_open', saved⟩ := stamped.saved (by simp [is_open]) v is_stamped
      obtain ⟨rfl, rfl⟩ := List.cons.inj (is_open.symm.trans is_open')
      exact foldl_restoreValue_set saved
  trail := (valuesOnly_setValue e v x).trail
  saved w saved := by
    obtain ⟨scope, outer, is_open, saved⟩ := saved
    rw [setValue_toState]
    refine ⟨scope, outer, is_open, ?_⟩
    simp only [savedTrail]
    split
    · rw [List.length_cons, Nat.succ_sub (marked scope outer is_open), List.take_succ_cons,
        List.map_cons]
      exact List.mem_cons_of_mem _ saved
    · exact saved
  sized sized := by
    rw [setValue_valueStamps, setValue_toState]
    split
    · rw [Array.size_setIfInBounds]
      exact sized
    · exact sized
  stamps _ w id stamp := by
    rw [setValue_valueStamps] at stamp
    split at stamp
    · rename_i saves
      rw [Array.getElem?_setIfInBounds] at stamp
      split at stamp
      · rename_i here
        subst here
        split at stamp
        · refine .inr (.inr (.inl ⟨(Option.some.inj stamp).symm, ?_⟩))
          have is_open : e.scopes ≠ [] := by
            intro closed
            simp [Engine.saves, closed] at saves
          obtain ⟨scope, outer, is_open⟩ := List.exists_cons_of_ne_nil is_open
          rw [setValue_toState]
          refine ⟨scope, outer, is_open, ?_⟩
          simp only [savedTrail, saves, if_true]
          rw [List.length_cons, Nat.succ_sub (marked scope outer is_open), List.take_succ_cons,
            List.map_cons]
          exact List.mem_cons_self
        · cases stamp
      · exact .inl stamp
    · exact .inl stamp

/-! ## Moves, exchanges and new rows -/

theorem inside_markToPatch (e : Engine) (v : Var) : e.Inside (e.markToPatch v) :=
  Becomes.inside ⟨rfl, rfl⟩ rfl rfl rfl rfl rfl rfl fun scope _ _ =>
    { State.Rewinds.refl e.toState scope with }

theorem inside_carryRow (marked : e.Marked) (v : Var) (delta : InfRat) (r : RowId) :
    e.Inside (carryRow v delta e r) := by
  rw [carryRow]
  cases e.tableau.get? r with
  | none => exact .refl e
  | some row =>
    simp only
    split
    · exact .refl e
    · exact (inside_setValue marked _ _).trans (inside_markToPatch _ _)

theorem inside_foldl_carryRow (marked : e.Marked) (rows : List RowId) (v : Var)
    (delta : InfRat) : e.Inside (rows.foldl (carryRow v delta) e) := by
  induction rows generalizing e with
  | nil => exact .refl e
  | cons r rest ih =>
    have first := inside_carryRow marked v delta r
    exact first.trans (ih (first.marked marked))

theorem inside_updateValue (marked : e.Marked) (v : Var) (delta : InfRat) :
    e.Inside (e.updateValue v delta) := by
  have first := inside_setValue marked v (e.stored v + delta)
  exact first.trans (inside_foldl_carryRow (first.marked marked) _ _ _)

theorem inside_respectBound (marked : e.Marked) (v : Var) (kind : BoundKind) (value : InfRat) :
    e.Inside (e.respectBound v kind value) := by
  rw [respectBound]
  cases e.kind v with
  | nonBase =>
    simp only
    split
    · exact inside_updateValue marked _ _
    · exact .refl e
  | base | pendingBase => exact inside_markToPatch e v

/-- Changes of the tableau are taken back as long as they are recorded. -/
theorem Becomes.inside_tableau {tableau : Tableau}
    (becomes : e.Becomes { e.toState with tableau := tableau } next)
    (undone : ∀ scope outer, e.scopes = scope :: outer →
      tableau.undoTo scope.tableau = e.tableau.undoTo scope.tableau) : e.Inside next :=
  becomes.inside rfl rfl rfl rfl rfl rfl fun scope outer is_open =>
    { State.Rewinds.refl e.toState scope with tableau := undone scope outer is_open }

theorem State.Formed.recording_of_open {s : State} (formed : s.Formed) {scope : Scope}
    {outer : List Scope} (is_open : s.scopes = scope :: outer) : s.tableau.recording = true := by
  rw [formed.recording, is_open]
  rfl

theorem inside_normalizeRow (formed : e.Formed) (r : RowId) : e.Inside (e.normalizeRow r) := by
  obtain ⟨mid, becomes, result⟩ := normalizeRow_spec e r
  have first : e.Inside mid := becomes.inside_tableau fun scope outer is_open =>
    Tableau.undoTo_normalize (formed.recording_of_open is_open)
      (formed.passed scope outer is_open).tableau r
  rw [result]
  split
  · exact first
  · exact first.trans ((inside_setValue (first.marked formed.marked) _ _).trans
      (inside_markToPatch _ _))

/-- An exchange stays inside of the scope: the trail has the row as it was, and values that change are
saved. -/
theorem inside_pivotAndUpdate (formed : e.Formed) (normalized : e.tableau.Normalized)
    {violation : Violation} {row : Row} {entering : Var}
    (found : e.tableau.get? violation.row = some row) (occurs : row.form.coeff entering ≠ 0) :
    e.Inside (e.pivotAndUpdate violation row entering) := by
  have toState := pivotAndUpdate_toState e violation row entering
  have stamps_eq : (e.pivotAndUpdate violation row entering).valueStamps =
      (e.updateValue entering ((violation.target - e.stored row.base).divide
        (row.form.coeff entering))).valueStamps := rfl
  generalize (violation.target - e.stored row.base).divide (row.form.coeff entering) = theta at *
  have only := valuesOnly_updateValue e entering theta
  refine (inside_updateValue formed.marked entering theta).trans
    (Becomes.inside ⟨toState, stamps_eq⟩ rfl rfl rfl rfl rfl rfl fun scope outer is_open => ?_)
  rw [only.scopes] at is_open
  have undone : ((e.updateValue entering theta).tableau.pivot violation.row entering).undoTo
      scope.tableau = (e.updateValue entering theta).tableau.undoTo scope.tableau := by
    rw [only.tableau]
    exact Tableau.undoTo_pivot (formed.recording_of_open is_open)
      (formed.passed scope outer is_open).tableau formed.tableau normalized found occurs
  exact { State.Rewinds.refl (e.updateValue entering theta).toState scope with tableau := undone }

/-! ## New variables -/

theorem take_foldl_restoreValue (changes : List (Var × InfRat)) (values : Array InfRat) (n : Nat) :
    (changes.foldl State.restoreValue values).take n =
      changes.foldl State.restoreValue (values.take n) := by
  induction changes generalizing values with
  | nil => rfl
  | cons change rest ih =>
    rw [List.foldl_cons, List.foldl_cons, ih, State.restoreValue, State.restoreValue,
      take_setIfInBounds]

theorem mkVar_toState (e : Engine) (sort : NumSort) (term : Term) :
    (e.mkVar sort term).1.toState = e.toState.withVar ⟨sort, term⟩ := rfl

/-- A new variable stays inside of the scope: leaving it drops the variable with all that was stored for
it. -/
theorem inside_mkVar (formed : e.Formed) (sort : NumSort) (term : Term) :
    e.Inside (e.mkVar sort term).1 where
  scopes := rfl
  scopeId := rfl
  entered := Nat.le_refl _
  leaves scope outer is_open := by
    have passed := formed.passed scope outer is_open
    have values : scope.numVars ≤ e.values.size := formed.values_size ▸ passed.numVars
    have lower : scope.numVars ≤ e.bounds.slots.lower.size :=
      formed.bounds.lower_size ▸ passed.numVars
    have upper : scope.numVars ≤ e.bounds.slots.upper.size :=
      formed.bounds.upper_size ▸ passed.numVars
    rw [mkVar_toState]
    refine State.Rewinds.settle ?_ outer
    exact
      { State.Rewinds.refl e.toState scope with
        columns := take_push passed.numVars _
        size := by
          rw [show (e.toState.withVar ⟨sort, term⟩).values = e.values.push 0 from rfl, Array.size_push,
            Nat.min_eq_left values, Nat.min_eq_left (Nat.le_succ_of_le values)]
        bounds := BoundStore.shrink_retractTo_addVar lower upper }
  values _ _ scope outer is_open := by
    have passed := formed.passed scope outer is_open
    have values : scope.numVars ≤ e.values.size := formed.values_size ▸ passed.numVars
    show (State.restoredValues _ _).take scope.numVars = (State.restoredValues _ _).take scope.numVars
    rw [State.restoredValues, State.restoredValues, take_foldl_restoreValue, take_foldl_restoreValue]
    exact congrArg (List.foldl State.restoreValue · _) (take_push values 0)
  trail := Nat.le_refl _
  saved _ saved := saved
  sized sized := by
    show (e.valueStamps.push 0).size = (e.toState.withVar ⟨sort, term⟩).numVars
    rw [Array.size_push, sized, State.numVars_withVar]
  stamps _ v id stamp := by
    change (e.valueStamps.push 0)[v]? = some id at stamp
    rw [Array.getElem?_push] at stamp
    split at stamp
    · exact .inr (.inl (Option.some.inj stamp).symm)
    · exact .inl stamp

/-! ## Entering and leaving -/

/-- Leaving a scope right after it was entered only settles the state. -/
theorem State.leave_enter {s : State} (formed : s.Formed) :
    s.enter.leave = { s.settle with scopesEntered := s.scopesEntered + 1 } := by
  have columns : s.columns.take s.numVars = s.columns := take_size _
  have values : s.values.take s.numVars = s.values := by
    rw [← formed.values_size]
    exact take_size _
  have lower : s.bounds.slots.lower.take s.numVars = s.bounds.slots.lower := by
    rw [← formed.bounds.lower_size]
    exact take_size _
  have upper : s.bounds.slots.upper.take s.numVars = s.bounds.slots.upper := by
    rw [← formed.bounds.upper_size]
    exact take_size _
  have bounds : s.bounds.shrink s.numVars = s.bounds := by
    rw [BoundStore.shrink, BoundSlots.shrink, lower, upper]
  have nodes : s.dependencies.nodes.take s.dependencies.nodes.size = s.dependencies.nodes :=
    take_size _
  have same : s.enter.rewind s.scope s.scopes =
      { s with scopesEntered := s.scopesEntered + 1 } := by
    simp only [rewind, enter, scope, restoredValues, Tableau.undoTo, Nat.sub_self, List.take_zero,
      List.foldl_nil, List.drop_zero, columns, values, BoundStore.retractTo_mark, bounds,
      DependencyArena.truncate, nodes, AtomRegistry.retractTo_mark, List.take_length,
      ← formed.recording]
  have is_open : s.enter.scopes = s.scope :: s.scopes := rfl
  rw [leave_of_open is_open, same]
  rfl

end ArithDecide.Engine
