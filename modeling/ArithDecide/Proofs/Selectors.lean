import ArithDecide.Proofs.Propagation

/-!
# Propagation does not ask the selector

The selector is asked for case splits only, so an engine propagates in the same way whichever selector
is installed: `Engine.propagate_selecting`. A search installs its own selector first, and by this it
finds the bounds that propagation finds without it.
-/

namespace ArithDecide.Engine

variable {a b : Engine} {s : Selector}

/-- The engine with another selector. -/
def selecting (s : Selector) (e : Engine) : Engine := { e with selector := s }

/-- A result with another selector in the engine. -/
def selectingIn {α : Type} (s : Selector) (result : Engine × α) : Engine × α :=
  (result.1.selecting s, result.2)

theorem selecting_toState (same : b = a.selecting s) : b.toState = a.toState := by
  rw [same]
  rfl

theorem selecting_foldl {α : Type} {step : Engine → α → Engine}
    (each : ∀ {a b : Engine}, b = a.selecting s → ∀ i, step b i = (step a i).selecting s)
    (items : List α) (same : b = a.selecting s) :
    items.foldl step b = (items.foldl step a).selecting s := by
  induction items generalizing a b with
  | nil => exact same
  | cons i rest ih => exact ih (each same i)

/-- A step after one that may report a conflict. -/
theorem selecting_andThen {x y : Engine × Bool} {f g : Engine → Engine × Bool} :
    y = selectingIn s x → (∀ {a b : Engine}, b = a.selecting s → g b = selectingIn s (f a)) →
      (match y with
        | (next, true) => g next
        | (next, false) => (next, false)) =
      selectingIn s (match x with
        | (next, true) => f next
        | (next, false) => (next, false)) := by
  obtain ⟨next, ok⟩ := x
  rintro rfl rest
  cases ok with
  | true => exact rest rfl
  | false => rfl

theorem selecting_forEach {α : Type} {step : Engine → α → Engine × Bool}
    (each : ∀ {a b : Engine}, b = a.selecting s → ∀ i, step b i = selectingIn s (step a i))
    (items : List α) (same : b = a.selecting s) :
    forEach step items b = selectingIn s (forEach step items a) := by
  induction items generalizing a b with
  | nil => exact same ▸ rfl
  | cons i rest ih =>
    rw [forEach, forEach]
    exact selecting_andThen (each same i) fun later => ih later

/-! ## Values and bounds -/

section

variable (same : b = a.selecting s)
include same

theorem selecting_setValue (v : Var) (x : InfRat) :
    b.setValue v x = (a.setValue v x).selecting s := by
  subst same
  simp only [setValue, apply_ite (selecting s)]
  rfl

theorem selecting_setConflict (d : Dependency) :
    b.setConflict d = (a.setConflict d).selecting s := by
  subst same
  simp only [setConflict, apply_ite (selecting s)]
  rfl

theorem selecting_joinReasons (reasons : List Dependency) :
    b.joinReasons reasons = selectingIn s (a.joinReasons reasons) := by
  subst same
  rfl

theorem selecting_declareChecking : b.declareChecking = a.declareChecking.selecting s := by
  subst same
  simp only [declareChecking, apply_ite (selecting s)]
  rfl

theorem selecting_carryRow (v : Var) (delta : InfRat) (r : RowId) :
    carryRow v delta b r = (carryRow v delta a r).selecting s := by
  rw [carryRow, carryRow, selecting_toState same]
  cases a.tableau.get? r with
  | none => exact same
  | some row =>
    simp only [apply_ite (selecting s), selecting_setValue same]
    exact same ▸ rfl

theorem selecting_updateValue (v : Var) (delta : InfRat) :
    b.updateValue v delta = (a.updateValue v delta).selecting s := by
  rw [updateValue, updateValue, selecting_toState same]
  exact selecting_foldl (fun later r => selecting_carryRow later v delta r) _ (selecting_setValue same _ _)

theorem selecting_restore (r : RowId) : (match b.tableau.get? r with
      | none => b
      | some row => (b.setValue row.base (row.form.evalInf b.stored)).markToPatch row.base) =
    (match a.tableau.get? r with
      | none => a
      | some row =>
        (a.setValue row.base (row.form.evalInf a.stored)).markToPatch row.base).selecting s := by
  rw [selecting_toState same]
  cases a.tableau.get? r with
  | none => exact same
  | some row => exact congrArg (markToPatch · row.base) (selecting_setValue same _ _)

theorem selecting_normalizeRow (r : RowId) : b.normalizeRow r = (a.normalizeRow r).selecting s := by
  rw [normalizeRow, normalizeRow]
  refine selecting_restore ?_ r
  subst same
  simp only [apply_ite (selecting s)]
  rfl

theorem selecting_normalizePendingRows :
    b.normalizePendingRows = a.normalizePendingRows.selecting s := by
  have rows : b.pendingRows = a.pendingRows := same ▸ rfl
  rw [normalizePendingRows, normalizePendingRows, rows]
  exact selecting_foldl selecting_normalizeRow _ same

theorem selecting_respectBound (v : Var) (kind : BoundKind) (value : InfRat) :
    b.respectBound v kind value = (a.respectBound v kind value).selecting s := by
  rw [respectBound, respectBound, selecting_toState same]
  cases a.kind v with
  | nonBase =>
    simp only [selecting_updateValue same, apply_ite (selecting s)]
    exact same ▸ rfl
  | base => exact same ▸ rfl
  | pendingBase => exact same ▸ rfl

theorem selecting_propagateAtom (i : AtomId) :
    b.propagateAtom i = (a.propagateAtom i).selecting s := by
  have decided : b.decided? = a.decided? := same ▸ rfl
  rw [propagateAtom, propagateAtom, selecting_toState same]
  generalize (a.atoms.get? i).filter _ = candidate
  cases candidate with
  | none => exact same
  | some atom =>
    simp only [decided]
    subst same
    cases a.decided? atom.var atom.kind atom.threshold <;> rfl

theorem selecting_propagateAtomsOn (v : Var) :
    b.propagateAtomsOn v = (a.propagateAtomsOn v).selecting s := by
  rw [propagateAtomsOn, propagateAtomsOn, selecting_toState same]
  exact selecting_foldl selecting_propagateAtom _ same

theorem selecting_afterTightening (v : Var) (kind : BoundKind) (value : InfRat)
    (origin : BoundOrigin) : b.afterTightening v kind value origin =
      (a.afterTightening v kind value origin).selecting s := by
  have finish {c d : Engine} (same : d = c.selecting s) :
      (if d.toPatch.isEmpty then d else d.declareChecking).propagateAtomsOn v =
        ((if c.toPatch.isEmpty then c else c.declareChecking).propagateAtomsOn v).selecting s := by
    refine selecting_propagateAtomsOn ?_ v
    rw [selecting_toState same, selecting_declareChecking same, apply_ite (selecting s), same]
  rw [afterTightening, afterTightening]
  refine finish (selecting_respectBound ?_ _ _ _)
  subst same
  simp only [apply_ite (selecting s)]
  rfl

/-- No bound depends on the selector. -/
theorem selecting_installBound (v : Var) (kind : BoundKind) (value : InfRat) (reason : Dependency)
    (origin : BoundOrigin) : b.installBound v kind value reason origin =
      selectingIn s (a.installBound v kind value reason origin) := by
  have rounded : b.roundBound = a.roundBound := same ▸ rfl
  rw [installBound, installBound, rounded, selecting_toState same]
  cases a.bounds.assert ⟨v, kind, a.roundBound v kind value, reason, origin⟩ with
  | conflict opposite =>
    simp only [selecting_joinReasons same]
    exact congrArg (Prod.mk · false) (selecting_setConflict rfl _)
  | unchanged store =>
    subst same
    rfl
  | tightened store =>
    refine congrArg (Prod.mk · true) (selecting_afterTightening ?_ _ _ _ _)
    subst same
    rfl

theorem selecting_installLiteral (l : Literal) :
    b.installLiteral l = selectingIn s (a.installLiteral l) := by
  rw [installLiteral, installLiteral, selecting_toState same]
  cases a.atoms.get? l.atom with
  | none => exact same ▸ rfl
  | some atom =>
    refine selecting_installBound ?_ _ _ _ _ _
    subst same
    rfl

end

theorem selecting_installQueued (count : Nat) (same : b = a.selecting s) :
    installQueued count b = selectingIn s (installQueued count a) := by
  induction count generalizing a b with
  | zero => exact same ▸ rfl
  | succ count ih =>
    rw [installQueued, installQueued, selecting_toState same]
    cases a.atoms.next? with
    | none => exact same ▸ rfl
    | some taken =>
      refine selecting_andThen (selecting_installLiteral ?_ _) fun later => ih later
      subst same
      rfl

/-! ## Repairs -/

section

variable (same : b = a.selecting s)
include same

theorem selecting_pivotAndUpdate (violation : Violation) (row : Row) (entering : Var) :
    b.pivotAndUpdate violation row entering =
      (a.pivotAndUpdate violation row entering).selecting s := by
  simp only [pivotAndUpdate, selecting_updateValue same, selecting_toState same]
  rfl

theorem selecting_firstViolation? (vs : List Var) : b.firstViolation? vs = a.firstViolation? vs := by
  have violation : b.violation? = a.violation? := same ▸ rfl
  induction vs with
  | nil => rfl
  | cons v rest ih => rw [firstViolation?, firstViolation?, ih, violation]

end

/-- A repair does the same whatever selector is installed. -/
theorem selecting_repair (pivots : Nat) (same : b = a.selecting s) :
    repair pivots b = selectingIn s (repair pivots a) := by
  induction pivots generalizing a b with
  | zero => ?_
  | succ left ih => ?_
  all_goals
    have waiting : b.toPatch = a.toPatch := same ▸ rfl
    rw [repair, repair, selecting_firstViolation? same, waiting]
    cases a.firstViolation? a.toPatch with
    | none => exact same ▸ rfl
    | some found =>
      obtain ⟨violation, rest⟩ := found
      have taken : ({ b with toPatch := rest } : Engine) =
          ({ a with toPatch := rest } : Engine).selecting s := same ▸ rfl
      simp only
      generalize ({ b with toPatch := rest } : Engine) = d at taken ⊢
      generalize ({ a with toPatch := rest } : Engine) = c at taken ⊢
      have entering : d.entering? = c.entering? := taken ▸ rfl
      have blamed : d.rowConflict = c.rowConflict := taken ▸ rfl
      rw [selecting_toState same, entering, blamed]
      cases a.tableau.get? violation.row with
      | none => exact congrArg (·, false) taken
      | some row =>
        simp only [selecting_joinReasons taken]
        cases c.entering? row.form violation.kind with
        | none =>
          generalize c.joinReasons (c.rowConflict row violation.kind) = joined
          have marked : (selectingIn s joined).1.markToPatch violation.base =
              (joined.1.markToPatch violation.base).selecting s := rfl
          exact congrArg (·, false) (selecting_setConflict marked _)
        | some entering =>
          first
          | exact congrArg (·, false) same
          | exact ih (selecting_pivotAndUpdate taken _ _ _)

theorem selecting_makeFeasible (same : b = a.selecting s) :
    b.makeFeasible = selectingIn s a.makeFeasible := by
  have limit : b.pivotLimit = a.pivotLimit := same ▸ rfl
  rw [makeFeasible, makeFeasible, limit]
  exact selecting_repair _ same

/-! ## Propagation -/

theorem selecting_impliedBound (terms : List (Var × Rat)) (side : BoundKind) (sum : RowSum)
    (same : b = a.selecting s) (t : Var × Rat) :
    impliedBound terms side sum b t = selectingIn s (impliedBound terms side sum a t) := by
  have rest : b.sumWithout = a.sumWithout := same ▸ rfl
  have rounded : b.roundBound = a.roundBound := same ▸ rfl
  rw [impliedBound, impliedBound, rest, rounded, selecting_toState same]
  cases a.sumWithout sum t side with
  | none => exact same ▸ rfl
  | some value =>
    simp only [selecting_joinReasons same]
    split
    · refine selecting_installBound ?_ _ _ _ _ _
      subst same
      rfl
    · exact same ▸ rfl

theorem selecting_impliedBoundsOf (same : b = a.selecting s) (r : RowId) :
    b.impliedBoundsOf r = selectingIn s (a.impliedBoundsOf r) := by
  have sums : b.rowSum = a.rowSum := same ▸ rfl
  rw [impliedBoundsOf, impliedBoundsOf, sums, selecting_toState same]
  generalize (a.tableau.get? r).filter _ = candidate
  cases candidate with
  | none => exact same ▸ rfl
  | some row =>
    refine selecting_forEach (fun {c d} same t => ?_) _ same
    exact selecting_andThen (selecting_impliedBound _ _ _ same t) fun later =>
      selecting_impliedBound _ _ _ later t

theorem selecting_propagateImpliedBounds (same : b = a.selecting s) :
    b.propagateImpliedBounds = selectingIn s a.propagateImpliedBounds := by
  subst same
  exact selecting_forEach selecting_impliedBoundsOf _ rfl

theorem selecting_propagateRows (same : b = a.selecting s) :
    b.propagateRows = selectingIn s a.propagateRows := by
  have options : b.options = a.options := same ▸ rfl
  rw [propagateRows, propagateRows, options, selecting_toState same]
  split
  · exact same ▸ rfl
  · refine selecting_andThen (selecting_propagateImpliedBounds same) fun {c d} later => ?_
    rw [selecting_toState later]
    split
    · exact later ▸ rfl
    · exact selecting_makeFeasible later

/-- The variables and bounds that propagation leaves do not depend on the selector. -/
theorem propagate_selecting (s : Selector) (e : Engine) :
    (e.selecting s).propagate.1.columns = e.propagate.1.columns ∧
      (e.selecting s).propagate.1.bounds = e.propagate.1.bounds := by
  have normal := selecting_normalizePendingRows (rfl : e.selecting s = e.selecting s)
  have same : (e.selecting s).isInfeasible = e.isInfeasible := rfl
  rw [propagate, propagate, same]
  split
  · exact ⟨rfl, rfl⟩
  · simp only
    rw [selecting_toState normal, selecting_installQueued _ normal]
    generalize installQueued e.normalizePendingRows.atoms.queued.length e.normalizePendingRows = result
    obtain ⟨installed, ok⟩ := result
    cases ok with
    | false => exact ⟨rfl, rfl⟩
    | true =>
      simp only [selectingIn]
      rw [selecting_makeFeasible rfl]
      generalize installed.makeFeasible = result
      obtain ⟨repaired, ok⟩ := result
      cases ok with
      | false => exact ⟨rfl, rfl⟩
      | true =>
        simp only [selectingIn]
        rw [selecting_propagateRows rfl]
        generalize repaired.propagateRows = result
        obtain ⟨derived, ok⟩ := result
        cases ok with
        | false => exact ⟨rfl, rfl⟩
        | true =>
          obtain ⟨_, _, _, reported⟩ := toState_propagateFixedEqualities derived
          obtain ⟨_, _, _, reported'⟩ := toState_propagateFixedEqualities (derived.selecting s)
          show (derived.selecting s).propagateFixedEqualities.columns =
              derived.propagateFixedEqualities.columns ∧
            (derived.selecting s).propagateFixedEqualities.bounds =
              derived.propagateFixedEqualities.bounds
          rw [reported, reported']
          exact ⟨rfl, rfl⟩

end ArithDecide.Engine
