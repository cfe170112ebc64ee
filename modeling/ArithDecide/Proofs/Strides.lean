import ArithDecide.Proofs.Checking

/-!
# What the engine shows to its caller

The facade of an engine is what its caller sees of bounds, atoms and queues, whom the engine asks and how
many scopes were entered.
Few operations change it: a variable is added, a bound is installed, an atom is interned, a literal is
asserted, an equality is reported. Everything else leaves it alone, so whatever the engine does is a
sequence of these strides. Unlike the elementary steps they say exactly when literals and equalities
are queued, and they need no invariant. Equalities are reported by propagation only.
-/

namespace ArithDecide.Engine

variable {e next last : Engine}

/-! ## The facade -/

/-- What a state shows to the caller, and what decides it. -/
structure View where
  bounds : BoundStore
  atoms : Array Atom
  propagations : List Propagation
  reported : List VarPair
  equalities : List EqualityReport

def State.view (s : State) : View where
  bounds := s.bounds
  atoms := s.atoms.atoms
  propagations := s.propagations
  reported := s.reported
  equalities := s.equalities

/-- What the engine shows, whom it asks, and how many scopes were entered. -/
structure Facade extends View where
  oracle : Oracle
  selector : Selector
  scopesEntered : Nat

def facade (e : Engine) : Facade where
  toView := e.view
  oracle := e.oracle
  selector := e.selector
  scopesEntered := e.scopesEntered

@[simp] theorem facade_trace (e : Engine) (tag : TraceTag) (message : Unit → String) :
    (e.trace tag message).facade = e.facade := rfl

@[simp] theorem facade_count (e : Engine) (change : Statistics → Statistics) :
    (e.count change).facade = e.facade := rfl

@[simp] theorem facade_markToPatch (e : Engine) (v : Var) : (e.markToPatch v).facade = e.facade := rfl

@[simp] theorem facade_joinReasons (e : Engine) (reasons : List Dependency) :
    (e.joinReasons reasons).1.facade = e.facade := rfl

@[simp] theorem facade_touchRowsOf (e : Engine) (v : Var) : (e.touchRowsOf v).facade = e.facade := rfl

@[simp] theorem facade_pushRow (e : Engine) (base : Var) (form : LinearForm) :
    (e.pushRow base form).1.facade = e.facade := rfl

@[simp] theorem facade_declareChecking (e : Engine) : e.declareChecking.facade = e.facade := by
  rw [declareChecking]
  split <;> rfl

@[simp] theorem facade_setConflict (e : Engine) (d : Dependency) :
    (e.setConflict d).facade = e.facade := by
  rw [setConflict]
  split <;> rfl

@[simp] theorem facade_setValue (e : Engine) (v : Var) (x : InfRat) :
    (e.setValue v x).facade = e.facade := by
  rw [setValue]
  split <;> rfl

/-- A loop leaves a part of the engine alone when each of its steps does. -/
theorem congr_foldl {α β : Type} (part : Engine → β) {step : Engine → α → Engine}
    (each : ∀ e a, part (step e a) = part e) (items : List α) (e : Engine) :
    part (items.foldl step e) = part e := by
  induction items generalizing e with
  | nil => rfl
  | cons a rest ih => exact (ih _).trans (each e a)

theorem congr_forEach {α β : Type} (part : Engine → β) {step : Engine → α → Engine × Bool}
    (each : ∀ e a, part (step e a).1 = part e) (items : List α) (e : Engine) :
    part (forEach step items e).1 = part e := by
  induction items generalizing e with
  | nil => rfl
  | cons a rest ih =>
    have first := each e a
    rw [forEach]
    generalize step e a = result at first ⊢
    obtain ⟨next, ok⟩ := result
    cases ok with
    | true => exact (ih next).trans first
    | false => exact first

/-- What an operation leaves alone that is known to answer. -/
theorem facade_of_result {α : Type} {result : Engine × α} {answer : α}
    (done : result = (next, answer)) (same : result.1.facade = e.facade) : next.facade = e.facade := by
  rw [done] at same
  exact same

/-! ### Values, rows and repairs -/

@[simp] theorem facade_carryRow (v : Var) (delta : InfRat) (e : Engine) (r : RowId) :
    (carryRow v delta e r).facade = e.facade := by
  rw [carryRow]
  split
  · rfl
  · split
    · rfl
    · exact facade_setValue _ _ _

@[simp] theorem facade_updateValue (e : Engine) (v : Var) (delta : InfRat) :
    (e.updateValue v delta).facade = e.facade :=
  (congr_foldl facade (facade_carryRow v delta) _ _).trans (facade_setValue _ _ _)

@[simp] theorem facade_normalizeRow (e : Engine) (r : RowId) :
    (e.normalizeRow r).facade = e.facade := by
  rw [normalizeRow]
  generalize reduced_eq : ({ e with tableau := e.tableau.normalize r } : Engine) = reduced
  have same : reduced.facade = e.facade := reduced_eq ▸ rfl
  split
  · split <;> exact same
  · rw [facade_markToPatch, facade_setValue]
    split <;> exact same

@[simp] theorem facade_normalizePendingRows (e : Engine) :
    e.normalizePendingRows.facade = e.facade := congr_foldl facade facade_normalizeRow _ _

@[simp] theorem facade_respectBound (e : Engine) (v : Var) (kind : BoundKind) (value : InfRat) :
    (e.respectBound v kind value).facade = e.facade := by
  rw [respectBound]
  split
  · split
    · exact facade_updateValue _ _ _
    · rfl
  · rfl
  · rfl

@[simp] theorem facade_pivotAndUpdate (e : Engine) (violation : Violation) (row : Row)
    (entering : Var) : (e.pivotAndUpdate violation row entering).facade = e.facade :=
  facade_updateValue _ _ _

/-- A repair changes nothing that the engine shows. -/
theorem facade_repair (pivots : Nat) (e : Engine) : (repair pivots e).1.facade = e.facade := by
  induction pivots generalizing e with
  | zero =>
    rw [repair]
    split
    · rfl
    · simp only
      split
      · rfl
      · split
        · exact facade_setConflict _ _
        · rfl
  | succ pivots ih =>
    rw [repair]
    split
    · rfl
    · simp only
      split
      · rfl
      · split
        · exact facade_setConflict _ _
        · exact (ih _).trans (facade_pivotAndUpdate _ _ _ _)

@[simp] theorem facade_makeFeasible (e : Engine) : e.makeFeasible.1.facade = e.facade :=
  facade_repair _ _

/-! ### Integer and nonlinear reasoning without bounds -/

theorem facade_testDivisibility (e : Engine) (r : RowId) :
    (e.testDivisibility r).1.facade = e.facade := by
  rw [testDivisibility]
  split
  · rfl
  · simp only
    split
    · rfl
    · exact facade_setConflict _ _

theorem facade_patch (moves : Engine → Var → List (Var × InfRat)) (e : Engine) (v : Var) :
    (patch moves e v).facade = e.facade := by
  rw [patch]
  split
  · rfl
  · exact facade_updateValue _ _ _

@[simp] theorem facade_patchIntegers (e : Engine) : e.patchIntegers.facade = e.facade :=
  (congr_foldl facade (facade_patch rowMoves) _ _).trans (congr_foldl facade (facade_patch ownMoves) _ _)

theorem facade_repairMonomial (e : Engine) (m : Monomial) :
    (e.repairMonomial m).facade = e.facade := by
  rw [repairMonomial]
  split
  · rfl
  · simp only
    split
    · exact facade_updateValue _ _ _
    · rfl

@[simp] theorem facade_repairMonomials (e : Engine) : e.repairMonomials.1.facade = e.facade :=
  congr_foldl facade facade_repairMonomial _ _

theorem facade_checkNestedRow (e : Engine) (r : RowId) :
    (e.checkNestedRow r).1.facade = e.facade := by
  rw [checkNestedRow]
  split
  · rfl
  · simp only
    split
    · rfl
    · split
      · rfl
      · split
        · rfl
        · exact facade_setConflict _ _

@[simp] theorem facade_checkNestedForms (e : Engine) : e.checkNestedForms.1.facade = e.facade :=
  congr_forEach facade facade_checkNestedRow _ _

@[simp] theorem facade_placeRow (e : Engine) (base : Var) (form : LinearForm) :
    (e.placeRow base form).1.facade = e.facade := by
  rw [placeRow]
  simp only [facade_trace, facade_declareChecking]
  show ((if e.options.eagerNormalization then (e.pushRow base form).1.normalizeRow _
    else (e.pushRow base form).1.setValue base _).markToPatch base).facade = e.facade
  rw [facade_markToPatch]
  split
  · exact facade_normalizeRow _ _
  · exact facade_setValue _ _ _

/-! ## Strides -/

/-- One change of the facade, or none. Equalities are reported only if that is allowed. -/
inductive Stride (reporting : Bool) (e next : Engine) : Prop
  | aside (same : next.facade = e.facade)
  | grow (sort : NumSort) (term : Term) (made : next = (e.mkVar sort term).1)
  | install (v : Var) (kind : BoundKind) (value : InfRat) (reason : Dependency)
      (origin : BoundOrigin) (made : next = (e.installBound v kind value reason origin).1)
  | intern (v : Var) (kind : BoundKind) (threshold : Rat)
      (made : next = (e.internAtom v kind threshold).1)
  | assign (l : Literal) (atoms : AtomRegistry) (known : (e.atoms.get? l.atom).isSome)
      (made : e.atoms.assign l = .queued atoms)
      (same : next.facade = { e.facade with atoms := atoms.atoms })
  | report (v : Var) (allowed : reporting = true) (made : next = e.reportEquality v)

/-- Strides one after another. -/
abbrev Strides (reporting : Bool) : Engine → Engine → Prop :=
  Relation.ReflTransGen (Stride reporting)

variable {reporting : Bool}

theorem strides_of_facade (same : next.facade = e.facade) : Strides reporting e next :=
  .single (.aside same)

theorem Strides.trans (first : Strides reporting e next) (second : Strides reporting next last) :
    Strides reporting e last := Relation.ReflTransGen.trans first second

/-- What happens after something that left the facade alone. -/
theorem Strides.after {m : Engine} (rest : Strides reporting m next)
    (same : m.facade = e.facade) : Strides reporting e next := (strides_of_facade same).trans rest

/-- Where an operation ends that is known to answer. -/
theorem strides_of_result {α : Type} {result : Engine × α} {answer : α}
    (done : result = (next, answer)) (strides : Strides reporting e result.1) :
    Strides reporting e next := by
  rw [done] at strides
  exact strides

theorem strides_foldl {α : Type} {step : Engine → α → Engine}
    (each : ∀ e a, Strides reporting e (step e a)) (items : List α) (e : Engine) :
    Strides reporting e (items.foldl step e) := by
  induction items generalizing e with
  | nil => exact .refl
  | cons a rest ih => exact (each e a).trans (ih _)

theorem strides_forEach {α : Type} {step : Engine → α → Engine × Bool}
    (each : ∀ e a, Strides reporting e (step e a).1) (items : List α) (e : Engine) :
    Strides reporting e (forEach step items e).1 := by
  induction items generalizing e with
  | nil => exact .refl
  | cons a rest ih =>
    have first := each e a
    rw [forEach]
    generalize step e a = result at first ⊢
    obtain ⟨next, ok⟩ := result
    cases ok with
    | true => exact first.trans (ih next)
    | false => exact first

theorem strides_refineEach {α : Type} {step : Engine → α → Engine × Refinement}
    (each : ∀ e a, Strides reporting e (step e a).1) (items : List α) (e : Engine) :
    Strides reporting e (refineEach step items e).1 := by
  induction items generalizing e with
  | nil => exact .refl
  | cons a rest ih =>
    have first := each e a
    rw [refineEach]
    generalize step e a = result at first ⊢
    obtain ⟨next, outcome⟩ := result
    cases outcome with
    | conflict => exact first
    | unchanged => exact first.trans (ih next)
    | tightened => exact first.trans (ih next)

/-! ### Bounds -/

theorem strides_installBound (e : Engine) (v : Var) (kind : BoundKind) (value : InfRat)
    (reason : Dependency) (origin : BoundOrigin) :
    Strides reporting e (e.installBound v kind value reason origin).1 :=
  .single (.install v kind value reason origin rfl)

theorem strides_installLiteral (e : Engine) (l : Literal) :
    Strides reporting e (e.installLiteral l).1 := by
  rw [installLiteral]
  split
  · exact .refl
  · exact (strides_installBound _ _ _ _ _ _).after rfl

theorem facade_dequeue {l : Literal} {atoms : AtomRegistry} (taken : e.atoms.next? = some (l, atoms)) :
    ({ e with atoms := atoms } : Engine).facade = e.facade := by
  rw [AtomRegistry.next?] at taken
  split at taken
  · cases taken
  · obtain ⟨-, rfl⟩ := Prod.mk.inj (Option.some.inj taken)
    rfl

theorem strides_installQueued (count : Nat) (e : Engine) :
    Strides reporting e (installQueued count e).1 := by
  induction count generalizing e with
  | zero => exact .refl
  | succ count ih =>
    rw [installQueued]
    split
    · exact .refl
    · rename_i l atoms taken
      refine Strides.after ?_ (facade_dequeue taken)
      split
      · rename_i next done
        exact (strides_of_result done (strides_installLiteral _ l)).trans (ih next)
      · rename_i next done
        exact strides_of_result done (strides_installLiteral _ l)

theorem strides_impliedBound (terms : List (Var × Rat)) (side : BoundKind) (sum : RowSum)
    (e : Engine) (t : Var × Rat) : Strides reporting e (impliedBound terms side sum e t).1 := by
  rw [impliedBound]
  split
  · exact .refl
  · simp only
    split
    · exact (strides_installBound _ _ _ _ _ _).after rfl
    · exact .refl

theorem strides_impliedBoundsOf (e : Engine) (r : RowId) :
    Strides reporting e (e.impliedBoundsOf r).1 := by
  rw [impliedBoundsOf]
  split
  · exact .refl
  · refine strides_forEach (fun mid t => ?_) _ _
    split
    · rename_i next done
      exact (strides_of_result done (strides_impliedBound _ _ _ _ _)).trans
        (strides_impliedBound _ _ _ _ _)
    · rename_i next done
      exact strides_of_result done (strides_impliedBound _ _ _ _ _)

theorem strides_propagateImpliedBounds (e : Engine) :
    Strides reporting e e.propagateImpliedBounds.1 :=
  (strides_forEach strides_impliedBoundsOf _ _).after rfl

theorem strides_propagateRows (e : Engine) : Strides reporting e e.propagateRows.1 := by
  rw [propagateRows]
  split
  · exact .refl
  · split
    · rename_i next done
      have first : Strides reporting e next :=
        strides_of_result done (strides_propagateImpliedBounds e)
      split
      · exact first
      · exact first.trans (strides_of_facade (facade_makeFeasible next))
    · rename_i next done
      exact strides_of_result done (strides_propagateImpliedBounds e)

theorem strides_propagateFixedEqualities (e : Engine) : Strides true e e.propagateFixedEqualities :=
  strides_foldl (fun _ v => .single (.report v rfl rfl)) _ _

/-- A propagation that finds a conflict reports no equalities. -/
theorem strides_propagate_of_no (no : e.propagate.2 = false) :
    Strides reporting e e.propagate.1 := by
  rw [propagate] at no ⊢
  split
  · exact .refl
  · rename_i calm
    rw [if_neg calm] at no
    refine Strides.after ?_ (facade_normalizePendingRows e)
    simp only at no ⊢
    split
    · rename_i installed first
      rw [first] at no
      refine (strides_of_result first (strides_installQueued _ _)).trans ?_
      split
      · rename_i feasible second
        refine Strides.after (m := feasible) ?_ (facade_of_result second (facade_makeFeasible _))
        simp only [second] at no
        split
        · rename_i next third
          rw [third] at no
          cases no
        · rename_i next third
          exact strides_of_result third (strides_propagateRows _)
      · rename_i feasible second
        exact strides_of_facade (facade_of_result second (facade_makeFeasible _))
    · rename_i installed first
      exact strides_of_result first (strides_installQueued _ _)

/-- A successful propagation reports equalities last. -/
theorem strides_stages {installed repaired derived : Engine}
    (installing : installQueued e.normalizePendingRows.atoms.queued.length e.normalizePendingRows =
      (installed, true))
    (repairing : installed.makeFeasible = (repaired, true))
    (deriving_rows : repaired.propagateRows = (derived, true)) : Strides reporting e derived := by
  have first : Strides reporting e.normalizePendingRows installed :=
    strides_of_result installing (strides_installQueued _ _)
  have second : repaired.facade = installed.facade :=
    facade_of_result repairing (facade_makeFeasible installed)
  have third : Strides reporting repaired derived :=
    strides_of_result deriving_rows (strides_propagateRows repaired)
  exact (first.after (facade_normalizePendingRows e)).trans (third.after second)

theorem strides_propagate (e : Engine) : Strides true e e.propagate.1 := by
  cases answer : e.propagate.2 with
  | false => exact strides_propagate_of_no answer
  | true =>
    obtain ⟨-, installed, repaired, derived, installing, repairing, deriving_rows, same⟩ :=
      propagate_of_yes answer
    rw [same]
    exact (strides_stages installing repairing deriving_rows).trans
      (strides_propagateFixedEqualities derived)

/-! ### Integers -/

theorem strides_internAtom (e : Engine) (v : Var) (kind : BoundKind) (threshold : Rat) :
    Strides reporting e (e.internAtom v kind threshold).1 :=
  .single (.intern v kind threshold rfl)

theorem strides_selectBranch (e : Engine) : Strides reporting e e.selectBranch.1 := by
  rw [selectBranch]
  split
  · exact .refl
  · exact ((strides_internAtom _ _ _ _).trans (strides_internAtom _ _ _ _)).trans
      (strides_of_facade rfl)

theorem strides_askBranch (e : Engine) : Strides reporting e e.askBranch.1 := by
  rw [askBranch]
  split
  · rename_i next split done
    exact strides_of_result done (strides_selectBranch e)
  · rename_i next done
    exact strides_of_result done (strides_selectBranch e)

theorem strides_mkVar (e : Engine) (sort : NumSort) (term : Term) :
    Strides reporting e (e.mkVar sort term).1 := .single (.grow sort term rfl)

theorem strides_addCut (e : Engine) (source : RowId) (cut : Cut) :
    Strides reporting e (e.addCut source cut).1 := by
  rw [addCut]
  simp only
  split
  · exact strides_of_facade (facade_setConflict _ _)
  · refine Strides.after ?_ (facade_joinReasons e cut.reasons)
    refine (strides_mkVar _ (if cut.integral then .int else .real) .internal).trans
      (Strides.after (strides_installBound _ _ _ _ _ _) ?_)
    rw [facade_trace, facade_count, facade_normalizeRow, facade_pushRow]

theorem strides_cutOrBranch (e : Engine) (cuts : Nat) :
    Strides reporting e (e.cutOrBranch cuts).1 := by
  rw [cutOrBranch]
  split
  · exact strides_askBranch e
  · split
    · rename_i next done
      exact strides_of_result done (strides_addCut _ _ _)
    · rename_i next done
      exact strides_of_result done (strides_addCut _ _ _)

/-- The integer reasoning is made of strides: cuts add variables and install bounds, splits intern
atoms. -/
theorem strides_checkIntegers (e : Engine) (cuts : Nat) :
    Strides reporting e (e.checkIntegers cuts).1 := by
  rw [checkIntegers]
  split
  · exact .refl
  · simp only
    split
    · rename_i next done
      exact strides_of_facade (facade_of_result done (congr_forEach facade facade_testDivisibility _ _))
    · rename_i next done
      refine Strides.after (m := next) ?_
        (facade_of_result done (congr_forEach facade facade_testDivisibility _ _))
      refine Strides.after ?_ (facade_patchIntegers next)
      split
      · exact .refl
      · exact strides_cutOrBranch _ _

/-! ### Products -/

theorem strides_tightenSide (v : Var) (interval : Interval) (reasons : List Dependency) (e : Engine)
    (kind : BoundKind) : Strides reporting e (tightenSide v interval reasons e kind).1 := by
  unfold tightenSide
  simp only
  split
  · exact .refl
  · split
    · split
      · rename_i next done
        exact (strides_of_result done (strides_installBound _ _ _ _ _ _)).after rfl
      · rename_i next done
        exact (strides_of_result done (strides_installBound _ _ _ _ _ _)).after rfl
    · exact .refl

theorem strides_tighten (e : Engine) (v : Var) (interval : Interval) (reasons : List Dependency) :
    Strides reporting e (e.tighten v interval reasons).1 :=
  strides_refineEach (strides_tightenSide v interval reasons) _ _

theorem strides_boundFactor (m : Monomial) (e : Engine) (factor : Var) :
    Strides reporting e (boundFactor m e factor).1 := by
  rw [boundFactor]
  split
  · exact .refl
  · exact strides_tighten _ _ _ _

theorem strides_refineMonomial (e : Engine) (m : Monomial) :
    Strides reporting e (e.refineMonomial m).1 := by
  rw [refineMonomial]
  split
  · rename_i next done
    exact strides_of_result done (strides_tighten _ _ _ _)
  · rename_i next outcome _ done
    exact (strides_of_result done (strides_tighten _ _ _ _)).trans
      (strides_refineEach (strides_boundFactor m) _ _)

theorem strides_intervalRound (e : Engine) : Strides reporting e e.intervalRound.1 := by
  rw [intervalRound]
  split
  · rename_i next done
    exact strides_of_facade (facade_of_result done (facade_checkNestedForms _))
  · rename_i next done
    refine Strides.after (m := next) ?_ (facade_of_result done (facade_checkNestedForms _))
    exact strides_refineEach strides_refineMonomial _ _

theorem strides_installValue (v : Var) (value : Rat) (reason : Dependency) (e : Engine)
    (kind : BoundKind) : Strides reporting e (installValue v value reason e kind).1 := by
  rw [installValue]
  simp only
  split
  · split
    · rename_i next done
      exact (strides_of_result done (strides_installBound _ _ _ _ _ _)).after rfl
    · rename_i next done
      exact (strides_of_result done (strides_installBound _ _ _ _ _ _)).after rfl
  · exact .refl

theorem strides_installAssignment (e : Engine) (p : Polynomial) :
    Strides reporting e (e.installAssignment p).1 := by
  rw [installAssignment]
  split
  · exact .refl
  · exact (strides_refineEach (strides_installValue _ _ _) _ _).after
      (facade_joinReasons e (p.reasons.map some))

theorem strides_basisStep (e : Engine) : Strides reporting e e.basisStep.1 := by
  rw [basisStep]
  simp only
  split
  · exact strides_of_facade (facade_setConflict _ _)
  · exact (strides_refineEach strides_installAssignment _ _).after rfl

theorem strides_repairOrComplete (e : Engine) (pass : NonlinearPass) :
    Strides reporting e (e.repairOrComplete pass).1 := by
  rw [repairOrComplete]
  split
  · rename_i next done
    exact strides_of_facade (facade_of_result done (facade_repairMonomials _))
  · rename_i next done
    refine Strides.after (m := next) ?_ (facade_of_result done (facade_repairMonomials _))
    rw [basisRound]
    split
    · simp only
      split
      · rename_i last finished
        exact strides_of_result finished (strides_basisStep _)
      · rename_i last finished
        exact strides_of_result finished (strides_basisStep _)
      · rename_i last finished
        exact strides_of_result finished (strides_basisStep _)
    · exact .refl

/-- The nonlinear reasoning is made of strides that install bounds. -/
theorem strides_checkNonlinear (e : Engine) (pass : NonlinearPass) :
    Strides reporting e (e.checkNonlinear pass).1 := by
  rw [checkNonlinear]
  split
  · exact .refl
  · split
    · simp only
      split
      · rename_i next done
        exact strides_of_result done (strides_intervalRound e)
      · rename_i next done
        exact strides_of_result done (strides_intervalRound e)
      · rename_i next done
        exact (strides_of_result done (strides_intervalRound e)).trans
          (strides_repairOrComplete _ _)
    · exact strides_repairOrComplete _ _

/-! ### The check -/

/-- The rounds of a check are strides, by induction on the rounds that are left. -/
theorem strides_checkRounds (rounds cuts : Nat) (pass : NonlinearPass) (e : Engine) :
    Strides true e (checkRounds rounds cuts pass e).1 := by
  induction rounds generalizing cuts pass e with
  | zero => exact .refl
  | succ rounds ih =>
    rw [checkRounds]
    split
    · rename_i failed done
      exact strides_of_result done (strides_propagate e)
    · rename_i propagated done
      refine (strides_of_result done (strides_propagate e)).trans ?_
      have integers {next : Engine} {outcome : IntegerOutcome}
          (finished : propagated.checkIntegers cuts = (next, outcome)) :
          Strides true propagated next :=
        strides_of_result finished (strides_checkIntegers propagated cuts)
      split
      · rename_i next finished
        exact integers finished
      · rename_i next finished
        exact (integers finished).trans (ih _ _ _)
      · rename_i next split finished
        exact integers finished
      · rename_i next finished
        exact integers finished
      · rename_i integral finished
        refine (integers finished).trans ?_
        split
        · exact .refl
        · split
          · rename_i next spent multiplied
            exact strides_of_result multiplied (strides_checkNonlinear _ _)
          · rename_i next spent multiplied
            exact strides_of_result multiplied (strides_checkNonlinear _ _)
          · rename_i next spent multiplied
            exact (strides_of_result multiplied (strides_checkNonlinear _ _)).trans (ih _ _ _)
          · rename_i next spent multiplied
            exact strides_of_result multiplied (strides_checkNonlinear _ _)

theorem strides_check (e : Engine) : Strides true e e.check.1 :=
  (strides_checkRounds _ _ _ _).after rfl

/-! ## What strides leave alone -/

/-- No equality is reported, the engine asks whom it asked, and no scope is entered. -/
structure Undisturbed (e next : Engine) : Prop where
  reported : next.reported = e.reported
  equalities : next.equalities = e.equalities
  oracle : next.oracle = e.oracle
  selector : next.selector = e.selector
  scopesEntered : next.scopesEntered = e.scopesEntered

theorem Undisturbed.refl (e : Engine) : Undisturbed e e := ⟨rfl, rfl, rfl, rfl, rfl⟩

theorem Undisturbed.trans (first : Undisturbed e next) (second : Undisturbed next last) :
    Undisturbed e last :=
  ⟨second.reported.trans first.reported, second.equalities.trans first.equalities,
    second.oracle.trans first.oracle, second.selector.trans first.selector,
    second.scopesEntered.trans first.scopesEntered⟩

theorem Undisturbed.of_facade (same : next.facade = e.facade) : Undisturbed e next :=
  ⟨congrArg (fun f => f.reported) same, congrArg (fun f => f.equalities) same,
    congrArg Facade.oracle same, congrArg Facade.selector same, congrArg Facade.scopesEntered same⟩

theorem undisturbed_propagateAtom (e : Engine) (a : AtomId) : Undisturbed e (e.propagateAtom a) := by
  rw [propagateAtom]
  split
  · exact .refl e
  · split
    · exact .refl e
    · exact ⟨rfl, rfl, rfl, rfl, rfl⟩

theorem undisturbed_propagateAtomsOn (e : Engine) (v : Var) :
    Undisturbed e (e.propagateAtomsOn v) := by
  rw [propagateAtomsOn]
  induction e.atoms.atomsOn v generalizing e with
  | nil => exact .refl e
  | cons a rest ih => exact (undisturbed_propagateAtom e a).trans (ih _)

/-- Once a bound is active, its variable is moved and atoms of it are handed out. -/
theorem afterTightening_eq (e : Engine) (v : Var) (kind : BoundKind) (value : InfRat)
    (origin : BoundOrigin) :
    ∃ moved : Engine, moved.facade = e.facade ∧
      e.afterTightening v kind value origin = moved.propagateAtomsOn v := by
  have rest (touched : Engine) : (if (touched.respectBound v kind value).toPatch.isEmpty then
      touched.respectBound v kind value
      else (touched.respectBound v kind value).declareChecking).facade = touched.facade := by
    split
    · exact facade_respectBound _ _ _ _
    · rw [facade_declareChecking, facade_respectBound]
  refine ⟨_, ?_, rfl⟩
  refine (rest _).trans ?_
  split <;> rfl

/-- Installing a bound reports no equality and enters no scope. -/
theorem undisturbed_installBound (e : Engine) (v : Var) (kind : BoundKind) (value : InfRat)
    (reason : Dependency) (origin : BoundOrigin) :
    Undisturbed e (e.installBound v kind value reason origin).1 := by
  rw [installBound]
  simp only
  split
  · exact .of_facade (facade_setConflict _ _)
  · exact ⟨rfl, rfl, rfl, rfl, rfl⟩
  · rename_i store done
    obtain ⟨moved, same, after⟩ := afterTightening_eq { e with bounds := store } v kind
      (e.roundBound v kind value) origin
    have first : Undisturbed { e with bounds := store } moved := .of_facade same
    have rest := undisturbed_propagateAtomsOn moved v
    rw [after]
    exact ⟨(first.trans rest).reported, (first.trans rest).equalities, (first.trans rest).oracle,
      (first.trans rest).selector, (first.trans rest).scopesEntered⟩

theorem undisturbed_internAtom (e : Engine) (v : Var) (kind : BoundKind) (threshold : Rat) :
    Undisturbed e (e.internAtom v kind threshold).1 := by
  rw [internAtom]
  split
  · exact .refl e
  · have rest := undisturbed_propagateAtom { e with atoms := e.atoms.add v kind threshold }
      e.atoms.atoms.size
    exact ⟨rest.reported, rest.equalities, rest.oracle, rest.selector, rest.scopesEntered⟩

theorem Stride.undisturbed (stride : Stride false e next) : Undisturbed e next := by
  cases stride with
  | aside same => exact .of_facade same
  | grow sort term made => exact made ▸ ⟨rfl, rfl, rfl, rfl, rfl⟩
  | install v kind value reason origin made => exact made ▸ undisturbed_installBound _ _ _ _ _ _
  | intern v kind threshold made => exact made ▸ undisturbed_internAtom _ _ _ _
  | assign l atoms known made same =>
    exact ⟨congrArg (fun f => f.reported) same, congrArg (fun f => f.equalities) same,
      congrArg Facade.oracle same, congrArg Facade.selector same, congrArg Facade.scopesEntered same⟩
  | report v allowed made => cases allowed

/-- As long as no equality is reported, the reports stay as they are. -/
theorem Strides.undisturbed (strides : Strides false e next) : Undisturbed e next := by
  induction strides with
  | refl => exact .refl e
  | tail _ stride ih => exact ih.trans stride.undisturbed

theorem Stride.asks (stride : Stride reporting e next) :
    next.oracle = e.oracle ∧ next.selector = e.selector := by
  cases stride with
  | report v allowed made =>
    rw [made, reportEquality]
    split
    · exact ⟨rfl, rfl⟩
    · simp only
      split <;> exact ⟨rfl, rfl⟩
  | aside same => exact ⟨(Undisturbed.of_facade same).oracle, (Undisturbed.of_facade same).selector⟩
  | grow sort term made => exact made ▸ ⟨rfl, rfl⟩
  | install v kind value reason origin made =>
    have kept := made ▸ undisturbed_installBound e v kind value reason origin
    exact ⟨kept.oracle, kept.selector⟩
  | intern v kind threshold made =>
    have kept := made ▸ undisturbed_internAtom e v kind threshold
    exact ⟨kept.oracle, kept.selector⟩
  | assign l atoms known made same => exact ⟨congrArg Facade.oracle same, congrArg Facade.selector same⟩

/-- A stride enters no scope. -/
theorem Stride.scopesEntered (stride : Stride reporting e next) :
    next.scopesEntered = e.scopesEntered := by
  cases stride with
  | report v allowed made =>
    rw [made, reportEquality]
    split
    · rfl
    · simp only
      split <;> rfl
  | aside same => exact (Undisturbed.of_facade same).scopesEntered
  | grow sort term made => exact made ▸ rfl
  | install v kind value reason origin made =>
    exact made ▸ (undisturbed_installBound e v kind value reason origin).scopesEntered
  | intern v kind threshold made => exact made ▸ (undisturbed_internAtom e v kind threshold).scopesEntered
  | assign l atoms known made same => exact congrArg Facade.scopesEntered same

/-- No stride enters a scope. -/
theorem Strides.scopesEntered (strides : Strides reporting e next) :
    next.scopesEntered = e.scopesEntered := by
  induction strides with
  | refl => rfl
  | tail _ stride ih => exact stride.scopesEntered.trans ih

/-- No stride changes whom the engine asks. -/
theorem Strides.asks (strides : Strides reporting e next) :
    next.oracle = e.oracle ∧ next.selector = e.selector := by
  induction strides with
  | refl => exact ⟨rfl, rfl⟩
  | tail _ stride ih => exact ⟨stride.asks.1.trans ih.1, stride.asks.2.trans ih.2⟩

end ArithDecide.Engine
