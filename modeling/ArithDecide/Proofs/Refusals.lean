import ArithDecide.Proofs.Orderly
import ArithDecide.Proofs.Rounds

/-!
# A refusal is a conflict

Every part of a check answers whether it can go on. `Engine.Resolves` says of an answer that the engine
is left in order, and that a refusal has recorded a conflict: nothing is given up for any other reason.
-/

namespace ArithDecide.Engine

open State

variable {e next : Engine} {h : History}

/-- The engine is left in order, and a refusal has recorded a conflict. -/
structure Resolves (next : Engine) (refused : Prop) : Prop where
  orderly : next.Orderly
  conflict : refused → next.isInfeasible = true

/-- The same for an operation that answers whether it can go on. -/
abbrev Answered (result : Engine × Bool) : Prop := Resolves result.1 (result.2 = false)

theorem answered_yes (orderly : e.Orderly) : Answered (e, true) := ⟨orderly, nofun⟩

theorem answered_setConflict (orderly : e.Orderly) (d : Dependency) :
    Answered (e.setConflict d, false) :=
  ⟨orderly_setConflict orderly d, fun _ => infeasible_setConflict e d⟩

/-- An operation followed by another one unless it answered false. -/
theorem Answered.bind {then_ : Engine → Engine × Bool} :
    ∀ {result : Engine × Bool}, Answered result →
      (∀ next, result = (next, true) → next.Orderly → Answered (then_ next)) →
      Answered (match result with
        | (next, true) => then_ next
        | (next, false) => (next, false))
  | (next, true), first, second => second next rfl first.orderly
  | (_, false), first, _ => first

theorem answered_forEach {α : Type} {step : Engine → α → Engine × Bool} {items : List α}
    (orderly : e.Orderly) (each : ∀ e : Engine, e.Orderly → ∀ a, Answered (step e a)) :
    Answered (forEach step items e) := by
  induction items generalizing e with
  | nil => exact answered_yes orderly
  | cons a rest ih => exact (each e orderly a).bind fun next _ orderly => ih orderly

/-! ## Propagation -/

theorem answered_installBound (orderly : e.Orderly) (v : Var) (kind : BoundKind) (value : InfRat)
    (reason : Dependency) (origin : BoundOrigin) :
    Answered (e.installBound v kind value reason origin) :=
  ⟨orderly_installBound orderly v kind value reason origin, infeasible_installBound⟩

theorem answered_installLiteral (orderly : e.Orderly) (l : Literal) :
    Answered (e.installLiteral l) := by
  rw [installLiteral]
  split
  · exact answered_yes orderly
  · exact answered_installBound (orderly_depend orderly (e.dependencies.mkLiteral l).1) _ _ _ _ _

theorem answered_installQueued (count : Nat) (orderly : e.Orderly) :
    Answered (installQueued count e) := by
  induction count generalizing e with
  | zero => exact answered_yes orderly
  | succ count ih =>
    rw [installQueued]
    split
    · exact answered_yes orderly
    · rename_i l atoms taken
      have dequeued : ({ e with atoms := atoms } : Engine).Orderly := orderly.congr rfl rfl rfl rfl id
      exact (answered_installLiteral dequeued l).bind fun next _ orderly => ih orderly

theorem answered_impliedBound (orderly : e.Orderly) (terms : List (Var × Rat)) (side : BoundKind)
    (sum : RowSum) (t : Var × Rat) : Answered (impliedBound terms side sum e t) := by
  rw [impliedBound]
  split
  · exact answered_yes orderly
  · simp only
    split
    · exact answered_installBound (orderly_count (orderly_joinReasons orderly _) _) _ _ _ _ _
    · exact answered_yes orderly

theorem answered_impliedBoundsOf (orderly : e.Orderly) (r : RowId) :
    Answered (e.impliedBoundsOf r) := by
  rw [impliedBoundsOf]
  split
  · exact answered_yes orderly
  · exact answered_forEach orderly fun e orderly t => (answered_impliedBound orderly _ _ _ t).bind
      fun next _ orderly => answered_impliedBound orderly _ _ _ t

theorem answered_propagateImpliedBounds (orderly : e.Orderly) :
    Answered e.propagateImpliedBounds :=
  answered_forEach (orderly.congr rfl rfl rfl rfl id) fun _ orderly r =>
    answered_impliedBoundsOf orderly r

/-- When no exchange is due or possible, either nothing is left to be patched or a row is in conflict
with the bounds. -/
theorem answered_stuck (orderly : e.Orderly) (stuck : e.exchange? = none) :
    Answered (repair 0 e) := by
  rw [repair]
  cases first : e.firstViolation? e.toPatch with
  | none => exact answered_yes (orderly.of_same rfl rfl rfl .nil id)
  | some found =>
    obtain ⟨violation, rest⟩ := found
    obtain ⟨violates, -⟩ := firstViolation?_eq_some first
    obtain ⟨row, at_row, -⟩ := Tableau.get?_of_rowOf? violates.heads
    have taken : ({ e with toPatch := rest } : Engine).Orderly :=
      orderly.of_same rfl rfl rfl (firstViolation?_least orderly.increasing first).1 id
    cases chosen : ({ e with toPatch := rest } : Engine).entering? row.form violation.kind with
    | none =>
      simp only [at_row, chosen]
      exact answered_setConflict (orderly_markToPatch (orderly_joinReasons taken _) _) _
    | some entering =>
      have found := exchange?_eq_some_iff.2 ⟨violation, rest, row, entering, first, at_row, chosen, rfl⟩
      rw [stuck] at found
      cases found

/-- A repair does not run out of pivots. -/
theorem answered_makeFeasible (orderly : e.Orderly) (inv : e.Invariant h)
    (normalized : e.tableau.Normalized) : Answered e.makeFeasible := by
  have ready := Exchangeable.of_invariant inv normalized orderly.increasing
  obtain ⟨count, lt, stuck⟩ := exists_stuck ready
  rw [makeFeasible_of_stuck lt.le stuck]
  exact answered_stuck (orderly_advance orderly inv.founded.rounded ready count).1 stuck

theorem answered_propagateRows (orderly : e.Orderly) (inv : e.Invariant h)
    (normalized : e.tableau.Normalized) : Answered e.propagateRows := by
  rw [propagateRows]
  split
  · exact answered_yes orderly
  · refine (answered_propagateImpliedBounds orderly).bind fun next done orderly => ?_
    have answers := answers_propagateImpliedBounds inv
    rw [done] at answers
    have steps := answers.steps rfl
    split
    · exact answered_yes orderly
    · exact answered_makeFeasible orderly (steps.invariant inv) (steps.normalized normalized)

/-- A propagation refuses only because of a conflict, and leaves the engine in order. -/
theorem answered_propagate (orderly : e.Orderly) (inv : e.Invariant h) : Answered e.propagate := by
  rw [propagate]
  split
  · rename_i infeasible
    exact ⟨orderly, fun _ => infeasible⟩
  · have normal_inv := (steps_normalizePendingRows h e).invariant inv
    have normalized := normalized_normalizePendingRows e
    have normal := orderly_normalizePendingRows orderly
    generalize e.normalizePendingRows = normal_e at *
    refine (answered_installQueued _ normal).bind fun installed installs first => ?_
    have answers := answers_installQueued normal_e.atoms.queued.length normal_inv
    rw [installs] at answers
    have steps := answers.steps rfl
    have installed_inv := steps.invariant normal_inv
    have installed_normalized := steps.normalized normalized
    refine (answered_makeFeasible first installed_inv installed_normalized).bind
      fun repaired repairs second => ?_
    have answers := answers_makeFeasible installed_inv installed_normalized
    rw [repairs] at answers
    have steps := answers.steps rfl
    refine (answered_propagateRows second (steps.invariant installed_inv)
      (steps.normalized installed_normalized)).bind fun last _ third => ?_
    obtain ⟨_, _, _, reported⟩ := toState_propagateFixedEqualities last
    refine answered_yes ?_
    rw [reported]
    exact third.congr rfl rfl rfl rfl id

/-! ## Integers -/

theorem answered_testDivisibility (orderly : e.Orderly) (r : RowId) :
    Answered (e.testDivisibility r) := by
  rw [testDivisibility]
  split
  · exact answered_yes orderly
  · have tested := orderly_count orderly fun s => { s with gcdTests := s.gcdTests + 1 }
    simp only
    split
    · exact answered_yes tested
    · exact answered_setConflict
        (orderly_trace (orderly_count (orderly_joinReasons tested _) _) _ _) _

/-- The moves give integer variables integral values. -/
def SuitsSorts (e : Engine) (moves : List (Var × InfRat)) : Prop :=
  ∀ move ∈ moves, e.isInt move.1 = true → (e.stored move.1 + move.2).isInteger = true

theorem suitsSorts_ownMoves (e : Engine) (v : Var) : e.SuitsSorts (e.ownMoves v) := by
  intro move member _
  obtain ⟨target, among, rfl⟩ := List.mem_map.1 member
  rw [add_sub_cancel, InfRat.isInteger_iff]
  split at among
  · rcases List.mem_pair.1 among with rfl | rfl <;> exact ⟨_, rfl⟩
  · rcases List.mem_pair.1 among with rfl | rfl <;> exact ⟨_, rfl⟩

/-- Only real variables of a row are moved. -/
theorem suitsSorts_rowMoves (e : Engine) (base : Var) : e.SuitsSorts (e.rowMoves base) := by
  intro move member integer
  rw [rowMoves] at member
  split at member
  · cases member
  · obtain ⟨t, among, member⟩ := List.mem_flatMap.1 member
    obtain ⟨target, -, rfl⟩ := List.mem_map.1 member
    have real := (List.mem_filter.1 among).2
    rw [integer] at real
    cases real

theorem orderly_patch {moves : Engine → Var → List (Var × InfRat)} (orderly : e.Orderly)
    (suits : ∀ (tried : Engine) (v : Var), tried.SuitsSorts (moves tried v)) (v : Var) :
    (patch moves e v).Orderly := by
  rw [patch]
  have tried := orderly_count orderly fun s => { s with patches := s.patches + 1 }
  split
  · exact tried
  · rename_i moved delta found
    refine orderly_count (orderly_updateValue tried fun integer => ?_) _
    exact suits _ v _ (List.mem_of_find?_eq_some found) integer

theorem orderly_foldl_patch {moves : Engine → Var → List (Var × InfRat)} (orderly : e.Orderly)
    (suits : ∀ (tried : Engine) (v : Var), tried.SuitsSorts (moves tried v)) (vs : List Var) :
    (vs.foldl (patch moves) e).Orderly := by
  induction vs generalizing e with
  | nil => exact orderly
  | cons v rest ih => exact ih (orderly_patch orderly suits v)

theorem orderly_patchIntegers (orderly : e.Orderly) : e.patchIntegers.Orderly :=
  orderly_foldl_patch (orderly_foldl_patch orderly suitsSorts_ownMoves _) suitsSorts_rowMoves _

theorem orderly_propagateAtom (orderly : e.Orderly) (a : AtomId) : (e.propagateAtom a).Orderly := by
  rw [propagateAtom]
  split
  · exact orderly
  · split
    · exact orderly
    · exact orderly.congr rfl rfl rfl rfl id

theorem orderly_internAtom (orderly : e.Orderly) (v : Var) (kind : BoundKind) (threshold : Rat) :
    (e.internAtom v kind threshold).1.Orderly := by
  rw [internAtom]
  split
  · exact orderly
  · exact orderly_propagateAtom (e := { e with atoms := e.atoms.add v kind threshold })
      (orderly.congr rfl rfl rfl rfl id) _

theorem orderly_selectBranch (orderly : e.Orderly) : e.selectBranch.1.Orderly := by
  rw [selectBranch]
  split
  · exact orderly
  · exact orderly_trace (orderly_count (orderly_internAtom (orderly_internAtom orderly _ _ _) _ _ _) _)
      _ _

/-- Adding a cut refuses only by recording a conflict, and leaves the engine in order. -/
theorem answered_addCut {cut : Cut} (orderly : e.Orderly) (var_lt : ∀ t ∈ cut.terms, t.1 < e.numVars)
    (source : RowId) : Answered (e.addCut source cut) := by
  have joined := orderly_joinReasons orderly cut.reasons
  rw [addCut]
  simp only
  split
  · exact answered_setConflict joined _
  · have added := orderly_mkVar joined (if cut.integral then .int else .real) .internal
    have occurs {v : Var} (nonzero : (LinearForm.ofEntries cut.terms).coeff v ≠ 0) : v < e.numVars := by
      obtain ⟨t, member, rfl⟩ := LinearForm.mem_of_coeff_ofEntries nonzero
      exact var_lt t member
    have numVars : (e.toState.withVar ⟨if cut.integral then .int else .real, .internal⟩).numVars =
      e.numVars + 1 := numVars_withVar _ _
    have withRow : (Engine.pushRow _ e.numVars (.ofEntries cut.terms)).1.Orderly :=
      orderly_pushRow added (isFresh_numVars orderly.tableau)
        (not_not.1 fun nonzero => absurd (occurs nonzero) (Nat.lt_irrefl _))
        (Nat.lt_of_lt_of_eq (Nat.lt_succ_self _) numVars.symm)
        fun v nonzero => Nat.lt_of_lt_of_eq (Nat.lt_succ_of_lt (occurs nonzero)) numVars.symm
    have normal := orderly_normalizeRow withRow e.numRows
    exact answered_installBound (orderly_trace (orderly_count normal _) _ _) _ _ _ _ _

/-- Cutting or branching ends in a conflict only after recording one. -/
theorem resolves_cutOrBranch (orderly : e.Orderly) (cuts : Nat) :
    Resolves (e.cutOrBranch cuts).1 ((e.cutOrBranch cuts).2 = .conflict) := by
  rw [cutOrBranch]
  split
  · have asked := orderly_selectBranch orderly
    rw [askBranch]
    generalize e.selectBranch = result at asked ⊢
    obtain ⟨next, split⟩ := result
    cases split with
    | none => exact ⟨asked, fun refused => by cases refused⟩
    | some split => exact ⟨asked, fun refused => by cases refused⟩
  · rename_i r row chosen
    obtain ⟨-, source⟩ := Option.ite_none_right_eq_some.1 chosen
    obtain ⟨found, -⟩ := cutSource?_eq_some source
    have answered : Answered (e.addCut r (e.cutOf row)) := answered_addCut orderly (fun t member => by
      obtain ⟨u, at_u, same⟩ := exists_of_mem_cutOf member
      have mentioned : row.form.mentions u.1 = true := LinearForm.mentions_of_mem at_u
      exact same ▸ orderly.tableau.var_lt found (LinearForm.mentions_iff.1 mentioned)) r
    generalize e.addCut r (e.cutOf row) = result at answered ⊢
    obtain ⟨next, added⟩ := result
    cases added with
    | true => exact ⟨answered.orderly, fun refused => by cases refused⟩
    | false => exact ⟨answered.orderly, fun _ => answered.conflict rfl⟩

/-- The integer reasoning ends in a conflict only after recording one. -/
theorem resolves_checkIntegers (orderly : e.Orderly) (cuts : Nat) :
    Resolves (e.checkIntegers cuts).1 ((e.checkIntegers cuts).2 = .conflict) := by
  rw [checkIntegers]
  split
  · exact ⟨orderly, fun refused => by cases refused⟩
  · have counted : ({ e with integerChecks := e.integerChecks + 1 } : Engine).Orderly :=
      orderly.congr rfl rfl rfl rfl id
    simp only
    have tests : Answered (forEach testDivisibility e.tableau.rowIds _) :=
      answered_forEach counted fun _ orderly r => answered_testDivisibility orderly r
    generalize forEach testDivisibility e.tableau.rowIds _ = result at tests ⊢
    obtain ⟨tested, ok⟩ := result
    cases ok with
    | false => exact ⟨tests.orderly, fun _ => tests.conflict rfl⟩
    | true =>
      have patched := orderly_patchIntegers tests.orderly
      simp only
      split
      · exact ⟨patched, fun refused => by cases refused⟩
      · exact resolves_cutOrBranch patched cuts

/-! ## Products -/

/-- The same as `Answered` for a step of refinement. -/
abbrev Refined (result : Engine × Refinement) : Prop := Resolves result.1 (result.2 = .conflict)

theorem refined_unchanged (orderly : e.Orderly) : Refined (e, .unchanged) := ⟨orderly, nofun⟩

theorem refined_conflict (orderly : e.Orderly) (d : Dependency) :
    Refined (e.setConflict d, .conflict) :=
  ⟨orderly_setConflict orderly d, fun _ => infeasible_setConflict e d⟩

/-- A refinement step, and another one unless it ran into a conflict. -/
theorem Refined.bind {then_ : Engine → Engine × Refinement} :
    ∀ {result : Engine × Refinement}, Refined result →
      (∀ next, next.Orderly → Refined (then_ next)) →
      Refined (match result with
        | (next, .conflict) => (next, .conflict)
        | (next, outcome) =>
          let (last, others) := then_ next
          (last, outcome.join others)) := by
  rintro ⟨next, outcome⟩ first second
  have later := second next first.orderly
  have none_before (calm : outcome ≠ .conflict) (both : outcome.join (then_ next).2 = .conflict) :
      (then_ next).2 = .conflict := by
    generalize (then_ next).2 = others at both ⊢
    cases outcome <;> cases others <;> first | rfl | exact absurd rfl calm | cases both
  cases outcome with
  | conflict => exact first
  | unchanged => exact ⟨later.orderly, fun both => later.conflict (none_before nofun both)⟩
  | tightened => exact ⟨later.orderly, fun both => later.conflict (none_before nofun both)⟩

theorem refined_each {α : Type} {step : Engine → α → Engine × Refinement} {items : List α}
    (orderly : e.Orderly) (each : ∀ e : Engine, e.Orderly → ∀ a, Refined (step e a)) :
    Refined (refineEach step items e) := by
  induction items generalizing e with
  | nil => exact refined_unchanged orderly
  | cons a rest ih => exact Refined.bind (each e orderly a) fun next orderly => ih orderly

/-- A bound that nonlinear reasoning installs. -/
theorem Answered.refined : ∀ {result : Engine × Bool}, Answered result →
    Refined (match result with
      | (next, true) => (next, .tightened)
      | (next, false) => (next, .conflict))
  | (_, true), answered => ⟨answered.orderly, nofun⟩
  | (_, false), answered => ⟨answered.orderly, fun _ => answered.conflict rfl⟩

theorem refined_tighten (orderly : e.Orderly) (v : Var) (interval : Interval)
    (reasons : List Dependency) : Refined (e.tighten v interval reasons) := by
  refine refined_each orderly fun e orderly kind => ?_
  unfold tightenSide
  simp only
  split
  · exact refined_unchanged orderly
  · split
    · exact Answered.refined (answered_installBound
        (orderly_joinReasons (orderly_count (orderly_trace orderly _ _) _) _) _ _ _ _ _)
    · exact refined_unchanged orderly

theorem refined_boundFactor (orderly : e.Orderly) (m : Monomial) (factor : Var) :
    Refined (boundFactor m e factor) := by
  rw [boundFactor]
  split
  · exact refined_unchanged orderly
  · exact refined_tighten orderly _ _ _

theorem refined_refineMonomials (orderly : e.Orderly) : Refined e.refineMonomials :=
  refined_each orderly fun _ orderly m => Refined.bind (refined_tighten orderly _ _ _)
    fun _ orderly => refined_each orderly fun _ orderly v => refined_boundFactor orderly m v

theorem answered_checkNestedRow (orderly : e.Orderly) (r : RowId) : Answered (e.checkNestedRow r) := by
  rw [checkNestedRow]
  split
  · exact answered_yes orderly
  · simp only
    split
    · exact answered_yes orderly
    · split
      · exact answered_yes orderly
      · have counted := orderly_count orderly fun s => { s with nestedForms := s.nestedForms + 1 }
        split
        · exact answered_yes counted
        · exact answered_setConflict (orderly_trace (orderly_joinReasons counted _) _ _) _

theorem refined_intervalRound (orderly : e.Orderly) : Refined e.intervalRound := by
  have nested : Answered e.checkNestedForms :=
    answered_forEach orderly fun _ orderly r => answered_checkNestedRow orderly r
  rw [intervalRound]
  generalize e.checkNestedForms = result at nested ⊢
  obtain ⟨next, ok⟩ := result
  cases ok with
  | false => exact ⟨nested.orderly, fun _ => nested.conflict rfl⟩
  | true => exact refined_refineMonomials nested.orderly

theorem refined_installAssignment (orderly : e.Orderly) (p : Polynomial) :
    Refined (e.installAssignment p) := by
  rw [installAssignment]
  split
  · exact refined_unchanged orderly
  · refine refined_each (orderly_joinReasons orderly _) fun e orderly kind => ?_
    rw [installValue]
    simp only
    split
    · exact Answered.refined (answered_installBound (orderly_trace orderly _ _) _ _ _ _ _)
    · exact refined_unchanged orderly

theorem refined_basisStep (orderly : e.Orderly) : Refined e.basisStep := by
  have counted := orderly_count orderly fun s => { s with basisSteps := s.basisSteps + 1 }
  rw [basisStep]
  simp only
  split
  · exact refined_conflict (orderly_trace (orderly_joinReasons counted _) _ _) _
  · exact refined_each counted fun _ orderly p => refined_installAssignment orderly p

/-! ## Nonlinear reasoning -/

theorem increasing_repairMonomial (increasing : e.toPatch.Pairwise (· < ·)) (m : Monomial) :
    (e.repairMonomial m).toPatch.Pairwise (· < ·) := by
  rw [repairMonomial]
  split
  · exact increasing
  · simp only
    split
    · exact increasing_updateValue increasing
    · exact increasing

theorem increasing_foldl_repairMonomial (increasing : e.toPatch.Pairwise (· < ·))
    (ms : List Monomial) : (ms.foldl repairMonomial e).toPatch.Pairwise (· < ·) := by
  induction ms generalizing e with
  | nil => exact increasing
  | cons m rest ih => exact ih (increasing_repairMonomial increasing m)

/-- Once all integer variables are integral, monomials are moved onto products of integers. -/
theorem orderly_repairMonomials (orderly : e.Orderly) (inv : e.Invariant h)
    (resting : e.Reliable → e.Feasible ∧ e.Integral) : e.repairMonomials.1.Orderly := by
  obtain ⟨moved, integers⟩ := moved_repairMonomials inv
  refine ⟨(moved.steps.invariant inv).founded.formed.toFitted,
    increasing_foldl_repairMonomial orderly.increasing _, fun reliable v integer _ => ?_⟩
  obtain ⟨feasible, integral⟩ := resting ((moved.steps.reliable_iff inv).1 reliable)
  exact integers feasible integral v integer

theorem resolves_basisRound (orderly : e.Orderly) (pass : NonlinearPass) :
    Resolves (e.basisRound pass).1 ((e.basisRound pass).2.2 = .conflict) := by
  rw [basisRound]
  split
  · have refined := refined_basisStep orderly
    generalize e.basisStep = result at refined ⊢
    obtain ⟨next, outcome⟩ := result
    cases outcome with
    | conflict => exact ⟨refined.orderly, fun _ => refined.conflict rfl⟩
    | tightened => exact ⟨refined.orderly, fun refused => by cases refused⟩
    | unchanged => exact ⟨refined.orderly, fun refused => by cases refused⟩
  · exact ⟨orderly, fun refused => by cases refused⟩

theorem resolves_repairOrComplete (orderly : e.Orderly) (inv : e.Invariant h)
    (resting : e.Reliable → e.Feasible ∧ e.Integral) (pass : NonlinearPass) :
    Resolves (e.repairOrComplete pass).1 ((e.repairOrComplete pass).2.2 = .conflict) := by
  have repaired := orderly_repairMonomials orderly inv resting
  rw [repairOrComplete]
  generalize e.repairMonomials = result at repaired ⊢
  obtain ⟨next, ok⟩ := result
  cases ok with
  | true => exact ⟨repaired, fun refused => by cases refused⟩
  | false => exact resolves_basisRound repaired pass

/-- The nonlinear reasoning ends in a conflict only after recording one. -/
theorem resolves_checkNonlinear (orderly : e.Orderly) (inv : e.Invariant h)
    (resting : e.Reliable → e.Feasible ∧ e.Integral) (pass : NonlinearPass) :
    Resolves (e.checkNonlinear pass).1 ((e.checkNonlinear pass).2.2 = .conflict) := by
  rw [checkNonlinear]
  split
  · exact ⟨orderly, fun refused => by cases refused⟩
  · split
    · have refined := refined_intervalRound orderly
      have refines := refines_intervalRound inv
      simp only
      generalize e.intervalRound = result at refined refines ⊢
      obtain ⟨next, outcome⟩ := result
      cases outcome with
      | conflict => exact ⟨refined.orderly, fun _ => refined.conflict rfl⟩
      | tightened => exact ⟨refined.orderly, fun refused => by cases refused⟩
      | unchanged =>
        have steps : Steps h e next := refines.answers.steps rfl
        have same := refines.unchanged rfl
        refine resolves_repairOrComplete refined.orderly (steps.invariant inv) (fun reliable => ?_) _
        rw [same] at reliable ⊢
        obtain ⟨feasible, integral⟩ := resting reliable
        exact ⟨⟨feasible.normalized, feasible.rows, feasible.admits⟩, integral⟩
    · exact resolves_repairOrComplete orderly inv resting pass

/-! ## Checks -/

/-- When integer reasoning goes on to the monomials, every integer variable is integral, if values can
be relied on. -/
theorem integral_of_checkIntegers {integral : Engine} {cuts : Nat} (inv : e.Invariant h)
    (yes : e.propagate.2 = true) (found : e.propagate.1.checkIntegers cuts = (integral, .feasible)) :
    integral.Invariant h ∧ (integral.Reliable → integral.Feasible ∧ integral.Integral) := by
  have propagated := propagated_of_yes inv yes
  have propagated_inv := propagated.steps.invariant inv
  have moves := moved_checkIntegers cuts propagated_inv propagated.normalized
  rw [found] at moves
  obtain ⟨moved, none_left⟩ := moves rfl
  refine ⟨moved.steps.invariant propagated_inv, fun reliable => ?_⟩
  have feasible := moved.feasible
    (propagated.feasible ((moved.steps.reliable_iff propagated_inv).1 reliable))
  exact ⟨feasible, (integral_iff feasible.normalized).1 none_left⟩

theorem resolves_integers {cuts : Nat} {outcome : IntegerOutcome} (orderly : e.Orderly)
    (inv : e.Invariant h) (found : e.propagate.1.checkIntegers cuts = (next, outcome)) :
    Resolves next (outcome = .conflict) := by
  have resolves := resolves_checkIntegers (answered_propagate orderly inv).orderly cuts
  rwa [found] at resolves

theorem resolves_products {integral : Engine} {cuts : Nat} {pass spent : NonlinearPass}
    {outcome : NonlinearOutcome} (orderly : e.Orderly) (inv : e.Invariant h)
    (yes : e.propagate.2 = true) (found : e.propagate.1.checkIntegers cuts = (integral, .feasible))
    (concluded : integral.checkNonlinear pass = (next, spent, outcome)) :
    Resolves next (outcome = .conflict) := by
  obtain ⟨integral_inv, resting⟩ := integral_of_checkIntegers inv yes found
  have resolves := resolves_checkNonlinear (resolves_integers orderly inv found).orderly integral_inv
    resting pass
  rwa [concluded] at resolves

theorem Round.orderly (round : Round e next) (inv : e.Invariant h) (orderly : e.Orderly) :
    next.Orderly := by
  cases round with
  | cut yes cuts added => exact (resolves_integers orderly inv added).orderly
  | refine yes cuts integral pass spent integers progress =>
    exact (resolves_products orderly inv yes integers progress).orderly

theorem Rounds.orderly (rounds : Rounds e next) (inv : e.Invariant h) (orderly : e.Orderly) :
    next.Orderly := by
  induction rounds with
  | refl => exact orderly
  | tail before round ih => exact round.orderly ((Rounds.steps before inv).invariant inv) ih

theorem Finish.orderly {result : Engine × CheckResult} (finish : Finish e result)
    (inv : e.Invariant h) (orderly : e.Orderly) : result.1.Orderly := by
  cases finish with
  | spent => exact orderly
  | failed no => exact (answered_propagate orderly inv).orderly
  | integers yes cuts next outcome found => exact (resolves_integers orderly inv found).orderly
  | products yes cuts integral next pass spent outcome found concluded =>
    exact (resolves_products orderly inv yes found concluded).orderly

theorem orderly_check (orderly : e.Orderly) (inv : e.Invariant h) : e.check.1.Orderly := by
  obtain ⟨mid, rounds, finish⟩ := rounds_check e
  have begun_inv : e.begun.Invariant h := inv
  exact finish.orderly ((rounds.steps begun_inv).invariant begun_inv)
    (rounds.orderly begun_inv (orderly_count orderly _))

theorem conflictResult_of_infeasible (infeasible : e.isInfeasible = true) :
    ∃ explanation, e.conflictResult = .unsat explanation := by
  rw [State.isInfeasible] at infeasible
  split at infeasible
  · rename_i d status
    refine ⟨e.dependencies.linearize d, ?_⟩
    rw [conflictResult, State.conflict]
    simp only [status]
  · cases infeasible

end ArithDecide.Engine
