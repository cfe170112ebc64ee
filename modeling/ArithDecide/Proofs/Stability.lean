import Mathlib
import ArithDecide.Proofs.AlikeChecks
import ArithDecide.Proofs.Backtracking

/-!
# Verdicts are stable

Right after a check found a model nothing is left to be done: every constraint is satisfied, no literal
waits, and no row has to be inspected. A check of such a state goes through all of its stages without
changing a value or a bound and gives the same answer. A recorded conflict is the answer of every later
check. Both survive a scope that is entered and left again.
-/

namespace ArithDecide

namespace Engine

open State

variable {e next : Engine} {h : History} {pass : NonlinearPass}

/-! ## Rows to inspect -/

/-- No row has to be inspected, or none is inspected anyway. -/
def Inspected (e : Engine) : Prop := e.touched = [] ∨ e.options.propagateBounds = false

theorem Inspected.later (inspected : e.Inspected) (touched : next.touched = e.touched)
    (options : next.options = e.options) : next.Inspected := by
  rwa [Inspected, touched, options]

/-- A loop that reports no conflict keeps what each of its steps keeps. -/
theorem forEach_induction {α : Type} {motive : Engine → Prop} {step : Engine → α → Engine × Bool}
    {items : List α}
    (each : ∀ next a, motive next → (step next a).2 = true → motive (step next a).1)
    (start : motive e) (yes : (forEach step items e).2 = true) :
    motive (forEach step items e).1 := by
  induction items generalizing e with
  | nil => exact start
  | cons a rest ih =>
    have first := each e a start
    rw [forEach] at yes ⊢
    split at yes
    · rename_i next done
      rw [done] at first
      exact ih (first rfl) yes
    · cases yes

theorem touched_installBound {v : Var} {kind : BoundKind} {value : InfRat} {reason : Dependency}
    (yes : (e.installBound v kind value reason .derived).2 = true) :
    (e.installBound v kind value reason .derived).1.touched = e.touched := by
  rw [installBound] at yes ⊢
  simp only at yes ⊢
  split
  · rename_i refused
    simp [refused] at yes
  · rfl
  · exact touched_afterTightening _ _ _ _

theorem touched_impliedBound {terms : List (Var × Rat)} {side : BoundKind} {sum : RowSum}
    {t : Var × Rat} (yes : (impliedBound terms side sum e t).2 = true) :
    (impliedBound terms side sum e t).1.touched = e.touched := by
  rw [impliedBound] at yes ⊢
  split
  · rfl
  · rename_i rest left
    simp only [left] at yes ⊢
    split
    · rename_i tighter
      rw [if_pos tighter] at yes
      exact touched_installBound yes
    · rfl

theorem touched_impliedBoundsOf {r : RowId} (yes : (e.impliedBoundsOf r).2 = true) :
    (e.impliedBoundsOf r).1.touched = e.touched := by
  rw [impliedBoundsOf] at yes ⊢
  split
  · rfl
  · rename_i row found
    simp only [found] at yes ⊢
    refine forEach_induction (motive := fun next => next.touched = e.touched)
      (fun next t same yes => ?_) rfl yes
    have first : (impliedBound row.zeroTerms .lower (e.rowSum row.zeroTerms .lower) next t).2 = true →
        _ := touched_impliedBound
    split at yes
    · rename_i mid done
      rw [done] at first
      exact (touched_impliedBound yes).trans ((first rfl).trans same)
    · cases yes

theorem touched_propagateImpliedBounds (yes : e.propagateImpliedBounds.2 = true) :
    e.propagateImpliedBounds.1.touched = [] :=
  forEach_induction (motive := fun next => next.touched = [])
    (fun _ _ none_touched yes => (touched_impliedBoundsOf yes).trans none_touched) rfl yes

theorem touched_pivotAndUpdate (e : Engine) (violation : Violation) (row : Row) (entering : Var) :
    (e.pivotAndUpdate violation row entering).touched = e.touched := by
  rw [pivotAndUpdate_toState]
  generalize (violation.target - e.stored row.base).divide (row.form.coeff entering) = theta
  have same : (e.updateValue entering theta).touched = e.touched := by
    rw [(valuesOnly_updateValue e entering theta).toState]
  exact same

theorem touched_repair (pivots : Nat) (e : Engine) : (repair pivots e).1.touched = e.touched := by
  induction pivots generalizing e with
  | zero => ?_
  | succ left ih => ?_
  all_goals
    rw [repair]
    split
    · rfl
    · simp only
      split
      · rfl
      · split
        · rw [setConflict]
          split <;> rfl
        · first
          | rfl
          | exact (ih _).trans (touched_pivotAndUpdate _ _ _ _)

/-- A successful inspection leaves no row to be inspected, unless rows are not inspected anyway. -/
theorem inspected_propagateRows (yes : e.propagateRows.2 = true) : e.propagateRows.1.Inspected := by
  rw [propagateRows] at yes ⊢
  split
  · rename_i idle
    rw [Bool.or_eq_true, Bool.not_eq_true', List.isEmpty_iff] at idle
    exact idle.symm
  · rename_i active
    rw [if_neg active] at yes
    have first := touched_propagateImpliedBounds (e := e)
    split
    · rename_i next done
      rw [done] at first yes
      simp only at yes
      refine .inl ?_
      split
      · exact first rfl
      · exact (touched_repair _ _).trans (first rfl)
    · rename_i next done
      rw [done] at yes
      cases yes

/-- After a successful propagation no row has to be inspected. -/
theorem inspected_propagate (yes : e.propagate.2 = true) : e.propagate.1.Inspected := by
  obtain ⟨-, installed, repaired, derived, -, -, deriving_rows, same⟩ := propagate_of_yes yes
  have inspected : derived.Inspected := by
    have := inspected_propagateRows (e := repaired) (by rw [deriving_rows])
    rwa [deriving_rows] at this
  obtain ⟨_, _, _, reported⟩ := toState_propagateFixedEqualities derived
  rw [same]
  exact inspected.later (by rw [reported]) (Alike.refl derived).propagateFixedEqualities.first

/-- When a check finds a model no row has to be inspected. -/
theorem inspected_checkRounds (rounds cuts : Nat) (inv : e.Invariant h)
    (sat : (checkRounds rounds cuts pass e).2 = .sat) :
    (checkRounds rounds cuts pass e).1.Inspected := by
  induction rounds generalizing cuts pass e with
  | zero => cases sat
  | succ rounds ih =>
    have succeeds := propagated_of_yes inv
    have none_touched := inspected_propagate (e := e)
    rw [checkRounds] at sat ⊢
    generalize e.propagate = result at succeeds none_touched sat ⊢
    obtain ⟨propagated, ok⟩ := result
    cases ok with
    | false =>
      simp only [conflictResult] at sat
      split at sat <;> cases sat
    | true =>
      obtain ⟨steps, calm, normalized⟩ := succeeds rfl
      have inspected : propagated.Inspected := none_touched rfl
      have propagated_inv := steps.invariant inv
      have answers := answers_checkIntegers propagated_inv normalized cuts
      have moves := moved_checkIntegers cuts propagated_inv normalized
      have kept := ((Alike.refl propagated).checkIntegers cuts).engine.first
      simp only at sat ⊢
      generalize propagated.checkIntegers cuts = result at answers moves kept sat ⊢
      obtain ⟨next, outcome⟩ := result
      cases outcome with
      | conflict =>
        simp only [conflictResult] at sat
        split at sat <;> cases sat
      | cutAdded => exact ih (cuts + 1) ((answers.steps rfl).invariant propagated_inv) sat
      | branch split => cases sat
      | giveUp => cases sat
      | feasible =>
        obtain ⟨moved, -⟩ := moves rfl
        have next_inv := moved.steps.invariant propagated_inv
        have next_inspected := inspected.later moved.touched kept
        have concludes := concludes_checkNonlinear next_inv pass
        have kept := ((Alike.refl next).checkNonlinear pass).engine.first
        simp only at sat ⊢
        split
        · exact next_inspected
        · rename_i some_there
          rw [if_neg some_there] at sat
          generalize next.checkNonlinear pass = result at concludes kept sat ⊢
          obtain ⟨last, spent, outcome⟩ := result
          cases outcome with
          | consistent => exact next_inspected.later (concludes.touched rfl) kept
          | conflict =>
            simp only [conflictResult] at sat
            split at sat <;> cases sat
          | progress => exact ih cuts ((concludes.answers.steps rfl).invariant next_inv) sat
          | giveUp => cases sat

/-! ## When nothing is left to be done -/

/-- Every constraint is satisfied, no literal waits and no row has to be inspected. -/
structure Quiescent (e : Engine) : Prop where
  calm : e.isInfeasible = false
  drained : e.atoms.queued = []
  satisfied : e.Satisfied
  inspected : e.Inspected

/-- After a check that found a model nothing is left to be done, if values can be relied on. -/
theorem quiescent_check (ready : e.Ready h) (reliable : e.check.1.Reliable)
    (sat : e.check.2 = .sat) : e.check.1.Quiescent := by
  have checks := checks_check ready.invariant
  obtain ⟨satisfied, calm⟩ := checks.satisfied sat
  exact
    { calm := calm
      drained := (checks.standing ready.standing).2 (.inl sat)
      satisfied := satisfied reliable
      inspected := inspected_checkRounds _ _ ready.invariant sat }

/-- Leaving a scope gives the model back while no number of a scope comes again. -/
theorem sameModel_returned (returns : e.toState.Returns next.toState) (numbered : next.Numbered) :
    SameModel e next := by
  have same := returns.same numbered
  refine ⟨?_, State.value_congr ?_ ?_, ?_⟩ <;> rw [same] <;> rfl

/-- Where leaving a scope leads, nothing is to be done if nothing was. -/
theorem Quiescent.returned (quiescent : e.Quiescent) (returns : e.toState.Returns next.toState)
    (numbered : next.Numbered) : next.Quiescent := by
  have same := returns.same numbered
  have model := sameModel_returned returns numbered
  have feasible := quiescent.satisfied.feasible
  exact
    { calm := by rw [same]; exact quiescent.calm
      drained := by rw [same]; exact quiescent.drained
      satisfied :=
        { feasible := by rw [same]; exact ⟨feasible.normalized, feasible.rows, feasible.admits⟩
          integral := by rw [same]; exact quiescent.satisfied.integral
          products := (model.wrongMonomials (by rw [same]; rfl)).trans quiescent.satisfied.products }
      inspected := .inl (by rw [same]; rfl) }

/-- A variable within its bounds violates nothing. -/
theorem violation?_eq_none (feasible : e.Feasible) (formed : e.Formed) (v : Var) :
    e.violation? v = none := by
  rw [violation?]
  split
  · rfl
  · rename_i r heads
    obtain ⟨row, found, rfl⟩ := Tableau.get?_of_rowOf? heads
    have within := feasible.admits row.base (formed.tableau.base_lt found)
    have none_outside (kind : BoundKind) : ((e.bounds.value row.base kind).filter fun bound =>
        kind.tighter bound (e.stored row.base)) = none := by
      refine Option.filter_eq_none_iff.2 fun bound found => ?_
      obtain ⟨b, active, rfl⟩ := Option.map_eq_some_iff.1 found
      rw [BoundKind.tighter_iff, not_not]
      exact BoundStore.admits_iff.1 within kind b active
    simp only [none_outside]
    rfl

theorem firstViolation?_of_feasible (feasible : e.Feasible) (formed : e.Formed) (vs : List Var) :
    e.firstViolation? vs = none := by
  induction vs with
  | nil => rfl
  | cons v rest ih => rw [firstViolation?, violation?_eq_none feasible formed, ih]

theorem repair_of_feasible (feasible : e.Feasible) (formed : e.Formed) (pivots : Nat) :
    repair pivots e = ({ e with
      toPatch := [], status := if e.status = .checking then .consistent else e.status }, true) := by
  cases pivots <;> rw [repair, firstViolation?_of_feasible feasible formed]

theorem normalizePendingRows_of_normalized (normalized : e.tableau.Normalized) :
    e.normalizePendingRows = e := by
  have none_pending : e.pendingRows = [] := by
    refine List.filter_eq_nil_iff.2 fun r _ pending => ?_
    obtain ⟨row, found, still⟩ := Option.any_eq_true _ _ |>.1 pending
    rw [normalized r row found] at still
    cases still
  rw [normalizePendingRows, none_pending]
  rfl

theorem installQueued_of_drained (drained : e.atoms.queued = []) (count : Nat) :
    installQueued count e = (e, true) := by
  cases count with
  | zero => rfl
  | succ count => rw [installQueued, AtomRegistry.next?, drained]

theorem propagateRows_of_inspected (inspected : e.Inspected) : e.propagateRows = (e, true) := by
  rw [propagateRows, if_pos]
  obtain idle | off := inspected
  · simp [idle]
  · simp [off]

/-- With nothing left to be done a propagation changes neither values nor bounds. -/
theorem propagate_of_quiescent (inv : e.Invariant h) (quiescent : e.Quiescent) :
    ∃ next, e.propagate = (next, true) ∧ SameModel e next ∧ next.monomials = e.monomials := by
  have feasible := quiescent.satisfied.feasible
  let settled : Engine := { e with
    toPatch := [], status := if e.status = .checking then .consistent else e.status }
  have inspected : settled.Inspected := quiescent.inspected.later rfl rfl
  obtain ⟨_, _, _, reported⟩ := toState_propagateFixedEqualities settled
  refine ⟨settled.propagateFixedEqualities, ?_, ⟨?_, State.value_congr ?_ ?_, ?_⟩, ?_⟩
  · rw [propagate, if_neg (Bool.eq_false_iff.1 quiescent.calm),
      normalizePendingRows_of_normalized feasible.normalized]
    simp only [installQueued_of_drained quiescent.drained, makeFeasible,
      repair_of_feasible feasible inv.founded.formed]
    rw [propagateRows_of_inspected inspected]
  all_goals rw [reported]

theorem checkIntegers_of_none (none_left : e.fractionalVars = []) (cuts : Nat) :
    e.checkIntegers cuts = (e, .feasible) := by
  rw [checkIntegers, none_left]
  rfl

theorem checkNonlinear_of_none (none_wrong : e.wrongMonomials = []) :
    e.checkNonlinear pass = (e, pass, .consistent) := by
  rw [checkNonlinear, none_wrong]
  rfl

/-- With nothing left to be done a check finds the model that is there. -/
theorem check_of_quiescent (inv : e.Invariant h) (quiescent : e.Quiescent) :
    e.check.2 = .sat ∧ SameModel e e.check.1 := by
  let counted := e.count fun s => { s with checks := s.checks + 1 }
  have satisfied : counted.Satisfied :=
    ⟨quiescent.satisfied.feasible, quiescent.satisfied.integral, quiescent.satisfied.products⟩
  obtain ⟨next, propagates, same, monomials⟩ := propagate_of_quiescent (e := counted) inv
    ⟨quiescent.calm, quiescent.drained, satisfied, quiescent.inspected⟩
  have none_left : next.fractionalVars = [] :=
    same.fractionalVars.trans ((integral_iff quiescent.satisfied.feasible.normalized).2
      quiescent.satisfied.integral)
  have none_wrong : next.wrongMonomials = [] :=
    (same.wrongMonomials monomials).trans quiescent.satisfied.products
  have found : e.check = (next, .sat) := by
    rw [check, roundLimit, checkRounds, propagates]
    simp only [checkIntegers_of_none none_left, checkNonlinear_of_none none_wrong, ite_self]
  rw [found]
  exact ⟨rfl, same.columns, same.value, same.bounds⟩

/-! ## A recorded conflict -/

theorem isInfeasible_of_conflict {explanation : Explanation}
    (recorded : e.conflict = some explanation) : e.isInfeasible = true := by
  rw [State.conflict] at recorded
  rw [State.isInfeasible]
  split at recorded
  · rfl
  · cases recorded

/-- A check of an engine without solutions ends at once. -/
theorem checkRounds_of_infeasible (infeasible : e.isInfeasible = true) (rounds cuts : Nat) :
    checkRounds (rounds + 1) cuts pass e = (e, e.conflictResult) := by
  rw [checkRounds, propagate, if_pos infeasible]

/-- A check of an engine with a recorded conflict answers with that conflict. -/
theorem check_of_conflict {explanation : Explanation} (recorded : e.conflict = some explanation) :
    e.check.2 = .unsat explanation := by
  have kept : (e.count fun s => { s with checks := s.checks + 1 }).conflict = some explanation :=
    recorded
  rw [check, roundLimit, checkRounds_of_infeasible (isInfeasible_of_conflict kept), conflictResult,
    kept]

end Engine

namespace Session

open Engine State

variable {options : Options} {calls : List Call} {again : Session}

/-- What a session resumes as: itself, or what is left after a scope was entered, calls were made that
left exactly the scopes they had entered, and the scope was left again. -/
inductive Resumes (s : Session) : Session → Prop
  | here : Resumes s s
  | left {inner : List Call} (balanced : (s.perform .push).Balanced inner) :
    Resumes s (((s.perform .push).run inner).perform (.pop 1))

/-- A session in which a scope was left resumes where leaving scopes leads. -/
theorem Resumes.same_or_returns (resumes : ((start options).run calls).Resumes again) :
    again = (start options).run calls ∨
      ((start options).run calls).engine.toState.Returns again.engine.toState := by
  cases resumes with
  | here => exact .inl rfl
  | left balanced => exact .inr (left_of_balanced options calls _ balanced).2.1

theorem Resumes.invariant (resumes : ((start options).run calls).Resumes again) :
    again.engine.Invariant again.history := by
  cases resumes with
  | here => exact (ready_run options calls).invariant
  | @left inner balanced =>
    have ready := ready_run options (calls ++ (.push :: inner ++ [.pop 1]))
    simpa [run_append, run] using ready.invariant

/-- Verdicts are stable. When a check finds a model and fewer than `2 ^ 32` scopes were entered by then,
a second check finds the same model and leaves the same bounds, and when a check finds a conflict, a
second check gives the same explanation. It makes no difference whether a scope was entered and left in
between, whatever was done in that scope. -/
theorem check_stable (options : Options) (calls : List Call) :
    let s := (start options).run calls
    ∀ again, (s.perform .check).Resumes again →
      (again.engine.Numbered → s.engine.check.2 = .sat →
        again.engine.check.2 = .sat ∧
          (again.perform .check).engine.model = (s.perform .check).engine.model ∧
          (again.perform .check).engine.bounds = (s.perform .check).engine.bounds) ∧
      ∀ explanation, s.engine.check.2 = .unsat explanation →
        again.engine.check.2 = .unsat explanation := by
  intro s again resumes
  have ready : s.engine.Ready s.history := ready_run options calls
  have checked : s.perform .check = (start options).run (calls ++ [.check]) :=
    (run_append (start options) calls [.check]).symm
  rw [checked] at resumes
  have state := resumes.same_or_returns
  rw [← checked] at state
  refine ⟨fun numbered sat => ?_, fun explanation unsat => ?_⟩
  · have before : (s.perform .check).engine.Numbered := by
      obtain rfl | returns := state
      · exact numbered
      · exact returns.later.trans numbered
    have quiescent : (s.perform .check).engine.Quiescent := quiescent_check ready before.reliable sat
    have resumed : again.engine.Quiescent ∧ SameModel (s.perform .check).engine again.engine := by
      obtain rfl | returns := state
      · exact ⟨quiescent, rfl, rfl, rfl⟩
      · exact ⟨quiescent.returned returns numbered, sameModel_returned returns numbered⟩
    have ⟨found, same⟩ := check_of_quiescent resumes.invariant resumed.1
    exact ⟨found, same.model.trans resumed.2.model, same.bounds.trans resumed.2.bounds⟩
  · have recorded : (s.perform .check).engine.conflict = some explanation :=
      (checks_check ready.invariant).conflict explanation unsat
    refine check_of_conflict ?_
    obtain rfl | returns := state
    · exact recorded
    · rw [returns.resembles.same]
      exact recorded

theorem balanced_within_checked :
    ((((start {}).run outside).perform .check).perform .push).Balanced within :=
  balanced_of_depths 1 ⟨by cbv, by cbv, by cbv⟩

theorem check_outside : ((start {}).run outside).engine.check.2 = .sat ∧
    ((start {}).run (outside ++ [.assertLiteral ⟨0, true⟩])).engine.check.2 =
      .unsat ⟨[⟨0, false⟩, ⟨0, true⟩], []⟩ ∧
    ((((((start {}).run outside).perform .check).perform .push).run within).perform
      (.pop 1)).engine.scopesEntered = 2 := by
  refine ⟨by cbv, by cbv, by cbv⟩

theorem check_stable_outside :
    ((((((start {}).run outside).perform .check).perform .push).run within).perform
        (.pop 1)).engine.check.2 = .sat ∧
      (((start {}).run (outside ++ [.assertLiteral ⟨0, true⟩])).perform .check).engine.check.2 =
        .unsat ⟨[⟨0, false⟩, ⟨0, true⟩], []⟩ :=
  have ⟨sat, unsat, entered⟩ := check_outside
  have numbered := State.Numbered.of_eq 2 entered (by decide)
  ⟨((check_stable {} outside _ (.left balanced_within_checked)).1 numbered sat).1,
    (check_stable {} _ _ .here).2 _ unsat⟩

end Session

end ArithDecide
