import ArithDecide.Check
import ArithDecide.Proofs.Products
import ArithDecide.Proofs.Splitting

/-!
# What a check comes to

A successful propagation leaves a feasible assignment, and a check that answers "satisfiable" has only
moved variables harmlessly since its last propagation: its assignment satisfies every constraint. A
check that answers "unsatisfiable" hands out the recorded conflict, and one that asks for a case split
found no conflict and a split that is complete and open.
-/

namespace ArithDecide

/-- The check found a model or wants a case split. -/
def CheckResult.isOpen : CheckResult → Bool
  | .sat => true
  | .branch _ => true
  | _ => false

namespace Engine

open State

variable {e next : Engine} {h : History} {pass : NonlinearPass}

/-! ## Propagation -/

/-- What a successful propagation leaves behind. -/
structure Propagated (h : History) (e next : Engine) : Prop where
  steps : Steps h e next
  calm : e.isInfeasible = false
  normalized : next.tableau.Normalized
  feasible : next.Reliable → next.Feasible

/-- The stages of a successful propagation. -/
theorem propagate_of_yes (yes : e.propagate.2 = true) :
    e.isInfeasible = false ∧ ∃ installed repaired derived,
      installQueued e.normalizePendingRows.atoms.queued.length e.normalizePendingRows =
        (installed, true) ∧
      installed.makeFeasible = (repaired, true) ∧ repaired.propagateRows = (derived, true) ∧
      e.propagate = (derived.propagateFixedEqualities, true) := by
  generalize result_eq : e.propagate = result at yes ⊢
  rw [propagate] at result_eq
  simp only at result_eq
  split at result_eq
  · exact absurd (congrArg Prod.snd result_eq) (by simp [yes])
  · rename_i calm
    refine ⟨Bool.eq_false_iff.2 calm, ?_⟩
    split at result_eq
    · rename_i installed first
      split at result_eq
      · rename_i repaired second
        split at result_eq
        · rename_i derived third
          exact ⟨installed, repaired, derived, first, second, third, result_eq.symm⟩
        · exact absurd (congrArg Prod.snd result_eq) (by simp [yes])
      · exact absurd (congrArg Prod.snd result_eq) (by simp [yes])
    · exact absurd (congrArg Prod.snd result_eq) (by simp [yes])

/-- The stages of a successful propagation before equalities are reported. -/
theorem steps_stages {installed repaired derived : Engine} (inv : e.Invariant h)
    (installing : installQueued e.normalizePendingRows.atoms.queued.length e.normalizePendingRows =
      (installed, true))
    (repairing : installed.makeFeasible = (repaired, true))
    (deriving_rows : repaired.propagateRows = (derived, true)) :
    Steps h e derived ∧ derived.tableau.Normalized := by
  have normal := steps_normalizePendingRows h e
  have normal_inv := normal.invariant inv
  have settled := normalized_normalizePendingRows e
  have first : Steps h e.normalizePendingRows installed :=
    (installing ▸ answers_installQueued _ normal_inv : Answers h _ (installed, true)).steps rfl
  have first_inv := first.invariant normal_inv
  have second : Steps h installed repaired :=
    (repairing ▸ answers_makeFeasible first_inv (first.normalized settled) :
      Answers h _ (repaired, true)).steps rfl
  have second_settled := second.normalized (first.normalized settled)
  have third : Steps h repaired derived :=
    (deriving_rows ▸ answers_propagateRows (second.invariant first_inv) second_settled :
      Answers h _ (derived, true)).steps rfl
  exact ⟨((normal.trans first).trans second).trans third, third.normalized second_settled⟩

/-- A propagation that does not conflict leaves rows in reduced form, and values within their bounds if
they can be relied on. -/
theorem propagated_of_yes (inv : e.Invariant h) (yes : e.propagate.2 = true) :
    Propagated h e e.propagate.1 := by
  have steps : Steps h e e.propagate.1 := (answers_propagate inv).steps yes
  obtain ⟨calm, installed, repaired, derived, installing, repairing, deriving_rows, same⟩ :=
    propagate_of_yes yes
  obtain ⟨before, settled⟩ := steps_stages inv installing repairing deriving_rows
  have clean : repaired.toPatch = [] := by
    have := toPatch_makeFeasible (e := installed) (by rw [repairing])
    rwa [repairing] at this
  have still_clean : derived.toPatch = [] := by
    have := toPatch_propagateRows clean (by rw [deriving_rows])
    rwa [deriving_rows] at this
  have reporting := steps_propagateFixedEqualities (before.invariant inv)
  rw [same] at steps ⊢
  have normalized := reporting.normalized settled
  exact ⟨steps, calm, normalized, fun reliable =>
    feasible_of_clean (steps.invariant inv) reliable normalized
      ((toPatch_propagateFixedEqualities derived).trans still_clean)⟩

/-! ## Rounds -/

/-- What a check does. -/
structure Checks (h : History) (e : Engine) (result : Engine × CheckResult) : Prop where
  answers : Answers h e (result.1, result.2.isSat)
  conflict : ∀ explanation, result.2 = .unsat explanation → result.1.conflict = some explanation
  satisfied : result.2 = .sat →
    (result.1.Reliable → result.1.Satisfied) ∧ result.1.isInfeasible = false
  branch : ∀ split, result.2 = .branch split → result.1.Splits split ∧ result.1.isInfeasible = false
  standing : e.Standing h → result.1.Standing h ∧
    (result.2 = .sat ∨ (∃ split, result.2 = .branch split) → result.1.atoms.queued = [])

theorem Checks.after (steps : Steps h e next) (standing : e.Standing h → next.Standing h)
    {result : Engine × CheckResult} (checks : Checks h next result) : Checks h e result where
  answers := checks.answers.after steps
  conflict := checks.conflict
  satisfied := checks.satisfied
  branch := checks.branch
  standing stands := checks.standing (standing stands)

/-- A check that ends without an answer, or with a conflict. -/
theorem checks_stopped {result : CheckResult} (answers : Answers h e (next, false))
    (standing : e.Standing h → next.Standing h) (stopped : result.isOpen = false)
    (conflict : ∀ explanation, result = .unsat explanation → next.conflict = some explanation) :
    Checks h e (next, result) := by
  cases result with
  | sat => cases stopped
  | branch split => cases stopped
  | unsat explanation =>
    exact ⟨answers, conflict, nofun, nofun, fun stands => ⟨standing stands, by simp⟩⟩
  | unknown => exact ⟨answers, conflict, nofun, nofun, fun stands => ⟨standing stands, by simp⟩⟩

theorem checks_conflictResult (answers : Answers h e (next, false))
    (standing : e.Standing h → next.Standing h) : Checks h e (next, next.conflictResult) := by
  refine checks_stopped answers standing ?_ fun explanation same => ?_
  · rw [conflictResult]
    split <;> rfl
  · rw [conflictResult] at same
    split at same
    · rename_i found
      rw [found, CheckResult.unsat.inj same]
    · cases same

/-- After a successful propagation everything stays in force, and nothing waits. -/
structure Settles (h : History) (e : Engine) (result : Engine × Bool) : Prop where
  answers : Answers h e result
  standing : e.Standing h → result.1.Standing h ∧ result.1.atoms.queued = []

theorem Settles.bind {mid : Engine} {result : Engine × Bool} (settles : Settles h e (mid, true))
    (inv : mid.Invariant h) (answers : Answers h mid result) : Settles h e result where
  answers := answers.after (settles.answers.steps rfl)
  standing stands :=
    have before := settles.standing stands
    ⟨answers.standing inv before.1 before.2, (answers.sameQueue before.2).queued.trans before.2⟩

theorem Settles.stopped {ok : Bool} {result : CheckResult} (settles : Settles h e (next, ok))
    (stopped : result.isOpen = false)
    (conflict : ∀ explanation, result = .unsat explanation → next.conflict = some explanation) :
    Checks h e (next, result) :=
  checks_stopped settles.answers.weaken (fun standing => (settles.standing standing).1) stopped
    conflict

theorem Settles.conflictResult {ok : Bool} (settles : Settles h e (next, ok)) :
    Checks h e (next, next.conflictResult) :=
  checks_conflictResult settles.answers.weaken fun standing => (settles.standing standing).1

theorem Settles.sat (settles : Settles h e (next, true)) (calm : e.isInfeasible = false)
    (satisfied : next.Reliable → next.Satisfied) : Checks h e (next, .sat) where
  answers := settles.answers
  conflict := nofun
  satisfied _ := ⟨satisfied, (settles.answers.steps rfl).calm.trans calm⟩
  branch := nofun
  standing stands := ⟨(settles.standing stands).1, fun _ => (settles.standing stands).2⟩

theorem Settles.branch {split : CaseSplit} (settles : Settles h e (next, true))
    (calm : e.isInfeasible = false) (splits : next.Splits split) :
    Checks h e (next, .branch split) where
  answers := settles.answers.weaken
  conflict := nofun
  satisfied := nofun
  branch other same := by
    obtain rfl := CheckResult.branch.inj same
    exact ⟨splits, (settles.answers.steps rfl).calm.trans calm⟩
  standing stands := ⟨(settles.standing stands).1, fun _ => (settles.standing stands).2⟩

theorem Settles.again {result : Engine × CheckResult} (settles : Settles h e (next, true))
    (checks : Checks h next result) : Checks h e result :=
  checks.after (settles.answers.steps rfl) fun standing => (settles.standing standing).1

/-- The part of a round that concerns monomials. -/
theorem checks_products {integral : Engine} {rounds cuts : Nat} (inv : e.Invariant h)
    (settles : Settles h e (integral, true)) (calm : e.isInfeasible = false)
    (feasible : integral.Reliable → integral.Feasible) (integers : integral.Integral)
    (again : ∀ (spent : NonlinearPass) (next : Engine), next.Invariant h →
      Checks h next (checkRounds rounds cuts spent next)) :
    Checks h e (if integral.monomials.isEmpty then (integral, .sat)
      else
        match integral.checkNonlinear pass with
        | (next, _, .consistent) => (next, .sat)
        | (next, _, .conflict) => (next, next.conflictResult)
        | (next, spent, .progress) => checkRounds rounds cuts spent next
        | (next, _, .giveUp) => (next, .unknown)) := by
  have integral_inv := (settles.answers.steps rfl).invariant inv
  split
  · rename_i none_there
    refine settles.sat calm fun reliable => ⟨feasible reliable, integers, ?_⟩
    rw [wrongMonomials, List.isEmpty_iff.1 none_there]
    rfl
  · have concludes := concludes_checkNonlinear integral_inv pass
    generalize integral.checkNonlinear pass = result at concludes ⊢
    obtain ⟨next, spent, outcome⟩ := result
    have later := settles.bind integral_inv concludes.answers
    cases outcome with
    | consistent =>
      refine Settles.sat later calm fun reliable => ?_
      have before := ((concludes.answers.steps rfl).reliable_iff integral_inv).1 reliable
      exact concludes.satisfied rfl (feasible before) integers
    | conflict => exact later.conflictResult
    | progress =>
      exact Settles.again later (again spent next ((later.answers.steps rfl).invariant inv))
    | giveUp => exact later.stopped rfl nofun

/-- Every round of a check. -/
theorem checks_checkRounds (rounds cuts : Nat) (inv : e.Invariant h) :
    Checks h e (checkRounds rounds cuts pass e) := by
  induction rounds generalizing cuts pass e with
  | zero => exact checks_stopped (.gaveUp .refl) id rfl nofun
  | succ rounds ih =>
    rw [checkRounds]
    have propagates := answers_propagate inv
    have stands := standing_propagate inv
    have succeeds := propagated_of_yes inv
    generalize e.propagate = result at propagates stands succeeds ⊢
    obtain ⟨propagated, ok⟩ := result
    cases ok with
    | false => exact checks_conflictResult propagates fun standing => (stands standing).1
    | true =>
      have settles : Settles h e (propagated, true) :=
        ⟨propagates, fun standing => ⟨(stands standing).1, (stands standing).2 rfl⟩⟩
      have ⟨steps, calm, normalized, feasible⟩ := succeeds rfl
      have propagated_inv := steps.invariant inv
      have answers := answers_checkIntegers propagated_inv normalized cuts
      have moved := moved_checkIntegers cuts propagated_inv normalized
      have splits : ∀ split, (propagated.checkIntegers cuts).2 = .branch split →
          (propagated.checkIntegers cuts).1.Splits split :=
        fun _ => splits_checkIntegers cuts propagated_inv normalized feasible
      simp only
      generalize propagated.checkIntegers cuts = result at answers moved splits ⊢
      obtain ⟨next, outcome⟩ := result
      have later := settles.bind propagated_inv answers
      cases outcome with
      | feasible =>
        obtain ⟨moved, none_left⟩ := moved rfl
        have integral := (integral_iff (moved.steps.normalized normalized)).1 none_left
        refine checks_products inv later calm (fun reliable => ?_) integral
          fun spent next next_inv => ih cuts next_inv
        exact moved.feasible (feasible ((moved.steps.reliable_iff propagated_inv).1 reliable))
      | conflict => exact later.conflictResult
      | cutAdded =>
        exact Settles.again later (ih (cuts + 1) ((later.answers.steps rfl).invariant inv))
      | branch split => exact Settles.branch later calm (splits split rfl)
      | giveUp => exact later.stopped rfl nofun

theorem checks_check (inv : e.Invariant h) : Checks h e e.check := by
  rw [check]
  generalize counted_eq : e.count _ = counted
  have becomes : e.Becomes e.toState counted := by
    rw [← counted_eq]
    exact ⟨rfl, rfl⟩
  refine (checks_checkRounds _ _ (becomes.toState ▸ inv)).after becomes.steps fun standing => ?_
  exact becomes.toState ▸ standing

end Engine

end ArithDecide
