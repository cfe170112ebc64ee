import ArithDecide.Proofs.OrderlySessions

/-!
# Integer variables that head no row are integral

Between two calls every integer variable that heads no row has an integral value as long as no number of
a scope came again, and its bounds are integers. The same holds when a check comes to patch values, so
that patching is about bases only: no variable is ever moved to make itself integral. And a check that
comes to ask for a case split finds a variable to split on.
-/

namespace ArithDecide

namespace Engine

open State

variable {e next tested asked relaxed : Engine} {h : History} {v : Var}

/-! ## Where a check reasons about integers -/

/-- Some round of a check propagates without a conflict, which leads to the second engine. -/
def RelaxesTo (e relaxed : Engine) : Prop :=
  ∃ mid, Rounds e.begun mid ∧ mid.propagate = (relaxed, true)

/-- A check comes to patch the values of the second engine: some are fractional and no row failed its
divisibility test. -/
def PatchesAt (e tested : Engine) : Prop :=
  ∃ relaxed, e.RelaxesTo relaxed ∧ relaxed.fractionalVars ≠ [] ∧
    forEach testDivisibility relaxed.tableau.rowIds
      { relaxed with integerChecks := relaxed.integerChecks + 1 } = (tested, true)

/-- A check comes to look for a variable to split on: patching left some fractional value. -/
def BranchesAt (e asked : Engine) : Prop :=
  ∃ tested, e.PatchesAt tested ∧ tested.patchIntegers = asked ∧ asked.fractionalVars ≠ []

theorem RelaxesTo.orderly (relaxes : e.RelaxesTo relaxed) (inv : e.Invariant h)
    (orderly : e.Orderly) : relaxed.Orderly := by
  obtain ⟨mid, rounds, propagates⟩ := relaxes
  have mid_inv := (rounds.steps_of_begun inv).invariant inv
  have mid_orderly := rounds.orderly (show e.begun.Invariant h from inv) (orderly_count orderly _)
  have answered := answered_propagate mid_orderly mid_inv
  rw [propagates] at answered
  exact answered.orderly

theorem RelaxesTo.reliable (relaxes : e.RelaxesTo relaxed) (inv : e.Invariant h)
    (reliable : e.Reliable) : relaxed.Reliable := by
  obtain ⟨mid, rounds, propagates⟩ := relaxes
  have before := rounds.steps_of_begun inv
  have propagated := propagated_of_yes (before.invariant inv) (congrArg Prod.snd propagates)
  rw [propagates] at propagated
  exact (Steps.reliable_iff (before.trans propagated.steps) inv).2 reliable

/-- The tests change nothing about the state. -/
theorem PatchesAt.exists_relaxed (patches : e.PatchesAt tested) :
    ∃ relaxed, e.RelaxesTo relaxed ∧ tested.toState = relaxed.toState := by
  obtain ⟨relaxed, relaxes, -, passed⟩ := patches
  have same := toState_forEach { relaxed with integerChecks := relaxed.integerChecks + 1 }
    relaxed.tableau.rowIds fun next r yes => toState_testDivisibility (e := next) (r := r) yes
  rw [passed] at same
  exact ⟨relaxed, relaxes, same rfl⟩

/-! ## Integral values -/

theorem State.Orderly.exists_int {s : State} (orderly : s.Orderly) (reliable : s.Reliable)
    (integer : s.isInt v = true) (free : s.kind v = .nonBase) : ∃ n : Int, s.value v = .ofRat n := by
  rw [State.value_of_kind (by simp [free])]
  exact InfRat.isInteger_iff.1 (orderly.integral reliable v integer free)

/-- Only variables that head a row are fractional. -/
theorem fractional_eq_nil (orderly : e.Orderly) (reliable : e.Reliable) :
    (e.fractionalVars.filter fun v => e.kind v = .nonBase) = [] := by
  refine List.filter_eq_nil_iff.2 fun v fractional free => ?_
  obtain ⟨integer, broken⟩ := Bool.and_eq_true_iff.1 (List.mem_filter.1 fractional).2
  obtain ⟨n, same⟩ := orderly.exists_int reliable integer (of_decide_eq_true free)
  rw [InfRat.isInteger_iff.2 ⟨n, same⟩] at broken
  cases broken

theorem exists_split (some_left : e.fractionalVars ≠ []) :
    ∃ split, e.selectBranch.2 = some split := by
  have offered : e.candidates ≠ [] := fun none_left => some_left (List.map_eq_nil_iff.1 none_left)
  have chosen : e.chosenCandidate? ≠ none := fun none_chosen =>
    offered (List.head?_eq_none_iff.1 (Option.or_eq_none_iff.1 none_chosen).2)
  obtain ⟨c, chosen⟩ := Option.ne_none_iff_exists'.1 chosen
  rw [selectBranch, chosen]
  exact ⟨_, rfl⟩

end Engine

namespace Session

open Engine State

/-- Whatever calls were made, an integer variable that heads no row has an integral value without
infinitesimal part as long as fewer than `2 ^ 32` scopes were entered, and when a check comes to patch
values then, only bases are fractional, so that no variable is moved to make itself integral. All active
bounds of integer variables are integral, and when a check comes to look for a variable to split on, it
finds one. -/
theorem integers_integral (options : Options) (calls : List Call) :
    let e := ((start options).run calls).engine
    (e.Numbered →
        (∀ v, e.isInt v = true → e.kind v = .nonBase → ∃ n : Int, e.value v = .ofRat n) ∧
          ∀ tested, e.PatchesAt tested →
            (tested.fractionalVars.filter fun v => tested.kind v = .nonBase) = []) ∧
      (∀ v kind bound, e.isInt v = true → e.bounds.value v kind = some bound →
        ∃ n : Int, bound = .ofRat n) ∧
      ∀ asked, e.BranchesAt asked → ∃ split, asked.selectBranch.2 = some split := by
  intro e
  have inv : e.Invariant _ := (ready_run options calls).invariant
  have orderly : e.Orderly := orderly_run options calls
  refine ⟨fun numbered => ⟨fun v => orderly.exists_int numbered.reliable, fun tested patches => ?_⟩,
    inv.founded.rounded, ?_⟩
  · obtain ⟨relaxed, relaxes, same⟩ := patches.exists_relaxed
    refine fractional_eq_nil ?_ ?_
    · rw [same]
      exact relaxes.orderly inv orderly
    · rw [same]
      exact relaxes.reliable inv numbered.reliable
  · rintro asked ⟨tested, -, rfl, some_left⟩
    exact exists_split some_left

/-- An integer that is at least one half, and its half. -/
def halved : List Call :=
  [.mkVar .int .internal, .mkLinear .int .internal [(0, 1 / 2)], .assertGiven 0 .lower (.ofRat (1 / 2))]

theorem check_halved :
    let e := ((start { propagateBounds := false }).run halved).engine
    let relaxed := e.begun.propagate.1
    let counted := { relaxed with integerChecks := relaxed.integerChecks + 1 }
    e.scopesEntered = 0 ∧ e.isInt 0 = true ∧ e.kind 0 = .nonBase ∧ e.begun.propagate.2 = true ∧
      relaxed.fractionalVars = [1] ∧
      (forEach testDivisibility relaxed.tableau.rowIds counted).2 = true ∧
      (forEach testDivisibility relaxed.tableau.rowIds counted).1.patchIntegers.fractionalVars = [1] := by
  refine ⟨by cbv, by cbv, by cbv, by cbv, by cbv, by cbv, by cbv⟩

/-- The bound was rounded, so the integer is one, and only its half is fractional. -/
theorem integers_integral_halved :
    let e := ((start { propagateBounds := false }).run halved).engine
    (∃ n : Int, e.value 0 = .ofRat n) ∧
      (∃ tested, e.PatchesAt tested ∧
        (tested.fractionalVars.filter fun v => tested.kind v = .nonBase) = []) ∧
      ∃ asked, e.BranchesAt asked ∧ ∃ split, asked.selectBranch.2 = some split := by
  intro e
  obtain ⟨none_entered, integer, free, yes, fractional, passed, left⟩ := check_halved
  obtain ⟨integral, -, splits⟩ := integers_integral { propagateBounds := false } halved
  obtain ⟨values, patched⟩ := integral (State.Numbered.of_none none_entered)
  have patches : e.PatchesAt _ :=
    ⟨_, ⟨_, .refl, Prod.ext rfl yes⟩, fractional.trans_ne (List.cons_ne_nil _ _), Prod.ext rfl passed⟩
  have branches : e.BranchesAt _ := ⟨_, patches, rfl, left.trans_ne (List.cons_ne_nil _ _)⟩
  exact ⟨values 0 integer free, ⟨_, patches, patched _ patches⟩, _, branches, splits _ branches⟩

end Session

end ArithDecide
