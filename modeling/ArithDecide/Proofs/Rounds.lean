import ArithDecide.Proofs.Checking

/-!
# The rounds of a check

A check is some rounds and an end. Each round propagates without a conflict and then adds a cut or
tightens a bound by nonlinear reasoning; the end gives the answer. `Engine.rounds_check` takes a check
apart in this way, so that what propagation and integer and nonlinear reasoning keep is kept by checks,
and an answer tells what the last propagation left behind.
-/

namespace ArithDecide

/-- The answer of a check that ends with integer reasoning. -/
def IntegerOutcome.answer (next : Engine) : IntegerOutcome → CheckResult
  | .feasible => .sat
  | .conflict => next.conflictResult
  | .branch split => .branch split
  | .cutAdded => .unknown
  | .giveUp => .unknown

/-- The answer of a check that ends with nonlinear reasoning. -/
def NonlinearOutcome.answer (next : Engine) : NonlinearOutcome → CheckResult
  | .consistent => .sat
  | .conflict => next.conflictResult
  | .progress => .unknown
  | .giveUp => .unknown

namespace Engine

variable {e next last : Engine} {h : History}

/-- A round of a check after which another one follows. -/
inductive Round (e next : Engine) : Prop
  | cut (yes : e.propagate.2 = true) (cuts : Nat)
      (added : e.propagate.1.checkIntegers cuts = (next, .cutAdded))
  | refine (yes : e.propagate.2 = true) (cuts : Nat) (integral : Engine) (pass spent : NonlinearPass)
      (integers : e.propagate.1.checkIntegers cuts = (integral, .feasible))
      (progress : integral.checkNonlinear pass = (next, spent, .progress))

/-- Rounds one after another. -/
abbrev Rounds : Engine → Engine → Prop := Relation.ReflTransGen Round

/-- How a check ends. -/
inductive Finish (e : Engine) : Engine × CheckResult → Prop
  | spent : Finish e (e, .unknown)
  | failed (no : e.propagate.2 = false) : Finish e (e.propagate.1, e.propagate.1.conflictResult)
  | integers (yes : e.propagate.2 = true) (cuts : Nat) (next : Engine) (outcome : IntegerOutcome)
      (found : e.propagate.1.checkIntegers cuts = (next, outcome)) :
      Finish e (next, outcome.answer next)
  | products (yes : e.propagate.2 = true) (cuts : Nat) (integral next : Engine)
      (pass spent : NonlinearPass) (outcome : NonlinearOutcome)
      (found : e.propagate.1.checkIntegers cuts = (integral, .feasible))
      (concluded : integral.checkNonlinear pass = (next, spent, outcome)) :
      Finish e (next, outcome.answer next)

/-- A check is some rounds and an end. -/
theorem rounds_checkRounds (rounds cuts : Nat) (pass : NonlinearPass) (e : Engine) :
    ∃ mid, Rounds e mid ∧ Finish mid (checkRounds rounds cuts pass e) := by
  induction rounds generalizing cuts pass e with
  | zero => exact ⟨e, .refl, .spent⟩
  | succ rounds ih =>
    have again {next : Engine} (cuts : Nat) (pass : NonlinearPass) (round : Round e next) :
        ∃ mid, Rounds e mid ∧ Finish mid (checkRounds rounds cuts pass next) := by
      obtain ⟨mid, rest, finish⟩ := ih cuts pass next
      exact ⟨mid, .head round rest, finish⟩
    rw [checkRounds]
    split
    · rename_i failed done
      obtain ⟨rfl, no⟩ := Prod.mk.inj done
      exact ⟨e, .refl, .failed no⟩
    · rename_i propagated done
      obtain ⟨rfl, yes⟩ := Prod.mk.inj done
      split
      · rename_i next found
        exact ⟨e, .refl, .integers yes cuts next .conflict found⟩
      · rename_i next found
        exact again _ _ (.cut yes cuts found)
      · rename_i next split found
        exact ⟨e, .refl, .integers yes cuts next (.branch split) found⟩
      · rename_i next found
        exact ⟨e, .refl, .integers yes cuts next .giveUp found⟩
      · rename_i integral found
        split
        · exact ⟨e, .refl, .integers yes cuts integral .feasible found⟩
        · split
          · rename_i next spent concluded
            exact ⟨e, .refl, .products yes cuts integral next pass spent .consistent found concluded⟩
          · rename_i next spent concluded
            exact ⟨e, .refl, .products yes cuts integral next pass spent .conflict found concluded⟩
          · rename_i next spent progress
            exact again _ _ (.refine yes cuts integral pass spent found progress)
          · rename_i next spent concluded
            exact ⟨e, .refl, .products yes cuts integral next pass spent .giveUp found concluded⟩

/-- The engine when a check begins, which counts its checks. -/
def begun (e : Engine) : Engine := e.count fun s => { s with checks := s.checks + 1 }

theorem rounds_check (e : Engine) : ∃ mid, Rounds e.begun mid ∧ Finish mid e.check :=
  rounds_checkRounds _ _ _ _

/-! ## What rounds keep -/

/-- Integer reasoning follows a successful propagation. -/
theorem answers_integers {cuts : Nat} {outcome : IntegerOutcome} (inv : e.Invariant h)
    (yes : e.propagate.2 = true) (found : e.propagate.1.checkIntegers cuts = (next, outcome)) :
    Answers h e.propagate.1 (next, outcome.goesOn) := by
  have propagated := propagated_of_yes inv yes
  have answers := answers_checkIntegers (propagated.steps.invariant inv) propagated.normalized cuts
  rwa [found] at answers

/-- Nonlinear reasoning follows successful integer reasoning. -/
theorem answers_products {integral : Engine} {cuts : Nat} {pass spent : NonlinearPass}
    {outcome : NonlinearOutcome} (inv : e.Invariant h) (yes : e.propagate.2 = true)
    (found : e.propagate.1.checkIntegers cuts = (integral, .feasible))
    (concluded : integral.checkNonlinear pass = (next, spent, outcome)) :
    integral.Invariant h ∧ Answers h integral (next, outcome.goesOn) := by
  have propagated := propagated_of_yes inv yes
  have propagated_inv := propagated.steps.invariant inv
  have moves := moved_checkIntegers cuts propagated_inv propagated.normalized
  rw [found] at moves
  obtain ⟨moved, -⟩ := moves rfl
  have integral_inv := moved.steps.invariant propagated_inv
  have concludes := concludes_checkNonlinear integral_inv pass
  rw [concluded] at concludes
  exact ⟨integral_inv, concludes.answers⟩

/-- After the propagation of a round come steps. -/
theorem Round.propagated (round : Round e next) (inv : e.Invariant h) :
    e.propagate.2 = true ∧ Steps h e.propagate.1 next := by
  cases round with
  | cut yes cuts added => exact ⟨yes, (answers_integers inv yes added).steps rfl⟩
  | refine yes cuts integral pass spent integers progress =>
    have first := (answers_integers inv yes integers).steps rfl
    have second := (answers_products inv yes integers progress).2.steps rfl
    exact ⟨yes, first.trans second⟩

theorem Round.steps (round : Round e next) (inv : e.Invariant h) : Steps h e next :=
  have ⟨yes, after⟩ := round.propagated inv
  (propagated_of_yes inv yes).steps.trans after

theorem Rounds.steps (rounds : Rounds e next) (inv : e.Invariant h) : Steps h e next := by
  induction rounds with
  | refl => exact .refl
  | tail _ round ih => exact ih.trans (round.steps (ih.invariant inv))

theorem Rounds.steps_of_begun (rounds : Rounds e.begun next) (inv : e.Invariant h) :
    Steps h e next :=
  have counted : Steps h e e.begun := Becomes.steps ⟨rfl, rfl⟩
  counted.trans (rounds.steps (show e.begun.Invariant h from inv))

/-- If the propagation after some rounds succeeds, so did the first one, and it leads there. -/
theorem Rounds.propagated (rounds : Rounds e next) (inv : e.Invariant h)
    (yes : next.propagate.2 = true) :
    e.propagate.2 = true ∧ Steps h e.propagate.1 next.propagate.1 := by
  rcases rounds.cases_head with rfl | ⟨mid, round, rest⟩
  · exact ⟨yes, .refl⟩
  · obtain ⟨first, after⟩ := round.propagated inv
    have mid_inv := (round.steps inv).invariant inv
    have later : Steps h mid next := Rounds.steps rest mid_inv
    exact ⟨first, (after.trans later).trans (propagated_of_yes (later.invariant mid_inv) yes).steps⟩

end Engine

end ArithDecide
