import Mathlib
import ArithDecide.Proofs.Sessions

/-!
# What the answers of a session guarantee

The main results about answers, for every session: a value out of bounds is to be repaired, a model
satisfies what is in force, a refutation blames only what is in force and rightly, and a literal that is
handed out follows from its explanation. The literals need not hold in the model if an unconditional bound
points the wrong way: the infinitesimal is then put in for a bound that real values cannot reach.
-/

namespace ArithDecide

namespace Session

open Engine State

/-! ## Values between calls -/

/-- Whatever calls were made, as long as fewer than `2 ^ 32` scopes were entered, a value that is out of
bounds is to be repaired. -/
theorem watched_run (options : Options) (calls : List Call) :
    ((start options).run calls).engine.Numbered → ((start options).run calls).engine.Watched :=
  fun numbered =>
    have ready := ready_run options calls
    ready.invariant.watched numbered.reliable ready.awaited

/-- The sum of two variables is to be at least three in a scope: the check exchanges it with one of them.
Outside of the scope its row is as it is, and its value is what it was. -/
def summing : List Call :=
  [.mkVar .real .internal, .mkVar .real .internal, .mkLinear .real .internal [(0, 1), (1, 1)],
    .push, .assertGiven 2 .lower (.ofRat 3), .check, .pop 1, .assertGiven 2 .upper (.ofRat (-1))]

theorem watched_run_summing :
    ((start {}).run summing).engine.Numbered ∧ ((start {}).run summing).engine.Watched :=
  have numbered : ((start {}).run summing).engine.Numbered := .of_eq 1 (by cbv) (by decide)
  ⟨numbered, watched_run {} summing numbered⟩

/-! ## Models -/

/-- When a check answers "satisfiable" and fewer than `2 ^ 32` scopes were entered, the rational model
satisfies the rows, the active bounds at the chosen infinitesimal, the equalities, integrality and the
monomials; and if all unconditional bounds point the right way it makes every literal true that was
asserted. -/
theorem check_sat (options : Options) (calls : List Call) :
    let s := (start options).run calls
    let checked := s.engine.check.1
    s.engine.Numbered → s.engine.check.2 = .sat →
      checked.Models s.history checked.epsilon (assignmentOf checked.model) ∧
      ((∀ g ∈ checked.given, g.Coherent) → ∀ l, l ∈ s.history.asserted ∨ l ∈ s.history.rejected →
        checked.Confirms (assignmentOf checked.model) l) := by
  intro s checked numbered sat
  have ready := ready_run options calls
  have checks := checks_check ready.invariant
  obtain ⟨satisfied, calm⟩ := checks.satisfied sat
  have satisfied := satisfied ((checks.answers.reliable_iff ready.invariant).2 numbered.reliable)
  have drained := (checks.standing ready.standing).2 (.inl sat)
  exact ⟨models_model ready.check.ready satisfied calm, fun coherent =>
    (meets_model ready.check.ready satisfied calm drained coherent).literals⟩

/-- A variable that is at least zero without reason, and asserted to be above zero. -/
def positive : List Call :=
  [.mkVar .real .internal, .assertGiven 0 .lower 0, .mkAtom 0 .upper 0, .assertLiteral ⟨0, true⟩]

theorem run_positive :
    ((start {}).run positive).engine.scopesEntered = 0 ∧
      ((start {}).run positive).engine.check.2 = .sat ∧
      ((start {}).run positive).engine.check.1.given = [⟨0, .lower, 0⟩] ∧
      ((start {}).run positive).history.asserted = [⟨0, true⟩] := by
  refine ⟨by cbv, by cbv, by cbv, by cbv⟩

theorem check_sat_positive :
    ((start {}).run positive).engine.check.1.Models ((start {}).run positive).history
        ((start {}).run positive).engine.check.1.epsilon
        (assignmentOf ((start {}).run positive).engine.check.1.model) ∧
      ((start {}).run positive).engine.check.1.Confirms
        (assignmentOf ((start {}).run positive).engine.check.1.model) ⟨0, true⟩ := by
  obtain ⟨none_entered, sat, given, asserted⟩ := run_positive
  have ⟨models, confirms⟩ := check_sat {} positive (.of_none none_entered) sat
  refine ⟨models, confirms (fun g member => ?_) _ (.inl ?_)⟩
  · rw [given] at member
    obtain rfl := List.mem_singleton.1 member
    exact le_refl (0 : Rat)
  · rw [asserted]
    exact List.mem_singleton.2 rfl

/-- A variable that is at least `5 - 10ε` without reason, and asserted to be at least three. -/
def slipping : List Call :=
  [.mkVar .real .internal, .assertGiven 0 .lower ⟨5, -10⟩, .mkAtom 0 .lower 3,
    .assertLiteral ⟨0, false⟩]

theorem run_slipping :
    ((start {}).run slipping).engine.check.2 = .sat ∧
      ((start {}).run slipping).engine.check.1.model = [-5] ∧
      ((start {}).run slipping).engine.check.1.atoms.get? 0 =
        some ⟨0, .lower, 3, some true, true⟩ ∧
      ((start {}).run slipping).history.asserted = [⟨0, false⟩] := by
  refine ⟨by cbv, by cbv, by cbv, by cbv⟩

/-- A model may break an asserted literal: the bound of the literal is weaker than the unconditional
one, which the infinitesimal that is chosen, one, brings below it. -/
theorem check_sat_breaks_literal :
    ((start {}).run slipping).engine.check.2 = .sat ∧
      ⟨0, false⟩ ∈ ((start {}).run slipping).history.asserted ∧
      ¬((start {}).run slipping).engine.check.1.Confirms
        (assignmentOf ((start {}).run slipping).engine.check.1.model) ⟨0, false⟩ := by
  obtain ⟨sat, model, atom, asserted⟩ := run_slipping
  refine ⟨sat, by rw [asserted]; exact List.mem_singleton.2 rfl, ?_⟩
  rintro ⟨atom', found, means⟩
  obtain rfl := Option.some.inj (atom.symm.trans found)
  rw [model] at means
  have above : (3 : Rat) ≤ -5 := means
  norm_num at above

/-! ## Refutations -/

/-- When a check or a propagation finds a conflict and fewer than `2 ^ 32` scopes were entered, its
explanation names what is in force, or a literal and its negation, and no solution makes all of it
true. -/
theorem check_unsat (options : Options) (calls : List Call) (x : Explanation) :
    let s := (start options).run calls
    s.engine.Numbered →
      (s.engine.check.2 = .unsat x → s.engine.RefutedBy s.history x) ∧
      (s.engine.propagate.2 = false → s.engine.propagate.1.conflict = some x →
        s.engine.RefutedBy s.history x) := by
  intro s numbered
  have inv := (ready_run options calls).invariant
  have reliable := numbered.reliable
  refine ⟨fun unsat => ?_, fun _ found => (answers_propagate inv).refutedBy inv reliable found⟩
  have checks := checks_check inv
  exact checks.answers.refutedBy inv reliable (checks.conflict x unsat)

/-- Two variables that are asserted to be equal and the first of them to be at least two, with a sum
that is asserted to be at most three. The bounds cross in the row of the sum, which joins the reasons of
the bounds of all three variables. -/
def overflowing : List Call :=
  [.mkVar .real .internal, .mkVar .real .internal, .mkLinear .real .internal [(0, 1), (1, 1)],
    .mkAtom 0 .lower 2, .mkAtom 2 .upper 3, .assertVarEq 0 1, .assertLiteral ⟨0, false⟩,
    .assertLiteral ⟨1, false⟩]

/-- Both literals and the equality. -/
def allOfOverflowing : Explanation := ⟨[⟨0, false⟩, ⟨1, false⟩], [⟨0, 1⟩]⟩

theorem run_overflowing :
    ((start {}).run overflowing).engine.scopesEntered = 0 ∧
      ((start {}).run overflowing).engine.check.2 = .unsat allOfOverflowing ∧
      ((start {}).run overflowing).engine.propagate.2 = false ∧
      ((start {}).run overflowing).engine.propagate.1.conflict = some allOfOverflowing := by
  refine ⟨by cbv, by cbv, by cbv, by cbv⟩

theorem check_unsat_overflowing :
    (((start {}).run overflowing).engine.check.2 = .unsat allOfOverflowing ∧
      ((start {}).run overflowing).engine.RefutedBy ((start {}).run overflowing).history
        allOfOverflowing) ∧
    (((start {}).run overflowing).engine.propagate.2 = false ∧
      ((start {}).run overflowing).engine.RefutedBy ((start {}).run overflowing).history
        allOfOverflowing) :=
  have ⟨none_entered, unsat, fails, conflict⟩ := run_overflowing
  have refuted := check_unsat {} overflowing allOfOverflowing (.of_none none_entered)
  ⟨⟨unsat, refuted.1 unsat⟩, ⟨fails, refuted.2 fails conflict⟩⟩

/-! ## Consequences -/

/-- A literal that is handed out while fewer than `2 ^ 32` scopes were entered is about a known atom, its
explanation names what is in force, and every solution that makes the explanation true makes the literal
true. -/
theorem nextPropagation_follows (options : Options) (calls : List Call) (p : Propagation) :
    let s := (start options).run calls
    s.engine.Numbered → s.engine.nextPropagation.2 = some p →
      (∀ l ∈ p.explanation.literals, l ∈ s.history.asserted) ∧
      (∀ q ∈ p.explanation.equalities, q ∈ s.history.equated) ∧
      ∀ α, s.engine.Solves α → (∀ l ∈ p.explanation.literals, s.engine.LiteralHolds α l) →
        (∀ q ∈ p.explanation.equalities, q.Holds α) → s.engine.Confirms α p.literal := by
  intro s numbered handed_out
  have ready := ready_run options calls
  have announces := ready.announced p (List.mem_of_mem_head? handed_out)
  obtain ⟨atom, known⟩ := announces.known
  exact ⟨fun l member =>
      (ready.invariant.founded.registered.asserted l).1 (announces.literals l member),
    announces.equalities, fun α solves literals equalities =>
      ⟨atom, known, announces.entails numbered.reliable α solves literals equalities atom known⟩⟩

/-- A variable that is asserted to be at least three, which makes it at least two. -/
def implying : List Call :=
  [.mkVar .real .internal, .mkAtom 0 .lower 3, .mkAtom 0 .lower 2, .assertLiteral ⟨0, false⟩,
    .propagate]

theorem run_implying :
    ((start {}).run implying).engine.scopesEntered = 0 ∧
      ((start {}).run implying).engine.nextPropagation.2 =
        some ⟨⟨1, false⟩, ⟨[⟨0, false⟩], []⟩⟩ ∧
      ((start {}).run implying).engine.atoms.get? 0 =
        some ⟨0, .lower, 3, some true, false⟩ ∧
      ((start {}).run implying).engine.tableau.rows = #[] ∧
      ((start {}).run implying).engine.monomials = [] ∧
      ((start {}).run implying).engine.given = [] := by
  refine ⟨by cbv, by cbv, by cbv, by cbv, by cbv, by cbv⟩

theorem solves_implying : ((start {}).run implying).engine.Solves fun _ => 3 := by
  obtain ⟨-, -, -, rows, monomials, given⟩ := run_implying
  refine ⟨fun v integer => ?_, fun r row found => ?_, by simp [monomials], by simp [given]⟩
  · exact ⟨3, rfl⟩
  · rw [Tableau.get?, rows] at found
    cases found

theorem nextPropagation_follows_implying :
    (∀ l ∈ [⟨0, false⟩], l ∈ ((start {}).run implying).history.asserted) ∧
      ((start {}).run implying).engine.Confirms (fun _ => 3) ⟨1, false⟩ := by
  obtain ⟨none_entered, handed_out, known, -⟩ := run_implying
  have ⟨asserted, _, follows⟩ := nextPropagation_follows {} implying _ (.of_none none_entered)
    handed_out
  refine ⟨asserted, follows _ solves_implying (fun l member atom found => ?_) nofun⟩
  obtain rfl := List.mem_singleton.1 member
  obtain rfl := Option.some.inj (known.symm.trans found)
  exact le_refl (3 : Rat)

end Session

end ArithDecide
