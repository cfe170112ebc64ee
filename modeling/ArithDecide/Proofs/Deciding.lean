import ArithDecide.Proofs.Determining
import ArithDecide.Proofs.IntegralValues
import ArithDecide.Proofs.Looping

/-!
# Checks decide

A check that answers nothing leaves a monomial that disagrees with its factors: integer reasoning never
gives up, a refusal has recorded a conflict, and the loop of a check is not cut short. A check that asks
for a case split leaves a fractional integer variable, so that without integer variables and monomials a
model or a conflict is found. `Session.check_decides` says so of every session, and how short the loops
of a check are.
-/

namespace ArithDecide

namespace Engine

open State

variable {e : Engine} {h : History} {pass : NonlinearPass} {m : Monomial}

/-! ## Giving up -/

/-- Integer reasoning never gives up: some fractional variable can be split on. -/
theorem ne_giveUp_checkIntegers (e : Engine) (cuts : Nat) : (e.checkIntegers cuts).2 ≠ .giveUp := by
  intro gave_up
  rw [checkIntegers] at gave_up
  split at gave_up
  · cases gave_up
  · simp only at gave_up
    split at gave_up
    · cases gave_up
    · rename_i tested _
      split at gave_up
      · cases gave_up
      · rename_i some_left
        rw [List.isEmpty_iff] at some_left
        obtain ⟨split_on, selected⟩ := exists_split some_left
        rw [cutOrBranch] at gave_up
        split at gave_up
        · rw [askBranch] at gave_up
          generalize tested.patchIntegers.selectBranch = result at selected gave_up
          obtain ⟨next, asked⟩ := result
          obtain rfl : asked = some split_on := selected
          cases gave_up
        · split at gave_up <;> cases gave_up

/-- When completing the basis does not help, the monomials that disagreed still do. -/
theorem wrong_of_basisRound (inv : e.Invariant h) (wrong : e.wrongMonomials ≠ [])
    (gave_up : (e.basisRound pass).2.2 = .giveUp) : (e.basisRound pass).1.wrongMonomials ≠ [] := by
  rw [basisRound] at gave_up ⊢
  split at gave_up
  · rename_i allowed
    rw [if_pos allowed]
    have refines := refines_basisStep inv
    generalize e.basisStep = result at refines gave_up ⊢
    obtain ⟨next, outcome⟩ := result
    cases outcome with
    | conflict | tightened => cases gave_up
    | unchanged =>
      have same := refines.unchanged rfl
      have model : SameModel e next := by
        refine ⟨?_, State.value_congr ?_ ?_, ?_⟩ <;> rw [same]
      have kept : next.wrongMonomials = e.wrongMonomials := model.wrongMonomials (by rw [same])
      exact kept.trans_ne wrong
  · rename_i refused
    rw [if_neg refused]
    exact wrong

/-- The nonlinear reasoning gives up only where a product is wrong that it could neither repair nor
refute. -/
theorem wrong_of_repairOrComplete (inv : e.Invariant h)
    (gave_up : (e.repairOrComplete pass).2.2 = .giveUp) :
    (e.repairOrComplete pass).1.wrongMonomials ≠ [] := by
  have moved := (moved_repairMonomials inv).1
  have agrees : e.repairMonomials.2 = e.repairMonomials.1.wrongMonomials.isEmpty := rfl
  rw [repairOrComplete] at gave_up ⊢
  generalize e.repairMonomials = result at moved agrees gave_up ⊢
  obtain ⟨next, ok⟩ := result
  cases ok with
  | true => cases gave_up
  | false =>
    have wrong : next.wrongMonomials ≠ [] := by
      intro none_wrong
      rw [none_wrong] at agrees
      cases agrees
    exact wrong_of_basisRound (moved.steps.invariant inv) wrong gave_up

/-- Nonlinear reasoning gives up only if some monomial disagrees with its factors. -/
theorem wrong_of_checkNonlinear (inv : e.Invariant h)
    (gave_up : (e.checkNonlinear pass).2.2 = .giveUp) :
    (e.checkNonlinear pass).1.wrongMonomials ≠ [] := by
  rw [checkNonlinear] at gave_up ⊢
  split at gave_up
  · cases gave_up
  · rename_i wrong
    rw [if_neg wrong]
    split at gave_up
    · rename_i left
      rw [if_pos left]
      have refines := refines_intervalRound inv
      simp only at gave_up ⊢
      generalize e.intervalRound = result at refines gave_up ⊢
      obtain ⟨next, outcome⟩ := result
      cases outcome with
      | conflict | tightened => cases gave_up
      | unchanged =>
        have steps : Steps h e next := refines.answers.steps rfl
        exact wrong_of_repairOrComplete (steps.invariant inv) gave_up
    · rename_i none_left
      rw [if_neg none_left]
      exact wrong_of_repairOrComplete inv gave_up

theorem conflictResult_ne_unknown (infeasible : e.isInfeasible = true) :
    e.conflictResult ≠ .unknown := by
  obtain ⟨explanation, found⟩ := conflictResult_of_infeasible infeasible
  rw [found]
  nofun

/-! ## Answers -/

/-- A check that answers nothing leaves a monomial that disagrees with its factors. -/
theorem wrong_of_unknown (inv : e.Invariant h) (orderly : e.Orderly) (unknown : e.check.2 = .unknown) :
    Steps h e e.check.1 ∧ e.check.1.wrongMonomials ≠ [] := by
  obtain ⟨last, rounds, ends⟩ := exists_last_turn e
  have begun_inv : e.begun.Invariant h := inv
  have before := rounds.steps_of_begun inv
  have last_inv := before.invariant inv
  have last_orderly := rounds.orderly begun_inv (orderly_count orderly _)
  have turns_into := turnsInto_checkTurn last
  rw [ends] at turns_into
  generalize e.check = result at unknown turns_into ⊢
  cases turns_into with
  | failed no =>
    exact absurd unknown
      (conflictResult_ne_unknown ((answered_propagate last_orderly last_inv).conflict no))
  | integers yes next outcome found ends done =>
    cases outcome with
    | conflict =>
      exact absurd unknown
        (conflictResult_ne_unknown ((resolves_integers last_orderly last_inv found).conflict rfl))
    | giveUp => exact absurd (congrArg Prod.snd found) (ne_giveUp_checkIntegers _ _)
    | cutAdded => exact absurd rfl ends
    | feasible => exact absurd rfl done
    | branch split => cases unknown
  | linear yes integral found none_there => cases unknown
  | products yes integral next spent outcome found concluded ends =>
    cases outcome with
    | conflict =>
      have resolves := resolves_products last_orderly last_inv yes found concluded
      exact absurd unknown (conflictResult_ne_unknown (resolves.conflict rfl))
    | giveUp =>
      obtain ⟨integral_inv, -⟩ := integral_of_checkIntegers last_inv yes found
      have first := (answers_integers last_inv yes found).steps rfl
      have second := (answers_products last_inv yes found concluded).2.steps rfl
      have gave_up : (integral.checkNonlinear last.pass).2.2 = .giveUp := by rw [concluded]
      have wrong := wrong_of_checkNonlinear integral_inv gave_up
      rw [concluded] at wrong
      exact ⟨(before.trans (propagated_of_yes last_inv yes).steps).trans (first.trans second), wrong⟩
    | progress => exact absurd rfl ends
    | consistent => cases unknown

/-! ## Without integer variables -/

/-- Without integer variables nothing is fractional after a propagation, since it adds none. -/
theorem fractionalVars_propagate_of_reals (reals : ∀ v ∈ e.vars, e.isInt v = false) :
    e.propagate.1.fractionalVars = [] := by
  refine List.eq_nil_iff_forall_not_mem.2 fun v fractional => ?_
  have integer := isInt_of_isFractional fractional
  rw [isInt_congr (columns_propagate e)] at integer
  rw [reals v (List.mem_range.2 (isInt_lt integer))] at integer
  cases integer

/-- Without integer variables and monomials a check does not start over. -/
theorem rounds_eq_of_reals {next : Engine} (inv : e.Invariant h)
    (reals : ∀ v ∈ e.vars, e.isInt v = false) (none_there : e.monomials = [])
    (rounds : Rounds e next) : next = e := by
  have none_fractional := fractionalVars_propagate_of_reals reals
  have settled (cuts : Nat) : e.propagate.1.checkIntegers cuts = (e.propagate.1, .feasible) := by
    rw [checkIntegers, none_fractional, List.isEmpty_nil, if_pos rfl]
  rcases Relation.ReflTransGen.cases_head rounds with rfl | ⟨mid, round, -⟩
  · rfl
  · cases round with
    | cut yes cuts added =>
      rw [settled] at added
      cases added
    | refine yes cuts integral pass spent integers progress =>
      rw [settled] at integers
      obtain ⟨rfl, -⟩ := Prod.mk.inj integers
      have products : e.propagate.1.monomials = [] :=
        ((propagated_of_yes inv yes).steps.keeps inv).monomials.trans none_there
      rw [checkNonlinear, wrongMonomials, products, List.filter_nil, List.isEmpty_nil,
        if_pos rfl] at progress
      cases progress

/-- Then no case split is asked for, whatever the values are. -/
theorem ne_branch_of_reals (inv : e.Invariant h) (reals : ∀ v ∈ e.vars, e.isInt v = false)
    (none_there : e.monomials = []) (split : CaseSplit) : e.check.2 ≠ .branch split := by
  intro branch
  obtain ⟨mid, patched, rounds, yes, moved, selects⟩ := selects_check inv branch
  have begun_inv : e.begun.Invariant h := inv
  obtain rfl := rounds_eq_of_reals begun_inv reals none_there rounds
  have patched_inv := moved.steps.invariant
    ((propagated_of_yes begun_inv yes).steps.invariant begun_inv)
  have integer := isInt_of_isFractional (selected_selectBranch patched_inv selects).fractional
  rw [isInt_congr moved.only.columns, isInt_congr (columns_propagate _)] at integer
  have real := reals split.var (List.mem_range.2 (isInt_lt (s := e.toState) integer))
  cases real.symm.trans integer

/-- Wrong monomials are those whose value in the rational model is not the product of their factors. -/
theorem mem_wrongMonomials_iff : m ∈ e.wrongMonomials ↔
    m ∈ e.monomials ∧ e.modelValue m.var ≠ (m.factors.map e.modelValue).prod := by
  rw [wrongMonomials, List.mem_filter, monomialHolds, Bool.not_eq_true', decide_eq_false_iff_not,
    List.prod_eq_foldl]
  rfl

theorem exists_ne_product (wrong : e.wrongMonomials ≠ []) :
    ∃ m ∈ e.monomials, e.modelValue m.var ≠ (m.factors.map e.modelValue).prod := by
  obtain ⟨m, among⟩ := List.exists_mem_of_ne_nil _ wrong
  exact ⟨m, mem_wrongMonomials_iff.1 among⟩

end Engine

namespace Session

open Engine State

/-- Whatever calls were made, a check starts over at most as often as its cuts, its rounds of interval
reasoning and its completion of a basis allow, and every propagation in it repairs the assignment at
most twice and inspects rows at most once; all of these loops end by themselves. A check that answers
nothing leaves a monomial whose value in the rational model is not the product of its factors, one that
asks for a case split leaves a fractional integer variable, and without integer variables and monomials
it finds a model or a conflict. -/
theorem check_decides (options : Options) (calls : List Call) :
    let e := ((start options).run calls).engine
    (∃ turns, (∀ run result, LoopRuns checkTurn e.begins run result ↔ run = turns ∧ result = e.check) ∧
        turns.length ≤ e.options.maxGomoryCuts + e.options.nonlinearRounds + 2 ∧
        ∀ c ∈ turns, ∃ repairs,
          (∀ run result, c.engine.Propagates run result ↔
            run = repairs ∧ result = c.engine.propagate) ∧
          repairs.length ≤ 2 ∧ (repairs.filter comesToInspect).length ≤ 1) ∧
      (e.check.2 = .unknown → ∃ m ∈ e.check.1.monomials,
        e.check.1.modelValue m.var ≠ (m.factors.map e.check.1.modelValue).prod) ∧
      (∀ split, e.check.2 = .branch split → e.check.1.isFractional split.var = true) ∧
      ((∀ v ∈ e.vars, e.isInt v = false) → e.monomials = [] →
        e.check.2 = .sat ∨ ∃ explanation, e.check.2 = .unsat explanation) := by
  intro e
  have inv : e.Invariant _ := (ready_run options calls).invariant
  have orderly : e.Orderly := orderly_run options calls
  have unknown (answer : e.check.2 = .unknown) := wrong_of_unknown inv orderly answer
  obtain ⟨turns, run, short⟩ := loopRuns_check e
  refine ⟨⟨turns, fun _ _ => run.iff, short, fun c _ => propagates_propagate c.engine⟩,
    fun answer => exists_ne_product (unknown answer).2, fun split branch => ?_,
    fun reals none_there => ?_⟩
  · obtain ⟨patched, origin⟩ := splitIn_check inv branch
    rw [← mem_fractionalVars, origin.selected.sameModel.fractionalVars]
    exact origin.selected.fractional
  · cases answer : e.check.2 with
    | sat => exact .inl rfl
    | unsat explanation => exact .inr ⟨explanation, rfl⟩
    | branch split => exact absurd answer (ne_branch_of_reals inv reals none_there split)
    | unknown =>
      obtain ⟨steps, wrong⟩ := unknown answer
      obtain ⟨m, member, -⟩ := exists_ne_product wrong
      rw [(steps.keeps inv).monomials, none_there] at member
      cases member

/-- Two free variables whose product is at least one. -/
def unsettled : List Call :=
  [.mkVar .real .internal, .mkVar .real .internal, .mkMonomial [0, 1],
    .assertGiven 2 .lower (.ofRat 1)]

/-- Nothing is derived from products. -/
def comparesOnly : Options := { nonlinearRounds := 0, enableBasis := false }

/-- A variable that is at least one. -/
def bounded : List Call := [.mkVar .real .internal, .assertGiven 0 .lower (.ofRat 1)]

theorem run_unsettled :
    ((start comparesOnly).run unsettled).engine.check.2 = .unknown ∧
      (∀ v ∈ ((start {}).run bounded).engine.vars, ((start {}).run bounded).engine.isInt v = false) ∧
      ((start {}).run bounded).engine.monomials = [] := by
  have only : ((start {}).run bounded).engine.vars = [0] := by cbv
  refine ⟨by cbv, fun v member => ?_, by cbv⟩
  rw [only] at member
  obtain rfl := List.mem_singleton.1 member
  cbv

/-- The first check leaves the factors at zero and the product at one, the second one finds a model, and
the third one asks for a case split. -/
theorem check_decides_unsettled :
    (∃ m ∈ ((start comparesOnly).run unsettled).engine.check.1.monomials,
        ((start comparesOnly).run unsettled).engine.check.1.modelValue m.var ≠
          (m.factors.map ((start comparesOnly).run unsettled).engine.check.1.modelValue).prod) ∧
      (((start {}).run bounded).engine.check.2 = .sat ∨
        ∃ explanation, ((start {}).run bounded).engine.check.2 = .unsat explanation) ∧
      ((start splitsOnly).run squeezed).engine.check.1.isFractional 0 = true := by
  obtain ⟨unknown, reals, none_there⟩ := run_unsettled
  exact ⟨(check_decides comparesOnly unsettled).2.1 unknown,
    (check_decides {} bounded).2.2.2 reals none_there,
    (check_decides splitsOnly squeezed).2.2.1 squeezedSplit run_squeezed.2.1⟩

end Session

end ArithDecide
