import ArithDecide.Proofs.AlikeChecks
import ArithDecide.Proofs.Rounds
import ArithDecide.Proofs.Stability

/-!
# Propagation and checks are short loops

Propagation repairs the assignment and inspects rows in turn, and a check starts over after every cut
and every tightened bound. Here both are loops that nothing limits, with `Engine.repairTurn` and
`Engine.checkTurn` as their bodies, and `LoopRuns` says how often a body runs and what its loop answers.
The loops end by themselves and answer what `Engine.propagate` and `Engine.check` do: inspecting rows
touches none, and whenever a check starts over it has spent a cut, a round of interval reasoning or its
only completion of a basis.
-/

namespace ArithDecide

/-! ## Loops without a limit -/

section Loops

variable {α β : Type} {body : α → α ⊕ β} {a : α} {b b' : β} {turns turns' : List α}

/-- The states in which the body of a loop runs, and what the loop answers. The body answers or leads
to the state in which it runs next. -/
inductive LoopRuns (body : α → α ⊕ β) : α → List α → β → Prop
  | stop {a : α} {b : β} (answers : body a = .inr b) : LoopRuns body a [a] b
  | again {a next : α} {turns : List α} {b : β} (goes_on : body a = .inl next)
      (rest : LoopRuns body next turns b) : LoopRuns body a (a :: turns) b

theorem LoopRuns.unique (run : LoopRuns body a turns b) (other : LoopRuns body a turns' b') :
    turns' = turns ∧ b' = b := by
  induction run generalizing turns' b' with
  | stop answers =>
    cases other with
    | stop answers' => exact ⟨rfl, Sum.inr.inj (answers'.symm.trans answers)⟩
    | again goes_on rest => cases goes_on.symm.trans answers
  | again goes_on rest ih =>
    cases other with
    | stop answers => cases goes_on.symm.trans answers
    | again goes_on' rest' =>
      obtain rfl := Sum.inl.inj (goes_on'.symm.trans goes_on)
      obtain ⟨rfl, rfl⟩ := ih rest'
      exact ⟨rfl, rfl⟩

theorem LoopRuns.iff (run : LoopRuns body a turns b) :
    LoopRuns body a turns' b' ↔ turns' = turns ∧ b' = b :=
  ⟨run.unique, fun ⟨same, same'⟩ => same ▸ same' ▸ run⟩

/-- A loop ends if its body makes something smaller whenever it leads on. -/
theorem exists_loopRuns (measure : α → Nat)
    (smaller : ∀ a next, body a = .inl next → measure next < measure a) (a : α) :
    ∃ turns b, LoopRuns body a turns b ∧ turns.length ≤ measure a + 1 := by
  induction size_eq : measure a using Nat.strong_induction_on generalizing a with
  | _ size ih =>
    cases turn : body a with
    | inr b => exact ⟨[a], b, .stop turn, Nat.le_add_left 1 size⟩
    | inl next =>
      have less := smaller a next turn
      obtain ⟨turns, b, run, short⟩ := ih (measure next) (size_eq ▸ less) next rfl
      exact ⟨a :: turns, b, .again turn run, by rw [List.length_cons]; omega⟩

/-- What the body keeps holds in the state in which it answers. -/
theorem LoopRuns.last {P : α → Prop} (run : LoopRuns body a turns b) (start : P a)
    (keeps : ∀ a next, P a → body a = .inl next → P next) : ∃ last, P last ∧ body last = .inr b := by
  induction run with
  | stop answers => exact ⟨_, start, answers⟩
  | again goes_on rest ih => exact ih (keeps _ _ start goes_on)

end Loops

/-- How often nonlinear reasoning may still lead on in a check that may have so many rounds of interval
reasoning. -/
def NonlinearPass.remaining (limit : Nat) (pass : NonlinearPass) : Nat :=
  limit - pass.rounds + if pass.basisDone then 0 else 1

namespace Engine

open State

variable {e next : Engine} {h : History} {pass : NonlinearPass}

/-! ## Propagation -/

/-- Whether the touched rows are inspected once the assignment is repaired. -/
def inspects (e : Engine) : Bool := e.options.propagateBounds && !e.touched.isEmpty

/-- Repairs the assignment and inspects the touched rows. Another turn follows when that moved the
assignment. -/
def repairTurn (e : Engine) : Engine ⊕ (Engine × Bool) :=
  match e.makeFeasible with
  | (failed, false) => .inr (failed, false)
  | (repaired, true) =>
    if repaired.inspects then
      match repaired.propagateImpliedBounds with
      | (failed, false) => .inr (failed, false)
      | (next, true) => if next.toPatch.isEmpty then .inr (next, true) else .inl next
    else .inr (repaired, true)

/-- Whether a turn comes to inspect rows. -/
def comesToInspect (e : Engine) : Bool := e.makeFeasible.2 && e.makeFeasible.1.inspects

/-- Propagation that repairs and inspects without a limit: in which engines a turn of that begins, and
what is answered. -/
def Propagates (e : Engine) (turns : List Engine) (result : Engine × Bool) : Prop :=
  if e.isInfeasible then turns = [] ∧ result = (e, false)
  else
    let normal := e.normalizePendingRows
    match installQueued normal.atoms.queued.length normal with
    | (failed, false) => turns = [] ∧ result = (failed, false)
    | (installed, true) => ∃ next ok, LoopRuns repairTurn installed turns (next, ok) ∧
        result = if ok then (next.propagateFixedEqualities, true) else (next, false)

theorem touched_makeFeasible (e : Engine) : e.makeFeasible.1.touched = e.touched := touched_repair _ _

/-- Nothing is inspected when no row is touched. -/
theorem comesToInspect_eq_false (idle : e.touched = []) : e.comesToInspect = false := by
  rw [comesToInspect, inspects, touched_makeFeasible, idle]
  simp

theorem repairTurn_of_idle (idle : e.touched = []) : e.repairTurn = .inr e.makeFeasible := by
  have none_touched := (touched_makeFeasible e).trans idle
  rw [repairTurn]
  generalize e.makeFeasible = result at none_touched ⊢
  obtain ⟨repaired, ok⟩ := result
  cases ok with
  | false => rfl
  | true => simp [inspects, show repaired.touched = [] from none_touched]

/-- No row is touched when another turn follows: the inspection touched none. -/
theorem touched_of_repairTurn (goes_on : e.repairTurn = .inl next) : next.touched = [] := by
  rw [repairTurn] at goes_on
  split at goes_on
  · cases goes_on
  · rename_i repaired _
    split at goes_on
    · have cleared := touched_propagateImpliedBounds (e := repaired)
      split at goes_on
      · cases goes_on
      · rename_i found
        rw [found] at cleared
        split at goes_on
        · cases goes_on
        · exact Sum.inl.inj goes_on ▸ cleared rfl
    · cases goes_on

/-- The first repair, and the inspection that follows it. -/
def repairThenInspect (e : Engine) : Engine × Bool :=
  match e.makeFeasible with
  | (repaired, true) => repaired.propagateRows
  | (failed, false) => (failed, false)

/-- It comes to the first turn, and a repair if another turn follows. -/
theorem repairThenInspect_eq (e : Engine) :
    e.repairThenInspect =
      match e.repairTurn with
      | .inl next => next.makeFeasible
      | .inr result => result := by
  rw [repairThenInspect, repairTurn]
  generalize e.makeFeasible = result
  obtain ⟨repaired, ok⟩ := result
  cases ok with
  | false => rfl
  | true =>
    have idle : (!repaired.options.propagateBounds || repaired.touched.isEmpty) =
        !repaired.inspects := by
      rw [inspects, Bool.not_and, Bool.not_not]
    simp only [propagateRows, idle]
    cases repaired.inspects with
    | false => rfl
    | true =>
      simp only [Bool.not_true, Bool.false_eq_true, if_false, if_true]
      generalize repaired.propagateImpliedBounds = inspected
      obtain ⟨next, ok⟩ := inspected
      cases ok with
      | false => rfl
      | true => cases settled : next.toPatch.isEmpty <;> simp [settled]

/-- The loop ends with the second turn at the latest, and inspects rows in the first turn only. -/
theorem loopRuns_repairTurn (e : Engine) :
    ∃ turns, LoopRuns repairTurn e turns e.repairThenInspect ∧
      turns.length ≤ 2 ∧ (turns.filter comesToInspect).length ≤ 1 := by
  rw [repairThenInspect_eq]
  cases turn : e.repairTurn with
  | inr result => exact ⟨[e], .stop turn, by simp, List.length_filter_le _ _⟩
  | inl next =>
    have idle := touched_of_repairTurn turn
    refine ⟨[e, next], .again turn (.stop (repairTurn_of_idle idle)), Nat.le_refl 2, ?_⟩
    rw [List.filter_cons, List.filter_singleton, comesToInspect_eq_false idle]
    split <;> simp

/-- Propagation repairs the assignment at most twice and inspects rows at most once. -/
theorem propagates_propagate (e : Engine) :
    ∃ turns, (∀ run result, e.Propagates run result ↔ run = turns ∧ result = e.propagate) ∧
      turns.length ≤ 2 ∧ (turns.filter comesToInspect).length ≤ 1 := by
  simp only [Propagates, propagate]
  split
  · exact ⟨[], fun _ _ => Iff.rfl, by simp, by simp⟩
  · generalize installQueued _ _ = result
    obtain ⟨installed, ok⟩ := result
    cases ok with
    | false => exact ⟨[], fun _ _ => Iff.rfl, by simp, by simp⟩
    | true =>
      obtain ⟨turns, runs, short, once⟩ := loopRuns_repairTurn installed
      refine ⟨turns, fun run result => ?_, short, once⟩
      simp only [runs.iff, repairThenInspect]
      generalize installed.makeFeasible = repair
      obtain ⟨repaired, ok⟩ := repair
      cases ok with
      | false => simp
      | true =>
        simp only
        generalize repaired.propagateRows = derive
        obtain ⟨derived, ok⟩ := derive
        cases ok <;> simp

/-! ## Checks -/

/-- Where a check stands when it starts over: the cuts that it added, and what it spent on nonlinear
reasoning. -/
structure Checkpoint where
  engine : Engine
  cuts : Nat
  pass : NonlinearPass

/-- Where a check begins. -/
def begins (e : Engine) : Checkpoint := ⟨e.begun, 0, .start⟩

/-- Propagates and reasons about integers and products. Another turn follows a cut and bounds that
nonlinear reasoning tightened. -/
def checkTurn (c : Checkpoint) : Checkpoint ⊕ (Engine × CheckResult) :=
  match c.engine.propagate with
  | (failed, false) => .inr (failed, failed.conflictResult)
  | (propagated, true) =>
    match propagated.checkIntegers c.cuts with
    | (next, .conflict) => .inr (next, next.conflictResult)
    | (next, .cutAdded) => .inl ⟨next, c.cuts + 1, c.pass⟩
    | (next, .branch split) => .inr (next, .branch split)
    | (next, .giveUp) => .inr (next, .unknown)
    | (integral, .feasible) =>
      if integral.monomials.isEmpty then .inr (integral, .sat)
      else
        match integral.checkNonlinear c.pass with
        | (next, _, .consistent) => .inr (next, .sat)
        | (next, _, .conflict) => .inr (next, next.conflictResult)
        | (next, spent, .progress) => .inl ⟨next, c.cuts, spent⟩
        | (next, _, .giveUp) => .inr (next, .unknown)

/-- A round of a check is a turn, and the rounds after it if that goes on. -/
theorem checkRounds_succ (rounds cuts : Nat) (pass : NonlinearPass) (e : Engine) :
    checkRounds (rounds + 1) cuts pass e =
      match checkTurn ⟨e, cuts, pass⟩ with
      | .inl c => checkRounds rounds c.cuts c.pass c.engine
      | .inr result => result := by
  rw [checkRounds, checkTurn]
  generalize e.propagate = result
  obtain ⟨propagated, ok⟩ := result
  cases ok with
  | false => rfl
  | true =>
    simp only
    generalize propagated.checkIntegers cuts = result
    obtain ⟨integral, outcome⟩ := result
    cases outcome with
    | feasible =>
      simp only
      split
      · rfl
      · generalize integral.checkNonlinear pass = result
        obtain ⟨next, spent, outcome⟩ := result
        cases outcome <;> rfl
    | _ => rfl

/-- A check that may take that many rounds answers what its loop does. -/
theorem checkRounds_of_loopRuns {c : Checkpoint} {turns : List Checkpoint}
    {result : Engine × CheckResult} (run : LoopRuns checkTurn c turns result) {rounds : Nat}
    (enough : turns.length ≤ rounds) :
    checkRounds rounds c.cuts c.pass c.engine = result := by
  induction run generalizing rounds with
  | stop answers =>
    obtain ⟨left, rfl⟩ := Nat.exists_eq_add_of_le' enough
    rw [List.length_singleton, checkRounds_succ, answers]
  | again goes_on rest ih =>
    rw [List.length_cons] at enough
    obtain ⟨left, rfl⟩ := Nat.exists_eq_add_of_le' (Nat.le_of_add_left_le enough)
    rw [checkRounds_succ, goes_on]
    exact ih (Nat.le_of_succ_le_succ enough)

/-- What a turn comes to. -/
inductive TurnsInto (c : Checkpoint) : Checkpoint ⊕ (Engine × CheckResult) → Prop
  | failed (no : c.engine.propagate.2 = false) :
      TurnsInto c (.inr (c.engine.propagate.1, c.engine.propagate.1.conflictResult))
  | cut (yes : c.engine.propagate.2 = true) (next : Engine)
      (added : c.engine.propagate.1.checkIntegers c.cuts = (next, .cutAdded)) :
      TurnsInto c (.inl ⟨next, c.cuts + 1, c.pass⟩)
  | integers (yes : c.engine.propagate.2 = true) (next : Engine) (outcome : IntegerOutcome)
      (found : c.engine.propagate.1.checkIntegers c.cuts = (next, outcome))
      (ends : outcome ≠ .cutAdded) (done : outcome ≠ .feasible) :
      TurnsInto c (.inr (next, outcome.answer next))
  | linear (yes : c.engine.propagate.2 = true) (integral : Engine)
      (found : c.engine.propagate.1.checkIntegers c.cuts = (integral, .feasible))
      (none_there : integral.monomials = []) : TurnsInto c (.inr (integral, .sat))
  | refined (yes : c.engine.propagate.2 = true) (integral next : Engine) (spent : NonlinearPass)
      (found : c.engine.propagate.1.checkIntegers c.cuts = (integral, .feasible))
      (progress : integral.checkNonlinear c.pass = (next, spent, .progress)) :
      TurnsInto c (.inl ⟨next, c.cuts, spent⟩)
  | products (yes : c.engine.propagate.2 = true) (integral next : Engine) (spent : NonlinearPass)
      (outcome : NonlinearOutcome)
      (found : c.engine.propagate.1.checkIntegers c.cuts = (integral, .feasible))
      (concluded : integral.checkNonlinear c.pass = (next, spent, outcome))
      (ends : outcome ≠ .progress) : TurnsInto c (.inr (next, outcome.answer next))

/-- Each way through a turn, with what it found on the way. -/
theorem turnsInto_checkTurn (c : Checkpoint) : TurnsInto c (checkTurn c) := by
  rw [checkTurn]
  split
  · rename_i failed done
    obtain ⟨rfl, no⟩ := Prod.mk.inj done
    exact .failed no
  · rename_i propagated done
    obtain ⟨rfl, yes⟩ := Prod.mk.inj done
    split
    · rename_i next found
      exact .integers yes next .conflict found nofun nofun
    · rename_i next found
      exact .cut yes next found
    · rename_i next split found
      exact .integers yes next (.branch split) found nofun nofun
    · rename_i next found
      exact .integers yes next .giveUp found nofun nofun
    · rename_i integral found
      split
      · rename_i none_there
        exact .linear yes integral found (List.isEmpty_iff.1 none_there)
      · split
        · rename_i next spent concluded
          exact .products yes integral next spent .consistent found concluded nofun
        · rename_i next spent concluded
          exact .products yes integral next spent .conflict found concluded nofun
        · rename_i next spent progress
          exact .refined yes integral next spent found progress
        · rename_i next spent concluded
          exact .products yes integral next spent .giveUp found concluded nofun

/-! ### What a check may spend -/

/-- Completing the basis is the last resort, and it is done once. -/
theorem remaining_basisRound (limit : Nat) (progress : (e.basisRound pass).2.2 = .progress) :
    (e.basisRound pass).2.1.remaining limit < pass.remaining limit := by
  rw [basisRound] at progress ⊢
  split at progress
  · rename_i allowed
    rw [if_pos allowed]
    obtain ⟨-, undone⟩ := Bool.and_eq_true_iff.1 allowed
    rw [Bool.not_eq_true'] at undone
    have spends : ({ pass with basisDone := true } : NonlinearPass).remaining limit <
        pass.remaining limit := by
      rw [NonlinearPass.remaining, NonlinearPass.remaining, undone]
      simp
    generalize e.basisStep = result
    obtain ⟨next, outcome⟩ := result
    cases outcome <;> exact spends
  · cases progress

theorem remaining_repairOrComplete (limit : Nat)
    (progress : (e.repairOrComplete pass).2.2 = .progress) :
    (e.repairOrComplete pass).2.1.remaining limit < pass.remaining limit := by
  rw [repairOrComplete] at progress ⊢
  generalize e.repairMonomials = result at progress ⊢
  obtain ⟨next, ok⟩ := result
  cases ok with
  | true => cases progress
  | false => exact remaining_basisRound limit progress

/-- A round of interval reasoning is spent before bounds are tightened, or the completion is. -/
theorem remaining_checkNonlinear (progress : (e.checkNonlinear pass).2.2 = .progress) :
    (e.checkNonlinear pass).2.1.remaining e.options.nonlinearRounds <
      pass.remaining e.options.nonlinearRounds := by
  rw [checkNonlinear] at progress ⊢
  split at progress
  · cases progress
  · rename_i wrong
    rw [if_neg wrong]
    split at progress
    · rename_i left
      rw [if_pos left]
      have spends : ({ pass with rounds := pass.rounds + 1 } : NonlinearPass).remaining
          e.options.nonlinearRounds < pass.remaining e.options.nonlinearRounds := by
        rw [NonlinearPass.remaining, NonlinearPass.remaining]
        simp only
        omega
      simp only at progress ⊢
      generalize e.intervalRound = result at progress ⊢
      obtain ⟨next, outcome⟩ := result
      cases outcome with
      | conflict => cases progress
      | tightened => exact spends
      | unchanged => exact (remaining_repairOrComplete _ progress).trans spends
    · rename_i none_left
      rw [if_neg none_left]
      exact remaining_repairOrComplete _ progress

theorem options_propagate (e : Engine) : e.propagate.1.options = e.options :=
  (Alike.refl e).propagate.engine.first

theorem options_checkIntegers (e : Engine) (cuts : Nat) :
    (e.checkIntegers cuts).1.options = e.options :=
  ((Alike.refl e).checkIntegers cuts).engine.first

theorem options_checkNonlinear (e : Engine) (pass : NonlinearPass) :
    (e.checkNonlinear pass).1.options = e.options :=
  ((Alike.refl e).checkNonlinear pass).engine.first

/-- Cuts are added up to the configured number. -/
theorem cuts_lt {cuts : Nat} (added : (e.checkIntegers cuts).2 = .cutAdded) :
    cuts < e.options.maxGomoryCuts := by
  rw [checkIntegers] at added
  split at added
  · cases added
  · simp only at added
    generalize counted_eq : ({ e with integerChecks := e.integerChecks + 1 } : Engine) = counted
      at added
    have same : counted.options = e.options := counted_eq ▸ rfl
    have tests := Alike.forEach (fun later r => later.testDivisibility r) e.tableau.rowIds
      (Alike.refl counted)
    split at added
    · cases added
    · rename_i tested found
      rw [found] at tests
      have kept : tested.patchIntegers.options = e.options :=
        tests.engine.patchIntegers.first.trans same
      split at added
      · cases added
      · rw [cutOrBranch] at added
        split at added
        · rw [askBranch] at added
          split at added <;> cases added
        · rename_i allowed
          obtain ⟨may, -⟩ := Option.ite_none_right_eq_some.1 allowed
          obtain ⟨-, below⟩ := Bool.and_eq_true_iff.1 may
          rw [← kept]
          exact of_decide_eq_true below

/-- How often a check may still start over. -/
def Checkpoint.remaining (c : Checkpoint) : Nat :=
  c.engine.options.maxGomoryCuts - c.cuts + c.pass.remaining c.engine.options.nonlinearRounds

/-- Whenever a check starts over it has spent something. -/
theorem remaining_lt (c next : Checkpoint) (goes_on : checkTurn c = .inl next) :
    next.remaining < c.remaining := by
  have turns_into := turnsInto_checkTurn c
  rw [goes_on] at turns_into
  cases turns_into with
  | cut yes next added =>
    have kept := options_checkIntegers c.engine.propagate.1 c.cuts
    have asked : (c.engine.propagate.1.checkIntegers c.cuts).2 = .cutAdded := by rw [added]
    have below := cuts_lt asked
    rw [added, options_propagate] at kept
    rw [options_propagate] at below
    rw [Checkpoint.remaining, Checkpoint.remaining, kept]
    simp only
    omega
  | refined yes integral next spent found progress =>
    have integers := options_checkIntegers c.engine.propagate.1 c.cuts
    have kept := options_checkNonlinear integral c.pass
    have asked : (integral.checkNonlinear c.pass).2.2 = .progress := by rw [progress]
    have spends := remaining_checkNonlinear asked
    rw [found, options_propagate] at integers
    rw [progress, integers] at kept spends
    rw [Checkpoint.remaining, Checkpoint.remaining, kept]
    exact Nat.add_lt_add_left spends _

/-- A check ends by itself, within as many turns as the cuts and rounds that it may spend, and two. -/
theorem loopRuns_check (e : Engine) :
    ∃ turns, LoopRuns checkTurn e.begins turns e.check ∧ turns.length ≤ roundLimit e.options := by
  obtain ⟨turns, result, run, short⟩ := exists_loopRuns Checkpoint.remaining remaining_lt e.begins
  have enough : turns.length ≤ roundLimit e.options := short
  have answer : e.check = result := checkRounds_of_loopRuns run enough
  exact ⟨turns, answer ▸ run, enough⟩

/-- The last turn of a check begins after some rounds of it. -/
theorem exists_last_turn (e : Engine) :
    ∃ last : Checkpoint, Rounds e.begun last.engine ∧ checkTurn last = .inr e.check := by
  obtain ⟨turns, run, -⟩ := loopRuns_check e
  refine run.last (P := fun c => Rounds e.begun c.engine) .refl fun c next rounds goes_on => ?_
  have turns_into := turnsInto_checkTurn c
  rw [goes_on] at turns_into
  cases turns_into with
  | cut yes next added => exact rounds.tail (.cut yes _ added)
  | refined yes integral next spent found progress =>
    exact rounds.tail (.refine yes _ integral _ _ found progress)

end Engine

end ArithDecide
