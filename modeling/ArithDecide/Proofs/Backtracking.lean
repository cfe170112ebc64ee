import Mathlib
import ArithDecide.Proofs.Sessions

/-!
# Leaving a scope restores what was there

Whatever calls are made in a scope, as long as they leave only scopes that were entered in it, leaving
it leads back to the state in which it was entered, except for the queues: what waited to be handed out
or inspected is forgotten, and every base is to be repaired. Values are among what is restored as long as
no number of a scope came again; what may happen then is `Session.recurring_scope_keeps_value`. The marks
of atoms are restored, so a literal that waited when the scope was entered is lost: it is marked as handed
out, but never was.
-/

namespace ArithDecide

namespace Engine.State

/-- The states answer alike, but for what waits in queues. -/
structure Agrees (s t : State) : Prop where
  numVars : t.numVars = s.numVars
  sort : ∀ v, t.sort v = s.sort v
  term : ∀ v, t.term v = s.term v
  kind : ∀ v, t.kind v = s.kind v
  value : ∀ v, t.value v = s.value v
  numRows : t.numRows = s.numRows
  rows : ∀ r, t.tableau.get? r = s.tableau.get? r
  bounds : ∀ v kind, t.bounds.get v kind = s.bounds.get v kind
  justification : ∀ d, t.dependencies.linearize d = s.dependencies.linearize d
  atoms : ∀ a, t.atoms.get? a = s.atoms.get? a
  asserted : t.atoms.asserted = s.atoms.asserted
  queued : t.atoms.queued = s.atoms.queued
  monomials : t.monomials = s.monomials
  given : t.given = s.given
  status : t.status = s.status
  conflict : t.conflict = s.conflict
  reported : t.reported = s.reported
  depth : t.depth = s.depth

/-- Settling a state and counting scopes changes queues only. -/
theorem agrees_settle (s : State) (count : Nat) :
    s.Agrees { s.settle with scopesEntered := count } where
  numVars := rfl
  sort _ := rfl
  term _ := rfl
  kind _ := rfl
  value := congrFun (State.value_congr rfl rfl)
  numRows := rfl
  rows _ := rfl
  bounds _ _ := rfl
  justification _ := rfl
  atoms _ := rfl
  asserted := rfl
  queued := rfl
  monomials := rfl
  given := rfl
  status := rfl
  conflict := rfl
  reported := rfl
  depth := rfl

end Engine.State

namespace Session

open Engine State

/-- Entering a scope, making calls that leave exactly the scopes they entered, and leaving the scope
again returns to where it was entered. -/
theorem left_of_balanced (options : Options) (calls inner : List Call)
    (balanced : (((start options).run calls).perform .push).Balanced inner) :
    ((((start options).run calls).perform .push).run inner).engine.depth =
        ((start options).run calls).engine.depth + 1 ∧
      ((start options).run calls).engine.toState.Returns
        (((((start options).run calls).perform .push).run inner).perform (.pop 1)).engine.toState ∧
      (((((start options).run calls).perform .push).run inner).perform (.pop 1)).history =
        ((start options).run calls).history := by
  have ready := ready_run options calls
  generalize (start options).run calls = s at ready balanced ⊢
  have within : Within (s.perform .push).engine s.history (s.perform .push).engine
      (s.perform .push).history := .here ready.push.unchanged
  have within := within_run inner within balanced.above
  have level := balanced.level
  generalize (s.perform .push).run inner = last at within level ⊢
  obtain ⟨-, evolves, tail⟩ | deeper := within.depth
  · have depth : last.engine.depth = s.engine.depth + 1 := level
    have popped : last.perform (.pop 1) = ⟨last.engine.popScope, last.history.drop 1⟩ := by
      have enough : ¬last.engine.depth < 1 := by omega
      rw [perform, Engine.pop, if_neg enough]
      rfl
    rw [popped]
    exact ⟨depth, ready.returns evolves.inside, (List.drop_one (l := last.history)).trans tail⟩
  · exact absurd deeper (by rw [level]; exact Nat.lt_irrefl _)

/-- Entering a scope, making any calls that leave exactly the scopes they entered, and leaving the scope
again leads back to where the scope was entered, as far as anything but the queues can tell, as long as
fewer than `2 ^ 32` scopes were entered. -/
theorem pop_restores (options : Options) (calls inner : List Call) :
    let s := (start options).run calls
    (s.perform .push).Balanced inner →
      let left := ((s.perform .push).run inner).perform (.pop 1)
      left.engine.Numbered → s.engine.Agrees left.engine.toState ∧ left.history = s.history := by
  intro s balanced left numbered
  obtain ⟨-, returns, history⟩ := left_of_balanced options calls inner balanced
  exact ⟨returns.same numbered ▸ agrees_settle s.engine.toState _, history⟩

/-- An integer variable with a literal that is asserted, and its negation. -/
def outside : List Call :=
  [.mkVar .int .internal, .mkAtom 0 .lower 3, .assertLiteral ⟨0, false⟩]

/-- Calls in a scope: a scope within it, which is left again, a row, a failing call and a check. -/
def within : List Call :=
  [.push, .mkLinear .int .internal [(0, 2)], .pop 1, .mkAtom 7 .lower 0, .assertLiteral ⟨0, true⟩,
    .check]

/-- Whether calls leave exactly those scopes that they entered can be seen from the depths in between. -/
theorem balanced_of_depths {s : Session} {calls : List Call} (depth : Nat)
    (depths : s.engine.depth = depth ∧ (s.run calls).engine.depth = depth ∧
      (calls.inits.all fun done => decide (depth ≤ (s.run done).engine.depth)) = true) :
    s.Balanced calls := by
  obtain ⟨rfl, level, above⟩ := depths
  refine ⟨fun done is_prefix => ?_, level⟩
  exact of_decide_eq_true (List.all_eq_true.1 above done ((List.mem_inits done calls).2 is_prefix))

theorem balanced_within : (((start {}).run outside).perform .push).Balanced within :=
  balanced_of_depths 1 ⟨by cbv, by cbv, by cbv⟩

theorem numbered_within :
    (((((start {}).run outside).perform .push).run within).perform (.pop 1)).engine.Numbered :=
  .of_eq 2 (by cbv) (by decide)

theorem pop_restores_outside :
    ((start {}).run outside).engine.Agrees
      (((((start {}).run outside).perform .push).run within).perform (.pop 1)).engine.toState :=
  (pop_restores {} outside within balanced_within numbered_within).1

/-! ## When numbers of scopes come again -/

end Session

namespace Engine

open State

variable {e : Engine} {h : History}

theorem trace_of_disabled {tag : TraceTag} (disabled : e.tracer.isEnabled tag = false)
    (message : Unit → String) : e.trace tag message = e := by
  rw [trace, Tracer.trace, disabled]
  rfl

/-- The engine, had that many scopes been entered so far. -/
def counting (e : Engine) (entered : Nat) : Engine := { e with scopesEntered := entered }

/-- Nothing waits in the engine, all its names are those of variables, and scopes are not traced. -/
structure Resting (e : Engine) : Prop where
  settled : e.toState.settle = e.toState
  names : e.names.truncate e.numVars = e.names
  untraced : e.tracer.isEnabled .backtrack = false

theorem Resting.counting (resting : e.Resting) (entered : Nat) : (e.counting entered).Resting where
  settled := congrArg (fun s : State => { s with scopesEntered := entered }) resting.settled
  names := resting.names
  untraced := resting.untraced

/-- Leaving a scope at once that was entered in a resting engine only counts it. -/
theorem Resting.popScope_push (resting : e.Resting) (ready : e.Ready h)
    (few : e.scopesEntered + 1 < 2 ^ 32) : e.push.popScope = e.counting (e.scopesEntered + 1) := by
  have same := (ready.returns (.refl e.push)).same few
  have stamps : e.valueStamps.take e.numVars = e.valueStamps := by
    rw [← (ready.stamped (Nat.lt_of_succ_lt few)).sized, Array.take_eq_extract, Array.extract_size]
  have pushed : e.push = { e with toState := e.enter } :=
    trace_of_disabled (e := { e with toState := e.enter }) resting.untraced _
  have popped : ({ e with toState := e.enter } : Engine).popScope =
      { e with
        toState := e.enter.leave
        valueStamps := e.valueStamps.take e.numVars
        names := e.names.truncate e.numVars } :=
    trace_of_disabled (e := { e with
      toState := e.enter.leave
      valueStamps := e.valueStamps.take e.numVars
      names := e.names.truncate e.numVars }) resting.untraced _
  rw [pushed, popped, resting.settled] at same
  rw [pushed, popped, stamps, resting.names]
  exact congrArg (fun s : State => { e with toState := s }) same

end Engine

namespace Session

open Engine State

variable {s : Session}

/-- Calls that enter and leave a number of scopes, in each of which nothing is called. -/
def idle (count : Nat) : List Call := (List.replicate count [Call.push, .pop 1]).flatten

theorem idle_succ (count : Nat) : idle (count + 1) = idle count ++ [.push, .pop 1] := by
  rw [idle, List.replicate_succ', List.flatten_append, List.flatten_singleton, idle]

theorem run_push_pop (resting : s.engine.Resting) (ready : s.engine.Ready s.history)
    (few : s.engine.scopesEntered + 1 < 2 ^ 32) :
    s.run [.push, .pop 1] = ⟨s.engine.counting (s.engine.scopesEntered + 1), s.history⟩ := by
  have enough : ¬s.engine.push.depth < 1 := Nat.not_lt.2 (Nat.succ_le_succ (Nat.zero_le _))
  rw [← resting.popScope_push ready few]
  show (s.perform .push).attempt (s.engine.push.pop 1) id (fun _ h => h.drop 1) = _
  rw [Engine.pop, if_neg enough]
  rfl

/-- Scopes in which nothing is called leave no trace in a resting session but their number. -/
theorem run_idle (options : Options) (calls : List Call) (count : Nat) :
    let s := (start options).run calls
    s.engine.Resting → s.engine.scopesEntered + count < 2 ^ 32 →
      s.run (idle count) = ⟨s.engine.counting (s.engine.scopesEntered + count), s.history⟩ := by
  intro s resting few
  induction count with
  | zero => rfl
  | succ count ih =>
    have ready := ready_run options (calls ++ idle count)
    rw [run_append, ih (Nat.lt_of_succ_lt few)] at ready
    rw [idle_succ, run_append, ih (Nat.lt_of_succ_lt few)]
    exact run_push_pop (resting.counting _) ready few

/-- No bounds are derived from rows. -/
def assertedOnly : Options := { propagateBounds := false }

/-- Two variables, the first of which is at most five, and their sum; a scope was left since. -/
def limited : List Call :=
  [.mkVar .real .internal, .mkVar .real .internal, .mkLinear .real .internal [(0, 1), (1, 1)],
    .assertGiven 0 .upper (.ofRat 5), .check, .push, .pop 1]

/-- Calls in a scope, in which the sum becomes at least three and the second variable at most minus ten.
The check exchanges the sum with the first variable. -/
def exchanging : List Call :=
  [.push, .assertGiven 2 .lower (.ofRat 3), .check, .assertGiven 1 .upper (.ofRat (-10)), .pop 1]

theorem run_limited :
    ((start assertedOnly).run limited).engine.Resting ∧
      ((start assertedOnly).run limited).engine.scopesEntered = 1 :=
  ⟨⟨by cbv, by cbv, by cbv⟩, by cbv⟩

/-- With more scopes values need not be restored. The scope that is entered after `2 ^ 32 - 1` others has
the number zero, which is the stamp of variables whose value was never saved, so it saves none. When it is
left, the first variable keeps a value beyond its bound, and no check repairs a variable without a row. -/
theorem recurring_scope_keeps_value :
    let s := ((start assertedOnly).run limited).run (idle (2 ^ 32 - 2))
    let left := s.run exchanging
    s.engine.value 0 = 0 ∧ left.engine.value 0 = .ofRat 13 ∧
      left.engine.bounds.upperValue 0 = some (.ofRat 5) ∧ left.engine.check.2 = .sat ∧
      left.engine.check.1.model = [13, -10, 3] := by
  obtain ⟨resting, once⟩ := run_limited
  have ran := run_idle assertedOnly limited (2 ^ 32 - 2) resting (by rw [once]; decide)
  rw [once] at ran
  intro s left
  rw [show left = run _ exchanging from congrArg (run · exchanging) ran, show s = _ from ran]
  refine ⟨by cbv, by cbv, by cbv, by cbv, by cbv⟩

/-! ## What is forgotten -/

/-- When a scope is left nothing waits any more, not even what waited when it was entered, while the
atoms keep the marks they had then; an atom that is marked is not handed out again. -/
theorem pop_forgets_waiting (options : Options) (calls inner : List Call) :
    let s := (start options).run calls
    (s.perform .push).Balanced inner →
      let left := ((s.perform .push).run inner).perform (.pop 1)
      (left.engine.propagations = [] ∧ left.engine.equalities = [] ∧ left.engine.touched = []) ∧
        ∀ a atom, s.engine.atoms.get? a = some atom → atom.propagated = true →
          left.engine.propagateAtom a = left.engine := by
  intro s balanced left
  obtain ⟨-, returns, -⟩ := left_of_balanced options calls inner balanced
  have same := returns.resembles.same
  refine ⟨by rw [same]; exact ⟨rfl, rfl, rfl⟩, fun a atom found marked => ?_⟩
  have kept : left.engine.atoms.get? a = some atom := by
    rw [same]
    exact found
  rw [propagateAtom, kept, Option.filter_some, if_neg (by simp [marked])]

/-- A variable that is at least one without reason, which makes it at least zero. -/
def waiting : List Call :=
  [.mkVar .real .internal, .mkAtom 0 .lower 0, .assertGiven 0 .lower (.ofRat 1)]

theorem balanced_nothing : (((start {}).run waiting).perform .push).Balanced [] where
  above done is_prefix := by
    rw [List.prefix_nil.1 is_prefix]
    exact Nat.le_refl _
  level := rfl

theorem run_waiting :
    ((start {}).run waiting).engine.nextPropagation.2 = some ⟨⟨0, false⟩, ⟨[], []⟩⟩ ∧
      ((start {}).run waiting).engine.atoms.get? 0 = some ⟨0, .lower, 0, none, true⟩ := by
  refine ⟨by cbv, by cbv⟩

theorem pop_forgets_waiting_literal :
    ((start {}).run waiting).engine.nextPropagation.2 = some ⟨⟨0, false⟩, ⟨[], []⟩⟩ ∧
      (((((start {}).run waiting).perform .push).run []).perform
        (.pop 1)).engine.propagations = [] ∧
      (((((start {}).run waiting).perform .push).run []).perform (.pop 1)).engine.propagateAtom 0 =
        (((((start {}).run waiting).perform .push).run []).perform (.pop 1)).engine :=
  have ⟨handed_out, marked⟩ := run_waiting
  have ⟨⟨none_wait, _, _⟩, stuck⟩ := pop_forgets_waiting {} waiting [] balanced_nothing
  ⟨handed_out, none_wait, stuck 0 _ marked rfl⟩

end Session

end ArithDecide
