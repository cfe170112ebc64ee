import ArithDecide.Proofs.Strides
import ArithDecide.Proofs.Unfolding

/-!
# How a single call changes what the engine shows

A call that is not a search poses constraints, reasons, serves its caller, enters a scope or leaves
some. `Session.turn_perform` says so, with what each kind of call does: posing and reasoning are strides
that stay inside the open scope, and only reasoning reports equalities; serving only takes from the
queues; leaving scopes leads to where they were entered, which `Engine.leave_iterate_of_inside` and
`Engine.leave_iterate_push` tell from inside.
-/

namespace ArithDecide

namespace Engine

variable {e next : Engine} {h k : History} {reporting : Bool}

/-! ## Posing constraints -/

theorem strides_addRow {base : Var} {entries : List (Var × Rat)} {result : Engine × RowId}
    (ok : e.addRow base entries = .ok result) : Strides reporting e result.1 := by
  obtain ⟨-, rfl⟩ := of_addRow ok
  exact strides_of_facade (facade_placeRow _ _ _)

theorem strides_mkLinear {sort : NumSort} {term : Term} {entries : List (Var × Rat)}
    {result : Engine × Var} (ok : e.mkLinear sort term entries = .ok result) :
    Strides reporting e result.1 := by
  rw [mkLinear] at ok
  obtain ⟨-, -, ok⟩ := bind_eq_ok ok
  obtain ⟨withRow, added, ok⟩ := bind_eq_ok ok
  obtain rfl := Except.ok.inj ok
  have placed : Strides reporting (e.mkVar sort term).1 withRow.1 := strides_addRow added
  exact (strides_mkVar e sort term).trans placed

theorem strides_mkMonomial {factors : List Var} {result : Engine × Var}
    (ok : e.mkMonomial factors = .ok result) : Strides reporting e result.1 := by
  obtain ⟨next, v⟩ := result
  obtain ⟨-, -, ⟨rfl, -⟩ | placed⟩ := of_mkMonomial ok
  · exact .refl
  · refine strides_of_result placed ?_
    generalize factors.mergeSort (fun v w => v ≤ w) = sorted
    exact (strides_mkVar e (e.jointSort sorted) .internal).trans (strides_of_facade rfl)

theorem strides_mkAtom {v : Var} {kind : BoundKind} {threshold : Rat} {result : Engine × Literal}
    (ok : e.mkAtom v kind threshold = .ok result) : Strides reporting e result.1 := by
  rw [mkAtom] at ok
  obtain ⟨-, -, ok⟩ := bind_eq_ok ok
  obtain rfl := Except.ok.inj ok
  exact strides_internAtom e v kind threshold

theorem strides_assertLiteral {l : Literal} (ok : e.assertLiteral l = .ok next) :
    Strides reporting e next := by
  rw [assertLiteral] at ok
  split at ok
  · cases ok
  · rename_i known
    split at ok
    · rename_i atoms queued
      obtain rfl := Except.ok.inj ok
      exact .single (.assign l atoms (Option.isSome_iff_ne_none.2 (by simpa using known)) queued rfl)
    · obtain rfl := Except.ok.inj ok
      exact .refl
    · obtain rfl := Except.ok.inj ok
      exact strides_of_facade (facade_setConflict _ _)

theorem strides_assertEq {v : Var} {value : Rat} {result : Engine × Literal × Literal}
    (ok : e.assertEq v value = .ok result) : Strides reporting e result.1 := by
  rw [assertEq] at ok
  obtain ⟨⟨first, lower⟩, made_lower, ok⟩ := bind_eq_ok ok
  obtain ⟨⟨second, upper⟩, made_upper, ok⟩ := bind_eq_ok ok
  obtain ⟨third, asserted_lower, ok⟩ := bind_eq_ok ok
  obtain ⟨fourth, asserted_upper, ok⟩ := bind_eq_ok ok
  obtain rfl := Except.ok.inj ok
  exact ((strides_mkAtom made_lower).trans (strides_mkAtom made_upper)).trans
    ((strides_assertLiteral asserted_lower).trans (strides_assertLiteral asserted_upper))

theorem strides_assertGiven {v : Var} {kind : BoundKind} {value : InfRat}
    (ok : e.assertGiven v kind value = .ok next) : Strides reporting e next := by
  rw [assertGiven] at ok
  obtain ⟨-, -, ok⟩ := bind_eq_ok ok
  obtain rfl := Except.ok.inj ok
  exact (strides_installBound _ _ _ _ _ _).after rfl

theorem strides_assertVarEq {left right : Var} (ok : e.assertVarEq left right = .ok next) :
    Strides reporting e next := by
  obtain ⟨-, ⟨-, rfl⟩ | ⟨-, withRow, added, rfl⟩⟩ := of_assertVarEq ok
  · exact .refl
  · refine ((strides_mkVar e _ .internal).trans (strides_addRow added)).trans ?_
    rw [fixDifference]
    exact (strides_forEach (fun e kind => strides_installBound e _ kind _ _ _) _ _).after rfl

/-! ## Scopes seen from inside -/

theorem leave_settle {s : State} (is_open : s.scopes ≠ []) : s.settle.leave = s.leave := by
  obtain ⟨scope, outer, is_open⟩ := List.exists_cons_of_ne_nil is_open
  rw [State.leave_of_open is_open, State.leave_of_open (s := s.settle) is_open]
  rfl

/-- Whatever is done inside a scope, leaving it and those around it leads to the same states, apart from
values. -/
theorem leave_iterate_of_inside (inside : e.Inside next) {n : Nat} (lt : n < e.depth) :
    (State.leave^[n + 1] e.toState).Resembles (State.leave^[n + 1] next.toState) := by
  obtain ⟨scope, outer, is_open⟩ := List.exists_cons_of_ne_nil
    (List.ne_nil_of_length_pos (Nat.zero_lt_of_lt lt))
  rw [Function.iterate_succ_apply, Function.iterate_succ_apply, State.leave_of_open is_open,
    State.leave_of_open (inside.scopes.trans is_open)]
  exact (inside.leaves scope outer is_open).leave_iterate n

theorem values_leave_iterate_of_inside (inside : e.Inside next) (numbered : next.Numbered)
    (stamped : e.Stamped) {n : Nat} (lt : n < e.depth) :
    (State.leave^[n + 1] next.toState).values = (State.leave^[n + 1] e.toState).values := by
  obtain ⟨scope, outer, is_open⟩ := List.exists_cons_of_ne_nil
    (List.ne_nil_of_length_pos (Nat.zero_lt_of_lt lt))
  rw [Function.iterate_succ_apply, Function.iterate_succ_apply, State.leave_of_open is_open,
    State.leave_of_open (inside.scopes.trans is_open)]
  exact (inside.leaves scope outer is_open).values_leave_iterate
    (inside.values numbered stamped scope outer is_open) n

/-- The first scope to leave after entering one is that one. -/
theorem leave_iterate_push (formed : e.Formed) {n : Nat} (le : n ≤ e.depth) :
    (if n = 0 then e.toState.settle else State.leave^[n] e.toState).Resembles
      (State.leave^[n + 1] e.push.toState) := by
  have entered : e.toState.settle.Resembles e.push.toState.leave := by
    rw [push_toState, State.leave_enter formed]
    exact ⟨rfl, rfl⟩
  rw [Function.iterate_succ_apply]
  cases n with
  | zero => exact entered
  | succ n =>
    rw [if_neg (Nat.succ_ne_zero n), Function.iterate_succ_apply, Function.iterate_succ_apply,
      ← leave_settle (List.ne_nil_of_length_pos (Nat.zero_lt_of_lt le))]
    exact entered.leave.leave_iterate n

theorem values_leave_iterate_push (formed : e.Formed) {n : Nat} (le : n ≤ e.depth) :
    (State.leave^[n + 1] e.push.toState).values = (State.leave^[n] e.toState).values := by
  have left := State.leave_enter formed
  rw [Function.iterate_succ_apply, push_toState, left]
  cases n with
  | zero => rfl
  | succ n =>
    rw [Function.iterate_succ_apply, Function.iterate_succ_apply,
      ← leave_settle (List.ne_nil_of_length_pos (Nat.zero_lt_of_lt le))]
    have resembles : e.toState.settle.Resembles
        { e.toState.settle with scopesEntered := e.scopesEntered + 1 } := ⟨rfl, rfl⟩
    exact resembles.leave.values_leave_iterate (resembles.values_leave rfl) n

theorem toState_popScopes (count : Nat) (e : Engine) :
    (popScopes count e).toState = State.leave^[count] e.toState := by
  induction count generalizing e with
  | zero => rfl
  | succ count ih => rw [popScopes, ih, Function.iterate_succ_apply, toState_popScope]

/-- Where leaving scopes leads to, values can be relied on only while no number of a scope came again. -/
theorem numbered_of_leave_iterate (formed : e.Formed) {n : Nat} (lt : n < e.depth)
    (reliable : (State.leave^[n + 1] e.toState).Reliable) : e.Numbered := by
  rw [← toState_popScopes] at reliable
  have same := scopesEntered_popScopes (n + 1) e
  have shallower := depth_popScopes (n + 1) e
  have entered := formed.entered
  rcases reliable with numbered | open_only
  · rwa [State.Numbered, same] at numbered
  · omega

theorem reliable_leave_iterate (numbered : e.Numbered) (n : Nat) :
    (State.leave^[n] e.toState).Reliable := by
  rw [← toState_popScopes]
  refine .inl ?_
  rwa [State.Numbered, scopesEntered_popScopes]

/-! ## Kinds of calls -/

/-- How a call that is not a search changes the engine. Scopes are left only if that is allowed. -/
inductive Turn (leaving : Bool) (e next : Engine) : Prop
  /-- Constraints are added, or nothing happens. -/
  | pose (strides : Strides false e next) (k : History) (evolves : Evolves e next k)
  | reason (made : next = e.propagate.1 ∨ next = e.check.1) (k : History)
      (evolves : Evolves e next k)
  /-- Consequences are taken from their queues, or names or settings change. -/
  | serve (propagations : List Propagation) (equalities : List EqualityReport)
      (literals_left : propagations <:+ e.propagations) (equalities_left : equalities <:+ e.equalities)
      (becomes : e.Becomes
        { e.toState with propagations := propagations, equalities := equalities } next)
  | enter (made : next = e.push)
  | leave (count : Nat) (le : count ≤ e.depth) (made : next = popScopes count e)
      (allowed : leaving = true)

theorem strides_of_reason (made : next = e.propagate.1 ∨ next = e.check.1) : Strides true e next := by
  rcases made with rfl | rfl
  · exact strides_propagate e
  · exact strides_check e

/-- Unless scopes are left, all scopes that were entered stay open. -/
theorem Turn.entered (turn : Turn false e next) (before : e.scopesEntered = e.depth) :
    next.scopesEntered = next.depth := by
  cases turn with
  | pose strides k evolves =>
    rw [strides.scopesEntered, evolves.depth, before]
  | reason made k evolves =>
    rw [(strides_of_reason made).scopesEntered, evolves.depth, before]
  | serve propagations equalities literals_left equalities_left becomes =>
    rw [becomes.toState]
    exact before
  | enter made =>
    rw [made]
    exact congrArg (· + 1) before
  | leave count le made allowed => cases allowed

/-- Scopes that were entered stay counted, whether or not they are left. -/
theorem Turn.scopesEntered_le {leaving : Bool} (turn : Turn leaving e next) :
    e.scopesEntered ≤ next.scopesEntered := by
  cases turn with
  | pose strides k evolves => exact strides.scopesEntered.ge
  | reason made k evolves => exact (strides_of_reason made).scopesEntered.ge
  | serve propagations equalities literals_left equalities_left becomes => rw [becomes.toState]
  | enter made =>
    rw [made]
    exact Nat.le_succ _
  | leave count le made allowed =>
    rw [made, scopesEntered_popScopes]

theorem turn_pop {count : Nat} (ok : e.pop count = .ok next) : Turn true e next := by
  rw [Engine.pop] at ok
  split at ok
  · cases ok
  · rename_i enough
    exact .leave count (Nat.le_of_not_lt enough) (Except.ok.inj ok).symm rfl

end Engine

/-- Whether a call leaves a scope, if only one that it entered itself. -/
def Call.goesBack : Call → Bool
  | .solve _ _ => true
  | .pop _ => true
  | .retractTo _ => true
  | _ => false

namespace Session

open Engine

variable {s : Session} {leaving : Bool}

/-- A call that fails does nothing. -/
theorem turn_attempt {α : Type} {result : Except EngineError α} {engine : α → Engine}
    {record : α → History → History} (ready : s.engine.Ready s.history)
    (succeeded : ∀ a, result = .ok a → Turn leaving s.engine (engine a)) :
    Turn leaving s.engine (s.attempt result engine record).engine := by
  cases result with
  | ok a => exact succeeded a rfl
  | error _ => exact .pose .refl _ ready.unchanged

/-- Every call that is not a search is of one of these kinds. -/
theorem turn_perform (ready : s.engine.Ready s.history) {call : Call}
    (plain : call.isSearch = false) : Turn call.goesBack s.engine (s.perform call).engine := by
  cases call with
  | mkVar sort term => exact .pose (strides_mkVar _ _ _) _ (ready.mkVar sort term)
  | setName v name =>
    refine turn_attempt ready fun next ok => ?_
    rw [Engine.setName] at ok
    obtain ⟨-, -, ok⟩ := bind_eq_ok ok
    obtain rfl := Except.ok.inj ok
    exact .serve _ _ (List.suffix_refl _) (List.suffix_refl _) ⟨rfl, rfl⟩
  | addRow b entries =>
    exact turn_attempt ready fun _ ok => .pose (strides_addRow ok) _ (ready.addRow ok).1
  | mkLinear sort term entries =>
    exact turn_attempt ready fun _ ok => .pose (strides_mkLinear ok) _ (ready.mkLinear ok)
  | mkMonomial factors =>
    exact turn_attempt ready fun _ ok => .pose (strides_mkMonomial ok) _ (ready.mkMonomial ok)
  | mkAtom v kind threshold =>
    exact turn_attempt ready fun _ ok => .pose (strides_mkAtom ok) _ (ready.mkAtom ok)
  | assertLiteral l =>
    exact turn_attempt ready fun next ok =>
      .pose (strides_assertLiteral ok) _ (ready.assertLiteral ok)
  | assertEq v value =>
    exact turn_attempt ready fun _ ok =>
      .pose (strides_assertEq ok) _ (ready.assertEq ok)
  | assertGiven v kind value =>
    exact turn_attempt ready fun next ok => .pose (strides_assertGiven ok) _ (ready.assertGiven ok)
  | assertVarEq left right =>
    exact turn_attempt ready fun next ok => .pose (strides_assertVarEq ok) _ (ready.assertVarEq ok)
  | propagate => exact .reason (.inl rfl) _ ready.propagate
  | check => exact .reason (.inr rfl) _ ready.check
  | solve selector stop => cases plain
  | nextPropagation =>
    exact .serve _ _ (List.tail_suffix _) (List.suffix_refl _) ⟨rfl, rfl⟩
  | nextEquality => exact .serve _ _ (List.suffix_refl _) (List.tail_suffix _) ⟨rfl, rfl⟩
  | push => exact .enter rfl
  | pop count => exact turn_attempt ready fun next ok => turn_pop ok
  | retractTo m =>
    refine turn_attempt ready fun next ok => ?_
    rw [Engine.retractTo] at ok
    split at ok
    · cases ok
    · exact turn_pop ok
  | setSelector selector =>
    exact .serve _ _ (List.suffix_refl _) (List.suffix_refl _) ⟨rfl, rfl⟩
  | setOracle oracle =>
    exact .serve _ _ (List.suffix_refl _) (List.suffix_refl _) ⟨rfl, rfl⟩
  | setTracer tracer =>
    exact .serve _ _ (List.suffix_refl _) (List.suffix_refl _) ⟨rfl, rfl⟩

theorem scopesEntered_perform_le (ready : s.engine.Ready s.history) (call : Call) :
    s.engine.scopesEntered ≤ (s.perform call).engine.scopesEntered := by
  cases searches : call.isSearch with
  | false => exact (turn_perform ready searches).scopesEntered_le
  | true =>
    cases call with
    | solve selector stop => exact (searched_solve selector stop ready).evolves.inside.entered
    | _ => cases searches

/-- However a session goes on, all scopes that were entered stay counted. -/
theorem scopesEntered_run_le (options : Options) (calls later : List Call) :
    ((start options).run calls).engine.scopesEntered ≤
      ((start options).run (calls ++ later)).engine.scopesEntered := by
  induction later using List.reverseRecOn with
  | nil => rw [List.append_nil]
  | append_singleton later call ih =>
    rw [← List.append_assoc, run_append]
    exact ih.trans (scopesEntered_perform_le (ready_run options (calls ++ later)) call)

/-- As long as no scope is left, all scopes that were entered are open, so values can be relied on
however many there are. -/
theorem reliable_run (options : Options) (calls : List Call)
    (forward : ∀ call ∈ calls, call.goesBack = false) :
    ((start options).run calls).engine.Reliable := by
  suffices same : ((start options).run calls).engine.scopesEntered =
      ((start options).run calls).engine.depth from .inr same
  induction calls using List.reverseRecOn with
  | nil => rfl
  | append_singleton calls call ih =>
    have onward : call.goesBack = false :=
      forward call (List.mem_append_right _ (List.mem_singleton_self call))
    have plain : call.isSearch = false := by cases call <;> first | rfl | cases onward
    have turn := turn_perform (ready_run options calls) plain
    rw [onward] at turn
    rw [run_append]
    exact turn.entered (ih fun other member => forward other (List.mem_append_left _ member))

end Session

end ArithDecide
