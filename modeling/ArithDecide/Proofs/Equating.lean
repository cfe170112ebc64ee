import Mathlib
import ArithDecide.Proofs.Divisibility
import ArithDecide.Proofs.Reports
import ArithDecide.Proofs.Rounds

/-!
# Equalities that are handed out follow

A report rests on the bounds that fix its two variables, so every solution that makes its explanation
true makes them equal, as long as values can be relied on; constraints that are added later only make
that easier, and leaving a scope drops what waits. `Session.equalities_reported` puts this together with
what a pass connects and with how often a pair is queued, for all calls of a session.
-/

namespace ArithDecide

namespace Engine

variable {e next : Engine} {h : History} {v w : Var} {x : InfRat}

/-! ## What a report says -/

namespace State

variable {s t : State} {r : EqualityReport}

/-- Every solution that makes the explanation of the report true makes its variables equal. -/
def Equates (s : State) (r : EqualityReport) : Prop :=
  ∀ α, s.Solves α → (∀ l ∈ r.explanation.literals, s.LiteralHolds α l) →
    (∀ q ∈ r.explanation.equalities, q.Holds α) → r.pair.Holds α

/-- All reports that wait are right, if values can be relied on. -/
def Told (s : State) : Prop := s.Reliable → ∀ r ∈ s.equalities, s.Equates r

theorem Grows.equates (grows : s.Grows t) (equates : s.Equates r) : t.Equates r :=
  fun α solves literals equalities => equates α (grows.solves α solves)
    (fun l member => grows.literalHolds (literals l member)) equalities

/-- What waits stays right when nothing is added to it. -/
theorem Told.grows (told : s.Told) (grows : s.Grows t) (fewer : t.equalities ⊆ s.equalities) :
    t.Told := fun reliable r member =>
  grows.equates (told (grows.reliable reliable) r (fewer member))

end State

theorem Undisturbed.told (undisturbed : Undisturbed e next) (grows : e.Grows next.toState)
    (told : e.Told) : next.Told :=
  told.grows grows fun _ member => undisturbed.equalities ▸ member

/-- A variable of interest that is fixed has a value. -/
theorem isFixed_of_shared (shared : e.sharedFixedValue? v = some x) :
    e.bounds.isFixed v = true ∧ e.bounds.lowerValue v = some x := by
  rw [sharedFixedValue?] at shared
  split at shared
  · rename_i fixed
    exact ⟨(Bool.and_eq_true_iff.1 fixed).2, shared⟩
  · cases shared

/-- The bounds that fix two variables to one value explain why they are equal. -/
theorem equates_equalityReport (inv : e.Invariant h) (reliable : e.Reliable)
    (w_shared : e.sharedFixedValue? w = some x) (v_shared : e.sharedFixedValue? v = some x) :
    (e.joinReasons (e.reasonsOf (fixingUses w v))).1.Equates (e.equalityReport w v) := by
  have j := joined_reasonsOf inv (fixingUses w v)
  intro α solves literals equalities
  have closed := (j.steps.invariant inv).founded.formed.closed
  have believes := (DependencyArena.allLeaves_iff_linearize closed _).2 ⟨literals, equalities⟩
  have respects := respects_of_believes inv reliable (j.grows.solves α solves) (j.believes believes)
  have at_value {u : Var} (shared : e.sharedFixedValue? u = some x)
      (member : ∀ kind, (u, kind) ∈ fixingUses w v) : x = .ofRat (α u) := by
    obtain ⟨fixed, lower⟩ := isFixed_of_shared shared
    obtain ⟨y, -, lower', same⟩ := eq_of_isFixed inv.founded.formed.bounds fixed respects member
    obtain rfl : x = y := Option.some.inj (lower.symm.trans lower')
    exact same
  have w_at := at_value w_shared fun kind => by cases kind <;> simp [fixingUses]
  have v_at := at_value v_shared fun kind => by cases kind <;> simp [fixingUses]
  exact congrArg InfRat.real (w_at.symm.trans v_at)

/-- What a report adds is right if values can be relied on: it equates variables that are fixed to one
value. -/
theorem told_reportEquality (inv : e.Invariant h) (v : Var) (told : e.Told) :
    (e.reportEquality v).Told := by
  have grows := ((steps_reportEquality inv v).keeps inv).grows
  rcases reportEquality_cases e v with ⟨same, -⟩ | ⟨x, w, shared, found, -, made⟩
  · rwa [same]
  · have w_shared : e.sharedFixedValue? w = some x := by
      simpa using List.find?_some (show e.vars.find? _ = some w from found)
    intro reliable
    have before := grows.reliable reliable
    have equates := equates_equalityReport inv before w_shared shared
    rw [made] at grows ⊢
    intro r member
    rcases List.mem_append.1 member with earlier | latest
    · exact grows.equates (told before r earlier)
    · rw [List.mem_singleton.1 latest]
      have same : (e.joinReasons (e.reasonsOf (fixingUses w v))).1.Grows
          ((e.joinReasons (e.reasonsOf (fixingUses w v))).1.reporting ⟨w, v⟩
            (e.equalityReport w v)) :=
        .of_eq rfl rfl rfl rfl (.refl _) (fun _ atom found => ⟨atom, found, rfl, rfl, rfl⟩)
          (fun _ => id) id
      exact same.equates equates

theorem told_propagateFixedEqualities (inv : e.Invariant h) (told : e.Told) :
    e.propagateFixedEqualities.Told := by
  rw [propagateFixedEqualities]
  induction e.vars generalizing e with
  | nil => exact told
  | cons v rest ih =>
    exact ih ((steps_reportEquality inv v).invariant inv) (told_reportEquality inv v told)

/-! ## Propagating and checking -/

/-- What reports no equalities keeps right what waits. -/
theorem Strides.told {result : Engine × Bool} (strides : Strides false e result.1)
    (answers : Answers h e result) (inv : e.Invariant h) (told : e.Told) : result.1.Told :=
  strides.undisturbed.told (answers.keeps inv).grows told

theorem told_propagate (inv : e.Invariant h) (told : e.Told) : e.propagate.1.Told := by
  cases answer : e.propagate.2 with
  | false => exact (strides_propagate_of_no answer).told (answers_propagate inv) inv told
  | true =>
    obtain ⟨-, installed, repaired, derived, installing, repairing, deriving_rows, same⟩ :=
      propagate_of_yes answer
    have strides : Strides false e derived := strides_stages installing repairing deriving_rows
    have before := (steps_stages inv installing repairing deriving_rows).1
    rw [same]
    exact told_propagateFixedEqualities (before.invariant inv)
      (strides.undisturbed.told (before.keeps inv).grows told)

theorem told_integers {cuts : Nat} {outcome : IntegerOutcome} (inv : e.Invariant h)
    (yes : e.propagate.2 = true) (found : e.propagate.1.checkIntegers cuts = (next, outcome))
    (told : e.Told) : next.Told :=
  (strides_of_result found (strides_checkIntegers e.propagate.1 cuts)).told
    (answers_integers inv yes found) ((propagated_of_yes inv yes).steps.invariant inv)
    (told_propagate inv told)

theorem told_products {integral : Engine} {cuts : Nat} {pass spent : NonlinearPass}
    {outcome : NonlinearOutcome} (inv : e.Invariant h) (yes : e.propagate.2 = true)
    (found : e.propagate.1.checkIntegers cuts = (integral, .feasible))
    (concluded : integral.checkNonlinear pass = (next, spent, outcome)) (told : e.Told) :
    next.Told := by
  obtain ⟨integral_inv, answers⟩ := answers_products inv yes found concluded
  exact (strides_of_result concluded (strides_checkNonlinear integral pass)).told answers
    integral_inv (told_integers inv yes found told)

theorem Rounds.told (rounds : Rounds e next) (inv : e.Invariant h) (told : e.Told) : next.Told := by
  induction rounds with
  | refl => exact told
  | tail before round ih =>
    have mid_inv := (Rounds.steps before inv).invariant inv
    cases round with
    | cut yes cuts added => exact told_integers mid_inv yes added ih
    | refine yes cuts integral pass spent integers progress =>
      exact told_products mid_inv yes integers progress ih

theorem Finish.told {result : Engine × CheckResult} (finish : Finish e result) (inv : e.Invariant h)
    (told : e.Told) : result.1.Told := by
  cases finish with
  | spent => exact told
  | failed no => exact told_propagate inv told
  | integers yes cuts next outcome found => exact told_integers inv yes found told
  | products yes cuts integral next pass spent outcome found concluded =>
    exact told_products inv yes found concluded told

theorem told_check (inv : e.Invariant h) (told : e.Told) : e.check.1.Told := by
  obtain ⟨mid, rounds, finish⟩ := rounds_check e
  have begun_inv : e.begun.Invariant h := inv
  exact finish.told ((rounds.steps begun_inv).invariant begun_inv) (rounds.told begun_inv told)

/-- Every call that is not a search keeps right what waits. -/
theorem Turn.told {leaving : Bool} (turn : Turn leaving e next) (inv : e.Invariant h)
    (told : e.Told) : next.Told := by
  cases turn with
  | pose strides k evolves => exact strides.undisturbed.told evolves.grows told
  | reason made k evolves =>
    rcases made with rfl | rfl
    · exact told_propagate inv told
    · exact told_check inv told
  | serve propagations equalities literals_left equalities_left becomes =>
    rw [becomes.toState]
    refine told.grows ?_ fun _ => equalities_left.mem
    exact .of_eq rfl rfl rfl rfl (.refl _) (fun _ atom found => ⟨atom, found, rfl, rfl, rfl⟩)
      (fun _ => id) id
  | enter made =>
    subst made
    exact told.grows (grows_enter _) fun _ => id
  | leave count le made =>
    subst made
    rw [toState_popScopes]
    rcases iterate_leave_cases count e.toState with same | none_left
    · rwa [same]
    · intro _
      rw [none_left]
      nofun

end Engine

namespace Session

open Engine

/-! ## Runs -/

/-- Whatever calls were made, none of them a search, the reports that wait are right. -/
theorem told_run (options : Options) (calls : List Call)
    (plain : ∀ call ∈ calls, call.isSearch = false) : ((start options).run calls).engine.Told := by
  induction calls using List.reverseRecOn with
  | nil => nofun
  | append_singleton calls call ih =>
    have ready := ready_run options calls
    have turn := turn_perform ready (plain call (List.mem_append_right _ (List.mem_singleton.2 rfl)))
    rw [run_append]
    exact turn.told ready.invariant (ih fun earlier member => plain earlier (List.mem_append_left _ member))

/-- The pairs that some calls queue, in the order in which they do. -/
def reports (s : Session) : List Call → List VarPair
  | [] => []
  | call :: rest => s.engine.reportedSince (s.perform call).engine ++ (s.perform call).reports rest

/-- The pair is reported after each of the calls. -/
def StaysLive (s : Session) (p : VarPair) (calls : List Call) : Prop :=
  ∀ done, done <+: calls → done ≠ [] → p ∈ (s.run done).engine.reported

@[simp] theorem staysLive_nil (s : Session) (p : VarPair) : s.StaysLive p [] :=
  fun _ within nonempty => absurd (List.prefix_nil.1 within) nonempty

theorem staysLive_cons {s : Session} {p : VarPair} {call : Call} {rest : List Call} :
    s.StaysLive p (call :: rest) ↔
      p ∈ (s.perform call).engine.reported ∧ (s.perform call).StaysLive p rest := by
  refine ⟨fun live => ⟨live [call] (by simp) (List.cons_ne_nil _ _), fun done within _ =>
    live (call :: done) (List.cons_prefix_cons.2 ⟨rfl, within⟩) (List.cons_ne_nil _ _)⟩, ?_⟩
  rintro ⟨here, live⟩ done within nonempty
  obtain ⟨first, others, rfl⟩ := List.exists_cons_of_ne_nil nonempty
  obtain ⟨rfl, inside⟩ := List.cons_prefix_cons.1 within
  cases others with
  | nil => exact here
  | cons second others => exact live _ inside (List.cons_ne_nil _ _)

section Counting

variable (options : Options) (done : List Call) {calls : List Call} {call : Call} {p : VarPair}

/-- What a call that is not a search queues. -/
theorem reportedSince_perform (plain : call.isSearch = false) :
    (((start options).run done).engine.reportedSince
        (((start options).run done).perform call).engine).Nodup ∧
      ∀ p ∈ ((start options).run done).engine.reportedSince
        (((start options).run done).perform call).engine,
        p ∉ ((start options).run done).engine.reported :=
  (turn_perform (ready_run options done) plain).reportedSince

/-- A pair whose report is alive is not queued. -/
theorem count_reports_of_live (plain : ∀ call ∈ calls, call.isSearch = false)
    (here : p ∈ ((start options).run done).engine.reported)
    (live : ((start options).run done).StaysLive p calls) :
    (((start options).run done).reports calls).count p = 0 := by
  induction calls generalizing done with
  | nil => rfl
  | cons call rest ih =>
    have after : (start options).run (done ++ [call]) = ((start options).run done).perform call :=
      run_append _ _ _
    have ⟨next_here, next_live⟩ := staysLive_cons.1 live
    have later := ih (done ++ [call]) (fun c member => plain c (List.mem_cons_of_mem _ member))
      (after ▸ next_here) (after ▸ next_live)
    have fresh := (reportedSince_perform options done (plain call List.mem_cons_self)).2 p
    have absent := List.count_eq_zero.2 fun queued => fresh queued here
    rw [after] at later
    rw [reports, List.count_append, absent, later]

/-- While its report is alive, a pair is queued at most once. -/
theorem count_reports_le_one (plain : ∀ call ∈ calls, call.isSearch = false)
    (live : ((start options).run done).StaysLive p calls) :
    (((start options).run done).reports calls).count p ≤ 1 := by
  cases calls with
  | nil => exact Nat.zero_le _
  | cons call rest =>
    have after : (start options).run (done ++ [call]) = ((start options).run done).perform call :=
      run_append _ _ _
    have ⟨next_here, next_live⟩ := staysLive_cons.1 live
    have later := count_reports_of_live options (done ++ [call])
      (fun c member => plain c (List.mem_cons_of_mem _ member)) (after ▸ next_here)
      (after ▸ next_live)
    have nodup := (reportedSince_perform options done (plain call List.mem_cons_self)).1
    rw [after] at later
    rw [reports, List.count_append, later]
    exact List.nodup_iff_count_le_one.1 nodup p

end Counting

/-! ## The reports of a session -/

/-- Whatever calls were made, with every search taken for the calls that it makes: after a successful
propagation, variables of shared terms that are fixed to one value are connected by reported pairs; over
calls after each of which the report of a pair is alive, the pair is queued at most once; and as long as
fewer than `2 ^ 32` scopes were entered, every solution that makes the explanation of a queued report
true makes its variables equal. -/
theorem equalities_reported (options : Options) (calls : List Call) :
    let s := (start options).run calls
    let next := s.engine.propagate.1
    (s.engine.propagate.2 = true → ∀ v w : Var,
      next.oracle.sharesTerm (next.term v) = true → next.oracle.sharesTerm (next.term w) = true →
      next.bounds.isFixed v = true → next.bounds.isFixed w = true →
      next.bounds.lowerValue v = next.bounds.lowerValue w →
        Relation.EqvGen (fun a b => ⟨a, b⟩ ∈ next.reported) v w) ∧
    (∀ done stretch rest p, (start options).unfold calls = done ++ (stretch ++ rest) →
      ((start options).run done).StaysLive p stretch →
        (((start options).run done).reports stretch).count p ≤ 1) ∧
    (s.engine.Numbered →
      ∀ r, r ∈ s.engine.equalities ∨ r ∈ next.equalities → next.Equates r) := by
  intro s next
  have inv := (ready_run options calls).invariant
  have plain : ∀ call ∈ (start options).unfold calls, call.isSearch = false :=
    fun call => not_isSearch_of_mem_unfold
  have told : s.engine.Told := by
    have unfolded := told_run options _ plain
    rwa [run_unfold] at unfolded
  refine ⟨fun yes v w v_shared w_shared v_fixed w_fixed same => ?_, fun done stretch rest p made => ?_,
    fun numbered r waits => ?_⟩
  · obtain ⟨-, installed, repaired, derived, installing, repairing, deriving_rows, result⟩ :=
      propagate_of_yes yes
    have before := (steps_stages inv installing repairing deriving_rows).1
    obtain ⟨x, -, active⟩ := fixedValue?_of_isFixed v_fixed
    have v_value : next.sharedFixedValue? v = some x := by
      rw [sharedFixedValue?, v_shared, v_fixed]
      exact active .lower
    have w_value : next.sharedFixedValue? w = some x := by
      rw [sharedFixedValue?, w_shared, w_fixed]
      exact same ▸ active .lower
    have passed : next = derived.propagateFixedEqualities := congrArg Prod.fst result
    rw [passed] at v_value w_value ⊢
    exact connected_pass (before.invariant inv).founded.formed.bounds v_value w_value
  · refine count_reports_le_one options done fun call member => plain call ?_
    rw [made]
    exact List.mem_append_right _ (List.mem_append_left _ member)
  · have answers := answers_propagate inv
    rcases waits with earlier | later
    · exact (answers.keeps inv).grows.equates (told numbered.reliable r earlier)
    · exact told_propagate inv told ((answers.reliable_iff inv).2 numbered.reliable) r later

/-- Two variables of shared terms that are asserted to have the same value. -/
def agreeing : List Call :=
  [.setOracle ⟨fun _ => true, fun _ => true, fun _ => none⟩, .mkVar .real (.external 0),
    .mkVar .real (.external 1), .assertEq 0 1, .assertEq 1 1]

/-- What the report of the two variables says. -/
def agreement : EqualityReport :=
  ⟨⟨0, 1⟩, ⟨[⟨0, false⟩, ⟨1, false⟩, ⟨2, false⟩, ⟨3, false⟩], []⟩⟩

theorem run_agreeing :
    let next := ((start {}).run agreeing).engine.propagate.1
    ((start {}).run agreeing).engine.scopesEntered = 0 ∧
      ((start {}).run agreeing).engine.propagate.2 = true ∧ next.reported = [⟨0, 1⟩] ∧
      next.equalities = [agreement] ∧
      next.oracle.sharesTerm (next.term 0) = true ∧ next.oracle.sharesTerm (next.term 1) = true ∧
      next.bounds.isFixed 0 = true ∧ next.bounds.isFixed 1 = true ∧
      next.bounds.lowerValue 0 = next.bounds.lowerValue 1 := by
  refine ⟨by cbv, by cbv, by cbv, by cbv, by cbv, by cbv, by cbv, by cbv, by cbv⟩

/-- The report of the two variables stays alive. -/
theorem staysLive_agreeing :
    ((start {}).run agreeing).StaysLive ⟨0, 1⟩ [.propagate, .push, .propagate] := by
  have reported : ((start {}).run (agreeing ++ [.propagate])).engine.reported = [⟨0, 1⟩] := by cbv
  have pushed : ((start {}).run (agreeing ++ [.propagate, .push])).engine.reported = [⟨0, 1⟩] := by
    cbv
  have again : ((start {}).run (agreeing ++ [.propagate, .push, .propagate])).engine.reported =
      [⟨0, 1⟩] := by cbv
  rw [run_append] at reported pushed again
  refine staysLive_cons.2 ⟨?_, staysLive_cons.2 ⟨?_, staysLive_cons.2 ⟨?_, staysLive_nil _ _⟩⟩⟩
  · exact reported ▸ List.mem_singleton.2 rfl
  · exact pushed ▸ List.mem_singleton.2 rfl
  · exact again ▸ List.mem_singleton.2 rfl

theorem equalities_reported_agreeing :
    Relation.EqvGen (fun a b => ⟨a, b⟩ ∈ ((start {}).run agreeing).engine.propagate.1.reported) 0 1 ∧
      (((start {}).run agreeing).reports [.propagate, .push, .propagate]).count ⟨0, 1⟩ ≤ 1 ∧
      ((start {}).run agreeing).engine.propagate.1.Equates agreement := by
  obtain ⟨none_entered, yes, -, waits, zero_shared, one_shared, zero_fixed, one_fixed, same⟩ := run_agreeing
  refine ⟨(equalities_reported {} agreeing).1 yes 0 1 zero_shared one_shared zero_fixed one_fixed same,
    ?_, (equalities_reported {} agreeing).2.2 (.of_none none_entered) agreement (.inr ?_)⟩
  · exact (equalities_reported {} (agreeing ++ [.propagate, .push, .propagate])).2.1 agreeing _ []
      ⟨0, 1⟩ rfl staysLive_agreeing
  · rw [waits]
    exact List.mem_singleton.2 rfl

end Session

end ArithDecide
