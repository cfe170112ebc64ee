import ArithDecide.Guarded.Calls
import ArithDecide.Proofs.GuardedCheck
import ArithDecide.Proofs.Sessions

/-!
# Calls never fail internally

A session runs again with everything checked that the engine relies on. Whatever calls are made, nothing
that is checked fails and the engine is the same (`Session.guarded_run`): a misuse is answered before
anything is done, and everything else keeps the engine ready.
-/

namespace ArithDecide

namespace TableauSession

variable {s : TableauSession} {plain : PlainSession}

theorem Kept.numVars_leave (kept : s.Kept plain) {length numVars : Nat} {outer : List (Nat × Nat)}
    (is_open : s.scopes = (length, numVars) :: outer) : (s.step .leave).store.numVars = numVars := by
  obtain ⟨store, scopes, given⟩ := s
  obtain ⟨consistent, nested, -, -, -, -⟩ := kept
  simp only at consistent nested is_open
  subst is_open
  generalize trail_eq : store.trail = trail at nested
  cases nested with
  | scope means retrace fewer inner =>
    exact SparseTableau.numVars_truncateVars
      ((retrace.undoTo consistent trail_eq).numVars ▸ fewer)

end TableauSession

namespace Engine

open State

variable {e next base : Engine} {h k outer : History} {v left right difference : Var} {l : Literal}

/-! ## Variables, rows and monomials -/

theorem runs_setName {name : String} (ok : e.setName v name = .ok next) :
    Runs e (return { e with names := e.names.assign v name }) next next := by
  rw [Engine.setName] at ok
  obtain ⟨_, -, ok⟩ := bind_eq_ok ok
  obtain rfl := Except.ok.inj ok
  exact .pure (by exact ⟨rfl, rfl, rfl⟩) _

theorem runs_valueBase (eager : Bool) (e : Engine) (base : Var) (r : RowId) :
    Runs e (Guarded.valueBase eager e base r)
      (if eager then e.normalizeRow r else e.setValue base (e.value base))
      (if eager then e.normalizeRow r else e.setValue base (e.value base)) := by
  rw [Guarded.valueBase]
  split
  · exact runs_normalizeRow e r
  · exact .pure (valuesOnly_setValue _ _ _).sameStore _

theorem runs_placeRow {base : Var} {entries : List (Var × Rat)} (new : NewRow e base entries) :
    Runs e (Guarded.placeRow e base entries) (e.placeRow base (.ofEntries entries))
      (e.placeRow base (.ofEntries entries)).1 := by
  rw [Guarded.placeRow, placeRow]
  refine (runs_pushRow new.lt new.fresh fun t member => (new.entries_lt t member).symm).bind ?_
  generalize e.pushRow base (.ofEntries entries) = result
  obtain ⟨added, r⟩ := result
  dsimp only
  refine (runs_valueBase e.options.eagerNormalization added base r).bind ?_
  generalize (if e.options.eagerNormalization = true then added.normalizeRow r
    else added.setValue base (added.value base)) = valued
  exact Runs.bind (.start (runs_declareChecking _) ⟨rfl, rfl, rfl⟩)
    (.pure (by exact ⟨rfl, rfl, rfl⟩) _)

/-- A row that is accepted may be placed. -/
theorem runs_addRow {base : Var} {entries : List (Var × Rat)} {result : Engine × RowId}
    (ok : e.addRow base entries = .ok result) :
    Runs e (Guarded.placeRow e base entries) result result.1 := by
  obtain ⟨new, rfl⟩ := of_addRow ok
  exact runs_placeRow new

theorem runs_mkLinear {sort : NumSort} {term : Term} {entries : List (Var × Rat)}
    {result : Engine × Var} (ok : e.mkLinear sort term entries = .ok result) :
    Runs e (Guarded.placeLinear e sort term entries) result result.1 := by
  rw [Engine.mkLinear] at ok
  obtain ⟨-, -, ok⟩ := bind_eq_ok ok
  obtain ⟨⟨withRow, r⟩, added, ok⟩ := bind_eq_ok ok
  obtain rfl := Except.ok.inj ok
  exact (runs_mkVar e sort term).bind ((runs_addRow added).bind (.pure (.refl _) _))

theorem runs_placeMonomial (e : Engine) (sorted : List Var) :
    Runs e (Guarded.placeMonomial e sorted) (e.placeMonomial sorted) (e.placeMonomial sorted).1 :=
  (runs_ask_addVar e (e.jointSort sorted) .internal).bind (.pure (by exact ⟨rfl, rfl, rfl⟩) _)

theorem runs_mkMonomial {factors : List Var} {result : Engine × Var}
    (ok : e.mkMonomial factors = .ok result) :
    Runs e (Guarded.internMonomial e (factors.mergeSort fun v w => v ≤ w)) result result.1 := by
  rw [Engine.mkMonomial] at ok
  rw [Guarded.internMonomial]
  split at ok
  · cases ok
  · obtain ⟨_, -, ok⟩ := bind_eq_ok ok
    dsimp only at ok
    generalize factors.mergeSort (fun v w => v ≤ w) = sorted at ok
    cases shared : e.monomials.find? fun m => m.factors == sorted with
    | some m =>
      rw [shared] at ok
      obtain rfl := Except.ok.inj ok
      exact .pure (.refl e) _
    | none =>
      rw [shared] at ok
      obtain rfl := Except.ok.inj ok
      exact runs_placeMonomial e sorted

/-! ## Literals and bounds -/

theorem of_mkAtom {kind : BoundKind} {threshold : Rat} {result : Engine × Literal}
    (ok : e.mkAtom v kind threshold = .ok result) : e.internAtom v kind threshold = result := by
  rw [Engine.mkAtom] at ok
  obtain ⟨_, -, ok⟩ := bind_eq_ok ok
  exact Except.ok.inj ok

theorem runs_mkAtom {kind : BoundKind} {threshold : Rat} {result : Engine × Literal}
    (inv : e.Invariant h) (ok : e.mkAtom v kind threshold = .ok result) :
    Runs e (Guarded.internAtom e v kind threshold) result result.1 := by
  obtain rfl := of_mkAtom ok
  exact runs_internAtom inv.explained v kind threshold

/-- Asserting a known literal runs without failing, whether it is new, redundant or in conflict with its
negation. -/
theorem runs_queueLiteral (inv : e.Invariant h) (ok : e.assertLiteral l = .ok next) :
    Runs e (Guarded.queueLiteral e l) next next := by
  rw [Engine.assertLiteral] at ok
  rw [Guarded.queueLiteral]
  split at ok
  · cases ok
  · cases assigned : e.atoms.assign l with
    | queued atoms =>
      rw [assigned] at ok
      obtain rfl := Except.ok.inj ok
      exact .pure (by exact ⟨rfl, rfl, rfl⟩) _
    | redundant =>
      rw [assigned] at ok
      obtain rfl := Except.ok.inj ok
      exact .pure (.refl e) _
    | conflicting =>
      rw [assigned] at ok
      obtain rfl := Except.ok.inj ok
      have first := DependencyArena.built_mkLiteral inv.explained.closed l
      have second := DependencyArena.built_mkLiteral first.closed l.negate
      have explained : ({ e with dependencies :=
          ((e.dependencies.mkLiteral l).1.mkLiteral l.negate).1 } : Engine).Explained :=
        ⟨second.closed, fun b member => second.extended.names
          (first.extended.names (inv.explained.records b member))⟩
      have names : ∀ d ∈ [(e.dependencies.mkLiteral l).2,
          ((e.dependencies.mkLiteral l).1.mkLiteral l.negate).2],
          ((e.dependencies.mkLiteral l).1.mkLiteral l.negate).1.Names d := by
        simpa using ⟨second.extended.names first.names, second.names⟩
      exact .start ((runs_joinReasons names).bind (runs_conflictJoined explained names (by rfl)))
        ⟨rfl, rfl, rfl⟩

theorem runs_assertEq {value : Rat} {result : Engine × Literal × Literal} (ready : e.Ready h)
    (ok : e.assertEq v value = .ok result) :
    Runs e (Guarded.queueEq e v value) result result.1 := by
  rw [Engine.assertEq] at ok
  obtain ⟨⟨first, lower⟩, made_lower, ok⟩ := bind_eq_ok ok
  obtain ⟨⟨second, upper⟩, made_upper, ok⟩ := bind_eq_ok ok
  obtain ⟨third, asserted_lower, ok⟩ := bind_eq_ok ok
  obtain ⟨fourth, asserted_upper, ok⟩ := bind_eq_ok ok
  obtain rfl := Except.ok.inj ok
  have one := (ready.mkAtom made_lower).ready
  have two := (one.mkAtom made_upper).ready
  have three := (two.assertLiteral asserted_lower).ready
  exact (runs_mkAtom ready.invariant made_lower).bind ((runs_mkAtom one.invariant made_upper).bind
    ((runs_queueLiteral two.invariant asserted_lower).bind
      ((runs_queueLiteral three.invariant asserted_upper).bind (.pure (.refl _) _))))

theorem runs_assertGiven {kind : BoundKind} {value : InfRat} (inv : e.Invariant h)
    (ok : e.assertGiven v kind value = .ok next) :
    Runs e (Guarded.installGiven e v kind value) next next := by
  rw [Engine.assertGiven] at ok
  obtain ⟨_, -, ok⟩ := bind_eq_ok ok
  obtain rfl := Except.ok.inj ok
  have explained : ({ e with given := e.given ++ [GivenBound.mk v kind value] } : Engine).Explained :=
    inv.explained.congr rfl rfl
  exact Runs.bind (.start (runs_installBound explained DependencyArena.names_none v kind value .given)
    ⟨rfl, rfl, rfl⟩) (.pure (.refl _) _)

/-! ## Equalities -/

theorem runs_installBoth {reason : Dependency} (inv : e.Invariant h)
    (offered : ∀ kind, e.Offered h ⟨v, kind, 0, reason, .derived⟩) :
    Runs e
      (Guarded.forEach (fun e kind => Guarded.installBound e v kind 0 reason .derived)
        [.lower, .upper] e)
      (forEach (fun e kind => e.installBound v kind 0 reason .derived) [.lower, .upper] e)
      (forEach (fun e kind => e.installBound v kind 0 reason .derived) [.lower, .upper] e).1 :=
  runs_forEach (h := h) fun _ steps kind _ =>
    have next_inv := steps.invariant inv
    have again := offered_zero_later inv (steps.keeps inv) (offered kind)
    ⟨answers_installBound next_inv again,
      runs_installBound next_inv.explained again.supported.names v kind 0 .derived⟩

theorem runs_fixDifference (inv : e.Invariant h) (lt : difference < e.numVars)
    (left_lt : left < e.numVars) (right_lt : right < e.numVars)
    (row : ∀ α : Var → Rat, e.tableau.Holds α → α difference = α left - α right) :
    Runs e (Guarded.fixDifference e difference left right)
      (e.fixDifference difference left right) (e.fixDifference difference left right) := by
  have equated := invariant_equate inv left_lt right_lt
  obtain ⟨noted, offered⟩ := offered_difference equated lt row
  exact .start ((runs_installBoth (noted.invariant equated) offered).bind (.pure (.refl _) _))
    ⟨rfl, rfl, rfl⟩

theorem runs_assertVarEq (ready : e.Ready h) (ok : e.assertVarEq left right = .ok next) :
    Runs e (Guarded.equate e left right) next next := by
  rw [Guarded.equate]
  obtain ⟨⟨left_lt, right_lt⟩, ⟨rfl, rfl⟩ | ⟨differ, withRow, added, rfl⟩⟩ := of_assertVarEq ok
  · rw [if_pos rfl]
    exact .pure (.refl _) _
  · rw [if_neg differ]
    have posed := ready.pose left_lt right_lt added
    exact (runs_mkVar _ _ _).bind ((runs_addRow added).bind
      (runs_fixDifference posed.evolves.ready.invariant posed.lt posed.left_lt posed.right_lt
        posed.row))

/-! ## Scopes -/

theorem runs_push (e : Engine) : Runs e (Guarded.push e) e.push e.push := by
  have entered : Runs e (Guarded.ask .enter) () e.push := .ask fun s serves => ⟨rfl,
    { kept := serves.kept.enter
      numVars := serves.numVars
      marks := congrArg₂ List.cons serves.numVars serves.marks }⟩
  exact entered.bind (.pure (.refl _) _)

/-- An open scope may be left, which forgets the variables that were added in it. -/
theorem serves_leave {s : TableauSession} {scope : Scope} {rest : List Scope} (formed : e.Formed)
    (is_open : e.scopes = scope :: rest) (serves : s.Serves e.toState) :
    s.allows .leave = true ∧ (s.step .leave).Serves e.popScope.toState := by
  have marks := serves.marks
  rw [is_open] at marks
  obtain ⟨⟨length, numVars⟩, inner, scopes_eq, rfl, marks⟩ := List.map_eq_cons_iff.1 marks
  have left : e.popScope.toState = (e.toState.rewind scope rest).settle := by
    rw [popScope, is_open]
    exact leave_of_open is_open
  refine ⟨by rw [TableauSession.allows, scopes_eq]; rfl, ?_⟩
  rw [left]
  refine ⟨?_, ?_, ?_⟩
  · have kept := serves.kept.leave
    rw [is_open, List.map_cons] at kept
    simp only [PlainSession.step, List.isEmpty_map] at kept
    exact kept
  · have fewer : scope.numVars ≤ e.columns.size := (formed.passed scope rest is_open).numVars
    rw [serves.kept.numVars_leave scopes_eq]
    show scope.numVars = (e.columns.take scope.numVars).size
    rw [Array.take_eq_extract, Array.size_extract, Nat.min_eq_left fewer, Nat.sub_zero]
  · rw [TableauSession.step, scopes_eq]
    exact marks

theorem runs_popScope (formed : e.Formed) :
    Runs e (Guarded.popScope e) e.popScope e.popScope := by
  rw [Guarded.popScope]
  split
  · rename_i closed
    have stays : e.popScope = e := by
      rw [popScope, closed]
    rw [stays]
    exact .pure (.refl e) e
  · rename_i scope rest is_open
    have passed := formed.passed scope rest is_open
    exact .demanded passed.bounds.1 (.demanded passed.atoms.trail (.demanded passed.monomials
      ((Runs.ask fun s serves => serves_leave formed is_open serves).bind (.pure (.refl _) _))))

theorem runs_popScopes (count : Nat) (within : Within base outer e h)
    (deep : base.depth + count ≤ e.depth) :
    Runs e (Guarded.popScopes count e) (popScopes count e) (popScopes count e) := by
  induction count generalizing e h with
  | zero => exact .pure (.refl e) e
  | succ count ih =>
    have left := within.popScope (by omega)
    have shallower := depth_popScope e
    exact (runs_popScope within.ready.invariant.founded.formed).bind (ih left (by omega))

/-- Scopes can be left as far as the one of the base. -/
theorem runs_pop {count : Nat} (within : Within base outer e h) (ok : e.pop count = .ok next)
    (above : base.depth ≤ next.depth) : Runs e (Guarded.popScopes count e) next next := by
  rw [Engine.pop] at ok
  split at ok
  · cases ok
  · rename_i enough
    obtain rfl := Except.ok.inj ok
    rw [depth_popScopes] at above
    exact runs_popScopes count within (by omega)

theorem runs_retractTo {m : Mark} (within : Within base outer e h) (ok : e.retractTo m = .ok next)
    (above : base.depth ≤ next.depth) :
    Runs e (Guarded.popScopes (e.depth - m.depth) e) next next := by
  rw [Engine.retractTo] at ok
  split at ok
  · cases ok
  · exact runs_pop within ok above

/-! ## Searching -/

theorem runs_enterBranch (ready : e.Ready h) (l : Literal) :
    Runs e (Guarded.enterBranch e l) (e.enterBranch l) (e.enterBranch l) := by
  refine (runs_push e).bind ?_
  rw [Guarded.assertLiteral, Engine.enterBranch]
  cases asserted : e.push.assertLiteral l with
  | error misuse => exact .pure (.refl _) _
  | ok next =>
    have queued := runs_queueLiteral ready.push.invariant asserted
    exact (queued.bind (.pure (.refl _) (Except.ok next))).bind (.pure (.refl _) _)

theorem engine_combine (split : CaseSplit) (down : Option Explanation) (up : SearchState) :
    (SearchState.combine split down up).engine = up.engine := by
  unfold SearchState.combine
  split
  · split <;> rfl
  · split <;> rfl
  · rfl

/-- Exploring both sides, when a branch may be explored from every engine that is ready. -/
theorem runs_searchSides {explore : Engine → Nat → Literal → SearchState}
    {guarded : Engine → Nat → Literal → Guarded SearchState} {split : CaseSplit} (ready : e.Ready h)
    (splits : e.Splits split)
    (explored : ∀ (e : Engine) (visited : Nat) (l : Literal), e.Ready h →
      (∃ atom, e.atoms.get? l.atom = some atom) → Explored h e l (explore e visited l) ∧
        Runs e (guarded e visited l) (explore e visited l) (explore e visited l).engine)
    (visited : Nat) :
    Runs e (Guarded.searchSides guarded e visited split) (searchSides explore e visited split)
      (searchSides explore e visited split).engine := by
  obtain ⟨lower, runs⟩ := explored e visited split.down ready splits.down_known
  rw [Guarded.searchSides, searchSides]
  refine runs.bind ?_
  generalize explore e visited split.down = down at lower
  have up_known : ∃ atom, down.engine.atoms.get? split.up.atom = some atom := by
    rw [lower.returns.resembles.same]
    exact splits.up_known
  have upper := (explored down.engine down.visited split.up lower.evolves.ready up_known).2
  have combined (refutation : Option Explanation) :
      Runs down.engine
        (do
          return SearchState.combine split refutation
            (← guarded down.engine down.visited split.up))
        (SearchState.combine split refutation (explore down.engine down.visited split.up))
        (SearchState.combine split refutation
          (explore down.engine down.visited split.up)).engine := by
    rw [engine_combine]
    exact upper.bind (.pure (.refl _) _)
  cases down.result with
  | unsat refutation =>
    dsimp only
    split
    · exact combined (some refutation)
    · exact .pure (.refl _) _
  | unknown => exact combined none
  | sat model => exact .pure (.refl _) _
  | stopped => exact .pure (.refl _) _

/-- A search in a branch explores it, and its scope can be left. -/
theorem runs_explored {stop : StopCondition} {depth visited : Nat} (ready : e.Ready h)
    (none_rejected : h.rejected = []) (known : ∃ atom, e.atoms.get? l.atom = some atom)
    (searches : ∀ {e : Engine} {h : History} (visited : Nat), e.Ready h →
      Runs e (Guarded.search stop depth e visited) (search stop depth e visited)
        (search stop depth e visited).engine) :
    Explored h e l (search stop depth (e.enterBranch l) visited).leaveScope ∧
      Runs e (do
          let s ← Guarded.search stop depth (← Guarded.enterBranch e l) visited
          let left ← Guarded.popScope s.engine
          return { s with engine := left })
        (search stop depth (e.enterBranch l) visited).leaveScope
        (search stop depth (e.enterBranch l) visited).leaveScope.engine := by
  have entered := (ready.push.unchanged.trans (ready.enterBranch known).evolves).ready
  have searched := searched_search stop depth visited entered
  have formed := searched.evolves.ready.invariant.founded.formed
  exact ⟨searched.explored ready none_rejected known, (runs_enterBranch ready l).bind
    ((searches visited entered).bind ((runs_popScope formed).bind (.pure (.refl _) _)))⟩

/-- A search runs without failing, by induction on the depth that is left. -/
theorem runs_search (stop : StopCondition) (depth visited : Nat) (ready : e.Ready h) :
    Runs e (Guarded.search stop depth e visited) (search stop depth e visited)
      (search stop depth e visited).engine := by
  induction depth generalizing e h visited with
  | zero => exact .pure (.refl e) _
  | succ depth ih =>
    rw [Guarded.search, search]
    split
    · exact .pure (.refl e) _
    · refine (runs_check ready.invariant).bind ?_
      have first := ready.check
      have checks := checks_check ready.invariant
      have stands := checks.standing ready.standing
      generalize e.check = result at first checks stands
      obtain ⟨checked, verdict⟩ := result
      cases verdict with
      | sat => exact (Runs.lift (guarded_model checked)).bind (.pure (.refl _) _)
      | unsat explanation => exact .pure (.refl _) _
      | unknown => exact .pure (.refl _) _
      | branch split =>
        obtain ⟨splits, calm⟩ := checks.branch split rfl
        have none_rejected := stands.1.rejected calm
        exact runs_searchSides first.ready splits (fun e visited l ready known =>
          runs_explored ready none_rejected known fun visited ready => ih visited ready) (visited + 1)

theorem runs_solve (selector : Selector) (stop : StopCondition) (ready : e.Ready h) :
    Runs e (Guarded.solve e selector stop) (e.solve selector stop)
      (e.solve selector stop).engine := by
  have chosen : e.Becomes e.toState { e with selector := selector } := ⟨rfl, rfl⟩
  exact .start (runs_search stop e.depthLimit 0 (ready.quiet chosen).ready) chosen.sameStore

/-! ## Calls -/

namespace Guarded

/-- The engine after a call that may be answered by an error, given where the engine is in what else it
is answered by. -/
def attempt {α : Type} (e : Engine) (call : Guarded (Except EngineError α)) (engine : α → Engine) :
    Guarded Engine := do
  match ← call with
  | .ok a => return engine a
  | .error _ => return e

/-- The engine after a call, with everything checked that it relies on. -/
def perform (e : Engine) : Call → Guarded Engine
  | .mkVar sort term => do return (← mkVar e sort term).1
  | .setName v name => attempt e (setName e v name) id
  | .addRow base entries => attempt e (addRow e base entries) Prod.fst
  | .mkLinear sort term entries => attempt e (mkLinear e sort term entries) Prod.fst
  | .mkMonomial factors => attempt e (mkMonomial e factors) Prod.fst
  | .mkAtom v kind threshold => attempt e (mkAtom e v kind threshold) Prod.fst
  | .assertLiteral l => attempt e (assertLiteral e l) id
  | .assertEq v value => attempt e (assertEq e v value) Prod.fst
  | .assertGiven v kind value => attempt e (assertGiven e v kind value) id
  | .assertVarEq left right => attempt e (assertVarEq e left right) id
  | .propagate => do return (← propagate e).1
  | .check => do return (← check e).1
  | .solve selector stop => do return (← solve e selector stop).engine
  | .nextPropagation => return e.nextPropagation.1
  | .nextEquality => return e.nextEquality.1
  | .push => push e
  | .pop count => attempt e (pop e count) id
  | .retractTo m => attempt e (retractTo e m) id
  | .setSelector selector => return { e with selector := selector }
  | .setOracle oracle => return { e with oracle := oracle }
  | .setTracer tracer => return { e with tracer := tracer }

/-- The engine after some calls. -/
def run (e : Engine) (calls : List Call) : Guarded Engine := calls.foldlM perform e

end Guarded

end Engine

/-! ## Sessions -/

namespace Session

open Engine State

variable {base s : Session} {outer : History}

/-- A call that is answered by an error does nothing. -/
theorem runs_attempt {α : Type} {result : Except EngineError α} {body : Guarded α}
    (engine : α → Engine) (record : α → History → History)
    (succeeded : ∀ a, result = .ok a → Runs s.engine body a (engine a)) :
    Runs s.engine (Guarded.attempt s.engine (Guarded.unlessMisused result body) engine)
      (s.attempt result engine record).engine (s.attempt result engine record).engine := by
  cases result with
  | error misuse => exact .pure (.refl _) _
  | ok a => exact ((succeeded a rfl).bind (.pure (.refl _) (Except.ok a))).bind (.pure (.refl _) _)

/-- A call fails at nothing that the engine relies on, and leaves the engine that it leaves when nothing
is checked. -/
theorem runs_perform (within : Within base.engine outer s.engine s.history) (call : Call)
    (above : base.engine.depth ≤ (s.perform call).engine.depth) :
    Runs s.engine (Guarded.perform s.engine call) (s.perform call).engine
      (s.perform call).engine := by
  have ready := within.ready
  have inv := ready.invariant
  cases call with
  | mkVar sort term => exact (runs_mkVar s.engine sort term).bind (.pure (.refl _) _)
  | setName v name => exact runs_attempt _ _ fun _ ok => runs_setName ok
  | addRow b entries => exact runs_attempt _ _ fun _ ok => runs_addRow ok
  | mkLinear sort term entries => exact runs_attempt _ _ fun _ ok => runs_mkLinear ok
  | mkMonomial factors => exact runs_attempt _ _ fun _ ok => runs_mkMonomial ok
  | mkAtom v kind threshold => exact runs_attempt _ _ fun _ ok => runs_mkAtom inv ok
  | assertLiteral l => exact runs_attempt _ _ fun _ ok => runs_queueLiteral inv ok
  | assertEq v value => exact runs_attempt _ _ fun _ ok => runs_assertEq ready ok
  | assertGiven v kind value => exact runs_attempt _ _ fun _ ok => runs_assertGiven inv ok
  | assertVarEq left right => exact runs_attempt _ _ fun _ ok => runs_assertVarEq ready ok
  | propagate => exact (runs_propagate inv).bind (.pure (.refl _) _)
  | check => exact (runs_check inv).bind (.pure (.refl _) _)
  | solve selector stop => exact (runs_solve selector stop ready).bind (.pure (.refl _) _)
  | nextPropagation => exact .pure (by exact ⟨rfl, rfl, rfl⟩) _
  | nextEquality => exact .pure (by exact ⟨rfl, rfl, rfl⟩) _
  | push => exact runs_push s.engine
  | pop count =>
    refine runs_attempt _ _ fun _ ok => runs_pop within ok ?_
    simpa only [perform, ok, Session.attempt, id] using above
  | retractTo m =>
    refine runs_attempt _ _ fun _ ok => runs_retractTo within ok ?_
    simpa only [perform, ok, Session.attempt, id] using above
  | setSelector selector => exact .pure ⟨rfl, rfl, rfl⟩ _
  | setOracle oracle => exact .pure ⟨rfl, rfl, rfl⟩ _
  | setTracer tracer => exact .pure ⟨rfl, rfl, rfl⟩ _

/-- Calls that leave no scope which was open at the base fail at nothing that the engine relies on. -/
theorem runs_run (calls : List Call) (within : Within base.engine outer s.engine s.history)
    (above : s.StaysAbove calls base.engine.depth) :
    Runs s.engine (Guarded.run s.engine calls) (s.run calls).engine (s.run calls).engine := by
  induction calls generalizing s with
  | nil => exact .pure (.refl _) _
  | cons call rest ih =>
    have performed := above [call] (by simp)
    rw [Guarded.run, List.foldlM_cons]
    refine (runs_perform within call performed).bind (ih (within_perform within call performed) ?_)
    exact fun done prefix_rest => above (call :: done) (List.cons_prefix_cons.2 ⟨rfl, prefix_rest⟩)

/-- An empty store serves a new engine. -/
theorem serves_start (options : Options) (ratio : Nat) :
    (TableauSession.start ratio).Serves (Engine.new options).toState :=
  ⟨TableauSession.kept_start ratio, rfl, rfl⟩

/-- The guarded calls of an engine lead to what its calls lead to, by way of allowed calls. -/
theorem leadsTo_run (options : Options) (ratio : Nat) (calls : List Call) :
    ∃ store : TableauSession,
      Guarded.run (Engine.new options) calls (TableauSession.start ratio) =
        .ok (((start options).run calls).engine, store) ∧
      (TableauSession.start ratio).LeadsTo store ((start options).run calls).engine.toState := by
  have within : Within (start options).engine [] (start options).engine (start options).history :=
    .here (ready_new options).unchanged
  exact runs_run calls within (fun _ _ => Nat.zero_le _) _ (serves_start options ratio)

/-- Whatever calls are made, with whatever arguments, nothing fails that the engine relies on: from an
empty store the guarded calls lead to the engine that the calls lead to, and to a store of its tableau.
The explanation of a conflict and the values of a model are then found without failure too. -/
theorem guarded_run (options : Options) (ratio : Nat) (calls : List Call) :
    ∃ store : TableauSession,
      Guarded.run (Engine.new options) calls (TableauSession.start ratio) =
        .ok (((start options).run calls).engine, store) ∧
      store.store.view = ((start options).run calls).engine.tableau ∧
      Guarded.conflict ((start options).run calls).engine =
        .ok ((start options).run calls).engine.conflict ∧
      Guarded.model ((start options).run calls).engine =
        .ok ((start options).run calls).engine.model := by
  obtain ⟨store, ran, serves⟩ := leadsTo_run options ratio calls
  exact ⟨store, ran, serves.kept.view, guarded_conflict (ready_run options calls).invariant,
    guarded_model _⟩

end Session

end ArithDecide
