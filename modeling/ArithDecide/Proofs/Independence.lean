import ArithDecide.Proofs.Laziness
import ArithDecide.Proofs.MirroringChecks
import ArithDecide.Proofs.Turns

/-!
# What the answers do not depend on

The oracle says which terms are shared and which are preferred, names and trace are for the reader, and
the queue of reported equalities is for other theories. `Session.answers_agree` says that two runs of
the same calls, apart from those about these, give the same answers as long as no check asks the two
runs to split on different variables. Both are compared with a run to which nothing is shared: it gets
the same nodes in the same order, while the reasons of reported equalities come in between in the others.
-/

namespace ArithDecide

/-- A result does not split apart from itself. -/
theorem CheckResult.not_splitsApart_self (r : CheckResult) : ¬r.SplitsApart r := by
  rintro ⟨x, y, rfl, same, apart⟩
  obtain rfl := CheckResult.branch.inj same
  exact apart rfl

namespace Engine

open State

variable {ρ : Renaming} {o p : Oracle} {a b x y : Engine}

/-! ## Posing constraints -/

section Posing

variable (mirrors : Mirrors ρ o p a b)
include mirrors

/-- Putting a row into both tableaus keeps the engines agreeing. -/
theorem Mirrors.placeRow (base : Var) (form : LinearForm) :
    MirrorsWith ρ o p (a.placeRow base form) (b.placeRow base form) := by
  obtain ⟨x, y, r, at_a, at_b, added⟩ := (mirrors.pushRow base form).exists_eq
  have valued : Mirrors ρ o p
      (if a.options.eagerNormalization then x.normalizeRow r else x.setValue base (x.value base))
      (if a.options.eagerNormalization then y.normalizeRow r else y.setValue base (y.value base)) := by
    rw [added.value]
    split
    · exact added.normalizeRow r
    · exact added.setValue base _
  rw [Engine.placeRow, Engine.placeRow, mirrors.options, at_a, at_b]
  simp only
  have marked := valued.markToPatch base
  generalize (if a.options.eagerNormalization = true then x.normalizeRow r else _) = x at marked ⊢
  generalize (if a.options.eagerNormalization = true then y.normalizeRow r else _) = y at marked ⊢
  have inspected : Mirrors ρ o p
      { x.markToPatch base with touched := SortedSet.insert r x.touched }
      { y.markToPatch base with touched := SortedSet.insert r y.touched } :=
    { marked with touched := congrArg (SortedSet.insert r) marked.touched }
  exact ⟨inspected.declareChecking.trace _ _ _ _, rfl⟩

theorem Mirrors.addRow (base : Var) (entries : List (Var × Rat)) :
    Tries (MirrorsWith ρ o p) (a.addRow base entries) (b.addRow base entries) := by
  rw [Engine.addRow, Engine.addRow, requireVar_congr mirrors.numVars,
    requireEntries_congr mirrors.numVars, mirrors.tableau]
  refine (Tries.same rfl).bind fun _ _ _ => (Tries.same rfl).bind fun _ _ _ => ?_
  cases a.tableau.isFresh base with
  | false => exact .error _
  | true => exact .ok (mirrors.placeRow base _)

theorem Mirrors.mkLinear (sort : NumSort) (term : Term) (entries : List (Var × Rat)) :
    Tries (MirrorsWith ρ o p) (a.mkLinear sort term entries) (b.mkLinear sort term entries) := by
  rw [Engine.mkLinear, Engine.mkLinear, requireVar_congr mirrors.numVars]
  refine (Tries.same rfl).bind fun _ _ _ => ?_
  obtain ⟨x, y, base, at_a, at_b, grown⟩ := (mirrors.mkVar sort term).exists_eq
  rw [at_a, at_b]
  refine (grown.addRow base entries).bind fun x y placed => ?_
  exact .ok ⟨placed.engine, rfl⟩

theorem Mirrors.placeMonomial (sorted : List Var) :
    MirrorsWith ρ o p (a.placeMonomial sorted) (b.placeMonomial sorted) := by
  obtain ⟨x, y, v, at_a, at_b, grown⟩ := (mirrors.mkVar (a.jointSort sorted) .internal).exists_eq
  rw [Engine.placeMonomial, Engine.placeMonomial, jointSort_congr mirrors.isInt, at_a, at_b]
  exact ⟨{ grown with monomials := congrArg (· ++ [Monomial.mk v sorted]) grown.monomials }, rfl⟩

theorem Mirrors.mkMonomial (factors : List Var) :
    Tries (MirrorsWith ρ o p) (a.mkMonomial factors) (b.mkMonomial factors) := by
  rw [Engine.mkMonomial, Engine.mkMonomial, requireVar_congr mirrors.numVars, mirrors.monomials]
  split
  · exact .error _
  · refine (Tries.same rfl).bind fun _ _ _ => ?_
    simp only
    split
    · exact .ok ⟨mirrors, rfl⟩
    · exact .ok (mirrors.placeMonomial _)

theorem Mirrors.mkAtom (v : Var) (kind : BoundKind) (threshold : Rat) :
    Tries (MirrorsWith ρ o p) (a.mkAtom v kind threshold) (b.mkAtom v kind threshold) := by
  rw [Engine.mkAtom, Engine.mkAtom, requireVar_congr mirrors.numVars]
  exact (Tries.same rfl).bind fun _ _ _ => .ok (mirrors.internAtom v kind threshold)

/-- Asserting a literal fails in both engines or in none, and keeps them agreeing. -/
theorem Mirrors.assertLiteral (l : Literal) :
    Tries (Mirrors ρ o p) (a.assertLiteral l) (b.assertLiteral l) := by
  rw [Engine.assertLiteral, Engine.assertLiteral]
  have known : b.atoms.get? l.atom = a.atoms.get? l.atom := by rw [mirrors.atoms]
  have assigned : b.atoms.assign l = a.atoms.assign l := by rw [mirrors.atoms]
  rw [known, assigned]
  split
  · exact .error _
  · split
    · exact .ok { mirrors with atoms := rfl }
    · exact .ok mirrors
    · -- both literals get a leaf, in this order, and the conflict joins them
      obtain ⟨first, asserted⟩ := mirrors.dependencies.mkLiteral l
      obtain ⟨second, opposite⟩ := first.mkLiteral l.negate
      have noted : Mirrors ρ o p
          { a with dependencies := ((a.dependencies.mkLiteral l).1.mkLiteral l.negate).1 }
          { b with dependencies := ((b.dependencies.mkLiteral l).1.mkLiteral l.negate).1 } :=
        { mirrors with dependencies := second }
      obtain ⟨joined, same⟩ := noted.joinReasons
        [(a.dependencies.mkLiteral l).2, ((a.dependencies.mkLiteral l).1.mkLiteral l.negate).2]
      rw [List.map_cons, List.map_singleton, ← asserted, ← opposite] at joined same
      have failed := joined.setConflict (Engine.joinReasons
        ({ a with dependencies := ((a.dependencies.mkLiteral l).1.mkLiteral l.negate).1 } : Engine)
        [(a.dependencies.mkLiteral l).2, ((a.dependencies.mkLiteral l).1.mkLiteral l.negate).2]).2
      rw [← same] at failed
      exact .ok failed

theorem Mirrors.assertEq (v : Var) (value : Rat) :
    Tries (MirrorsWith ρ o p) (a.assertEq v value) (b.assertEq v value) := by
  rw [Engine.assertEq, Engine.assertEq]
  refine (mirrors.mkAtom v .lower value).bind fun x y first => ?_
  obtain ⟨x, y, lower, rfl, rfl, later⟩ := first.exists_eq
  refine (later.mkAtom v .upper value).bind fun x y second => ?_
  obtain ⟨x, y, upper, rfl, rfl, later⟩ := second.exists_eq
  refine (later.assertLiteral lower).bind fun x y later => ?_
  refine (later.assertLiteral upper).bind fun x y last => ?_
  exact .ok ⟨last, rfl⟩

theorem Mirrors.assertGiven (v : Var) (kind : BoundKind) (value : InfRat) :
    Tries (Mirrors ρ o p) (a.assertGiven v kind value) (b.assertGiven v kind value) := by
  rw [Engine.assertGiven, Engine.assertGiven, requireVar_congr mirrors.numVars]
  refine (Tries.same rfl).bind fun _ _ _ => .ok ?_
  have noted : Mirrors ρ o p { a with given := a.given ++ [GivenBound.mk v kind value] }
      { b with given := b.given ++ [GivenBound.mk v kind value] } :=
    { mirrors with given := congrArg (· ++ [GivenBound.mk v kind value]) mirrors.given }
  exact (noted.installBound v kind value none .given).engine

theorem Mirrors.fixDifference (difference left right : Var) :
    Mirrors ρ o p (a.fixDifference difference left right) (b.fixDifference difference left right) := by
  obtain ⟨arena, reason⟩ := mirrors.dependencies.mkEquality left right
  have noted : Mirrors ρ o p
      { a with dependencies := (a.dependencies.mkEquality left right).1 }
      { b with dependencies := (b.dependencies.mkEquality left right).1 } :=
    { mirrors with dependencies := arena }
  rw [Engine.fixDifference, Engine.fixDifference]
  simp only [reason]
  exact (Mirrors.forEach (fun later kind => later.installBound difference kind 0
    (a.dependencies.mkEquality left right).2 .derived) _ noted).engine

theorem Mirrors.assertVarEq (left right : Var) :
    Tries (Mirrors ρ o p) (a.assertVarEq left right) (b.assertVarEq left right) := by
  rw [Engine.assertVarEq, Engine.assertVarEq, requireVar_congr mirrors.numVars,
    jointSort_congr mirrors.isInt]
  refine (Tries.same rfl).bind fun _ _ _ => (Tries.same rfl).bind fun _ _ _ => ?_
  split
  · exact .ok mirrors
  · obtain ⟨x, y, difference, at_a, at_b, grown⟩ :=
      (mirrors.mkVar (a.jointSort [left, right]) .internal).exists_eq
    simp only [at_a, at_b]
    refine (grown.addRow difference _).bind fun x y placed => ?_
    exact .ok (placed.engine.fixDifference difference left right)

end Posing

/-! ## Shadows -/

/-- States that agree leave the same to be done once a scope was left. -/
theorem State.Mirrors.settle {s t : State} (mirrors : s.Mirrors ρ t) :
    s.settle.Mirrors ρ t.settle := by
  have bases : t.bases = s.bases := by
    rw [State.bases, State.bases, mirrors.vars, mirrors.kind]
  exact { mirrors with toPatch := bases, touched := rfl, propagations := rfl }

/-- The engines agree but for the numbers of nodes, nothing is shared with the first one, and leaving
scopes leads from both to states that agree likewise. -/
structure Shadows (a b : Engine) : Prop where
  mirrors : ∃ ρ, Mirrors ρ a.oracle b.oracle a b
  silent : ∀ term, a.oracle.sharesTerm term = false
  behind : ∀ count < a.depth, ∃ ρ,
    (State.leave^[count + 1] a.toState).Mirrors ρ (State.leave^[count + 1] b.toState)

theorem Shadows.depth (shadows : a.Shadows b) : b.depth = a.depth := by
  obtain ⟨_, mirrors⟩ := shadows.mirrors
  exact mirrors.depth

/-- Leaving a scope gives the same values back. -/
theorem State.Recalls.leave {s t : State} (recalls : s.Recalls t) : s.leave.Recalls t.leave := by
  obtain ⟨values, valueTrail, scopes, scopeId, scopesEntered⟩ := recalls
  cases at_s : s.scopes with
  | nil =>
    rw [at_s, List.map_nil, List.map_eq_nil_iff] at scopes
    rw [State.leave, State.leave, at_s, scopes]
    exact ⟨values, valueTrail, by rw [at_s, scopes], scopeId, scopesEntered⟩
  | cons scope outer =>
    rw [at_s, List.map_cons] at scopes
    obtain ⟨scope', outer', at_t, same, around⟩ := List.map_eq_cons_iff.1 scopes
    obtain ⟨numVars, length, parentId⟩ :
        scope'.numVars = scope.numVars ∧ scope'.valueTrail = scope.valueTrail ∧
          scope'.parentId = scope.parentId := by simpa [Scope.remembered] using same
    rw [State.leave_of_open at_s, State.leave_of_open at_t]
    refine ⟨?_, ?_, around, parentId, scopesEntered⟩
    · show (t.restoredValues scope'.valueTrail).take scope'.numVars =
        (s.restoredValues scope.valueTrail).take scope.numVars
      rw [State.restoredValues, State.restoredValues, values, valueTrail, numVars, length]
    · show t.valueTrail.drop (t.valueTrail.length - scope'.valueTrail) =
        s.valueTrail.drop (s.valueTrail.length - scope.valueTrail)
      rw [valueTrail, length]

theorem State.Recalls.leave_iterate {s t : State} (recalls : s.Recalls t) (count : Nat) :
    (State.leave^[count] s).Recalls (State.leave^[count] t) := by
  induction count generalizing s t with
  | zero => exact recalls
  | succ count ih => exact ih recalls.leave

/-- States that agree may have other values if these are the same in both. -/
theorem State.Mirrors.resembles {s t s' t' : State} (mirrors : s.Mirrors ρ t) (first : s.Resembles s')
    (second : t.Resembles t') (recalls : s'.Recalls t') : s'.Mirrors ρ t' := by
  rw [first.same, second.same] at recalls ⊢
  exact { mirrors with toRecalls := recalls }

/-- Whatever is done in the open scope changes the states around it in the same way, if at all. -/
theorem Shadows.inside (shadows : a.Shadows b) (inside_a : a.Inside x) (inside_b : b.Inside y)
    (mirrors : ∃ ρ, Mirrors ρ x.oracle y.oracle x y)
    (silent : ∀ term, x.oracle.sharesTerm term = false) : x.Shadows y where
  mirrors := mirrors
  silent := silent
  behind count lt := by
    rw [State.depth, inside_a.scopes] at lt
    obtain ⟨ρ, agree⟩ := shadows.behind count lt
    obtain ⟨_, mirrors⟩ := mirrors
    exact ⟨ρ, agree.resembles (leave_iterate_of_inside inside_a lt)
      (leave_iterate_of_inside inside_b (shadows.depth ▸ lt)) (mirrors.toRecalls.leave_iterate _)⟩

theorem Mirrors.push (mirrors : Mirrors ρ o p a b) : Mirrors ρ o p a.push b.push :=
  { mirrors with
    tableau := congrArg (fun t : Tableau => { t with recording := true }) mirrors.tableau
    scopes := by
      have same : b.toState.scope.remembered = a.toState.scope.remembered := by
        show (b.numVars, b.valueTrail.length, b.scopeId) = (a.numVars, a.valueTrail.length, a.scopeId)
        rw [mirrors.numVars, mirrors.valueTrail, mirrors.scopeId]
      exact congrArg₂ List.cons same mirrors.scopes
    scopeId := congrArg (fun entered => (entered + 1) % UInt32.size) mirrors.scopesEntered
    scopesEntered := congrArg (· + 1) mirrors.scopesEntered }

/-- Entering a scope in both engines keeps them agreeing, also where leaving it will lead. -/
theorem Shadows.push (shadows : a.Shadows b) (formed_a : a.Formed) (formed_b : b.Formed) :
    a.push.Shadows b.push where
  mirrors := by
    obtain ⟨ρ, mirrors⟩ := shadows.mirrors
    exact ⟨ρ, mirrors.push⟩
  silent := shadows.silent
  behind count lt := by
    have le : count ≤ a.depth := Nat.le_of_lt_succ lt
    obtain ⟨ρ, mirrors⟩ := shadows.mirrors
    have around : ∃ σ, (if count = 0 then a.toState.settle else State.leave^[count] a.toState).Mirrors σ
        (if count = 0 then b.toState.settle else State.leave^[count] b.toState) := by
      cases count with
      | zero => exact ⟨ρ, mirrors.settle⟩
      | succ count => exact shadows.behind count le
    obtain ⟨σ, agree⟩ := around
    exact ⟨σ, agree.resembles (leave_iterate_push formed_a le)
      (leave_iterate_push formed_b (shadows.depth ▸ le))
      (mirrors.push.toRecalls.leave_iterate (count + 1))⟩

/-- Leaving scopes keeps all settings. -/
theorem popScopes_eq (count : Nat) (e : Engine) : ∃ state stamps names tracer, popScopes count e =
    { e with toState := state, valueStamps := stamps, names := names, tracer := tracer } := by
  induction count generalizing e with
  | zero => exact ⟨_, _, _, _, rfl⟩
  | succ count ih =>
    have one : ∃ state stamps names tracer, e.popScope =
        { e with toState := state, valueStamps := stamps, names := names, tracer := tracer } := by
      rw [popScope]
      split <;> exact ⟨_, _, _, _, rfl⟩
    obtain ⟨_, _, _, _, left⟩ := one
    rw [popScopes, left]
    exact ih _

/-- The same stamps are cut off when scopes are left. -/
theorem valueStamps_popScopes (recalls : a.toState.Recalls b.toState)
    (valueStamps : b.valueStamps = a.valueStamps) (count : Nat) :
    (popScopes count b).valueStamps = (popScopes count a).valueStamps := by
  induction count generalizing a b with
  | zero => exact valueStamps
  | succ count ih =>
    refine ih ?_ ?_
    · rw [toState_popScope, toState_popScope]
      exact recalls.leave
    · have scopes := recalls.scopes
      rw [popScope, popScope]
      cases at_a : a.scopes with
      | nil =>
        rw [at_a, List.map_nil, List.map_eq_nil_iff] at scopes
        rw [scopes]
        exact valueStamps
      | cons scope outer =>
        rw [at_a, List.map_cons] at scopes
        obtain ⟨scope', outer', at_b, same, -⟩ := List.map_eq_cons_iff.1 scopes
        have numVars : scope'.numVars = scope.numVars := congrArg Prod.fst same
        rw [at_b]
        show b.valueStamps.take scope'.numVars = a.valueStamps.take scope.numVars
        rw [valueStamps, numVars]

theorem Mirrors.popScopes {σ : Renaming} (mirrors : Mirrors ρ o p a b) (count : Nat)
    (states : (State.leave^[count] a.toState).Mirrors σ (State.leave^[count] b.toState)) :
    Mirrors σ o p (popScopes count a) (popScopes count b) := by
  have stamps := valueStamps_popScopes mirrors.toRecalls mirrors.valueStamps count
  rw [← toState_popScopes, ← toState_popScopes] at states
  obtain ⟨_, _, _, _, at_a⟩ := popScopes_eq count a
  obtain ⟨_, _, _, _, at_b⟩ := popScopes_eq count b
  rw [at_a, at_b] at states stamps ⊢
  exact { mirrors with toMirrors := states, valueStamps := stamps }

/-- Leaving as many scopes of both engines leads to engines that agree. -/
theorem Shadows.popScopes {count : Nat} (shadows : a.Shadows b) (le : count ≤ a.depth) :
    (popScopes count a).Shadows (popScopes count b) := by
  have oracle (e : Engine) : (Engine.popScopes count e).oracle = e.oracle := by
    obtain ⟨_, _, _, _, left⟩ := popScopes_eq count e
    rw [left]
  obtain ⟨ρ, mirrors⟩ := shadows.mirrors
  refine ⟨?_, ?_, fun further lt => ?_⟩
  · rw [oracle, oracle]
    cases count with
    | zero => exact ⟨ρ, mirrors⟩
    | succ count =>
      obtain ⟨σ, states⟩ := shadows.behind count le
      exact ⟨σ, mirrors.popScopes (count + 1) states⟩
  · rw [oracle]
    exact shadows.silent
  · rw [depth_popScopes] at lt
    rw [toState_popScopes, toState_popScopes, ← Function.iterate_add_apply,
      ← Function.iterate_add_apply, Nat.add_right_comm]
    exact shadows.behind (further + count) (Nat.add_lt_of_lt_sub lt)

theorem Shadows.pop (shadows : a.Shadows b) (count : Nat) :
    Tries Shadows (a.pop count) (b.pop count) := by
  rw [Engine.pop, Engine.pop, shadows.depth]
  split
  · exact .error _
  · rename_i enough
    exact .ok (shadows.popScopes (Nat.le_of_not_lt enough))

theorem Shadows.retractTo (shadows : a.Shadows b) (m : Mark) :
    Tries Shadows (a.retractTo m) (b.retractTo m) := by
  rw [Engine.retractTo, Engine.retractTo, shadows.depth]
  split
  · exact .error _
  · exact shadows.pop _

/-! ## Answers -/

/-- The engines cannot be told apart by what they answer, unless their checks ask for case splits on
different variables. -/
structure AnswersAgree (a b : Engine) : Prop where
  check : b.check.2 = a.check.2 ∨ a.check.2.SplitsApart b.check.2
  propagate : b.propagate.2 = a.propagate.2
  conflict : b.conflict = a.conflict
  nextPropagation : b.nextPropagation.2 = a.nextPropagation.2
  model : b.model = a.model
  value : ∀ v, b.value v = a.value v
  bound : ∀ v kind, b.bounds.value v kind = a.bounds.value v kind
  pop : ∀ count, (b.pop count).map (fun _ => ()) = (a.pop count).map fun _ => ()

theorem Tries.map_unit {α : Type} {R : α → α → Prop} {x y : Except EngineError α}
    (tries : Tries R x y) : y.map (fun _ => ()) = x.map fun _ => () := by
  cases tries <;> rfl

theorem Shadows.answersAgree {h : History} (shadows : a.Shadows b) (inv : a.Invariant h) :
    a.AnswersAgree b := by
  obtain ⟨ρ, mirrors⟩ := shadows.mirrors
  obtain ⟨σ, propagated⟩ := mirrors.propagate inv shadows.silent
  exact
    { check := (mirrors.check inv shadows.silent).imp (fun ⟨_, checked⟩ => checked.answer) And.right
      propagate := propagated.answer
      conflict := mirrors.conflict
      nextPropagation := congrArg List.head? mirrors.propagations
      model := mirrors.model
      value := congrFun mirrors.value
      bound := fun v kind => by rw [mirrors.boundValue]
      pop := fun count => (shadows.pop count).map_unit }

/-- A check of an engine that prefers the same terms as its shadow answers as the shadow does. -/
theorem Shadows.check {h : History} (shadows : a.Shadows b) (inv : a.Invariant h)
    (prefers : a.oracle.prefersTerm = b.oracle.prefersTerm) : b.check.2 = a.check.2 := by
  obtain ⟨ρ, mirrors⟩ := shadows.mirrors
  rcases mirrors.check inv shadows.silent with ⟨σ, checked⟩ | ⟨differ, -⟩
  · exact checked.answer
  · exact absurd prefers differ

end Engine

/-- Whether a call is only about oracle, names, trace or the queue of equalities. -/
def Call.isSilent : Call → Bool
  | .setName _ _ => true
  | .nextEquality => true
  | .setOracle _ => true
  | .setTracer _ => true
  | _ => false

/-- Whether a call enters or leaves scopes. -/
def Call.isScoping : Call → Bool
  | .push => true
  | .pop _ => true
  | .retractTo _ => true
  | _ => false

/-- The calls that are not silent. -/
def Call.spoken (calls : List Call) : List Call := calls.filter fun call => !call.isSilent

theorem Call.of_isSilent (call : Call) (silent : call.isSilent = true) :
    call.isSearch = false ∧ call.isScoping = false := by
  cases call <;> first | exact ⟨rfl, rfl⟩ | cases silent

/-- The same oracle, but nothing is shared. -/
def Oracle.muted (oracle : Oracle) : Oracle := { oracle with isShared := fun _ => false }

theorem Oracle.sharesTerm_muted (oracle : Oracle) (term : Term) :
    oracle.muted.sharesTerm term = false := by
  cases term <;> rfl

namespace Session

open Engine

variable {ρ : Renaming} {o p : Oracle} {s t : Session} {call : Call}

/-! ## Single calls -/

theorem inside_attempt {α : Type} {result : Except EngineError α} {engine : α → Engine}
    {record : α → History → History}
    (succeeded : ∀ a, result = .ok a → s.engine.Inside (engine a)) :
    s.engine.Inside (s.attempt result engine record).engine := by
  cases result with
  | ok a => exact succeeded a rfl
  | error _ => exact .refl _

/-- A call that neither searches nor enters or leaves scopes stays inside the open one. -/
theorem inside_perform (ready : s.engine.Ready s.history) (plain : call.isSearch = false)
    (level : call.isScoping = false) : s.engine.Inside (s.perform call).engine := by
  have evolved {next : Engine} {h : History} (evolves : Evolves s.engine next h) :
      s.engine.Inside next := evolves.inside
  cases call with
  | mkVar sort term => exact evolved (ready.mkVar sort term)
  | setName v name => exact inside_attempt fun _ ok => (ready.setName ok).inside
  | addRow base entries => exact inside_attempt fun _ ok => (ready.addRow ok).1.inside
  | mkLinear sort term entries => exact inside_attempt fun _ ok => (ready.mkLinear ok).inside
  | mkMonomial factors => exact inside_attempt fun _ ok => (ready.mkMonomial ok).inside
  | mkAtom v kind threshold => exact inside_attempt fun _ ok => (ready.mkAtom ok).inside
  | assertLiteral l => exact inside_attempt fun _ ok => (ready.assertLiteral ok).inside
  | assertEq v value => exact inside_attempt fun _ ok => (ready.assertEq ok).inside
  | assertGiven v kind value => exact inside_attempt fun _ ok => (ready.assertGiven ok).inside
  | assertVarEq left right => exact inside_attempt fun _ ok => (ready.assertVarEq ok).inside
  | propagate => exact evolved ready.propagate
  | check => exact evolved ready.check
  | nextPropagation =>
    exact evolved (ready.requeue (fun _ => List.mem_of_mem_tail) ⟨rfl, rfl⟩)
  | nextEquality => exact evolved (ready.requeue (fun _ => id) ⟨rfl, rfl⟩)
  | setSelector selector => exact evolved (ready.quiet ⟨rfl, rfl⟩)
  | setOracle oracle => exact evolved (ready.quiet ⟨rfl, rfl⟩)
  | setTracer tracer => exact evolved (ready.quiet ⟨rfl, rfl⟩)
  | solve selector stop => cases plain
  | push => cases level
  | pop count => cases level
  | retractTo m => cases level

/-- A call that both sessions make keeps their engines related, unless it is a check and they ask to
split on different variables. -/
theorem mirrors_perform (mirrors : Mirrors ρ o p s.engine t.engine)
    (inv : s.engine.Invariant s.history) (silent : ∀ term, o.sharesTerm term = false)
    (loud : call.isSilent = false) (plain : call.isSearch = false)
    (level : call.isScoping = false) :
    (∃ σ, Mirrors σ o p (s.perform call).engine (t.perform call).engine) ∨
      (call = .check ∧ s.engine.check.2.SplitsApart t.engine.check.2) := by
  have kept {x y : Engine} {apart : Prop} (later : Mirrors ρ o p x y) :
      (∃ σ, Mirrors σ o p x y) ∨ apart := .inl ⟨ρ, later⟩
  cases call with
  | mkVar sort term => exact kept (mirrors.mkVar sort term).engine
  | addRow base entries =>
    exact kept (attempt_related mirrors (mirrors.addRow base entries) fun _ _ => MirrorsWith.engine)
  | mkLinear sort term entries =>
    exact kept (attempt_related mirrors (mirrors.mkLinear sort term entries)
      fun _ _ => MirrorsWith.engine)
  | mkMonomial factors =>
    exact kept (attempt_related mirrors (mirrors.mkMonomial factors) fun _ _ => MirrorsWith.engine)
  | mkAtom v kind threshold =>
    exact kept (attempt_related mirrors (mirrors.mkAtom v kind threshold)
      fun _ _ => MirrorsWith.engine)
  | assertLiteral l => exact kept (attempt_related mirrors (mirrors.assertLiteral l) fun _ _ => id)
  | assertEq v value =>
    exact kept (attempt_related mirrors (mirrors.assertEq v value) fun _ _ => MirrorsWith.engine)
  | assertGiven v kind value =>
    exact kept (attempt_related mirrors (mirrors.assertGiven v kind value) fun _ _ => id)
  | assertVarEq left right =>
    exact kept (attempt_related mirrors (mirrors.assertVarEq left right) fun _ _ => id)
  | propagate =>
    obtain ⟨σ, propagated⟩ := mirrors.propagate inv silent
    exact .inl ⟨σ, propagated.engine⟩
  | check =>
    exact (mirrors.check inv silent).imp (fun ⟨σ, checked⟩ => ⟨σ, checked.engine⟩)
      fun ⟨_, apart⟩ => ⟨rfl, apart⟩
  | nextPropagation =>
    exact kept { mirrors with propagations := congrArg List.tail mirrors.propagations }
  | setSelector selector => exact kept { mirrors with selector := rfl }
  | setName v name => cases loud
  | nextEquality => cases loud
  | setOracle oracle => cases loud
  | setTracer tracer => cases loud
  | solve selector stop => cases plain
  | push => cases level
  | pop count => cases level
  | retractTo m => cases level

/-- A call about oracle, names, trace or reported equalities does not change what the shadow shows. -/
theorem shadows_silent {e : Engine} (shadows : e.Shadows t.engine) (ready : t.engine.Ready t.history)
    (silent : call.isSilent = true) : e.Shadows (t.perform call).engine := by
  obtain ⟨plain, level⟩ := call.of_isSilent silent
  obtain ⟨ρ, mirrors⟩ := shadows.mirrors
  refine shadows.inside (.refl _) (inside_perform ready plain level) ⟨ρ, ?_⟩ shadows.silent
  cases call with
  | setName v name =>
    rw [perform, Engine.setName]
    cases t.engine.requireVar v with
    | ok _ => exact { mirrors with }
    | error _ => exact mirrors
  | nextEquality => exact { mirrors with }
  | setOracle oracle => exact { mirrors with second := rfl }
  | setTracer tracer => exact { mirrors with }
  | _ => cases silent

/-- A call that both sessions make keeps the first one a shadow of the second one, unless it is a check
and the engines ask to split on different variables. -/
theorem shadows_perform (shadows : s.engine.Shadows t.engine) (ready_s : s.engine.Ready s.history)
    (ready_t : t.engine.Ready t.history) (loud : call.isSilent = false)
    (plain : call.isSearch = false) :
    (s.perform call).engine.Shadows (t.perform call).engine ∨
      (call = .check ∧ s.engine.check.2.SplitsApart t.engine.check.2) := by
  cases level : call.isScoping with
  | false =>
    obtain ⟨ρ, mirrors⟩ := shadows.mirrors
    refine (mirrors_perform mirrors ready_s.invariant shadows.silent loud plain level).imp_left
      fun ⟨σ, later⟩ => ?_
    refine shadows.inside (inside_perform ready_s plain level) (inside_perform ready_t plain level)
      ⟨σ, ?_⟩ (later.first ▸ shadows.silent)
    rw [later.first, later.second]
    exact later
  | true =>
    refine .inl ?_
    cases call with
    | push => exact shadows.push ready_s.invariant.founded.formed ready_t.invariant.founded.formed
    | pop count => exact attempt_related shadows (shadows.pop count) fun _ _ => id
    | retractTo m => exact attempt_related shadows (shadows.retractTo m) fun _ _ => id
    | _ => cases level

/-! ## Runs -/

/-- The same calls in the same order, but for silent ones. -/
inductive Aligned : List Call → List Call → Prop
  | nil : Aligned [] []
  | left {first second : List Call} {call : Call} (aligned : Aligned first second)
    (silent : call.isSilent = true) : Aligned (first ++ [call]) second
  | right {first second : List Call} {call : Call} (aligned : Aligned first second)
    (silent : call.isSilent = true) : Aligned first (second ++ [call])
  | both {first second : List Call} {call : Call} (aligned : Aligned first second)
    (loud : call.isSilent = false) : Aligned (first ++ [call]) (second ++ [call])

theorem spoken_silent (calls : List Call) (silent : call.isSilent = true) :
    Call.spoken (calls ++ [call]) = Call.spoken calls := by
  rw [Call.spoken, List.filter_append, List.filter_cons_of_neg (by simp [silent])]
  exact List.append_nil _

theorem spoken_loud (calls : List Call) (loud : call.isSilent = false) :
    Call.spoken (calls ++ [call]) = Call.spoken calls ++ [call] := by
  rw [Call.spoken, List.filter_append, List.filter_cons_of_pos (by simp [loud])]
  rfl

theorem Aligned.spoken {first second : List Call} (aligned : Aligned first second) :
    Call.spoken second = Call.spoken first := by
  induction aligned with
  | nil => rfl
  | left _ silent ih => rw [spoken_silent _ silent, ih]
  | right _ silent ih => rw [spoken_silent _ silent, ih]
  | both _ loud ih => rw [spoken_loud _ loud, spoken_loud _ loud, ih]

/-- Calls are the same but for silent ones if they are the same once silent ones are left out. -/
theorem aligned_of_spoken {first second : List Call}
    (same : Call.spoken second = Call.spoken first) : Aligned first second := by
  induction first using List.reverseRecOn generalizing second with
  | nil =>
    induction second using List.reverseRecOn with
    | nil => exact .nil
    | append_singleton second last ih =>
      cases silent : last.isSilent with
      | true => exact .right (ih (by rwa [spoken_silent _ silent] at same)) silent
      | false =>
        rw [spoken_loud _ silent] at same
        cases List.append_ne_nil_of_right_ne_nil _ (List.cons_ne_nil _ _) same
  | append_singleton first call outer =>
    cases silent : call.isSilent with
    | true => exact .left (outer (by rwa [spoken_silent _ silent] at same)) silent
    | false =>
      -- the call is the last one of the other sequence too, up to silent ones after it
      rw [spoken_loud _ silent] at same
      induction second using List.reverseRecOn with
      | nil => cases List.append_ne_nil_of_right_ne_nil _ (List.cons_ne_nil _ _) same.symm
      | append_singleton second last inner =>
        cases quiet : last.isSilent with
        | true => exact .right (inner (by rwa [spoken_silent _ quiet] at same)) quiet
        | false =>
          rw [spoken_loud _ quiet] at same
          obtain ⟨before, rfl⟩ := List.append_singleton_inj.1 same
          exact .both (outer before) quiet

/-- An engine agrees with itself at the start: it has no nodes, so nothing needs to be renamed. -/
theorem shadows_start (options : Options) :
    (start options).engine.Shadows (start options).engine where
  mirrors := ⟨RelEmbedding.refl _,
    { values := rfl
      valueTrail := rfl
      scopes := rfl
      scopeId := rfl
      scopesEntered := rfl
      columns := rfl
      tableau := rfl
      bounds := (BoundStore.rename_empty _).symm
      dependencies := DependencyArena.embeds_empty
      atoms := rfl
      monomials := rfl
      given := rfl
      status := rfl
      toPatch := rfl
      touched := rfl
      propagations := rfl
      valueStamps := rfl
      first := rfl
      second := rfl
      options := rfl
      selector := rfl
      integerChecks := rfl }⟩
  silent term := by cases term <;> rfl
  behind _ lt := absurd lt (Nat.not_lt_zero _)

/-- No check asks the two sessions to split on different variables. -/
def Together (options : Options) (first second : List Call) : Prop :=
  ∀ before after, before ++ [.check] <+: first → after ++ [.check] <+: second →
    Call.spoken after = Call.spoken before →
    ¬((start options).run before).engine.check.2.SplitsApart ((start options).run after).engine.check.2

theorem Together.before {options : Options} {first second before after : List Call}
    (together : Together options first second) (of_first : before <+: first)
    (of_second : after <+: second) : Together options before after :=
  fun _ _ checks_first checks_second =>
    together _ _ (checks_first.trans of_first) (checks_second.trans of_second)

/-- A common shadow of two engines may be taken to prefer the same terms as the first of them. -/
theorem exists_preferring (options : Options) (calls : List Call) {a b : Engine}
    (of_first : ((start options).run calls).engine.Shadows a)
    (of_second : ((start options).run calls).engine.Shadows b) :
    ∃ calls, ((start options).run calls).engine.Shadows a ∧
      ((start options).run calls).engine.Shadows b ∧
      ((start options).run calls).engine.oracle.prefersTerm = a.oracle.prefersTerm := by
  have ready := ready_run options calls
  have turned {e : Engine} (shadows : ((start options).run calls).engine.Shadows e) :
      (((start options).run calls).perform (.setOracle a.oracle.muted)).engine.Shadows e := by
    obtain ⟨ρ, mirrors⟩ := shadows.mirrors
    exact shadows.inside (inside_perform ready rfl rfl) (.refl _) ⟨ρ, { mirrors with first := rfl }⟩
      a.oracle.sharesTerm_muted
  refine ⟨calls ++ [.setOracle a.oracle.muted], ?_⟩
  rw [run_append]
  exact ⟨turned of_first, turned of_second, rfl⟩

/-- The engines of both sessions have a common shadow, reached by some calls. -/
theorem exists_shadow (options : Options) {first second : List Call} (aligned : Aligned first second)
    (plain : ∀ call ∈ first, call.isSearch = false) (together : Together options first second) :
    ∃ calls, ((start options).run calls).engine.Shadows ((start options).run first).engine ∧
      ((start options).run calls).engine.Shadows ((start options).run second).engine := by
  induction aligned with
  | nil => exact ⟨[], shadows_start options, shadows_start options⟩
  | @left first second call aligned silent ih =>
    obtain ⟨calls, of_first, of_second⟩ := ih
      (fun other made => plain other (List.mem_append_left _ made))
      (together.before (List.prefix_append _ _) (List.prefix_refl _))
    refine ⟨calls, ?_, of_second⟩
    rw [run_append]
    exact shadows_silent of_first (ready_run options first) silent
  | @right first second call aligned silent ih =>
    obtain ⟨calls, of_first, of_second⟩ := ih plain
      (together.before (List.prefix_refl _) (List.prefix_append _ _))
    refine ⟨calls, of_first, ?_⟩
    rw [run_append]
    exact shadows_silent of_second (ready_run options second) silent
  | @both first second call aligned loud ih =>
    obtain ⟨calls, of_first, of_second⟩ := ih
      (fun other made => plain other (List.mem_append_left _ made))
      (together.before (List.prefix_append _ _) (List.prefix_append _ _))
    have plain := plain call (List.mem_append_right _ (List.mem_singleton_self call))
    -- the shadow is to split on the same variables as the first engine
    obtain ⟨calls, of_first, of_second, prefers⟩ := exists_preferring options calls of_first of_second
    have ready := ready_run options calls
    have same := of_first.check ready.invariant prefers
    refine ⟨calls ++ [call], ?_, ?_⟩
    all_goals rw [run_append, run_append]
    · rcases shadows_perform of_first ready (ready_run options first) loud plain with later | ⟨-, apart⟩
      · exact later
      · rw [same] at apart
        exact absurd apart (CheckResult.not_splitsApart_self _)
    · rcases shadows_perform of_second ready (ready_run options second) loud plain
        with later | ⟨rfl, apart⟩
      · exact later
      · rw [← same] at apart
        exact absurd apart (together first second (List.prefix_refl _) (List.prefix_refl _)
          aligned.spoken)

/-- Oracles, names, trace and the queue of reported equalities have no influence on answers: two runs
of the same calls, apart from those about these, agree on all answers as long as no check asks them to
split on different variables. -/
theorem answers_agree (options : Options) (first second : List Call)
    (plain : ∀ call ∈ first, call.isSearch = false) (same : Call.spoken second = Call.spoken first)
    (together : Together options first second) :
    ((start options).run first).engine.AnswersAgree ((start options).run second).engine := by
  obtain ⟨calls, of_first, of_second⟩ := exists_shadow options (aligned_of_spoken same) plain together
  obtain ⟨calls, of_first, of_second, prefers⟩ := exists_preferring options calls of_first of_second
  have inv := (ready_run options calls).invariant
  have check := of_first.check inv prefers
  have agree_first := of_first.answersAgree inv
  have agree_second := of_second.answersAgree inv
  exact
    { check := by rw [check]; exact agree_second.check
      propagate := agree_second.propagate.trans agree_first.propagate.symm
      conflict := agree_second.conflict.trans agree_first.conflict.symm
      nextPropagation := agree_second.nextPropagation.trans agree_first.nextPropagation.symm
      model := agree_second.model.trans agree_first.model.symm
      value := fun v => (agree_second.value v).trans (agree_first.value v).symm
      bound := fun v kind => (agree_second.bound v kind).trans (agree_first.bound v kind).symm
      pop := fun count => (agree_second.pop count).trans (agree_first.pop count).symm }

/-- Two integers that are asserted to be 3. -/
def bothThree : List Call :=
  [.mkVar .int (.external 0), .mkVar .int (.external 1), .assertEq 0 3, .assertEq 1 3, .propagate]

/-- Their difference is asserted to be 1. -/
def oneApart : List Call := [.mkLinear .int .internal [(0, 1), (1, -1)], .assertEq 2 1]

/-- Every term is shared, and the caller asks what was found to be equal. -/
def sharing : List Call :=
  .setOracle { Oracle.detached with isShared := fun _ => true } :: bothThree ++ .nextEquality :: oneApart

/-- No term is shared, and the caller gives a name. -/
def naming : List Call := bothThree ++ .setName 0 "left" :: oneApart

/-- The equality takes a node when it is reported, and the checks answer with the same refutation. -/
theorem answers_agree_sharing :
    ((start {}).run naming).engine.dependencies.nodes.size ≠
        ((start {}).run sharing).engine.dependencies.nodes.size ∧
      ((start {}).run (naming ++ [.check])).engine.conflict =
        ((start {}).run (sharing ++ [.check])).engine.conflict := by
  refine ⟨by cbv, (answers_agree {} (sharing ++ [.check]) (naming ++ [.check]) (by decide) rfl
    fun before after checks _ _ apart => ?_).conflict⟩
  rcases List.prefix_concat_iff.1 checks with last | earlier
  · obtain rfl := List.append_cancel_right last
    have refuted : ((start {}).run sharing).engine.check.2 =
        .unsat ⟨[⟨1, false⟩, ⟨2, false⟩, ⟨4, false⟩], []⟩ := by cbv
    obtain ⟨split, -, asks, -⟩ := apart
    cases refuted.symm.trans asks
  · have made := earlier.subset (List.mem_append_right before (List.mem_singleton_self Call.check))
    simp [sharing, bothThree, oneApart] at made

end Session

end ArithDecide
