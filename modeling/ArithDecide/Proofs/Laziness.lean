import Mathlib
import ArithDecide.Proofs.AlikeChecks
import ArithDecide.Proofs.Deferring
import ArithDecide.Proofs.Stability
import ArithDecide.Proofs.Turns

/-!
# Reducing new rows at once or at the next propagation

It makes no difference for the answers of the engine whether a new row is put into reduced form when it
is added or when the next propagation needs it. Two sessions whose engines differ in that option only,
with the same calls that leave no scope, stay related by `Engine.Deferred`: `Session.deferred_run`. The
first thing that a propagation does is to make this relation an equality.
-/

namespace ArithDecide

namespace Engine

open State

variable {V : Core → Core → Prop} {o p : Options} {a b : Engine}

/-! ## Calls that may fail -/

/-- Both calls fail with the same error, or both succeed with related results. -/
inductive Tries {α : Type} (R : α → α → Prop) : Except EngineError α → Except EngineError α → Prop
  | ok {x y : α} (related : R x y) : Tries R (.ok x) (.ok y)
  | error (error : EngineError) : Tries R (.error error) (.error error)

theorem Tries.same {α : Type} {x y : Except EngineError α} (same : y = x) : Tries Eq x y := by
  subst same
  cases y with
  | ok a => exact .ok rfl
  | error error => exact .error error

theorem Tries.bind {α β : Type} {R : α → α → Prop} {S : β → β → Prop} {x y : Except EngineError α}
    {f g : α → Except EngineError β} (tries : Tries R x y)
    (next : ∀ a b, R a b → Tries S (f a) (g b)) : Tries S (x >>= f) (y >>= g) := by
  cases tries with
  | ok related => exact next _ _ related
  | error error => exact .error error

theorem requireVar_congr (same : b.numVars = a.numVars) : b.requireVar = a.requireVar := by
  funext v
  rw [Engine.requireVar, Engine.requireVar, State.hasVar, State.hasVar, same]

theorem requireEntries_congr (same : b.numVars = a.numVars) (base : Var)
    (entries : List (Var × Rat)) : b.requireEntries base entries = a.requireEntries base entries := by
  induction entries with
  | nil => rfl
  | cons entry rest ih =>
    rw [Engine.requireEntries, Engine.requireEntries, requireVar_congr same, ih]

theorem jointSort_congr (same : b.isInt = a.isInt) (vs : List Var) :
    b.jointSort vs = a.jointSort vs := by
  rw [Engine.jointSort, Engine.jointSort, same]

section Requirements

variable (alike : Alike V o p a b)
include alike

theorem Alike.mkAtom (v : Var) (kind : BoundKind) (threshold : Rat) :
    Tries (AlikeWith V o p) (a.mkAtom v kind threshold) (b.mkAtom v kind threshold) := by
  rw [Engine.mkAtom, Engine.mkAtom, requireVar_congr alike.numVars]
  exact (Tries.same rfl).bind fun _ _ _ => .ok (alike.internAtom v kind threshold)

theorem Alike.setName (v : Var) (name : String) :
    Tries (Alike V o p) (a.setName v name) (b.setName v name) := by
  rw [Engine.setName, Engine.setName, requireVar_congr alike.numVars]
  exact (Tries.same rfl).bind fun _ _ _ => .ok { alike with }

/-- Asserting a literal fails in both engines or in none, and is queued, redundant or conflicting alike.
-/
theorem Alike.assertLiteral (l : Literal) :
    Tries (Alike V o p) (a.assertLiteral l) (b.assertLiteral l) := by
  have known : b.atoms.get? l.atom = a.atoms.get? l.atom := by rw [alike.atoms]
  have assigned : b.atoms.assign l = a.atoms.assign l := by rw [alike.atoms]
  rw [Engine.assertLiteral, Engine.assertLiteral, known, assigned]
  split
  · exact .error _
  · split
    · exact .ok { alike with atoms := rfl }
    · exact .ok alike
    · -- both literals get a leaf, in this order, and the conflict joins them
      have first : b.dependencies.mkLiteral l = a.dependencies.mkLiteral l := by
        rw [alike.dependencies]
      simp only [first]
      have noted : Alike V o p
          { a with dependencies := ((a.dependencies.mkLiteral l).1.mkLiteral l.negate).1 }
          { b with dependencies := ((a.dependencies.mkLiteral l).1.mkLiteral l.negate).1 } :=
        { alike with dependencies := rfl }
      obtain ⟨joined, same⟩ := noted.joinReasons
        [(a.dependencies.mkLiteral l).2, ((a.dependencies.mkLiteral l).1.mkLiteral l.negate).2]
      rw [same]
      exact .ok (joined.setConflict _)

theorem Alike.assertEq (v : Var) (value : Rat) :
    Tries (AlikeWith V o p) (a.assertEq v value) (b.assertEq v value) := by
  rw [Engine.assertEq, Engine.assertEq]
  refine (alike.mkAtom v .lower value).bind fun x y first => ?_
  obtain ⟨x, y, lower, rfl, rfl, later⟩ := first.exists_eq
  refine (later.mkAtom v .upper value).bind fun x y second => ?_
  obtain ⟨x, y, upper, rfl, rfl, later⟩ := second.exists_eq
  refine (later.assertLiteral lower).bind fun x y later => ?_
  refine (later.assertLiteral upper).bind fun x y last => ?_
  exact .ok ⟨last, rfl⟩

end Requirements

section Deferred

variable (alike : Alike Deferred o p a b)
include alike

theorem Alike.placeMonomial (sorted : List Var) :
    AlikeWith Deferred o p (a.placeMonomial sorted) (b.placeMonomial sorted) := by
  obtain ⟨x, y, v, at_a, at_b, grown⟩ :=
    (alike.mkVarBoth (a.jointSort sorted) .internal).exists_eq
  rw [Engine.placeMonomial, Engine.placeMonomial, jointSort_congr alike.isInt, at_a, at_b]
  have traced := grown.trace .nonlinear .nonlinear
    (fun _ => v.text ++ " = " ++ "·".intercalate (sorted.map x.varName))
    (fun _ => v.text ++ " = " ++ "·".intercalate (sorted.map y.varName))
  exact ⟨{ traced with monomials := congrArg (· ++ [Monomial.mk v sorted]) grown.monomials }, rfl⟩

theorem Alike.mkMonomial (factors : List Var) :
    Tries (AlikeWith Deferred o p) (a.mkMonomial factors) (b.mkMonomial factors) := by
  have found (sorted : List Var) : (b.monomials.find? fun m => m.factors == sorted) =
      a.monomials.find? fun m => m.factors == sorted := by rw [alike.monomials]
  rw [Engine.mkMonomial, Engine.mkMonomial, requireVar_congr alike.numVars]
  split
  · exact .error _
  · refine (Tries.same rfl).bind fun _ _ _ => ?_
    simp only [found]
    split
    · exact .ok ⟨alike, rfl⟩
    · exact .ok (alike.placeMonomial _)

theorem Alike.assertGiven (v : Var) (kind : BoundKind) (value : InfRat) :
    Tries (Alike Deferred o p) (a.assertGiven v kind value) (b.assertGiven v kind value) := by
  rw [Engine.assertGiven, Engine.assertGiven, requireVar_congr alike.numVars]
  refine (Tries.same rfl).bind fun _ _ _ => .ok ?_
  have noted : Alike Deferred o p { a with given := a.given ++ [GivenBound.mk v kind value] }
      { b with given := b.given ++ [GivenBound.mk v kind value] } :=
    { alike with given := congrArg (· ++ [GivenBound.mk v kind value]) alike.given }
  exact (keptByBounds_deferred.installBound noted v kind value none .given).engine

theorem Alike.fixDifference (difference left right : Var) :
    Alike Deferred o p (a.fixDifference difference left right)
      (b.fixDifference difference left right) := by
  have first : b.dependencies.mkEquality left right = a.dependencies.mkEquality left right := by
    rw [alike.dependencies]
  have noted : Alike Deferred o p
      { a with dependencies := (a.dependencies.mkEquality left right).1 }
      { b with dependencies := (a.dependencies.mkEquality left right).1 } :=
    { alike with dependencies := rfl }
  rw [Engine.fixDifference, Engine.fixDifference, first]
  exact (Alike.forEach (fun later kind => keptByBounds_deferred.installBound later difference kind 0
    (a.dependencies.mkEquality left right).2 .derived) _ noted).engine

variable (lazy : o.eagerNormalization = false) (eager : p.eagerNormalization = true)
include lazy eager

theorem Alike.addRow (base : Var) (entries : List (Var × Rat)) :
    Tries (AlikeWith Deferred o p) (a.addRow base entries) (b.addRow base entries) := by
  rw [Engine.addRow, Engine.addRow, requireVar_congr alike.numVars,
    requireEntries_congr alike.numVars, alike.reduces.isFresh]
  refine (Tries.same rfl).bind fun _ _ _ => (Tries.same rfl).bind fun _ _ _ => ?_
  cases fresh : a.tableau.isFresh base with
  | false => exact .error _
  | true => exact .ok (alike.placeBoth lazy eager fresh _)

theorem Alike.mkLinear (sort : NumSort) (term : Term) (entries : List (Var × Rat)) :
    Tries (AlikeWith Deferred o p) (a.mkLinear sort term entries) (b.mkLinear sort term entries) := by
  rw [Engine.mkLinear, Engine.mkLinear, requireVar_congr alike.numVars]
  refine (Tries.same rfl).bind fun _ _ _ => ?_
  obtain ⟨x, y, base, at_a, at_b, grown⟩ := (alike.mkVarBoth sort term).exists_eq
  rw [at_a, at_b]
  refine (grown.addRow lazy eager base entries).bind fun x y placed => ?_
  exact .ok ⟨placed.engine, rfl⟩

theorem Alike.assertVarEq (left right : Var) :
    Tries (Alike Deferred o p) (a.assertVarEq left right) (b.assertVarEq left right) := by
  rw [Engine.assertVarEq, Engine.assertVarEq, requireVar_congr alike.numVars,
    jointSort_congr alike.isInt]
  refine (Tries.same rfl).bind fun _ _ _ => (Tries.same rfl).bind fun _ _ _ => ?_
  split
  · exact .ok alike
  · obtain ⟨x, y, difference, at_a, at_b, grown⟩ :=
      (alike.mkVarBoth (a.jointSort [left, right]) .internal).exists_eq
    simp only [at_a, at_b]
    refine (grown.addRow lazy eager difference _).bind fun x y placed => ?_
    exact .ok (placed.engine.fixDifference difference left right)

end Deferred

/-! ## Propagations and checks -/

/-- A propagation starts by reducing the pending rows, so it may as well find them reduced. -/
theorem propagate_normalizePendingRows {e : Engine} (calm : e.isInfeasible = false) :
    e.propagate = e.normalizePendingRows.propagate := by
  have still : e.normalizePendingRows.isInfeasible = false := by
    have kept (rows : List RowId) (x : Engine) :
        (rows.foldl normalizeRow x).isInfeasible = x.isInfeasible := by
      induction rows generalizing x with
      | nil => rfl
      | cons r rest ih => rw [List.foldl_cons, ih, isInfeasible_congr (status_normalizeRow x r)]
    rw [normalizePendingRows, kept, calm]
  rw [propagate, propagate, if_neg (Bool.eq_false_iff.1 calm), if_neg (Bool.eq_false_iff.1 still),
    normalizePendingRows_of_normalized (normalized_normalizePendingRows e)]

/-- A check starts with a propagation. -/
theorem checkRounds_congr {x y : Engine} (same : y.propagate = x.propagate) (rounds cuts : Nat)
    (pass : NonlinearPass) :
    checkRounds (rounds + 1) cuts pass y = checkRounds (rounds + 1) cuts pass x := by
  rw [checkRounds, checkRounds, same]

/-- Engines without pending rows that are alike are so in the weaker sense too. -/
theorem Alike.deferred (alike : Alike Eq o p a b) {n : Nat} (well : a.tableau.WellFormed n)
    (normalized : a.tableau.Normalized) : Alike Deferred o p a b := by
  have settled (r : RowId) (row : Row) (found : a.tableau.rows[r]? = some row)
      (pending : row.pending = true) : False := by
    rw [normalized r row found] at pending
    cases pending
  exact { alike with
    core :=
      { rows := (Tableau.reduces_self normalized).of_rows rfl alike.rows
        size := congrArg Array.size alike.values
        values := fun v _ => congrArg (·[v]?) alike.values
        distinct := fun r q row other at_r at_q same => well.distinct at_r at_q same
        toPatch := alike.toPatch
        touched := alike.touched
        noted := fun r row found pending => (settled r row found pending).elim } }

section Answers

variable {h k : History} (alike : Alike Deferred o p a b) (ready_a : a.Ready h) (ready_b : b.Ready k)
  (reliable_a : a.Reliable) (reliable_b : b.Reliable)
include alike ready_a ready_b reliable_a reliable_b

/-- A propagation answers alike, and unless nothing is done it leaves the same rows. -/
theorem Alike.propagateBoth : b.propagate.2 = a.propagate.2 ∧
    Alike Deferred o p a.propagate.1 b.propagate.1 ∧
      (a.isInfeasible = false → b.propagate.1.tableau.rows = a.propagate.1.tableau.rows) := by
  cases stuck : a.isInfeasible with
  | true =>
    rw [Engine.propagate, Engine.propagate, if_pos stuck, if_pos (alike.isInfeasible.trans stuck)]
    exact ⟨rfl, alike, fun clash => Bool.noConfusion clash⟩
  | false =>
    have well := ready_a.propagate.ready.invariant.founded.formed.tableau
    have inv := (steps_normalizePendingRows h a).invariant ready_a.invariant
    have agree :=
      (alike.normalized ready_a.invariant ready_b.invariant reliable_a reliable_b).propagate
    rw [propagate_normalizePendingRows stuck] at well ⊢
    have normalized := (answers_propagate inv).normalized (normalized_normalizePendingRows a)
    exact ⟨agree.answer, agree.engine.deferred well normalized, fun _ => agree.engine.rows⟩

/-- Checks of engines that are alike answer the same and leave them alike, with the same rows unless
there was a conflict before. -/
theorem Alike.checkBoth : b.check.2 = a.check.2 ∧
    Alike Deferred o p a.check.1 b.check.1 ∧
      (a.isInfeasible = false → b.check.1.tableau.rows = a.check.1.tableau.rows) := by
  have counted := alike.count (fun s => { s with checks := s.checks + 1 })
    fun s => { s with checks := s.checks + 1 }
  have well := ready_a.check.ready.invariant.founded.formed.tableau
  rw [Engine.check] at well
  rw [Engine.check, Engine.check, alike.roundLimit]
  have inv_a : (a.count fun s => { s with checks := s.checks + 1 }).Invariant h := ready_a.invariant
  have inv_b : (b.count fun s => { s with checks := s.checks + 1 }).Invariant k := ready_b.invariant
  have counted_a : (a.count fun s => { s with checks := s.checks + 1 }).Reliable := reliable_a
  have counted_b : (b.count fun s => { s with checks := s.checks + 1 }).Reliable := reliable_b
  have same_status : (a.count fun s => { s with checks := s.checks + 1 }).isInfeasible =
    a.isInfeasible := rfl
  generalize (a.count fun s => { s with checks := s.checks + 1 }) = x
    at counted counted_a well inv_a same_status ⊢
  generalize (b.count fun s => { s with checks := s.checks + 1 }) = y at counted counted_b inv_b ⊢
  rw [← same_status]
  cases stuck : x.isInfeasible with
  | true =>
    rw [Engine.roundLimit, checkRounds_of_infeasible stuck,
      checkRounds_of_infeasible (counted.isInfeasible.trans stuck)]
    exact ⟨counted.conflictResult, counted, fun clash => Bool.noConfusion clash⟩
  | false =>
    have inv := (steps_normalizePendingRows h x).invariant inv_a
    rw [Engine.roundLimit, checkRounds_congr (propagate_normalizePendingRows stuck)] at well ⊢
    generalize a.options.maxGomoryCuts + a.options.nonlinearRounds + 1 + 1 = rounds at well ⊢
    have agree := (counted.normalized inv_a inv_b counted_a counted_b).checkRounds rounds 0 .start
    have checks : Checks h _ (Engine.checkRounds rounds 0 .start x.normalizePendingRows) :=
      checks_checkRounds rounds 0 inv
    have normalized := checks.answers.normalized (normalized_normalizePendingRows x)
    exact ⟨agree.answer, agree.engine.deferred well normalized, fun _ => agree.engine.rows⟩

end Answers

/-- The engines cannot be told apart by what they answer, nor by their rows after a propagation or a
check that does not end at once. -/
structure AnswersAlike (a b : Engine) : Prop where
  propagate : b.propagate.2 = a.propagate.2
  check : b.check.2 = a.check.2
  conflict : b.conflict = a.conflict
  nextPropagation : b.nextPropagation.2 = a.nextPropagation.2
  nextEquality : b.nextEquality.2 = a.nextEquality.2
  model : b.model = a.model
  value : ∀ v, b.value v = a.value v
  bound : ∀ v kind, b.bounds.value v kind = a.bounds.value v kind
  addRow : ∀ base entries,
    (b.addRow base entries).map Prod.snd = (a.addRow base entries).map Prod.snd
  isInfeasible : b.isInfeasible = a.isInfeasible
  rows_propagate : a.isInfeasible = false →
    b.propagate.1.tableau.rows = a.propagate.1.tableau.rows
  rows_check : a.isInfeasible = false → b.check.1.tableau.rows = a.check.1.tableau.rows

theorem Tries.answers {α : Type} {x y : Except EngineError (Engine × α)}
    (tries : Tries (AlikeWith V o p) x y) : y.map Prod.snd = x.map Prod.snd := by
  cases tries with
  | ok related => exact congrArg Except.ok related.answer
  | error error => rfl

end Engine

namespace Session

open Engine State

variable {o p : Options} {s t : Session}

/-- A call that may fail succeeds in both sessions or in none, and so keeps a relation that its results
keep. -/
theorem attempt_related {P : Engine → Engine → Prop} {α : Type} {R : α → α → Prop}
    {x y : Except EngineError α} {engine : α → Engine} {record record' : α → History → History}
    (before : P s.engine t.engine) (tries : Tries R x y)
    (after : ∀ a b, R a b → P (engine a) (engine b)) :
    P (s.attempt x engine record).engine (t.attempt y engine record').engine := by
  cases tries with
  | ok same => exact after _ _ same
  | error error => exact before

/-- A call that leaves no scope keeps the sessions related. -/
theorem deferred_perform (alike : Alike Deferred o p s.engine t.engine)
    (lazy : o.eagerNormalization = false) (eager : p.eagerNormalization = true)
    (ready_s : s.engine.Ready s.history) (ready_t : t.engine.Ready t.history)
    (reliable_s : s.engine.Reliable) (reliable_t : t.engine.Reliable) {call : Call}
    (forward : call.goesBack = false) :
    Alike Deferred o p (s.perform call).engine (t.perform call).engine := by
  cases call with
  | mkVar sort term => exact (alike.mkVarBoth sort term).engine
  | setName v name => exact attempt_related alike (alike.setName v name) fun _ _ => id
  | addRow base entries =>
    exact attempt_related alike (alike.addRow lazy eager base entries) fun _ _ => AlikeWith.engine
  | mkLinear sort term entries =>
    exact attempt_related alike (alike.mkLinear lazy eager sort term entries) fun _ _ => AlikeWith.engine
  | mkMonomial factors =>
    exact attempt_related alike (alike.mkMonomial factors) fun _ _ => AlikeWith.engine
  | mkAtom v kind threshold =>
    exact attempt_related alike (alike.mkAtom v kind threshold) fun _ _ => AlikeWith.engine
  | assertLiteral l => exact attempt_related alike (alike.assertLiteral l) fun _ _ => id
  | assertEq v value =>
    exact attempt_related alike (alike.assertEq v value) fun _ _ => AlikeWith.engine
  | assertGiven v kind value =>
    exact attempt_related alike (alike.assertGiven v kind value) fun _ _ => id
  | assertVarEq left right =>
    exact attempt_related alike (alike.assertVarEq lazy eager left right) fun _ _ => id
  | propagate => exact (alike.propagateBoth ready_s ready_t reliable_s reliable_t).2.1
  | check => exact (alike.checkBoth ready_s ready_t reliable_s reliable_t).2.1
  | nextPropagation => exact { alike with propagations := congrArg List.tail alike.propagations }
  | nextEquality => exact { alike with equalities := congrArg List.tail alike.equalities }
  | push => exact { alike with }
  | setSelector selector => exact { alike with selector := rfl }
  | setOracle oracle => exact { alike with oracle := rfl }
  | setTracer tracer => exact { alike with }
  | solve selector stop => cases forward
  | pop count => cases forward
  | retractTo m => cases forward

/-- The given options, with new rows put into reduced form at once or not. -/
def reducing (options : Options) (eagerly : Bool) : Options :=
  { options with eagerNormalization := eagerly }

/-- Calls that leave no scope keep the sessions related. -/
theorem deferred_run (options : Options) (calls : List Call)
    (forward : ∀ call ∈ calls, call.goesBack = false) :
    Alike Deferred (reducing options false) (reducing options true)
      ((start (reducing options false)).run calls).engine
      ((start (reducing options true)).run calls).engine := by
  induction calls using List.reverseRecOn with
  | nil =>
    refine ⟨rfl, rfl, rfl, ⟨?_, rfl, fun _ _ => rfl, ?_, rfl, rfl, ?_⟩, rfl, rfl, rfl, rfl, rfl, rfl,
      rfl, rfl, rfl, rfl, rfl, rfl, rfl⟩
    · exact Tableau.reduces_self fun r row found => by cases found
    · exact fun r q row other at_r => by cases at_r
    · exact fun r row found => by cases found
  | append_singleton calls call ih =>
    have before : ∀ other ∈ calls, other.goesBack = false := fun other member =>
      forward other (List.mem_append_left _ member)
    rw [run_append, run_append]
    exact deferred_perform (ih before) rfl rfl (ready_run _ calls) (ready_run _ calls)
      (reliable_run _ calls before) (reliable_run _ calls before)
      (forward call (List.mem_append_right _ (List.mem_singleton_self call)))

/-- Whether new rows are put into reduced form at once or by the next propagation makes no difference
for what the engine answers, whatever calls are made, as long as none of them leaves a scope. -/
theorem normalization_agrees (options : Options) (calls : List Call)
    (forward : ∀ call ∈ calls, call.goesBack = false) :
    ((start (reducing options false)).run calls).engine.AnswersAlike
      ((start (reducing options true)).run calls).engine := by
  have alike := deferred_run options calls forward
  have ready_a := ready_run (reducing options false) calls
  have ready_b := ready_run (reducing options true) calls
  have reliable_a := reliable_run (reducing options false) calls forward
  have reliable_b := reliable_run (reducing options true) calls forward
  have value := alike.valueBoth ready_a.invariant ready_b.invariant reliable_b
  obtain ⟨propagate, -, rows_propagate⟩ := alike.propagateBoth ready_a ready_b reliable_a reliable_b
  obtain ⟨check, -, rows_check⟩ := alike.checkBoth ready_a ready_b reliable_a reliable_b
  exact
    { propagate := propagate
      check := check
      conflict := alike.conflict
      nextPropagation := congrArg List.head? alike.propagations
      nextEquality := congrArg List.head? alike.equalities
      model := SameModel.model ⟨alike.columns, value, alike.bounds⟩
      value := congrFun value
      bound := fun v kind => by rw [alike.bounds]
      addRow := fun base entries => (alike.addRow rfl rfl base entries).answers
      isInfeasible := alike.isInfeasible
      rows_propagate := rows_propagate
      rows_check := rows_check }

/-- Two rows, of which the second one mentions the base of the first one, and a bound that moves a
variable of both. -/
def stacking : List Call :=
  [.mkVar .real .internal, .mkVar .real .internal, .mkLinear .real .internal [(0, 1), (1, 1)],
    .mkLinear .real .internal [(2, 1), (0, -1)], .assertGiven 1 .lower (.ofRat 2)]

/-- One engine has reduced the second row, the other one has not; they agree on the value of its base.
-/
theorem normalization_agrees_stacking :
    ((start (reducing {} false)).run stacking).engine.kind 3 = .pendingBase ∧
      ((start (reducing {} true)).run stacking).engine.kind 3 = .base ∧
      ((start (reducing {} true)).run stacking).engine.value 3 =
        ((start (reducing {} false)).run stacking).engine.value 3 := by
  refine ⟨by cbv, by cbv, ?_⟩
  refine (normalization_agrees {} stacking fun call member => ?_).value 3
  simp only [stacking, List.mem_cons, List.not_mem_nil, or_false] at member
  obtain rfl | rfl | rfl | rfl | rfl := member <;> rfl

end Session

end ArithDecide
