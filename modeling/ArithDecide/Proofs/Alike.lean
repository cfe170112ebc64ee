import ArithDecide.Check
import ArithDecide.Proofs.Assignment
import ArithDecide.Proofs.PendingRows

/-!
# Engines that answer alike

Two engines are alike when they have the same variables, bounds, reasons, atoms and queues and options
that differ at most in when new rows are put into reduced form; how the values and rows of the two are
related is left open. Trails, scopes, names, counters and trace may differ: they only serve to go back
and to report. Operations that do not look at values and rows keep engines alike whatever the relation
is. With the same values and rows every operation does, and gives the same answer; here this is said of
everything up to propagation. In particular no operation changes the options of an engine, since every
engine is alike itself.
-/

namespace ArithDecide.Engine

/-- The part of the engine that depends on which rows are in reduced form. -/
structure Core where
  values : Array InfRat
  rows : Array Row
  toPatch : List Var
  touched : List RowId

def core (e : Engine) : Core := ⟨e.values, e.tableau.rows, e.toPatch, e.touched⟩

/-- Two engines with the given options, which differ at most in when new rows are put into reduced form,
agree on everything that an answer may depend on, apart from values, rows and what is to be done about
them, and these are in the given relation. -/
structure Alike (V : Core → Core → Prop) (o p : Options) (a b : Engine) : Prop where
  similar : p = { o with eagerNormalization := p.eagerNormalization }
  first : a.options = o
  second : b.options = p
  core : V a.core b.core
  columns : b.columns = a.columns
  bounds : b.bounds = a.bounds
  dependencies : b.dependencies = a.dependencies
  atoms : b.atoms = a.atoms
  monomials : b.monomials = a.monomials
  given : b.given = a.given
  reported : b.reported = a.reported
  status : b.status = a.status
  propagations : b.propagations = a.propagations
  equalities : b.equalities = a.equalities
  oracle : b.oracle = a.oracle
  selector : b.selector = a.selector
  integerChecks : b.integerChecks = a.integerChecks

/-- Engines with the same answer. -/
structure AlikeWith {α : Type} (V : Core → Core → Prop) (o p : Options) (x y : Engine × α) : Prop where
  engine : Alike V o p x.1 y.1
  answer : y.2 = x.2

/-- What may differ. -/
structure Shell where
  options : Options
  changes : List TableauChange
  recording : Bool
  valueTrail : List (Var × InfRat)
  scopes : List Scope
  scopeId : Nat
  valueStamps : Array Nat
  scopesEntered : Nat
  names : Names
  statistics : Statistics
  tracer : Tracer

def shell (e : Engine) : Shell :=
  ⟨e.options, e.tableau.trail, e.tableau.recording, e.valueTrail, e.scopes, e.scopeId, e.valueStamps,
    e.scopesEntered, e.names, e.statistics, e.tracer⟩

/-- The same engine in another shell. -/
def within (e : Engine) (s : Shell) : Engine :=
  { e with
    options := s.options
    tableau := { e.tableau with trail := s.changes, recording := s.recording }
    valueTrail := s.valueTrail
    scopes := s.scopes
    scopeId := s.scopeId
    valueStamps := s.valueStamps
    scopesEntered := s.scopesEntered
    names := s.names
    statistics := s.statistics
    tracer := s.tracer }

variable {V : Core → Core → Prop} {o p : Options} {a b : Engine}

theorem Alike.values (alike : Alike Eq o p a b) : b.values = a.values :=
  (congrArg Core.values alike.core).symm

theorem Alike.rows (alike : Alike Eq o p a b) : b.tableau.rows = a.tableau.rows :=
  (congrArg Core.rows alike.core).symm

theorem Alike.toPatch (alike : Alike Eq o p a b) : b.toPatch = a.toPatch :=
  (congrArg Core.toPatch alike.core).symm

theorem Alike.touched (alike : Alike Eq o p a b) : b.touched = a.touched :=
  (congrArg Core.touched alike.core).symm

theorem Alike.eq_within (alike : Alike Eq o p a b) : b = a.within b.shell := by
  obtain ⟨⟨columns, values, ⟨rows, trail, recording⟩, bounds, dependencies, atoms, monomials, given,
    reported, status, toPatch, touched, propagations, equalities, valueTrail, scopes, scopeId,
    entered⟩, stamps, options, oracle, selector, names, statistics, integerChecks, tracer⟩ := b
  have values := alike.values
  have rows := alike.rows
  have toPatch := alike.toPatch
  have touched := alike.touched
  obtain ⟨similar, first, second, core, columns, bounds, dependencies, atoms, monomials, given,
    reported, status, propagations, equalities, oracle, selector, integerChecks⟩ := alike
  simp only at *
  subst_vars
  rfl

theorem Alike.refl (e : Engine) : Alike Eq e.options e.options e e :=
  ⟨rfl, rfl, rfl, rfl, rfl, rfl, rfl, rfl, rfl, rfl, rfl, rfl, rfl, rfl, rfl, rfl, rfl⟩

/-! ## Questions that do not depend on the rows -/

section Questions

variable (alike : Alike V o p a b)
include alike

theorem Alike.sort : b.sort = a.sort := by
  funext v
  rw [State.sort, State.sort, alike.columns]

theorem Alike.isInt : b.isInt = a.isInt := by
  funext v
  rw [State.isInt, State.isInt, alike.sort]

theorem Alike.term : b.term = a.term := by
  funext v
  rw [State.term, State.term, alike.columns]

theorem Alike.numVars : b.numVars = a.numVars := congrArg Array.size alike.columns

theorem Alike.vars : b.vars = a.vars := congrArg List.range alike.numVars

theorem Alike.isInfeasible : b.isInfeasible = a.isInfeasible := by
  rw [State.isInfeasible, State.isInfeasible, alike.status]

theorem Alike.isConsistent : b.isConsistent = a.isConsistent := by
  rw [State.isConsistent, State.isConsistent, alike.status]

theorem Alike.conflict : b.conflict = a.conflict := by
  rw [State.conflict, State.conflict, alike.status, alike.dependencies]

theorem Alike.roundBound (v : Var) (kind : BoundKind) (value : InfRat) :
    b.roundBound v kind value = a.roundBound v kind value := by
  rw [Engine.roundBound, Engine.roundBound, alike.isInt]

end Questions

/-! ## Operations that leave values and rows alone -/

section Bookkeeping

variable (alike : Alike V o p a b)
include alike

theorem Alike.trace (tag tag' : TraceTag) (message message' : Unit → String) :
    Alike V o p (a.trace tag message) (b.trace tag' message') := { alike with }

theorem Alike.count (change change' : Statistics → Statistics) :
    Alike V o p (a.count change) (b.count change') := { alike with }

theorem Alike.declareChecking : Alike V o p a.declareChecking b.declareChecking := by
  rw [Engine.declareChecking, Engine.declareChecking, alike.isConsistent]
  split
  · exact { alike with status := rfl }
  · exact alike

theorem Alike.joinReasons (reasons : List Dependency) :
    AlikeWith V o p (a.joinReasons reasons) (b.joinReasons reasons) where
  engine := { alike with
    dependencies := by rw [Engine.joinReasons, Engine.joinReasons, alike.dependencies] }
  answer := by rw [Engine.joinReasons, Engine.joinReasons, alike.dependencies]

theorem Alike.setConflict (reason : Dependency) :
    Alike V o p (a.setConflict reason) (b.setConflict reason) := by
  rw [Engine.setConflict, Engine.setConflict, alike.isInfeasible]
  split
  · exact alike
  · exact { alike with status := rfl }

/-- An atom is propagated in both engines or in none, as they have the same bounds. -/
theorem Alike.propagateAtom (atom : AtomId) :
    Alike V o p (a.propagateAtom atom) (b.propagateAtom atom) := by
  have same : b.atoms.get? atom = a.atoms.get? atom := by rw [alike.atoms]
  have decided (v : Var) (kind : BoundKind) (threshold : Rat) :
      b.decided? v kind threshold = a.decided? v kind threshold := by
    rw [decided?, decided?, alike.bounds]
  rw [Engine.propagateAtom, Engine.propagateAtom, same]
  split
  · exact alike
  · rw [decided]
    split
    · exact alike
    · rename_i sign reason _
      exact { alike with
        atoms := congrArg (·.markPropagated atom) alike.atoms
        propagations := congrArg₂
          (fun (arena : DependencyArena) waiting =>
            waiting ++ [(⟨.ofSign atom sign, arena.linearize reason⟩ : Propagation)])
          alike.dependencies alike.propagations }

end Bookkeeping

theorem Alike.foldl {α : Type} {f g : Engine → α → Engine}
    (each : ∀ {a b}, Alike V o p a b → ∀ x, Alike V o p (f a x) (g b x)) (items : List α)
    (alike : Alike V o p a b) : Alike V o p (items.foldl f a) (items.foldl g b) := by
  induction items generalizing a b with
  | nil => exact alike
  | cons x rest ih => exact ih (each alike x)

theorem Alike.propagateAtomsOn (alike : Alike V o p a b) (v : Var) :
    Alike V o p (a.propagateAtomsOn v) (b.propagateAtomsOn v) := by
  have same : b.atoms.atomsOn v = a.atoms.atomsOn v := by rw [alike.atoms]
  rw [Engine.propagateAtomsOn, Engine.propagateAtomsOn, same]
  exact .foldl (fun later atom => later.propagateAtom atom) _ alike

theorem Alike.internAtom (alike : Alike V o p a b) (v : Var) (kind : BoundKind) (threshold : Rat) :
    AlikeWith V o p (a.internAtom v kind threshold) (b.internAtom v kind threshold) := by
  have found : b.atoms.find? v kind threshold = a.atoms.find? v kind threshold := by
    rw [alike.atoms]
  have size : b.atoms.atoms.size = a.atoms.atoms.size := by rw [alike.atoms]
  rw [Engine.internAtom, Engine.internAtom, found]
  split
  · exact ⟨alike, rfl⟩
  · have added : Alike V o p { a with atoms := a.atoms.add v kind threshold }
        { b with atoms := b.atoms.add v kind threshold } :=
      { alike with atoms := congrArg (·.add v kind threshold) alike.atoms }
    simp only [size]
    exact ⟨added.propagateAtom _, rfl⟩

theorem Alike.mkVar (alike : Alike V o p a b) {sort : NumSort} {term : Term}
    (grown : V (a.mkVar sort term).1.core (b.mkVar sort term).1.core) :
    AlikeWith V o p (a.mkVar sort term) (b.mkVar sort term) where
  engine := { alike with
    core := grown
    columns := congrArg (Array.push · (⟨sort, term⟩ : Variable)) alike.columns
    bounds := congrArg BoundStore.addVar alike.bounds }
  answer := alike.numVars

/-! ## One answer after another -/

/-- Two results that agree are two engines with one answer. -/
theorem AlikeWith.exists_eq {α : Type} {x y : Engine × α} (agree : AlikeWith V o p x y) :
    ∃ a b answer, x = (a, answer) ∧ y = (b, answer) ∧ Alike V o p a b :=
  ⟨x.1, y.1, x.2, rfl, Prod.ext rfl agree.answer, agree.engine⟩

/-- What goes on only after a success goes on alike. -/
theorem AlikeWith.andThen {f g : Engine → Engine × Bool} :
    ∀ {x y : Engine × Bool}, AlikeWith V o p x y →
      (∀ {a b}, Alike V o p a b → AlikeWith V o p (f a) (g b)) →
      AlikeWith V o p
        (match x with
          | (next, true) => f next
          | (next, false) => (next, false))
        (match y with
          | (next, true) => g next
          | (next, false) => (next, false)) := by
  intro x y agree second
  obtain ⟨a, b, ok, rfl, rfl, alike⟩ := agree.exists_eq
  cases ok with
  | true => exact second alike
  | false => exact ⟨alike, rfl⟩

theorem Alike.forEach {α : Type} {f g : Engine → α → Engine × Bool}
    (each : ∀ {a b}, Alike V o p a b → ∀ x, AlikeWith V o p (f a x) (g b x)) (items : List α)
    (alike : Alike V o p a b) : AlikeWith V o p (forEach f items a) (forEach g items b) := by
  induction items generalizing a b with
  | nil => exact ⟨alike, rfl⟩
  | cons x rest ih => exact (each alike x).andThen fun later => ih later

/-! ## Questions about values and rows -/

section Rows

variable (alike : Alike Eq o p a b)
include alike

theorem Alike.get? (r : RowId) : b.tableau.get? r = a.tableau.get? r := by
  rw [alike.eq_within]
  rfl

theorem Alike.rowIds : b.tableau.rowIds = a.tableau.rowIds := by
  rw [alike.eq_within]
  rfl

theorem Alike.rowOf? (v : Var) : b.tableau.rowOf? v = a.tableau.rowOf? v := by
  rw [alike.eq_within]
  rfl

theorem Alike.rowsMentioning (v : Var) :
    b.tableau.rowsMentioning v = a.tableau.rowsMentioning v := by
  rw [alike.eq_within]
  rfl

theorem Alike.kind (v : Var) : b.kind v = a.kind v := by
  rw [alike.eq_within]
  rfl

theorem Alike.stored : b.stored = a.stored := by
  rw [alike.eq_within]
  rfl

theorem Alike.value : b.value = a.value := State.value_congr alike.values alike.rows

end Rows

/-! ## Values -/

/-- What putting a row into reduced form does, but for the trace. -/
theorem normalizeRow_of_some {e : Engine} {r : RowId} {row : Row}
    (found : (e.tableau.normalize r).get? r = some row) : ∃ tracer, e.normalizeRow r =
      (({ e with tableau := e.tableau.normalize r, tracer := tracer } : Engine).setValue row.base
        (row.form.evalInf e.stored)).markToPatch row.base := by
  let reduced : Engine := { e with tableau := e.tableau.normalize r }
  by_cases unchanged : some row.form = (e.tableau.get? r).map Row.form
  · refine ⟨e.tracer, ?_⟩
    simp only [Engine.normalizeRow, found, Option.map_some, if_pos unchanged]
    rfl
  · refine ⟨e.tracer.trace .simplex fun _ =>
      "normalized " ++ r.text ++ ": " ++ reduced.rowText r, ?_⟩
    simp only [Engine.normalizeRow, found, Option.map_some, if_neg unchanged, trace]
    rfl

theorem normalizeRow_of_none {e : Engine} {r : RowId}
    (found : (e.tableau.normalize r).get? r = none) : ∃ tracer, e.normalizeRow r =
      { e with tableau := e.tableau.normalize r, tracer := tracer } := by
  have absent : (e.tableau.get? r).map Row.form = none := by
    rw [Tableau.get?_normalize, Option.map_eq_none_iff] at found
    rw [found]
    rfl
  refine ⟨e.tracer, ?_⟩
  simp only [Engine.normalizeRow, found, absent, Option.map_none, if_true]

section Values

variable (alike : Alike Eq o p a b)
include alike

/-- Engines that are alike stay so when their values change in the same way. -/
theorem Alike.withValues {xs ys : Array InfRat} (values : ys = xs) :
    Alike Eq o p { a with values := xs } { b with values := ys } :=
  { alike with core := congrArg₂ (fun values core => { core with values }) values.symm alike.core }

/-- The same for their tableaus. -/
theorem Alike.withTableau {t u : Tableau} (rows : u.rows = t.rows) :
    Alike Eq o p { a with tableau := t } { b with tableau := u } :=
  { alike with core := congrArg₂ (fun rows core => { core with rows }) rows.symm alike.core }

/-- The same for what is to be repaired. -/
theorem Alike.withToPatch {vs ws : List Var} (toPatch : ws = vs) :
    Alike Eq o p { a with toPatch := vs } { b with toPatch := ws } :=
  { alike with core := congrArg₂ (fun toPatch core => { core with toPatch }) toPatch.symm alike.core }

/-- The same for what is to be inspected. -/
theorem Alike.withTouched {rs qs : List RowId} (touched : qs = rs) :
    Alike Eq o p { a with touched := rs } { b with touched := qs } :=
  { alike with core := congrArg₂ (fun touched core => { core with touched }) touched.symm alike.core }

theorem Alike.markToPatch (v : Var) : Alike Eq o p (a.markToPatch v) (b.markToPatch v) :=
  alike.withToPatch (congrArg (SortedSet.insert v) alike.toPatch)

theorem Alike.setValue (v : Var) (x : InfRat) : Alike Eq o p (a.setValue v x) (b.setValue v x) := by
  have given : Alike Eq o p { a with values := a.values.setIfInBounds v x }
      { b with values := b.values.setIfInBounds v x } :=
    alike.withValues (by rw [alike.values])
  rw [Engine.setValue, Engine.setValue]
  split <;> split <;> exact { given with }

theorem Alike.carryRow (v : Var) (delta : InfRat) (r : RowId) :
    Alike Eq o p (carryRow v delta a r) (carryRow v delta b r) := by
  rw [Engine.carryRow, Engine.carryRow, alike.get?]
  split
  · exact alike
  · rw [alike.stored]
    split
    · exact alike
    · exact (alike.setValue _ _).markToPatch _

theorem Alike.updateValue (v : Var) (delta : InfRat) :
    Alike Eq o p (a.updateValue v delta) (b.updateValue v delta) := by
  rw [Engine.updateValue, Engine.updateValue, alike.rowsMentioning, alike.stored]
  exact .foldl (fun later r => later.carryRow v delta r) _ (alike.setValue _ _)

theorem Alike.normalize (r : RowId) :
    (b.tableau.normalize r).rows = (a.tableau.normalize r).rows := by
  rw [Tableau.normalize, Tableau.normalize, alike.get?]
  split
  · exact alike.rows
  · rw [Tableau.record_rows, Tableau.record_rows,
      Tableau.reduceBelow_congr fun q _ => alike.get? q]
    exact congrArg (Array.setIfInBounds · _ _) alike.rows

/-- Normalising a row does the same to engines that are alike, as they have the same rows. -/
theorem Alike.normalizeRow (r : RowId) : Alike Eq o p (a.normalizeRow r) (b.normalizeRow r) := by
  have reduced (tracer tracer' : Tracer) : Alike Eq o p
      { a with tableau := a.tableau.normalize r, tracer := tracer }
      { b with tableau := b.tableau.normalize r, tracer := tracer' } :=
    { alike.withTableau (alike.normalize r) with }
  have same : (b.tableau.normalize r).get? r = (a.tableau.normalize r).get? r :=
    (reduced default default).get? r
  cases found : (a.tableau.normalize r).get? r with
  | none =>
    obtain ⟨tracer, at_a⟩ := normalizeRow_of_none found
    obtain ⟨tracer', at_b⟩ := normalizeRow_of_none (same.trans found)
    rw [at_a, at_b]
    exact reduced tracer tracer'
  | some row =>
    obtain ⟨tracer, at_a⟩ := normalizeRow_of_some found
    obtain ⟨tracer', at_b⟩ := normalizeRow_of_some (same.trans found)
    rw [at_a, at_b, alike.stored]
    exact ((reduced tracer tracer').setValue _ _).markToPatch _

theorem Alike.normalizePendingRows : Alike Eq o p a.normalizePendingRows b.normalizePendingRows := by
  rw [Engine.normalizePendingRows, Engine.normalizePendingRows, pendingRows, pendingRows,
    alike.rowIds, funext alike.get?]
  exact .foldl (fun later r => later.normalizeRow r) _ alike

end Values

/-! ## Bounds -/

section Bounds

variable (alike : Alike Eq o p a b)
include alike

theorem Alike.touchRowsOf (v : Var) : Alike Eq o p (a.touchRowsOf v) (b.touchRowsOf v) :=
  alike.withTouched (by rw [alike.rowOf?, alike.rowsMentioning, alike.touched])

theorem Alike.respectBound (v : Var) (kind : BoundKind) (value : InfRat) :
    Alike Eq o p (a.respectBound v kind value) (b.respectBound v kind value) := by
  rw [Engine.respectBound, Engine.respectBound, alike.kind, alike.stored]
  split
  · split
    · exact alike.updateValue _ _
    · exact alike
  · exact alike.markToPatch v
  · exact alike.markToPatch v

end Bounds

/-- The relation between values and rows is kept by what a new bound does to them. -/
structure KeptByBounds (V : Core → Core → Prop) (o p : Options) : Prop where
  toPatch {a b : Engine} : Alike V o p a b → b.toPatch = a.toPatch
  touchRowsOf {a b : Engine} : Alike V o p a b → ∀ v, Alike V o p (a.touchRowsOf v) (b.touchRowsOf v)
  respectBound {a b : Engine} : Alike V o p a b → ∀ v kind value,
    Alike V o p (a.respectBound v kind value) (b.respectBound v kind value)

section KeptByBounds

variable (kept : KeptByBounds V o p) (alike : Alike V o p a b)
include kept alike

theorem KeptByBounds.afterTightening (v : Var) (kind : BoundKind) (value : InfRat)
    (origin : BoundOrigin) :
    Alike V o p (a.afterTightening v kind value origin) (b.afterTightening v kind value origin) := by
  have checked {a b : Engine} (alike : Alike V o p a b) : Alike V o p
      (if a.toPatch.isEmpty then a else a.declareChecking)
      (if b.toPatch.isEmpty then b else b.declareChecking) := by
    rw [kept.toPatch alike]
    split
    · exact alike
    · exact alike.declareChecking
  rw [Engine.afterTightening, Engine.afterTightening]
  refine (checked (kept.respectBound ?_ v kind value)).propagateAtomsOn v
  split
  · exact (alike.count _ _).trace _ _ _ _
  · exact kept.touchRowsOf ((alike.count _ _).trace _ _ _ _) v

/-- A bound crosses, is covered or is installed in both engines alike. -/
theorem KeptByBounds.installBound (v : Var) (kind : BoundKind) (value : InfRat) (reason : Dependency)
    (origin : BoundOrigin) :
    AlikeWith V o p (a.installBound v kind value reason origin)
      (b.installBound v kind value reason origin) := by
  rw [Engine.installBound, Engine.installBound, alike.roundBound, alike.bounds]
  simp only
  split
  · rename_i opposite _
    obtain ⟨joined, same⟩ := alike.joinReasons [reason, opposite]
    rw [same]
    exact ⟨joined.setConflict _, rfl⟩
  · exact ⟨{ alike with bounds := rfl }, rfl⟩
  · rename_i store _
    have installed : Alike V o p { a with bounds := store } { b with bounds := store } :=
      { alike with bounds := rfl }
    exact ⟨kept.afterTightening installed _ _ _ _, rfl⟩

end KeptByBounds

theorem keptByBounds_eq : KeptByBounds Eq o p := ⟨Alike.toPatch, Alike.touchRowsOf, Alike.respectBound⟩

theorem Alike.installBound (alike : Alike Eq o p a b) (v : Var) (kind : BoundKind) (value : InfRat)
    (reason : Dependency) (origin : BoundOrigin) :
    AlikeWith Eq o p (a.installBound v kind value reason origin)
      (b.installBound v kind value reason origin) :=
  keptByBounds_eq.installBound alike v kind value reason origin

/-! ## Propagation -/

section Propagation

variable (alike : Alike Eq o p a b)
include alike

theorem Alike.propagateBounds : b.options.propagateBounds = a.options.propagateBounds := by
  rw [alike.first, alike.second, alike.similar]

theorem Alike.maxImpliedBoundRows :
    b.options.maxImpliedBoundRows = a.options.maxImpliedBoundRows := by
  rw [alike.first, alike.second, alike.similar]

theorem Alike.rowSum (terms : List (Var × Rat)) (side : BoundKind) :
    b.rowSum terms side = a.rowSum terms side := by
  rw [alike.eq_within]
  rfl

theorem Alike.sumWithout (sum : RowSum) (t : Var × Rat) (side : BoundKind) :
    b.sumWithout sum t side = a.sumWithout sum t side := by
  rw [alike.eq_within]
  rfl

theorem Alike.impliedBound (terms : List (Var × Rat)) (side : BoundKind) (sum : RowSum)
    (t : Var × Rat) :
    AlikeWith Eq o p (impliedBound terms side sum a t) (impliedBound terms side sum b t) := by
  rw [Engine.impliedBound, Engine.impliedBound, alike.sumWithout]
  split
  · exact ⟨alike, rfl⟩
  · rename_i rest _
    simp only [alike.roundBound, alike.bounds]
    split
    · obtain ⟨joined, same⟩ := alike.joinReasons
        ((terms.filter fun other => other.1 ≠ t.1).map fun other =>
          a.bounds.reason other.1 (limitingKind other.2 side))
      rw [same]
      exact (joined.count _ _).installBound _ _ _ _ _
    · exact ⟨alike, rfl⟩

theorem Alike.impliedBoundsOf (r : RowId) :
    AlikeWith Eq o p (a.impliedBoundsOf r) (b.impliedBoundsOf r) := by
  rw [Engine.impliedBoundsOf, Engine.impliedBoundsOf, alike.get?]
  split
  · exact ⟨alike, rfl⟩
  · simp only [alike.rowSum]
    exact Alike.forEach (fun later t => (later.impliedBound _ _ _ t).andThen fun last =>
      last.impliedBound _ _ _ t) _ alike

theorem Alike.propagateImpliedBounds :
    AlikeWith Eq o p a.propagateImpliedBounds b.propagateImpliedBounds := by
  rw [Engine.propagateImpliedBounds, Engine.propagateImpliedBounds, alike.touched,
    alike.maxImpliedBoundRows]
  exact Alike.forEach (fun later r => later.impliedBoundsOf r) _ (alike.withTouched rfl)

theorem Alike.violation? (v : Var) : b.violation? v = a.violation? v := by
  rw [alike.eq_within]
  rfl

theorem Alike.firstViolation? (vs : List Var) : b.firstViolation? vs = a.firstViolation? vs := by
  induction vs with
  | nil => rfl
  | cons v rest ih => rw [Engine.firstViolation?, Engine.firstViolation?, alike.violation?, ih]

theorem Alike.entering? (form : LinearForm) (violated : BoundKind) :
    b.entering? form violated = a.entering? form violated := by
  rw [alike.eq_within]
  rfl

theorem Alike.rowConflict (row : Row) (violated : BoundKind) :
    b.rowConflict row violated = a.rowConflict row violated := by
  rw [alike.eq_within]
  rfl

theorem Alike.pivot (r : RowId) (entering : Var) :
    (b.tableau.pivot r entering).rows = (a.tableau.pivot r entering).rows := by
  rw [Tableau.pivot, Tableau.pivot, alike.get?]
  split
  · exact alike.rows
  · rw [Tableau.record_rows, Tableau.record_rows, alike.rows]

theorem Alike.pivotAndUpdate (violation : Violation) (row : Row) (entering : Var) :
    Alike Eq o p (a.pivotAndUpdate violation row entering) (b.pivotAndUpdate violation row entering) := by
  rw [Engine.pivotAndUpdate, Engine.pivotAndUpdate, alike.stored]
  have moved := alike.updateValue entering
    ((violation.target - a.stored row.base).divide (row.form.coeff entering))
  have exchanged := moved.withTableau (moved.pivot violation.row entering)
  exact ((exchanged.count _ _).markToPatch entering).trace _ _ _ _

omit alike in
/-- Engines that are alike exchange the same bases during a repair, and are alike afterwards. -/
theorem Alike.repair (pivots : Nat) (alike : Alike Eq o p a b) :
    AlikeWith Eq o p (repair pivots a) (repair pivots b) := by
  induction pivots generalizing a b with
  | zero => ?_
  | succ left ih => ?_
  all_goals
    rw [Engine.repair, Engine.repair, alike.toPatch, alike.firstViolation?]
    split
    · have settled := congrArg (fun s : Status => if s = .checking then .consistent else s)
        alike.status
      exact ⟨{ alike.withToPatch rfl with status := settled }, rfl⟩
    · rename_i violation rest _
      have taken : Alike Eq o p { a with toPatch := rest } { b with toPatch := rest } :=
        alike.withToPatch rfl
      simp only [alike.get?, taken.entering?, taken.rowConflict]
      split
      · exact ⟨taken, rfl⟩
      · rename_i row _
        split
        · obtain ⟨joined, same⟩ := taken.joinReasons
            (({ a with toPatch := rest } : Engine).rowConflict row violation.kind)
          rw [same]
          exact ⟨(joined.markToPatch _).setConflict _, rfl⟩
        · first
          | exact ⟨alike, rfl⟩
          | exact ih (taken.pivotAndUpdate _ _ _)

theorem Alike.makeFeasible : AlikeWith Eq o p a.makeFeasible b.makeFeasible := by
  rw [Engine.makeFeasible, Engine.makeFeasible, pivotLimit, pivotLimit, alike.numVars]
  exact Alike.repair _ alike

theorem Alike.sharedFixedValue? : b.sharedFixedValue? = a.sharedFixedValue? := by
  rw [alike.eq_within]
  rfl

theorem Alike.representative? (value : InfRat) :
    b.representative? value = a.representative? value := by
  rw [Engine.representative?, Engine.representative?, alike.vars, alike.sharedFixedValue?]

/-- Reporting an equality reads fixed variables and their terms only, which are the same. -/
theorem Alike.reportEquality (v : Var) : Alike Eq o p (a.reportEquality v) (b.reportEquality v) := by
  rw [Engine.reportEquality, Engine.reportEquality, alike.sharedFixedValue?]
  split
  · exact alike
  · simp only [alike.representative?, alike.reported, alike.bounds]
    split
    · exact alike
    · rename_i w _
      obtain ⟨joined, same⟩ := alike.joinReasons
        [a.bounds.reason w .lower, a.bounds.reason w .upper,
          a.bounds.reason v .lower, a.bounds.reason v .upper]
      rw [same]
      exact { joined with
        reported := congrArg (· ++ [VarPair.mk w v]) joined.reported
        equalities := congrArg₂
          (fun (arena : DependencyArena) waiting =>
            waiting ++ [(⟨⟨w, v⟩, arena.linearize _⟩ : EqualityReport)])
          joined.dependencies joined.equalities }

theorem Alike.propagateFixedEqualities :
    Alike Eq o p a.propagateFixedEqualities b.propagateFixedEqualities := by
  rw [Engine.propagateFixedEqualities, Engine.propagateFixedEqualities, alike.vars]
  exact .foldl (fun later v => later.reportEquality v) _ alike

theorem Alike.installLiteral (l : Literal) :
    AlikeWith Eq o p (a.installLiteral l) (b.installLiteral l) := by
  have same : b.atoms.get? l.atom = a.atoms.get? l.atom := by rw [alike.atoms]
  rw [Engine.installLiteral, Engine.installLiteral, same]
  split
  · exact ⟨alike, rfl⟩
  · simp only [alike.dependencies]
    have noted : Alike Eq o p { a with dependencies := (a.dependencies.mkLiteral l).1 }
        { b with dependencies := (a.dependencies.mkLiteral l).1 } := { alike with dependencies := rfl }
    exact noted.installBound _ _ _ _ _

omit alike in
theorem Alike.installQueued (count : Nat) (alike : Alike Eq o p a b) :
    AlikeWith Eq o p (installQueued count a) (installQueued count b) := by
  induction count generalizing a b with
  | zero => exact ⟨alike, rfl⟩
  | succ count ih =>
    rw [Engine.installQueued, Engine.installQueued, alike.atoms]
    split
    · exact ⟨alike, rfl⟩
    · rename_i l atoms _
      have taken : Alike Eq o p { a with atoms := atoms } { b with atoms := atoms } :=
        { alike with atoms := rfl }
      exact (taken.installLiteral l).andThen fun later => ih later

theorem Alike.propagateRows : AlikeWith Eq o p a.propagateRows b.propagateRows := by
  rw [Engine.propagateRows, Engine.propagateRows, alike.propagateBounds, alike.touched]
  split
  · exact ⟨alike, rfl⟩
  · refine alike.propagateImpliedBounds.andThen fun later => ?_
    rw [later.toPatch]
    split
    · exact ⟨later, rfl⟩
    · exact later.makeFeasible

theorem Alike.propagate : AlikeWith Eq o p a.propagate b.propagate := by
  rw [Engine.propagate, Engine.propagate, alike.isInfeasible]
  split
  · exact ⟨alike, rfl⟩
  · have normal := alike.normalizePendingRows
    simp only [normal.atoms]
    exact (Alike.installQueued _ normal).andThen fun installed =>
      installed.makeFeasible.andThen fun feasible =>
        feasible.propagateRows.andThen fun last => ⟨last.propagateFixedEqualities, rfl⟩

end Propagation

end ArithDecide.Engine
