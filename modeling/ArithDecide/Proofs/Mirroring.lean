import ArithDecide.Proofs.Alike
import ArithDecide.Proofs.Checking
import ArithDecide.Proofs.Renaming

/-!
# Engines that differ in the numbers of nodes

An engine that reports equalities between fixed variables joins the reasons of each pair in its arena,
so that later nodes get other numbers than in an engine that reports none. Otherwise the two do the same
with the same calls: `Engine.Mirrors` says that they agree but for these numbers, for what they report,
and for names, counters and trace. Here this is said of everything up to propagation, and of the
literals and equalities of each explanation handed out on the way. As long as no equality is reported
the numbers stay related in the same way; `Mirrors.propagateFixedEqualities` shifts the later ones.
-/

namespace ArithDecide

/-- What leaving a scope needs to give values back and to number the scope around it. -/
def Scope.remembered (scope : Scope) : Nat × Nat × Nat :=
  (scope.numVars, scope.valueTrail, scope.parentId)

namespace Engine

/-- Two states that agree in values, in what gives values back, and in how scopes are numbered. -/
structure State.Recalls (s t : State) : Prop where
  values : t.values = s.values
  valueTrail : t.valueTrail = s.valueTrail
  scopes : t.scopes.map Scope.remembered = s.scopes.map Scope.remembered
  scopeId : t.scopeId = s.scopeId
  scopesEntered : t.scopesEntered = s.scopesEntered

/-- Two states that agree but for the numbers of nodes and what only serves to take back and to report
other things than values. -/
structure State.Mirrors (ρ : Renaming) (s t : State) : Prop extends State.Recalls s t where
  columns : t.columns = s.columns
  tableau : t.tableau = s.tableau
  bounds : t.bounds = s.bounds.rename ρ
  dependencies : DependencyArena.Embeds ρ s.dependencies t.dependencies
  atoms : t.atoms = s.atoms
  monomials : t.monomials = s.monomials
  given : t.given = s.given
  status : t.status = s.status.rename ρ
  toPatch : t.toPatch = s.toPatch
  touched : t.touched = s.touched
  propagations : t.propagations = s.propagations

/-- Two engines with the given oracles and otherwise the same settings, whose states agree. -/
structure Mirrors (ρ : Renaming) (o p : Oracle) (a b : Engine) : Prop
    extends State.Mirrors ρ a.toState b.toState where
  valueStamps : b.valueStamps = a.valueStamps
  first : a.oracle = o
  second : b.oracle = p
  options : b.options = a.options
  selector : b.selector = a.selector
  integerChecks : b.integerChecks = a.integerChecks

/-- Engines with the same answer. -/
structure MirrorsWith {α : Type} (ρ : Renaming) (o p : Oracle) (x y : Engine × α) : Prop where
  engine : Mirrors ρ o p x.1 y.1
  answer : y.2 = x.2

variable {ρ : Renaming} {o p : Oracle} {a b : Engine}

theorem MirrorsWith.exists_eq {α : Type} {x y : Engine × α} (agree : MirrorsWith ρ o p x y) :
    ∃ a b answer, x = (a, answer) ∧ y = (b, answer) ∧ Mirrors ρ o p a b :=
  ⟨x.1, y.1, x.2, rfl, Prod.ext rfl agree.answer, agree.engine⟩

/-! ## Questions -/

namespace State.Mirrors

variable {s t : State} (mirrors : s.Mirrors ρ t)
include mirrors

theorem isInt : t.isInt = s.isInt := by
  funext v
  rw [State.isInt, State.isInt, State.sort, State.sort, mirrors.columns]

theorem term : t.term = s.term := by
  funext v
  rw [State.term, State.term, mirrors.columns]

theorem numVars : t.numVars = s.numVars := congrArg Array.size mirrors.columns

theorem depth : t.depth = s.depth := by
  have same := congrArg List.length mirrors.scopes
  rwa [List.length_map, List.length_map] at same

theorem isEmpty_scopes : t.scopes.isEmpty = s.scopes.isEmpty := by
  have same := congrArg List.isEmpty mirrors.scopes
  rwa [List.isEmpty_map, List.isEmpty_map] at same

theorem vars : t.vars = s.vars := congrArg List.range mirrors.numVars

theorem get? (r : RowId) : t.tableau.get? r = s.tableau.get? r := by rw [mirrors.tableau]

theorem rowIds : t.tableau.rowIds = s.tableau.rowIds := by rw [mirrors.tableau]

theorem kind : t.kind = s.kind := by
  funext v
  rw [State.kind, State.kind, mirrors.tableau]

theorem stored : t.stored = s.stored := by
  funext v
  rw [State.stored, State.stored, mirrors.values]

theorem value : t.value = s.value :=
  State.value_congr mirrors.values (congrArg Tableau.rows mirrors.tableau)

theorem isInfeasible : t.isInfeasible = s.isInfeasible := by
  rw [State.isInfeasible, State.isInfeasible, mirrors.status]
  cases s.status <;> rfl

theorem isConsistent : t.isConsistent = s.isConsistent := by
  rw [State.isConsistent, State.isConsistent, mirrors.status]
  cases s.status <;> rfl

theorem linearize (d : Dependency) : t.dependencies.linearize (d.map ρ) = s.dependencies.linearize d :=
  mirrors.dependencies.linearize d

theorem conflict : t.conflict = s.conflict := by
  rw [State.conflict, State.conflict, mirrors.status]
  cases s.status with
  | infeasible d => exact congrArg some (mirrors.linearize d)
  | consistent => rfl
  | checking => rfl

/-- The active bound, if its value passes a test. -/
theorem filter_get (v : Var) (kind : BoundKind) (test : InfRat → Bool) :
    (t.bounds.get v kind).filter (fun bound => test bound.value) =
      ((s.bounds.get v kind).filter fun bound => test bound.value).map (Bound.rename ρ) := by
  rw [mirrors.bounds, BoundStore.get_rename, Option.filter_map]
  rfl

theorem boundValue : t.bounds.value = s.bounds.value := by
  rw [mirrors.bounds, BoundStore.value_rename]

theorem isTighter : t.bounds.isTighter = s.bounds.isTighter := by
  rw [mirrors.bounds, BoundStore.isTighter_rename]

theorem reason (v : Var) (kind : BoundKind) :
    t.bounds.reason v kind = (s.bounds.reason v kind).map ρ := by
  rw [mirrors.bounds, BoundStore.reason_rename]

theorem isFixed : t.bounds.isFixed = s.bounds.isFixed := by
  funext v
  rw [BoundStore.isFixed, BoundStore.isFixed, BoundStore.lowerValue, BoundStore.upperValue,
    mirrors.boundValue]
  rfl

theorem lowerValue : t.bounds.lowerValue = s.bounds.lowerValue := by
  funext v
  rw [BoundStore.lowerValue, BoundStore.lowerValue, mirrors.boundValue]

theorem upperValue : t.bounds.upperValue = s.bounds.upperValue := by
  funext v
  rw [BoundStore.upperValue, BoundStore.upperValue, mirrors.boundValue]

end State.Mirrors

theorem Mirrors.roundBound (mirrors : Mirrors ρ o p a b) : b.roundBound = a.roundBound := by
  funext v kind value
  rw [Engine.roundBound, Engine.roundBound, mirrors.isInt]

/-! ## Bookkeeping -/

section Bookkeeping

variable (mirrors : Mirrors ρ o p a b)
include mirrors

theorem Mirrors.trace (tag tag' : TraceTag) (message message' : Unit → String) :
    Mirrors ρ o p (a.trace tag message) (b.trace tag' message') := { mirrors with }

theorem Mirrors.count (change change' : Statistics → Statistics) :
    Mirrors ρ o p (a.count change) (b.count change') := { mirrors with }

theorem Mirrors.declareChecking : Mirrors ρ o p a.declareChecking b.declareChecking := by
  rw [Engine.declareChecking, Engine.declareChecking, mirrors.isConsistent]
  split
  · exact { mirrors with status := rfl }
  · exact mirrors

theorem Mirrors.joinReasons (reasons : List Dependency) :
    Mirrors ρ o p (a.joinReasons reasons).1 (b.joinReasons (reasons.map (Option.map ρ))).1 ∧
      (b.joinReasons (reasons.map (Option.map ρ))).2 = (a.joinReasons reasons).2.map ρ := by
  obtain ⟨arena, same⟩ := mirrors.dependencies.joinAll reasons
  exact ⟨{ mirrors with dependencies := arena }, same⟩

theorem Mirrors.setConflict (reason : Dependency) :
    Mirrors ρ o p (a.setConflict reason) (b.setConflict (reason.map ρ)) := by
  rw [Engine.setConflict, Engine.setConflict, mirrors.isInfeasible]
  split
  · exact mirrors
  · exact { mirrors with status := rfl }

theorem Mirrors.decided? (v : Var) (kind : BoundKind) (threshold : Rat) :
    b.decided? v kind threshold =
      (a.decided? v kind threshold).map fun decided => (decided.1, decided.2.map ρ) := by
  have entailed := mirrors.filter_get v kind fun x => !kind.tighter (.ofRat threshold) x
  have refuted := mirrors.filter_get v kind.opposite
    fun x => kind.opposite.tighter x (.ofRat threshold)
  unfold Engine.decided?
  simp only [entailed, refuted]
  cases (a.bounds.get v kind).filter fun bound => !kind.tighter (.ofRat threshold) bound.value with
  | some bound => rfl
  | none =>
    cases (a.bounds.get v kind.opposite).filter fun bound =>
      kind.opposite.tighter bound.value (.ofRat threshold) <;> rfl

theorem Mirrors.propagateAtom (atom : AtomId) :
    Mirrors ρ o p (a.propagateAtom atom) (b.propagateAtom atom) := by
  have same : b.atoms.get? atom = a.atoms.get? atom := by rw [mirrors.atoms]
  rw [Engine.propagateAtom, Engine.propagateAtom, same]
  split
  · exact mirrors
  · rw [mirrors.decided?]
    rename_i found _
    cases a.decided? found.var found.kind found.threshold with
    | none => exact mirrors
    | some decided =>
      obtain ⟨sign, reason⟩ := decided
      have waiting : b.propagations ++
          [(⟨.ofSign atom sign, b.dependencies.linearize (reason.map ρ)⟩ : Propagation)] =
          a.propagations ++ [⟨.ofSign atom sign, a.dependencies.linearize reason⟩] := by
        rw [mirrors.propagations, mirrors.linearize]
      exact { mirrors with
        atoms := congrArg (·.markPropagated atom) mirrors.atoms
        propagations := waiting }

end Bookkeeping

theorem Mirrors.foldl {α : Type} {f g : Engine → α → Engine}
    (each : ∀ {a b}, Mirrors ρ o p a b → ∀ x, Mirrors ρ o p (f a x) (g b x)) (items : List α)
    (mirrors : Mirrors ρ o p a b) : Mirrors ρ o p (items.foldl f a) (items.foldl g b) := by
  induction items generalizing a b with
  | nil => exact mirrors
  | cons x rest ih => exact ih (each mirrors x)

theorem Mirrors.propagateAtomsOn (mirrors : Mirrors ρ o p a b) (v : Var) :
    Mirrors ρ o p (a.propagateAtomsOn v) (b.propagateAtomsOn v) := by
  have same : b.atoms.atomsOn v = a.atoms.atomsOn v := by rw [mirrors.atoms]
  rw [Engine.propagateAtomsOn, Engine.propagateAtomsOn, same]
  exact .foldl (fun later atom => later.propagateAtom atom) _ mirrors

theorem Mirrors.internAtom (mirrors : Mirrors ρ o p a b) (v : Var) (kind : BoundKind)
    (threshold : Rat) :
    MirrorsWith ρ o p (a.internAtom v kind threshold) (b.internAtom v kind threshold) := by
  have found : b.atoms.find? v kind threshold = a.atoms.find? v kind threshold := by
    rw [mirrors.atoms]
  have size : b.atoms.atoms.size = a.atoms.atoms.size := by rw [mirrors.atoms]
  rw [Engine.internAtom, Engine.internAtom, found]
  split
  · exact ⟨mirrors, rfl⟩
  · have added : Mirrors ρ o p { a with atoms := a.atoms.add v kind threshold }
        { b with atoms := b.atoms.add v kind threshold } :=
      { mirrors with atoms := congrArg (·.add v kind threshold) mirrors.atoms }
    simp only [size]
    exact ⟨added.propagateAtom _, rfl⟩

theorem Mirrors.mkVar (mirrors : Mirrors ρ o p a b) (sort : NumSort) (term : Term) :
    MirrorsWith ρ o p (a.mkVar sort term) (b.mkVar sort term) where
  engine := { mirrors with
    columns := congrArg (Array.push · (⟨sort, term⟩ : Variable)) mirrors.columns
    values := congrArg (Array.push · 0) mirrors.values
    bounds := congrArg BoundStore.addVar mirrors.bounds
    valueStamps := congrArg (Array.push · 0) mirrors.valueStamps }
  answer := mirrors.numVars

/-! ## One answer after another -/

/-- What goes on only after a success goes on in engines that agree. -/
theorem MirrorsWith.andThen {f g : Engine → Engine × Bool} :
    ∀ {x y : Engine × Bool}, MirrorsWith ρ o p x y →
      (∀ {a b}, Mirrors ρ o p a b → MirrorsWith ρ o p (f a) (g b)) →
      MirrorsWith ρ o p
        (match x with
          | (next, true) => f next
          | (next, false) => (next, false))
        (match y with
          | (next, true) => g next
          | (next, false) => (next, false)) := by
  intro x y agree second
  obtain ⟨a, b, ok, rfl, rfl, mirrors⟩ := agree.exists_eq
  cases ok with
  | true => exact second mirrors
  | false => exact ⟨mirrors, rfl⟩

theorem Mirrors.forEach {α : Type} {f g : Engine → α → Engine × Bool}
    (each : ∀ {a b}, Mirrors ρ o p a b → ∀ x, MirrorsWith ρ o p (f a x) (g b x)) (items : List α)
    (mirrors : Mirrors ρ o p a b) : MirrorsWith ρ o p (forEach f items a) (forEach g items b) := by
  induction items generalizing a b with
  | nil => exact ⟨mirrors, rfl⟩
  | cons x rest ih => exact (each mirrors x).andThen fun later => ih later

/-! ## Values and rows -/

section Values

variable (mirrors : Mirrors ρ o p a b)
include mirrors

theorem Mirrors.markToPatch (v : Var) : Mirrors ρ o p (a.markToPatch v) (b.markToPatch v) :=
  { mirrors with toPatch := congrArg (SortedSet.insert v) mirrors.toPatch }

/-- A value is saved in both engines or in none, as they have the same stamps. -/
theorem Mirrors.setValue (v : Var) (x : InfRat) :
    Mirrors ρ o p (a.setValue v x) (b.setValue v x) := by
  have given : Mirrors ρ o p { a with values := a.values.setIfInBounds v x }
      { b with values := b.values.setIfInBounds v x } :=
    { mirrors with values := congrArg (·.setIfInBounds v x) mirrors.values }
  have saves : b.saves v = a.saves v := by
    rw [Engine.saves, Engine.saves, mirrors.isEmpty_scopes, mirrors.valueStamps, mirrors.scopeId]
  unfold Engine.setValue
  change Mirrors ρ o p (if a.saves v = true then _ else _) (if b.saves v = true then _ else _)
  rw [saves]
  split
  · exact
      { given with
        valueStamps := congrArg₂ (·.setIfInBounds v ·) mirrors.valueStamps mirrors.scopeId
        valueTrail := by rw [mirrors.stored, mirrors.valueTrail] }
  · exact given

theorem Mirrors.carryRow (v : Var) (delta : InfRat) (r : RowId) :
    Mirrors ρ o p (carryRow v delta a r) (carryRow v delta b r) := by
  rw [Engine.carryRow, Engine.carryRow, mirrors.tableau, mirrors.stored]
  split
  · exact mirrors
  · split
    · exact mirrors
    · exact (mirrors.setValue _ _).markToPatch _

theorem Mirrors.updateValue (v : Var) (delta : InfRat) :
    Mirrors ρ o p (a.updateValue v delta) (b.updateValue v delta) := by
  rw [Engine.updateValue, Engine.updateValue, mirrors.tableau, mirrors.stored]
  exact .foldl (fun later r => later.carryRow v delta r) _ (mirrors.setValue _ _)

/-- Normalising a row keeps engines agreeing, as they have the same rows. -/
theorem Mirrors.normalizeRow (r : RowId) :
    Mirrors ρ o p (a.normalizeRow r) (b.normalizeRow r) := by
  have reduced (tracer tracer' : Tracer) : Mirrors ρ o p
      { a with tableau := a.tableau.normalize r, tracer := tracer }
      { b with tableau := b.tableau.normalize r, tracer := tracer' } :=
    { mirrors with tableau := congrArg (·.normalize r) mirrors.tableau }
  have same : (b.tableau.normalize r).get? r = (a.tableau.normalize r).get? r := by
    rw [mirrors.tableau]
  cases found : (a.tableau.normalize r).get? r with
  | none =>
    obtain ⟨tracer, at_a⟩ := normalizeRow_of_none found
    obtain ⟨tracer', at_b⟩ := normalizeRow_of_none (same.trans found)
    rw [at_a, at_b]
    exact reduced tracer tracer'
  | some row =>
    obtain ⟨tracer, at_a⟩ := normalizeRow_of_some found
    obtain ⟨tracer', at_b⟩ := normalizeRow_of_some (same.trans found)
    rw [at_a, at_b, mirrors.stored]
    exact ((reduced tracer tracer').setValue _ _).markToPatch _

theorem Mirrors.normalizePendingRows :
    Mirrors ρ o p a.normalizePendingRows b.normalizePendingRows := by
  rw [Engine.normalizePendingRows, Engine.normalizePendingRows, pendingRows, pendingRows,
    mirrors.tableau]
  exact .foldl (fun later r => later.normalizeRow r) _ mirrors

/-! ## Bounds -/

theorem Mirrors.touchRowsOf (v : Var) : Mirrors ρ o p (a.touchRowsOf v) (b.touchRowsOf v) := by
  have rows : (b.touchRowsOf v).touched = (a.touchRowsOf v).touched := by
    rw [Engine.touchRowsOf, Engine.touchRowsOf, mirrors.tableau, mirrors.touched]
  exact { mirrors with touched := rows }

theorem Mirrors.respectBound (v : Var) (kind : BoundKind) (value : InfRat) :
    Mirrors ρ o p (a.respectBound v kind value) (b.respectBound v kind value) := by
  rw [Engine.respectBound, Engine.respectBound, mirrors.kind, mirrors.stored]
  split
  · split
    · exact mirrors.updateValue _ _
    · exact mirrors
  · exact mirrors.markToPatch v
  · exact mirrors.markToPatch v

theorem Mirrors.afterTightening (v : Var) (kind : BoundKind) (value : InfRat) (origin : BoundOrigin) :
    Mirrors ρ o p (a.afterTightening v kind value origin) (b.afterTightening v kind value origin) := by
  have checked {a b : Engine} (mirrors : Mirrors ρ o p a b) : Mirrors ρ o p
      (if a.toPatch.isEmpty then a else a.declareChecking)
      (if b.toPatch.isEmpty then b else b.declareChecking) := by
    rw [mirrors.toPatch]
    split
    · exact mirrors
    · exact mirrors.declareChecking
  rw [Engine.afterTightening, Engine.afterTightening]
  refine (checked (Mirrors.respectBound ?_ v kind value)).propagateAtomsOn v
  split
  · exact (mirrors.count _ _).trace _ _ _ _
  · exact ((mirrors.count _ _).trace _ _ _ _).touchRowsOf v

/-- A bound crosses, is covered or is installed in both engines, with reasons that differ in the numbers
of nodes only. -/
theorem Mirrors.installBound (v : Var) (kind : BoundKind) (value : InfRat) (reason : Dependency)
    (origin : BoundOrigin) :
    MirrorsWith ρ o p (a.installBound v kind value reason origin)
      (b.installBound v kind value (reason.map ρ) origin) := by
  have offered := BoundStore.assert_rename ρ a.bounds
    ⟨v, kind, a.roundBound v kind value, reason, origin⟩
  unfold Engine.installBound
  simp only [mirrors.roundBound, mirrors.bounds]
  rw [show (a.bounds.rename ρ).assert ⟨v, kind, a.roundBound v kind value, reason.map ρ, origin⟩ = _
    from offered]
  cases a.bounds.assert ⟨v, kind, a.roundBound v kind value, reason, origin⟩ with
  | conflict opposite =>
    obtain ⟨joined, same⟩ := mirrors.joinReasons [reason, opposite]
    have failed := joined.setConflict (a.joinReasons [reason, opposite]).2
    rw [← same] at failed
    exact ⟨failed, rfl⟩
  | unchanged store => exact ⟨{ mirrors with bounds := rfl }, rfl⟩
  | tightened store =>
    have installed : Mirrors ρ o p { a with bounds := store } { b with bounds := store.rename ρ } :=
      { mirrors with bounds := rfl }
    exact ⟨installed.afterTightening v kind _ origin, rfl⟩

end Values

/-! ## Propagation -/

section Propagation

variable (mirrors : Mirrors ρ o p a b)
include mirrors

theorem Mirrors.termExtreme : b.termExtreme = a.termExtreme := by
  funext t side
  rw [Engine.termExtreme, Engine.termExtreme, mirrors.boundValue]

theorem Mirrors.rowSum : b.rowSum = a.rowSum := by
  funext terms side
  rw [Engine.rowSum, Engine.rowSum, mirrors.termExtreme]

theorem Mirrors.sumWithout : b.sumWithout = a.sumWithout := by
  funext sum t side
  rw [Engine.sumWithout, Engine.sumWithout, mirrors.termExtreme]

/-- What the limiting bounds of some terms rest on. -/
theorem Mirrors.reasons {α : Type} (items : List α) (var : α → Var) (side : α → BoundKind) :
    (items.map fun x => b.bounds.reason (var x) (side x)) =
      (items.map fun x => a.bounds.reason (var x) (side x)).map (Option.map ρ) := by
  simp only [List.map_map, Function.comp_def, mirrors.reason]

theorem Mirrors.impliedBound (terms : List (Var × Rat)) (side : BoundKind) (sum : RowSum)
    (t : Var × Rat) :
    MirrorsWith ρ o p (impliedBound terms side sum a t) (impliedBound terms side sum b t) := by
  rw [Engine.impliedBound, Engine.impliedBound, mirrors.sumWithout]
  split
  · exact ⟨mirrors, rfl⟩
  · simp only [mirrors.roundBound, mirrors.isTighter]
    split
    · obtain ⟨joined, same⟩ := mirrors.joinReasons
        ((terms.filter fun other => other.1 ≠ t.1).map fun other =>
          a.bounds.reason other.1 (limitingKind other.2 side))
      rw [mirrors.reasons, same]
      exact (joined.count _ _).installBound _ _ _ _ _
    · exact ⟨mirrors, rfl⟩

theorem Mirrors.impliedBoundsOf (r : RowId) :
    MirrorsWith ρ o p (a.impliedBoundsOf r) (b.impliedBoundsOf r) := by
  rw [Engine.impliedBoundsOf, Engine.impliedBoundsOf, mirrors.tableau, mirrors.rowSum]
  split
  · exact ⟨mirrors, rfl⟩
  · exact Mirrors.forEach (fun later t => (later.impliedBound _ _ _ t).andThen fun last =>
      last.impliedBound _ _ _ t) _ mirrors

theorem Mirrors.propagateImpliedBounds :
    MirrorsWith ρ o p a.propagateImpliedBounds b.propagateImpliedBounds := by
  have inspecting : Mirrors ρ o p { a with touched := [] } { b with touched := [] } :=
    { mirrors with touched := rfl }
  have limit : b.options.maxImpliedBoundRows = a.options.maxImpliedBoundRows := by
    rw [mirrors.options]
  rw [Engine.propagateImpliedBounds, Engine.propagateImpliedBounds, mirrors.touched, limit]
  exact Mirrors.forEach (fun later r => later.impliedBoundsOf r) _ inspecting

theorem Mirrors.violation? : b.violation? = a.violation? := by
  funext v
  rw [Engine.violation?, Engine.violation?, mirrors.tableau, mirrors.stored, mirrors.boundValue]

theorem Mirrors.firstViolation? (vs : List Var) : b.firstViolation? vs = a.firstViolation? vs := by
  induction vs with
  | nil => rfl
  | cons v rest ih => rw [Engine.firstViolation?, Engine.firstViolation?, mirrors.violation?, ih]

theorem Mirrors.entering? : b.entering? = a.entering? := by
  have moves : b.canMove = a.canMove := by
    funext v towards
    rw [canMove, canMove, mirrors.boundValue, mirrors.stored]
  funext form violated
  rw [Engine.entering?, Engine.entering?, moves]

theorem Mirrors.rowConflict (row : Row) (violated : BoundKind) :
    b.rowConflict row violated = (a.rowConflict row violated).map (Option.map ρ) := by
  rw [Engine.rowConflict, Engine.rowConflict, mirrors.reason, mirrors.reasons, List.map_cons]

theorem Mirrors.pivotAndUpdate (violation : Violation) (row : Row) (entering : Var) :
    Mirrors ρ o p (a.pivotAndUpdate violation row entering)
      (b.pivotAndUpdate violation row entering) := by
  rw [Engine.pivotAndUpdate, Engine.pivotAndUpdate, mirrors.stored]
  have moved := mirrors.updateValue entering
    ((violation.target - a.stored row.base).divide (row.form.coeff entering))
  generalize a.updateValue entering _ = x at moved ⊢
  generalize b.updateValue entering _ = y at moved ⊢
  have exchanged : Mirrors ρ o p { x with tableau := x.tableau.pivot violation.row entering }
      { y with tableau := y.tableau.pivot violation.row entering } :=
    { moved with tableau := congrArg (·.pivot violation.row entering) moved.tableau }
  exact ((exchanged.count _ _).markToPatch entering).trace _ _ _ _

omit mirrors in
/-- Engines that agree but for the numbers of nodes exchange the same bases during a repair, and agree
afterwards. -/
theorem Mirrors.repair (pivots : Nat) (mirrors : Mirrors ρ o p a b) :
    MirrorsWith ρ o p (repair pivots a) (repair pivots b) := by
  induction pivots generalizing a b with
  | zero => ?_
  | succ left ih => ?_
  all_goals
    rw [Engine.repair, Engine.repair, mirrors.toPatch, mirrors.firstViolation?]
    split
    · have settled : (if b.status = .checking then .consistent else b.status) =
          (if a.status = .checking then .consistent else a.status : Status).rename ρ := by
        rw [mirrors.status]
        cases a.status <;> rfl
      exact ⟨{ mirrors with toPatch := rfl, status := settled }, rfl⟩
    · rename_i violation rest _
      have taken : Mirrors ρ o p { a with toPatch := rest } { b with toPatch := rest } :=
        { mirrors with toPatch := rfl }
      simp only [mirrors.get?, taken.entering?, taken.rowConflict]
      split
      · exact ⟨taken, rfl⟩
      · rename_i row _
        split
        · obtain ⟨joined, same⟩ := taken.joinReasons
            (({ a with toPatch := rest } : Engine).rowConflict row violation.kind)
          rw [same]
          exact ⟨(joined.markToPatch _).setConflict _, rfl⟩
        · first
          | exact ⟨mirrors, rfl⟩
          | exact ih (taken.pivotAndUpdate _ _ _)

theorem Mirrors.makeFeasible : MirrorsWith ρ o p a.makeFeasible b.makeFeasible := by
  rw [Engine.makeFeasible, Engine.makeFeasible, pivotLimit, pivotLimit, mirrors.numVars]
  exact Mirrors.repair _ mirrors

theorem Mirrors.installLiteral (l : Literal) :
    MirrorsWith ρ o p (a.installLiteral l) (b.installLiteral l) := by
  have same : b.atoms.get? l.atom = a.atoms.get? l.atom := by rw [mirrors.atoms]
  rw [Engine.installLiteral, Engine.installLiteral, same]
  split
  · exact ⟨mirrors, rfl⟩
  · obtain ⟨arena, reason⟩ := mirrors.dependencies.mkLiteral l
    have noted : Mirrors ρ o p { a with dependencies := (a.dependencies.mkLiteral l).1 }
        { b with dependencies := (b.dependencies.mkLiteral l).1 } :=
      { mirrors with dependencies := arena }
    simp only [reason]
    exact noted.installBound _ _ _ _ _

omit mirrors in
theorem Mirrors.installQueued (count : Nat) (mirrors : Mirrors ρ o p a b) :
    MirrorsWith ρ o p (installQueued count a) (installQueued count b) := by
  induction count generalizing a b with
  | zero => exact ⟨mirrors, rfl⟩
  | succ count ih =>
    have same : b.atoms.next? = a.atoms.next? := by rw [mirrors.atoms]
    rw [Engine.installQueued, Engine.installQueued, same]
    split
    · exact ⟨mirrors, rfl⟩
    · rename_i l atoms _
      have taken : Mirrors ρ o p { a with atoms := atoms } { b with atoms := atoms } :=
        { mirrors with atoms := rfl }
      exact (taken.installLiteral l).andThen fun later => ih later

theorem Mirrors.propagateRows : MirrorsWith ρ o p a.propagateRows b.propagateRows := by
  rw [Engine.propagateRows, Engine.propagateRows, mirrors.options, mirrors.touched]
  split
  · exact ⟨mirrors, rfl⟩
  · refine mirrors.propagateImpliedBounds.andThen fun later => ?_
    rw [later.toPatch]
    split
    · exact ⟨later, rfl⟩
    · exact later.makeFeasible

end Propagation

/-! ## Reporting equalities -/

section Reporting

variable {h : History}

/-- Nodes that only the second engine gets change the numbers of later nodes only. -/
theorem Mirrors.extend (mirrors : Mirrors ρ o p a b) (founded : a.Founded h) {arena : DependencyArena}
    (extended : b.dependencies.Extends arena) :
    ∃ σ, Mirrors σ o p a { b with dependencies := arena } := by
  obtain ⟨σ, embeds, same⟩ := mirrors.dependencies.extend founded.formed.closed extended
  have bounds : a.bounds.rename ρ = a.bounds.rename σ := by
    refine congrArg (fun records => { a.bounds with records := records }) ?_
    apply Array.map_congr_left
    intro bound member
    have names := (founded.justified.supported bound member).names
    exact congrArg (fun reason => { bound with reason := reason })
      (DependencyArena.names_map names same).symm
  have status : a.status.rename ρ = a.status.rename σ := by
    cases found : a.status with
    | infeasible d =>
      exact congrArg Status.infeasible
        (DependencyArena.names_map (founded.blamed d found).names same).symm
    | consistent => rfl
    | checking => rfl
  exact ⟨σ, { mirrors with
    bounds := mirrors.bounds.trans bounds
    dependencies := embeds
    status := mirrors.status.trans status }⟩

theorem Mirrors.reportEquality (mirrors : Mirrors ρ o p a b) (founded : a.Founded h) (v : Var) :
    ∃ σ, Mirrors σ o p a (b.reportEquality v) := by
  rw [Engine.reportEquality]
  split
  · exact ⟨ρ, mirrors⟩
  · simp only
    split
    · exact ⟨ρ, mirrors⟩
    · rename_i w _
      obtain ⟨σ, later⟩ := mirrors.extend founded (DependencyArena.extends_joinOnto none
        [b.bounds.reason w .lower, b.bounds.reason w .upper,
          b.bounds.reason v .lower, b.bounds.reason v .upper])
      exact ⟨σ, { later with }⟩

/-- An engine that reports equalities still does as one that reports none. -/
theorem Mirrors.propagateFixedEqualities (mirrors : Mirrors ρ o p a b) (founded : a.Founded h) :
    ∃ σ, Mirrors σ o p a b.propagateFixedEqualities := by
  rw [Engine.propagateFixedEqualities]
  generalize b.vars = vs
  induction vs generalizing ρ b with
  | nil => exact ⟨ρ, mirrors⟩
  | cons v rest ih =>
    obtain ⟨σ, later⟩ := mirrors.reportEquality founded v
    exact ih later

end Reporting

/-- When nothing is shared there is nothing to report. -/
theorem propagateFixedEqualities_of_silent {e : Engine}
    (silent : ∀ term, e.oracle.sharesTerm term = false) : e.propagateFixedEqualities = e := by
  rw [Engine.propagateFixedEqualities]
  induction e.vars with
  | nil => rfl
  | cons v rest ih =>
    have unshared : e.sharedFixedValue? v = none := by
      rw [sharedFixedValue?, silent, Bool.false_and, if_neg Bool.false_ne_true]
    rw [List.foldl_cons, Engine.reportEquality, unshared]
    exact ih

/-- Engines that agree propagate the same, up to the numbers of nodes: what one of them reports as equal
may need nodes of its own. -/
theorem Mirrors.propagate {h : History} (mirrors : Mirrors ρ o p a b) (inv : a.Invariant h)
    (silent : ∀ term, o.sharesTerm term = false) :
    ∃ σ, MirrorsWith σ o p a.propagate b.propagate := by
  have succeeds := propagated_of_yes inv
  have normal := mirrors.normalizePendingRows
  revert succeeds
  rw [Engine.propagate, Engine.propagate, mirrors.isInfeasible]
  split
  · exact fun _ => ⟨ρ, mirrors, rfl⟩
  · simp only [normal.atoms]
    obtain ⟨a, b, ok, at_a, at_b, installed⟩ := (Mirrors.installQueued _ normal).exists_eq
    rw [at_a, at_b]
    cases ok with
    | false => exact fun _ => ⟨ρ, installed, rfl⟩
    | true =>
      obtain ⟨a, b, ok, at_a, at_b, feasible⟩ := installed.makeFeasible.exists_eq
      simp only [at_a, at_b]
      cases ok with
      | false => exact fun _ => ⟨ρ, feasible, rfl⟩
      | true =>
        obtain ⟨a, b, ok, at_a, at_b, derived⟩ := feasible.propagateRows.exists_eq
        simp only [at_a, at_b]
        cases ok with
        | false => exact fun _ => ⟨ρ, derived, rfl⟩
        | true =>
          intro succeeds
          have still := propagateFixedEqualities_of_silent (derived.first ▸ silent)
          have founded := ((succeeds rfl).steps.invariant inv).founded
          simp only [still] at founded ⊢
          obtain ⟨σ, reported⟩ := derived.propagateFixedEqualities founded
          exact ⟨σ, reported, rfl⟩

end Engine

end ArithDecide
