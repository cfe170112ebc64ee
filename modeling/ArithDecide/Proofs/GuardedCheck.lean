import ArithDecide.Guarded.Check
import ArithDecide.Proofs.Checking
import ArithDecide.Proofs.GuardedIntegers
import ArithDecide.Proofs.GuardedProducts

/-!
# Checks never fail

Whatever the engine asks of the store is allowed: rows are pivoted on one of their variables when none is
pending, and the base of a new row is a variable that occurs nowhere. A pivot brings the base where it was
to be brought, and the bounds exist that block a row.
-/

namespace ArithDecide

/-! ## Asking the store -/

namespace TableauSession

variable {s : TableauSession} {plain : PlainSession} {x : Engine.State}

theorem Kept.numVars_normalize (kept : s.Kept plain) (r : RowId) :
    (s.step (.normalize r)).store.numVars = s.store.numVars := by
  by_cases pending : ∃ row, s.store.rows[r]? = some row ∧ row.pending = true
  · obtain ⟨row, at_r, pending⟩ := pending
    exact (SparseTableau.normalize_of_pending kept.consistent kept.well at_r pending).numVars
  · have settled : ∀ row, s.store.rows[r]? = some row → row.pending = false :=
      fun row at_r => Bool.eq_false_iff.2 fun is => pending ⟨row, at_r, is⟩
    rw [TableauSession.step, SparseTableau.normalize_of_not_pending settled]

theorem Kept.numVars_pivot (kept : s.Kept plain) {r : RowId} {entering : Var}
    (allowed : s.allows (.pivot r entering) = true) :
    (s.step (.pivot r entering)).store.numVars = s.store.numVars := by
  obtain ⟨settled, row, found, occurs⟩ := kept.allows_pivot_iff.1 allowed
  obtain ⟨row, at_r, rfl⟩ := SparseTableau.get?_view found
  exact (SparseTableau.pivot_keeps kept.consistent kept.well settled at_r occurs).numVars

/-- A call that concerns rows only serves the tableau after it. -/
theorem Serves.step {call : TableauCall} {tableau : Tableau} (serves : s.Serves x)
    (allowed : s.allows call = true) (numVars : (s.step call).store.numVars = s.store.numVars)
    (scopes : (s.step call).scopes = s.scopes)
    (plain : PlainSession.step ⟨x.tableau, x.scopes.map Scope.tableau⟩ call =
      ⟨tableau, x.scopes.map Scope.tableau⟩) :
    (s.step call).Serves { x with tableau := tableau } where
  kept := plain ▸ serves.kept.step allowed
  numVars := numVars.trans serves.numVars
  marks := (congrArg _ scopes).trans serves.marks

end TableauSession

namespace Engine

open State

variable {e next : Engine} {h : History} {violation : Violation} {row : Row} {entering : Var}

theorem Runs.ask {call : TableauCall}
    (served : ∀ s : TableauSession, s.Serves e.toState →
      s.allows call = true ∧ (s.step call).Serves next.toState) :
    Runs e (Guarded.ask call) () next := by
  intro s serves
  obtain ⟨allowed, serves'⟩ := served s serves
  refine ⟨s.step call, ?_, serves', .call allowed⟩
  rw [Guarded.ask, serves.kept.guarded_step allowed]
  rfl

/-! ## Repairing -/

theorem sameStore_normalizeRow (e : Engine) (r : RowId) :
    SameStore { e with tableau := e.tableau.normalize r } (e.normalizeRow r) := by
  obtain ⟨mid, becomes, only⟩ := valuesOnly_normalizeRow e r
  have first : SameStore { e with tableau := e.tableau.normalize r } mid := by
    refine ⟨?_, ?_, ?_⟩ <;> rw [becomes.toState]
  exact first.trans only.sameStore

theorem runs_normalizeRow (e : Engine) (r : RowId) :
    Runs e (Guarded.normalizeRow e r) (e.normalizeRow r) (e.normalizeRow r) :=
  (Runs.ask fun _ serves => ⟨rfl, (sameStore_normalizeRow e r).serves
    (serves.step rfl (serves.kept.numVars_normalize r) rfl rfl)⟩).bind (.pure (.refl _) _)

theorem runs_normalizePendingRows (e : Engine) :
    Runs e (Guarded.normalizePendingRows e) e.normalizePendingRows e.normalizePendingRows :=
  runs_foldlM (P := fun _ => True) trivial fun next _ r _ => ⟨trivial, runs_normalizeRow next r⟩

/-- A row of a tableau without pending rows may be pivoted on each of its variables. -/
theorem runs_ask_pivot {r : RowId} (normalized : e.tableau.Normalized)
    (found : e.tableau.get? r = some row) (occurs : row.form.coeff entering ≠ 0) :
    Runs e (Guarded.ask (.pivot r entering)) () { e with tableau := e.tableau.pivot r entering } :=
  .ask fun s serves =>
    have view : s.store.view = e.tableau := serves.kept.view
    have allowed := serves.kept.allows_pivot_iff.2 ⟨view ▸ normalized, row, view ▸ found, occurs⟩
    ⟨allowed, serves.step allowed (serves.kept.numVars_pivot allowed) rfl rfl⟩

theorem runs_pivotAndUpdate (fitted : e.Fitted) (normalized : e.tableau.Normalized)
    (found : e.tableau.get? violation.row = some row) (occurs : row.form.coeff entering ≠ 0) :
    Runs e (Guarded.pivotAndUpdate e violation row entering)
      (e.pivotAndUpdate violation row entering) (e.pivotAndUpdate violation row entering) := by
  have reached := stored_pivotAndUpdate_base fitted found occurs (normalized _ _ found)
  refine .demanded (LinearForm.mentions_iff.2 occurs) (.demanded occurs (.demanded reached ?_))
  have only := valuesOnly_updateValue e entering
    ((violation.target - e.stored row.base).divide (row.form.coeff entering))
  have same : SameStore { e with tableau := e.tableau.pivot violation.row entering }
      (e.pivotAndUpdate violation row entering) :=
    ⟨congrArg (·.pivot violation.row entering) only.tableau, only.scopes, numVars_congr only.columns⟩
  exact (runs_ask_pivot normalized found occurs).bind (.pure same _)

/-- The bounds exist that block a row. -/
theorem guarded_rowConflict {target : InfRat}
    (bound : e.bounds.value row.base violation.kind = some target)
    (none_found : e.entering? row.form violation.kind = none) :
    Guarded.rowConflict e row violation.kind = .ok (e.rowConflict row violation.kind) := by
  rw [rowConflict_eq]
  refine guarded_reasons fun u member => ?_
  rcases List.mem_cons.1 member with rfl | member
  · obtain ⟨b, active, -⟩ := Option.map_eq_some_iff.1 bound
    exact Option.isSome_of_eq_some active
  · obtain ⟨t, at_t, rfl⟩ := List.mem_map.1 member
    obtain ⟨b, active, -⟩ := admits_of_blocked (entering?_eq_none none_found at_t)
    exact Option.isSome_of_eq_some active

theorem runs_declareConsistent (e : Engine) :
    Runs e (Guarded.declareConsistent e)
      { e with status := if e.status = .checking then .consistent else e.status }
      { e with status := if e.status = .checking then .consistent else e.status } := by
  rw [Guarded.declareConsistent]
  split
  · rename_i checking
    exact runs_declare (by rw [isInfeasible, checking])
  · exact .pure ⟨rfl, rfl, rfl⟩ _

/-- Explaining a conflict of a row runs without failing: every term has the bound that blocks it. -/
theorem runs_blocked {rest : List Var} (inv : e.Invariant h)
    (first : e.firstViolation? e.toPatch = some (violation, rest))
    (found : e.tableau.get? violation.row = some row)
    (none_found : e.entering? row.form violation.kind = none) :
    let taken := { e with toPatch := rest }
    let joined := taken.joinReasons (taken.rowConflict row violation.kind)
    Runs taken (Guarded.block taken violation row)
      ((joined.1.markToPatch violation.base).setConflict joined.2, false)
      ((joined.1.markToPatch violation.base).setConflict joined.2) := by
  intro taken joined
  obtain ⟨violates, -⟩ := firstViolation?_eq_some first
  have bound := violates.base_eq found ▸ violates.target
  have explained : ({ e with toPatch := rest } : Engine).Explained := inv.explained.congr rfl rfl
  have names := explained.names_reasonsOf (blockingBounds row violation.kind)
  rw [← rowConflict_eq] at names
  refine (Runs.lift (guarded_rowConflict bound none_found)).bind ((runs_joinReasons names).bind ?_)
  exact Runs.bind (.start (runs_conflictJoined explained names (by rfl)) (by exact ⟨rfl, rfl, rfl⟩))
    (.pure (.refl _) (_, false))

/-- A repair runs without failing: both variables of each exchange are found in the store, and so is the
term that is solved for. -/
theorem runs_repair (pivots : Nat) (inv : e.Invariant h) (normalized : e.tableau.Normalized) :
    Runs e (Guarded.repair pivots e) (repair pivots e) (repair pivots e).1 := by
  induction pivots using Nat.strongRecOn generalizing e with
  | _ pivots ih =>
    rw [Guarded.repair.eq_def, repair.eq_def]
    dsimp only
    cases first : e.firstViolation? e.toPatch with
    | none =>
      refine (runs_declareConsistent e).bind ?_
      exact .demanded inv.founded.formed.values_size.symm (.pure (by exact ⟨rfl, rfl, rfl⟩) _)
    | some item =>
      obtain ⟨violation, rest⟩ := item
      obtain ⟨violates, -⟩ := firstViolation?_eq_some first
      obtain ⟨row, found, -⟩ := Tableau.get?_of_rowOf? violates.heads
      dsimp only
      rw [found]
      dsimp only
      cases none_found : ({ e with toPatch := rest } : Engine).entering? row.form violation.kind with
      | none => exact .start (runs_blocked inv first found none_found) ⟨rfl, rfl, rfl⟩
      | some entering =>
        cases pivots with
        | zero => exact .pure (.refl e) _
        | succ left =>
          have occurs := entering?_eq_some none_found
          have exchanged : Step h e
              (({ e with toPatch := rest }).pivotAndUpdate violation row entering) :=
            .exchange violation rest row entering normalized first found occurs rfl
          have fitted : ({ e with toPatch := rest } : Engine).Fitted :=
            ⟨inv.founded.formed.values_size, inv.founded.formed.tableau⟩
          have next := ih left (Nat.lt_succ_self left) (exchanged.invariant inv)
            (exchanged.normalized normalized)
          exact .start ((runs_pivotAndUpdate fitted normalized found occurs).bind next)
            ⟨rfl, rfl, rfl⟩

theorem runs_makeFeasible (inv : e.Invariant h) (normalized : e.tableau.Normalized) :
    Runs e (Guarded.makeFeasible e) e.makeFeasible e.makeFeasible.1 :=
  runs_repair _ inv normalized

/-! ## Propagation -/

theorem runs_propagateRows (inv : e.Invariant h) (normalized : e.tableau.Normalized) :
    Runs e (Guarded.propagateRows e) e.propagateRows e.propagateRows.1 := by
  rw [Guarded.propagateRows, propagateRows]
  split
  · exact .pure (.refl e) _
  · refine (runs_propagateImpliedBounds inv).bind ?_
    have answers := answers_propagateImpliedBounds inv
    generalize e.propagateImpliedBounds = result at answers
    obtain ⟨next, ok⟩ := result
    cases ok with
    | false => exact .pure (.refl _) _
    | true =>
      have steps : Steps h e next := answers.steps rfl
      dsimp only
      split
      · exact .pure (.refl _) _
      · exact runs_makeFeasible (steps.invariant inv) (steps.normalized normalized)

/-- A propagation runs without failing, up to where it conflicts or ends. -/
theorem runs_propagate (inv : e.Invariant h) :
    Runs e (Guarded.propagate e) e.propagate e.propagate.1 := by
  rw [Guarded.propagate, propagate]
  split
  · exact .pure (.refl e) _
  · refine (runs_normalizePendingRows e).bind ?_
    dsimp only
    have normal_inv := (steps_normalizePendingRows h e).invariant inv
    have normalized := normalized_normalizePendingRows e
    generalize e.normalizePendingRows = normal at normal_inv normalized
    refine (runs_installQueued _ normal_inv).bind ?_
    have installs := answers_installQueued normal.atoms.queued.length normal_inv
    generalize installQueued normal.atoms.queued.length normal = result at installs
    obtain ⟨installed, ok⟩ := result
    cases ok with
    | false => exact .pure (.refl _) _
    | true =>
      have steps : Steps h normal installed := installs.steps rfl
      have installed_inv := steps.invariant normal_inv
      have normalized := steps.normalized normalized
      refine (runs_makeFeasible installed_inv normalized).bind ?_
      dsimp only
      have repairs := answers_makeFeasible installed_inv normalized
      generalize installed.makeFeasible = result at repairs
      obtain ⟨feasible, ok⟩ := result
      cases ok with
      | false => exact .pure (.refl _) _
      | true =>
        have steps : Steps h installed feasible := repairs.steps rfl
        have feasible_inv := steps.invariant installed_inv
        have normalized := steps.normalized normalized
        refine (runs_propagateRows feasible_inv normalized).bind ?_
        dsimp only
        have derives := answers_propagateRows feasible_inv normalized
        generalize feasible.propagateRows = result at derives
        obtain ⟨next, ok⟩ := result
        cases ok with
        | false => exact .pure (.refl _) _
        | true =>
          exact (runs_propagateFixedEqualities ((derives.steps rfl).invariant feasible_inv)).bind
            (.pure (.refl _) _)

/-! ## Variables and rows -/

theorem runs_ask_addVar (e : Engine) (sort : NumSort) (term : Term) :
    Runs e (Guarded.ask .addVar) () (e.mkVar sort term).1 :=
  .ask fun s serves => ⟨rfl,
    { kept := serves.kept.addVar
      numVars := (SparseTableau.numVars_addVar s.store).trans
        ((congrArg (· + 1) serves.numVars).trans (numVars_withVar e.toState ⟨sort, term⟩).symm)
      marks := serves.marks }⟩

theorem runs_mkVar (e : Engine) (sort : NumSort) (term : Term) :
    Runs e (Guarded.mkVar e sort term) (e.mkVar sort term) (e.mkVar sort term).1 :=
  (runs_ask_addVar e sort term).bind (.pure (.refl _) _)

/-- A new variable may be the base of a row over older ones. -/
theorem new_of_mkVar (well : e.tableau.WellFormed e.numVars) (sort : NumSort) (term : Term) :
    (e.mkVar sort term).2 < (e.mkVar sort term).1.numVars ∧
      (e.mkVar sort term).1.tableau.isFresh (e.mkVar sort term).2 = true ∧
      ∀ v, v < e.numVars → v ≠ (e.mkVar sort term).2 ∧ v < (e.mkVar sort term).1.numVars := by
  have numVars : (e.mkVar sort term).1.numVars = e.numVars + 1 := numVars_withVar e.toState _
  rw [numVars]
  exact ⟨Nat.lt_succ_self _, isFresh_numVars well,
    fun v lt => ⟨Nat.ne_of_lt lt, Nat.lt_succ_of_lt lt⟩⟩

/-- A row is added whose base occurs nowhere and whose variables are others. -/
theorem runs_pushRow {base : Var} {entries : List (Var × Rat)} (base_lt : base < e.numVars)
    (fresh : e.tableau.isFresh base = true)
    (others : ∀ entry ∈ entries, entry.1 ≠ base ∧ entry.1 < e.numVars) :
    Runs e (Guarded.pushRow e base entries) (e.pushRow base (.ofEntries entries))
      (e.pushRow base (.ofEntries entries)).1 := by
  refine (Runs.ask fun s serves => ?_).bind (.pure (.refl _) _)
  have view : s.store.view = e.tableau := serves.kept.view
  have unused : s.store.isFresh base = true :=
    serves.kept.consistent.isFresh_of_view (serves.numVars.symm ▸ base_lt) (view ▸ fresh)
  have lt : ∀ entry ∈ entries, entry.1 < s.store.numVars := fun entry member =>
    serves.numVars.symm ▸ (others entry member).2
  have allowed : s.allows (.addRow base entries) = true := by
    rw [TableauSession.allows, Bool.and_eq_true]
    refine ⟨unused, List.all_eq_true.2 fun entry member => ?_⟩
    rw [Bool.and_eq_true, bne_iff_ne, decide_eq_true_eq]
    exact ⟨(others entry member).1, lt entry member⟩
  have stores := SparseTableau.addRow_keeps serves.kept.consistent unused lt
  exact ⟨allowed, serves.step allowed stores.numVars rfl rfl⟩

theorem stores_normalizeRow (e : Engine) (r : RowId) :
    (e.normalizeRow r).bounds = e.bounds ∧ (e.normalizeRow r).dependencies = e.dependencies := by
  obtain ⟨mid, becomes, only⟩ := valuesOnly_normalizeRow e r
  rw [only.toState, becomes.toState]
  exact ⟨rfl, rfl⟩

/-! ## Integers -/

/-- Adding a valid cut runs without failing: its row is put in for a fresh variable, and its terms are
about variables that exist. -/
theorem runs_addCut {cut : Cut} {uses : List (Var × BoundKind)} (inv : e.Invariant h)
    (valid : cut.Valid e uses) (source : RowId) :
    Runs e (Guarded.addCut e source cut) (e.addCut source cut) (e.addCut source cut).1 := by
  have names := inv.explained.names_reasonsOf uses
  rw [← valid.reasons] at names
  rw [Guarded.addCut, addCut]
  refine (runs_joinReasons names).bind ?_
  have explained := (inv.explained.joined names).1
  have named := (inv.explained.joined names).2
  have lt : ∀ t ∈ cut.terms, t.1 < (e.joinReasons cut.reasons).1.numVars := valid.lt
  have well : (e.joinReasons cut.reasons).1.tableau.WellFormed (e.joinReasons cut.reasons).1.numVars :=
    inv.founded.formed.tableau
  generalize e.joinReasons cut.reasons = result at explained named lt well
  obtain ⟨joined, reason⟩ := result
  dsimp only at explained named lt well ⊢
  split
  · exact Runs.bind (runs_setConflict explained.closed named) (.pure (.refl _) (_, false))
  · generalize (if cut.integral then NumSort.int else .real) = sort
    refine (runs_mkVar joined sort .internal).bind ?_
    obtain ⟨base_lt, fresh, others⟩ := new_of_mkVar well sort .internal
    have explained : (joined.mkVar sort .internal).1.Explained := explained.congr rfl rfl
    have named : (joined.mkVar sort .internal).1.dependencies.Names reason := named
    generalize joined.mkVar sort .internal = result at base_lt fresh others explained named
    obtain ⟨added, slack⟩ := result
    refine (runs_pushRow base_lt fresh fun entry member => others entry.1 (lt entry member)).bind ?_
    have explained : (added.pushRow slack (.ofEntries cut.terms)).1.Explained :=
      explained.congr rfl rfl
    have named : (added.pushRow slack (.ofEntries cut.terms)).1.dependencies.Names reason := named
    generalize added.pushRow slack (.ofEntries cut.terms) = result at explained named
    obtain ⟨withRow, r⟩ := result
    refine (runs_normalizeRow withRow r).bind ?_
    obtain ⟨bounds, dependencies⟩ := stores_normalizeRow withRow r
    have explained := explained.congr (congrArg BoundStore.records bounds) dependencies
    have named : (withRow.normalizeRow r).dependencies.Names reason := dependencies ▸ named
    dsimp only
    generalize withRow.normalizeRow r = normal at explained named
    generalize traced_eq : Engine.trace _ _ _ = traced
    have becomes : normal.Becomes normal.toState traced := by
      rw [← traced_eq]
      exact ⟨rfl, rfl⟩
    refine .start (runs_installBound ?_ (becomes.toState ▸ named) slack .lower (.ofRat cut.bound) .cut)
      becomes.sameStore
    exact explained.congr (by rw [becomes.toState]) (by rw [becomes.toState])

/-- Cutting or branching runs without failing, whichever the ratio of the two asks for. -/
theorem runs_cutOrBranch (inv : e.Invariant h) (cuts : Nat) :
    Runs e (Guarded.cutOrBranch e cuts) (e.cutOrBranch cuts) (e.cutOrBranch cuts).1 := by
  rw [Guarded.cutOrBranch, cutOrBranch]
  cases chosen : (if e.mayCut cuts then e.cutSource? else none) with
  | none => exact runs_askBranch inv.explained
  | some chosen_row =>
    obtain ⟨r, row⟩ := chosen_row
    obtain ⟨-, source⟩ := Option.ite_none_right_eq_some.1 chosen
    obtain ⟨found, is_source⟩ := cutSource?_eq_some source
    have valid := valid_cutOf inv.founded.formed inv.founded.rounded is_source found
    refine (Runs.lift (guarded_cutOf is_source)).bind ((runs_addCut inv valid r).bind ?_)
    dsimp only
    generalize e.addCut r (e.cutOf row) = result
    obtain ⟨next, ok⟩ := result
    cases ok with
    | true => exact .pure (.refl _) _
    | false => exact .pure (.refl _) _

/-- The integer reasoning of a check runs without failing, through the divisibility tests, patches, cuts
and case splits. -/
theorem runs_checkIntegers (inv : e.Invariant h) (normalized : e.tableau.Normalized) (cuts : Nat) :
    Runs e (Guarded.checkIntegers e cuts) (e.checkIntegers cuts) (e.checkIntegers cuts).1 := by
  rw [Guarded.checkIntegers, checkIntegers]
  split
  · exact .pure (.refl e) _
  · generalize counted_eq : ({ e with integerChecks := e.integerChecks + 1 } : Engine) = counted
    have becomes : e.Becomes e.toState counted := by
      rw [← counted_eq]
      exact ⟨rfl, rfl⟩
    have counted_inv := becomes.steps.invariant inv
    refine .start ((runs_forEach (h := h) fun next steps r _ =>
      ⟨answers_testDivisibility (steps.invariant counted_inv) r,
        runs_testDivisibility (steps.invariant counted_inv) r⟩).bind ?_) becomes.sameStore
    dsimp only
    generalize tested_eq : forEach testDivisibility counted.tableau.rowIds counted = result
    obtain ⟨tested, ok⟩ := result
    cases ok with
    | false => exact .pure (.refl _) _
    | true =>
      have moved := moved_tested inv normalized becomes tested_eq
      refine (runs_patchIntegers tested).bind ?_
      dsimp only
      split
      · exact .pure (.refl _) _
      · exact runs_cutOrBranch (moved.steps.invariant inv) cuts

/-! ## The check -/

theorem runs_conflictResult (inv : e.Invariant h) :
    Runs e (do return (e, ← Guarded.conflictResult e)) (e, e.conflictResult) e := by
  have result : Guarded.conflictResult e = .ok e.conflictResult := by
    rw [Guarded.conflictResult, guarded_conflict inv, conflictResult, ok_bind]
    cases e.conflict <;> rfl
  exact (Runs.lift result).bind (.pure (.refl e) _)

/-- The rounds of a check run without failing. Each of them starts from rows in reduced form, as
propagation has normalised them. -/
theorem runs_checkRounds (rounds cuts : Nat) (pass : NonlinearPass) (inv : e.Invariant h) :
    Runs e (Guarded.checkRounds rounds cuts pass e) (checkRounds rounds cuts pass e)
      (checkRounds rounds cuts pass e).1 := by
  induction rounds generalizing cuts pass e with
  | zero => exact .pure (.refl e) _
  | succ rounds ih =>
    rw [Guarded.checkRounds, checkRounds]
    refine (runs_propagate inv).bind ?_
    have propagates := answers_propagate inv
    have succeeds := propagated_of_yes inv
    generalize e.propagate = result at propagates succeeds
    obtain ⟨propagated, ok⟩ := result
    cases ok with
    | false => exact runs_conflictResult (propagates.invariant inv)
    | true =>
      obtain ⟨steps, -, normalized, -⟩ := succeeds rfl
      have propagated_inv := steps.invariant inv
      refine (runs_checkIntegers propagated_inv normalized cuts).bind ?_
      dsimp only
      have answers := answers_checkIntegers propagated_inv normalized cuts
      generalize propagated.checkIntegers cuts = result at answers
      obtain ⟨next, outcome⟩ := result
      have next_inv := answers.invariant propagated_inv
      cases outcome with
      | conflict => exact runs_conflictResult next_inv
      | cutAdded => exact ih (cuts + 1) pass next_inv
      | branch split => exact .pure (.refl _) _
      | giveUp => exact .pure (.refl _) _
      | feasible =>
        dsimp only
        split
        · exact .pure (.refl _) _
        · refine (runs_checkNonlinear next_inv pass).bind ?_
          have concludes := concludes_checkNonlinear next_inv pass
          generalize next.checkNonlinear pass = result at concludes
          obtain ⟨last, spent, outcome⟩ := result
          have last_inv := concludes.answers.invariant next_inv
          cases outcome with
          | consistent => exact .pure (.refl _) _
          | conflict => exact runs_conflictResult last_inv
          | progress => exact ih cuts spent last_inv
          | giveUp => exact .pure (.refl _) _

theorem runs_check (inv : e.Invariant h) : Runs e (Guarded.check e) e.check e.check.1 :=
  .start (runs_checkRounds (h := h) _ _ _ inv) ⟨rfl, rfl, rfl⟩

end Engine

end ArithDecide
