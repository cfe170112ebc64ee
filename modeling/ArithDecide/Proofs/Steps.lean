import ArithDecide.Proofs.Scopes
import Mathlib.Logic.Relation

/-!
# The elementary steps of the engine

Everything the engine does between two calls is a sequence of a few kinds of elementary steps. Each
step keeps the invariant, changes nothing that leaving the open scope would not take back, and keeps
what was covered by bounds and which assignments can be extended to solutions. `Engine.Answers` is the
shape of an operation that may run into a conflict: steps, and possibly a conflict at the end.
-/

namespace ArithDecide.Engine

variable {e next last : Engine} {h : History}

/-! ## Kinds of steps -/

/-- One elementary step, given what was asserted. -/
inductive Step (h : History) (e next : Engine) : Prop
  /-- Only counters, trace and the like change. -/
  | quiet (becomes : e.Becomes e.toState next)
  | depend (arena : DependencyArena) (nodes : e.dependencies.Extends arena) (closed : arena.Closed)
      (becomes : e.Becomes { e.toState with dependencies := arena } next)
  | verdict (status : Status) (before : e.isInfeasible = false)
      (feasible : ∀ d, status ≠ .infeasible d)
      (becomes : e.Becomes { e.toState with status := status } next)
  | touch (touched : List RowId)
      (becomes : e.Becomes { e.toState with touched := touched } next)
  /-- An atom that the active bounds decide is marked as handed out and its literal is queued. -/
  | handOut (a : AtomId) (atom : Atom) (sign : Bool) (reason : Dependency)
      (found : e.atoms.get? a = some atom)
      (decided : e.decided? atom.var atom.kind atom.threshold = some (sign, reason))
      (becomes : e.Becomes { e.toState with
        atoms := e.atoms.markPropagated a
        propagations := e.propagations ++
          [⟨.ofSign a sign, e.dependencies.linearize reason⟩] } next)
  | report (pair : VarPair) (report : EqualityReport)
      (becomes : e.Becomes { e.toState with
        reported := e.reported ++ [pair]
        equalities := e.equalities ++ [report] } next)
  /-- A bound is offered that is not tighter than the active one. -/
  | note (v : Var) (kind : BoundKind)
      (becomes : e.Becomes { e.toState with bounds := e.bounds.note v kind } next)
  /-- A bound becomes active and its variable is moved onto it or noted for repair. -/
  | tighten (b : Bound) (store : BoundStore) (touched : List RowId) (mid : Engine)
      (ok : e.Installable h b) (done : e.bounds.assert b = .tightened store)
      (becomes : e.Becomes { e.toState with bounds := store, touched := touched } mid)
      (moved : next = mid.respectBound b.var b.kind b.value)
  /-- A variable that heads no row is moved within its bounds. -/
  | move (v : Var) (delta : InfRat) (lt : v < e.numVars) (free : e.kind v = .nonBase)
      (admits : e.bounds.admits v (e.stored v + delta) = true)
      (moved : next = e.updateValue v delta)
  | normalize (r : RowId) (moved : next = e.normalizeRow r)
  /-- Bases of rows in reduced form that violate nothing need not be repaired. -/
  | relax (vs : List Var)
      (dropped : ∀ v ∈ e.toPatch, v ∈ vs ∨ (e.violation? v = none ∧ e.kind v ≠ .pendingBase))
      (becomes : e.Becomes { e.toState with toPatch := vs } next)
  /-- A base is brought to the bound that it violates and exchanged with a variable of its row. -/
  | exchange (violation : Violation) (rest : List Var) (row : Row) (entering : Var)
      (normalized : e.tableau.Normalized)
      (first : e.firstViolation? e.toPatch = some (violation, rest))
      (found : e.tableau.get? violation.row = some row) (occurs : row.form.coeff entering ≠ 0)
      (moved : next = ({ e with toPatch := rest }).pivotAndUpdate violation row entering)
  /-- The oldest queued literal is taken. -/
  | dequeue (l : Literal) (atoms : AtomRegistry) (taken : e.atoms.next? = some (l, atoms))
      (becomes : e.Becomes { e.toState with atoms := atoms } next)
  | intern (v : Var) (kind : BoundKind) (threshold : Rat) (lt : v < e.numVars)
      (becomes : e.Becomes { e.toState with atoms := e.atoms.add v kind threshold } next)
  /-- A new variable is defined by a row, which is put into reduced form at once. -/
  | define (sort : NumSort) (form : LinearForm) (mid : Engine)
      (var_lt : ∀ v, form.coeff v ≠ 0 → v < e.numVars)
      (integral : sort = .int → ∀ v, form.coeff v ≠ 0 →
        e.isInt v = true ∧ ∃ n : Int, form.coeff v = n)
      (becomes : (e.mkVar sort .internal).1.Becomes
        { (e.mkVar sort .internal).1.toState with
          tableau := e.tableau.addRow e.numVars form } mid)
      (moved : next = mid.normalizeRow e.numRows)

/-- Steps one after another. -/
abbrev Steps (h : History) : Engine → Engine → Prop := Relation.ReflTransGen (Step h)

theorem Step.steps (step : Step h e next) : Steps h e next := .single step

theorem Becomes.steps (becomes : e.Becomes e.toState next) : Steps h e next := .single (.quiet becomes)

/-! ## The invariant -/

theorem ValuesOnly.founded (only : ValuesOnly e next) (inv : e.Founded h) : next.Founded h := by
  rw [only.toState]
  exact inv.values only.size only.trail

theorem valuesOnly_respectBound (e : Engine) (v : Var) (kind : BoundKind) (value : InfRat) :
    ValuesOnly e (e.respectBound v kind value) := by
  rw [respectBound]
  cases e.kind v with
  | nonBase =>
    simp only
    split
    · exact valuesOnly_updateValue _ _ _
    · exact .refl e
  | base | pendingBase => exact valuesOnly_markToPatch e v

theorem founded_normalizeRow (inv : e.Founded h) (r : RowId) : (e.normalizeRow r).Founded h := by
  obtain ⟨mid, becomes, result⟩ := normalizeRow_spec e r
  have first : mid.Founded h := by
    rw [becomes.toState]
    exact inv.normalize r
  rw [result]
  split
  · exact first
  · exact ((valuesOnly_setValue _ _ _).trans (valuesOnly_markToPatch _ _)).founded first

theorem reliable_congr {s t : State} (entered : t.scopesEntered = s.scopesEntered)
    (scopes : t.scopes = s.scopes) : t.Reliable ↔ s.Reliable := by
  rw [State.Reliable, State.Reliable, State.Numbered, State.Numbered, entered, State.depth, State.depth,
    scopes]

theorem ValuesOnly.scopesEntered (only : ValuesOnly e next) :
    next.scopesEntered = e.scopesEntered := by
  rw [only.toState]

theorem ValuesOnly.reliable_iff (only : ValuesOnly e next) : next.Reliable ↔ e.Reliable :=
  reliable_congr only.scopesEntered only.scopes

theorem invariant_normalizeRow (inv : e.Invariant h) (r : RowId) : (e.normalizeRow r).Invariant h where
  founded := founded_normalizeRow inv.founded r
  patched := patched_normalizeRow inv.founded.formed inv.patched r
  assigned reliable := by
    obtain ⟨mid, becomes, only⟩ := valuesOnly_normalizeRow e r
    rw [only.reliable_iff, becomes.toState] at reliable
    exact assigned_normalizeRow inv.founded.formed (inv.assigned reliable) r

theorem invariant_updateValue {v : Var} {delta : InfRat} (inv : e.Invariant h) (lt : v < e.numVars)
    (free : e.kind v = .nonBase) (admits : e.bounds.admits v (e.stored v + delta) = true) :
    (e.updateValue v delta).Invariant h :=
  have only := valuesOnly_updateValue e v delta
  have fitted := inv.founded.formed.toFitted
  ⟨only.founded inv.founded, inv.patched.updateValue fitted lt free delta, fun reliable =>
    assigned_updateValue fitted lt free
      ((inv.assigned (only.reliable_iff.1 reliable)).mono (by simp)) admits⟩

/-- After a bound was installed the invariant holds again once its variable respects the bound: it is
moved there, or waits if it heads a row. -/
theorem invariant_respectBound {mid : Engine} {b : Bound} {store : BoundStore}
    {touched : List RowId} (inv : e.Invariant h) (ok : e.Installable h b)
    (done : e.bounds.assert b = .tightened store)
    (becomes : e.Becomes { e.toState with bounds := store, touched := touched } mid) :
    (mid.respectBound b.var b.kind b.value).Invariant h := by
  have installed := BoundStore.installed_of_tightened inv.founded.formed.bounds ok.lt done
  have founded : mid.Founded h := by
    rw [becomes.toState]
    exact (inv.founded.install ok done).touch touched
  have only := valuesOnly_respectBound mid b.var b.kind b.value
  have lt : b.var < mid.numVars := by
    rw [becomes.toState]
    exact ok.lt
  have patched : mid.PatchedBut [b.var] := by
    rw [becomes.toState]
    exact (inv.patched.install installed).congr rfl rfl (fun _ _ => rfl) fun _ => id
  refine ⟨only.founded founded, patched_respectBound founded.formed lt patched, fun reliable => ?_⟩
  rw [only.reliable_iff, becomes.toState] at reliable
  have before := inv.assigned reliable
  have assigned : mid.AssignedBut [b.var] := by
    rw [becomes.toState]
    exact (before.install installed).congr rfl rfl rfl fun _ _ => rfl
  refine assigned_respectBound founded.formed lt assigned ?_ fun free respects => ?_
  · rw [becomes.toState]
    exact admits_installed_value installed
  · rw [becomes.toState] at free respects ⊢
    exact admits_installed installed (before.within _ ok.lt free List.not_mem_nil) respects

theorem reliable_pivotAndUpdate_iff (e : Engine) (violation : Violation) (row : Row)
    (entering : Var) : (e.pivotAndUpdate violation row entering).Reliable ↔ e.Reliable := by
  rw [pivotAndUpdate_toState]
  exact (valuesOnly_updateValue _ _ _).reliable_iff

theorem founded_pivotAndUpdate (inv : e.Founded h) (normalized : e.tableau.Normalized)
    {violation : Violation} {row : Row} {entering : Var}
    (found : e.tableau.get? violation.row = some row) (occurs : row.form.coeff entering ≠ 0) :
    (e.pivotAndUpdate violation row entering).Founded h := by
  rw [pivotAndUpdate_toState]
  generalize (violation.target - e.stored row.base).divide (row.form.coeff entering) = theta
  have only := valuesOnly_updateValue e entering theta
  have pivoted : State.Founded { (e.updateValue entering theta).toState with
      tableau := (e.updateValue entering theta).tableau.pivot violation.row entering } h :=
    (only.founded inv).pivot (only.tableau.symm ▸ normalized) (only.tableau.symm ▸ found) occurs
  exact pivoted.values rfl (Nat.le_refl _)

theorem invariant_exchange {violation : Violation} {rest : List Var} {row : Row} {entering : Var}
    (inv : e.Invariant h) (normalized : e.tableau.Normalized)
    (first : e.firstViolation? e.toPatch = some (violation, rest))
    (found : e.tableau.get? violation.row = some row) (occurs : row.form.coeff entering ≠ 0) :
    (({ e with toPatch := rest }).pivotAndUpdate violation row entering).Invariant h := by
  have formed := inv.founded.formed
  have founded : ({ e with toPatch := rest } : Engine).Founded h :=
    inv.founded.values rfl (Nat.le_refl _)
  refine ⟨founded_pivotAndUpdate founded normalized found occurs,
    patched_exchange formed.toFitted found occurs normalized inv.patched first, fun reliable => ?_⟩
  have before := (reliable_pivotAndUpdate_iff _ _ _ _).1 reliable
  exact assigned_exchange formed.toFitted found occurs formed.bounds.ordered normalized
    (inv.assigned before) first

theorem isFresh_numVars {t : Tableau} {n : Nat} (well : t.WellFormed n) : t.isFresh n = true := by
  refine Tableau.isFresh_iff.2 fun r row found => ⟨Nat.ne_of_lt (well.base_lt found), ?_⟩
  by_contra occurs
  exact absurd (well.var_lt found occurs) (Nat.lt_irrefl _)

/-- A variable of its own for a form keeps the invariant, whatever the form mentions. -/
theorem invariant_define {sort : NumSort} {form : LinearForm} {mid : Engine}
    (inv : e.Invariant h) (var_lt : ∀ v, form.coeff v ≠ 0 → v < e.numVars)
    (becomes : (e.mkVar sort .internal).1.Becomes
      { (e.mkVar sort .internal).1.toState with
        tableau := e.tableau.addRow e.numVars form } mid) : mid.Invariant h := by
  rw [becomes.toState]
  have founded := inv.founded.withVar ⟨sort, .internal⟩
  have own : form.coeff e.numVars = 0 := by
    by_contra occurs
    exact absurd (var_lt _ occurs) (Nat.lt_irrefl _)
  refine ⟨founded.addRow (isFresh_numVars inv.founded.formed.tableau) own ?_ ?_,
    (inv.patched.withVar _).addRow, fun reliable =>
      ((inv.assigned reliable).withVar inv.founded.formed _).addRow⟩
  · rw [State.numVars_withVar]
    exact Nat.lt_succ_self _
  · intro v occurs
    rw [State.numVars_withVar]
    exact Nat.lt_succ_of_lt (var_lt v occurs)

/-- Every step keeps the invariant. -/
theorem Step.invariant (step : Step h e next) (inv : e.Invariant h) : next.Invariant h := by
  have founded := inv.founded
  cases step with
  | quiet becomes => exact becomes.toState ▸ inv
  | depend arena nodes closed becomes =>
    rw [becomes.toState]
    exact inv.of_same (founded.depend nodes closed) rfl rfl rfl (fun _ _ => rfl) (fun _ => id) id
  | verdict status before feasible becomes =>
    rw [becomes.toState]
    exact inv.of_same (founded.feasible feasible) rfl rfl rfl (fun _ _ => rfl) (fun _ => id) id
  | touch touched becomes =>
    rw [becomes.toState]
    exact inv.of_same (founded.touch touched) rfl rfl rfl (fun _ _ => rfl) (fun _ => id) id
  | handOut a atom sign reason found decided becomes =>
    rw [becomes.toState]
    exact inv.of_same ((founded.markPropagated a).queue _ e.equalities) rfl rfl rfl (fun _ _ => rfl)
      (fun _ => id) id
  | report pair report becomes =>
    rw [becomes.toState]
    exact inv.of_same (founded.report pair report) rfl rfl rfl (fun _ _ => rfl) (fun _ => id) id
  | note v kind becomes =>
    rw [becomes.toState]
    exact inv.of_same (founded.note v kind) rfl rfl rfl (fun _ _ => rfl) (fun _ => id) id
  | tighten b store touched mid ok done becomes moved =>
    exact moved ▸ invariant_respectBound inv ok done becomes
  | move v delta lt free admits moved => exact moved ▸ invariant_updateValue inv lt free admits
  | normalize r moved => exact moved ▸ invariant_normalizeRow inv r
  | relax vs dropped becomes =>
    rw [becomes.toState]
    exact ⟨founded.values rfl (Nat.le_refl _), inv.patched.relax founded.formed.toFitted fun v waits =>
        (dropped v waits).imp_right fun harmless => .inr harmless.1,
      fun reliable => (inv.assigned reliable).congr rfl rfl rfl fun _ _ => rfl⟩
  | exchange violation rest row entering normalized first found occurs moved =>
    exact moved ▸ invariant_exchange inv normalized first found occurs
  | dequeue l atoms taken becomes =>
    rw [becomes.toState]
    exact inv.of_same (founded.dequeue taken) rfl rfl rfl (fun _ _ => rfl) (fun _ => id) id
  | intern v kind threshold lt becomes =>
    rw [becomes.toState]
    exact inv.of_same (founded.intern lt kind threshold) rfl rfl rfl (fun _ _ => rfl)
      (fun _ => id) id
  | define sort form mid var_lt integral becomes moved =>
    exact moved ▸ invariant_normalizeRow (invariant_define inv var_lt becomes) _

theorem Steps.invariant (steps : Steps h e next) (inv : e.Invariant h) : next.Invariant h := by
  induction steps with
  | refl => exact inv
  | tail _ step ih => exact step.invariant ih

/-! ## Reduced form -/

theorem tableau_normalizeRow (e : Engine) (r : RowId) :
    (e.normalizeRow r).tableau = e.tableau.normalize r := by
  obtain ⟨mid, becomes, only⟩ := valuesOnly_normalizeRow e r
  rw [only.tableau, becomes.toState]

/-- A row that is pending after a row was put into reduced form is another one. -/
theorem pending_normalize {t : Tableau} {r q : RowId} {row : Row}
    (found : (t.normalize r).get? q = some row) (pending : row.pending = true) :
    q ≠ r ∧ t.get? q = some row := by
  rw [Tableau.get?_normalize, Option.map_eq_some_iff] at found
  obtain ⟨before, at_q, same⟩ := found
  split at same
  · rw [← same] at pending
    cases pending
  · rename_i other
    subst same
    exact ⟨fun here => other ⟨here, pending⟩, at_q⟩

/-- When every other row is in reduced form and this one is put into it, all of them are. -/
theorem normalized_normalize {t : Tableau} {r : RowId}
    (others : ∀ q row, q ≠ r → t.get? q = some row → row.pending = false) :
    (t.normalize r).Normalized := by
  refine fun q row found => Bool.eq_false_iff.2 fun pending => ?_
  obtain ⟨other, at_q⟩ := pending_normalize found pending
  rw [others q row other at_q] at pending
  cases pending

/-- No step brings a row out of reduced form. -/
theorem Step.normalized (step : Step h e next) (normalized : e.tableau.Normalized) :
    next.tableau.Normalized := by
  cases step with
  | quiet becomes => exact becomes.toState ▸ normalized
  | depend arena nodes closed becomes => exact becomes.toState ▸ normalized
  | verdict status before feasible becomes => exact becomes.toState ▸ normalized
  | touch touched becomes => exact becomes.toState ▸ normalized
  | handOut a atom sign reason found decided becomes => exact becomes.toState ▸ normalized
  | report pair report becomes => exact becomes.toState ▸ normalized
  | note v kind becomes => exact becomes.toState ▸ normalized
  | tighten b store touched mid ok done becomes moved =>
    rw [moved, (valuesOnly_respectBound _ _ _ _).tableau, becomes.toState]
    exact normalized
  | move v delta lt free admits moved =>
    rw [moved, (valuesOnly_updateValue _ _ _).tableau]
    exact normalized
  | normalize r moved =>
    rw [moved, tableau_normalizeRow]
    exact normalized_normalize fun q row _ => normalized q row
  | relax vs dropped becomes => exact becomes.toState ▸ normalized
  | exchange violation rest row entering _ first found occurs moved =>
    rw [moved, pivotAndUpdate_toState]
    refine Tableau.normalized_pivot ?_
    rw [(valuesOnly_updateValue _ _ _).tableau]
    exact normalized
  | dequeue l atoms taken becomes => exact becomes.toState ▸ normalized
  | intern v kind threshold lt becomes => exact becomes.toState ▸ normalized
  | define sort form mid var_lt integral becomes moved =>
    rw [moved, tableau_normalizeRow, becomes.toState]
    refine normalized_normalize fun q row away at_q => ?_
    rw [Tableau.get?_addRow, if_neg (show ¬q = e.tableau.rows.size from away)] at at_q
    exact normalized q row at_q

theorem Steps.normalized (steps : Steps h e next) (normalized : e.tableau.Normalized) :
    next.tableau.Normalized := by
  induction steps with
  | refl => exact normalized
  | tail _ step ih => exact step.normalized ih

/-! ## Scopes -/

theorem scopesEntered_normalizeRow (e : Engine) (r : RowId) :
    (e.normalizeRow r).scopesEntered = e.scopesEntered := by
  obtain ⟨mid, becomes, only⟩ := valuesOnly_normalizeRow e r
  rw [only.scopesEntered, becomes.toState]

/-- Steps enter no scopes. -/
theorem Step.scopesEntered (step : Step h e next) : next.scopesEntered = e.scopesEntered := by
  cases step with
  | quiet becomes | depend _ _ _ becomes | verdict _ _ _ becomes | touch _ becomes
  | handOut _ _ _ _ _ _ becomes | report _ _ becomes | note _ _ becomes | relax _ _ becomes
  | dequeue _ _ _ becomes | intern _ _ _ _ becomes => rw [becomes.toState]
  | tighten b store touched mid ok done becomes moved =>
    rw [moved, (valuesOnly_respectBound _ _ _ _).scopesEntered, becomes.toState]
  | move v delta lt free admits moved => rw [moved, (valuesOnly_updateValue _ _ _).scopesEntered]
  | normalize r moved => rw [moved, scopesEntered_normalizeRow]
  | exchange violation rest row entering normalized first found occurs moved =>
    rw [moved, pivotAndUpdate_toState]
    exact (valuesOnly_updateValue _ _ _).scopesEntered
  | define sort form mid var_lt integral becomes moved =>
    rw [moved, scopesEntered_normalizeRow, becomes.toState]
    rfl

theorem Steps.scopesEntered (steps : Steps h e next) : next.scopesEntered = e.scopesEntered := by
  induction steps with
  | refl => rfl
  | tail _ step ih => rw [step.scopesEntered, ih]

/-! ## Taking back -/

theorem truncate_extends {arena more : DependencyArena} {n : Nat} (le : n ≤ arena.nodes.size)
    (extended : arena.Extends more) : more.truncate n = arena.truncate n := by
  refine congrArg DependencyArena.mk (Array.ext_getElem? fun id => ?_)
  rw [getElem?_take, getElem?_take]
  split
  · rename_i below
    have found := Array.getElem?_eq_getElem (Nat.lt_of_lt_of_le below le)
    rw [found]
    exact extended id _ found
  · rfl

/-- Nothing that a step does survives when the open scope is left. -/
theorem Step.inside (step : Step h e next) (inv : e.Invariant h) : e.Inside next := by
  have f := inv.founded.formed
  have same := State.Rewinds.refl e.toState
  cases step with
  | quiet becomes =>
    exact becomes.inside rfl rfl rfl rfl rfl rfl fun scope _ _ => same scope
  | depend arena nodes closed becomes =>
    refine becomes.inside rfl rfl rfl rfl rfl rfl fun scope outer is_open => ?_
    exact { same scope with
      dependencies := truncate_extends (f.passed scope outer is_open).dependencies nodes }
  | verdict status before feasible becomes =>
    exact becomes.inside rfl rfl rfl rfl rfl rfl fun scope _ _ => { same scope with }
  | touch touched becomes =>
    exact becomes.inside rfl rfl rfl rfl rfl rfl fun scope _ _ => { same scope with }
  | handOut a atom sign reason found decided becomes =>
    refine becomes.inside rfl rfl rfl rfl rfl rfl fun scope outer is_open => ?_
    exact { same scope with
      atoms := AtomRegistry.retractTo_markPropagated (f.passed scope outer is_open).atoms a }
  | report pair report becomes =>
    refine becomes.inside rfl rfl rfl rfl rfl rfl fun scope outer is_open => ?_
    exact { same scope with
      reported := List.take_append_of_le_length (f.passed scope outer is_open).reported }
  | note v kind becomes =>
    refine becomes.inside rfl rfl rfl rfl rfl rfl fun scope outer is_open => ?_
    exact { same scope with
      bounds := congrArg (BoundStore.shrink · scope.numVars)
        (BoundStore.retractTo_note (f.passed scope outer is_open).bounds v kind) }
  | tighten b store touched mid ok done becomes moved =>
    have first : e.Inside mid := by
      refine becomes.inside rfl rfl rfl rfl rfl rfl fun scope outer is_open => ?_
      have retracted : store.retractTo scope.bounds = e.bounds.retractTo scope.bounds := by
        rw [BoundStore.tightened_eq done]
        exact BoundStore.retractTo_install (f.passed scope outer is_open).bounds b
      exact { same scope with bounds := congrArg (BoundStore.shrink · scope.numVars) retracted }
    rw [moved]
    exact first.trans (inside_respectBound (first.marked f.marked) _ _ _)
  | move v delta lt free admits moved => exact moved ▸ inside_updateValue f.marked v delta
  | normalize r moved => exact moved ▸ inside_normalizeRow f r
  | relax vs dropped becomes =>
    exact becomes.inside rfl rfl rfl rfl rfl rfl fun scope _ _ => { same scope with }
  | exchange violation rest row entering normalized _ found occurs moved =>
    have first : e.Inside ({ e with toPatch := rest } : Engine) :=
      Becomes.inside ⟨rfl, rfl⟩ rfl rfl rfl rfl rfl rfl fun scope _ _ => { same scope with }
    have founded : ({ e with toPatch := rest } : Engine).Founded h :=
      inv.founded.values rfl (Nat.le_refl _)
    rw [moved]
    exact first.trans (inside_pivotAndUpdate founded.formed normalized found occurs)
  | dequeue l atoms taken becomes =>
    refine becomes.inside rfl rfl rfl rfl rfl rfl fun scope outer is_open => ?_
    exact { same scope with atoms := AtomRegistry.retractTo_next? taken }
  | intern v kind threshold lt becomes =>
    refine becomes.inside rfl rfl rfl rfl rfl rfl fun scope outer is_open => ?_
    exact { same scope with
      atoms := AtomRegistry.retractTo_add (f.passed scope outer is_open).atoms v kind threshold }
  | define sort form mid var_lt integral becomes moved =>
    have first := inside_mkVar f sort .internal
    have second : (e.mkVar sort .internal).1.Inside mid :=
      becomes.inside_tableau fun scope outer is_open =>
        Tableau.undoTo_addRow (f.recording_of_open is_open)
          (f.passed scope outer is_open).tableau _ _
    have middle := first.trans second
    rw [moved]
    exact middle.trans (inside_normalizeRow (invariant_define inv var_lt becomes).founded.formed _)

theorem Steps.inside (steps : Steps h e next) (inv : e.Invariant h) : e.Inside next := by
  induction steps with
  | refl => exact .refl e
  | tail before step ih =>
    exact ih.trans (step.inside (Steps.invariant before inv))

theorem Steps.reliable_iff (steps : Steps h e next) (inv : e.Invariant h) :
    next.Reliable ↔ e.Reliable :=
  reliable_congr steps.scopesEntered (steps.inside inv).scopes

end ArithDecide.Engine
