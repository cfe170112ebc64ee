import ArithDecide.Proofs.Propagation

/-!
# Whatever was asserted is in force

Once a literal left the queue the active bounds cover its bound, and a pair of variables that were said
to be equal has a difference that is fixed to zero, unless a conflict was found. `State.Standing` says
so; it outlives every change that keeps bounds, rows and atoms, and propagation keeps it while it
empties the queue.
-/

namespace ArithDecide.Engine

open State

variable {e next last : Engine} {h k : History} {l : Literal} {p : VarPair}

/-! ## The queue of asserted literals -/

/-- The same literals were asserted, and the same of them wait. -/
structure SameQueue (e next : Engine) : Prop where
  asserted : next.atoms.asserted = e.atoms.asserted
  processed : next.atoms.processed = e.atoms.processed

theorem SameQueue.of_atoms (atoms : next.atoms = e.atoms) : SameQueue e next :=
  ⟨by rw [atoms], by rw [atoms]⟩

theorem SameQueue.refl (e : Engine) : SameQueue e e := .of_atoms rfl

theorem SameQueue.trans (first : SameQueue e next) (second : SameQueue next last) :
    SameQueue e last :=
  ⟨second.asserted.trans first.asserted, second.processed.trans first.processed⟩

theorem SameQueue.queued (same : SameQueue e next) : next.atoms.queued = e.atoms.queued := by
  rw [AtomRegistry.queued, AtomRegistry.queued, same.asserted, same.processed]

theorem sameQueue_propagateAtom (e : Engine) (a : AtomId) : SameQueue e (e.propagateAtom a) := by
  rw [propagateAtom]
  split
  · exact .refl e
  · split
    · exact .refl e
    · exact ⟨asserted_markPropagated _ _, processed_markPropagated _ _⟩

theorem sameQueue_propagateAtomsOn (e : Engine) (v : Var) : SameQueue e (e.propagateAtomsOn v) := by
  rw [propagateAtomsOn]
  induction e.atoms.atomsOn v generalizing e with
  | nil => exact .refl e
  | cons a rest ih => exact (sameQueue_propagateAtom e a).trans (ih _)

theorem ValuesOnly.atoms (only : ValuesOnly e next) : next.atoms = e.atoms := by
  rw [only.toState]

theorem ValuesOnly.sameQueue (only : ValuesOnly e next) : SameQueue e next :=
  .of_atoms only.atoms

theorem sameQueue_normalizeRow (e : Engine) (r : RowId) : SameQueue e (e.normalizeRow r) := by
  obtain ⟨mid, becomes, only⟩ := valuesOnly_normalizeRow e r
  have first : SameQueue e mid := .of_atoms (by rw [becomes.toState])
  exact first.trans only.sameQueue

theorem sameQueue_normalizePendingRows (e : Engine) : SameQueue e e.normalizePendingRows := by
  rw [normalizePendingRows]
  induction e.pendingRows generalizing e with
  | nil => exact .refl e
  | cons r rest ih => exact (sameQueue_normalizeRow e r).trans (ih _)

theorem sameQueue_declareChecking (e : Engine) : SameQueue e e.declareChecking := by
  rw [declareChecking]
  split
  · exact .of_atoms rfl
  · exact .refl e

/-- What follows a tightened bound queues no literal to be installed. -/
theorem sameQueue_afterTightening (e : Engine) (v : Var) (kind : BoundKind) (value : InfRat)
    (origin : BoundOrigin) : SameQueue e (e.afterTightening v kind value origin) := by
  have rest {mid : Engine} (first : SameQueue e mid) : SameQueue e
      (((if (mid.respectBound v kind value).toPatch.isEmpty then mid.respectBound v kind value
        else (mid.respectBound v kind value).declareChecking)).propagateAtomsOn v) := by
    have second := first.trans (valuesOnly_respectBound mid v kind value).sameQueue
    refine SameQueue.trans ?_ (sameQueue_propagateAtomsOn _ v)
    split
    · exact second
    · exact second.trans (sameQueue_declareChecking _)
  rw [afterTightening]
  by_cases derived : origin = .derived
  · simp only [derived, if_true]
    exact rest (.of_atoms rfl)
  · simp only [derived, if_false]
    exact rest (.of_atoms rfl)

theorem sameQueue_setConflict (e : Engine) (d : Dependency) : SameQueue e (e.setConflict d) := by
  rw [setConflict]
  split
  · exact .refl e
  · exact .of_atoms rfl

/-- Installing a bound neither asserts literals nor takes them from the queue. -/
theorem sameQueue_installBound (e : Engine) (v : Var) (kind : BoundKind) (value : InfRat)
    (reason : Dependency) (origin : BoundOrigin) :
    SameQueue e (e.installBound v kind value reason origin).1 := by
  rw [installBound]
  cases e.bounds.assert ⟨v, kind, e.roundBound v kind value, reason, origin⟩ with
  | conflict opposite =>
    have joined : SameQueue e (e.joinReasons [reason, opposite]).1 := .of_atoms rfl
    exact joined.trans (sameQueue_setConflict _ _)
  | unchanged store => exact .of_atoms rfl
  | tightened store =>
    have installed : SameQueue e { e with bounds := store } := .of_atoms rfl
    exact installed.trans (sameQueue_afterTightening _ _ _ _ _)

theorem sameQueue_internAtom (e : Engine) (v : Var) (kind : BoundKind) (threshold : Rat) :
    SameQueue e (e.internAtom v kind threshold).1 := by
  rw [internAtom]
  split
  · exact .refl e
  · have added : SameQueue e { e with atoms := e.atoms.add v kind threshold } := ⟨rfl, rfl⟩
    exact added.trans (sameQueue_propagateAtom _ _)

/-- As long as no literal waits, steps leave the queue alone. -/
theorem Step.sameQueue (step : Step h e next) (drained : e.atoms.queued = []) : SameQueue e next := by
  cases step with
  | quiet becomes => exact .of_atoms (by rw [becomes.toState])
  | depend arena nodes closed becomes => exact .of_atoms (by rw [becomes.toState])
  | verdict status before feasible becomes => exact .of_atoms (by rw [becomes.toState])
  | touch touched becomes => exact .of_atoms (by rw [becomes.toState])
  | handOut a atom sign reason found decided becomes =>
    exact ⟨by rw [becomes.toState]; exact asserted_markPropagated _ _,
      by rw [becomes.toState]; exact processed_markPropagated _ _⟩
  | report pair report becomes => exact .of_atoms (by rw [becomes.toState])
  | note v kind becomes => exact .of_atoms (by rw [becomes.toState])
  | tighten b store touched mid ok done becomes moved =>
    have first : SameQueue e mid := .of_atoms (by rw [becomes.toState])
    rw [moved]
    exact first.trans (valuesOnly_respectBound _ _ _ _).sameQueue
  | move v delta lt free admits moved =>
    rw [moved]
    exact (valuesOnly_updateValue e v delta).sameQueue
  | normalize r moved =>
    rw [moved]
    exact sameQueue_normalizeRow e r
  | relax vs dropped becomes => exact .of_atoms (by rw [becomes.toState])
  | exchange violation rest row entering normalized first found occurs moved =>
    refine .of_atoms ?_
    rw [moved, pivotAndUpdate_toState]
    exact (valuesOnly_updateValue _ _ _).atoms
  | dequeue l atoms taken becomes =>
    rw [AtomRegistry.next?, drained] at taken
    cases taken
  | intern v kind threshold lt becomes =>
    exact ⟨by rw [becomes.toState]; rfl, by rw [becomes.toState]; rfl⟩
  | define sort form mid var_lt integral becomes moved =>
    have first : SameQueue e mid := .of_atoms (by rw [becomes.toState]; rfl)
    rw [moved]
    exact first.trans (sameQueue_normalizeRow _ _)

theorem Steps.sameQueue (steps : Steps h e next) (drained : e.atoms.queued = []) :
    SameQueue e next := by
  induction steps with
  | refl => exact .refl e
  | tail _ step ih => exact ih.trans (step.sameQueue (ih.queued.trans drained))

theorem Fails.sameQueue (fails : Fails h e next) : SameQueue e next := by
  cases fails with
  | again before becomes => exact .of_atoms (by rw [becomes.toState])
  | conflict d before blames becomes => exact .of_atoms (by rw [becomes.toState])

theorem Answers.sameQueue {result : Engine × Bool} (answers : Answers h e result)
    (drained : e.atoms.queued = []) : SameQueue e result.1 := by
  cases answers with
  | yes steps => exact steps.sameQueue drained
  | gaveUp steps => exact steps.sameQueue drained
  | conflict steps fails => exact (steps.sameQueue drained).trans fails.sameQueue

/-! ## What is in force -/

namespace State

variable {s t u : State}

/-- The active bounds cover the bound of the literal. -/
def HonorsLiteral (s : State) (l : Literal) : Prop :=
  ∃ atom, s.atoms.get? l.atom = some atom ∧
    s.bounds.Covers atom.var (atom.bound l.negative).1 (atom.bound l.negative).2

/-- The rows make the variables equal when some variable is zero, and the active bounds fix that
variable to zero. -/
def HonorsPair (s : State) (p : VarPair) : Prop :=
  p.left = p.right ∨ ∃ d, d < s.numVars ∧
    (∀ α : Var → Rat, s.tableau.Holds α → α d = 0 → α p.left = α p.right) ∧
    ∀ kind, s.bounds.Covers d kind 0

/-- What is needed of a later state for everything to stay in force. -/
structure Retains (s next : State) : Prop where
  numVars : s.numVars ≤ next.numVars
  atoms : ∀ a atom, s.atoms.get? a = some atom → ∃ later, next.atoms.get? a = some later ∧
    later.var = atom.var ∧ later.kind = atom.kind ∧ later.threshold = atom.threshold
  covers : ∀ v kind value, s.bounds.Covers v kind value → next.bounds.Covers v kind value
  rows : ∀ α : Var → Rat, next.tableau.Holds α → s.tableau.Holds α
  infeasible : s.isInfeasible = true → next.isInfeasible = true

theorem Keeps.retains (keeps : s.Keeps t) : s.Retains t :=
  ⟨keeps.numVars, keeps.grows.atoms, keeps.covers, keeps.rows, keeps.infeasible⟩

theorem Retains.trans (first : s.Retains t) (second : t.Retains u) :
    s.Retains u where
  numVars := first.numVars.trans second.numVars
  atoms a atom found := by
    obtain ⟨mid, found', var_eq, kind_eq, threshold_eq⟩ := first.atoms a atom found
    obtain ⟨late, found'', var_eq', kind_eq', threshold_eq'⟩ := second.atoms a mid found'
    exact ⟨late, found'', var_eq'.trans var_eq, kind_eq'.trans kind_eq,
      threshold_eq'.trans threshold_eq⟩
  covers v kind value covered := second.covers v kind value (first.covers v kind value covered)
  rows α holds := first.rows α (second.rows α holds)
  infeasible infeasible := second.infeasible (first.infeasible infeasible)

theorem Atom.bound_congr {atom later : Atom} (kind_eq : later.kind = atom.kind)
    (threshold_eq : later.threshold = atom.threshold) (negative : Bool) :
    later.bound negative = atom.bound negative := by
  simp only [Atom.bound, kind_eq, threshold_eq]

theorem Retains.honorsLiteral (retains : s.Retains t) (honors : s.HonorsLiteral l) :
    t.HonorsLiteral l := by
  obtain ⟨atom, found, covered⟩ := honors
  obtain ⟨later, found', var_eq, kind_eq, threshold_eq⟩ := retains.atoms _ atom found
  refine ⟨later, found', ?_⟩
  rw [var_eq, Atom.bound_congr kind_eq threshold_eq]
  exact retains.covers _ _ _ covered

theorem Retains.honorsPair (retains : s.Retains t) (honors : s.HonorsPair p) : t.HonorsPair p := by
  refine honors.imp_right fun ⟨d, lt, equal, fixed⟩ => ⟨d, Nat.lt_of_lt_of_le lt retains.numVars, ?_, ?_⟩
  · exact fun α holds => equal α (retains.rows α holds)
  · exact fun kind => retains.covers d kind 0 (fixed kind)

/-- Unless there is a conflict, the literals that left the queue, the equalities and the unconditional
bounds are in force, and no literal was rejected. -/
structure Standing (s : State) (h : History) : Prop where
  processed_le : s.atoms.processed ≤ s.atoms.asserted.length
  literals : s.isInfeasible = false →
    ∀ l ∈ s.atoms.asserted.take s.atoms.processed, s.HonorsLiteral l
  pairs : s.isInfeasible = false → ∀ p ∈ h.equated, s.HonorsPair p
  given : s.isInfeasible = false → ∀ g ∈ s.given, s.bounds.Covers g.var g.kind g.value
  rejected : s.isInfeasible = false → h.rejected = []

/-- After a conflict nothing has to be in force. -/
theorem Standing.of_infeasible (processed_le : s.atoms.processed ≤ s.atoms.asserted.length)
    (infeasible : s.isInfeasible = true) : s.Standing h where
  processed_le := processed_le
  literals feasible := absurd infeasible (by rw [feasible]; exact Bool.false_ne_true)
  pairs feasible := absurd infeasible (by rw [feasible]; exact Bool.false_ne_true)
  given feasible := absurd infeasible (by rw [feasible]; exact Bool.false_ne_true)
  rejected feasible := absurd infeasible (by rw [feasible]; exact Bool.false_ne_true)

theorem Retains.feasible (retains : s.Retains t) (feasible : t.isInfeasible = false) :
    s.isInfeasible = false := by
  by_contra infeasible
  rw [Bool.not_eq_false] at infeasible
  exact absurd (retains.infeasible infeasible) (by simp [feasible])

/-- When the queue is empty all asserted literals are in force. -/
theorem Standing.honors (standing : s.Standing h) (feasible : s.isInfeasible = false)
    (drained : s.atoms.queued = []) (asserted : l ∈ s.atoms.asserted) : s.HonorsLiteral l := by
  refine standing.literals feasible l ?_
  rw [← List.take_append_drop s.atoms.processed s.atoms.asserted, List.mem_append] at asserted
  refine asserted.resolve_right fun waits => ?_
  rw [show s.atoms.asserted.drop s.atoms.processed = [] from drained] at waits
  cases waits

/-- Everything stays in force, and more may be asserted. -/
theorem Standing.retained (standing : s.Standing h) (retains : s.Retains t)
    (asserted : s.atoms.asserted <+: t.atoms.asserted)
    (processed : t.atoms.processed = s.atoms.processed)
    (pairs : t.isInfeasible = false → ∀ p ∈ k.equated, p ∈ h.equated ∨ t.HonorsPair p)
    (given : t.isInfeasible = false → ∀ g ∈ t.given,
      g ∈ s.given ∨ t.bounds.Covers g.var g.kind g.value)
    (rejected : t.isInfeasible = false → k.rejected = h.rejected) : t.Standing k where
  processed_le := processed ▸ standing.processed_le.trans asserted.length_le
  literals feasible l member := by
    obtain ⟨more, same⟩ := asserted
    rw [processed, ← same, List.take_append_of_le_length standing.processed_le] at member
    exact retains.honorsLiteral (standing.literals (retains.feasible feasible) l member)
  pairs feasible p equated :=
    (pairs feasible p equated).elim
      (fun old => retains.honorsPair (standing.pairs (retains.feasible feasible) p old)) id
  given feasible g member :=
    (given feasible g member).elim
      (fun old => retains.covers _ _ _ (standing.given (retains.feasible feasible) g old)) id
  rejected feasible := (rejected feasible).trans (standing.rejected (retains.feasible feasible))

end State

/-! ## Propagation -/

theorem Standing.kept (standing : e.Standing h) (keeps : e.Keeps next.toState)
    (same : SameQueue e next) : next.Standing h :=
  standing.retained keeps.retains (same.asserted ▸ List.prefix_refl _) same.processed
    (fun _ _ equated => .inl equated) (fun _ _ member => .inl (keeps.given ▸ member)) fun _ => rfl

/-- With an empty queue everything stays in force whatever the engine does. -/
theorem Answers.standing {result : Engine × Bool} (answers : Answers h e result)
    (inv : e.Invariant h) (standing : e.Standing h) (drained : e.atoms.queued = []) :
    result.1.Standing h :=
  Standing.kept standing (answers.keeps inv) (answers.sameQueue drained)

theorem admits_roundBound_self (e : Engine) (v : Var) (kind : BoundKind) (value : InfRat) :
    kind.admits value (e.roundBound v kind value) = true := by
  rw [roundBound]
  split
  · rw [← admits_roundInt]
    exact BoundKind.admits_refl _ _
  · exact BoundKind.admits_refl _ _

/-- Rounding does not loosen a bound. -/
theorem covers_of_rounded {store : BoundStore} {v : Var} {kind : BoundKind} {value : InfRat}
    (covered : store.Covers v kind (e.roundBound v kind value)) : store.Covers v kind value := by
  obtain ⟨active, found, admits⟩ := covered
  exact ⟨active, found, BoundKind.admits_trans (admits_roundBound_self e v kind value) admits⟩

theorem sameQueue_installLiteral (e : Engine) (l : Literal) :
    SameQueue e (e.installLiteral l).1 := by
  rw [installLiteral]
  split
  · exact .refl e
  · have noted : SameQueue e { e with dependencies := (e.dependencies.mkLiteral l).1 } :=
      .of_atoms rfl
    exact noted.trans (sameQueue_installBound _ _ _ _ _ _)

/-- The bound of an installed literal is in force unless there is a conflict. -/
theorem honorsLiteral_installLiteral (inv : e.Invariant h) (asserted : l ∈ e.atoms.asserted)
    (feasible : (e.installLiteral l).1.isInfeasible = false) :
    (e.installLiteral l).1.HonorsLiteral l := by
  obtain ⟨atom, found, -⟩ := inv.founded.registered.assigned l asserted
  obtain ⟨steps, offered⟩ := offered_literal inv found asserted
  have answers := answers_installLiteral inv asserted
  obtain ⟨later, found', var_eq, kind_eq, threshold_eq⟩ :=
    (answers.keeps inv).grows.atoms _ atom found
  refine ⟨later, found', ?_⟩
  rw [var_eq, Atom.bound_congr kind_eq threshold_eq]
  rw [installLiteral, found] at feasible ⊢
  have installed := covers_installBound (steps.invariant inv) offered
  refine covers_of_rounded (installed ?_)
  by_contra no
  rw [Bool.not_eq_true] at no
  exact absurd (infeasible_installBound no) (by rw [feasible]; exact Bool.false_ne_true)

/-- Taking a literal from the queue and installing its bound keeps everything in force. -/
theorem standing_installNext {atoms : AtomRegistry} (inv : e.Invariant h)
    (standing : e.Standing h) (taken : e.atoms.next? = some (l, atoms)) :
    (({ e with atoms := atoms }).installLiteral l).1.Standing h := by
  obtain ⟨found, atoms_eq⟩ := next?_eq_some taken
  have dequeued : Step h e { e with atoms := atoms } := .dequeue l atoms taken ⟨rfl, rfl⟩
  generalize taken_eq : ({ e with atoms := atoms } : Engine) = waiting at dequeued ⊢
  have waiting_atoms : waiting.atoms = { e.atoms with processed := e.atoms.processed + 1 } := by
    rw [← taken_eq]
    exact atoms_eq
  have waiting_inv := dequeued.invariant inv
  have asserted : l ∈ waiting.atoms.asserted := by
    rw [waiting_atoms]
    exact List.mem_of_getElem? found
  have answers := answers_installLiteral waiting_inv asserted
  have keeps := (dequeued.keeps inv).trans (answers.keeps waiting_inv)
  have retains := keeps.retains
  have honored := honorsLiteral_installLiteral waiting_inv asserted
  have same := sameQueue_installLiteral waiting l
  generalize (waiting.installLiteral l).1 = next at *
  have next_asserted : next.atoms.asserted = e.atoms.asserted := by rw [same.asserted, waiting_atoms]
  have next_processed : next.atoms.processed = e.atoms.processed + 1 := by
    rw [same.processed, waiting_atoms]
  refine ⟨?_, fun feasible m member => ?_, fun feasible p equated => ?_, fun feasible g member => ?_,
    fun feasible => standing.rejected (retains.feasible feasible)⟩
  · rw [next_asserted, next_processed]
    exact (List.getElem?_eq_some_iff.1 found).1
  · rw [next_asserted, next_processed, List.take_add_one, found, List.mem_append] at member
    rcases member with earlier | latest
    · exact retains.honorsLiteral (standing.literals (retains.feasible feasible) m earlier)
    · obtain rfl : m = l := by simpa using latest
      exact honored feasible
  · exact retains.honorsPair (standing.pairs (retains.feasible feasible) p equated)
  · exact retains.covers _ _ _
      (standing.given (retains.feasible feasible) g (keeps.given ▸ member))

/-- Installing the queued literals puts them into force and empties the queue, unless one of them is a
conflict. -/
theorem standing_installQueued (count : Nat) (inv : e.Invariant h) (standing : e.Standing h)
    (enough : e.atoms.queued.length ≤ count) :
    (installQueued count e).1.Standing h ∧
      ((installQueued count e).2 = true → (installQueued count e).1.atoms.queued = []) := by
  induction count generalizing e with
  | zero => exact ⟨standing, fun _ => List.eq_nil_of_length_eq_zero (Nat.le_zero.1 enough)⟩
  | succ count ih =>
    rw [installQueued]
    split
    · rename_i empty
      refine ⟨standing, fun _ => ?_⟩
      rw [AtomRegistry.next?] at empty
      split at empty
      · assumption
      · cases empty
    · rename_i l atoms taken
      have standing' := standing_installNext inv standing taken
      obtain ⟨found, atoms_eq⟩ := next?_eq_some taken
      have dequeued : Step h e { e with atoms := atoms } := .dequeue l atoms taken ⟨rfl, rfl⟩
      have asserted : l ∈ ({ e with atoms := atoms } : Engine).atoms.asserted := by
        rw [show ({ e with atoms := atoms } : Engine).atoms = atoms from rfl, atoms_eq]
        exact List.mem_of_getElem? found
      have shorter : ({ e with atoms := atoms } : Engine).atoms.queued.length ≤ count := by
        rw [show ({ e with atoms := atoms } : Engine).atoms = atoms from rfl, atoms_eq,
          AtomRegistry.queued, List.length_drop]
        rw [AtomRegistry.queued, List.length_drop] at enough
        show e.atoms.asserted.length - (e.atoms.processed + 1) ≤ count
        omega
      have answers := answers_installLiteral (dequeued.invariant inv) asserted
      have same := sameQueue_installLiteral { e with atoms := atoms } l
      generalize ({ e with atoms := atoms } : Engine) = waiting at *
      have next_inv := answers.invariant (dequeued.invariant inv)
      generalize waiting.installLiteral l = result at *
      obtain ⟨next, ok⟩ := result
      cases ok with
      | true => exact ih next_inv standing' (same.queued ▸ shorter)
      | false => exact ⟨standing', fun yes => by cases yes⟩

/-- Propagation keeps everything in force, and empties the queue if it finds no conflict. -/
theorem standing_propagate (inv : e.Invariant h) (standing : e.Standing h) :
    e.propagate.1.Standing h ∧ (e.propagate.2 = true → e.propagate.1.atoms.queued = []) := by
  rw [propagate]
  split
  · exact ⟨standing, fun yes => by cases yes⟩
  · have normal := steps_normalizePendingRows h e
    have normal_inv := normal.invariant inv
    have settled := normalized_normalizePendingRows e
    have ready := Standing.kept standing (normal.keeps inv) (sameQueue_normalizePendingRows e)
    generalize e.normalizePendingRows = waiting at *
    simp only
    obtain ⟨standing', drained⟩ :=
      standing_installQueued waiting.atoms.queued.length normal_inv ready (Nat.le_refl _)
    have installing := answers_installQueued waiting.atoms.queued.length normal_inv
    generalize installQueued waiting.atoms.queued.length waiting = result at *
    obtain ⟨installed, ok⟩ := result
    cases ok with
    | false => exact ⟨standing', fun yes => by cases yes⟩
    | true =>
      have steps : Steps h waiting installed := installing.steps rfl
      have installed_inv := steps.invariant normal_inv
      have rest := answers_afterInstalling installed_inv (steps.normalized settled)
      exact ⟨rest.standing installed_inv standing' (drained rfl),
        fun _ => (rest.sameQueue (drained rfl)).queued.trans (drained rfl)⟩

end ArithDecide.Engine
