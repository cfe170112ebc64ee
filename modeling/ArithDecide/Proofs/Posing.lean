import ArithDecide.Proofs.Awaiting
import ArithDecide.Proofs.Consequences
import ArithDecide.Proofs.Failing
import ArithDecide.Proofs.Honoring
import ArithDecide.Proofs.Integers

/-!
# Posing a problem is sound

Whatever a caller adds keeps the invariant, stays inside the open scope, only adds constraints and
leaves everything in force that was asserted. `Engine.Ready` is what holds between two calls, and
`Engine.Evolves` is what a call does that leaves no scope.
-/

namespace ArithDecide.Engine

open State

variable {e next last : Engine} {h k : History} {v : Var} {kind : BoundKind} {l : Literal}

/-! ## Between calls -/

/-- What holds of the engine between two calls. -/
structure Ready (e : Engine) (h : History) : Prop where
  invariant : e.Invariant h
  standing : e.Standing h
  stamped : e.Numbered → e.Stamped
  announced : ∀ p ∈ e.propagations, e.Announces h p
  awaited : e.Awaited

/-- The second engine is reached without leaving a scope that was open, has at least the constraints of
the first one, and is ready for more. -/
structure Evolves (e next : Engine) (k : History) : Prop where
  inside : e.Inside next
  grows : e.Grows next.toState
  ready : next.Ready k

theorem Ready.unchanged (ready : e.Ready h) : Evolves e e h := ⟨.refl e, .refl _, ready⟩

theorem Evolves.trans (first : Evolves e next h) (second : Evolves next last k) : Evolves e last k :=
  ⟨first.inside.trans second.inside, first.grows.trans second.grows, second.ready⟩

/-- A call that stays inside of its scopes and loses nothing that was known leaves the engine ready. -/
theorem Ready.evolves (ready : e.Ready h) (inside : e.Inside next) (grows : e.Grows next.toState)
    (invariant : next.Invariant k) (standing : next.Standing k)
    (longer : ∀ q ∈ h.equated, q ∈ k.equated)
    (announced : ∀ p ∈ next.propagations, p ∈ e.propagations ∨ next.Announces k p)
    (awaited : next.Awaited) : Evolves e next k where
  inside := inside
  grows := grows
  ready :=
    { invariant := invariant
      standing := standing
      stamped := fun numbered =>
        inside.stamped numbered (ready.stamped (inside.numbered numbered))
      announced := fun p waits => (announced p waits).elim
        (fun before => grows.announces longer (ready.announced p before)) id
      awaited := awaited }

/-- An operation that leaves everything in force. -/
theorem Ready.answered {result : Engine × Bool} (ready : e.Ready h) (answers : Answers h e result)
    (standing : result.1.Standing h) : Evolves e result.1 h :=
  ready.evolves (answers.inside ready.invariant) (answers.keeps ready.invariant).grows
    (answers.invariant ready.invariant) standing (fun _ => id)
    (fun p waits => .inr (answers.announced ready.invariant ready.announced p waits))
    (answers.awaited ready.invariant ready.awaited)

/-- An operation that takes no literal from the queue. -/
theorem Ready.answers {result : Engine × Bool} (ready : e.Ready h) (answers : Answers h e result)
    (same : SameQueue e result.1) : Evolves e result.1 h :=
  ready.answered answers (Standing.kept ready.standing (answers.keeps ready.invariant) same)

theorem Ready.steps (ready : e.Ready h) (steps : Steps h e next) (same : SameQueue e next) :
    Evolves e next h :=
  ready.answers (.yes steps) same

theorem Ready.quiet (ready : e.Ready h) (becomes : e.Becomes e.toState next) : Evolves e next h :=
  ready.steps becomes.steps (.of_atoms (by rw [becomes.toState]))

/-- Consequences are taken from their queues. -/
theorem Ready.requeue {propagations : List Propagation} {equalities : List EqualityReport}
    (ready : e.Ready h) (fewer : ∀ p ∈ propagations, p ∈ e.propagations) (becomes : e.Becomes
      { e.toState with propagations := propagations, equalities := equalities } next) :
    Evolves e next h := by
  have keeps : e.Keeps next.toState := by
    rw [becomes.toState]
    exact .of_eq id rfl rfl rfl rfl (.refl _) rfl rfl rfl
  refine ready.evolves ?_ keeps.grows ?_ ?_ (fun _ => id) (fun p waits => .inl (fewer p ?_))
    (ready.awaited.congr (by rw [becomes.toState]) (by rw [becomes.toState]))
  · exact becomes.inside rfl rfl rfl rfl rfl rfl fun scope _ _ => { Rewinds.refl e.toState scope with }
  · rw [becomes.toState]
    exact ready.invariant.of_same (ready.invariant.founded.queue propagations equalities) rfl rfl rfl
      (fun _ _ => rfl) (fun _ => id) id
  · exact Standing.kept ready.standing keeps (.of_atoms (by rw [becomes.toState]))
  · rwa [becomes.toState] at waits

/-! ## Variables and rows -/

theorem retains_withVar (s : State) (column : Variable) : s.Retains (s.withVar column) where
  numVars := by
    rw [numVars_withVar]
    exact Nat.le_succ _
  atoms _ atom found := ⟨atom, found, rfl, rfl, rfl⟩
  covers v kind value covered := by
    obtain ⟨active, found, admits⟩ := covered
    exact ⟨active, (BoundStore.get_addVar _ _ _).trans found, admits⟩
  rows _ holds := holds
  infeasible infeasible := infeasible

theorem Ready.mkVar (ready : e.Ready h) (sort : NumSort) (term : Term) :
    Evolves e (e.mkVar sort term).1 h := by
  have f := ready.invariant.founded.formed
  refine ready.evolves (inside_mkVar f sort term) (grows_withVar e.toState ⟨sort, term⟩) ?_ ?_
    (fun _ => id) (fun _ => .inl) (ready.awaited.congr rfl rfl)
  · rw [mkVar_toState]
    exact ⟨ready.invariant.founded.withVar _, ready.invariant.patched.withVar _, fun reliable =>
      (ready.invariant.assigned reliable).withVar f _⟩
  · exact ready.standing.retained (retains_withVar e.toState ⟨sort, term⟩) (List.prefix_refl _) rfl
      (fun _ _ equated => .inl equated) (fun _ _ member => .inl member) fun _ => rfl

/-- The row that a successful call adds. -/
structure NewRow (e : Engine) (base : Var) (entries : List (Var × Rat)) : Prop where
  lt : base < e.numVars
  fresh : e.tableau.isFresh base = true
  entries_lt : ∀ t ∈ entries, t.1 < e.numVars ∧ t.1 ≠ base

theorem requireVar_eq_ok : e.requireVar v = .ok () ↔ v < e.numVars := by
  simp [requireVar, hasVar]

/-- Entries that pass the check are for variables that exist and are not the base. -/
theorem lt_of_requireEntries {base : Var} {entries : List (Var × Rat)}
    (ok : e.requireEntries base entries = .ok ()) :
    ∀ t ∈ entries, t.1 < e.numVars ∧ t.1 ≠ base := by
  induction entries with
  | nil => nofun
  | cons t rest ih =>
    obtain ⟨v, coeff⟩ := t
    rw [requireEntries] at ok
    cases known : e.requireVar v with
    | error _ =>
      rw [known] at ok
      cases ok
    | ok _ =>
      rw [known] at ok
      by_cases same : v = base
      · simp [same, bind, Except.bind, throw, throwThe, MonadExceptOf.throw] at ok
      · simp only [same, if_false] at ok
        exact List.forall_mem_cons.2 ⟨⟨requireVar_eq_ok.1 known, same⟩, ih ok⟩

/-- A row that is not refused is put into the tableau with the form that its entries stand for. -/
theorem of_addRow {base : Var} {entries : List (Var × Rat)} {result : Engine × RowId}
    (ok : e.addRow base entries = .ok result) :
    NewRow e base entries ∧ e.placeRow base (.ofEntries entries) = result := by
  rw [addRow] at ok
  cases known : e.requireVar base with
  | error _ =>
    rw [known] at ok
    cases ok
  | ok _ =>
    cases entries_known : e.requireEntries base entries with
    | error _ =>
      rw [known, entries_known] at ok
      cases ok
    | ok _ =>
      rw [known, entries_known] at ok
      by_cases fresh : e.tableau.isFresh base = true
      · refine ⟨⟨requireVar_eq_ok.1 known, fresh, lt_of_requireEntries entries_known⟩, ?_⟩
        simp only [fresh, Bool.not_true, Bool.false_eq_true, if_false] at ok
        exact Except.ok.inj ok
      · simp [fresh, bind, Except.bind, throw, throwThe, MonadExceptOf.throw] at ok

/-- What happens to a row once it is in the tableau. -/
structure Placed (h : History) (added next : Engine) : Prop where
  inside : added.Inside next
  invariant : next.Invariant h
  keeps : added.Keeps next.toState
  sameQueue : SameQueue added next
  announced : (∀ p ∈ added.propagations, added.Announces h p) →
    ∀ p ∈ next.propagations, next.Announces h p

theorem Placed.then (first : Placed h e next) (steps : Steps h next last)
    (same : SameQueue next last) : Placed h e last where
  inside := first.inside.trans (steps.inside first.invariant)
  invariant := steps.invariant first.invariant
  keeps := first.keeps.trans (steps.keeps first.invariant)
  sameQueue := first.sameQueue.trans same
  announced before := steps.announced first.invariant (first.announced before)

/-- Adding a row to the tableau hands out no literal. -/
theorem announced_of_same {s t : State} (grows : s.Grows t) (same : t.propagations = s.propagations)
    (announced : ∀ p ∈ s.propagations, s.Announces h p) : ∀ p ∈ t.propagations, t.Announces h p :=
  fun p waits => grows.announces (fun _ => id) (announced p (same ▸ waits))

/-- The base of a new row is marked, its row is touched and the state may turn to be checked. -/
theorem steps_mark (h : History) (e : Engine) (base : Var) (touched : List RowId) :
    Steps h e ({ e.markToPatch base with touched := touched } : Engine).declareChecking ∧
      SameQueue e ({ e.markToPatch base with touched := touched } : Engine).declareChecking := by
  have marked : Step h e (e.markToPatch base) :=
    .relax (SortedSet.insert base e.toPatch) (fun v waits => .inl (mem_insert_var.2 (.inr waits)))
      ⟨rfl, rfl⟩
  have noted : Step h (e.markToPatch base) { e.markToPatch base with touched := touched } :=
    .touch touched ⟨rfl, rfl⟩
  have same : SameQueue e { e.markToPatch base with touched := touched } := .of_atoms rfl
  exact ⟨(marked.steps.tail noted).trans (steps_declareChecking h _),
    same.trans (sameQueue_declareChecking _)⟩

/-- The base of a pending row is given the value of the row. -/
theorem placed_setValue {added : Engine} {x : InfRat} {base : Var} (inv : added.Invariant h)
    (pending : added.kind base = .pendingBase) :
    Placed h added (added.setValue base x) := by
  have only := valuesOnly_setValue added base x
  exact ⟨inside_setValue inv.founded.formed.marked base x,
    ⟨only.founded inv.founded, patched_setValue_of_pending inv.founded.formed pending inv.patched,
      fun reliable => assigned_setValue_of_pending inv.founded.formed pending
        (inv.assigned (only.reliable_iff.1 reliable))⟩,
    only.keeps, only.sameQueue, announced_of_same only.keeps.grows only.propagations⟩

theorem placed_normalizeRow {added : Engine} (inv : added.Invariant h) (r : RowId) :
    Placed h added (added.normalizeRow r) :=
  ⟨inside_normalizeRow inv.founded.formed r, invariant_normalizeRow inv r,
    keeps_normalizeRow added r, sameQueue_normalizeRow added r,
    announced_of_same (keeps_normalizeRow added r).grows (propagations_normalizeRow added r)⟩

/-- A row in the tableau that is not in reduced form yet. -/
theorem kind_addRow {t : Tableau} {n : Nat} {base : Var} {form : LinearForm}
    (well : (t.addRow base form).WellFormed n) : (t.addRow base form).kind base = .pendingBase := by
  have found : (t.addRow base form).get? t.rows.size = some ⟨base, form, true⟩ := by
    rw [Tableau.get?_addRow, if_pos rfl]
  exact well.kind_base found

/-- Putting a row into the tableau: its base gets the value of the row, and both wait for the next
propagation. -/
theorem placed_placeRow {base : Var} {form : LinearForm} (inv : e.Invariant h)
    (fresh : e.tableau.isFresh base = true) (own : form.coeff base = 0) (base_lt : base < e.numVars)
    (var_lt : ∀ v, form.coeff v ≠ 0 → v < e.numVars) :
    ∃ added, e.Becomes { e.toState with tableau := e.tableau.addRow base form } added ∧
      e.Inside added ∧ Placed h added (e.placeRow base form).1 := by
  have becomes : e.Becomes { e.toState with tableau := e.tableau.addRow base form }
      (e.pushRow base form).1 := ⟨rfl, rfl⟩
  have f := inv.founded.formed
  have inside : e.Inside (e.pushRow base form).1 := becomes.inside_tableau fun scope outer is_open =>
    Tableau.undoTo_addRow (f.recording_of_open is_open) (f.passed scope outer is_open).tableau _ _
  have added_inv : (e.pushRow base form).1.Invariant h := by
    rw [becomes.toState]
    exact ⟨inv.founded.addRow fresh own base_lt var_lt, inv.patched.addRow,
      fun reliable => (inv.assigned reliable).addRow⟩
  have pending : (e.pushRow base form).1.kind base = .pendingBase := by
    rw [becomes.toState]
    exact kind_addRow (becomes.toState ▸ added_inv.founded.formed.tableau)
  refine ⟨_, becomes, inside, ?_⟩
  have valued : Placed h (e.pushRow base form).1
      (if e.options.eagerNormalization then (e.pushRow base form).1.normalizeRow e.numRows
        else (e.pushRow base form).1.setValue base ((e.pushRow base form).1.value base)) := by
    split
    · exact placed_normalizeRow added_inv _
    · exact placed_setValue added_inv pending
  rw [placeRow]
  simp only [show (e.pushRow base form).2 = e.numRows from rfl]
  generalize (e.pushRow base form).1 = added at valued ⊢
  generalize (if e.options.eagerNormalization = true then added.normalizeRow e.numRows
    else added.setValue base (added.value base)) = next at valued ⊢
  obtain ⟨marked, same⟩ := steps_mark h next base (SortedSet.insert e.numRows next.touched)
  exact valued.then (marked.tail (.quiet ⟨rfl, rfl⟩)) (same.trans (.of_atoms rfl))

theorem retains_addRow (s : State) (base : Var) (form : LinearForm) :
    s.Retains { s with tableau := s.tableau.addRow base form } where
  numVars := Nat.le_refl _
  atoms _ atom found := ⟨atom, found, rfl, rfl, rfl⟩
  covers _ _ _ covered := covered
  rows α holds := ((Tableau.holds_addRow base form α).1 holds).1
  infeasible infeasible := infeasible

/-- What a successful call does before and after its row is in the tableau. -/
theorem placed_addRow {base : Var} {entries : List (Var × Rat)} {r : RowId} (inv : e.Invariant h)
    (ok : e.addRow base entries = .ok (next, r)) :
    ∃ added, e.Becomes
        { e.toState with tableau := e.tableau.addRow base (.ofEntries entries) } added ∧
      e.Inside added ∧ Placed h added next := by
  obtain ⟨row, placed⟩ := of_addRow ok
  have occurs {v : Var} (nonzero : (LinearForm.ofEntries entries).coeff v ≠ 0) :
      v < e.numVars ∧ v ≠ base := by
    obtain ⟨t, member, rfl⟩ := LinearForm.mem_of_coeff_ofEntries nonzero
    exact row.entries_lt t member
  have own : (LinearForm.ofEntries entries).coeff base = 0 := by
    by_contra nonzero
    exact (occurs nonzero).2 rfl
  have result := placed_placeRow inv row.fresh own row.lt fun v nonzero => (occurs nonzero).1
  rwa [placed] at result

/-- Adding a row. -/
theorem Ready.addRow {base : Var} {entries : List (Var × Rat)} {r : RowId} (ready : e.Ready h)
    (ok : e.addRow base entries = .ok (next, r)) : Evolves e next h ∧ e.numVars ≤ next.numVars ∧
      ∀ α : Var → Rat, next.tableau.Holds α → α base = (LinearForm.ofEntries entries).combine α := by
  obtain ⟨added, becomes, inside, rest⟩ := placed_addRow ready.invariant ok
  have awaited := awaited_placeRow ready.awaited base (.ofEntries entries)
  rw [(of_addRow ok).2] at awaited
  have first : e.Retains added.toState := becomes.toState ▸ retains_addRow e.toState _ _
  have same : SameQueue e added := .of_atoms (by rw [becomes.toState])
  have grows : e.Grows added.toState := by
    rw [becomes.toState]
    exact grows_rows fun α holds => ((Tableau.holds_addRow _ _ α).1 holds).1
  have announced := announced_of_same grows (by rw [becomes.toState]) ready.announced
  refine ⟨ready.evolves (inside.trans rest.inside) (grows.trans rest.keeps.grows) rest.invariant ?_
    (fun _ => id) (fun p waits => .inr (rest.announced announced p waits)) awaited,
    (first.trans rest.keeps.retains).numVars, fun α holds => ?_⟩
  · refine ready.standing.retained (first.trans rest.keeps.retains)
      ((same.trans rest.sameQueue).asserted ▸ List.prefix_refl _) (same.trans rest.sameQueue).processed
      (fun _ _ equated => .inl equated) (fun _ g member => .inl ?_) fun _ => rfl
    rw [rest.keeps.given, becomes.toState] at member
    exact member
  · have holds := rest.keeps.rows α holds
    rw [becomes.toState] at holds
    exact ((Tableau.holds_addRow _ _ α).1 holds).2

/-! ## Calls that may fail -/

/-- Adding a variable and the row that defines it. -/
theorem Ready.mkLinear {sort : NumSort} {term : Term} {entries : List (Var × Rat)} (ready : e.Ready h)
    (ok : e.mkLinear sort term entries = .ok (next, v)) : Evolves e next h := by
  rw [Engine.mkLinear] at ok
  obtain ⟨-, -, ok⟩ := bind_eq_ok ok
  obtain ⟨⟨withRow, r⟩, added, ok⟩ := bind_eq_ok ok
  obtain ⟨rfl, -⟩ := Prod.mk.inj (Except.ok.inj ok)
  have first := ready.mkVar sort term
  exact first.trans (first.ready.addRow added).1

/-! ## Atoms and literals -/

theorem Ready.internAtom (ready : e.Ready h) (lt : v < e.numVars) (kind : BoundKind)
    (threshold : Rat) : Evolves e (e.internAtom v kind threshold).1 h :=
  ready.steps (steps_internAtom lt kind threshold) (sameQueue_internAtom e v kind threshold)

theorem Ready.mkAtom {threshold : Rat} (ready : e.Ready h)
    (ok : e.mkAtom v kind threshold = .ok (next, l)) : Evolves e next h := by
  rw [Engine.mkAtom] at ok
  obtain ⟨_, known, ok⟩ := bind_eq_ok ok
  have made : e.internAtom v kind threshold = (next, l) := Except.ok.inj ok
  have evolves := ready.internAtom (requireVar_eq_ok.1 known) kind threshold
  rwa [made] at evolves

/-- A literal and its negation are not both accepted. -/
theorem negate_not_mem {s : State} (registered : s.Registered h) (accepted : l ∈ s.atoms.asserted) :
    l.negate ∉ s.atoms.asserted := by
  intro opposed
  obtain ⟨atom, found, assigned⟩ := registered.assigned l accepted
  obtain ⟨other, found', assigned'⟩ := registered.assigned _ opposed
  obtain rfl := Option.some.inj (found.symm.trans found')
  cases negative : l.negative <;> simp_all [Literal.negate]

/-- A literal that is asserted anew is queued. -/
theorem Ready.queue {atoms : AtomRegistry} (ready : e.Ready h)
    (known : (e.atoms.get? l.atom).isSome) (queued : e.atoms.assign l = .queued atoms)
    (becomes : e.Becomes { e.toState with atoms := atoms } next) : Evolves e next (h.assert l) := by
  have f := ready.invariant.founded.formed
  obtain ⟨free, atoms_eq⟩ := assign_eq queued
  have not_opposed : l.negate ∉ h.asserted := by
    intro opposed
    obtain ⟨atom, found, assigned⟩ := ready.invariant.founded.registered.assigned _
      ((ready.invariant.founded.registered.asserted _).2 opposed)
    rw [show e.atoms.get? l.atom = some atom from found, Option.bind_some, assigned] at free
    cases free
  have rejected := History.rejected_assert not_opposed
  have grows : e.Grows next.toState := becomes.toState ▸ grows_assign queued
  refine ready.evolves ?_ grows ?_ ?_ (fun q equated => ?_) (fun p waits => .inl ?_)
    (ready.awaited.congr (by rw [becomes.toState]) (by rw [becomes.toState]))
  · exact becomes.inside rfl rfl rfl rfl rfl rfl fun scope outer is_open =>
      { Rewinds.refl e.toState scope with
        atoms := AtomRegistry.retractTo_assign (f.passed scope outer is_open).atoms queued }
  · rw [becomes.toState]
    refine ready.invariant.of_same (ready.invariant.founded.assign queued known ?_ (fun m => ?_)
      (History.equated_assert h l)) rfl rfl rfl (fun _ _ => rfl) (fun _ => id) id
    · intro m
      rw [History.mem_asserted_assert]
      simp [not_opposed]
    · rw [rejected]
      exact id
  · have asserted : next.atoms.asserted = e.atoms.asserted ++ [l] := by
      rw [becomes.toState, atoms_eq]
    have processed : next.atoms.processed = e.atoms.processed := by
      rw [becomes.toState, atoms_eq]
    have retains : e.Retains next.toState :=
      { numVars := by
          rw [becomes.toState]
          exact Nat.le_refl _
        atoms := grows.atoms
        covers := fun _ _ _ covered => by rwa [becomes.toState]
        rows := fun _ holds => by rwa [becomes.toState] at holds
        infeasible := fun infeasible => by
          rw [becomes.toState]
          exact infeasible }
    refine ready.standing.retained retains ⟨[l], asserted.symm⟩ processed
      (fun _ _ equated => .inl ?_) (fun _ g member => .inl ?_) fun _ => rejected
    · rwa [History.equated_assert] at equated
    · rwa [becomes.toState] at member
  · rwa [History.equated_assert]
  · rwa [becomes.toState] at waits

/-- More may be written down that is in force already. -/
theorem Ready.history (ready : e.Ready h) (asserted : ∀ m, m ∈ k.asserted ↔ m ∈ h.asserted)
    (rejected : k.rejected = h.rejected) (longer : ∀ q ∈ h.equated, q ∈ k.equated)
    (equated : ∀ q ∈ k.equated, q ∈ h.equated ∨ (q.left = q.right ∧ q.left < e.numVars)) :
    e.Ready k where
  invariant := by
    refine ⟨ready.invariant.founded.history asserted (fun _ member => rejected ▸ member) longer
      fun q member => ?_, ready.invariant.patched, ready.invariant.assigned⟩
    rcases equated q member with before | ⟨same, lt⟩
    · exact ready.invariant.founded.registered.pair_lt q before
    · exact ⟨lt, same ▸ lt⟩
  standing := { ready.standing with
    pairs := fun feasible q member => (equated q member).elim
      (ready.standing.pairs feasible q) fun trivial => .inl trivial.1
    rejected := rejected ▸ ready.standing.rejected }
  stamped := ready.stamped
  announced p waits := (Grows.refl e.toState).announces longer (ready.announced p waits)
  awaited := ready.awaited

/-- A literal that was asserted before. -/
theorem mem_of_redundant {s : State} (registered : s.Registered h)
    (seen : s.atoms.assign l = .redundant) : l ∈ s.atoms.asserted := by
  rw [AtomRegistry.assign] at seen
  split at seen
  · rename_i sign signed
    obtain ⟨atom, found, assigned⟩ := Option.bind_eq_some_iff.1 signed
    have asserted := registered.signed _ atom sign found assigned
    split at seen
    · rename_i same
      rwa [same, Literal.ofSign, Bool.not_not] at asserted
    · cases seen
  · cases seen

/-- A literal whose negation was asserted before. -/
theorem mem_of_conflicting {s : State} (registered : s.Registered h)
    (seen : s.atoms.assign l = .conflicting) : l.negate ∈ s.atoms.asserted := by
  rw [AtomRegistry.assign] at seen
  split at seen
  · rename_i sign signed
    obtain ⟨atom, found, assigned⟩ := Option.bind_eq_some_iff.1 signed
    have asserted := registered.signed _ atom sign found assigned
    split at seen
    · cases seen
    · rename_i differs
      have same : sign = l.negative := by
        cases sign <;> cases negative : l.negative <;> simp_all
      rwa [same] at asserted
  · cases seen

/-- A literal and its negation are to blame for a conflict. -/
theorem fails_clash (closed : e.dependencies.Closed) (rejected : l ∈ k.rejected)
    (opposed : l.negate ∈ e.atoms.asserted) (known : ∃ atom, e.atoms.get? l.atom = some atom) :
    let noted := e.dependencies.mkLiteral l
    let both := noted.1.mkLiteral l.negate
    let joined := ({ e with dependencies := both.1 } : Engine).joinReasons [noted.2, both.2]
    Answers k e (joined.1.setConflict joined.2, false) ∧
      SameQueue e (joined.1.setConflict joined.2) := by
  intro noted both joined
  have first := DependencyArena.built_mkLiteral closed l
  have second := DependencyArena.built_mkLiteral first.closed l.negate
  have last : DependencyArena.Built both.1 (both.1.joinAll [noted.2, both.2]) _ :=
    DependencyArena.built_joinAll second.closed
      (by simpa using ⟨second.extended.names first.names, second.names⟩)
  have steps : Step k e joined.1 :=
    .depend _ (first.extended.trans (second.extended.trans last.extended)) last.closed ⟨rfl, rfl⟩
  have same : SameQueue e joined.1 := .of_atoms rfl
  refine ⟨.conflict steps.steps (fails_setConflict ?_), same.trans (sameQueue_setConflict _ _)⟩
  refine ⟨last.names, .inr ⟨l, rejected, opposed, known, fun L Q => ?_⟩⟩
  refine (last.leaves L Q).trans ?_
  simp only [List.forall_mem_cons, List.not_mem_nil, false_imp_iff, forall_true_iff, and_true]
  rw [second.leaves, DependencyArena.allLeaves_extends first.closed second.extended first.names,
    first.leaves]

/-- A literal whose negation was asserted before is a conflict. -/
theorem Ready.reject {answer : Engine} (ready : e.Ready h) (opposed : l.negate ∈ h.asserted)
    (answers : Answers (h.assert l) e (answer, false)) (same : SameQueue e answer)
    (infeasible : answer.isInfeasible = true) : Evolves e answer (h.assert l) := by
  have inv : e.Invariant (h.assert l) := by
    refine ⟨ready.invariant.founded.history (fun m => ?_)
      (fun m before => History.mem_rejected_assert.2 (.inl before))
      (fun _ member => (History.equated_assert h l).symm ▸ member) ?_, ready.invariant.patched,
      ready.invariant.assigned⟩
    · rw [History.mem_asserted_assert]
      simp [opposed]
    · rw [History.equated_assert]
      exact ready.invariant.founded.registered.pair_lt
  have longer : ∀ q ∈ h.equated, q ∈ (h.assert l).equated :=
    fun q member => (History.equated_assert h l).symm ▸ member
  refine ready.evolves (answers.inside inv) (answers.keeps inv).grows
    (answers.invariant inv) (.of_infeasible ?_ infeasible) longer (fun p waits => .inr ?_)
    (answers.awaited inv ready.awaited)
  · rw [same.asserted, same.processed]
    exact ready.standing.processed_le
  · exact answers.announced inv (fun p waits => (Grows.refl e.toState).announces longer
      (ready.announced p waits)) p waits

/-- Asserting a literal. -/
theorem Ready.assertLiteral (ready : e.Ready h) (ok : e.assertLiteral l = .ok next) :
    Evolves e next (h.assert l) := by
  have registered := ready.invariant.founded.registered
  rw [Engine.assertLiteral] at ok
  split at ok
  · cases ok
  · rename_i known
    rw [Option.isNone_iff_eq_none, ← ne_eq, Option.ne_none_iff_exists'] at known
    split at ok
    · rename_i atoms queued
      obtain rfl := Except.ok.inj ok
      exact ready.queue (Option.isSome_iff_exists.2 known) queued ⟨rfl, rfl⟩
    · rename_i seen
      obtain rfl := Except.ok.inj ok
      have accepted := mem_of_redundant registered seen
      have not_opposed : l.negate ∉ h.asserted := fun opposed =>
        negate_not_mem registered accepted ((registered.asserted _).2 opposed)
      have equated := History.equated_assert h l
      refine Ready.unchanged (ready.history (fun m => ?_) (History.rejected_assert not_opposed)
        (fun _ member => equated ▸ member) fun _ member => .inl (equated ▸ member))
      rw [History.mem_asserted_assert]
      exact or_iff_left_of_imp fun ⟨same, _⟩ => same ▸ (registered.asserted l).1 accepted
    · rename_i seen
      have opposed := mem_of_conflicting registered seen
      have opposed' := (registered.asserted _).1 opposed
      obtain ⟨answers, same⟩ := fails_clash ready.invariant.founded.formed.closed
        (History.mem_rejected_assert.2 (.inr ⟨rfl, opposed'⟩)) opposed known
      obtain rfl := Except.ok.inj ok
      exact ready.reject opposed' answers same (infeasible_setConflict _ _)

/-- Asserting that a variable has a value. -/
theorem Ready.assertEq {value : Rat} {lower upper : Literal} (ready : e.Ready h)
    (ok : e.assertEq v value = .ok (next, lower, upper)) :
    Evolves e next ((h.assert lower).assert upper) := by
  rw [Engine.assertEq] at ok
  obtain ⟨⟨first, lower'⟩, made_lower, ok⟩ := bind_eq_ok ok
  obtain ⟨⟨second, upper'⟩, made_upper, ok⟩ := bind_eq_ok ok
  obtain ⟨third, asserted_lower, ok⟩ := bind_eq_ok ok
  obtain ⟨fourth, asserted_upper, ok⟩ := bind_eq_ok ok
  obtain ⟨rfl, same⟩ := Prod.mk.inj (Except.ok.inj ok)
  obtain ⟨rfl, rfl⟩ := Prod.mk.inj same
  have one := ready.mkAtom made_lower
  have two := one.trans (one.ready.mkAtom made_upper)
  have three := two.trans (two.ready.assertLiteral asserted_lower)
  exact three.trans (three.ready.assertLiteral asserted_upper)

/-! ## Monomials -/

theorem isInt_of_jointSort {vs : List Var} (joint : e.jointSort vs = .int) :
    ∀ v ∈ vs, e.isInt v = true := by
  rw [jointSort] at joint
  split at joint
  · rename_i all
    exact List.all_eq_true.1 all
  · cases joint

/-- A product may be added whenever the engine is ready, under the conditions of `Founded.monomial`. -/
theorem Ready.addMonomial {m : Monomial} (ready : e.Ready h)
    (becomes : e.Becomes { e.toState with monomials := e.monomials ++ [m] } next)
    (var_lt : m.var < e.numVars) (factor_lt : ∀ v ∈ m.factors, v < e.numVars)
    (integral : e.isInt m.var = true → ∀ v ∈ m.factors, e.isInt v = true)
    (degree : 2 ≤ m.factors.length) : Evolves e next h := by
  have grows : e.Grows next.toState := becomes.toState ▸ grows_monomial e.toState m
  refine ready.evolves (becomes.inside rfl rfl rfl rfl rfl rfl fun scope outer is_open => ?_) grows ?_ ?_
    (fun _ => id) (fun p waits => .inl ?_)
    (ready.awaited.congr (by rw [becomes.toState]) (by rw [becomes.toState]))
  · have passed := ready.invariant.founded.formed.passed scope outer is_open
    exact { Rewinds.refl e.toState scope with
      monomials := List.take_append_of_le_length passed.monomials }
  · rw [becomes.toState]
    exact ready.invariant.of_same
      (ready.invariant.founded.monomial var_lt factor_lt integral degree) rfl rfl rfl
      (fun _ _ => rfl) (fun _ => id) id
  · rw [becomes.toState]
    refine ready.standing.retained ?_ (List.prefix_refl _) rfl (fun _ _ equated => .inl equated)
      (fun _ _ member => .inl member) fun _ => rfl
    exact ⟨Nat.le_refl _, fun _ atom found => ⟨atom, found, rfl, rfl, rfl⟩,
      fun _ _ _ covered => covered, fun _ holds => holds, fun infeasible => infeasible⟩
  · rwa [becomes.toState] at waits

/-- A product with a variable of its own may be added whenever the engine is ready; the variable is an
integer if all factors are. -/
theorem Ready.placeMonomial {sorted : List Var} (ready : e.Ready h)
    (lt : ∀ v ∈ sorted, v < e.numVars) (degree : 2 ≤ sorted.length) :
    Evolves e (e.placeMonomial sorted).1 h := by
  have first := ready.mkVar (e.jointSort sorted) .internal
  have numVars : (e.mkVar (e.jointSort sorted) .internal).1.numVars = e.numVars + 1 :=
    numVars_withVar e.toState _
  have isInt (v : Var) : (e.mkVar (e.jointSort sorted) .internal).1.isInt v =
      if v = e.numVars then decide (e.jointSort sorted = .int) else e.isInt v :=
    isInt_withVar e.toState _ v
  rw [Engine.placeMonomial]
  simp only [show (e.mkVar (e.jointSort sorted) .internal).2 = e.numVars from rfl]
  generalize (e.mkVar (e.jointSort sorted) .internal).1 = added at first numVars isInt ⊢
  refine first.trans (first.ready.addMonomial ⟨rfl, rfl⟩ ?_ ?_ ?_ degree)
  · exact numVars ▸ Nat.lt_succ_self _
  · exact fun v member => numVars ▸ Nat.lt_succ_of_lt (lt v member)
  · intro integer v member
    rw [isInt, if_pos rfl, decide_eq_true_eq] at integer
    rw [isInt, if_neg (Nat.ne_of_lt (lt v member))]
    exact isInt_of_jointSort integer v member

/-- The variable of a product is that of a monomial with the same factors, or new. -/
theorem of_mkMonomial {factors : List Var} (ok : e.mkMonomial factors = .ok (next, v)) :
    2 ≤ factors.length ∧ (∀ w ∈ factors, w < e.numVars) ∧
      let sorted := factors.mergeSort fun v w => v ≤ w
      (next = e ∧ ∃ m ∈ e.monomials, m.var = v ∧ m.factors = sorted) ∨
        e.placeMonomial sorted = (next, v) := by
  rw [Engine.mkMonomial] at ok
  by_cases degenerate : factors.length < 2
  · simp [degenerate, bind, Except.bind, throw, throwThe, MonadExceptOf.throw] at ok
  · simp only [degenerate, if_false] at ok
    obtain ⟨_, known, ok⟩ := bind_eq_ok ok
    refine ⟨Nat.le_of_not_lt degenerate,
      fun w member => requireVar_eq_ok.1 (forM_eq_ok.1 known w member), ?_⟩
    split at ok
    · rename_i m found
      obtain ⟨rfl, rfl⟩ := Prod.mk.inj (Except.ok.inj ok)
      have same := List.find?_some found
      exact .inl ⟨rfl, m, List.mem_of_find?_eq_some found, rfl, eq_of_beq same⟩
    · exact .inr (Except.ok.inj ok)

theorem Ready.mkMonomial {factors : List Var} (ready : e.Ready h)
    (ok : e.mkMonomial factors = .ok (next, v)) : Evolves e next h := by
  obtain ⟨enough, known, ⟨rfl, -⟩ | placed⟩ := of_mkMonomial ok
  · exact ready.unchanged
  · have sorted_perm := List.mergeSort_perm factors fun v w => decide (v ≤ w)
    obtain rfl := congrArg Prod.fst placed
    exact ready.placeMonomial (fun w member => known w (sorted_perm.mem_iff.1 member))
      (sorted_perm.length_eq ▸ enough)

end ArithDecide.Engine
