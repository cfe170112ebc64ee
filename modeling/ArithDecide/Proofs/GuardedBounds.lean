import ArithDecide.Guarded.Bounds
import ArithDecide.Proofs.GuardedStore
import ArithDecide.Proofs.Posing

/-!
# Installing bounds never fails

`Engine.Runs` says that a guarded computation succeeds from every store of the tableau of an engine, with
what is computed without guards, and leaves a store of the tableau of the next engine. Every bound that
may be offered is installed so (`Engine.runs_installBound`), since all reasons name nodes of the arena,
and so are the bounds that rows imply: the terms that limit a variable are those which are bounded.
-/

namespace ArithDecide

/-! ## Explanations -/

namespace DependencyArena

variable {arena : DependencyArena} {d : Dependency}

/-- The walk with checked positions does not fail: all waiting nodes exist, and what they refer to
exists too. -/
theorem guarded_walk (closed : arena.Closed) (visited : Array Bool) (found : Explanation)
    (stack : List NodeId) (sized : visited.size = arena.nodes.size)
    (lt : ∀ id ∈ stack, id < arena.nodes.size) :
    Guarded.walk arena visited found stack = .ok (arena.walk visited found stack) := by
  fun_induction walk arena visited found stack with
  | case1 visited found => rw [Guarded.walk]
  | case2 visited found id stack unvisited marked l node ih =>
    rw [Guarded.walk, dif_pos unvisited]
    simp only [node]
    exact ih (by simpa [marked] using sized) fun other member => lt other (List.mem_cons_of_mem _ member)
  | case3 visited found id stack unvisited marked p node ih =>
    rw [Guarded.walk, dif_pos unvisited]
    simp only [node]
    exact ih (by simpa [marked] using sized) fun other member => lt other (List.mem_cons_of_mem _ member)
  | case4 visited found id stack unvisited marked a b node ih =>
    rw [Guarded.walk, dif_pos unvisited]
    simp only [node]
    have id_lt := lt id List.mem_cons_self
    have older := closed id a b node
    refine ih (by simpa [marked] using sized) fun other member => ?_
    rcases List.mem_cons.1 member with rfl | member
    · exact older.1.trans id_lt
    · rcases List.mem_cons.1 member with rfl | member
      · exact older.2.trans id_lt
      · exact lt other (List.mem_cons_of_mem _ member)
  | case5 visited found id stack unvisited marked node ih =>
    rw [Array.getElem?_eq_getElem (lt id List.mem_cons_self)] at node
    cases node
  | case6 visited found id stack seen ih =>
    have known : visited[id]? = some true := by
      have present := Array.getElem?_eq_getElem (sized ▸ lt id List.mem_cons_self)
      rw [present] at seen ⊢
      simpa using seen
    rw [Guarded.walk, dif_neg seen, if_pos known]
    exact ih sized fun other member => lt other (List.mem_cons_of_mem _ member)

theorem guarded_linearize (closed : arena.Closed) (names : arena.Names d) :
    Guarded.linearize arena d = .ok (arena.linearize d) := by
  cases d with
  | none => rfl
  | some id =>
    have leaves := guarded_walk closed (.replicate arena.nodes.size false) .empty [id]
      Array.size_replicate (by simpa using names id rfl)
    rw [Guarded.linearize, leaves]
    rfl

end DependencyArena

/-! ## Computations on a store -/

/-- The session keeps the tableau, the variables and the scopes of the engine. -/
structure TableauSession.Serves (s : TableauSession) (x : Engine.State) : Prop where
  kept : s.Kept ⟨x.tableau, x.scopes.map Scope.tableau⟩
  numVars : s.store.numVars = x.numVars
  marks : s.scopes.map Prod.snd = x.scopes.map Scope.numVars

namespace TableauSession

variable {s t u : TableauSession}

/-- Allowed calls lead from the one session to the other. -/
def Leads (s t : TableauSession) : Prop := ∃ calls, s.allowsAll calls = true ∧ s.run calls = t

theorem Leads.refl (s : TableauSession) : s.Leads s := ⟨[], rfl, rfl⟩

theorem Leads.call {call : TableauCall} (allowed : s.allows call = true) : s.Leads (s.step call) :=
  ⟨[call], by rw [allowsAll, allowed]; rfl, rfl⟩

theorem allowsAll_append (first second : List TableauCall) :
    s.allowsAll (first ++ second) = (s.allowsAll first && (s.run first).allowsAll second) := by
  induction first generalizing s with
  | nil => rfl
  | cons call rest ih =>
    rw [List.cons_append, allowsAll, allowsAll, ih, Bool.and_assoc]
    rfl

theorem Leads.trans (first : s.Leads t) (second : t.Leads u) : s.Leads u := by
  rcases first with ⟨calls, allowed, rfl⟩
  rcases second with ⟨more, allowed', rfl⟩
  refine ⟨calls ++ more, ?_, List.foldl_append⟩
  rw [allowsAll_append, allowed, allowed']
  rfl

/-- Allowed calls lead to a session that keeps the tableau, the variables and the scopes. -/
structure LeadsTo (s t : TableauSession) (x : Engine.State) : Prop extends t.Serves x where
  led : s.Leads t

end TableauSession

namespace Engine

open State

variable {α β : Type} {e mid next last : Engine} {h : History} {v : Var} {kind : BoundKind}
  {value : InfRat} {reason : Dependency} {origin : BoundOrigin}

/-- From every store of the tableau of the first engine the computation succeeds with the answer, and
allowed calls make of it a store of the tableau of the second one. -/
def Runs (e : Engine) (m : Guarded α) (a : α) (next : Engine) : Prop :=
  ∀ s : TableauSession, s.Serves e.toState →
    ∃ t : TableauSession, m s = .ok (a, t) ∧ s.LeadsTo t next.toState

/-- Tableau, variables and scopes are the same. -/
structure SameStore (e next : Engine) : Prop where
  tableau : next.tableau = e.tableau
  scopes : next.scopes = e.scopes
  numVars : next.numVars = e.numVars

theorem SameStore.refl (e : Engine) : SameStore e e := ⟨rfl, rfl, rfl⟩

theorem SameStore.trans (first : SameStore e mid) (second : SameStore mid next) : SameStore e next :=
  ⟨second.tableau.trans first.tableau, second.scopes.trans first.scopes,
    second.numVars.trans first.numVars⟩

theorem SameStore.symm (same : SameStore e next) : SameStore next e :=
  ⟨same.tableau.symm, same.scopes.symm, same.numVars.symm⟩

theorem SameStore.serves {s : TableauSession} (same : SameStore e next) (serves : s.Serves e.toState) :
    s.Serves next.toState where
  kept := by
    rw [same.tableau, same.scopes]
    exact serves.kept
  numVars := serves.numVars.trans same.numVars.symm
  marks := by
    rw [same.scopes]
    exact serves.marks

theorem ValuesOnly.sameStore (only : ValuesOnly e next) : SameStore e next :=
  ⟨only.tableau, only.scopes, numVars_congr only.columns⟩

theorem Becomes.sameStore (becomes : e.Becomes e.toState next) : SameStore e next := by
  refine ⟨?_, ?_, ?_⟩ <;> rw [becomes.toState]

namespace Runs

variable {m : Guarded α} {a : α} {f : α → Guarded β} {b : β}

theorem pure (same : SameStore e next) (a : α) : Runs e (Pure.pure a) a next :=
  fun s serves => ⟨s, rfl, same.serves serves, .refl s⟩

theorem bind (first : Runs e m a mid) (second : Runs mid (f a) b next) :
    Runs e (m >>= f) b next := by
  intro s serves
  obtain ⟨t, ran, serves, led⟩ := first s serves
  obtain ⟨u, ran', serves, led'⟩ := second t serves
  refine ⟨u, ?_, serves, led.trans led'⟩
  show (m s >>= fun answer => f answer.1 answer.2) = _
  rw [ran]
  exact ran'

theorem lift {x : Except Failure α} (ok : x = .ok a) : Runs e (liftM x) a e := by
  intro s serves
  rw [ok]
  exact ⟨s, rfl, serves, .refl s⟩

/-- A condition that holds is passed. -/
theorem demanded {condition : Prop} [Decidable condition] {failure : Failure} {f : Unit → Guarded β}
    (holds : condition) (second : Runs e (f ()) b next) :
    Runs e (liftM (demand condition failure) >>= f) b next :=
  (lift (demand_of holds failure)).bind second

theorem start (runs : Runs mid m a next) (same : SameStore e mid) : Runs e m a next :=
  fun s serves => runs s (same.serves serves)

end Runs

/-- A loop runs without failing if its step does wherever the steps before it have led. -/
theorem runs_forEach {step : Engine → α → Engine × Bool} {guarded : Engine → α → Guarded (Engine × Bool)}
    {items : List α}
    (each : ∀ next, Steps h e next → ∀ a ∈ items, Answers h next (step next a) ∧
      Runs next (guarded next a) (step next a) (step next a).1) :
    Runs e (Guarded.forEach guarded items e) (forEach step items e) (forEach step items e).1 := by
  induction items generalizing e with
  | nil => exact .pure (.refl e) _
  | cons a rest ih =>
    obtain ⟨answers, runs⟩ := each e .refl a List.mem_cons_self
    rw [Guarded.forEach, forEach]
    refine runs.bind ?_
    generalize step e a = result at answers
    obtain ⟨next, ok⟩ := result
    cases ok with
    | false => exact .pure (.refl _) _
    | true =>
      exact ih fun last later b member =>
        each last ((answers.steps rfl).trans later) b (List.mem_cons_of_mem _ member)

theorem runs_foldlM {step : Engine → α → Engine} {guarded : Engine → α → Guarded Engine}
    {items : List α} {P : Engine → Prop} (holds : P e)
    (each : ∀ next, P next → ∀ a ∈ items, P (step next a) ∧
      Runs next (guarded next a) (step next a) (step next a)) :
    Runs e (items.foldlM guarded e) (items.foldl step e) (items.foldl step e) := by
  induction items generalizing e with
  | nil => exact .pure (.refl e) _
  | cons a rest ih =>
    obtain ⟨kept, runs⟩ := each e holds a List.mem_cons_self
    rw [List.foldlM_cons, List.foldl_cons]
    exact runs.bind (ih kept fun next holds b member => each next holds b (List.mem_cons_of_mem _ member))

/-! ## Reasons and conflicts -/

theorem runs_joinReasons {reasons : List Dependency} (names : ∀ d ∈ reasons, e.dependencies.Names d) :
    Runs e (Guarded.joinReasons e reasons) (e.joinReasons reasons) (e.joinReasons reasons).1 :=
  .demanded (fun d member id same => names d member id same)
    (.pure (⟨rfl, rfl, rfl⟩ : SameStore e (e.joinReasons reasons).1) _)

/-- Bounds that exist have reasons. -/
theorem guarded_reasons {uses : List (Var × BoundKind)}
    (present : ∀ u ∈ uses, (e.bounds.get u.1 u.2).isSome = true) :
    Guarded.reasons e uses = .ok (e.reasonsOf uses) := by
  refine mapM_eq_ok fun u member => ?_
  obtain ⟨b, found⟩ := Option.isSome_iff_exists.1 (present u member)
  rw [BoundStore.Guarded.reason, BoundStore.reason, found]
  rfl

theorem runs_declare {status : Status} (calm : e.isInfeasible = false) :
    Runs e (Guarded.declare e status) { e with status := status } { e with status := status } :=
  .demanded calm (.pure (⟨rfl, rfl, rfl⟩ : SameStore e { e with status := status }) _)

theorem runs_declareChecking (e : Engine) :
    Runs e (Guarded.declareChecking e) e.declareChecking e.declareChecking := by
  rw [Guarded.declareChecking, declareChecking]
  split
  · rename_i consistent
    have status : e.status = .consistent := of_decide_eq_true consistent
    exact runs_declare (by rw [isInfeasible, status])
  · exact .pure (.refl e) _

theorem runs_setConflict (closed : e.dependencies.Closed) (names : e.dependencies.Names reason) :
    Runs e (Guarded.setConflict e reason) (e.setConflict reason) (e.setConflict reason) := by
  rw [Guarded.setConflict, setConflict]
  split
  · exact .pure (.refl e) _
  · rename_i calm
    exact (runs_declare (Bool.eq_false_iff.2 calm)).bind
      ((Runs.lift (DependencyArena.guarded_linearize closed names)).bind (.pure ⟨rfl, rfl, rfl⟩ _))

/-! ## Installing -/

/-- Nodes join older ones, and the reasons of all installed bounds name nodes. -/
structure Explained (e : Engine) : Prop where
  closed : e.dependencies.Closed
  records : ∀ b ∈ e.bounds.records, e.dependencies.Names b.reason

theorem State.Invariant.explained (inv : e.Invariant h) : e.Explained where
  closed := inv.founded.formed.closed
  records b member := (inv.founded.justified.supported b member).names

theorem Explained.congr (explained : e.Explained) (records : next.bounds.records = e.bounds.records)
    (dependencies : next.dependencies = e.dependencies) : next.Explained where
  closed := dependencies ▸ explained.closed
  records b member := dependencies ▸ explained.records b (records ▸ member)

theorem Explained.names {b : Bound} (explained : e.Explained) (active : e.bounds.get v kind = some b) :
    e.dependencies.Names b.reason := by
  obtain ⟨id, -, found⟩ := Option.bind_eq_some_iff.1 active
  exact explained.records b (Array.mem_of_getElem? found)

/-- Joined reasons name a node, and nodes still join older ones. -/
theorem Explained.joined {reasons : List Dependency} (explained : e.Explained)
    (names : ∀ d ∈ reasons, e.dependencies.Names d) :
    (e.joinReasons reasons).1.Explained ∧
      (e.joinReasons reasons).1.dependencies.Names (e.joinReasons reasons).2 := by
  have built := DependencyArena.built_joinAll explained.closed names
  exact ⟨⟨built.closed, fun b member => built.extended.names (explained.records b member)⟩, built.names⟩

/-- Propagating an atom runs without failing: the bounds that decide it have reasons that name nodes. -/
theorem runs_propagateAtom (explained : e.Explained) (a : AtomId) :
    Runs e (Guarded.propagateAtom e a) (e.propagateAtom a) (e.propagateAtom a) := by
  rw [Guarded.propagateAtom]
  have same : SameStore e (e.propagateAtom a) := by
    rw [propagateAtom]
    split
    · exact .refl e
    · split <;> exact ⟨rfl, rfl, rfl⟩
  split
  · rename_i settled
    rw [propagateAtom, settled]
    exact .pure (.refl e) _
  · rename_i atom waits
    split
    · rename_i undecided
      rw [propagateAtom, waits]
      simp only [undecided]
      exact .pure (.refl e) _
    · rename_i sign reason decided
      obtain ⟨side, b, active, rfl, -⟩ := bound_of_decided? decided
      exact (Runs.lift (DependencyArena.guarded_linearize explained.closed (explained.names active))).bind
        (.pure same _)

theorem runs_propagateAtomsOn (explained : e.Explained) (v : Var) :
    Runs e (Guarded.propagateAtomsOn e v) (e.propagateAtomsOn v) (e.propagateAtomsOn v) := by
  refine runs_foldlM (P := Explained) explained fun next explained a _ =>
    ⟨explained.congr ?_ ?_, runs_propagateAtom explained a⟩
  all_goals
    rw [propagateAtom]
    split
    · rfl
    · split <;> rfl

/-- What follows a tightened bound runs without failing: propagating the atoms of its variable, and
marking its rows and its base. -/
theorem runs_afterTightening (explained : e.Explained) (v : Var) (kind : BoundKind) (value : InfRat)
    (origin : BoundOrigin) :
    Runs e (Guarded.afterTightening e v kind value origin) (e.afterTightening v kind value origin)
      (e.afterTightening v kind value origin) := by
  have moved (touched : Engine) (same : SameStore e touched) (explained : touched.Explained) :
      let moved := touched.respectBound v kind value
      let checked := if moved.toPatch.isEmpty then moved else moved.declareChecking
      Runs e (if moved.toPatch.isEmpty then Guarded.propagateAtomsOn moved v
          else Guarded.declareChecking moved >>= fun checked => Guarded.propagateAtomsOn checked v)
        (checked.propagateAtomsOn v) (checked.propagateAtomsOn v) := by
    intro moved checked
    have only : ValuesOnly touched moved := valuesOnly_respectBound touched v kind value
    have explained : moved.Explained := explained.congr (by rw [only.bounds]) (by rw [only.toState])
    refine .start ?_ (same.trans only.sameStore)
    simp only [checked]
    split
    · exact runs_propagateAtomsOn explained v
    · refine (runs_declareChecking moved).bind (runs_propagateAtomsOn (explained.congr ?_ ?_) v)
      all_goals
        rw [declareChecking]
        split <;> rfl
  rw [Guarded.afterTightening, afterTightening]
  refine moved _ ?_ ?_
  · split <;> exact ⟨rfl, rfl, rfl⟩
  · refine explained.congr ?_ ?_ <;> split <;> rfl

/-- A bound is installed whatever its reason is a node of. -/
theorem runs_installBound (explained : e.Explained) (names : e.dependencies.Names reason)
    (v : Var) (kind : BoundKind) (value : InfRat) (origin : BoundOrigin) :
    Runs e (Guarded.installBound e v kind value reason origin)
      (e.installBound v kind value reason origin)
      (e.installBound v kind value reason origin).1 := by
  rw [Guarded.installBound, installBound]
  cases done : e.bounds.assert ⟨v, kind, e.roundBound v kind value, reason, origin⟩ with
  | conflict opposite =>
    obtain ⟨b, found, rfl, -⟩ := BoundStore.crossing_of_conflict done
    have both : ∀ d ∈ [reason, b.reason], e.dependencies.Names d := by
      simpa using ⟨names, explained.names found⟩
    obtain ⟨explained', named⟩ := explained.joined both
    exact (runs_joinReasons both).bind ((runs_setConflict explained'.closed named).bind
      (.pure (.refl _) _))
  | unchanged store => exact .pure (⟨rfl, rfl, rfl⟩ : SameStore e { e with bounds := store }) _
  | tightened store =>
    have installed : ({ e with bounds := store } : Engine).Explained := by
      rw [BoundStore.tightened_eq done]
      refine ⟨explained.closed, fun b member => ?_⟩
      rcases Array.mem_push.1 member with before | rfl
      · exact explained.records b before
      · exact names
    exact Runs.bind (.start (runs_afterTightening installed v kind _ origin) ⟨rfl, rfl, rfl⟩)
      (.pure (.refl _) (_, true))

/-- A bound is installed for reasons that name nodes. -/
theorem runs_installJoined {reasons : List Dependency} {joined : Engine} (explained : e.Explained)
    (names : ∀ d ∈ reasons, e.dependencies.Names d)
    (becomes : (e.joinReasons reasons).1.Becomes (e.joinReasons reasons).1.toState joined)
    (v : Var) (kind : BoundKind) (value : InfRat) (origin : BoundOrigin) :
    Runs joined
      (Guarded.installBound joined v kind value (e.joinReasons reasons).2 origin)
      (joined.installBound v kind value (e.joinReasons reasons).2 origin)
      (joined.installBound v kind value (e.joinReasons reasons).2 origin).1 := by
  obtain ⟨explained', named⟩ := explained.joined names
  rw [← becomes.toState] at named
  exact runs_installBound (explained'.congr (by rw [becomes.toState]) (by rw [becomes.toState])) named
    v kind value origin

/-- A conflict is recorded for reasons that name nodes. -/
theorem runs_conflictJoined {reasons : List Dependency} {joined : Engine} (explained : e.Explained)
    (names : ∀ d ∈ reasons, e.dependencies.Names d)
    (arena : joined.dependencies = (e.joinReasons reasons).1.dependencies) :
    Runs joined
      (Guarded.setConflict joined (e.joinReasons reasons).2)
      (joined.setConflict (e.joinReasons reasons).2)
      (joined.setConflict (e.joinReasons reasons).2) := by
  obtain ⟨explained', named⟩ := explained.joined names
  rw [← arena] at named
  exact runs_setConflict (arena ▸ explained'.closed) named

theorem runs_installLiteral (inv : e.Invariant h) (l : Literal) :
    Runs e (Guarded.installLiteral e l) (e.installLiteral l) (e.installLiteral l).1 := by
  rw [Guarded.installLiteral, installLiteral]
  cases e.atoms.get? l.atom with
  | none => exact .pure (.refl e) _
  | some atom =>
    have built := DependencyArena.built_mkLiteral inv.explained.closed l
    have explained : ({ e with dependencies := (e.dependencies.mkLiteral l).1 } : Engine).Explained :=
      ⟨built.closed, fun b member => built.extended.names (inv.explained.records b member)⟩
    exact .start (runs_installBound explained built.names _ _ _ _) ⟨rfl, rfl, rfl⟩

/-- Installing the queued literals runs without failing, by induction on how many of them there are. -/
theorem runs_installQueued (count : Nat) (inv : e.Invariant h) :
    Runs e (Guarded.installQueued count e) (installQueued count e) (installQueued count e).1 := by
  induction count generalizing e with
  | zero => exact .pure (.refl e) _
  | succ count ih =>
    rw [Guarded.installQueued, installQueued]
    cases taken : e.atoms.next? with
    | none => exact .pure (.refl e) _
    | some item =>
      obtain ⟨l, atoms⟩ := item
      obtain ⟨found, atoms_eq⟩ := next?_eq_some taken
      have dequeued : Step h e { e with atoms := atoms } := .dequeue l atoms taken ⟨rfl, rfl⟩
      have asserted : l ∈ ({ e with atoms := atoms } : Engine).atoms.asserted := by
        rw [show ({ e with atoms := atoms } : Engine).atoms = atoms from rfl, atoms_eq]
        exact List.mem_of_getElem? found
      have inv' := dequeued.invariant inv
      have answers := answers_installLiteral inv' asserted
      refine .start ((runs_installLiteral inv' l).bind ?_) ⟨rfl, rfl, rfl⟩
      dsimp only
      generalize installLiteral _ l = result at answers
      obtain ⟨next, ok⟩ := result
      cases ok with
      | false => exact .pure (.refl _) _
      | true => exact ih ((answers.steps rfl).invariant inv')

/-! ## Consequences of rows and of fixed variables -/

theorem Explained.names_reasonsOf (explained : e.Explained) (uses : List (Var × BoundKind)) :
    ∀ d ∈ e.reasonsOf uses, e.dependencies.Names d := by
  intro d member
  obtain ⟨u, -, rfl⟩ := List.mem_map.1 member
  rw [BoundStore.reason]
  cases active : e.bounds.get u.1 u.2 with
  | none => exact DependencyArena.names_none
  | some b => exact explained.names active

/-- The bounds exist that limit the terms beside one with a limited sum. -/
theorem isSome_otherBounds {rest : InfRat} {side : BoundKind} {t : Var × Rat}
    {terms : List (Var × Rat)} (keeps : e.Keeps next.toState)
    (distinct : terms.Pairwise fun s t => s.1 ≠ t.1) (member : t ∈ terms)
    (found : next.sumWithout (e.rowSum terms side) t side = some rest) :
    ∀ u ∈ otherBounds terms side t, (next.bounds.get u.1 u.2).isSome = true := by
  intro u at_u
  obtain ⟨other, at_others, rfl⟩ := List.mem_map.1 at_u
  obtain ⟨at_other, apart⟩ := List.mem_filter.1 at_others
  obtain ⟨x, extreme⟩ :=
    (sumWithout_spec keeps distinct member found).1 other at_other (of_decide_eq_true apart)
  obtain ⟨b, at_b, rfl⟩ := termExtreme_eq_some extreme
  obtain ⟨active, at_active, -⟩ := keeps.covers _ _ _ ⟨b, at_b, BoundKind.admits_refl _ _⟩
  rw [show limitingKind other.2 side = side.turned other.2 from rfl, at_active]
  rfl

/-- Deriving the bound of one term runs without failing, also after bounds of the other terms were
tightened in the same row. -/
theorem runs_impliedBound {r : RowId} {row : Row} {t : Var × Rat} (inv : e.Invariant h)
    (later : Steps h e next) (found : e.tableau.get? r = some row) (member : t ∈ row.zeroTerms)
    (side : BoundKind) :
    Runs next (Guarded.impliedBound row.zeroTerms side (e.rowSum row.zeroTerms side) next t)
      (impliedBound row.zeroTerms side (e.rowSum row.zeroTerms side) next t)
      (impliedBound row.zeroTerms side (e.rowSum row.zeroTerms side) next t).1 := by
  have explained := (later.invariant inv).explained
  have distinct := distinct_zeroTerms (inv.founded.formed.tableau.own found)
  rw [Guarded.impliedBound, impliedBound]
  cases sum_found : next.sumWithout (e.rowSum row.zeroTerms side) t side with
  | none => exact .pure (.refl _) _
  | some rest =>
    refine .demanded (nonzero_of_mem_zeroTerms member) ?_
    simp only
    split
    · have present := isSome_otherBounds (later.keeps inv) distinct member sum_found
      have reasons_eq : ((row.zeroTerms.filter fun other => other.1 ≠ t.1).map fun other =>
          next.bounds.reason other.1 (limitingKind other.2 side)) =
          next.reasonsOf (otherBounds row.zeroTerms side t) := by
        simp [reasonsOf, otherBounds]
      rw [reasons_eq]
      have names := explained.names_reasonsOf (otherBounds row.zeroTerms side t)
      exact (Runs.lift (guarded_reasons present)).bind ((runs_joinReasons names).bind
        (.start (runs_installJoined explained names (by exact ⟨rfl, rfl⟩) _ _ _ _)
          ⟨rfl, rfl, rfl⟩))
    · exact .pure (.refl _) _

/-- Deriving the bounds of all terms of a row runs without failing. -/
theorem runs_impliedBoundsOf (inv : e.Invariant h) (r : RowId) :
    Runs e (Guarded.impliedBoundsOf e r) (e.impliedBoundsOf r) (e.impliedBoundsOf r).1 := by
  rw [Guarded.impliedBoundsOf, impliedBoundsOf]
  cases filtered : (e.tableau.get? r).filter fun row => !row.pending with
  | none => exact .pure (.refl e) _
  | some row =>
    have found := (Option.filter_eq_some_iff.1 filtered).1
    refine runs_forEach (h := h) fun next steps t member => ⟨?_, ?_⟩
    · exact (answers_impliedBound inv steps found member .lower).bind fun last later _ =>
        answers_impliedBound inv (steps.trans later) found member .upper
    · have answers := answers_impliedBound inv steps found member .lower
      refine (runs_impliedBound inv steps found member .lower).bind ?_
      generalize impliedBound row.zeroTerms .lower _ next t = result at answers
      obtain ⟨last, ok⟩ := result
      cases ok with
      | false => exact .pure (.refl _) _
      | true => exact runs_impliedBound inv (steps.trans (answers.steps rfl)) found member .upper

theorem runs_propagateImpliedBounds (inv : e.Invariant h) :
    Runs e (Guarded.propagateImpliedBounds e) e.propagateImpliedBounds e.propagateImpliedBounds.1 := by
  have touched : Step h e { e with touched := [] } := .touch [] ⟨rfl, rfl⟩
  refine .start (runs_forEach (h := h) fun next steps r _ => ?_) ⟨rfl, rfl, rfl⟩
  have inv' := steps.invariant (touched.invariant inv)
  exact ⟨answers_impliedBoundsOf inv' r, runs_impliedBoundsOf inv' r⟩

theorem isSome_of_isFixed (fixed : e.bounds.isFixed v = true) (kind : BoundKind) :
    (e.bounds.get v kind).isSome = true := by
  rw [BoundStore.isFixed, BoundStore.lowerValue, BoundStore.upperValue, BoundStore.value,
    BoundStore.value] at fixed
  cases kind with
  | lower =>
    cases found : e.bounds.get v .lower with
    | none => simp [found] at fixed
    | some _ => rfl
  | upper =>
    cases found : e.bounds.get v .upper with
    | none => simp [found] at fixed
    | some _ => rfl

theorem isFixed_of_sharedFixedValue? (found : e.sharedFixedValue? v = some value) :
    e.bounds.isFixed v = true := by
  rw [sharedFixedValue?] at found
  split at found
  · rename_i both
    exact (Bool.and_eq_true _ _ ▸ both).2
  · cases found

/-- Reporting an equality of fixed variables runs without failing. -/
theorem runs_reportEquality (inv : e.Invariant h) (v : Var) :
    Runs e (Guarded.reportEquality e v) (e.reportEquality v) (e.reportEquality v) := by
  have same : SameStore e (e.reportEquality v) := by
    obtain ⟨_, _, _, toState⟩ := toState_reportEquality e v
    refine ⟨?_, ?_, ?_⟩ <;> rw [toState]
    rfl
  rw [Guarded.reportEquality]
  split
  · rename_i unshared
    rw [reportEquality, unshared]
    exact .pure (.refl e) _
  · rename_i value own
    simp only
    split
    · rename_i known
      rw [reportEquality, own]
      simp only [known]
      exact .pure (.refl e) _
    · rename_i w other
      have shared : e.sharedFixedValue? w = some value := by
        have chosen := (Option.filter_eq_some_iff.1 other).1
        simpa using List.find?_some chosen
      have present : ∀ u ∈ [(w, BoundKind.lower), (w, .upper), (v, .lower), (v, .upper)],
          (e.bounds.get u.1 u.2).isSome = true := by
        simp [isSome_of_isFixed (isFixed_of_sharedFixedValue? shared),
          isSome_of_isFixed (isFixed_of_sharedFixedValue? own)]
      have names := inv.explained.names_reasonsOf
        [(w, BoundKind.lower), (w, .upper), (v, .lower), (v, .upper)]
      obtain ⟨explained, named⟩ := inv.explained.joined names
      have same_joined : SameStore e
          (e.joinReasons (e.reasonsOf [(w, .lower), (w, .upper), (v, .lower), (v, .upper)])).1 :=
        ⟨rfl, rfl, rfl⟩
      have explaining := DependencyArena.guarded_linearize explained.closed named
      exact (Runs.lift (guarded_reasons present)).bind ((runs_joinReasons names).bind
        ((Runs.lift explaining).bind (.pure (same_joined.symm.trans same) _)))

theorem runs_propagateFixedEqualities (inv : e.Invariant h) :
    Runs e (Guarded.propagateFixedEqualities e) e.propagateFixedEqualities
      e.propagateFixedEqualities :=
  runs_foldlM (P := (·.Invariant h)) inv fun _ inv v _ =>
    ⟨(steps_reportEquality inv v).invariant inv, runs_reportEquality inv v⟩

/-! ## Conflicts and models -/

theorem guarded_conflict (inv : e.Invariant h) : Guarded.conflict e = .ok e.conflict := by
  rw [Guarded.conflict, conflict]
  cases failed : e.status with
  | infeasible d =>
    have explaining := DependencyArena.guarded_linearize inv.explained.closed
      (inv.founded.blamed d failed).names
    show (DependencyArena.Guarded.linearize e.dependencies d >>= fun explanation => _) = _
    rw [explaining]
    rfl
  | consistent => rfl
  | checking => rfl

theorem guarded_epsilonLimit? (low high : InfRat) :
    Guarded.epsilonLimit? low high = .ok (epsilonLimit? low high) := by
  rw [Guarded.epsilonLimit?, epsilonLimit?]
  split
  · rename_i room
    have less : high.eps < low.eps := of_decide_eq_true (Bool.and_eq_true _ _ ▸ room).2
    rw [demand_of (sub_ne_zero.2 less.ne')]
    rfl
  · rfl

theorem guarded_epsilonLimits (e : Engine) (v : Var) :
    Guarded.epsilonLimits e v = .ok (e.epsilonLimits v) := by
  rw [Guarded.epsilonLimits, epsilonLimits]
  cases e.bounds.lowerValue v <;> cases e.bounds.upperValue v <;>
    simp [guarded_epsilonLimit?] <;> rfl

theorem guarded_epsilon (e : Engine) : Guarded.epsilon e = .ok e.epsilon := by
  rw [Guarded.epsilon, mapM_eq_ok fun v _ => guarded_epsilonLimits e v]
  rfl

theorem guarded_model (e : Engine) : Guarded.model e = .ok e.model := by
  rw [Guarded.model, guarded_epsilon]
  rfl

end Engine

end ArithDecide
