import ArithDecide.Engine.Propagation
import ArithDecide.Proofs.Conservation

/-!
# Installing bounds is sound

A bound that is offered with a reason that entails it becomes active with that reason, changes
nothing, or crosses the active bound on the other side; then both reasons together refute the state.
Rounding the bounds of integer variables loses no integer.
-/

namespace ArithDecide

/-! ## Rounding -/

/-- An integer respects a bound exactly when it respects the rounded one. -/
theorem Engine.admits_roundInt (kind : BoundKind) (value : InfRat) (n : Int) :
    kind.admits (.ofRat (roundInt kind value)) (.ofRat n) = kind.admits value (.ofRat n) := by
  rw [Bool.eq_iff_iff]
  cases kind with
  | lower =>
    rw [BoundKind.admits_lower, BoundKind.admits_lower, InfRat.ofRat_le, InfRat.le_ofRat, roundInt]
    split
    · rw [Int.cast_le, Int.add_one_le_iff, Rat.floor_lt_iff]
    · rw [Int.cast_le, Rat.ceil_le_iff]
  | upper =>
    rw [BoundKind.admits_upper, BoundKind.admits_upper, InfRat.ofRat_le, InfRat.ofRat_le_iff,
      roundInt]
    split
    · rw [Int.cast_le, Int.le_sub_one_iff, Rat.lt_ceil_iff]
    · rw [Int.cast_le, Rat.le_floor_iff]

theorem BoundKind.coherent_ofRat (kind : BoundKind) (q : Rat) : kind.Coherent (.ofRat q) := by
  cases kind <;> exact le_refl (0 : Rat)

/-- A value that the variable may take respects a bound exactly when it respects the rounded one. -/
theorem Engine.admits_roundBound {e : Engine} {v : Var} {q : Rat}
    (integral : e.isInt v = true → ∃ n : Int, q = n) (kind : BoundKind) (value : InfRat) :
    kind.admits (e.roundBound v kind value) (.ofRat q) = kind.admits value (.ofRat q) := by
  rw [roundBound]
  split
  · rename_i integer
    obtain ⟨n, rfl⟩ := integral integer
    exact admits_roundInt kind value n
  · rfl

namespace Engine

open State

variable {e next : Engine} {h : History} {v : Var} {kind : BoundKind} {value : InfRat}
  {reason : Dependency} {origin : BoundOrigin}

/-- A bound that may be offered may be installed after rounding. -/
theorem installable_rounded (offered : e.Offered h ⟨v, kind, value, reason, origin⟩) :
    e.Installable h ⟨v, kind, e.roundBound v kind value, reason, origin⟩ := by
  rw [roundBound]
  split
  · rename_i integer
    have coherent : Bound.Coherent ⟨v, kind, .ofRat (roundInt kind value), reason, origin⟩ :=
      kind.coherent_ofRat _
    refine ⟨⟨offered.lt, ⟨offered.supported.names, offered.supported.grounded, ?_⟩, ?_, ?_⟩, ?_⟩
    · intro reliable α solves believes
      have holds : kind.admits value (.ofRat (α v)) = true :=
        offered.supported.entails reliable α solves believes
      obtain ⟨n, integral⟩ := solves.integral v integer
      show kind.admits _ (.ofRat (α v)) = true
      rw [integral] at holds ⊢
      rw [admits_roundInt]
      exact holds
    · intro drifting
      exact absurd (.inl coherent) drifting
    · intro _
      exact .inl coherent
    · intro _
      exact ⟨_, rfl⟩
  · rename_i not_integer
    exact ⟨offered, fun integer => absurd integer not_integer⟩

/-! ## Joining reasons -/

/-- What joining reasons gives. -/
structure Joined (h : History) (e : Engine) (reasons : List Dependency) (joined : Engine)
    (reason : Dependency) : Prop where
  steps : Steps h e joined
  becomes : e.Becomes { e.toState with dependencies := joined.dependencies } joined
  grows : e.Grows joined.toState
  names : joined.dependencies.Names reason
  leaves : ∀ L Q, joined.dependencies.AllLeaves L Q reason ↔
    ∀ d ∈ reasons, e.dependencies.AllLeaves L Q d

theorem grows_depend {s : State} {arena : DependencyArena} (nodes : s.dependencies.Extends arena) :
    s.Grows { s with dependencies := arena } :=
  .of_eq rfl rfl rfl rfl nodes (fun _ atom found => ⟨atom, found, rfl, rfl, rfl⟩)
    (fun _ member => member) id

theorem joined_joinReasons (closed : e.dependencies.Closed) {reasons : List Dependency}
    (names : ∀ d ∈ reasons, e.dependencies.Names d) :
    Joined h e reasons (e.joinReasons reasons).1 (e.joinReasons reasons).2 := by
  have built := DependencyArena.built_joinAll closed names
  exact
    { steps := .single (.depend _ built.extended built.closed ⟨rfl, rfl⟩)
      becomes := ⟨rfl, rfl⟩
      grows := grows_depend built.extended
      names := built.names
      leaves := built.leaves }

section Joined

variable {reasons : List Dependency} {joined : Engine} (j : Joined h e reasons joined reason)
include j

theorem Joined.grounded (all : ∀ d ∈ reasons, e.Grounded h d) : joined.Grounded h reason := by
  refine (j.leaves _ _).2 fun d member => ?_
  rw [j.becomes.toState]
  exact all d member

theorem Joined.believes {α : Var → Rat} (believes : joined.Believes α reason) :
    ∀ d ∈ reasons, e.Believes α d := by
  have same : joined.LiteralHolds α = e.LiteralHolds α := by
    rw [j.becomes.toState]
    rfl
  intro d member
  have := (j.leaves _ _).1 believes d member
  rwa [same] at this

/-- Joined reasons refute the state when no solution makes all of them true. -/
theorem Joined.blames (all : ∀ d ∈ reasons, e.Grounded h d)
    (refuted : e.Reliable → ∀ α, e.Solves α → (∀ d ∈ reasons, e.Believes α d) → False) :
    joined.Blames h reason where
  names := j.names
  justified := .inl ⟨j.grounded all, fun reliable α solves believes =>
    refuted (j.grows.reliable reliable) α (j.grows.solves α solves) (j.believes believes)⟩

theorem Joined.supported {b : Bound} (same : b.reason = reason)
    (all : ∀ d ∈ reasons, e.Grounded h d)
    (entails : e.Reliable → ∀ α, e.Solves α → (∀ d ∈ reasons, e.Believes α d) → b.Holds α) :
    joined.Supported h b where
  names := same ▸ j.names
  grounded := same ▸ j.grounded all
  entails reliable α solves believes :=
    entails (j.grows.reliable reliable) α (j.grows.solves α solves) (j.believes (same ▸ believes))

end Joined

/-! ## Reasons of active bounds -/

/-- The assignment respects the active bounds of some variables on some sides. -/
def Respects (e : Engine) (α : Var → Rat) (uses : List (Var × BoundKind)) : Prop :=
  ∀ u ∈ uses, ∀ b, e.bounds.get u.1 u.2 = some b → b.Holds α

/-- What the active bounds of some variables on some sides rest on. -/
def reasonsOf (e : Engine) (uses : List (Var × BoundKind)) : List Dependency :=
  uses.map fun u => e.bounds.reason u.1 u.2

theorem names_reason (inv : e.Invariant h) (v : Var) (kind : BoundKind) :
    e.dependencies.Names (e.bounds.reason v kind) := by
  rw [BoundStore.reason]
  cases found : e.bounds.get v kind with
  | none => exact DependencyArena.names_none
  | some b =>
    have member := (inv.founded.formed.bounds.active found).1
    exact (inv.founded.justified.supported b member).names

theorem grounded_reason (inv : e.Invariant h) (v : Var) (kind : BoundKind) :
    e.Grounded h (e.bounds.reason v kind) := by
  rw [BoundStore.reason]
  cases found : e.bounds.get v kind with
  | none => exact DependencyArena.allLeaves_none.2 trivial
  | some b =>
    have member := (inv.founded.formed.bounds.active found).1
    exact (inv.founded.justified.supported b member).grounded

theorem names_reasonsOf (inv : e.Invariant h) (uses : List (Var × BoundKind)) :
    ∀ d ∈ e.reasonsOf uses, e.dependencies.Names d := by
  intro d member
  obtain ⟨u, -, rfl⟩ := List.mem_map.1 member
  exact names_reason inv u.1 u.2

theorem grounded_reasonsOf (inv : e.Invariant h) (uses : List (Var × BoundKind)) :
    ∀ d ∈ e.reasonsOf uses, e.Grounded h d := by
  intro d member
  obtain ⟨u, -, rfl⟩ := List.mem_map.1 member
  exact grounded_reason inv u.1 u.2

/-- A solution that makes the reasons of active bounds true respects these bounds. -/
theorem respects_of_believes (inv : e.Invariant h) (reliable : e.Reliable) {α : Var → Rat}
    (solves : e.Solves α) {uses : List (Var × BoundKind)}
    (believes : ∀ d ∈ e.reasonsOf uses, e.Believes α d) : e.Respects α uses := by
  intro u member b found
  have same : e.bounds.reason u.1 u.2 = b.reason := by
    rw [BoundStore.reason, found, Option.bind_some]
  have record := (inv.founded.formed.bounds.active found).1
  refine (inv.founded.justified.supported b record).entails reliable α solves ?_
  rw [← same]
  exact believes _ (List.mem_map_of_mem member)

/-- Reasons of active bounds are joined. -/
theorem joined_reasonsOf (inv : e.Invariant h) (uses : List (Var × BoundKind)) :
    Joined h e (e.reasonsOf uses) (e.joinReasons (e.reasonsOf uses)).1
      (e.joinReasons (e.reasonsOf uses)).2 :=
  joined_joinReasons inv.founded.formed.closed (names_reasonsOf inv uses)

/-- Active bounds that no solution respects together are to blame. -/
theorem blames_reasonsOf (inv : e.Invariant h) (uses : List (Var × BoundKind))
    (refuted : e.Reliable → ∀ α, e.Solves α → e.Respects α uses → False) :
    (e.joinReasons (e.reasonsOf uses)).1.Blames h (e.joinReasons (e.reasonsOf uses)).2 :=
  (joined_reasonsOf inv uses).blames (grounded_reasonsOf inv uses) fun reliable α solves believes =>
    refuted reliable α solves (respects_of_believes inv reliable solves believes)

/-- A bound that every solution has which respects some active bounds may be offered with their
reasons. -/
theorem offered_reasonsOf (inv : e.Invariant h) (uses : List (Var × BoundKind))
    (lt : v < e.numVars) (not_given : origin ≠ .given)
    (entails : ∀ α, e.Solves α → e.Respects α uses → kind.admits value (.ofRat (α v)) = true)
    (follows : kind.Coherent value ∨ ∀ α : Var → Rat, e.tableau.Holds α →
      (∀ c ∈ e.bounds.records, c.Holds α) → kind.admits value (.ofRat (α v)) = true) :
    (e.joinReasons (e.reasonsOf uses)).1.Offered h
      ⟨v, kind, value, (e.joinReasons (e.reasonsOf uses)).2, origin⟩ where
  lt := lt
  supported := (joined_reasonsOf inv uses).supported rfl (grounded_reasonsOf inv uses)
    fun reliable α solves believes =>
      entails α solves (respects_of_believes inv reliable solves believes)
  follows drifting := follows.resolve_left fun coherent => drifting (.inl coherent)
  origin is_given := absurd is_given not_given

/-! ## Recording a conflict -/

theorem fails_setConflict {d : Dependency} (blames : e.Blames h d) :
    Fails h e (e.setConflict d) := by
  rw [setConflict]
  split
  · rename_i already
    exact .again already (.refl e)
  · rename_i feasible
    exact .conflict d (Bool.eq_false_iff.2 feasible) blames ⟨rfl, rfl⟩

/-! ## What follows an installed bound -/

theorem steps_propagateAtom (h : History) (e : Engine) (a : AtomId) :
    Steps h e (e.propagateAtom a) := by
  rw [propagateAtom]
  split
  · exact .refl
  · rename_i atom waits
    split
    · exact .refl
    · rename_i sign reason decided
      exact .single (.handOut a atom sign reason (Option.filter_eq_some_iff.1 waits).1 decided
        ⟨rfl, rfl⟩)

theorem steps_propagateAtomsOn (h : History) (e : Engine) (v : Var) :
    Steps h e (e.propagateAtomsOn v) := by
  rw [propagateAtomsOn]
  induction e.atoms.atomsOn v generalizing e with
  | nil => exact .refl
  | cons a rest ih => exact (steps_propagateAtom h e a).trans (ih _)

theorem steps_declareChecking (h : History) (e : Engine) : Steps h e e.declareChecking := by
  rw [declareChecking]
  split
  · rename_i consistent
    have status : e.status = .consistent := of_decide_eq_true consistent
    refine .single (.verdict .checking ?_ (fun d => by simp) ⟨rfl, rfl⟩)
    rw [isInfeasible, status]
  · exact .refl

/-- Moving the variable onto its new bound comes first; steps that concern other things follow. -/
theorem afterTightening_spec (h : History) (e : Engine) (v : Var) (kind : BoundKind)
    (value : InfRat) (origin : BoundOrigin) :
    ∃ touched mid, e.Becomes { e.toState with touched := touched } mid ∧
      Steps h (mid.respectBound v kind value) (e.afterTightening v kind value origin) := by
  have rest (mid : Engine) : Steps h (mid.respectBound v kind value)
      (((if (mid.respectBound v kind value).toPatch.isEmpty then mid.respectBound v kind value
        else (mid.respectBound v kind value).declareChecking)).propagateAtomsOn v) := by
    refine Relation.ReflTransGen.trans ?_ (steps_propagateAtomsOn h _ v)
    split
    · exact .refl
    · exact steps_declareChecking h _
  rw [afterTightening]
  by_cases derived : origin = .derived
  · simp only [derived, if_true]
    refine ⟨e.touched, _, ?_, rest _⟩
    exact ⟨rfl, rfl⟩
  · simp only [derived, if_false]
    refine ⟨SortedSet.union e.touched
      ((e.tableau.rowOf? v).toList ++ e.tableau.rowsMentioning v), _, ?_, rest _⟩
    exact ⟨rfl, rfl⟩

/-- Handing out literals changes atoms and what waits only. -/
theorem toState_propagateAtomsOn (e : Engine) (v : Var) :
    (e.propagateAtomsOn v).toState = { e.toState with
      atoms := (e.propagateAtomsOn v).atoms
      propagations := (e.propagateAtomsOn v).propagations } := by
  rw [propagateAtomsOn]
  induction e.atoms.atomsOn v generalizing e with
  | nil => rfl
  | cons a rest ih =>
    rw [List.foldl_cons, ih, propagateAtom]
    split
    · rfl
    · split <;> rfl

theorem toState_checked (e : Engine) :
    (if e.toPatch.isEmpty then e else e.declareChecking).toState =
      { e.toState with status := (if e.toPatch.isEmpty then e else e.declareChecking).status } := by
  split
  · rfl
  · rw [declareChecking]
    split <;> rfl

/-- What follows a tightened bound concerns values, what waits, the verdict and atoms. -/
theorem afterTightening_congr {β : Type} (field : State → β) (same : ∀ (s : State) values valueTrail
      toPatch touched status atoms propagations, field { s with
        values := values
        valueTrail := valueTrail
        toPatch := toPatch
        touched := touched
        status := status
        atoms := atoms
        propagations := propagations } = field s)
    (e : Engine) (v : Var) (kind : BoundKind) (value : InfRat) (origin : BoundOrigin) :
    field (e.afterTightening v kind value origin).toState = field e.toState := by
  have values (s : State) := same s s.values s.valueTrail s.toPatch s.touched s.status
  have status (s : State) := same s s.values s.valueTrail s.toPatch s.touched
  rw [afterTightening]
  refine (congrArg field (toState_propagateAtomsOn _ v)).trans ((values _ _ _).trans ?_)
  refine (congrArg field (toState_checked _)).trans ((status _ _ _ _).trans ?_)
  refine (congrArg field (valuesOnly_respectBound _ _ _ _).toState).trans
    ((same _ _ _ _ _ _ _ _).trans ?_)
  split
  · rfl
  · exact same e.toState _ _ _ _ _ _ _

theorem bounds_afterTightening (e : Engine) (v : Var) (kind : BoundKind) (value : InfRat)
    (origin : BoundOrigin) : (e.afterTightening v kind value origin).bounds = e.bounds :=
  afterTightening_congr State.bounds (fun _ _ _ _ _ _ _ _ => rfl) e v kind value origin

/-- A derived bound does not make rows be inspected. -/
theorem touched_afterTightening (e : Engine) (v : Var) (kind : BoundKind) (value : InfRat) :
    (e.afterTightening v kind value .derived).touched = e.touched := by
  rw [afterTightening]
  refine (congrArg State.touched (toState_propagateAtomsOn _ v)).trans ?_
  refine (congrArg State.touched (toState_checked _)).trans ?_
  refine (congrArg State.touched (valuesOnly_respectBound _ _ _ _).toState).trans ?_
  rw [if_pos rfl]
  rfl

/-! ## Installing -/

theorem steps_tightened {store : BoundStore}
    (ok : e.Installable h ⟨v, kind, value, reason, origin⟩)
    (done : e.bounds.assert ⟨v, kind, value, reason, origin⟩ = .tightened store) :
    Steps h e (({ e with bounds := store }).afterTightening v kind value origin) := by
  obtain ⟨touched, mid, becomes, rest⟩ :=
    afterTightening_spec h { e with bounds := store } v kind value origin
  have first : Step h e (mid.respectBound v kind value) :=
    .tighten ⟨v, kind, value, reason, origin⟩ store touched mid ok done
      ⟨becomes.toState, becomes.valueStamps⟩ rfl
  exact .head first rest

/-- The bound that is refused and the active one on the other side are to blame. -/
theorem blames_crossing (inv : e.Invariant h)
    (ok : e.Installable h ⟨v, kind, value, reason, origin⟩) {opposite : Dependency}
    (done : e.bounds.assert ⟨v, kind, value, reason, origin⟩ = .conflict opposite) :
    Joined h e [reason, opposite] (e.joinReasons [reason, opposite]).1
        (e.joinReasons [reason, opposite]).2 ∧
      (e.joinReasons [reason, opposite]).1.Blames h (e.joinReasons [reason, opposite]).2 := by
  obtain ⟨b, found, rfl, crossing⟩ := BoundStore.crossing_of_conflict done
  obtain ⟨record, var_eq, kind_eq⟩ := inv.founded.formed.bounds.active found
  have supported := inv.founded.justified.supported b record
  have j : Joined h e [reason, b.reason] (e.joinReasons [reason, b.reason]).1
      (e.joinReasons [reason, b.reason]).2 :=
    joined_joinReasons inv.founded.formed.closed
      (by simpa using ⟨ok.supported.names, supported.names⟩)
  refine ⟨j, j.blames (by simpa using ⟨ok.supported.grounded, supported.grounded⟩)
    fun reliable α solves believes => ?_⟩
  have first : kind.admits value (.ofRat (α v)) = true :=
    ok.supported.entails reliable α solves (believes _ (by simp))
  have second : b.kind.admits b.value (.ofRat (α b.var)) = true :=
    supported.entails reliable α solves (believes _ (by simp))
  rw [var_eq, kind_eq] at second
  exact BoundKind.not_admits_of_crossing crossing first second

theorem answers_installBound (inv : e.Invariant h)
    (offered : e.Offered h ⟨v, kind, value, reason, origin⟩) :
    Answers h e (e.installBound v kind value reason origin) := by
  have ok := installable_rounded offered
  rw [installBound]
  cases done : e.bounds.assert ⟨v, kind, e.roundBound v kind value, reason, origin⟩ with
  | conflict opposite =>
    obtain ⟨j, blames⟩ := blames_crossing inv ok done
    exact .conflict j.steps (fails_setConflict blames)
  | unchanged store =>
    obtain ⟨rfl, -⟩ := BoundStore.unchanged_spec done
    exact .yes (.single (.note v kind ⟨rfl, rfl⟩))
  | tightened store =>
    exact .yes (steps_tightened ok done)

/-- A bound that every solution has which respects some active bounds is installed with their reasons. -/
theorem answers_derived (inv : e.Invariant h) (uses : List (Var × BoundKind)) {joined : Engine}
    (becomes : (e.joinReasons (e.reasonsOf uses)).1.Becomes
      (e.joinReasons (e.reasonsOf uses)).1.toState joined)
    (lt : v < e.numVars) (not_given : origin ≠ .given)
    (entails : ∀ α, e.Solves α → e.Respects α uses → kind.admits value (.ofRat (α v)) = true)
    (follows : kind.Coherent value ∨ ∀ α : Var → Rat, e.tableau.Holds α →
      (∀ c ∈ e.bounds.records, c.Holds α) → kind.admits value (.ofRat (α v)) = true) :
    Answers h e (joined.installBound v kind value (e.joinReasons (e.reasonsOf uses)).2 origin) := by
  have steps : Steps h e joined := (joined_reasonsOf inv uses).steps.trans becomes.steps
  have offered := offered_reasonsOf inv uses lt not_given entails follows
  rw [← becomes.toState] at offered
  exact (answers_installBound (steps.invariant inv) offered).after steps

/-- After a bound was installed the active bound says at least as much. -/
theorem covers_installBound (inv : e.Invariant h)
    (offered : e.Offered h ⟨v, kind, value, reason, origin⟩)
    (yes : (e.installBound v kind value reason origin).2 = true) :
    (e.installBound v kind value reason origin).1.bounds.Covers v kind
      (e.roundBound v kind value) := by
  have ok := installable_rounded offered
  rw [installBound] at yes ⊢
  cases done : e.bounds.assert ⟨v, kind, e.roundBound v kind value, reason, origin⟩ with
  | conflict opposite => simp [done] at yes
  | unchanged store =>
    obtain ⟨rfl, covered⟩ := BoundStore.unchanged_spec done
    exact covered
  | tightened store =>
    obtain ⟨touched, mid, becomes, rest⟩ := afterTightening_spec h
      { e with bounds := store } v kind (e.roundBound v kind value) origin
    have first : mid.bounds = store := by rw [becomes.toState]
    have installed := BoundStore.installed_of_tightened inv.founded.formed.bounds ok.lt done
    have moved := invariant_respectBound inv ok done
      (⟨becomes.toState, becomes.valueStamps⟩ :
        e.Becomes { e.toState with bounds := store, touched := touched } mid)
    refine (rest.keeps moved).covers _ _ _ ?_
    rw [(valuesOnly_respectBound _ _ _ _).bounds, first]
    exact installed.covers_self

theorem infeasible_setConflict (e : Engine) (d : Dependency) :
    (e.setConflict d).isInfeasible = true := by
  rw [setConflict]
  split
  · assumption
  · rfl

/-- The first conflict is recorded. -/
theorem status_setConflict {d : Dependency} (calm : e.isInfeasible = false) :
    (e.setConflict d).status = .infeasible d := by
  rw [setConflict, if_neg (Bool.eq_false_iff.1 calm)]
  rfl

theorem bounds_setConflict (e : Engine) (d : Dependency) : (e.setConflict d).bounds = e.bounds := by
  rw [setConflict]
  split <;> rfl

/-- Installing a bound leaves at most one record behind. -/
theorem mem_records_installBound {b : Bound}
    (member : b ∈ (e.installBound v kind value reason origin).1.bounds.records) :
    b ∈ e.bounds.records ∨ b = ⟨v, kind, e.roundBound v kind value, reason, origin⟩ := by
  rw [installBound] at member
  cases done : e.bounds.assert ⟨v, kind, e.roundBound v kind value, reason, origin⟩ with
  | conflict opposite =>
    simp only [done, bounds_setConflict] at member
    exact .inl member
  | unchanged store =>
    obtain ⟨rfl, -⟩ := BoundStore.unchanged_spec done
    simp only [done] at member
    exact .inl member
  | tightened store =>
    obtain rfl := BoundStore.tightened_eq done
    simp only [done, bounds_afterTightening] at member
    exact Array.mem_push.1 member

theorem infeasible_installBound (no : (e.installBound v kind value reason origin).2 = false) :
    (e.installBound v kind value reason origin).1.isInfeasible = true := by
  rw [installBound] at no ⊢
  cases done : e.bounds.assert ⟨v, kind, e.roundBound v kind value, reason, origin⟩ with
  | conflict opposite =>
    exact infeasible_setConflict _ _
  | unchanged store => simp [done] at no
  | tightened store => simp [done] at no

end Engine

end ArithDecide
