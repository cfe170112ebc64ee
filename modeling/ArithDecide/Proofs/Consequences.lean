import ArithDecide.Proofs.Conservation

/-!
# Literals that are handed out follow

A literal is queued for being handed out when the active bounds decide its atom. Its explanation is
that of the deciding bound, so it is in force and entails the literal. `State.Announces` says so of an
entry of the queue; as constraints are only added while a scope is open, the entries that wait stay
right, and `Steps.announced` carries them through everything the engine does.
-/

namespace ArithDecide

/-- A literal says that the fact of its atom is true, or that it is false. -/
theorem Atom.means_iff_admits (atom : Atom) (negative : Bool) (q : Rat) :
    atom.Means negative q ↔ atom.kind.admits (.ofRat atom.threshold) (.ofRat q) = !negative := by
  obtain ⟨var, kind, threshold, assignment, propagated⟩ := atom
  cases kind <;> cases negative <;> simp [Atom.Means, BoundKind.admits, InfRat.ofRat_le]

namespace Engine

variable {e next : Engine} {h k : History} {p : Propagation} {v : Var} {kind : BoundKind}
  {threshold : Rat} {sign : Bool} {reason : Dependency}

namespace State

variable {s t : State}

/-- The explanation of a queued literal is in force and, as far as the values can be relied on, entails
the literal. -/
structure Announces (s : State) (h : History) (p : Propagation) : Prop where
  known : ∃ atom, s.atoms.get? p.literal.atom = some atom
  literals : ∀ l ∈ p.explanation.literals, l ∈ s.atoms.asserted
  equalities : ∀ q ∈ p.explanation.equalities, q ∈ h.equated
  entails : s.Reliable → ∀ α, s.Solves α → (∀ l ∈ p.explanation.literals, s.LiteralHolds α l) →
    (∀ q ∈ p.explanation.equalities, q.Holds α) → s.LiteralHolds α p.literal

/-- A literal of a known atom keeps its meaning. -/
theorem Grows.literalHolds_iff (grows : s.Grows t) {α : Var → Rat} {l : Literal} {atom : Atom}
    (known : s.atoms.get? l.atom = some atom) : t.LiteralHolds α l ↔ s.LiteralHolds α l := by
  refine ⟨grows.literalHolds, fun holds later found => ?_⟩
  obtain ⟨later', found', var_eq, kind_eq, threshold_eq⟩ := grows.atoms _ atom known
  obtain rfl := Option.some.inj (found.symm.trans found')
  exact (Atom.means_congr var_eq kind_eq threshold_eq _ α).2 (holds atom known)

/-- What was announced stays right while constraints are added. -/
theorem Grows.announces (grows : s.Grows t) (longer : ∀ q ∈ h.equated, q ∈ k.equated)
    (announces : s.Announces h p) : t.Announces k p := by
  obtain ⟨atom, known⟩ := announces.known
  obtain ⟨later, found, -⟩ := grows.atoms _ atom known
  refine ⟨⟨later, found⟩, fun l member => grows.asserted l (announces.literals l member),
    fun q member => longer q (announces.equalities q member),
    fun reliable α solves literals equalities => ?_⟩
  exact (grows.literalHolds_iff known).2 (announces.entails (grows.reliable reliable) α
    (grows.solves α solves) (fun l member => grows.literalHolds (literals l member)) equalities)

/-- A dependency that is in force and entails a literal explains it. -/
theorem Founded.announces {l : Literal} (inv : s.Founded h)
    (known : ∃ atom, s.atoms.get? l.atom = some atom) (grounded : s.Grounded h reason)
    (entails : s.Reliable → ∀ α, s.Solves α → s.Believes α reason → s.LiteralHolds α l) :
    s.Announces h ⟨l, s.dependencies.linearize reason⟩ := by
  have closed := inv.formed.closed
  obtain ⟨literals, equalities⟩ :=
    (DependencyArena.allLeaves_iff_linearize closed reason).1 grounded
  refine ⟨known, literals, equalities, fun reliable α solves literals equalities =>
    entails reliable α solves ?_⟩
  exact (DependencyArena.allLeaves_iff_linearize closed reason).2 ⟨literals, equalities⟩

end State

/-! ## Deciding bounds -/

/-- The bound that decides a fact, and how it does. -/
theorem bound_of_decided? (decided : e.decided? v kind threshold = some (sign, reason)) :
    ∃ side b, e.bounds.get v side = some b ∧ b.reason = reason ∧
      ∀ x, side.admits b.value x = true → kind.admits (.ofRat threshold) x = sign := by
  rw [decided?] at decided
  split at decided
  · rename_i b found
    obtain ⟨rfl, rfl⟩ := Prod.mk.inj (Option.some.inj decided)
    obtain ⟨active, weaker⟩ := Option.filter_eq_some_iff.1 found
    rw [Bool.not_eq_true', BoundKind.tighter_eq_false_iff] at weaker
    exact ⟨kind, b, active, rfl, fun x admits => BoundKind.admits_trans weaker admits⟩
  · rename_i b _ found
    obtain ⟨rfl, rfl⟩ := Prod.mk.inj (Option.some.inj decided)
    obtain ⟨active, beyond⟩ := Option.filter_eq_some_iff.1 found
    refine ⟨kind.opposite, b, active, rfl, fun x admits => Bool.eq_false_iff.2 fun fact => ?_⟩
    refine BoundKind.not_admits_of_crossing beyond admits ?_
    rwa [BoundKind.opposite_opposite]
  · cases decided

/-- The reason of a decided fact is in force, and every solution that makes it true decides the fact in
the same way, as far as the values can be relied on. -/
theorem sound_of_decided? (inv : e.Founded h)
    (decided : e.decided? v kind threshold = some (sign, reason)) :
    e.Grounded h reason ∧ (e.Reliable → ∀ α, e.Solves α → e.Believes α reason →
      kind.admits (.ofRat threshold) (.ofRat (α v)) = sign) := by
  obtain ⟨side, b, active, rfl, decides⟩ := bound_of_decided? decided
  obtain ⟨record, var_eq, kind_eq⟩ := inv.formed.bounds.active active
  have supported := inv.justified.supported b record
  refine ⟨supported.grounded, fun reliable α solves believes => decides _ ?_⟩
  have holds : b.kind.admits b.value (.ofRat (α b.var)) = true :=
    supported.entails reliable α solves believes
  rwa [var_eq, kind_eq] at holds

/-- The literal that is handed out for an atom is entailed. -/
theorem announces_handOut (inv : e.Founded h) {a : AtomId} {atom : Atom}
    (found : e.atoms.get? a = some atom)
    (decided : e.decided? atom.var atom.kind atom.threshold = some (sign, reason)) :
    e.Announces h ⟨.ofSign a sign, e.dependencies.linearize reason⟩ := by
  obtain ⟨grounded, decides⟩ := sound_of_decided? inv decided
  refine inv.announces ⟨atom, found⟩ grounded fun reliable α solves believes other found' => ?_
  obtain rfl := Option.some.inj (found.symm.trans found')
  rw [Atom.means_iff_admits, decides reliable α solves believes]
  exact (Bool.not_not sign).symm

/-! ## Through the steps of the engine -/

theorem ValuesOnly.propagations (only : ValuesOnly e next) : next.propagations = e.propagations := by
  rw [only.toState]

theorem propagations_normalizeRow (e : Engine) (r : RowId) :
    (e.normalizeRow r).propagations = e.propagations := by
  obtain ⟨mid, becomes, only⟩ := valuesOnly_normalizeRow e r
  rw [only.propagations, becomes.toState]

/-- Steps other than handing out a literal leave the queue of literals alone. -/
theorem Step.propagations (step : Step h e next) : next.propagations = e.propagations ∨
    ∃ a atom sign reason, e.atoms.get? a = some atom ∧
      e.decided? atom.var atom.kind atom.threshold = some (sign, reason) ∧
      next.propagations = e.propagations ++
        [⟨.ofSign a sign, e.dependencies.linearize reason⟩] := by
  cases step with
  | quiet becomes => exact .inl (by rw [becomes.toState])
  | depend arena nodes closed becomes => exact .inl (by rw [becomes.toState])
  | verdict status before feasible becomes => exact .inl (by rw [becomes.toState])
  | touch touched becomes => exact .inl (by rw [becomes.toState])
  | handOut a atom sign reason found decided becomes =>
    exact .inr ⟨a, atom, sign, reason, found, decided, by rw [becomes.toState]⟩
  | report pair report becomes => exact .inl (by rw [becomes.toState])
  | note v kind becomes => exact .inl (by rw [becomes.toState])
  | tighten b store touched mid ok done becomes moved =>
    exact .inl (by rw [moved, (valuesOnly_respectBound _ _ _ _).propagations, becomes.toState])
  | move v delta lt free admits moved =>
    exact .inl (by rw [moved, (valuesOnly_updateValue _ _ _).propagations])
  | normalize r moved => exact .inl (by rw [moved, propagations_normalizeRow])
  | relax vs dropped becomes => exact .inl (by rw [becomes.toState])
  | exchange violation rest row entering _ first found occurs moved =>
    refine .inl ?_
    rw [moved, pivotAndUpdate_toState]
    exact (valuesOnly_updateValue _ _ _).propagations
  | dequeue l atoms taken becomes => exact .inl (by rw [becomes.toState])
  | intern v kind threshold lt becomes => exact .inl (by rw [becomes.toState])
  | define sort form mid var_lt integral becomes moved =>
    exact .inl (by rw [moved, propagations_normalizeRow, becomes.toState]; rfl)

/-- What waits to be handed out stays right. -/
theorem Step.announced (step : Step h e next) (inv : e.Invariant h)
    (announced : ∀ p ∈ e.propagations, e.Announces h p) :
    ∀ p ∈ next.propagations, next.Announces h p := by
  have later {p : Propagation} (announces : e.Announces h p) : next.Announces h p :=
    (step.keeps inv).grows.announces (fun _ member => member) announces
  rcases step.propagations with same | ⟨a, atom, sign, reason, found, decided, added⟩
  · rw [same]
    exact fun p member => later (announced p member)
  · rw [added]
    intro p member
    rcases List.mem_append.1 member with earlier | latest
    · exact later (announced p earlier)
    · rw [List.mem_singleton.1 latest]
      exact later (announces_handOut inv.founded found decided)

theorem Steps.announced (steps : Steps h e next) (inv : e.Invariant h)
    (announced : ∀ p ∈ e.propagations, e.Announces h p) :
    ∀ p ∈ next.propagations, next.Announces h p := by
  induction steps with
  | refl => exact announced
  | tail before step ih => exact step.announced (Steps.invariant before inv) ih

theorem Fails.announced (fails : Fails h e next)
    (announced : ∀ p ∈ e.propagations, e.Announces h p) :
    ∀ p ∈ next.propagations, next.Announces h p := by
  have same : next.propagations = e.propagations := by
    cases fails with
    | again before becomes => rw [becomes.toState]
    | conflict d before blames becomes => rw [becomes.toState]
  rw [same]
  exact fun p member => fails.keeps.grows.announces (fun _ member => member) (announced p member)

theorem Answers.announced {result : Engine × Bool} (answers : Answers h e result)
    (inv : e.Invariant h) (announced : ∀ p ∈ e.propagations, e.Announces h p) :
    ∀ p ∈ result.1.propagations, result.1.Announces h p := by
  cases answers with
  | yes steps => exact steps.announced inv announced
  | gaveUp steps => exact steps.announced inv announced
  | conflict steps fails => exact fails.announced (steps.announced inv announced)

end Engine

end ArithDecide
