import ArithDecide.Proofs.Models
import ArithDecide.Proofs.Posing

/-!
# Verdicts are sound

When a check answers "satisfiable" the rational model satisfies everything that is in force. A conflict
is explained by literals and equalities that are in force, or by a literal and its negation, and no
solution makes all of them true; both are said of the state before the check too, since a check adds
nothing that a solution could not be extended to.
-/

namespace ArithDecide

/-- The assignment that a list of values gives: zero where the list ends. -/
def assignmentOf (values : List Rat) : Var → Rat := fun v => (values[v]?).getD 0

namespace Engine

open State

variable {e next : Engine} {h k : History} {α : Var → Rat} {x : Explanation}

/-! ## Propagating and checking -/

theorem Ready.propagate (ready : e.Ready h) : Evolves e e.propagate.1 h :=
  ready.answered (answers_propagate ready.invariant)
    (standing_propagate ready.invariant ready.standing).1

theorem Ready.check (ready : e.Ready h) : Evolves e e.check.1 h :=
  have checks := checks_check ready.invariant
  ready.answered checks.answers (checks.standing ready.standing).1

namespace State

variable {s t : State}

/-! ## Models -/

/-- The assignment satisfies everything in force, the active bounds with a rational in place of the
infinitesimal. -/
structure Models (s : State) (h : History) (t : Rat) (α : Var → Rat) : Prop where
  rows : s.tableau.Holds α
  lower : ∀ v b, s.bounds.get v .lower = some b → b.value.evaluate t ≤ α v
  upper : ∀ v b, s.bounds.get v .upper = some b → α v ≤ b.value.evaluate t
  equalities : ∀ p ∈ h.equated, p.Holds α
  integral : ∀ v, s.isInt v = true → ∃ n : Int, α v = n
  monomials : ∀ m ∈ s.monomials, m.Holds α

/-- The assignment makes a literal of a known atom true. -/
def Confirms (s : State) (α : Var → Rat) (l : Literal) : Prop :=
  ∃ atom, s.atoms.get? l.atom = some atom ∧ atom.Means l.negative (α atom.var)

/-- The assignment is a solution that makes everything true that was asserted. -/
structure Meets (s : State) (h : History) (α : Var → Rat) : Prop where
  solves : s.Solves α
  literals : ∀ l, l ∈ h.asserted ∨ l ∈ h.rejected → s.Confirms α l
  equalities : ∀ p ∈ h.equated, p.Holds α

theorem Confirms.holds {l : Literal} (confirms : s.Confirms α l) : s.LiteralHolds α l := by
  obtain ⟨atom, found, means⟩ := confirms
  intro other found'
  obtain rfl := Option.some.inj (found.symm.trans found')
  exact means

/-- An assignment that meets what a later state says meets what was said before. -/
theorem Meets.before (meets : t.Meets k α) (inv : s.Founded h) (grows : s.Grows t)
    (none_rejected : h.rejected = []) (asserted : ∀ l ∈ h.asserted, l ∈ k.asserted)
    (equated : ∀ p ∈ h.equated, p ∈ k.equated) : s.Meets h α where
  solves := grows.solves α meets.solves
  literals l stated := by
    rw [none_rejected, List.mem_nil_iff, or_false] at stated
    obtain ⟨atom, found, -⟩ :=
      inv.registered.assigned l ((inv.registered.asserted l).2 stated)
    have holds := grows.literalHolds (meets.literals l (.inl (asserted l stated))).holds
    exact ⟨atom, found, holds atom found⟩
  equalities p member := meets.equalities p (equated p member)

end State

/-- The variables of a pair that is in force have the same value. -/
theorem equal_valuesAt {p : VarPair} (honors : e.HonorsPair p) (feasible : e.Feasible) (t : Rat) :
    p.Holds (e.valuesAt t) := by
  rcases honors with same | ⟨d, lt, equal, fixed⟩
  · exact congrArg (e.valuesAt t) same
  · have within {kind : BoundKind} : kind.admits 0 (e.stored d) = true := by
      obtain ⟨active, found, covers⟩ := fixed kind
      exact BoundKind.admits_trans covers
        (BoundStore.admits_iff.1 (feasible.admits d lt) _ _ found)
    have zero : e.stored d = 0 :=
      le_antisymm (BoundKind.admits_upper.1 within) (BoundKind.admits_lower.1 within)
    refine equal _ (rows_valuesAt feasible t) ?_
    rw [valuesAt, zero, InfRat.evaluate_zero]

/-- The rational model gives the stored values, with a rational in place of the infinitesimal. -/
theorem assignmentOf_model (formed : e.Formed) (feasible : e.Feasible) :
    assignmentOf e.model = e.valuesAt e.epsilon := by
  funext v
  rw [assignmentOf, model, List.getElem?_map, vars, valuesAt]
  by_cases lt : v < e.numVars
  · rw [List.getElem?_range lt, Option.map_some, Option.getD_some, feasible.value]
  · have absent : e.values[v]? = none :=
      Array.getElem?_eq_none (formed.values_size ▸ Nat.not_lt.1 lt)
    rw [List.getElem?_eq_none (by simpa using lt), stored, absent]
    exact (InfRat.evaluate_zero _).symm

/-- The rational model of an assignment that satisfies everything in force. -/
theorem models_model (ready : e.Ready h) (satisfied : e.Satisfied) (calm : e.isInfeasible = false) :
    e.Models h e.epsilon (assignmentOf e.model) := by
  have inv := ready.invariant
  have feasible := satisfied.feasible
  rw [assignmentOf_model inv.founded.formed feasible]
  refine
    { rows := rows_valuesAt feasible _
      lower := fun v b found => ?_
      upper := fun v b found => ?_
      equalities := fun p member => equal_valuesAt (ready.standing.pairs calm p member) feasible _
      integral := fun v integer => ?_
      monomials := fun m member => ?_ }
  · have within := evaluate_active feasible inv found
    rwa [BoundKind.turn, BoundKind.turn] at within
  · have within := evaluate_active feasible inv found
    rwa [BoundKind.turn, BoundKind.turn, InfRat.evaluate_neg, InfRat.evaluate_neg,
      neg_le_neg_iff] at within
  · obtain ⟨n, value⟩ := InfRat.isInteger_iff.1 (satisfied.integral v integer)
    exact ⟨n, by rw [valuesAt, value, InfRat.evaluate_ofRat]⟩
  · have agrees : e.monomialHolds e.epsilon m = true := by
      by_contra wrong
      have among : m ∈ e.wrongMonomials := List.mem_filter.2 ⟨member, by simp [wrong]⟩
      rw [satisfied.products] at among
      cases among
    rw [monomialHolds, decide_eq_true_eq, ← List.prod_eq_foldl] at agrees
    simp only [feasible.value] at agrees
    exact agrees

/-- When all unconditional bounds point the right way, the rational model satisfies them and makes the
asserted literals true. -/
theorem meets_model (ready : e.Ready h) (satisfied : e.Satisfied) (calm : e.isInfeasible = false)
    (drained : e.atoms.queued = []) (coherent : ∀ g ∈ e.given, g.Coherent) :
    e.Meets h (assignmentOf e.model) := by
  have models := models_model ready satisfied calm
  have inv := ready.invariant
  rw [assignmentOf_model inv.founded.formed satisfied.feasible] at models ⊢
  refine ⟨⟨models.integral, models.rows, models.monomials, fun g member => ?_⟩, fun l stated => ?_,
    models.equalities⟩
  · have covered : e.Covered ⟨g.var, g.kind, g.value, none, .given⟩ :=
      ⟨coherent g member, ready.standing.given calm g member⟩
    exact covered.holds inv satisfied.feasible coherent
  · rw [ready.standing.rejected calm, List.mem_nil_iff, or_false] at stated
    have asserted := (inv.founded.registered.asserted l).2 stated
    obtain ⟨atom, found, covers⟩ := ready.standing.honors calm drained asserted
    have covered : e.Covered
        ⟨atom.var, (atom.bound l.negative).1, (atom.bound l.negative).2, none, .derived⟩ :=
      ⟨coherent_bound atom l.negative, covers⟩
    exact ⟨atom, found, (atom.admits_bound_iff _ _).1
      (covered.holds inv satisfied.feasible coherent)⟩

/-! ## Conflicts -/

namespace State

variable {s t : State}

/-- No solution makes all of the explanation true. -/
def Excludes (s : State) (x : Explanation) : Prop :=
  ∀ α, s.Solves α → (∀ l ∈ x.literals, s.LiteralHolds α l) → (∀ p ∈ x.equalities, p.Holds α) → False

/-- What a conflict rests on is in force, or it is a literal and its negation, of which the one was
rejected because of the other; and no solution makes all of it true. -/
structure RefutedBy (s : State) (h : History) (x : Explanation) : Prop where
  literals : (∀ l ∈ x.literals, l ∈ h.asserted) ∨ ∃ l ∈ h.rejected, l.negate ∈ h.asserted ∧
    (∀ m, m ∈ x.literals ↔ m = l ∨ m = l.negate) ∧ x.equalities = []
  equalities : ∀ p ∈ x.equalities, p ∈ h.equated
  known : ∀ l ∈ x.literals, ∃ atom, s.atoms.get? l.atom = some atom
  refutes : s.Excludes x

/-- An explanation that consists of a literal and its negation. -/
theorem linearize_clash {d : Dependency} {l : Literal} (closed : s.dependencies.Closed)
    (leaves : ∀ L Q, s.dependencies.AllLeaves L Q d ↔ L l ∧ L l.negate) :
    (∀ m, m ∈ (s.dependencies.linearize d).literals ↔ m = l ∨ m = l.negate) ∧
      (s.dependencies.linearize d).equalities = [] := by
  have only := (DependencyArena.allLeaves_iff_linearize closed d).1
    ((leaves (fun m => m = l ∨ m = l.negate) fun _ => False).2 ⟨.inl rfl, .inr rfl⟩)
  have both := (leaves (· ∈ (s.dependencies.linearize d).literals) fun _ => True).1
    ((DependencyArena.allLeaves_iff_linearize closed d).2 ⟨fun _ => id, fun _ _ => trivial⟩)
  refine ⟨fun m => ⟨only.1 m, ?_⟩, List.eq_nil_iff_forall_not_mem.2 only.2⟩
  rintro (rfl | rfl)
  · exact both.1
  · exact both.2

/-- A recorded conflict is explained. -/
theorem refutedBy_conflict (inv : s.Founded h) (reliable : s.Reliable)
    (found : s.conflict = some x) : s.RefutedBy h x := by
  rw [conflict] at found
  split at found
  · rename_i d failed
    obtain rfl := Option.some.inj found
    have closed := inv.formed.closed
    have blames := inv.blamed d failed
    have refutes : s.Excludes (s.dependencies.linearize d) := fun α solves literals equalities =>
      blames.refutes reliable α solves
        ((DependencyArena.allLeaves_iff_linearize closed d).2 ⟨literals, equalities⟩)
    rcases blames.justified with ⟨grounded, -⟩ | ⟨l, rejected, opposed, known, leaves⟩
    · obtain ⟨literals, equalities⟩ :=
        (DependencyArena.allLeaves_iff_linearize closed d).1 grounded
      refine ⟨.inl fun l member => (inv.registered.asserted l).1 (literals l member), equalities,
        fun l member => ?_, refutes⟩
      obtain ⟨atom, at_l, -⟩ := inv.registered.assigned l (literals l member)
      exact ⟨atom, at_l⟩
    · obtain ⟨members, none_equal⟩ := linearize_clash closed leaves
      refine ⟨.inr ⟨l, rejected, (inv.registered.asserted _).1 opposed, members, none_equal⟩, ?_,
        fun m member => ?_, refutes⟩
      · rw [none_equal]
        nofun
      · rcases (members m).1 member with rfl | rfl
        · exact known
        · exact known
  · cases found

/-- What no solution of a later state makes true, no solution makes true before, if those of before
extend to later ones. -/
theorem Excludes.before (excludes : t.Excludes x) (keeps : s.Keeps t)
    (literals : ∀ l ∈ x.literals, ∃ atom, s.atoms.get? l.atom = some atom ∧ atom.var < s.numVars)
    (equalities : ∀ p ∈ x.equalities, p.left < s.numVars ∧ p.right < s.numVars) :
    s.Excludes x := by
  intro α solves holds equal
  obtain ⟨β, solves', same⟩ := keeps.solvable α solves
  refine excludes β solves' (fun l member => ?_) fun p member => ?_
  · obtain ⟨atom, found, lt⟩ := literals l member
    refine (keeps.grows.literalHolds_iff found).2 fun other found' => ?_
    obtain rfl := Option.some.inj (found.symm.trans found')
    rw [same _ lt]
    exact holds l member atom found
  · obtain ⟨left_lt, right_lt⟩ := equalities p member
    rw [VarPair.Holds, same _ left_lt, same _ right_lt]
    exact equal p member

/-- A conflict that a later state explains refutes the earlier one. -/
theorem RefutedBy.before (refuted : t.RefutedBy h x) (inv : s.Founded h) (keeps : s.Keeps t) :
    s.RefutedBy h x := by
  have known (l : Literal) (member : l ∈ x.literals) :
      ∃ atom, s.atoms.get? l.atom = some atom := by
    have accepted {m : Literal} (asserted : m ∈ h.asserted) :
        ∃ atom, s.atoms.get? m.atom = some atom := by
      obtain ⟨atom, found, -⟩ := inv.registered.assigned m ((inv.registered.asserted m).2 asserted)
      exact ⟨atom, found⟩
    rcases refuted.literals with all | ⟨m, -, opposed, members, -⟩
    · exact accepted (all l member)
    · have found := accepted opposed
      rcases (members l).1 member with rfl | rfl
      · exact found
      · exact found
  refine ⟨refuted.literals, refuted.equalities, known, refuted.refutes.before keeps
    (fun l member => ?_) fun p member => inv.registered.pair_lt p (refuted.equalities p member)⟩
  obtain ⟨atom, found⟩ := known l member
  exact ⟨atom, found, inv.registered.atom_lt _ _ found⟩

end State

/-- A conflict that an operation found refutes the state before it. -/
theorem Answers.refutedBy {result : Engine × Bool} (answers : Answers h e result)
    (inv : e.Invariant h) (reliable : e.Reliable) (found : result.1.conflict = some x) :
    e.RefutedBy h x :=
  have later := (answers.reliable_iff inv).2 reliable
  (refutedBy_conflict (answers.invariant inv).founded later found).before inv.founded
    (answers.keeps inv)

end Engine

end ArithDecide
