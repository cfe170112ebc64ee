import Mathlib
import ArithDecide.Proofs.Bases
import ArithDecide.Proofs.Sessions

/-!
# What the basis step derives

Every polynomial of a completed basis rests on active bounds: its reasons are those of these bounds, and
it is zero at every point that satisfies them, the rows and the definitions of the monomials. Nothing is
said of integers or of what was asserted, and the budget of the completion does not matter. So a nonzero
constant shows that its bounds contradict each other, and a bound that the step installs is implied by
the bounds of the polynomial that it comes from (`Session.basisStep_follows`).
-/

namespace ArithDecide

open Engine.State

namespace Engine

variable {e next last : Engine} {h : History} {p : Polynomial} {b : Bound} {v : Var}
  {kind : BoundKind} {reason : Dependency}

/-! ## Bounds from basis members -/

/-- Installing a value records the rounded bound of the given side, or nothing. -/
theorem mem_records_installValue {q : Rat}
    (member : b ∈ (installValue v q reason e kind).1.bounds.records) :
    b ∈ e.bounds.records ∨ b = ⟨v, kind, e.roundBound v kind (.ofRat q), reason, .derived⟩ := by
  rw [installValue] at member
  simp only at member
  split at member
  · generalize traced_eq : e.trace _ _ = traced at member
    have same : traced.toState = e.toState := by
      rw [← traced_eq]
      rfl
    have records : b ∈ (traced.installBound v kind (.ofRat q) reason .derived).1.bounds.records := by
      generalize traced.installBound v kind (.ofRat q) reason .derived = installed at member ⊢
      obtain ⟨next, ok⟩ := installed
      cases ok <;> exact member
    have found := mem_records_installBound records
    rwa [roundBound, same] at found
  · exact .inl member

/-- The bound is the value that the polynomial gives to a variable, rounded, and its reason joins those
of the polynomial. -/
structure Imparts (e : Engine) (p : Polynomial) (next : Engine) (b : Bound) : Prop where
  assigns : ∃ q, p.assignment? = some (b.var, q) ∧ b.value = e.roundBound b.var b.kind (.ofRat q)
  origin : b.origin = .derived
  names : next.dependencies.Names b.reason
  leaves : ∀ L Q, next.dependencies.AllLeaves L Q b.reason ↔
    ∀ node ∈ p.reasons, e.dependencies.AllLeaves L Q (some node)

theorem Imparts.later (imparts : Imparts e p next b) (closed : next.dependencies.Closed)
    (nodes : next.dependencies.Extends last.dependencies) : Imparts e p last b where
  assigns := imparts.assigns
  origin := imparts.origin
  names := nodes.names imparts.names
  leaves L Q := (DependencyArena.allLeaves_extends closed nodes imparts.names).trans
    (imparts.leaves L Q)

/-- All bounds are old or come from members of the basis. -/
def Imparted (e : Engine) (basis : List Polynomial) (next : Engine) : Prop :=
  ∀ b ∈ next.bounds.records, b ∈ e.bounds.records ∨ ∃ p ∈ basis, Imparts e p next b

/-- The bounds installed for one member come from it. -/
theorem mem_records_installAssignment (inv : next.Invariant h) (derived : Derived h next p)
    (member : b ∈ (next.installAssignment p).1.bounds.records) :
    b ∈ next.bounds.records ∨ Imparts next p (next.installAssignment p).1 b := by
  rw [installAssignment] at member ⊢
  split at member
  · exact .inl member
  · rename_i v q found
    have j := derived.derives.joined inv
    have joined_inv := j.steps.invariant inv
    have lt := (Polynomial.eq_of_assignment? derived.within found).1
    generalize next.joinReasons (p.reasons.map some) = result at j member joined_inv ⊢
    obtain ⟨joined, reason⟩ := result
    have same_records : joined.bounds.records = next.bounds.records := by
      rw [j.becomes.toState]
    have refines (now : Engine) (steps : Steps h joined now) (kind : BoundKind) :=
      refines_installSolved inv derived found j steps kind
    have all : ∀ b ∈ (refineEach (installValue v q reason) [.lower, .upper] joined).1.bounds.records,
        b ∈ next.bounds.records ∨
          ∃ kind, b = ⟨v, kind, next.roundBound v kind (.ofRat q), reason, .derived⟩ :=
      refineEach_induction (M := fun now => ∀ b ∈ now.bounds.records, b ∈ next.bounds.records ∨
          ∃ kind, b = ⟨v, kind, next.roundBound v kind (.ofRat q), reason, .derived⟩)
        (fun now steps kind _ => refines now steps kind) ?_ ?_
    · rcases all b member with old | ⟨kind, rfl⟩
      · exact .inl old
      · have each : Refines h joined
            (refineEach (installValue v q reason) [.lower, .upper] joined) :=
          refines_each fun now steps kind _ => refines now steps kind
        have keeps := each.answers.keeps joined_inv
        have imparts : Imparts next p joined
            ⟨v, kind, next.roundBound v kind (.ofRat q), reason, .derived⟩ :=
          { assigns := ⟨q, found, rfl⟩
            origin := rfl
            names := j.names
            leaves := fun L Q => (j.leaves L Q).trans List.forall_mem_map }
        exact .inr (imparts.later joined_inv.founded.formed.closed keeps.grows.nodes)
    · intro now steps kind _ so_far b member
      rcases mem_records_installValue member with old | rfl
      · exact so_far b old
      · refine .inr ⟨kind, ?_⟩
        have joined_lt : v < joined.numVars := by
          rw [j.becomes.toState]
          exact lt
        have same_sort : now.isInt v = next.isInt v := by
          rw [(steps.keeps joined_inv).isInt v joined_lt, j.becomes.toState]
          rfl
        rw [roundBound, roundBound, same_sort]
    · intro b member
      exact .inl (same_records ▸ member)

/-- Installing the values that all members give to variables. -/
theorem imparted_refineEach (inv : e.Invariant h) {basis : List Polynomial}
    (derived : ∀ p ∈ basis, Derived h e p) :
    Imparted e basis (refineEach installAssignment basis e).1 := by
  refine refineEach_induction (h := h) (fun now steps p member => ?_)
    (fun now steps p member so_far => ?_) fun b member => .inl member
  · exact refines_installAssignment (steps.invariant inv) ((derived p member).later inv steps)
  · intro b at_b
    have now_inv := steps.invariant inv
    have here := (derived p member).later inv steps
    have nodes := ((refines_installAssignment now_inv here).answers.keeps now_inv).grows.nodes
    have closed := now_inv.founded.formed.closed
    rcases mem_records_installAssignment now_inv here at_b with old | new
    · rcases so_far b old with before | ⟨q, at_q, imparts⟩
      · exact .inl before
      · exact .inr ⟨q, at_q, imparts.later closed nodes⟩
    · refine .inr ⟨p, member, ?_⟩
      obtain ⟨q, found, value_eq⟩ := new.assigns
      have lt := (Polynomial.eq_of_assignment? (derived p member).within found).1
      have keeps := steps.keeps inv
      refine ⟨⟨q, found, ?_⟩, new.origin, new.names, fun L Q => (new.leaves L Q).trans ?_⟩
      · rw [value_eq, roundBound, roundBound, keeps.isInt _ lt]
      · refine forall₂_congr fun node at_node => ?_
        exact DependencyArena.allLeaves_extends inv.founded.formed.closed keeps.grows.nodes
          ((derived p member).derives.names _ (List.mem_map_of_mem at_node))

/-! ## The main statement -/

/-- Where the polynomial is zero, the variable has the value that it gives, and the rounded value is a
bound unless the variable is an integer variable with another value. -/
theorem holds_of_imparts (imparts : Imparts e p next b) (within : p.Within e.numVars)
    {α : Var → Rat} (zero : p.eval α = 0) :
    p.assignment? = some (b.var, α b.var) ∧
      ((e.isInt b.var = true → ∃ n : Int, α b.var = n) → b.Holds α) := by
  obtain ⟨q, found, value_eq⟩ := imparts.assigns
  have value := (Polynomial.eq_of_assignment? within found).2 α zero
  refine ⟨value ▸ found, fun integral => ?_⟩
  rw [Bound.Holds, Bound.Admits, value_eq, admits_roundBound integral, value]
  exact BoundKind.admits_refl _ _

/-- Counting the step leaves the polynomials as they are. -/
theorem basisInput_count (e : Engine) (f : Statistics → Statistics) :
    (e.count f).basisInput = e.basisInput := rfl

theorem basisStep_of_refutation
    (found : (Completion.complete e.options.maxBasisSteps e.basisInput).refutation = some p) :
    e.basisStep.2 = .conflict ∧ (e.isInfeasible = false →
      e.basisStep.1.status = .infeasible (e.joinReasons (p.reasons.map some)).2) := by
  refine ⟨?_, fun calm => ?_⟩
  · simp only [basisStep, basisInput_count, found]
  · simp only [basisStep, basisInput_count, found]
    exact status_setConflict calm

/-- All bounds that the basis step records come from members of the completed basis. -/
theorem imparted_basisStep (inv : e.Invariant h) : Imparted e
    (Completion.complete e.options.maxBasisSteps e.basisInput).basis e.basisStep.1 := by
  have all := Completion.allSound_complete (sound_basisInput inv) e.options.maxBasisSteps
  rw [basisStep]
  simp only [basisInput_count]
  split
  · intro b member
    rw [bounds_setConflict] at member
    exact .inl member
  · have becomes : e.Becomes e.toState
        (e.count fun s => { s with basisSteps := s.basisSteps + 1 }) := ⟨rfl, rfl⟩
    have here := imparted_refineEach (becomes.steps.invariant inv) fun p member =>
      ((all.basis p member).derived inv).later inv becomes.steps
    intro b member
    -- the counter changes nothing that the bounds and reasons are read from
    rcases here b member with old | new
    · exact .inl old
    · obtain ⟨p, at_p, imparts⟩ := new
      exact .inr ⟨p, at_p, imparts.assigns, imparts.origin, imparts.names, imparts.leaves⟩

/-- What the basis step derives from the bounds on which it rests. -/
structure Follows (e : Engine) : Prop where
  members : ∀ budget, ∀ p ∈ (Completion.complete budget e.basisInput).basis,
    ∃ uses, e.RestsOn p.reasons uses ∧ e.Forces uses fun α => p.eval α = 0
  refuted : ∀ p, (Completion.complete e.options.maxBasisSteps e.basisInput).refutation = some p →
    (e.basisStep.2 = .conflict ∧ (e.isInfeasible = false →
      e.basisStep.1.status = .infeasible (e.joinReasons (p.reasons.map some)).2)) ∧
    ∃ uses, e.RestsOn p.reasons uses ∧ e.Forces uses fun _ => False
  installed : ∀ b ∈ e.basisStep.1.bounds.records, b ∈ e.bounds.records ∨
    ∃ p ∈ (Completion.complete e.options.maxBasisSteps e.basisInput).basis,
      Imparts e p e.basisStep.1 b ∧ ∃ uses, e.RestsOn p.reasons uses ∧ e.Forces uses fun α =>
        p.assignment? = some (b.var, α b.var) ∧
          ((e.isInt b.var = true → ∃ n : Int, α b.var = n) → b.Holds α)

theorem follows_of_invariant (inv : e.Invariant h) : e.Follows := by
  have all (budget : Nat) := Completion.allSound_complete (sound_basisInput inv) budget
  refine ⟨fun budget p member => ((all budget).basis p member).vanishes, fun p found => ?_,
    fun b member => (imparted_basisStep inv b member).imp_right ?_⟩
  · obtain ⟨sound, constant⟩ := (all _).refutation p found
    obtain ⟨uses, rests, zero⟩ := sound.vanishes
    refine ⟨basisStep_of_refutation found, uses, rests, fun α rows monomials respects => ?_⟩
    exact Polynomial.eval_ne_zero sound.within constant α (zero α rows monomials respects)
  · rintro ⟨p, at_p, imparts⟩
    have sound := (all _).basis p at_p
    obtain ⟨uses, rests, zero⟩ := sound.vanishes
    refine ⟨p, at_p, imparts, uses, rests, fun α rows monomials respects => ?_⟩
    exact holds_of_imparts imparts sound.within (zero α rows monomials respects)

end Engine

namespace Session

open Engine

/-- In every state that a session passes through, whatever the budget: each member of the completed basis
is zero wherever the rows, the monomials and the bounds behind its reasons hold; a nonzero constant is a
conflict of the bounds behind its reasons; and each new bound comes from a member, the bounds behind whose
reasons imply the value, and so the bound, rounded for an integer. -/
theorem basisStep_follows (options : Options) (calls : List Call) {e : Engine} :
    let s := (start options).run calls
    Steps s.history s.engine e → e.Follows := by
  intro s reached
  exact follows_of_invariant (reached.invariant (ready_run options calls).invariant)

/-- A product with a factor that is zero, and its sum with the other factor, which is four. -/
def annihilated : List Call :=
  [.mkVar .real .internal, .mkVar .real .internal, .mkMonomial [0, 1],
    .mkLinear .real .internal [(2, 1), (1, 1)], .assertEq 0 0, .assertEq 3 4, .propagate]

/-- The product vanishes by the first equation, and then the other factor is fixed by both. -/
theorem basis_annihilated :
    let e := ((start {}).run annihilated).engine
    (Completion.complete e.options.maxBasisSteps e.basisInput).basis =
      [⟨[([2], 1)], [0, 1]⟩, ⟨[([1], -1), ([], 4)], [0, 1, 2, 3]⟩] := by
  cbv

theorem records_annihilated :
    let e := ((start {}).run annihilated).engine
    e.isInt 1 = false ∧ e.bounds.records.all (fun b => b.var ≠ 1) = true ∧
      e.basisStep.1.bounds.records.back? = some ⟨1, .upper, .ofRat 4, some 7, .derived⟩ := by
  refine ⟨by cbv, by cbv, by cbv⟩

/-- The last bound on the other factor rests on the bounds of both equations, also on those of the factor
that makes the product vanish. -/
theorem basisStep_follows_annihilated :
    let e := ((start {}).run annihilated).engine
    ∃ b ∈ e.basisStep.1.bounds.records, b = ⟨1, .upper, .ofRat 4, some 7, .derived⟩ ∧
      ∃ uses, e.RestsOn [0, 1, 2, 3] uses ∧ e.Forces uses fun α => b.Holds α := by
  intro e
  obtain ⟨real, others, last⟩ := records_annihilated
  have new := Array.mem_of_back? last
  have follows : e.Follows := basisStep_follows {} annihilated .refl
  refine ⟨_, new, rfl, ?_⟩
  rcases follows.installed _ new with old | ⟨p, member, imparts, uses, rests, forces⟩
  · exact absurd rfl (of_decide_eq_true (Array.all_eq_true_iff_forall_mem.1 others _ old))
  · obtain ⟨q, assigns, -⟩ := imparts.assigns
    rcases List.mem_pair.1 (basis_annihilated ▸ member) with rfl | rfl
    · cases assigns
    · refine ⟨uses, rests, fun α rows monomials respects => ?_⟩
      have holds := (forces α rows monomials respects).2
      exact holds fun is_int => absurd (real.symm.trans is_int) (by decide)

end Session

end ArithDecide
