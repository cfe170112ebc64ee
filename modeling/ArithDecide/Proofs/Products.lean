import ArithDecide.Nonlinear.Check
import ArithDecide.Proofs.Bases
import ArithDecide.Proofs.Moving
import ArithDecide.Proofs.NestedForms

/-!
# Nonlinear reasoning is sound

Moving a monomial onto the product of its factors keeps the assignment feasible, and integral: the
factors of an integer monomial are integers. When nonlinear reasoning finds every monomial to agree with
its factors it has made such moves only.
-/

namespace ArithDecide

/-- Whether nonlinear reasoning ran into no conflict. -/
def NonlinearOutcome.goesOn : NonlinearOutcome → Bool
  | .conflict => false
  | _ => true

namespace Engine

open State

variable {e next : Engine} {h : History} {m : Monomial} {pass : NonlinearPass}

/-! ## Moving monomials -/

theorem exists_int_prod {values : List Rat} (integral : ∀ q ∈ values, ∃ n : Int, q = n) :
    ∃ n : Int, values.prod = n := by
  induction values with
  | nil => exact ⟨1, by simp⟩
  | cons q rest ih =>
    obtain ⟨⟨n, rfl⟩, others⟩ := List.forall_mem_cons.1 integral
    obtain ⟨k, same⟩ := ih others
    exact ⟨n * k, by rw [List.prod_cons, same]; push_cast; rfl⟩

/-- The product of integral factors is integral. -/
theorem isInteger_factorProduct {product : Rat}
    (factors : ∀ v ∈ m.factors, (e.value v).isInteger = true)
    (found : e.factorProduct? m = some product) : (InfRat.ofRat product).isInteger = true := by
  rw [factorProduct?, Option.ite_none_right_eq_some] at found
  obtain ⟨-, found⟩ := found
  obtain rfl := Option.some.inj found
  rw [InfRat.isInteger_iff, ← List.prod_eq_foldl]
  have values : ∀ q ∈ m.factors.map fun v => (e.value v).real, ∃ n : Int, q = n := by
    intro q at_q
    obtain ⟨v, at_v, rfl⟩ := List.mem_map.1 at_q
    obtain ⟨n, same⟩ := InfRat.isInteger_iff.1 (factors v at_v)
    exact ⟨n, by rw [same]; rfl⟩
  obtain ⟨n, same⟩ := exists_int_prod values
  exact ⟨n, by rw [same]⟩

theorem admitsMove_congr (same : next.toState = e.toState) (v : Var) (target delta : InfRat) :
    next.admitsMove v target delta = e.admitsMove v target delta := by
  have rows : next.rowAdmitsMove v delta = e.rowAdmitsMove v delta := by
    funext row
    simp only [rowAdmitsMove, same]
  simp only [admitsMove, same, rows]

/-- A repair changes nothing, or moves the monomial harmlessly onto the product of its factors. -/
theorem repairMonomial_cases (e : Engine) (m : Monomial) :
    e.repairMonomial m = e ∨
      ∃ (traced : Engine) (product : Rat), e.Becomes e.toState traced ∧ e.kind m.var = .nonBase ∧
        e.factorProduct? m = some product ∧
        traced.admitsMove m.var (traced.stored m.var + (.ofRat product - e.stored m.var))
          (.ofRat product - e.stored m.var) = true ∧
        e.repairMonomial m = traced.updateValue m.var (.ofRat product - e.stored m.var) := by
  rw [repairMonomial]
  split
  · exact .inl rfl
  · rename_i product found
    obtain ⟨free, found⟩ := Option.ite_none_right_eq_some.1 found
    simp only
    split
    · rename_i harmless
      generalize traced_eq : e.trace _ _ = traced
      have becomes : e.Becomes e.toState traced := by
        rw [← traced_eq]
        exact ⟨rfl, rfl⟩
      refine .inr ⟨traced, product, becomes, free, found, ?_, rfl⟩
      rw [admitsMove_congr becomes.toState, becomes.toState, add_sub_cancel]
      exact harmless
    · exact .inl rfl

/-- Moving a monomial is harmless. -/
theorem moved_repairMonomial (inv : e.Invariant h) (member : m ∈ e.monomials) :
    Moved h e (e.repairMonomial m) ∧
      (e.Feasible → e.Integral → (e.repairMonomial m).Integral) := by
  obtain stays | ⟨traced, product, becomes, free, found, harmless, done⟩ := repairMonomial_cases e m
  · exact stays.symm ▸ ⟨.refl h e, fun _ => id⟩
  have same := becomes.toState
  have target : e.stored m.var + (.ofRat product - e.stored m.var) = .ofRat product :=
    add_sub_cancel _ _
  have formed : traced.Formed := same ▸ inv.founded.formed
  have lt : m.var < traced.numVars := same ▸ inv.founded.multiplied.var_lt m member
  have free' : traced.kind m.var = .nonBase := same ▸ free
  rw [done]
  refine ⟨((Moved.refl h e).quiet becomes).trans
    (moved_updateValue formed.toFitted lt free' harmless), fun feasible integral => ?_⟩
  refine integral_updateValue formed.toFitted lt free' (same ▸ feasible) harmless (same ▸ integral)
    fun integer => ?_
  rw [same] at integer ⊢
  rw [target]
  refine isInteger_factorProduct (fun v factor => ?_) found
  rw [feasible.value]
  exact integral v (inv.founded.multiplied.integral m member integer v factor)

theorem moved_foldl_repairMonomial {ms : List Monomial} (inv : e.Invariant h)
    (members : ∀ m ∈ ms, m ∈ e.monomials) :
    Moved h e (ms.foldl repairMonomial e) ∧
      (e.Feasible → e.Integral → (ms.foldl repairMonomial e).Integral) := by
  induction ms generalizing e with
  | nil => exact ⟨.refl h e, fun _ => id⟩
  | cons m rest ih =>
    obtain ⟨member, others⟩ := List.forall_mem_cons.1 members
    obtain ⟨first, integral'⟩ := moved_repairMonomial inv member
    have kept : (e.repairMonomial m).monomials = e.monomials := by rw [first.only.toState]
    obtain ⟨later, integral''⟩ := ih (first.steps.invariant inv) fun q at_q => kept ▸ others q at_q
    exact ⟨first.trans later, fun feasible integral =>
      integral'' (first.feasible feasible) (integral' feasible integral)⟩

/-- Repairing monomials makes harmless moves only. -/
theorem moved_repairMonomials (inv : e.Invariant h) :
    Moved h e e.repairMonomials.1 ∧
      (e.Feasible → e.Integral → e.repairMonomials.1.Integral) :=
  moved_foldl_repairMonomial inv fun _ member => (List.mem_filter.1 member).1

/-! ## The nonlinear check -/

/-- The assignment satisfies every constraint, up to infinitesimals in rows and bounds. -/
structure Satisfied (e : Engine) : Prop where
  feasible : e.Feasible
  integral : e.Integral
  products : e.wrongMonomials = []

theorem refines_intervalRound (inv : e.Invariant h) : Refines h e e.intervalRound := by
  rw [intervalRound]
  have nested := answers_checkNestedForms inv
  have same := toState_checkNestedForms (e := e)
  generalize e.checkNestedForms = result at nested same ⊢
  obtain ⟨next, ok⟩ := result
  cases ok with
  | false => exact .conflict nested
  | true =>
    have same : next.toState = e.toState := same rfl
    exact .after (nested.steps rfl) (by rw [same]) (refines_refineMonomials (same ▸ inv))

/-- What nonlinear reasoning does to an assignment, which it leaves feasible and integral. -/
structure Concludes (h : History) (e : Engine) (result : Engine × NonlinearPass × NonlinearOutcome) :
    Prop where
  answers : Answers h e (result.1, result.2.2.goesOn)
  satisfied : result.2.2 = .consistent → e.Feasible → e.Integral → result.1.Satisfied
  touched : result.2.2 = .consistent → result.1.touched = e.touched

theorem Concludes.after (steps : Steps h e next) (touched : next.touched = e.touched)
    (feasible : e.Feasible → e.Integral → next.Feasible ∧ next.Integral)
    {result : Engine × NonlinearPass × NonlinearOutcome} (concludes : Concludes h next result) :
    Concludes h e result :=
  ⟨concludes.answers.after steps, fun agrees feasible_e integral =>
      have both := feasible feasible_e integral
      concludes.satisfied agrees both.1 both.2,
    fun agrees => (concludes.touched agrees).trans touched⟩

/-- A round of refinement does not find the monomials to agree with their factors. -/
theorem Refines.concludes {outcome : NonlinearOutcome} {refinement : Refinement}
    (refines : Refines h e (next, refinement)) (goes_on : outcome.goesOn = refinement.goesOn)
    (wrong : outcome ≠ .consistent) : Concludes h e (next, pass, outcome) :=
  ⟨goes_on ▸ refines.answers, fun same => absurd same wrong, fun same => absurd same wrong⟩

theorem concludes_basisRound (inv : e.Invariant h) (pass : NonlinearPass) :
    Concludes h e (e.basisRound pass) := by
  rw [basisRound]
  split
  · have refines := refines_basisStep inv
    generalize e.basisStep = result at refines ⊢
    obtain ⟨next, outcome⟩ := result
    cases outcome with
    | conflict => exact refines.concludes rfl nofun
    | tightened => exact refines.concludes rfl nofun
    | unchanged => exact refines.concludes rfl nofun
  · exact ⟨.yes .refl, nofun, nofun⟩

/-- Repairing the products, and completing their polynomials where that fails, concludes soundly. -/
theorem concludes_repairOrComplete (inv : e.Invariant h) (pass : NonlinearPass) :
    Concludes h e (e.repairOrComplete pass) := by
  obtain ⟨moved, integral⟩ := moved_repairMonomials inv
  have agrees : e.repairMonomials.2 = true → e.repairMonomials.1.wrongMonomials = [] :=
    List.isEmpty_iff.1
  rw [repairOrComplete]
  generalize e.repairMonomials = result at moved integral agrees ⊢
  obtain ⟨next, ok⟩ := result
  cases ok with
  | true =>
    exact ⟨.yes moved.steps, fun _ feasible_e integral_e =>
      ⟨moved.feasible feasible_e, integral feasible_e integral_e, agrees rfl⟩, fun _ => moved.touched⟩
  | false =>
    exact .after moved.steps moved.touched
      (fun feasible_e integral_e => ⟨moved.feasible feasible_e, integral feasible_e integral_e⟩)
      (concludes_basisRound (moved.steps.invariant inv) pass)

/-- The nonlinear reasoning concludes soundly: it goes on only with bounds that follow, and refutes only
by their reasons. -/
theorem concludes_checkNonlinear (inv : e.Invariant h) (pass : NonlinearPass) :
    Concludes h e (e.checkNonlinear pass) := by
  rw [checkNonlinear]
  split
  · rename_i agrees
    exact ⟨.yes .refl, fun _ feasible integral => ⟨feasible, integral, List.isEmpty_iff.1 agrees⟩,
      fun _ => rfl⟩
  · split
    · have refines := refines_intervalRound inv
      simp only
      generalize e.intervalRound = result at refines ⊢
      obtain ⟨next, outcome⟩ := result
      cases outcome with
      | conflict => exact refines.concludes rfl nofun
      | tightened => exact refines.concludes rfl nofun
      | unchanged =>
        have steps : Steps h e next := refines.answers.steps rfl
        have same := refines.unchanged rfl
        refine .after steps (by rw [same]) (fun feasible integral => ?_)
          (concludes_repairOrComplete (steps.invariant inv) _)
        rw [same]
        exact ⟨⟨feasible.normalized, feasible.rows, feasible.admits⟩, integral⟩
    · exact concludes_repairOrComplete inv pass

end Engine

end ArithDecide
