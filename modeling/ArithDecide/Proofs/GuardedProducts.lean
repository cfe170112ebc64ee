import ArithDecide.Guarded.Products
import ArithDecide.Proofs.GuardedBounds
import ArithDecide.Proofs.Products

/-!
# Nonlinear reasoning never fails

Since active bounds do not cross, the interval of every variable has members, and so has the interval of
a product: when it excludes zero, no endpoint of it is a closed zero. The polynomials of a completion keep
coefficients other than zero and reasons that name nodes.
-/

namespace ArithDecide

/-! ## Members of intervals -/

namespace Endpoint

variable {kind : BoundKind} {q : Rat} {value : InfRat}

theorem limits_ofBound_of_lt (above : value.real < q) : (ofBound .lower value).Limits .lower q :=
  limits_ofBound (BoundKind.admits_lower.2 (.inl above))

theorem limits_ofBound_of_gt (below : q < value.real) : (ofBound .upper value).Limits .upper q :=
  limits_ofBound (BoundKind.admits_upper.2 (.inl below))

/-- A rational lies between two endpoints when the bounds that they stand for do not cross. -/
theorem exists_limits_of_le {lower upper : InfRat} (le : lower ≤ upper) :
    ∃ q, (ofBound .lower lower).Limits .lower q ∧ (ofBound .upper upper).Limits .upper q := by
  rcases (InfRat.le_def lower upper).1 le with less | ⟨same, eps_le⟩
  · obtain ⟨q, above, below⟩ := exists_between less
    exact ⟨q, limits_ofBound_of_lt above, limits_ofBound_of_gt below⟩
  · rcases lt_trichotomy lower.eps 0 with negative | zero | positive
    · -- Only the upper endpoint is finite.
      refine ⟨upper.real - 1, ?_, limits_ofBound_of_gt (by linarith)⟩
      simp [ofBound, negative.ne, negative.not_gt, Limits]
    · refine ⟨lower.real, by simp [ofBound, zero, Limits], ?_⟩
      rw [zero] at eps_le
      rcases eps_le.eq_or_lt with zero' | positive
      · simp [ofBound, ← zero', same, Limits]
      · simp [ofBound, positive.ne', positive.not_gt, Limits]
    · -- Only the lower endpoint is finite.
      have positive' := positive.trans_le eps_le
      refine ⟨lower.real + 1, limits_ofBound_of_lt (by linarith), ?_⟩
      simp [ofBound, positive'.ne', positive'.not_gt, Limits]

end Endpoint

/-- Inverting an interval with a member does not fail: an end that is divided by is not zero. -/
theorem Interval.guarded_inverse {i : Interval} {q : Rat} (member : i.contains q = true) :
    Guarded.inverse i = .ok i.inverse := by
  rw [Guarded.inverse]
  split
  · rename_i zero
    rw [inverse, if_pos zero]
  · rename_i excluded
    rw [contains_iff, not_and_or] at excluded
    obtain ⟨lower, upper⟩ := contains_iff.1 member
    have away : i.lower ≠ .closed 0 ∧ i.upper ≠ .closed 0 := by
      constructor
      · intro closed
        rw [closed] at lower excluded
        have above := excluded.resolve_left fun outside => outside le_rfl
        have nonneg : 0 ≤ q := lower
        cases endpoint : i.upper <;> rw [endpoint] at upper above <;>
          simp only [Endpoint.Limits, not_true_eq_false, not_le, not_lt] at upper above <;> linarith
      · intro closed
        rw [closed] at upper excluded
        have below := excluded.resolve_right fun outside => outside le_rfl
        have nonpos : q ≤ 0 := upper
        cases endpoint : i.lower <;> rw [endpoint] at lower below <;>
          simp only [Endpoint.Limits, not_true_eq_false, not_le, not_lt] at lower below <;> linarith
    rw [demand_of away]
    rfl

namespace Engine

open State

variable {e next : Engine} {h : History} {v : Var} {m : Monomial} {reasons : List Dependency}

theorem exists_contains_varInterval (inv : e.Invariant h) (v : Var) :
    ∃ q, (e.varInterval v).contains q = true := by
  have ordered := inv.founded.formed.bounds.ordered v
  simp only [Interval.contains_iff, varInterval, BoundStore.lowerValue, BoundStore.upperValue,
    BoundStore.value]
  cases at_lower : e.bounds.get v .lower with
  | none =>
    cases at_upper : e.bounds.get v .upper with
    | none => exact ⟨0, trivial, trivial⟩
    | some b => exact ⟨b.value.real - 1, trivial, Endpoint.limits_ofBound_of_gt (by linarith)⟩
  | some b =>
    cases at_upper : e.bounds.get v .upper with
    | none => exact ⟨b.value.real + 1, Endpoint.limits_ofBound_of_lt (by linarith), trivial⟩
    | some c => exact Endpoint.exists_limits_of_le (ordered b c at_lower at_upper)

theorem guarded_inverse_productInterval (inv : e.Invariant h) (factors : List Var) :
    Interval.Guarded.inverse (e.productInterval factors) = .ok (e.productInterval factors).inverse := by
  choose α members using exists_contains_varInterval inv
  exact Interval.guarded_inverse (contains_productInterval fun v _ => members v)

/-! ## Refinement -/

/-- A loop of refinements runs without failing if each of them does wherever those before it have led.
-/
theorem runs_refineEach {α : Type} {step : Engine → α → Engine × Refinement}
    {guarded : Engine → α → Guarded (Engine × Refinement)} {items : List α}
    (each : ∀ next, Steps h e next → ∀ a ∈ items, Refines h next (step next a) ∧
      Runs next (guarded next a) (step next a) (step next a).1) :
    Runs e (Guarded.refineEach guarded items e) (refineEach step items e)
      (refineEach step items e).1 := by
  induction items generalizing e with
  | nil => exact .pure (.refl e) _
  | cons a rest ih =>
    obtain ⟨refines, runs⟩ := each e .refl a List.mem_cons_self
    rw [Guarded.refineEach, refineEach]
    refine runs.bind ?_
    generalize step e a = result at refines
    obtain ⟨next, outcome⟩ := result
    have others (goes_on : outcome.goesOn = true) :
        Runs next (Guarded.refineEach guarded rest next) (refineEach step rest next)
          (refineEach step rest next).1 :=
      ih fun last later b member =>
        each last ((refines.answers.steps goes_on).trans later) b (List.mem_cons_of_mem _ member)
    cases outcome with
    | conflict => exact .pure (.refl _) _
    | unchanged => exact (others rfl).bind (.pure (.refl _) _)
    | tightened => exact (others rfl).bind (.pure (.refl _) _)

/-- Tightening one side of a variable to an interval runs without failing, as the reasons name nodes. -/
theorem runs_tightenSide {interval : Interval} (explained : e.Explained)
    (names : ∀ d ∈ reasons, e.dependencies.Names d) (kind : BoundKind) :
    Runs e (Guarded.tightenSide v interval reasons e kind) (tightenSide v interval reasons e kind)
      (tightenSide v interval reasons e kind).1 := by
  unfold Guarded.tightenSide tightenSide
  dsimp only
  generalize Endpoint.toBound kind _ = found
  cases found with
  | none => exact .pure (.refl e) _
  | some bound =>
    simp only
    split
    · generalize counted_eq : Engine.count (Engine.trace e _ _) _ = counted
      have becomes : e.Becomes e.toState counted := by
        rw [← counted_eq]
        exact ⟨rfl, rfl⟩
      have explained : counted.Explained :=
        explained.congr (by rw [becomes.toState]) (by rw [becomes.toState])
      have names : ∀ d ∈ reasons, counted.dependencies.Names d := becomes.toState ▸ names
      refine .start ((runs_joinReasons names).bind ((runs_installJoined explained names
        (by exact ⟨rfl, rfl⟩) v kind (e.roundBound v kind bound) .derived).bind ?_))
        becomes.sameStore
      generalize installBound _ v kind _ _ _ = installed
      obtain ⟨last, ok⟩ := installed
      cases ok with
      | true => exact .pure (.refl _) _
      | false => exact .pure (.refl _) _
    · exact .pure (.refl e) _

theorem runs_tighten {interval : Interval} (inv : e.Invariant h) (lt : v < e.numVars)
    (derives : Derives h e reasons fun α => interval.contains (α v) = true) :
    Runs e (Guarded.tighten e v interval reasons) (e.tighten v interval reasons)
      (e.tighten v interval reasons).1 := by
  refine runs_refineEach (h := h) fun next steps kind _ => ?_
  have inv' := steps.invariant inv
  have derives' := derives.later inv steps
  exact ⟨refines_tightenSide inv' (Nat.lt_of_lt_of_le lt (steps.keeps inv).numVars) derives' kind,
    runs_tightenSide inv'.explained derives'.names kind⟩

theorem runs_boundMonomial (inv : e.Invariant h) (member : m ∈ e.monomials) :
    Runs e (Guarded.boundMonomial e m) (e.boundMonomial m) (e.boundMonomial m).1 :=
  runs_tighten inv (inv.founded.multiplied.var_lt m member) (derives_product inv member)

theorem runs_boundFactor (inv : e.Invariant h) (member : m ∈ e.monomials)
    (simple : v ∈ simpleFactors m) :
    Runs e (Guarded.boundFactor m e v) (boundFactor m e v) (boundFactor m e v).1 := by
  rw [Guarded.boundFactor, boundFactor]
  refine (Runs.lift (guarded_inverse_productInterval inv _)).bind ?_
  cases found : (e.productInterval (m.factors.filter fun u => u ≠ v)).inverse with
  | none => exact .pure (.refl e) _
  | some inverse =>
    exact runs_tighten inv (inv.founded.multiplied.factor_lt m member v (mem_of_simple simple).1)
      (derives_quotient inv member simple found)

theorem runs_refineMonomial (inv : e.Invariant h) (member : m ∈ e.monomials) :
    Runs e (Guarded.refineMonomial e m) (e.refineMonomial m) (e.refineMonomial m).1 := by
  rw [Guarded.refineMonomial, refineMonomial]
  refine (runs_boundMonomial inv member).bind ?_
  have refines := refines_boundMonomial inv member
  generalize e.boundMonomial m = result at refines
  obtain ⟨next, outcome⟩ := result
  have factors (goes_on : outcome.goesOn = true) :
      Runs next (Guarded.refineEach (Guarded.boundFactor m) (simpleFactors m) next)
        (refineEach (boundFactor m) (simpleFactors m) next)
        (refineEach (boundFactor m) (simpleFactors m) next).1 := by
    refine runs_refineEach (h := h) fun last later v simple => ?_
    have steps : Steps h e last := (refines.answers.steps goes_on).trans later
    have member : m ∈ last.monomials := (steps.keeps inv).monomials ▸ member
    exact ⟨refines_boundFactor (steps.invariant inv) member simple,
      runs_boundFactor (steps.invariant inv) member simple⟩
  cases outcome with
  | conflict => exact .pure (.refl _) _
  | unchanged => exact (factors rfl).bind (.pure (.refl _) _)
  | tightened => exact (factors rfl).bind (.pure (.refl _) _)

theorem runs_refineMonomials (inv : e.Invariant h) :
    Runs e (Guarded.refineMonomials e) e.refineMonomials e.refineMonomials.1 := by
  refine runs_refineEach (h := h) fun next steps m member => ?_
  have member : m ∈ next.monomials := (steps.keeps inv).monomials ▸ member
  exact ⟨refines_refineMonomial (steps.invariant inv) member,
    runs_refineMonomial (steps.invariant inv) member⟩

/-! ## Nested evaluation of rows -/

/-- The test of a row in nested form runs without failing. -/
theorem runs_checkNestedRow (explained : e.Explained) (r : RowId) :
    Runs e (Guarded.checkNestedRow e r) (e.checkNestedRow r) (e.checkNestedRow r).1 := by
  rw [Guarded.checkNestedRow, checkNestedRow]
  cases (e.tableau.get? r).filter fun row => !row.pending with
  | none => exact .pure (.refl e) _
  | some row =>
    dsimp only
    split
    · exact .pure (.refl e) _
    · cases mostSharedFactor? (row.zeroTerms.map e.productTerm) with
      | none => exact .pure (.refl e) _
      | some shared =>
        dsimp only
        split
        · exact .pure ⟨rfl, rfl, rfl⟩ _
        · generalize counted_eq : e.count _ = counted
          have becomes : e.Becomes e.toState counted := by
            rw [← counted_eq]
            exact ⟨rfl, rfl⟩
          have explained : counted.Explained :=
            explained.congr (by rw [becomes.toState]) (by rw [becomes.toState])
          have names : ∀ d ∈ counted.boundReasons (usedVars (row.zeroTerms.map e.productTerm)),
              counted.dependencies.Names d := by
            rw [boundReasons_eq]
            exact explained.names_reasonsOf _
          exact .start ((runs_joinReasons names).bind (Runs.bind
            (.start (runs_conflictJoined explained names (by rfl)) ⟨rfl, rfl, rfl⟩)
            (.pure (.refl _) (_, false)))) becomes.sameStore

theorem runs_checkNestedForms (inv : e.Invariant h) :
    Runs e (Guarded.checkNestedForms e) e.checkNestedForms e.checkNestedForms.1 :=
  runs_forEach (h := h) fun _ steps r _ => ⟨answers_checkNestedRow (steps.invariant inv) r,
    runs_checkNestedRow (steps.invariant inv).explained r⟩

end Engine

/-! ## Completion -/

namespace Completion

open Engine

variable {e : Engine} {basis : List Polynomial} {c : Completion} {budget : Nat}
  {p q : Polynomial}

theorem coeff_ne_zero_of_leading? {product : PowerProduct} {coeff : Rat} (sound : Sound e p)
    (leads : p.leading? = some (product, coeff)) : coeff ≠ 0 :=
  (sound.within _ (List.mem_of_mem_head? leads)).1

/-- Looking for a member that divides a term does not fail, as every member has a leading term with a
coefficient other than zero. -/
theorem guarded_reducer? (members : ∀ q ∈ basis, Sound e q) (t : PowerProduct × Rat) :
    Guarded.reducer? basis t = .ok (reducer? basis t) := by
  induction basis with
  | nil => rfl
  | cons head rest ih =>
    obtain ⟨sound, others⟩ := List.forall_mem_cons.1 members
    rw [Guarded.reducer?, reducer?]
    cases leads : head.leading? with
    | none => exact ih others
    | some term =>
      obtain ⟨product, coeff⟩ := term
      dsimp only
      cases t.1.div? product with
      | none => exact ih others
      | some shift =>
        dsimp only
        rw [demand_of (coeff_ne_zero_of_leading? sound leads)]
        rfl

theorem guarded_reduceFrom (members : ∀ q ∈ basis, Sound e q) (budget steps index : Nat)
    (p : Polynomial) :
    Guarded.reduceFrom basis budget steps index p = .ok (reduceFrom basis budget steps index p) := by
  fun_induction reduceFrom basis budget steps index p with
  | case1 steps index p bound q shift factor found ih =>
    rw [Guarded.reduceFrom, dif_pos bound, guarded_reducer? members, found]
    exact ih
  | case2 steps index p bound found ih =>
    rw [Guarded.reduceFrom, dif_pos bound, guarded_reducer? members, found]
    exact ih
  | case3 steps index p stopped => rw [Guarded.reduceFrom, dif_neg stopped]

theorem guarded_add (all : AllSound e c) (budget : Nat) (p : Polynomial) :
    Guarded.add c budget p = .ok (c.add budget p) := by
  rw [Guarded.add, guarded_reduceFrom all.basis]
  rfl

theorem guarded_addAll {ps : List Polynomial} (all : AllSound e c) (sound : ∀ p ∈ ps, Sound e p)
    (budget : Nat) : Guarded.addAll budget ps c = .ok (addAll budget ps c) := by
  induction ps generalizing c with
  | nil => rfl
  | cons p rest ih =>
    obtain ⟨first, others⟩ := List.forall_mem_cons.1 sound
    rw [Guarded.addAll, addAll, guarded_add all budget p, ok_bind]
    split
    · rfl
    · exact ih (all.add first budget) others

/-- Combining two members does not fail: both have leading terms, whose products divide their least
common multiple. -/
theorem guarded_sPolynomial? (first : Sound e p) (second : Sound e q) :
    Guarded.sPolynomial? p q = .ok (sPolynomial? p q) := by
  rw [Guarded.sPolynomial?]
  split
  · rename_i pp pc qp qc p_leads q_leads
    split
    · rename_i coprime
      rw [sPolynomial?, p_leads, q_leads]
      simp only [if_pos coprime]
    · rw [demand_of ⟨coeff_ne_zero_of_leading? first p_leads, coeff_ne_zero_of_leading? second q_leads⟩]
      rfl
  · rename_i unled
    rw [sPolynomial?]
    split
    · rename_i p_leads q_leads
      exact absurd q_leads (unled _ _ _ _ p_leads)
    · rfl

theorem guarded_pairPolynomial? (all : AllSound e c) (pair : Nat × Nat) :
    Guarded.pairPolynomial? c pair = .ok (c.pairPolynomial? pair) := by
  rw [Guarded.pairPolynomial?, pairPolynomial?]
  cases at_first : c.basis[pair.1]? with
  | none => rfl
  | some p =>
    cases at_second : c.basis[pair.2]? with
    | none => rfl
    | some q =>
      exact guarded_sPolynomial? (all.basis p (List.mem_of_getElem? at_first))
        (all.basis q (List.mem_of_getElem? at_second))

/-- Working off the pairs does not fail: both members of each pair exist, and all members have leading
terms. -/
theorem guarded_pairs (all : AllSound e c) (budget : Nat) :
    Guarded.run budget c = .ok (run budget c) := by
  fun_induction Completion.run budget c with
  | case1 c running front =>
    rw [Guarded.run, dif_pos running]
    split
    · rfl
    · rename_i front'
      cases front.symm.trans front'
  | case2 c running pair rest front none_found ih =>
    rw [Guarded.run, dif_pos running]
    split
    · rename_i front'
      cases front.symm.trans front'
    · rename_i front'
      obtain ⟨rfl, rfl⟩ := List.cons.inj (front.symm.trans front')
      rw [guarded_pairPolynomial? all, none_found]
      exact ih ⟨all.basis, all.refutation⟩
  | case3 c running pair rest front p found ih =>
    have spent : AllSound e { c with pairs := rest, steps := c.steps + 1 } :=
      ⟨all.basis, all.refutation⟩
    rw [Guarded.run, dif_pos running]
    split
    · rename_i front'
      cases front.symm.trans front'
    · rename_i front'
      obtain ⟨rfl, rfl⟩ := List.cons.inj (front.symm.trans front')
      rw [guarded_pairPolynomial? all, found]
      dsimp only
      rw [guarded_add spent budget p]
      exact ih (spent.add (all.pair found) budget)
  | case4 c stopped => rw [Guarded.run, dif_neg stopped]

theorem guarded_complete {input : List Polynomial} (sound : ∀ p ∈ input, Sound e p)
    (budget : Nat) : Guarded.complete budget input = .ok (complete budget input) := by
  have start : AllSound e .empty := ⟨by simp [empty], by simp [empty]⟩
  rw [Guarded.complete, guarded_addAll start sound budget, ok_bind]
  exact guarded_pairs (start.addAll sound budget) budget

end Completion

theorem Polynomial.guarded_assignment? {p : Polynomial} {n : Nat} (within : p.Within n) :
    Guarded.assignment? p = .ok p.assignment? := by
  rw [Guarded.assignment?]
  split
  · rename_i v coeff constant terms_eq
    have nonzero : coeff ≠ 0 := (within ([v], coeff) (by simp [terms_eq])).1
    rw [demand_of nonzero]
    rfl
  · rfl

namespace Engine

open State

variable {e next : Engine} {h : History} {v : Var} {m : Monomial} {pass : NonlinearPass}

/-! ## The basis step -/

theorem runs_installValue {reason : Dependency} (explained : e.Explained)
    (names : e.dependencies.Names reason) (value : Rat) (kind : BoundKind) :
    Runs e (Guarded.installValue v value reason e kind) (installValue v value reason e kind)
      (installValue v value reason e kind).1 := by
  rw [Guarded.installValue, installValue]
  dsimp only
  split
  · generalize traced_eq : e.trace _ _ = traced
    have becomes : e.Becomes e.toState traced := by
      rw [← traced_eq]
      exact ⟨rfl, rfl⟩
    have explained : traced.Explained :=
      explained.congr (by rw [becomes.toState]) (by rw [becomes.toState])
    have names : traced.dependencies.Names reason := becomes.toState ▸ names
    refine .start ((runs_installBound explained names v kind (.ofRat value) .derived).bind ?_)
      becomes.sameStore
    generalize traced.installBound v kind (.ofRat value) reason .derived = installed
    obtain ⟨last, ok⟩ := installed
    cases ok with
    | true => exact .pure (.refl _) _
    | false => exact .pure (.refl _) _
  · exact .pure (.refl e) _

theorem runs_installAssignment {p : Polynomial} (inv : e.Invariant h) (derived : Derived h e p) :
    Runs e (Guarded.installAssignment e p) (e.installAssignment p) (e.installAssignment p).1 := by
  rw [Guarded.installAssignment, installAssignment]
  refine (Runs.lift (Polynomial.guarded_assignment? derived.within)).bind ?_
  cases found : p.assignment? with
  | none => exact .pure (.refl e) _
  | some assigned =>
    obtain ⟨v, value⟩ := assigned
    have j := derived.derives.joined inv
    refine (runs_joinReasons derived.derives.names).bind ?_
    refine runs_refineEach (h := h) fun next steps kind _ => ?_
    have joined_inv := j.steps.invariant inv
    exact ⟨refines_installSolved inv derived found j steps kind,
      runs_installValue (steps.invariant joined_inv).explained
        ((steps.keeps joined_inv).grows.nodes.names j.names) value kind⟩

/-- The basis step runs without failing, also where its budget is spent before the completion ends. -/
theorem runs_basisStep (inv : e.Invariant h) :
    Runs e (Guarded.basisStep e) e.basisStep e.basisStep.1 := by
  rw [Guarded.basisStep, basisStep]
  generalize counted_eq : e.count _ = counted
  have becomes : e.Becomes e.toState counted := by
    rw [← counted_eq]
    exact ⟨rfl, rfl⟩
  have counted_inv := becomes.steps.invariant inv
  have input := sound_basisInput counted_inv
  have all := Completion.allSound_complete input e.options.maxBasisSteps
  refine .start ((Runs.lift (Completion.guarded_complete input _)).bind ?_) becomes.sameStore
  dsimp only
  cases found : (Completion.complete e.options.maxBasisSteps counted.basisInput).refutation with
  | some constant =>
    have names := ((all.refutation constant found).1.derived counted_inv).derives.names
    exact (runs_joinReasons names).bind (Runs.bind
      (.start (runs_conflictJoined counted_inv.explained names (by rfl)) ⟨rfl, rfl, rfl⟩)
      (.pure (.refl _) (_, Refinement.conflict)))
  | none =>
    refine runs_refineEach (h := h) fun next steps p member => ?_
    have derived := ((all.basis p member).derived counted_inv).later counted_inv steps
    exact ⟨refines_installAssignment (steps.invariant counted_inv) derived,
      runs_installAssignment (steps.invariant counted_inv) derived⟩

/-! ## The nonlinear check -/

theorem guarded_wrongMonomials (e : Engine) : Guarded.wrongMonomials e = .ok e.wrongMonomials := by
  rw [Guarded.wrongMonomials, guarded_epsilon]
  rfl

theorem sameStore_repairMonomial (e : Engine) (m : Monomial) : SameStore e (e.repairMonomial m) := by
  rw [repairMonomial]
  split
  · exact .refl e
  · dsimp only
    split
    · generalize traced_eq : e.trace _ _ = traced
      have same : SameStore e traced := by
        rw [← traced_eq]
        exact ⟨rfl, rfl, rfl⟩
      exact same.trans (valuesOnly_updateValue traced _ _).sameStore
    · exact .refl e

theorem sameStore_foldl_repairMonomial (ms : List Monomial) (e : Engine) :
    SameStore e (ms.foldl repairMonomial e) := by
  induction ms generalizing e with
  | nil => exact .refl e
  | cons m rest ih => exact (sameStore_repairMonomial e m).trans (ih _)

theorem runs_repairMonomials (e : Engine) :
    Runs e (Guarded.repairMonomials e) e.repairMonomials e.repairMonomials.1 :=
  (Runs.lift (guarded_wrongMonomials e)).bind ((Runs.lift (guarded_wrongMonomials _)).bind
    (.pure (sameStore_foldl_repairMonomial _ e) _))

theorem runs_intervalRound (inv : e.Invariant h) :
    Runs e (Guarded.intervalRound e) e.intervalRound e.intervalRound.1 := by
  rw [Guarded.intervalRound, intervalRound]
  refine (runs_checkNestedForms inv).bind ?_
  have answers := answers_checkNestedForms inv
  generalize e.checkNestedForms = result at answers
  obtain ⟨next, ok⟩ := result
  cases ok with
  | false => exact .pure (.refl _) _
  | true => exact runs_refineMonomials ((answers.steps rfl).invariant inv)

theorem runs_basisRound (inv : e.Invariant h) (pass : NonlinearPass) :
    Runs e (Guarded.basisRound e pass) (e.basisRound pass) (e.basisRound pass).1 := by
  rw [Guarded.basisRound, basisRound]
  split
  · refine (runs_basisStep inv).bind ?_
    generalize e.basisStep = result
    obtain ⟨next, outcome⟩ := result
    cases outcome with
    | conflict => exact .pure (.refl _) _
    | tightened => exact .pure (.refl _) _
    | unchanged => exact .pure (.refl _) _
  · exact .pure (.refl e) _

theorem runs_repairOrComplete (inv : e.Invariant h) (pass : NonlinearPass) :
    Runs e (Guarded.repairOrComplete e pass) (e.repairOrComplete pass)
      (e.repairOrComplete pass).1 := by
  rw [Guarded.repairOrComplete, repairOrComplete]
  refine (runs_repairMonomials e).bind ?_
  obtain ⟨moved, -⟩ := moved_repairMonomials inv
  generalize e.repairMonomials = result at moved
  obtain ⟨next, ok⟩ := result
  cases ok with
  | true => exact .pure (.refl _) _
  | false => exact runs_basisRound (moved.steps.invariant inv) pass

theorem runs_checkNonlinear (inv : e.Invariant h) (pass : NonlinearPass) :
    Runs e (Guarded.checkNonlinear e pass) (e.checkNonlinear pass) (e.checkNonlinear pass).1 := by
  rw [Guarded.checkNonlinear, checkNonlinear]
  refine (Runs.lift (guarded_wrongMonomials e)).bind ?_
  split
  · exact .pure (.refl e) _
  · split
    · refine (runs_intervalRound inv).bind ?_
      have refines := refines_intervalRound inv
      generalize e.intervalRound = result at refines
      obtain ⟨next, outcome⟩ := result
      cases outcome with
      | conflict => exact .pure (.refl _) _
      | tightened => exact .pure (.refl _) _
      | unchanged => exact runs_repairOrComplete ((refines.answers.steps rfl).invariant inv) _
    · exact runs_repairOrComplete inv pass

end Engine

end ArithDecide
