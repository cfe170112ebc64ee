import ArithDecide.Nonlinear.BasisStep
import ArithDecide.Proofs.Polynomials
import ArithDecide.Proofs.Propagation

/-!
# The basis step is sound

The polynomials of the monomials and the rows are zero wherever these hold, also after the known
variables were replaced by their values: the bounds that fix these are among the reasons. So the basis
completed from them is sound, and the values it gives to variables are values of every solution.
-/

namespace ArithDecide.Engine

open State

variable {e next : Engine} {h : History} {α : Var → Rat} {v : Var}

/-! ## Known variables -/

/-- A solution gives a known variable its known value. -/
theorem eq_of_knownValue? (bounds : e.bounds.WellFormed e.numVars) {q : Rat} (known : e.knownValue? v = some q)
    {uses : List (Var × BoundKind)} (respects : e.Respects α uses)
    (member : ∀ kind, (v, kind) ∈ uses) : α v = q := by
  rw [knownValue?, Option.ite_none_right_eq_some] at known
  obtain ⟨fixed, known⟩ := known
  obtain ⟨value, filtered, rfl⟩ := Option.map_eq_some_iff.1 known
  obtain ⟨at_lower, -⟩ := Option.filter_eq_some_iff.1 filtered
  obtain ⟨other, -, at_lower', same⟩ := eq_of_isFixed bounds fixed respects member
  obtain rfl := Option.some.inj (at_lower.symm.trans at_lower')
  rw [same]
  rfl

/-- Known values times the unknown variables are the product. -/
theorem eval_substituteKnown {factors : List Var} (coeff : Rat)
    (known : ∀ v ∈ factors, ∀ q, e.knownValue? v = some q → α v = q) :
    (e.substituteKnown factors coeff).2 * (e.substituteKnown factors coeff).1.eval α =
      coeff * (factors.map α).prod := by
  have values (start : Rat) (qs : List Rat) : qs.foldl (· * ·) start = start * qs.prod := by
    induction qs generalizing start with
    | nil => simp
    | cons q rest ih => rw [List.foldl_cons, ih, List.prod_cons, mul_assoc]
  have product : (factors.filterMap e.knownValue?).prod *
      ((factors.filter fun v => (e.knownValue? v).isNone).map α).prod = (factors.map α).prod := by
    induction factors with
    | nil => simp
    | cons v rest ih =>
      obtain ⟨first, others⟩ := List.forall_mem_cons.1 known
      rw [List.map_cons, List.prod_cons, ← ih others]
      cases found : e.knownValue? v with
      | none =>
        rw [List.filterMap_cons_none found, List.filter_cons_of_pos (by simp [found]), List.map_cons,
          List.prod_cons]
        ring
      | some q =>
        rw [List.filterMap_cons_some found, List.filter_cons_of_neg (by simp [found]),
          List.prod_cons, first q found]
        ring
  have sorted : (((factors.filter fun v => (e.knownValue? v).isNone).mergeSort
      fun v w => v ≤ w).map α).prod =
      ((factors.filter fun v => (e.knownValue? v).isNone).map α).prod :=
    ((List.mergeSort_perm _ _).map α).prod_eq
  rw [substituteKnown, PowerProduct.eval_eq_prod]
  simp only
  rw [sorted, values, mul_assoc, product]

/-- The variables of the terms that have known values. -/
def knownVars (e : Engine) (terms : List (List Var × Rat)) : List Var :=
  (terms.flatMap Prod.fst).filter fun v => (e.knownValue? v).isSome

theorem isSome_of_knownVars {terms : List (List Var × Rat)} :
    ∀ u ∈ bothSides (e.knownVars terms), (e.bounds.get u.1 u.2).isSome = true := by
  intro u member
  obtain ⟨v, at_v, side⟩ := List.mem_flatMap.1 member
  obtain ⟨q, known⟩ := Option.isSome_iff_exists.1 (List.mem_filter.1 at_v).2
  obtain ⟨value, -, active⟩ := fixedValue?_of_isFixed (Option.ite_none_right_eq_some.1 known).1
  have present (kind : BoundKind) : (e.bounds.get v kind).isSome = true := by
    obtain ⟨b, found, -⟩ := Option.map_eq_some_iff.1 (active kind)
    exact Option.isSome_iff_exists.2 ⟨b, found⟩
  rcases List.mem_pair.1 side with rfl | rfl
  · exact present .lower
  · exact present .upper

/-- The reasons of a polynomial with known variables are those of the bounds that fix them. -/
theorem restsOn_knownPolynomial (e : Engine) (terms : List (List Var × Rat)) :
    e.RestsOn (e.knownPolynomial terms).reasons (bothSides (e.knownVars terms)) where
  active := isSome_of_knownVars
  mem_iff node := by
    have total (a b : NodeId) (left : ¬a < b) (right : ¬b < a) : a = b :=
      Nat.le_antisymm (Nat.not_lt.1 right) (Nat.not_lt.1 left)
    rw [← boundReasons_eq]
    show node ∈ SortedSet.ofList ((e.boundReasons (e.knownVars terms)).filterMap id) ↔ _
    rw [SortedSet.mem_ofList total, List.mem_filterMap]
    simp

/-- A sum of products that is zero in every solution becomes a sound polynomial: fixed variables are
replaced by their values, and their bounds are the reasons. -/
theorem sound_knownPolynomial (bounds : e.bounds.WellFormed e.numVars)
    {terms : List (List Var × Rat)} (lt : ∀ t ∈ terms, ∀ v ∈ t.1, v < e.numVars)
    (zero : ∀ α : Var → Rat, e.tableau.Holds α → (∀ m ∈ e.monomials, m.Holds α) →
      (terms.map fun t => t.2 * (t.1.map α).prod).sum = 0) :
    Sound e (e.knownPolynomial terms) where
  vanishes := by
    refine ⟨_, restsOn_knownPolynomial e terms, fun α rows monomials respects => ?_⟩
    show (e.knownPolynomial terms).eval α = 0
    rw [knownPolynomial, Polynomial.eval_ofTerms, List.map_map, ← zero α rows monomials]
    refine congrArg List.sum (List.map_congr_left fun t member => ?_)
    refine eval_substituteKnown t.2 fun v at_v q known => ?_
    refine eq_of_knownValue? bounds known respects (mem_bothSides (List.mem_filter.2 ⟨?_, ?_⟩))
    · exact List.mem_flatMap.2 ⟨t, member, at_v⟩
    · rw [known]
      rfl
  within := by
    refine Polynomial.within_foldl_addToTerms (fun t member v at_v => ?_) (by simp)
    obtain ⟨u, at_u, rfl⟩ := List.mem_map.1 member
    exact lt u at_u v (List.mem_filter.1 (List.mem_mergeSort.1 at_v)).1

/-! ## The input -/

theorem sound_monomialPolynomial (inv : e.Invariant h) {m : Monomial} (member : m ∈ e.monomials) :
    Sound e (e.monomialPolynomial m) := by
  refine sound_knownPolynomial inv.founded.formed.bounds (fun t at_t v at_v => ?_)
    fun α _ monomials => ?_
  · rcases List.mem_pair.1 at_t with rfl | rfl
    · rw [List.mem_singleton.1 at_v]
      exact inv.founded.multiplied.var_lt m member
    · exact inv.founded.multiplied.factor_lt m member v at_v
  · have product : α m.var = (m.factors.map α).prod := monomials m member
    simp [product]

theorem sound_rowPolynomial (inv : e.Invariant h) {r : RowId} {row : Row}
    (found : e.tableau.get? r = some row) : Sound e (e.rowPolynomial row) := by
  refine sound_knownPolynomial inv.founded.formed.bounds (fun t at_t v at_v => ?_)
    fun α rows _ => ?_
  · obtain ⟨u, at_u, rfl⟩ := List.mem_map.1 at_t
    rw [List.mem_singleton.1 at_v]
    exact lt_of_mem_zeroTerms inv.founded.formed found at_u
  · have holds : α row.base = (row.form.terms.map fun t => t.2 * α t.1).sum :=
      rows r row found
    rw [List.map_map, Row.zeroTerms, List.map_cons, List.sum_cons]
    simp [holds, Function.comp_def]

theorem sound_basisInput (inv : e.Invariant h) : ∀ p ∈ e.basisInput, Sound e p := by
  intro p member
  obtain ⟨member, -⟩ := List.mem_filter.1 member
  rcases List.mem_append.1 member with at_monomials | at_rows
  · obtain ⟨m, at_m, rfl⟩ := List.mem_map.1 at_monomials
    exact sound_monomialPolynomial inv at_m
  · obtain ⟨row, at_row, rfl⟩ := List.mem_map.1 at_rows
    have at_list := (List.mem_filter.1 (List.mem_filter.1 at_row).1).1
    obtain ⟨r, found⟩ := List.mem_iff_getElem?.1 at_list
    exact sound_rowPolynomial inv (r := r) (by simpa [Tableau.get?] using found)

/-! ## Installing values -/

/-- Installing a value that the reason entails as a bound of one side is a refinement: no solution is
lost, and where nothing is tightened only the reasons may have grown. -/
theorem refines_installValue {value : Rat} {reason : Dependency} (inv : e.Invariant h)
    (names : e.dependencies.Names reason) (grounded : e.Grounded h reason)
    (entails : e.Reliable → ∀ α, e.Solves α → e.Believes α reason → α v = value)
    (lt : v < e.numVars) (kind : BoundKind) : Refines h e (installValue v value reason e kind) := by
  rw [installValue]
  simp only
  split
  · generalize traced_eq : e.trace _ _ = traced
    have becomes : e.Becomes e.toState traced := by
      rw [← traced_eq]
      exact ⟨rfl, rfl⟩
    have answers : Answers h traced (traced.installBound v kind (.ofRat value) reason .derived) := by
      refine answers_entailed (becomes.steps.invariant inv) ?_ ?_
        (fun reliable α solves believes => ?_) ?_
        (BoundKind.coherent_ofRat _ _)
      · exact becomes.toState ▸ names
      · exact becomes.toState ▸ grounded
      · rw [becomes.toState] at reliable solves believes
        rw [entails reliable α solves believes]
        exact BoundKind.admits_refl _ _
      · exact becomes.toState ▸ lt
    have answers := answers.after becomes.steps
    generalize traced.installBound v kind (.ofRat value) reason .derived = installed at answers ⊢
    obtain ⟨next, ok⟩ := installed
    cases ok with
    | true => exact .tightened answers
    | false => exact .conflict answers
  · exact .quiet (.refl e)

/-- The value that a sound polynomial gives is installed on each side. -/
theorem refines_installSolved {p : Polynomial} {value : Rat} {joined : Engine} {reason : Dependency}
    (inv : e.Invariant h) (derived : Derived h e p) (found : p.assignment? = some (v, value))
    (j : Joined h e (p.reasons.map some) joined reason) (steps : Steps h joined next)
    (kind : BoundKind) : Refines h next (installValue v value reason next kind) := by
  obtain ⟨lt, values⟩ := Polynomial.eq_of_assignment? derived.within found
  have joined_inv := j.steps.invariant inv
  have keeps := steps.keeps joined_inv
  have closed := joined_inv.founded.formed.closed
  refine refines_installValue (steps.invariant joined_inv) (keeps.grows.nodes.names j.names)
    (keeps.grows.grounded closed j.names (fun _ member => member) (j.grounded derived.derives.grounded))
    (fun reliable α solves believes => values α ?_) ?_ kind
  · have before := keeps.grows.solves α solves
    have believed := keeps.grows.believes closed j.names believes
    have reliable := j.grows.reliable (keeps.grows.reliable reliable)
    exact derived.derives.entails reliable α (j.grows.solves α before) (j.believes believed)
  · have same : joined.numVars = e.numVars := by rw [j.becomes.toState]; rfl
    exact Nat.lt_of_lt_of_le (same.symm ▸ lt) keeps.numVars

theorem refines_installAssignment {p : Polynomial} (inv : e.Invariant h) (derived : Derived h e p) :
    Refines h e (e.installAssignment p) := by
  rw [installAssignment]
  split
  · exact .quiet (.refl e)
  · rename_i v value found
    have j := derived.derives.joined inv
    generalize e.joinReasons (p.reasons.map some) = result at j ⊢
    obtain ⟨joined, reason⟩ := result
    exact Refines.after j.steps j.becomes.toState
      (refines_each fun next steps kind _ => refines_installSolved inv derived found j steps kind)

/-- Completing a basis and using what it says. -/
theorem refines_basisStep (inv : e.Invariant h) : Refines h e e.basisStep := by
  rw [basisStep]
  generalize counted_eq : e.count _ = counted
  have becomes : e.Becomes e.toState counted := by
    rw [← counted_eq]
    exact ⟨rfl, rfl⟩
  have counted_inv := becomes.steps.invariant inv
  have all := Completion.allSound_complete (sound_basisInput counted_inv) e.options.maxBasisSteps
  have same : counted.toState = { e.toState with dependencies := counted.dependencies } := by
    rw [becomes.toState]
  simp only
  split
  · rename_i constant found
    obtain ⟨sound, is_constant⟩ := all.refutation constant found
    have derives := (sound.derived counted_inv).derives
    have refuted : Derives h counted (constant.reasons.map some) fun _ => False :=
      { derives with
        entails := fun reliable α solves believes => Polynomial.eval_ne_zero sound.within is_constant α
          (derives.entails reliable α solves believes) }
    refine Refines.after becomes.steps same (.conflict (refuted.conflict counted_inv ?_))
    exact ⟨rfl, rfl⟩
  · refine Refines.after becomes.steps same (refines_each fun next steps p member => ?_)
    exact refines_installAssignment (steps.invariant counted_inv)
      (((all.basis p member).derived counted_inv).later counted_inv steps)

end ArithDecide.Engine
