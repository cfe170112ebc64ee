import ArithDecide.Proofs.Alike

/-!
# Checks of engines that are alike

Integer and nonlinear reasoning, and with them whole checks, lead from engines that are alike, with the
same values and rows, to such engines, and give the same answer.
-/

namespace ArithDecide.Engine

variable {o p : Options} {a b : Engine}

/-! ## What the rational model depends on -/

/-- The engines have the same variables, values and bounds. -/
structure SameModel (a b : Engine) : Prop where
  columns : b.columns = a.columns
  value : b.value = a.value
  bounds : b.bounds = a.bounds

section SameModel

variable (same : SameModel a b)
include same

theorem SameModel.vars : b.vars = a.vars := by
  rw [State.vars, State.vars, State.numVars, State.numVars, same.columns]

theorem SameModel.fractionalVars : b.fractionalVars = a.fractionalVars := by
  have fractional : b.isFractional = a.isFractional := by
    funext v
    rw [isFractional, isFractional, State.isInt, State.isInt, State.sort, State.sort, same.columns,
      same.value]
  rw [Engine.fractionalVars, Engine.fractionalVars, same.vars, fractional]

theorem SameModel.epsilon : b.epsilon = a.epsilon := by
  have limits : b.epsilonLimits = a.epsilonLimits := by
    funext v
    rw [epsilonLimits, epsilonLimits, same.value, same.bounds]
  rw [Engine.epsilon, Engine.epsilon, same.vars, limits]

theorem SameModel.model : b.model = a.model := by
  rw [Engine.model, Engine.model, same.epsilon, same.vars, same.value]

theorem SameModel.wrongMonomials (monomials : b.monomials = a.monomials) :
    b.wrongMonomials = a.wrongMonomials := by
  have holds : b.monomialHolds = a.monomialHolds := by
    funext epsilon m
    rw [monomialHolds, monomialHolds, same.value]
  rw [Engine.wrongMonomials, Engine.wrongMonomials, same.epsilon, monomials, holds]

end SameModel

theorem Alike.sameModel (alike : Alike Eq o p a b) : SameModel a b :=
  ⟨alike.columns, alike.value, alike.bounds⟩

/-! ## Integers -/

section Integers

variable (alike : Alike Eq o p a b)
include alike

theorem Alike.fractionalVars : b.fractionalVars = a.fractionalVars := alike.sameModel.fractionalVars

theorem Alike.scaleRow? : b.scaleRow? = a.scaleRow? := by
  rw [alike.eq_within]
  rfl

theorem Alike.divisibilityRefutation? : b.divisibilityRefutation? = a.divisibilityRefutation? := by
  rw [alike.eq_within]
  rfl

theorem Alike.testDivisibility (r : RowId) :
    AlikeWith Eq o p (a.testDivisibility r) (b.testDivisibility r) := by
  rw [Engine.testDivisibility, Engine.testDivisibility, alike.get?, alike.scaleRow?]
  split
  · exact ⟨alike, rfl⟩
  · have tested := alike.count (fun s => { s with gcdTests := s.gcdTests + 1 })
      fun s => { s with gcdTests := s.gcdTests + 1 }
    simp only [tested.divisibilityRefutation?]
    split
    · exact ⟨tested, rfl⟩
    · rename_i reasons _
      obtain ⟨joined, same⟩ := tested.joinReasons reasons
      rw [same]
      exact ⟨((joined.count _ _).trace _ _ _ _).setConflict _, rfl⟩

theorem Alike.firstHarmless? : b.firstHarmless? = a.firstHarmless? := by
  rw [alike.eq_within]
  rfl

theorem Alike.patch {moves : Engine → Var → List (Var × InfRat)}
    (same : ∀ {a b}, Alike Eq o p a b → moves b = moves a) (v : Var) :
    Alike Eq o p (patch moves a v) (patch moves b v) := by
  have tried := alike.count (fun s => { s with patches := s.patches + 1 })
    fun s => { s with patches := s.patches + 1 }
  rw [Engine.patch, Engine.patch]
  simp only [same tried, tried.firstHarmless?]
  split
  · exact tried
  · exact (tried.updateValue _ _).count _ _

theorem Alike.ownMoves : b.ownMoves = a.ownMoves := by
  rw [alike.eq_within]
  rfl

theorem Alike.rowMoves : b.rowMoves = a.rowMoves := by
  rw [alike.eq_within]
  rfl

theorem Alike.patchIntegers : Alike Eq o p a.patchIntegers b.patchIntegers := by
  rw [Engine.patchIntegers, Engine.patchIntegers]
  simp only [alike.fractionalVars, alike.kind]
  have patched : Alike Eq o p
      ((a.fractionalVars.filter fun v => a.kind v = .nonBase).foldl (Engine.patch Engine.ownMoves) a)
      ((a.fractionalVars.filter fun v => a.kind v = .nonBase).foldl (Engine.patch Engine.ownMoves) b) :=
    .foldl (fun later v => later.patch Alike.ownMoves v) _ alike
  simp only [patched.fractionalVars, patched.kind]
  exact .foldl (fun later v => later.patch Alike.rowMoves v) _ patched

theorem Alike.chosenCandidate? : b.chosenCandidate? = a.chosenCandidate? := by
  have same : b.candidates = a.candidates := by
    rw [candidates, candidates, alike.fractionalVars, alike.value, alike.oracle, alike.term]
  rw [Engine.chosenCandidate?, Engine.chosenCandidate?, same, alike.selector]

theorem Alike.selectBranch : AlikeWith Eq o p a.selectBranch b.selectBranch := by
  rw [Engine.selectBranch, Engine.selectBranch, alike.chosenCandidate?]
  split
  · exact ⟨alike, rfl⟩
  · rename_i c _
    obtain ⟨first, down⟩ := alike.internAtom c.var .upper c.value.floor
    obtain ⟨second, up⟩ := first.internAtom c.var .lower c.value.ceil
    simp only [down, up]
    exact ⟨(second.count _ _).trace _ _ _ _, rfl⟩

theorem Alike.askBranch : AlikeWith Eq o p a.askBranch b.askBranch := by
  obtain ⟨next, next', chosen, at_a, at_b, later⟩ := alike.selectBranch.exists_eq
  rw [Engine.askBranch, Engine.askBranch, at_a, at_b]
  cases chosen <;> exact ⟨later, rfl⟩

theorem Alike.createVar (sort : NumSort) (term : Term) :
    AlikeWith Eq o p (a.mkVar sort term) (b.mkVar sort term) :=
  alike.mkVar (congrArg (fun core : Core => { core with values := core.values.push 0 }) alike.core)

theorem Alike.pushRow (base : Var) (form : LinearForm) :
    AlikeWith Eq o p (a.pushRow base form) (b.pushRow base form) := by
  have rows : (b.tableau.addRow base form).rows = (a.tableau.addRow base form).rows := by
    rw [Tableau.addRow, Tableau.addRow, Tableau.record_rows, Tableau.record_rows, alike.rows]
  have added := alike.withTableau rows
  exact ⟨{ added with }, congrArg Array.size alike.rows⟩

theorem Alike.addCut (r : RowId) (cut : Cut) :
    AlikeWith Eq o p (a.addCut r cut) (b.addCut r cut) := by
  obtain ⟨joined, reason⟩ := alike.joinReasons cut.reasons
  rw [Engine.addCut, Engine.addCut]
  simp only [reason]
  split
  · exact ⟨joined.setConflict _, rfl⟩
  · obtain ⟨added, slack⟩ := joined.createVar (if cut.integral then .int else .real) .internal
    obtain ⟨withRow, row⟩ := added.pushRow
      ((a.joinReasons cut.reasons).1.mkVar (if cut.integral then .int else .real) .internal).2
      (.ofEntries cut.terms)
    simp only [slack, row]
    exact (((withRow.normalizeRow _).count _ _).trace _ _ _ _).installBound _ _ _ _ _

theorem Alike.cutSource? : b.cutSource? = a.cutSource? := by
  rw [alike.eq_within]
  rfl

theorem Alike.cutOf : b.cutOf = a.cutOf := by
  rw [alike.eq_within]
  rfl

theorem Alike.mayCut (cuts : Nat) : b.mayCut cuts = a.mayCut cuts := by
  rw [Engine.mayCut, Engine.mayCut, alike.first, alike.second, alike.similar, alike.integerChecks]

theorem Alike.cutOrBranch (cuts : Nat) :
    AlikeWith Eq o p (a.cutOrBranch cuts) (b.cutOrBranch cuts) := by
  rw [Engine.cutOrBranch, Engine.cutOrBranch, alike.mayCut, alike.cutSource?]
  split
  · exact alike.askBranch
  · rename_i r row _
    obtain ⟨next, next', added, at_a, at_b, later⟩ := (alike.addCut r (a.cutOf row)).exists_eq
    rw [alike.cutOf, at_a, at_b]
    cases added <;> exact ⟨later, rfl⟩

/-- The integer reasoning comes to the same outcome in engines that are alike. -/
theorem Alike.checkIntegers (cuts : Nat) :
    AlikeWith Eq o p (a.checkIntegers cuts) (b.checkIntegers cuts) := by
  rw [Engine.checkIntegers, Engine.checkIntegers, alike.fractionalVars]
  split
  · exact ⟨alike, rfl⟩
  · have counted : Alike Eq o p { a with integerChecks := a.integerChecks + 1 }
        { b with integerChecks := b.integerChecks + 1 } :=
      { alike with integerChecks := congrArg (· + 1) alike.integerChecks }
    obtain ⟨next, next', ok, at_a, at_b, later⟩ :=
      (Alike.forEach (fun later r => later.testDivisibility r) a.tableau.rowIds counted).exists_eq
    simp only [alike.rowIds, at_a, at_b]
    cases ok with
    | false => exact ⟨later, rfl⟩
    | true =>
      have patched := later.patchIntegers
      simp only [patched.fractionalVars]
      split
      · exact ⟨patched, rfl⟩
      · exact patched.cutOrBranch cuts

end Integers

/-! ## Products -/

section Products

theorem Alike.refineEach {α : Type} {f g : Engine → α → Engine × Refinement}
    (each : ∀ {a b}, Alike Eq o p a b → ∀ x, AlikeWith Eq o p (f a x) (g b x)) (items : List α)
    (alike : Alike Eq o p a b) : AlikeWith Eq o p (refineEach f items a) (refineEach g items b) := by
  induction items generalizing a b with
  | nil => exact ⟨alike, rfl⟩
  | cons x rest ih =>
    obtain ⟨next, next', outcome, at_a, at_b, later⟩ := (each alike x).exists_eq
    obtain ⟨last, last', others, at_next, at_next', final⟩ := (ih later).exists_eq
    rw [Engine.refineEach, Engine.refineEach, at_a, at_b]
    cases outcome with
    | conflict => exact ⟨later, rfl⟩
    | unchanged => simp only [at_next, at_next']; exact ⟨final, rfl⟩
    | tightened => simp only [at_next, at_next']; exact ⟨final, rfl⟩

variable (alike : Alike Eq o p a b)
include alike

/-- An interval tightens a side in both engines or in none. -/
theorem Alike.tightenSide (v : Var) (interval : Interval) (reasons : List Dependency)
    (kind : BoundKind) :
    AlikeWith Eq o p (tightenSide v interval reasons a kind) (tightenSide v interval reasons b kind) := by
  rw [tightenSide.eq_def, tightenSide.eq_def]
  simp only
  split
  · exact ⟨alike, rfl⟩
  · rename_i bound _
    simp only [alike.roundBound, alike.bounds]
    split
    · obtain ⟨joined, same⟩ := (((alike.trace .nonlinear .nonlinear _ _).count _ _).joinReasons reasons)
      rw [same]
      obtain ⟨next, next', ok, at_a, at_b, later⟩ := (joined.installBound v kind
        (a.roundBound v kind bound) _ .derived).exists_eq
      rw [at_a, at_b]
      cases ok <;> exact ⟨later, rfl⟩
    · exact ⟨alike, rfl⟩

theorem Alike.tighten (v : Var) (interval : Interval) (reasons : List Dependency) :
    AlikeWith Eq o p (a.tighten v interval reasons) (b.tighten v interval reasons) :=
  Alike.refineEach (fun later kind => later.tightenSide v interval reasons kind) _ alike

theorem Alike.varInterval : b.varInterval = a.varInterval := by
  rw [alike.eq_within]
  rfl

theorem Alike.productInterval : b.productInterval = a.productInterval := by
  rw [alike.eq_within]
  rfl

theorem Alike.boundReasons : b.boundReasons = a.boundReasons := by
  rw [alike.eq_within]
  rfl

theorem Alike.boundFactor (m : Monomial) (factor : Var) :
    AlikeWith Eq o p (boundFactor m a factor) (boundFactor m b factor) := by
  rw [Engine.boundFactor, Engine.boundFactor]
  simp only [alike.productInterval, alike.varInterval, alike.boundReasons]
  split
  · exact ⟨alike, rfl⟩
  · exact alike.tighten _ _ _

theorem Alike.refineMonomial (m : Monomial) :
    AlikeWith Eq o p (a.refineMonomial m) (b.refineMonomial m) := by
  rw [Engine.refineMonomial, Engine.refineMonomial, boundMonomial, boundMonomial,
    alike.productInterval, alike.boundReasons]
  obtain ⟨next, next', outcome, at_a, at_b, later⟩ := (alike.tighten m.var
    (a.productInterval m.factors) (a.boundReasons m.factors)).exists_eq
  obtain ⟨last, last', others, at_next, at_next', final⟩ :=
    (Alike.refineEach (fun later v => later.boundFactor m v) (simpleFactors m) later).exists_eq
  rw [at_a, at_b]
  cases outcome with
  | conflict => exact ⟨later, rfl⟩
  | unchanged => simp only [at_next, at_next']; exact ⟨final, rfl⟩
  | tightened => simp only [at_next, at_next']; exact ⟨final, rfl⟩

theorem Alike.refineMonomials : AlikeWith Eq o p a.refineMonomials b.refineMonomials := by
  rw [Engine.refineMonomials, Engine.refineMonomials, alike.monomials]
  exact Alike.refineEach (fun later m => later.refineMonomial m) _ alike

theorem Alike.productTerm : b.productTerm = a.productTerm := by
  rw [alike.eq_within]
  rfl

theorem Alike.nestedInterval : b.nestedInterval = a.nestedInterval := by
  rw [alike.eq_within]
  rfl

/-- The test of a row in nested form comes to the same outcome in engines that are alike. -/
theorem Alike.checkNestedRow (r : RowId) :
    AlikeWith Eq o p (a.checkNestedRow r) (b.checkNestedRow r) := by
  rw [Engine.checkNestedRow, Engine.checkNestedRow, alike.get?]
  split
  · exact ⟨alike, rfl⟩
  · simp only [alike.productTerm]
    split
    · exact ⟨alike, rfl⟩
    · split
      · exact ⟨alike, rfl⟩
      · have counted := alike.count (fun s => { s with nestedForms := s.nestedForms + 1 })
          fun s => { s with nestedForms := s.nestedForms + 1 }
        simp only [counted.nestedInterval, counted.boundReasons]
        split
        · exact ⟨counted, rfl⟩
        · obtain ⟨joined, same⟩ := counted.joinReasons _
          rw [same]
          exact ⟨(joined.trace _ _ _ _).setConflict _, rfl⟩

theorem Alike.checkNestedForms : AlikeWith Eq o p a.checkNestedForms b.checkNestedForms := by
  rw [Engine.checkNestedForms, Engine.checkNestedForms, alike.rowIds]
  exact Alike.forEach (fun later r => later.checkNestedRow r) _ alike

theorem Alike.installValue (v : Var) (value : Rat) (reason : Dependency) (kind : BoundKind) :
    AlikeWith Eq o p (installValue v value reason a kind) (installValue v value reason b kind) := by
  rw [Engine.installValue, Engine.installValue, alike.bounds]
  simp only
  split
  · obtain ⟨next, next', ok, at_a, at_b, later⟩ := ((alike.trace .nonlinear .nonlinear
      (fun _ => a.varName v ++ " = " ++ (InfRat.ofRat value).text ++ " from the basis")
      (fun _ => b.varName v ++ " = " ++ (InfRat.ofRat value).text ++ " from the basis")).installBound
        v kind (.ofRat value) reason .derived).exists_eq
    rw [at_a, at_b]
    cases ok <;> exact ⟨later, rfl⟩
  · exact ⟨alike, rfl⟩

theorem Alike.installAssignment (q : Polynomial) :
    AlikeWith Eq o p (a.installAssignment q) (b.installAssignment q) := by
  rw [Engine.installAssignment, Engine.installAssignment]
  split
  · exact ⟨alike, rfl⟩
  · obtain ⟨joined, joined', reason, at_a, at_b, later⟩ :=
      (alike.joinReasons (q.reasons.map some)).exists_eq
    rw [at_a, at_b]
    exact Alike.refineEach (fun last kind => last.installValue _ _ _ kind) _ later

theorem Alike.basisInput : b.basisInput = a.basisInput := by
  rw [alike.eq_within]
  rfl

theorem Alike.basisStep : AlikeWith Eq o p a.basisStep b.basisStep := by
  have counted := alike.count (fun s => { s with basisSteps := s.basisSteps + 1 })
    fun s => { s with basisSteps := s.basisSteps + 1 }
  have limit : b.options.maxBasisSteps = a.options.maxBasisSteps := by
    rw [alike.first, alike.second, alike.similar]
  rw [Engine.basisStep, Engine.basisStep]
  simp only [counted.basisInput, limit]
  split
  · rename_i constant _
    obtain ⟨joined, same⟩ := counted.joinReasons (constant.reasons.map some)
    rw [same]
    exact ⟨(joined.trace _ _ _ _).setConflict _, rfl⟩
  · exact Alike.refineEach (fun later q => later.installAssignment q) _ counted

theorem Alike.model : b.model = a.model := alike.sameModel.model

theorem Alike.wrongMonomials : b.wrongMonomials = a.wrongMonomials :=
  alike.sameModel.wrongMonomials alike.monomials

theorem Alike.admitsMove : b.admitsMove = a.admitsMove := by
  rw [alike.eq_within]
  rfl

theorem Alike.repairMonomial (m : Monomial) :
    Alike Eq o p (a.repairMonomial m) (b.repairMonomial m) := by
  have product : b.factorProduct? m = a.factorProduct? m := by
    rw [factorProduct?, factorProduct?, alike.value]
  rw [Engine.repairMonomial, Engine.repairMonomial, alike.kind, product]
  split
  · exact alike
  · simp only [alike.stored, alike.admitsMove]
    split
    · exact (alike.trace _ _ _ _).updateValue _ _
    · exact alike

theorem Alike.repairMonomials : AlikeWith Eq o p a.repairMonomials b.repairMonomials := by
  rw [Engine.repairMonomials, Engine.repairMonomials, alike.wrongMonomials]
  have repaired : Alike Eq o p (a.wrongMonomials.foldl Engine.repairMonomial a)
      (a.wrongMonomials.foldl Engine.repairMonomial b) :=
    .foldl (fun later m => later.repairMonomial m) _ alike
  exact ⟨repaired, congrArg List.isEmpty repaired.wrongMonomials⟩

theorem Alike.intervalRound : AlikeWith Eq o p a.intervalRound b.intervalRound := by
  obtain ⟨next, next', ok, at_a, at_b, later⟩ := alike.checkNestedForms.exists_eq
  rw [Engine.intervalRound, Engine.intervalRound, at_a, at_b]
  cases ok with
  | false => exact ⟨later, rfl⟩
  | true => exact later.refineMonomials

theorem Alike.basisRound (pass : NonlinearPass) :
    AlikeWith Eq o p (a.basisRound pass) (b.basisRound pass) := by
  have enabled : b.options.enableBasis = a.options.enableBasis := by
    rw [alike.first, alike.second, alike.similar]
  obtain ⟨next, next', outcome, at_a, at_b, later⟩ := alike.basisStep.exists_eq
  rw [Engine.basisRound, Engine.basisRound, enabled, at_a, at_b]
  split
  · cases outcome <;> exact ⟨later, rfl⟩
  · exact ⟨alike, rfl⟩

theorem Alike.repairOrComplete (pass : NonlinearPass) :
    AlikeWith Eq o p (a.repairOrComplete pass) (b.repairOrComplete pass) := by
  obtain ⟨next, next', ok, at_a, at_b, later⟩ := alike.repairMonomials.exists_eq
  rw [Engine.repairOrComplete, Engine.repairOrComplete, at_a, at_b]
  cases ok with
  | true => exact ⟨later, rfl⟩
  | false => exact later.basisRound pass

/-- The nonlinear reasoning comes to the same outcome in engines that are alike. -/
theorem Alike.checkNonlinear (pass : NonlinearPass) :
    AlikeWith Eq o p (a.checkNonlinear pass) (b.checkNonlinear pass) := by
  have limit : b.options.nonlinearRounds = a.options.nonlinearRounds := by
    rw [alike.first, alike.second, alike.similar]
  rw [Engine.checkNonlinear, Engine.checkNonlinear, alike.wrongMonomials, limit]
  split
  · exact ⟨alike, rfl⟩
  · split
    · obtain ⟨next, next', outcome, at_a, at_b, later⟩ := alike.intervalRound.exists_eq
      simp only [at_a, at_b]
      cases outcome with
      | conflict => exact ⟨later, rfl⟩
      | tightened => exact ⟨later, rfl⟩
      | unchanged => exact later.repairOrComplete _
    · exact alike.repairOrComplete pass

end Products

/-! ## Checks -/

theorem Alike.conflictResult {V : Core → Core → Prop} (alike : Alike V o p a b) :
    b.conflictResult = a.conflictResult := by
  rw [Engine.conflictResult, Engine.conflictResult, alike.conflict]

/-- Engines that are alike cut in the same rounds of a check, and the rounds come to the same answer. -/
theorem Alike.checkRounds (rounds cuts : Nat) (pass : NonlinearPass) (alike : Alike Eq o p a b) :
    AlikeWith Eq o p (checkRounds rounds cuts pass a) (checkRounds rounds cuts pass b) := by
  induction rounds generalizing cuts pass a b with
  | zero => exact ⟨alike, rfl⟩
  | succ rounds ih =>
    obtain ⟨next, next', ok, at_a, at_b, propagated⟩ := alike.propagate.exists_eq
    rw [Engine.checkRounds, Engine.checkRounds, at_a, at_b]
    cases ok with
    | false => exact ⟨propagated, propagated.conflictResult⟩
    | true =>
      obtain ⟨integral, integral', outcome, at_next, at_next', later⟩ :=
        (propagated.checkIntegers cuts).exists_eq
      simp only [at_next, at_next']
      cases outcome with
      | conflict => exact ⟨later, later.conflictResult⟩
      | cutAdded => exact ih _ _ later
      | branch split => exact ⟨later, rfl⟩
      | giveUp => exact ⟨later, rfl⟩
      | feasible =>
        obtain ⟨last, last', ⟨spent, result⟩, at_last, at_last', final⟩ :=
          (later.checkNonlinear pass).exists_eq
        simp only [later.monomials, at_last, at_last']
        split
        · exact ⟨later, rfl⟩
        · cases result with
          | consistent => exact ⟨final, rfl⟩
          | conflict => exact ⟨final, final.conflictResult⟩
          | progress => exact ih _ _ final
          | giveUp => exact ⟨final, rfl⟩

theorem Alike.roundLimit {V : Core → Core → Prop} (alike : Alike V o p a b) :
    roundLimit b.options = roundLimit a.options := by
  rw [Engine.roundLimit, Engine.roundLimit, alike.first, alike.second, alike.similar]

theorem Alike.check (alike : Alike Eq o p a b) : AlikeWith Eq o p a.check b.check := by
  rw [Engine.check, Engine.check, alike.roundLimit]
  exact (alike.count _ _).checkRounds _ _ _

end ArithDecide.Engine
