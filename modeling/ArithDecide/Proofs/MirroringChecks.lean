import ArithDecide.Proofs.Mirroring

/-!
# Checks of engines that differ in the numbers of nodes

Integer and nonlinear reasoning never look at the numbers of nodes, they only collect them as reasons,
and so whole checks lead from engines that agree but for these numbers to such engines, with the same
answer. The one exception is a case split: the terms that an oracle prefers may decide on which of the
fractional variables it is, and the two checks may ask to split on different ones.
-/

namespace ArithDecide

/-- Both results ask for a case split, but not on the same variable. -/
def CheckResult.SplitsApart (r s : CheckResult) : Prop :=
  ∃ x y, r = .branch x ∧ s = .branch y ∧ x.var ≠ y.var

/-- Both outcomes ask for a case split, but not on the same variable. -/
def IntegerOutcome.SplitsApart (r s : IntegerOutcome) : Prop :=
  ∃ x y, r = .branch x ∧ s = .branch y ∧ x.var ≠ y.var

namespace Engine

variable {ρ : Renaming} {o p : Oracle} {a b : Engine}

/-! ## Integers -/

/-- The same cut, with new numbers for what it rests on. -/
def Cut.rename (ρ : Renaming) (cut : Cut) : Cut :=
  { cut with reasons := cut.reasons.map (Option.map ρ) }

section Integers

variable (mirrors : Mirrors ρ o p a b)
include mirrors

theorem Mirrors.admits : b.bounds.admits = a.bounds.admits := by
  funext v x
  unfold BoundStore.admits BoundStore.violates
  rw [mirrors.boundValue]

theorem Mirrors.isAt : b.bounds.isAt = a.bounds.isAt := by
  funext v kind x
  rw [BoundStore.isAt, BoundStore.isAt, mirrors.boundValue]

theorem Mirrors.fractionalVars : b.fractionalVars = a.fractionalVars := by
  have fractional : b.isFractional = a.isFractional := by
    funext v
    rw [isFractional, isFractional, mirrors.isInt, mirrors.value]
  rw [Engine.fractionalVars, Engine.fractionalVars, mirrors.vars, fractional]

/-! ### Divisibility -/

theorem Mirrors.fixedValue? : b.fixedValue? = a.fixedValue? := by
  funext v
  rw [Engine.fixedValue?, Engine.fixedValue?, mirrors.isFixed, mirrors.lowerValue]

theorem Mirrors.scaleRow? : b.scaleRow? = a.scaleRow? := by
  funext row
  unfold Engine.scaleRow?
  rw [mirrors.isFixed, mirrors.isInt, mirrors.fixedValue?]

/-- What the active bounds of some variables rest on. -/
theorem Mirrors.bothReasons (vs : List Var) :
    (vs.flatMap fun v => [b.bounds.reason v .lower, b.bounds.reason v .upper]) =
      (vs.flatMap fun v => [a.bounds.reason v .lower, a.bounds.reason v .upper]).map
        (Option.map ρ) := by
  rw [List.map_flatMap]
  refine congrArg (vs.flatMap ·) (funext fun v => ?_)
  rw [mirrors.reason, mirrors.reason]
  rfl

theorem Mirrors.fixedReasons (vs : List Var) :
    b.fixedReasons vs = (a.fixedReasons vs).map (Option.map ρ) := mirrors.bothReasons vs

theorem Mirrors.extendedRefutation? (row : ScaledRow) :
    b.extendedRefutation? row = (a.extendedRefutation? row).map (List.map (Option.map ρ)) := by
  have confined : b.isConfined = a.isConfined := by
    funext v
    rw [isConfined, isConfined, mirrors.bounds, BoundStore.get_rename, BoundStore.get_rename,
      Option.isSome_map, Option.isSome_map]
  have range : b.confinedRange = a.confinedRange := by
    funext constant terms
    unfold confinedRange
    rw [mirrors.boundValue]
  unfold Engine.extendedRefutation?
  simp only [confined, range, mirrors.fixedReasons, ← List.map_append]
  split
  · split <;> rfl
  · rfl

theorem Mirrors.divisibilityRefutation? (row : ScaledRow) :
    b.divisibilityRefutation? row =
      (a.divisibilityRefutation? row).map (List.map (Option.map ρ)) := by
  unfold Engine.divisibilityRefutation?
  split
  · exact mirrors.extendedRefutation? row
  · exact congrArg some (mirrors.fixedReasons _)

theorem Mirrors.testDivisibility (r : RowId) :
    MirrorsWith ρ o p (a.testDivisibility r) (b.testDivisibility r) := by
  rw [Engine.testDivisibility, Engine.testDivisibility, mirrors.get?, mirrors.scaleRow?]
  split
  · exact ⟨mirrors, rfl⟩
  · rename_i scaled _
    have tested := mirrors.count (fun s => { s with gcdTests := s.gcdTests + 1 })
      fun s => { s with gcdTests := s.gcdTests + 1 }
    simp only [tested.divisibilityRefutation?]
    cases (a.count fun s => { s with gcdTests := s.gcdTests + 1 }).divisibilityRefutation? scaled with
    | none => exact ⟨tested, rfl⟩
    | some reasons =>
      obtain ⟨joined, same⟩ := tested.joinReasons reasons
      simp only [Option.map_some, same]
      exact ⟨((joined.count _ _).trace _ _ _ _).setConflict _, rfl⟩

/-! ### Patching -/

theorem Mirrors.admitsMove : b.admitsMove = a.admitsMove := by
  have rows : b.rowAdmitsMove = a.rowAdmitsMove := by
    funext v delta row
    unfold rowAdmitsMove
    rw [mirrors.stored, mirrors.isInt, mirrors.admits]
  funext v target delta
  rw [Engine.admitsMove, Engine.admitsMove, mirrors.admits, mirrors.tableau, rows]

theorem Mirrors.firstHarmless? : b.firstHarmless? = a.firstHarmless? := by
  funext moves
  rw [Engine.firstHarmless?, Engine.firstHarmless?, mirrors.admitsMove, mirrors.stored]

theorem Mirrors.ownMoves : b.ownMoves = a.ownMoves := by
  funext v
  unfold Engine.ownMoves
  rw [mirrors.stored]

theorem Mirrors.rowMoves : b.rowMoves = a.rowMoves := by
  funext v
  unfold Engine.rowMoves
  rw [mirrors.tableau, mirrors.stored, mirrors.isInt]

theorem Mirrors.patch {moves : Engine → Var → List (Var × InfRat)}
    (same : ∀ {a b}, Mirrors ρ o p a b → moves b = moves a) (v : Var) :
    Mirrors ρ o p (patch moves a v) (patch moves b v) := by
  have tried := mirrors.count (fun s => { s with patches := s.patches + 1 })
    fun s => { s with patches := s.patches + 1 }
  rw [Engine.patch, Engine.patch]
  simp only [same tried, tried.firstHarmless?]
  split
  · exact tried
  · exact (tried.updateValue _ _).count _ _

theorem Mirrors.patchIntegers : Mirrors ρ o p a.patchIntegers b.patchIntegers := by
  rw [Engine.patchIntegers, Engine.patchIntegers, mirrors.fractionalVars, mirrors.kind]
  have patched : Mirrors ρ o p
      ((a.fractionalVars.filter fun v => a.kind v = .nonBase).foldl (Engine.patch Engine.ownMoves) a)
      ((a.fractionalVars.filter fun v => a.kind v = .nonBase).foldl (Engine.patch Engine.ownMoves) b) :=
    .foldl (fun later v => later.patch Mirrors.ownMoves v) _ mirrors
  simp only [patched.fractionalVars, patched.kind]
  exact .foldl (fun later v => later.patch Mirrors.rowMoves v) _ patched

/-! ### Cuts -/

theorem Mirrors.pushRow (base : Var) (form : LinearForm) :
    MirrorsWith ρ o p (a.pushRow base form) (b.pushRow base form) where
  engine := { mirrors with tableau := congrArg (·.addRow base form) mirrors.tableau }
  answer := congrArg (·.rows.size) mirrors.tableau

/-- Adding a cut keeps engines agreeing, if the reasons of the cut are renamed with the nodes. -/
theorem Mirrors.addCut (r : RowId) (cut : Cut) :
    MirrorsWith ρ o p (a.addCut r cut) (b.addCut r (cut.rename ρ)) := by
  obtain ⟨terms, bound, integral, reasons⟩ := cut
  obtain ⟨joined, reason⟩ := mirrors.joinReasons reasons
  show MirrorsWith ρ o p _ (b.addCut r ⟨terms, bound, integral, reasons.map (Option.map ρ)⟩)
  rw [Engine.addCut, Engine.addCut]
  simp only [reason]
  split
  · exact ⟨joined.setConflict _, rfl⟩
  · obtain ⟨added, slack⟩ := joined.mkVar (if integral then .int else .real) .internal
    obtain ⟨withRow, row⟩ := added.pushRow
      ((a.joinReasons reasons).1.mkVar (if integral then .int else .real) .internal).2
      (.ofEntries terms)
    simp only [slack, row]
    exact (((withRow.normalizeRow _).count _ _).trace _ _ _ _).installBound _ _ _ _ _

theorem Mirrors.cutSource? : b.cutSource? = a.cutSource? := by
  have source : b.isCutSource = a.isCutSource := by
    funext row
    unfold isCutSource
    rw [mirrors.stored, mirrors.isInt, mirrors.isAt]
  unfold Engine.cutSource?
  rw [mirrors.tableau, source]

theorem Mirrors.cutOf (row : Row) : b.cutOf row = (a.cutOf row).rename ρ := by
  have terms : b.cutTerm = a.cutTerm := by
    funext f₀ t
    unfold cutTerm
    rw [mirrors.stored, mirrors.isAt, mirrors.isInt]
  unfold Engine.cutOf
  rw [mirrors.stored, mirrors.isInt, terms]
  simp only [mirrors.reasons, Cut.rename]

theorem Mirrors.mayCut (cuts : Nat) : b.mayCut cuts = a.mayCut cuts := by
  rw [Engine.mayCut, Engine.mayCut, mirrors.options, mirrors.integerChecks]

/-! ### Case splits -/

omit mirrors in
theorem chosenCandidate?_eq_none {e : Engine} :
    e.chosenCandidate? = none ↔ e.fractionalVars = [] := by
  rw [chosenCandidate?, Option.or_eq_none_iff, List.head?_eq_none_iff, candidates, List.map_eq_nil_iff]
  constructor
  · exact And.right
  · intro none_there
    rw [none_there]
    exact ⟨Option.bind_eq_none_iff.2 fun _ _ => rfl, rfl⟩

omit mirrors in
theorem value_of_chosenCandidate? {e : Engine} {c : Candidate} (found : e.chosenCandidate? = some c) :
    c.value = e.value c.var := by
  obtain ⟨v, -, rfl⟩ := List.mem_map.1 (mem_of_chosenCandidate? found)
  rfl

/-- Both engines choose a candidate or none does, and on the same variable if the oracles prefer the
same terms. -/
theorem Mirrors.chosenCandidate? : a.chosenCandidate? = none ∧ b.chosenCandidate? = none ∨
    ∃ c d, a.chosenCandidate? = some c ∧ b.chosenCandidate? = some d ∧
      (d.var = c.var → d.value = c.value) ∧ (d.var ≠ c.var → o.prefersTerm ≠ p.prefersTerm) := by
  cases at_a : a.chosenCandidate? with
  | none =>
    rw [chosenCandidate?_eq_none, ← mirrors.fractionalVars, ← chosenCandidate?_eq_none] at at_a
    exact .inl ⟨rfl, at_a⟩
  | some c =>
    cases at_b : b.chosenCandidate? with
    | none =>
      rw [chosenCandidate?_eq_none, mirrors.fractionalVars, ← chosenCandidate?_eq_none, at_a] at at_b
      cases at_b
    | some d =>
      refine .inr ⟨c, d, rfl, rfl, fun same => ?_, fun apart agree => apart ?_⟩
      · rw [value_of_chosenCandidate? at_a, value_of_chosenCandidate? at_b, mirrors.value, same]
      · have candidates : b.candidates = a.candidates := by
          rw [candidates, candidates, mirrors.fractionalVars, mirrors.value, mirrors.term, mirrors.first,
            mirrors.second, agree]
        rw [Engine.chosenCandidate?, candidates, mirrors.selector, ← Engine.chosenCandidate?, at_a] at at_b
        exact congrArg Candidate.var (Option.some.inj at_b).symm

/-- Engines that agree split on the same variable unless their oracles prefer different terms. -/
theorem Mirrors.selectBranch : MirrorsWith ρ o p a.selectBranch b.selectBranch ∨
    (o.prefersTerm ≠ p.prefersTerm ∧ ∃ x y, a.selectBranch.2 = some x ∧ b.selectBranch.2 = some y ∧
      x.var ≠ y.var) := by
  rcases mirrors.chosenCandidate? with ⟨at_a, at_b⟩ | ⟨c, d, at_a, at_b, same, apart⟩
  · rw [Engine.selectBranch, Engine.selectBranch, at_a, at_b]
    exact .inl ⟨mirrors, rfl⟩
  · by_cases var : d.var = c.var
    · obtain ⟨first, down⟩ := mirrors.internAtom c.var .upper c.value.floor
      obtain ⟨second, up⟩ := first.internAtom c.var .lower c.value.ceil
      rw [Engine.selectBranch, Engine.selectBranch, at_a, at_b]
      simp only [var, same var, down, up]
      exact .inl ⟨(second.count _ _).trace _ _ _ _, rfl⟩
    · refine .inr ⟨apart var, ?_⟩
      rw [Engine.selectBranch, Engine.selectBranch, at_a, at_b]
      exact ⟨_, _, rfl, rfl, fun clash => var clash.symm⟩

theorem Mirrors.askBranch : MirrorsWith ρ o p a.askBranch b.askBranch ∨
    (o.prefersTerm ≠ p.prefersTerm ∧ a.askBranch.2.SplitsApart b.askBranch.2) := by
  rw [Engine.askBranch, Engine.askBranch]
  rcases mirrors.selectBranch with agree | ⟨differ, x, y, at_a, at_b, apart⟩
  · obtain ⟨next, next', chosen, at_a, at_b, later⟩ := agree.exists_eq
    rw [at_a, at_b]
    cases chosen <;> exact .inl ⟨later, rfl⟩
  · generalize a.selectBranch = result at at_a ⊢
    generalize b.selectBranch = result' at at_b ⊢
    obtain ⟨next, chosen⟩ := result
    obtain ⟨next', chosen'⟩ := result'
    obtain rfl : chosen = some x := at_a
    obtain rfl : chosen' = some y := at_b
    exact .inr ⟨differ, x, y, rfl, rfl, apart⟩

theorem Mirrors.cutOrBranch (cuts : Nat) : MirrorsWith ρ o p (a.cutOrBranch cuts) (b.cutOrBranch cuts) ∨
    (o.prefersTerm ≠ p.prefersTerm ∧ (a.cutOrBranch cuts).2.SplitsApart (b.cutOrBranch cuts).2) := by
  rw [Engine.cutOrBranch, Engine.cutOrBranch, mirrors.mayCut, mirrors.cutSource?]
  split
  · exact mirrors.askBranch
  · rename_i r row _
    obtain ⟨next, next', added, at_a, at_b, later⟩ := (mirrors.addCut r (a.cutOf row)).exists_eq
    rw [mirrors.cutOf, at_a, at_b]
    cases added <;> exact .inl ⟨later, rfl⟩

/-- The integer reasoning comes to the same outcome in engines that agree, unless it splits and their
oracles prefer different terms. -/
theorem Mirrors.checkIntegers (cuts : Nat) :
    MirrorsWith ρ o p (a.checkIntegers cuts) (b.checkIntegers cuts) ∨
      (o.prefersTerm ≠ p.prefersTerm ∧
        (a.checkIntegers cuts).2.SplitsApart (b.checkIntegers cuts).2) := by
  rw [Engine.checkIntegers, Engine.checkIntegers, mirrors.fractionalVars]
  split
  · exact .inl ⟨mirrors, rfl⟩
  · have counted : Mirrors ρ o p { a with integerChecks := a.integerChecks + 1 }
        { b with integerChecks := b.integerChecks + 1 } :=
      { mirrors with integerChecks := congrArg (· + 1) mirrors.integerChecks }
    obtain ⟨next, next', ok, at_a, at_b, later⟩ :=
      (Mirrors.forEach (fun later r => later.testDivisibility r) a.tableau.rowIds counted).exists_eq
    simp only [mirrors.rowIds, at_a, at_b]
    cases ok with
    | false => exact .inl ⟨later, rfl⟩
    | true =>
      have patched := later.patchIntegers
      simp only [patched.fractionalVars]
      split
      · exact .inl ⟨patched, rfl⟩
      · exact patched.cutOrBranch cuts

end Integers

/-! ## Products -/

theorem Mirrors.refineEach {α : Type} {f g : Engine → α → Engine × Refinement}
    (each : ∀ {a b}, Mirrors ρ o p a b → ∀ x, MirrorsWith ρ o p (f a x) (g b x)) (items : List α)
    (mirrors : Mirrors ρ o p a b) :
    MirrorsWith ρ o p (refineEach f items a) (refineEach g items b) := by
  induction items generalizing a b with
  | nil => exact ⟨mirrors, rfl⟩
  | cons x rest ih =>
    obtain ⟨next, next', outcome, at_a, at_b, later⟩ := (each mirrors x).exists_eq
    obtain ⟨last, last', others, at_next, at_next', final⟩ := (ih later).exists_eq
    rw [Engine.refineEach, Engine.refineEach, at_a, at_b]
    cases outcome with
    | conflict => exact ⟨later, rfl⟩
    | unchanged => simp only [at_next, at_next']; exact ⟨final, rfl⟩
    | tightened => simp only [at_next, at_next']; exact ⟨final, rfl⟩

theorem refineEach_map {α β : Type} (step : Engine → β → Engine × Refinement) (f : α → β)
    (items : List α) (e : Engine) :
    refineEach step (items.map f) e = refineEach (fun e x => step e (f x)) items e := by
  induction items generalizing e with
  | nil => rfl
  | cons x rest ih =>
    rw [List.map_cons, refineEach, refineEach]
    simp only [ih]

section Products

variable (mirrors : Mirrors ρ o p a b)
include mirrors

/-! ### Intervals -/

theorem Mirrors.varInterval : b.varInterval = a.varInterval := by
  funext v
  rw [Engine.varInterval, Engine.varInterval, mirrors.lowerValue, mirrors.upperValue]

theorem Mirrors.productInterval : b.productInterval = a.productInterval := by
  funext factors
  rw [Engine.productInterval, Engine.productInterval, mirrors.varInterval]

theorem Mirrors.boundReasons (vs : List Var) :
    b.boundReasons vs = (a.boundReasons vs).map (Option.map ρ) := mirrors.bothReasons vs

theorem Mirrors.tightenSide (v : Var) (interval : Interval) (reasons : List Dependency)
    (kind : BoundKind) :
    MirrorsWith ρ o p (tightenSide v interval reasons a kind)
      (tightenSide v interval (reasons.map (Option.map ρ)) b kind) := by
  rw [tightenSide.eq_def, tightenSide.eq_def]
  simp only
  split
  · exact ⟨mirrors, rfl⟩
  · rename_i bound _
    simp only [mirrors.roundBound, mirrors.isTighter]
    split
    · obtain ⟨joined, same⟩ :=
        (((mirrors.trace .nonlinear .nonlinear _ _).count _ _).joinReasons reasons)
      rw [same]
      obtain ⟨next, next', ok, at_a, at_b, later⟩ := (joined.installBound v kind
        (a.roundBound v kind bound) _ .derived).exists_eq
      rw [at_a, at_b]
      cases ok <;> exact ⟨later, rfl⟩
    · exact ⟨mirrors, rfl⟩

theorem Mirrors.tighten (v : Var) (interval : Interval) (reasons : List Dependency) :
    MirrorsWith ρ o p (a.tighten v interval reasons)
      (b.tighten v interval (reasons.map (Option.map ρ))) :=
  Mirrors.refineEach (fun later kind => later.tightenSide v interval reasons kind) _ mirrors

theorem Mirrors.boundFactor (m : Monomial) (factor : Var) :
    MirrorsWith ρ o p (boundFactor m a factor) (boundFactor m b factor) := by
  rw [Engine.boundFactor, Engine.boundFactor]
  simp only [mirrors.productInterval, mirrors.varInterval, mirrors.boundReasons]
  split
  · exact ⟨mirrors, rfl⟩
  · exact mirrors.tighten _ _ _

theorem Mirrors.refineMonomial (m : Monomial) :
    MirrorsWith ρ o p (a.refineMonomial m) (b.refineMonomial m) := by
  rw [Engine.refineMonomial, Engine.refineMonomial, boundMonomial, boundMonomial,
    mirrors.productInterval, mirrors.boundReasons]
  obtain ⟨next, next', outcome, at_a, at_b, later⟩ := (mirrors.tighten m.var
    (a.productInterval m.factors) (a.boundReasons m.factors)).exists_eq
  obtain ⟨last, last', others, at_next, at_next', final⟩ :=
    (Mirrors.refineEach (fun later v => later.boundFactor m v) (simpleFactors m) later).exists_eq
  rw [at_a, at_b]
  cases outcome with
  | conflict => exact ⟨later, rfl⟩
  | unchanged => simp only [at_next, at_next']; exact ⟨final, rfl⟩
  | tightened => simp only [at_next, at_next']; exact ⟨final, rfl⟩

theorem Mirrors.refineMonomials : MirrorsWith ρ o p a.refineMonomials b.refineMonomials := by
  rw [Engine.refineMonomials, Engine.refineMonomials, mirrors.monomials]
  exact Mirrors.refineEach (fun later m => later.refineMonomial m) _ mirrors

theorem Mirrors.productTerm : b.productTerm = a.productTerm := by
  funext t
  rw [Engine.productTerm, Engine.productTerm, monomial?, monomial?, mirrors.monomials]

theorem Mirrors.nestedInterval : b.nestedInterval = a.nestedInterval := by
  have rest : b.restInterval = a.restInterval := by
    funext product
    rw [restInterval, restInterval, mirrors.productInterval, mirrors.varInterval]
  funext products shared
  rw [Engine.nestedInterval, Engine.nestedInterval, mirrors.productInterval, mirrors.varInterval, rest]

theorem Mirrors.checkNestedRow (r : RowId) :
    MirrorsWith ρ o p (a.checkNestedRow r) (b.checkNestedRow r) := by
  rw [Engine.checkNestedRow, Engine.checkNestedRow, mirrors.get?]
  split
  · exact ⟨mirrors, rfl⟩
  · simp only [mirrors.productTerm]
    split
    · exact ⟨mirrors, rfl⟩
    · split
      · exact ⟨mirrors, rfl⟩
      · have counted := mirrors.count (fun s => { s with nestedForms := s.nestedForms + 1 })
          fun s => { s with nestedForms := s.nestedForms + 1 }
        simp only [counted.nestedInterval, counted.boundReasons]
        split
        · exact ⟨counted, rfl⟩
        · obtain ⟨joined, same⟩ := counted.joinReasons _
          rw [same]
          exact ⟨(joined.trace _ _ _ _).setConflict _, rfl⟩

theorem Mirrors.checkNestedForms : MirrorsWith ρ o p a.checkNestedForms b.checkNestedForms := by
  rw [Engine.checkNestedForms, Engine.checkNestedForms, mirrors.rowIds]
  exact Mirrors.forEach (fun later r => later.checkNestedRow r) _ mirrors

/-! ### The basis -/

theorem Mirrors.installValue (v : Var) (value : Rat) (reason : Dependency) (kind : BoundKind) :
    MirrorsWith ρ o p (installValue v value reason a kind)
      (installValue v value (reason.map ρ) b kind) := by
  rw [Engine.installValue, Engine.installValue, mirrors.isTighter]
  simp only
  split
  · obtain ⟨next, next', ok, at_a, at_b, later⟩ := ((mirrors.trace .nonlinear .nonlinear
      (fun _ => a.varName v ++ " = " ++ (InfRat.ofRat value).text ++ " from the basis")
      (fun _ => b.varName v ++ " = " ++ (InfRat.ofRat value).text ++ " from the basis")).installBound
        v kind (.ofRat value) reason .derived).exists_eq
    rw [at_a, at_b]
    cases ok <;> exact ⟨later, rfl⟩
  · exact ⟨mirrors, rfl⟩

theorem Mirrors.installAssignment (q : Polynomial) :
    MirrorsWith ρ o p (a.installAssignment q) (b.installAssignment (q.rename ρ)) := by
  have assigned : (q.rename ρ).assignment? = q.assignment? := rfl
  rw [Engine.installAssignment, Engine.installAssignment, assigned]
  split
  · exact ⟨mirrors, rfl⟩
  · obtain ⟨joined, same⟩ := mirrors.joinReasons (q.reasons.map some)
    simp only [Polynomial.reasons_rename, same]
    exact Mirrors.refineEach (fun last kind => last.installValue _ _ _ kind) _ joined

/-- The polynomial of a sum is the same in engines that agree, but for the numbers of nodes in its
reasons. -/
theorem Mirrors.knownPolynomial (terms : List (List Var × Rat)) :
    b.knownPolynomial terms = (a.knownPolynomial terms).rename ρ := by
  have known : b.knownValue? = a.knownValue? := by
    funext v
    rw [knownValue?, knownValue?, mirrors.isFixed, mirrors.lowerValue]
  have substitute : b.substituteKnown = a.substituteKnown := by
    funext factors coeff
    rw [substituteKnown, substituteKnown, known]
  have nodes (ds : List Dependency) :
      (ds.map (Option.map ρ)).filterMap id = (ds.filterMap id).map ρ := by
    rw [List.filterMap_map, List.map_filterMap]
    rfl
  rw [Engine.knownPolynomial, Engine.knownPolynomial, known, substitute, mirrors.boundReasons, nodes,
    SortedSet.ofList_map]
  rfl

theorem Mirrors.basisInput : b.basisInput = a.basisInput.map (Polynomial.rename ρ) := by
  have involved : b.isInvolved = a.isInvolved := by
    funext v
    rw [isInvolved, isInvolved, mirrors.monomials]
  have monomial : b.monomialPolynomial = Polynomial.rename ρ ∘ a.monomialPolynomial :=
    funext fun m => mirrors.knownPolynomial _
  have row : b.rowPolynomial = Polynomial.rename ρ ∘ a.rowPolynomial :=
    funext fun row => mirrors.knownPolynomial _
  rw [Engine.basisInput, Engine.basisInput, mirrors.monomials, mirrors.tableau, involved, monomial, row,
    List.filter_append, List.filter_append, List.map_append]
  simp only [← List.map_map, List.filter_map]
  rfl

/-- The basis step comes to the same outcome in engines that agree. -/
theorem Mirrors.basisStep : MirrorsWith ρ o p a.basisStep b.basisStep := by
  have counted := mirrors.count (fun s => { s with basisSteps := s.basisSteps + 1 })
    fun s => { s with basisSteps := s.basisSteps + 1 }
  rw [Engine.basisStep, Engine.basisStep]
  simp only [counted.basisInput, mirrors.options, Completion.complete_rename]
  generalize Completion.complete a.options.maxBasisSteps _ = completion
  obtain ⟨basis, pairs, steps, refutation⟩ := completion
  cases refutation with
  | some constant =>
    obtain ⟨joined, same⟩ := counted.joinReasons (constant.reasons.map some)
    simp only [Completion.rename, Option.map_some, Polynomial.reasons_rename, same]
    exact ⟨(joined.trace _ _ _ _).setConflict _, rfl⟩
  | none =>
    simp only [Completion.rename, Option.map_none, refineEach_map]
    exact Mirrors.refineEach (fun later q => later.installAssignment q) _ counted

/-! ### Whole passes -/

theorem Mirrors.epsilon : b.epsilon = a.epsilon := by
  have limits : b.epsilonLimits = a.epsilonLimits := by
    funext v
    rw [epsilonLimits, epsilonLimits, mirrors.value, mirrors.lowerValue, mirrors.upperValue]
  rw [Engine.epsilon, Engine.epsilon, mirrors.vars, limits]

theorem Mirrors.model : b.model = a.model := by
  rw [Engine.model, Engine.model, mirrors.epsilon, mirrors.vars, mirrors.value]

theorem Mirrors.wrongMonomials : b.wrongMonomials = a.wrongMonomials := by
  have holds : b.monomialHolds = a.monomialHolds := by
    funext epsilon m
    rw [monomialHolds, monomialHolds, mirrors.value]
  rw [Engine.wrongMonomials, Engine.wrongMonomials, mirrors.epsilon, mirrors.monomials, holds]

theorem Mirrors.repairMonomial (m : Monomial) :
    Mirrors ρ o p (a.repairMonomial m) (b.repairMonomial m) := by
  have product : b.factorProduct? m = a.factorProduct? m := by
    rw [factorProduct?, factorProduct?, mirrors.value]
  rw [Engine.repairMonomial, Engine.repairMonomial, mirrors.kind, product]
  split
  · exact mirrors
  · simp only [mirrors.stored, mirrors.admitsMove]
    split
    · exact (mirrors.trace _ _ _ _).updateValue _ _
    · exact mirrors

theorem Mirrors.repairMonomials : MirrorsWith ρ o p a.repairMonomials b.repairMonomials := by
  rw [Engine.repairMonomials, Engine.repairMonomials, mirrors.wrongMonomials]
  have repaired : Mirrors ρ o p (a.wrongMonomials.foldl Engine.repairMonomial a)
      (a.wrongMonomials.foldl Engine.repairMonomial b) :=
    .foldl (fun later m => later.repairMonomial m) _ mirrors
  exact ⟨repaired, congrArg List.isEmpty repaired.wrongMonomials⟩

theorem Mirrors.intervalRound : MirrorsWith ρ o p a.intervalRound b.intervalRound := by
  obtain ⟨next, next', ok, at_a, at_b, later⟩ := mirrors.checkNestedForms.exists_eq
  rw [Engine.intervalRound, Engine.intervalRound, at_a, at_b]
  cases ok with
  | false => exact ⟨later, rfl⟩
  | true => exact later.refineMonomials

theorem Mirrors.basisRound (pass : NonlinearPass) :
    MirrorsWith ρ o p (a.basisRound pass) (b.basisRound pass) := by
  obtain ⟨next, next', outcome, at_a, at_b, later⟩ := mirrors.basisStep.exists_eq
  rw [Engine.basisRound, Engine.basisRound, mirrors.options, at_a, at_b]
  split
  · cases outcome <;> exact ⟨later, rfl⟩
  · exact ⟨mirrors, rfl⟩

theorem Mirrors.repairOrComplete (pass : NonlinearPass) :
    MirrorsWith ρ o p (a.repairOrComplete pass) (b.repairOrComplete pass) := by
  obtain ⟨next, next', ok, at_a, at_b, later⟩ := mirrors.repairMonomials.exists_eq
  rw [Engine.repairOrComplete, Engine.repairOrComplete, at_a, at_b]
  cases ok with
  | true => exact ⟨later, rfl⟩
  | false => exact later.basisRound pass

theorem Mirrors.checkNonlinear (pass : NonlinearPass) :
    MirrorsWith ρ o p (a.checkNonlinear pass) (b.checkNonlinear pass) := by
  rw [Engine.checkNonlinear, Engine.checkNonlinear, mirrors.wrongMonomials, mirrors.options]
  split
  · exact ⟨mirrors, rfl⟩
  · split
    · obtain ⟨next, next', outcome, at_a, at_b, later⟩ := mirrors.intervalRound.exists_eq
      simp only [at_a, at_b]
      cases outcome with
      | conflict => exact ⟨later, rfl⟩
      | tightened => exact ⟨later, rfl⟩
      | unchanged => exact later.repairOrComplete _
    · exact mirrors.repairOrComplete pass

theorem Mirrors.conflictResult : b.conflictResult = a.conflictResult := by
  rw [Engine.conflictResult, Engine.conflictResult, mirrors.conflict]

end Products

/-! ## Checks -/

/-- A round ends with the case split that integer reasoning asks for. -/
theorem checkRounds_of_branch {e next : Engine} {rounds cuts : Nat} {pass : NonlinearPass}
    {split : CaseSplit} (propagated : e.propagate = (next, true))
    (asks : (next.checkIntegers cuts).2 = .branch split) :
    (checkRounds (rounds + 1) cuts pass e).2 = .branch split := by
  rw [Engine.checkRounds, propagated]
  simp only
  generalize next.checkIntegers cuts = result at asks ⊢
  obtain ⟨asking, outcome⟩ := result
  obtain rfl : outcome = .branch split := asks
  rfl

/-- A check of an engine to which nothing is shared answers as that of one that reports equalities,
unless both ask to split on different variables, which they do only if they prefer different terms. -/
theorem Mirrors.checkRounds {h : History} (rounds cuts : Nat) (pass : NonlinearPass)
    (mirrors : Mirrors ρ o p a b) (inv : a.Invariant h)
    (silent : ∀ term, o.sharesTerm term = false) :
    (∃ σ, MirrorsWith σ o p (checkRounds rounds cuts pass a) (checkRounds rounds cuts pass b)) ∨
      (o.prefersTerm ≠ p.prefersTerm ∧
        (checkRounds rounds cuts pass a).2.SplitsApart (checkRounds rounds cuts pass b).2) := by
  induction rounds generalizing ρ cuts pass a b with
  | zero => exact .inl ⟨ρ, mirrors, rfl⟩
  | succ rounds ih =>
    obtain ⟨σ, agree⟩ := mirrors.propagate inv silent
    obtain ⟨next, next', ok, at_a, at_b, propagated⟩ := agree.exists_eq
    have succeeds := propagated_of_yes inv
    rw [at_a] at succeeds
    cases ok with
    | false =>
      rw [Engine.checkRounds, Engine.checkRounds, at_a, at_b]
      exact .inl ⟨σ, propagated, propagated.conflictResult⟩
    | true =>
      obtain ⟨steps, calm, normalized, -⟩ := succeeds rfl
      have next_inv := steps.invariant inv
      have answers := answers_checkIntegers next_inv normalized cuts
      rcases propagated.checkIntegers cuts with agree | ⟨differ, x, y, asks, asks', apart⟩
      · obtain ⟨integral, integral', outcome, at_next, at_next', later⟩ := agree.exists_eq
        rw [at_next] at answers
        rw [Engine.checkRounds, Engine.checkRounds, at_a, at_b]
        simp only [at_next, at_next']
        have integral_inv := fun yes => (answers.steps yes).invariant next_inv
        cases outcome with
        | conflict => exact .inl ⟨σ, later, later.conflictResult⟩
        | cutAdded => exact ih _ _ later (integral_inv rfl)
        | branch split => exact .inl ⟨σ, later, rfl⟩
        | giveUp => exact .inl ⟨σ, later, rfl⟩
        | feasible =>
          have integral_inv := integral_inv rfl
          have concludes := concludes_checkNonlinear integral_inv pass
          obtain ⟨last, last', ⟨spent, result⟩, at_last, at_last', final⟩ :=
            (later.checkNonlinear pass).exists_eq
          rw [at_last] at concludes
          simp only [later.monomials, at_last, at_last']
          split
          · exact .inl ⟨σ, later, rfl⟩
          · cases result with
            | consistent => exact .inl ⟨σ, final, rfl⟩
            | conflict => exact .inl ⟨σ, final, final.conflictResult⟩
            | progress => exact ih _ _ final ((concludes.answers.steps rfl).invariant integral_inv)
            | giveUp => exact .inl ⟨σ, final, rfl⟩
      · exact .inr ⟨differ, x, y, checkRounds_of_branch at_a asks, checkRounds_of_branch at_b asks',
          apart⟩

theorem Mirrors.check {h : History} (mirrors : Mirrors ρ o p a b) (inv : a.Invariant h)
    (silent : ∀ term, o.sharesTerm term = false) :
    (∃ σ, MirrorsWith σ o p a.check b.check) ∨
      (o.prefersTerm ≠ p.prefersTerm ∧ a.check.2.SplitsApart b.check.2) := by
  have counted := mirrors.count (fun s => { s with checks := s.checks + 1 })
    fun s => { s with checks := s.checks + 1 }
  have counted_inv : (a.count fun s => { s with checks := s.checks + 1 }).Invariant h := inv
  rw [Engine.check, Engine.check, mirrors.options]
  exact counted.checkRounds _ _ _ counted_inv silent

end Engine

end ArithDecide
