import ArithDecide.Proofs.Branches
import ArithDecide.Proofs.Models

/-!
# The first integer variables determine the others

A variable that the engine makes for itself is defined by a row, and an integer variable by a row that
mentions integer variables with integral coefficients only. So all integer variables are integral as
soon as those are that were there before, which is `Steps.determined`. If a feasible assignment has a
fractional value, it thus has one among the first variables, and the smallest fractional variable is one
of them: `exists_fractional_lt` and `chosen_of_firstFractional`.
-/

namespace ArithDecide

/-- A value is an integer if it is one whatever is put in for the infinitesimal. -/
theorem InfRat.eq_ofRat_of_evaluate {a : InfRat} (integral : ∀ t : Rat, ∃ n : Int, a.evaluate t = n) :
    ∃ n : Int, a = .ofRat n := by
  obtain ⟨n, at_zero⟩ := integral 0
  rw [evaluate, mul_zero, add_zero] at at_zero
  refine ⟨n, InfRat.ext at_zero ?_⟩
  by_contra some_eps
  -- the infinitesimal part contributes a half
  obtain ⟨m, at_half⟩ := integral (1 / (2 * a.eps))
  have half : a.eps * (1 / (2 * a.eps)) = 1 / 2 := by
    rw [one_div, mul_inv, mul_comm, mul_assoc, inv_mul_cancel₀ some_eps, mul_one, one_div]
  rw [evaluate, half, at_zero] at at_half
  have doubled : (2 * n + 1 : Rat) = 2 * m := by linarith
  norm_cast at doubled
  omega

namespace Engine

open State

variable {e next : Engine} {h : History} {n : Nat} {v : Var}

/-- An assignment that satisfies the rows is integral on all integer variables if it is on the first
ones. -/
def State.Determined (s : State) (n : Nat) : Prop :=
  ∀ α : Var → Rat, s.tableau.Holds α →
    (∀ v, v < n → s.isInt v = true → ∃ k : Int, α v = k) →
    ∀ v, s.isInt v = true → ∃ k : Int, α v = k

theorem State.determined_numVars (s : State) : s.Determined s.numVars :=
  fun _ _ first v integer => first v (isInt_lt integer) integer

theorem State.Determined.congr {s t : State} (determined : s.Determined n)
    (columns : t.columns = s.columns)
    (rows : ∀ α : Var → Rat, t.tableau.Holds α → s.tableau.Holds α) : t.Determined n := by
  have isInt := isInt_congr columns
  intro α holds first v integer
  exact determined α (rows α holds) (fun w lt is_int => first w lt ((isInt w).trans is_int)) v
    ((isInt v).symm.trans integer)

theorem columns_normalizeRow (e : Engine) (r : RowId) : (e.normalizeRow r).columns = e.columns := by
  obtain ⟨mid, becomes, only⟩ := valuesOnly_normalizeRow e r
  rw [only.columns, becomes.toState]

/-! ## Propagation adds no variables -/

theorem columns_setConflict (e : Engine) (d : Dependency) : (e.setConflict d).columns = e.columns := by
  rw [setConflict]
  split <;> rfl

theorem columns_installBound (e : Engine) (v : Var) (kind : BoundKind) (value : InfRat)
    (reason : Dependency) (origin : BoundOrigin) :
    (e.installBound v kind value reason origin).1.columns = e.columns := by
  rw [installBound]
  cases e.bounds.assert ⟨v, kind, e.roundBound v kind value, reason, origin⟩ with
  | conflict opposite => exact columns_setConflict _ _
  | unchanged store => rfl
  | tightened store =>
    exact afterTightening_congr State.columns (fun _ _ _ _ _ _ _ _ => rfl) _ v kind _ origin

theorem columns_installLiteral (e : Engine) (l : Literal) :
    (e.installLiteral l).1.columns = e.columns := by
  rw [installLiteral]
  split
  · rfl
  · exact columns_installBound _ _ _ _ _ _

theorem columns_installQueued (count : Nat) (e : Engine) :
    (installQueued count e).1.columns = e.columns := by
  induction count generalizing e with
  | zero => rfl
  | succ count ih =>
    rw [installQueued]
    split
    · rfl
    · rename_i l atoms _
      have installed := columns_installLiteral { e with atoms := atoms } l
      generalize ({ e with atoms := atoms } : Engine).installLiteral l = result at installed ⊢
      obtain ⟨next, ok⟩ := result
      cases ok with
      | true => exact (ih next).trans installed
      | false => exact installed

/-- A repair brings in no variable: it exchanges those that are there. -/
theorem columns_repair (pivots : Nat) (e : Engine) : (repair pivots e).1.columns = e.columns := by
  induction pivots generalizing e with
  | zero =>
    rw [repair]
    split
    · rfl
    · simp only
      split
      · rfl
      · split
        · exact columns_setConflict _ _
        · rfl
  | succ pivots ih =>
    rw [repair]
    split
    · rfl
    · simp only
      split
      · rfl
      · split
        · exact columns_setConflict _ _
        · exact (ih _).trans (columns_pivotAndUpdate _ _ _ _)

theorem columns_impliedBound (terms : List (Var × Rat)) (side : BoundKind) (sum : RowSum)
    (e : Engine) (t : Var × Rat) : (impliedBound terms side sum e t).1.columns = e.columns := by
  rw [impliedBound]
  split
  · rfl
  · simp only
    split
    · exact columns_installBound _ _ _ _ _ _
    · rfl

theorem columns_impliedBoundsOf (e : Engine) (r : RowId) :
    (e.impliedBoundsOf r).1.columns = e.columns := by
  rw [impliedBoundsOf]
  split
  · rfl
  · rename_i row _
    refine congr_forEach (fun e : Engine => e.columns) (fun mid t => ?_) _ _
    have first := columns_impliedBound row.zeroTerms .lower (e.rowSum row.zeroTerms .lower) mid t
    split
    · rename_i next done
      rw [done] at first
      exact (columns_impliedBound _ _ _ next t).trans first
    · rename_i next done
      rw [done] at first
      exact first

/-- Deriving bounds from rows brings in no variable. -/
theorem columns_propagateRows (e : Engine) : e.propagateRows.1.columns = e.columns := by
  rw [propagateRows]
  split
  · rfl
  · have derived : e.propagateImpliedBounds.1.columns = e.columns :=
      congr_forEach (fun e : Engine => e.columns) columns_impliedBoundsOf _ _
    generalize e.propagateImpliedBounds = result at derived ⊢
    obtain ⟨next, ok⟩ := result
    cases ok with
    | false => exact derived
    | true =>
      simp only
      split
      · exact derived
      · exact (columns_repair _ _).trans derived

/-- Propagation brings in no variable, as its exchanges, bounds and equalities are about those that are
there. -/
theorem columns_propagate (e : Engine) : e.propagate.1.columns = e.columns := by
  rw [propagate]
  split
  · rfl
  · have normalized : e.normalizePendingRows.columns = e.columns :=
      congr_foldl (fun e : Engine => e.columns) columns_normalizeRow _ _
    have installed := (columns_installQueued e.normalizePendingRows.atoms.queued.length _).trans
      normalized
    simp only
    generalize installQueued _ e.normalizePendingRows = result at installed ⊢
    obtain ⟨mid, ok⟩ := result
    cases ok with
    | false => exact installed
    | true =>
      have repaired : mid.makeFeasible.1.columns = e.columns :=
        (columns_repair _ _).trans installed
      simp only
      generalize mid.makeFeasible = result at repaired ⊢
      obtain ⟨mid, ok⟩ := result
      cases ok with
      | false => exact repaired
      | true =>
        have derived := (columns_propagateRows mid).trans repaired
        simp only
        generalize mid.propagateRows = result at derived ⊢
        obtain ⟨mid, ok⟩ := result
        cases ok with
        | false => exact derived
        | true =>
          obtain ⟨arena, pairs, waiting, reported⟩ := toState_propagateFixedEqualities mid
          exact (congrArg State.columns reported).trans derived

/-! ## What defines the later variables -/

/-- Steps other than the definition of a variable leave the variables alone. -/
theorem Step.columns (step : Step h e next) : next.columns = e.columns ∨
    ∃ (sort : NumSort) (form : LinearForm),
      (sort = .int → ∀ v, form.coeff v ≠ 0 → e.isInt v = true ∧ ∃ n : Int, form.coeff v = n) ∧
      next.columns = e.columns.push ⟨sort, .internal⟩ ∧
      ∀ α : Var → Rat, next.tableau.Holds α → α e.numVars = form.combine α := by
  cases step with
  | quiet becomes => exact .inl (by rw [becomes.toState])
  | depend arena nodes closed becomes => exact .inl (by rw [becomes.toState])
  | verdict status before feasible becomes => exact .inl (by rw [becomes.toState])
  | touch touched becomes => exact .inl (by rw [becomes.toState])
  | handOut a atom sign reason found decided becomes => exact .inl (by rw [becomes.toState])
  | report pair report becomes => exact .inl (by rw [becomes.toState])
  | note v kind becomes => exact .inl (by rw [becomes.toState])
  | tighten b store touched mid ok done becomes moved =>
    exact .inl (by rw [moved, (valuesOnly_respectBound _ _ _ _).columns, becomes.toState])
  | move v delta lt free admits moved =>
    exact .inl (by rw [moved, (valuesOnly_updateValue _ _ _).columns])
  | normalize r moved => exact .inl (by rw [moved, columns_normalizeRow])
  | relax vs dropped becomes => exact .inl (by rw [becomes.toState])
  | exchange violation rest row entering _ first found occurs moved =>
    exact .inl (by rw [moved, columns_pivotAndUpdate])
  | dequeue l atoms taken becomes => exact .inl (by rw [becomes.toState])
  | intern v kind threshold lt becomes => exact .inl (by rw [becomes.toState])
  | define sort form mid var_lt integral becomes moved =>
    refine .inr ⟨sort, form, integral, ?_, fun α holds => ?_⟩
    · rw [moved, columns_normalizeRow, becomes.toState]
      rfl
    · rw [moved] at holds
      have before := (keeps_normalizeRow mid e.numRows).rows α holds
      rw [becomes.toState] at before
      exact ((Tableau.holds_addRow e.numVars form α).1 before).2

/-- No step brings in an integer variable that the first ones do not determine. -/
theorem Step.determined (step : Step h e next) (inv : e.Invariant h) (determined : e.Determined n) :
    next.Determined n := by
  have keeps := step.keeps inv
  intro α holds first
  have before : ∀ v, e.isInt v = true → ∃ k : Int, α v = k :=
    determined α (keeps.rows α holds) fun v lt integer =>
      first v lt ((keeps.isInt v (isInt_lt integer)).trans integer)
  rcases step.columns with same | ⟨sort, form, integral, pushed, defined⟩
  · intro v integer
    exact before v ((isInt_congr same v).symm.trans integer)
  · intro v integer
    have new : next.isInt v = (e.toState.withVar ⟨sort, .internal⟩).isInt v := isInt_congr pushed v
    rw [new, isInt_withVar] at integer
    split at integer
    · rename_i here
      rw [here, defined α holds]
      refine LinearForm.exists_int_combine_of_coeffs fun w occurs => ?_
      obtain ⟨is_int, coefficient⟩ := integral (of_decide_eq_true integer) w occurs
      exact ⟨coefficient, before w is_int⟩
    · exact before v integer

theorem Steps.determined (steps : Steps h e next) (inv : e.Invariant h)
    (determined : e.Determined n) : next.Determined n := by
  induction steps with
  | refl => exact determined
  | tail before step ih => exact step.determined (Steps.invariant before inv) ih

/-- If some value of a feasible assignment is fractional, the value of one of the first variables is. -/
theorem exists_fractional_lt (determined : e.Determined n) (feasible : e.Feasible)
    (fractional : v ∈ e.fractionalVars) : ∃ w ∈ e.fractionalVars, w < n := by
  by_contra none_below
  have first (w : Var) (lt : w < n) (integer : e.isInt w = true) :
      ∃ k : Int, e.stored w = .ofRat k := by
    rw [← InfRat.isInteger_iff, ← feasible.value]
    by_contra not_integer
    refine none_below ⟨w, mem_fractionalVars.2 ?_, lt⟩
    rw [isFractional, integer, Bool.eq_false_iff.2 not_integer]
    rfl
  have everywhere (w : Var) (integer : e.isInt w = true) (t : Rat) :
      ∃ k : Int, (e.stored w).evaluate t = k := by
    refine determined (e.valuesAt t) (rows_valuesAt feasible t) (fun u lt is_int => ?_) w integer
    obtain ⟨k, value⟩ := first u lt is_int
    exact ⟨k, by rw [valuesAt, value, InfRat.evaluate_ofRat]⟩
  have integral : e.Integral := fun w integer =>
    InfRat.isInteger_iff.2 (InfRat.eq_ofRat_of_evaluate (everywhere w integer))
  rw [(integral_iff feasible.normalized).2 integral] at fractional
  cases fractional

/-- The selector that names the smallest candidate gets it. -/
theorem chosen_of_firstFractional {c : Candidate} (chosen : e.chosenCandidate? = some c)
    (first : e.selector = .firstFractional) : ∀ w ∈ e.fractionalVars, c.var ≤ w := by
  intro w member
  cases named : e.selector e.candidates with
  | none =>
    exact chosen_of_foreign chosen (fun v other => by rw [named] at other; cases other) w member
  | some v =>
    have least := named
    rw [first, Selector.firstFractional, vars_candidates, List.min?_eq_some_iff] at least
    rw [chosen_of_named chosen named least.1]
    exact least.2 w member

end Engine

end ArithDecide
