import ArithDecide.Guarded.Integers
import ArithDecide.Proofs.GuardedBounds
import ArithDecide.Proofs.Integers
import ArithDecide.Proofs.Splitting

/-!
# Integer reasoning never fails

A divisibility test blames bounds of fixed and of confined variables, and a cut blames the bounds that
the variables of its row sit on, so all these bounds exist. The terms of a row are not zero, and neither
is the fractional part of the value that a cut is made for, nor its distance from one.
-/

namespace ArithDecide.Engine

open State

variable {e next : Engine} {h : History} {v : Var} {scaled : ScaledRow} {row : Row}

/-! ## Divisibility tests -/

theorem guarded_fixedReasons {vs : List Var}
    (confined : ∀ v ∈ vs, ∀ kind, (e.bounds.get v kind).isSome = true) :
    Guarded.fixedReasons e vs = .ok (e.fixedReasons vs) := by
  rw [fixedReasons_eq, Guarded.fixedReasons]
  refine guarded_reasons fun u member => ?_
  obtain ⟨v, at_v, member⟩ := List.mem_flatMap.1 member
  have present := confined v at_v
  rcases List.mem_pair.1 member with rfl | rfl
  · exact present .lower
  · exact present .upper

/-- The extended test does not fail: the variables that it takes as fixed have both bounds. -/
theorem guarded_extendedRefutation?
    (fixed : ∀ v ∈ scaled.fixed, ∀ kind, (e.bounds.get v kind).isSome = true) :
    Guarded.extendedRefutation? e scaled = .ok (e.extendedRefutation? scaled) := by
  rw [Guarded.extendedRefutation?, extendedRefutation?]
  simp only
  generalize (scaled.free.filter fun t => decide (some t.2.natAbs = scaled.least?)) = confined
  generalize gcdOfInts _ = divisor
  split
  · rename_i applies
    obtain ⟨all_confined, large⟩ := Bool.and_eq_true_iff.1 applies
    have positive : (divisor : Rat) ≠ 0 :=
      Nat.cast_ne_zero.2 (Nat.ne_zero_of_lt (of_decide_eq_true large))
    have confined_reasons : Guarded.fixedReasons e (confined.map Prod.fst) =
        .ok (e.fixedReasons (confined.map Prod.fst)) := by
      refine guarded_fixedReasons fun v member => ?_
      obtain ⟨t, at_t, rfl⟩ := List.mem_map.1 member
      exact isSome_of_isConfined (List.all_eq_true.1 all_confined t at_t)
    rw [demand_of positive, guarded_fixedReasons fixed, confined_reasons]
    split <;> rfl
  · rfl

theorem guarded_divisibilityRefutation?
    (fixed : ∀ v ∈ scaled.fixed, ∀ kind, (e.bounds.get v kind).isSome = true) :
    Guarded.divisibilityRefutation? e scaled = .ok (e.divisibilityRefutation? scaled) := by
  rw [Guarded.divisibilityRefutation?, divisibilityRefutation?]
  split
  · exact guarded_extendedRefutation? fixed
  · rw [guarded_fixedReasons fixed]
    rfl

/-- The divisibility tests of a row run without failing: no coefficient is zero, so neither is any
divisor. -/
theorem runs_testDivisibility (inv : e.Invariant h) (r : RowId) :
    Runs e (Guarded.testDivisibility e r) (e.testDivisibility r) (e.testDivisibility r).1 := by
  rw [Guarded.testDivisibility, testDivisibility]
  cases found : ((e.tableau.get? r).filter fun row => !row.pending).bind e.scaleRow? with
  | none => exact .pure (.refl e) _
  | some scaled =>
    obtain ⟨row, -, scaled_row⟩ := Option.bind_eq_some_iff.1 found
    generalize tested_eq : (e.count fun s => { s with gcdTests := s.gcdTests + 1 }) = tested
    have same : SameStore e tested := by
      rw [← tested_eq]
      exact ⟨rfl, rfl, rfl⟩
    have inv : tested.Invariant h := by
      rw [← tested_eq]
      exact inv
    have fixed : ∀ v ∈ scaled.fixed, ∀ kind, (tested.bounds.get v kind).isSome = true := by
      rw [← tested_eq]
      exact isSome_of_scaleRow? scaled_row
    simp only
    refine .start ((Runs.lift (guarded_divisibilityRefutation? fixed)).bind ?_) same
    cases refutation : tested.divisibilityRefutation? scaled with
    | none => exact .pure (.refl _) _
    | some reasons =>
      obtain ⟨reasons_eq, -⟩ := refuted_of_divisibility inv.founded.formed.bounds refutation
      have names : ∀ d ∈ reasons, tested.dependencies.Names d :=
        reasons_eq ▸ inv.explained.names_reasonsOf scaled.blamed
      exact (runs_joinReasons names).bind (Runs.bind
        (.start (runs_conflictJoined inv.explained names (by rfl)) ⟨rfl, rfl, rfl⟩)
        (.pure (.refl _) (_, false)))

/-! ## Patching -/

theorem sameStore_patch (moves : Engine → Var → List (Var × InfRat)) (e : Engine) (v : Var) :
    SameStore e (patch moves e v) := by
  rw [patch]
  generalize tried_eq : (e.count fun s => { s with patches := s.patches + 1 }) = tried
  have same : SameStore e tried := by
    rw [← tried_eq]
    exact ⟨rfl, rfl, rfl⟩
  split
  · exact same
  · rename_i moved delta _
    exact (same.trans (valuesOnly_updateValue tried moved delta).sameStore).trans ⟨rfl, rfl, rfl⟩

theorem sameStore_foldl_patch (moves : Engine → Var → List (Var × InfRat)) (vs : List Var)
    (e : Engine) : SameStore e (vs.foldl (patch moves) e) := by
  induction vs generalizing e with
  | nil => exact .refl e
  | cons v rest ih => exact (sameStore_patch moves e v).trans (ih _)

theorem runs_patchBase (e : Engine) (base : Var) :
    Runs e (Guarded.patchBase e base) (patch rowMoves e base) (patch rowMoves e base) :=
  .demanded (fun row _ t member _ => row.form.nonzero t member) (.pure (sameStore_patch rowMoves e base) _)

theorem runs_patchIntegers (e : Engine) :
    Runs e (Guarded.patchIntegers e) e.patchIntegers e.patchIntegers :=
  .start (runs_foldlM (P := fun _ => True) trivial fun next _ base _ =>
    ⟨trivial, runs_patchBase next base⟩) (sameStore_foldl_patch ownMoves _ e)

/-! ## Cuts and case splits -/

/-- Making a cut does not fail: the source was chosen with a fractional value and with a bound under
every term. -/
theorem guarded_cutOf (source : e.isCutSource row = true) :
    Guarded.cutOf e row = .ok (e.cutOf row) := by
  obtain ⟨f₀, f₀_eq⟩ : ∃ f₀, fractionalPart (e.stored row.base).real = f₀ := ⟨_, rfl⟩
  have positive : 0 < f₀ := f₀_eq ▸ fractionalPart_pos_of_isCutSource source
  have below : f₀ < 1 := f₀_eq ▸ fractionalPart_lt_one _
  have present : ∀ u ∈ e.cutUses f₀ row, (e.bounds.get u.1 u.2).isSome = true := by
    intro u member
    obtain ⟨t, at_t, rfl⟩ := List.mem_map.1 member
    obtain ⟨b, active, -⟩ := Option.map_eq_some_iff.1 (value_of_isCutSource source f₀ at_t)
    exact Option.isSome_of_eq_some active
  have reasons_eq : (e.cutOf row).reasons = e.reasonsOf (e.cutUses f₀ row) := by
    simp [cutOf, reasonsOf, cutUses, cutTerm, f₀_eq]
  rw [Guarded.cutOf]
  simp only [f₀_eq]
  rw [demand_of ⟨positive.ne', sub_ne_zero.2 below.ne'⟩]
  show (Guarded.reasons e (e.cutUses f₀ row) >>= fun used => _) = _
  rw [guarded_reasons present, ← reasons_eq]
  rfl

theorem runs_internAtom (explained : e.Explained) (v : Var) (kind : BoundKind) (threshold : Rat) :
    Runs e (Guarded.internAtom e v kind threshold) (e.internAtom v kind threshold)
      (e.internAtom v kind threshold).1 := by
  rw [Guarded.internAtom, internAtom]
  cases e.atoms.find? v kind threshold with
  | some a => exact .pure (.refl e) _
  | none =>
    have added : ({ e with atoms := e.atoms.add v kind threshold } : Engine).Explained :=
      explained.congr rfl rfl
    exact Runs.bind (.start (runs_propagateAtom added _) ⟨rfl, rfl, rfl⟩) (.pure (.refl _) _)

theorem Explained.internAtom (explained : e.Explained) (v : Var) (kind : BoundKind) (threshold : Rat) :
    (e.internAtom v kind threshold).1.Explained := by
  obtain ⟨atoms, propagations, toState⟩ := internAtom_toState e v kind threshold
  exact explained.congr (by rw [toState]) (by rw [toState])

theorem runs_selectBranch (explained : e.Explained) :
    Runs e (Guarded.selectBranch e) e.selectBranch e.selectBranch.1 := by
  rw [Guarded.selectBranch, selectBranch]
  cases e.chosenCandidate? with
  | none => exact .pure (.refl e) _
  | some c =>
    refine (runs_internAtom explained c.var .upper c.value.floor).bind ?_
    refine (runs_internAtom (explained.internAtom c.var .upper c.value.floor) c.var .lower
      c.value.ceil).bind ?_
    exact .pure ⟨rfl, rfl, rfl⟩ _

theorem runs_askBranch (explained : e.Explained) :
    Runs e (Guarded.askBranch e) e.askBranch e.askBranch.1 := by
  rw [Guarded.askBranch, askBranch]
  refine (runs_selectBranch explained).bind ?_
  generalize e.selectBranch = result
  obtain ⟨next, chosen⟩ := result
  cases chosen with
  | none => exact .pure (.refl _) _
  | some split => exact .pure (.refl _) _

end ArithDecide.Engine
