import ArithDecide.Proofs.RowSums

/-!
# Propagation is sound

Every bound that a row implies follows from the bounds whose reasons it is given. The sums of a row are
computed once while its terms are inspected one after another, so some bounds are tighter by the time a
term is reached; what was computed before is then weaker than it could be, but still right.
-/

namespace ArithDecide.Engine

open State

variable {e next : Engine} {h : History} {side : BoundKind} {t : Var × Rat}
  {terms : List (Var × Rat)}

/-! ## The bound of one term -/

theorem opposite_turned_inv {c : Rat} (nonzero : c ≠ 0) (side : BoundKind) :
    (side.turned c).opposite.turned c⁻¹ = side.opposite := by
  rcases lt_or_gt_of_ne nonzero with negative | positive
  · simp [BoundKind.turned, not_lt.2 negative.le]
  · simp [BoundKind.turned, positive]

/-- The bounds that limit all terms but one. -/
def otherBounds (terms : List (Var × Rat)) (side : BoundKind) (t : Var × Rat) :
    List (Var × BoundKind) :=
  (terms.filter fun other => other.1 ≠ t.1).map fun other => (other.1, limitingKind other.2 side)

/-- When a sum of terms is zero, the bounds of all terms but one bound that one from the other side. -/
theorem admits_implied {rest : InfRat} {α : Var → Rat} (inv : next.Invariant h)
    (keeps : e.Keeps next.toState) (distinct : terms.Pairwise fun s t => s.1 ≠ t.1)
    (member : t ∈ terms) (nonzero : t.2 ≠ 0)
    (found : next.sumWithout (e.rowSum terms side) t side = some rest)
    (zero : (terms.map fun other => (InfRat.ofRat (α other.1)).scale other.2).sum = 0)
    (respects : next.Respects α (otherBounds terms side t)) :
    (limitingKind t.2 side).opposite.admits ((-rest).divide t.2) (.ofRat (α t.1)) = true := by
  obtain ⟨bounded, limit⟩ := sumWithout_spec keeps distinct member found
  have others : side.admits ((terms.filter fun other => other.1 ≠ t.1).map fun other =>
        (e.termExtreme other side).getD 0).sum
      ((terms.filter fun other => other.1 ≠ t.1).map fun other =>
        (InfRat.ofRat (α other.1)).scale other.2).sum = true := by
    refine BoundKind.admits_sum fun other at_others => ?_
    obtain ⟨at_other, apart⟩ := List.mem_filter.1 at_others
    obtain ⟨x, extreme⟩ := bounded other at_other (of_decide_eq_true apart)
    obtain ⟨b, at_b, rfl⟩ := termExtreme_eq_some extreme
    obtain ⟨active, at_active, tighter⟩ :=
      keeps.covers _ _ _ ⟨b, at_b, BoundKind.admits_refl _ _⟩
    have holds : active.kind.admits active.value (.ofRat (α active.var)) = true :=
      respects _ (List.mem_map_of_mem at_others) active at_active
    obtain ⟨-, var_eq, kind_eq⟩ := inv.founded.formed.bounds.active at_active
    rw [var_eq, kind_eq] at holds
    rw [extreme, Option.getD_some]
    exact BoundKind.admits_scale (BoundKind.admits_trans tighter holds)
  have split := sum_split (fun other => (InfRat.ofRat (α other.1)).scale other.2) distinct member
  rw [zero] at split
  rw [eq_neg_of_add_eq_zero_right split.symm] at others
  have own := BoundKind.admits_neg (BoundKind.admits_trans limit others)
  rw [neg_neg, ← opposite_turned_inv nonzero side] at own
  have divided := BoundKind.admits_scale own
  rwa [InfRat.scale_scale, mul_inv_cancel₀ nonzero, InfRat.scale_one,
    ← InfRat.divide_eq_scale] at divided

/-! ## Rows -/

theorem distinct_zeroTerms {row : Row} (own : row.form.coeff row.base = 0) :
    row.zeroTerms.Pairwise fun s t => s.1 ≠ t.1 := by
  refine List.pairwise_cons.2 ⟨fun t member same => ?_, row.form.increasing.imp Nat.ne_of_lt⟩
  obtain ⟨coeff_eq, nonzero⟩ := LinearForm.mem_terms_iff.1 member
  exact nonzero (by rw [← coeff_eq, ← same, own])

theorem nonzero_of_mem_zeroTerms {row : Row} (member : t ∈ row.zeroTerms) : t.2 ≠ 0 := by
  rcases List.mem_cons.1 member with rfl | later
  · norm_num
  · exact row.form.nonzero t later

theorem sum_zeroTerms {row : Row} {α : Var → Rat} (holds : row.Holds α) :
    (row.zeroTerms.map fun t => (InfRat.ofRat (α t.1)).scale t.2).sum = 0 := by
  have combined : (row.form.terms.map fun t => (InfRat.ofRat (α t.1)).scale t.2).sum =
      .ofRat (α row.base) := by
    rw [holds, ← InfRat.ofRatHom_apply, LinearForm.combine_map]
    rfl
  rw [Row.zeroTerms, List.map_cons, List.sum_cons, combined, InfRat.neg_scale, InfRat.scale_one,
    neg_add_cancel]

theorem lt_of_mem_zeroTerms {r : RowId} {row : Row} (formed : e.Formed)
    (found : e.tableau.get? r = some row) (member : t ∈ row.zeroTerms) : t.1 < e.numVars := by
  rcases List.mem_cons.1 member with rfl | later
  · exact formed.tableau.base_lt found
  · exact formed.tableau.var_lt found
      (LinearForm.mentions_iff.1 (LinearForm.mentions_of_mem later))

/-- All active bounds hold when all installed ones do. -/
theorem respects_of_records {α : Var → Rat} (inv : e.Invariant h)
    (holds : ∀ c ∈ e.bounds.records, c.Holds α) (uses : List (Var × BoundKind)) :
    e.Respects α uses :=
  fun _ _ b found => holds b (inv.founded.formed.bounds.active found).1

/-- The bound that a row implies for one of its terms is installed with the reasons of the bounds that
imply it. -/
theorem answers_impliedBound {r : RowId} {row : Row} (inv : e.Invariant h)
    (later : Steps h e next) (found : e.tableau.get? r = some row) (member : t ∈ row.zeroTerms)
    (side : BoundKind) :
    Answers h next (impliedBound row.zeroTerms side (e.rowSum row.zeroTerms side) next t) := by
  have next_inv := later.invariant inv
  have keeps := later.keeps inv
  have distinct := distinct_zeroTerms (inv.founded.formed.tableau.own found)
  rw [impliedBound]
  split
  · exact .yes .refl
  · rename_i rest sum_found
    simp only
    split
    · have implied (α : Var → Rat) (rows : next.tableau.Holds α)
          (respects : next.Respects α (otherBounds row.zeroTerms side t)) :
          (limitingKind t.2 side).opposite.admits ((-rest).divide t.2) (.ofRat (α t.1)) = true :=
        admits_implied next_inv keeps distinct member (nonzero_of_mem_zeroTerms member) sum_found
          (sum_zeroTerms (keeps.rows α rows r row found)) respects
      have reasons_eq : ((row.zeroTerms.filter fun other => other.1 ≠ t.1).map fun other =>
          next.bounds.reason other.1 (limitingKind other.2 side)) =
          next.reasonsOf (otherBounds row.zeroTerms side t) := by
        simp [reasonsOf, otherBounds]
      rw [reasons_eq]
      refine answers_derived next_inv (otherBounds row.zeroTerms side t) ⟨rfl, rfl⟩
        (Nat.lt_of_lt_of_le (lt_of_mem_zeroTerms inv.founded.formed found member) keeps.numVars)
        (by simp) (fun α solves respects => ?_) ?_
      · exact (admits_roundBound (solves.integral t.1) _ _).trans (implied α solves.rows respects)
      · rw [roundBound]
        split
        · exact .inl (BoundKind.coherent_ofRat _ _)
        · exact .inr fun α rows holds =>
            implied α rows (respects_of_records next_inv holds _)
    · exact .yes .refl

theorem answers_impliedBoundsOf (inv : e.Invariant h) (r : RowId) :
    Answers h e (e.impliedBoundsOf r) := by
  rw [impliedBoundsOf]
  split
  · exact .yes .refl
  · rename_i row filtered
    have found := (Option.filter_eq_some_iff.1 filtered).1
    refine answers_forEach fun next steps t member => ?_
    exact (answers_impliedBound inv steps found member .lower).bind fun last later _ =>
      answers_impliedBound inv (steps.trans later) found member .upper

theorem answers_propagateImpliedBounds (inv : e.Invariant h) :
    Answers h e e.propagateImpliedBounds := by
  have touched : Step h e { e with touched := [] } := .touch [] ⟨rfl, rfl⟩
  rw [propagateImpliedBounds]
  refine Answers.after touched.steps (answers_forEach fun next steps r _ => ?_)
  exact answers_impliedBoundsOf (steps.invariant (touched.invariant inv)) r

/-! ## Equalities between fixed variables -/

theorem steps_reportEquality (inv : e.Invariant h) (v : Var) : Steps h e (e.reportEquality v) := by
  rw [reportEquality]
  split
  · exact .refl
  · simp only
    split
    · exact .refl
    · rename_i w _
      have j := joined_reasonsOf inv [(w, .lower), (w, .upper), (v, .lower), (v, .upper)]
      exact j.steps.tail (.report _ _ ⟨rfl, rfl⟩)

theorem steps_foldl_reportEquality (inv : e.Invariant h) (vs : List Var) :
    Steps h e (vs.foldl reportEquality e) := by
  induction vs generalizing e with
  | nil => exact .refl
  | cons v rest ih =>
    have first := steps_reportEquality inv v
    exact first.trans (ih (first.invariant inv))

theorem steps_propagateFixedEqualities (inv : e.Invariant h) :
    Steps h e e.propagateFixedEqualities :=
  steps_foldl_reportEquality inv e.vars

/-- Reporting equalities changes reasons and reports only. -/
theorem toState_reportEquality (e : Engine) (v : Var) : ∃ arena pairs waiting,
    (e.reportEquality v).toState =
      { e.toState with dependencies := arena, reported := pairs, equalities := waiting } := by
  rw [reportEquality]
  split
  · exact ⟨_, _, _, rfl⟩
  · simp only
    split <;> exact ⟨_, _, _, rfl⟩

theorem toState_propagateFixedEqualities (e : Engine) : ∃ arena pairs waiting,
    e.propagateFixedEqualities.toState =
      { e.toState with dependencies := arena, reported := pairs, equalities := waiting } := by
  rw [propagateFixedEqualities]
  induction e.vars generalizing e with
  | nil => exact ⟨_, _, _, rfl⟩
  | cons v rest ih =>
    obtain ⟨arena, pairs, waiting, same⟩ := ih (e.reportEquality v)
    obtain ⟨_, _, _, first⟩ := toState_reportEquality e v
    exact ⟨arena, pairs, waiting, by rw [List.foldl_cons, same, first]⟩

/-- Reporting equalities does not touch the assignment. -/
theorem toPatch_propagateFixedEqualities (e : Engine) :
    e.propagateFixedEqualities.toPatch = e.toPatch := by
  obtain ⟨_, _, _, same⟩ := toState_propagateFixedEqualities e
  rw [same]

/-! ## Asserted literals -/

theorem coherent_bound (atom : Atom) (negative : Bool) :
    (atom.bound negative).1.Coherent (atom.bound negative).2 := by
  obtain ⟨var, kind, threshold, assignment, propagated⟩ := atom
  cases kind <;> cases negative <;> simp [Atom.bound, BoundKind.Coherent, BoundKind.opposite]

/-- The bound of an asserted literal may be offered with the literal as its reason. -/
theorem offered_literal (inv : e.Invariant h) {l : Literal} {atom : Atom}
    (found : e.atoms.get? l.atom = some atom) (asserted : l ∈ e.atoms.asserted) :
    Steps h e { e with dependencies := (e.dependencies.mkLiteral l).1 } ∧
      ({ e with dependencies := (e.dependencies.mkLiteral l).1 } : Engine).Offered h
        ⟨atom.var, (atom.bound l.negative).1, (atom.bound l.negative).2,
          (e.dependencies.mkLiteral l).2, .literal l⟩ := by
  have built := DependencyArena.built_mkLiteral inv.founded.formed.closed l
  refine ⟨.single (.depend _ built.extended built.closed ⟨rfl, rfl⟩), ?_, ?_, ?_, ?_⟩
  · exact inv.founded.registered.atom_lt _ _ found
  · refine ⟨built.names, (built.leaves _ _).2 asserted, fun _ α _ believes => ?_⟩
    have holds : e.LiteralHolds α l := (built.leaves _ _).1 believes
    exact (atom.admits_bound_iff l.negative _).2 (holds atom found)
  · intro drifting
    exact absurd (.inl (coherent_bound atom l.negative)) drifting
  · intro is_given
    cases is_given

theorem answers_installLiteral (inv : e.Invariant h) {l : Literal}
    (asserted : l ∈ e.atoms.asserted) : Answers h e (e.installLiteral l) := by
  rw [installLiteral]
  split
  · exact .yes .refl
  · rename_i atom found
    obtain ⟨steps, offered⟩ := offered_literal inv found asserted
    exact (answers_installBound (steps.invariant inv) offered).after steps

theorem next?_eq_some {registry atoms : AtomRegistry} {l : Literal}
    (taken : registry.next? = some (l, atoms)) :
    registry.asserted[registry.processed]? = some l ∧
      atoms = { registry with processed := registry.processed + 1 } := by
  rw [AtomRegistry.next?] at taken
  split at taken
  · cases taken
  · rename_i first rest queued
    obtain ⟨rfl, rfl⟩ := Prod.mk.inj (Option.some.inj taken)
    refine ⟨?_, rfl⟩
    have front := congrArg List.head? queued
    rwa [AtomRegistry.queued, List.head?_drop, List.head?_cons] at front

/-- Installing the queued literals answers soundly, by induction on how many of them there are. -/
theorem answers_installQueued (count : Nat) (inv : e.Invariant h) :
    Answers h e (installQueued count e) := by
  induction count generalizing e with
  | zero => exact .yes .refl
  | succ count ih =>
    rw [installQueued]
    split
    · exact .yes .refl
    · rename_i l atoms taken
      obtain ⟨found, atoms_eq⟩ := next?_eq_some taken
      have dequeued : Step h e { e with atoms := atoms } := .dequeue l atoms taken ⟨rfl, rfl⟩
      have asserted : l ∈ ({ e with atoms := atoms } : Engine).atoms.asserted := by
        rw [show ({ e with atoms := atoms } : Engine).atoms = atoms from rfl, atoms_eq]
        exact List.mem_of_getElem? found
      have installed := answers_installLiteral (dequeued.invariant inv) asserted
      refine Answers.after dequeued.steps (installed.bind fun next steps _ => ?_)
      exact ih (steps.invariant (dequeued.invariant inv))

/-! ## Propagation -/

theorem answers_propagateRows (inv : e.Invariant h) (normalized : e.tableau.Normalized) :
    Answers h e e.propagateRows := by
  rw [propagateRows]
  split
  · exact .yes .refl
  · refine (answers_propagateImpliedBounds inv).bind fun next steps _ => ?_
    split
    · exact .yes .refl
    · exact answers_makeFeasible (steps.invariant inv) (steps.normalized normalized)

/-- Deriving bounds from rows ends with no base left to be patched, as every round that derives some
repairs again. -/
theorem toPatch_propagateRows (clean : e.toPatch = []) (yes : e.propagateRows.2 = true) :
    e.propagateRows.1.toPatch = [] := by
  rw [propagateRows] at yes ⊢
  split
  · exact clean
  · rename_i active
    rw [if_neg active] at yes
    split
    · rename_i next done
      rw [done] at yes
      simp only at yes
      split
      · rename_i is_empty
        exact List.isEmpty_iff.1 is_empty
      · rename_i waiting
        rw [if_neg waiting] at yes
        exact toPatch_makeFeasible yes
    · rename_i next done
      rw [done] at yes
      cases yes

/-- What propagation does once the asserted literals are installed. -/
theorem answers_afterInstalling (inv : e.Invariant h) (normalized : e.tableau.Normalized) :
    Answers h e (match e.makeFeasible with
      | (feasible, true) =>
        match feasible.propagateRows with
        | (next, true) => (next.propagateFixedEqualities, true)
        | (next, false) => (next, false)
      | (feasible, false) => (feasible, false)) := by
  refine (answers_makeFeasible inv normalized).bind fun feasible first _ => ?_
  have feasible_inv := first.invariant inv
  refine (answers_propagateRows feasible_inv (first.normalized normalized)).bind
    fun last second _ => ?_
  exact .yes (steps_propagateFixedEqualities (second.invariant feasible_inv))

theorem answers_propagate (inv : e.Invariant h) : Answers h e e.propagate := by
  rw [propagate]
  split
  · exact .gaveUp .refl
  · have normal := steps_normalizePendingRows h e
    have normal_inv := normal.invariant inv
    have settled := normalized_normalizePendingRows e
    refine Answers.after normal ((answers_installQueued _ normal_inv).bind
      fun installed first _ => ?_)
    exact answers_afterInstalling (first.invariant normal_inv) (first.normalized settled)

end ArithDecide.Engine
