import ArithDecide.Proofs.Installing

/-!
# Repairing the assignment is sound

Putting the pending rows into reduced form and exchanging variables are steps. When a base cannot
reach its bound, the row bounds it on the wrong side of that bound: every variable of the row already
sits on the bound that keeps it from moving on.
-/

namespace ArithDecide.Engine

open State

variable {e next : Engine} {h : History}

/-! ## Reduced form -/

theorem steps_foldl_normalizeRow (h : History) (rows : List RowId) (e : Engine) :
    Steps h e (rows.foldl normalizeRow e) := by
  induction rows generalizing e with
  | nil => exact .refl
  | cons r rest ih => exact .head (.normalize r rfl) (ih _)

theorem steps_normalizePendingRows (h : History) (e : Engine) :
    Steps h e e.normalizePendingRows :=
  steps_foldl_normalizeRow h _ e

/-- A row that is still pending was not put into reduced form, and was pending before. -/
theorem pending_foldl_normalizeRow {rows : List RowId} {q : RowId} {row : Row}
    (found : (rows.foldl normalizeRow e).tableau.get? q = some row) (pending : row.pending = true) :
    q ∉ rows ∧ e.tableau.get? q = some row := by
  induction rows generalizing e with
  | nil => exact ⟨List.not_mem_nil, found⟩
  | cons r rest ih =>
    obtain ⟨away, at_q⟩ := ih found
    rw [tableau_normalizeRow] at at_q
    obtain ⟨other, at_q⟩ := pending_normalize at_q pending
    exact ⟨fun member => (List.mem_cons.1 member).elim other away, at_q⟩

theorem normalized_normalizePendingRows (e : Engine) :
    e.normalizePendingRows.tableau.Normalized := by
  intro q row found
  by_contra unsettled
  have pending : row.pending = true := by simpa using unsettled
  obtain ⟨away, at_q⟩ := pending_foldl_normalizeRow found pending
  refine away (List.mem_filter.2 ⟨List.mem_range.2 (Array.getElem?_eq_some_iff.1 at_q).1, ?_⟩)
  rw [at_q]
  exact pending

/-! ## Blocked rows -/

theorem entering?_eq_none {form : LinearForm} {violated : BoundKind}
    (none_found : e.entering? form violated = none) {t : Var × Rat} (member : t ∈ form.terms) :
    e.canMove t.1 (blockingSide violated t.2) = false := by
  rw [entering?, Option.map_eq_none_iff, List.find?_eq_none] at none_found
  simpa using none_found t member

theorem entering?_eq_some {form : LinearForm} {violated : BoundKind} {v : Var}
    (found : e.entering? form violated = some v) : form.coeff v ≠ 0 := by
  rw [entering?, Option.map_eq_some_iff] at found
  obtain ⟨t, at_t, rfl⟩ := found
  exact LinearForm.mentions_iff.1 (LinearForm.mentions_of_mem (List.mem_of_find?_eq_some at_t))

theorem opposite_blockingSide (violated : BoundKind) (coeff : Rat) :
    (blockingSide violated coeff).opposite = violated.turned coeff := by
  rw [blockingSide, BoundKind.turned]
  split
  · exact BoundKind.opposite_opposite _
  · rfl

/-- A variable that cannot move on is at or beyond its bound. -/
theorem admits_of_blocked {v : Var} {side : BoundKind} (blocked : e.canMove v side = false) :
    ∃ b, e.bounds.get v side = some b ∧ side.admits (e.stored v) b.value = true := by
  rw [canMove, BoundStore.value] at blocked
  cases found : e.bounds.get v side with
  | none => simp [found] at blocked
  | some b =>
    rw [found] at blocked
    exact ⟨b, rfl, BoundKind.tighter_eq_false_iff.1 blocked⟩

/-- The bounds that `rowConflict` blames. -/
def blockingBounds (row : Row) (violated : BoundKind) : List (Var × BoundKind) :=
  (row.base, violated) :: row.form.terms.map fun t => (t.1, blockingSide violated t.2)

theorem rowConflict_eq (e : Engine) (row : Row) (violated : BoundKind) :
    e.rowConflict row violated = e.reasonsOf (blockingBounds row violated) := by
  simp [rowConflict, reasonsOf, blockingBounds]

/-- A form is limited on the violated side when each variable is limited on the side that blocks it. -/
theorem admits_of_limited {form : LinearForm} {violated : BoundKind} {φ ψ : Var → InfRat}
    (limited : ∀ t ∈ form.terms, (blockingSide violated t.2).admits (φ t.1) (ψ t.1) = true) :
    violated.admits (form.combine ψ) (form.combine φ) = true := by
  refine BoundKind.admits_combine fun t member => ?_
  rw [← opposite_blockingSide, BoundKind.opposite_admits]
  exact limited t member

/-- No point on a blocked row is within the violated bound of its base and the bounds that block it. -/
theorem false_of_blocked {row : Row} {violated : BoundKind} {target : InfRat}
    (holds : row.Holds e.stored) (outside : violated.tighter target (e.stored row.base) = true)
    (none_found : e.entering? row.form violated = none) {ψ : Var → InfRat}
    (on_row : row.Holds ψ) (reached : violated.admits target (ψ row.base) = true)
    (stopped : ∀ t ∈ row.form.terms, ∀ b, e.bounds.get t.1 (blockingSide violated t.2) = some b →
      (blockingSide violated t.2).admits b.value (ψ t.1) = true) : False := by
  have limited : violated.admits (row.form.combine ψ) (row.form.combine e.stored) = true := by
    refine admits_of_limited fun t member => ?_
    obtain ⟨b, active, blocked⟩ := admits_of_blocked (entering?_eq_none none_found member)
    exact BoundKind.admits_trans blocked (stopped t member b active)
  rw [← on_row, ← holds] at limited
  exact BoundKind.tighter_iff.1 outside (BoundKind.admits_trans reached limited)

/-- No solution respects the violated bound of a base and the bounds that block its row. -/
theorem refuted_of_blocked {r : RowId} {row : Row} {violated : BoundKind} {target : InfRat}
    (inv : e.Invariant h) (reliable : e.Reliable) (found : e.tableau.get? r = some row)
    (settled : row.pending = false) (bound : e.bounds.value row.base violated = some target)
    (outside : violated.tighter target (e.stored row.base) = true)
    (none_found : e.entering? row.form violated = none) {α : Var → Rat} (solves : e.Solves α)
    (respects : e.Respects α (blockingBounds row violated)) : False := by
  have respected (p : Var × BoundKind) (member : p ∈ blockingBounds row violated) (b : Bound)
      (active : e.bounds.get p.1 p.2 = some b) : p.2.admits b.value (.ofRat (α p.1)) = true := by
    obtain ⟨-, var_eq, kind_eq⟩ := inv.founded.formed.bounds.active active
    have holds : b.kind.admits b.value (.ofRat (α b.var)) = true := respects p member b active
    rwa [var_eq, kind_eq] at holds
  obtain ⟨b, active, rfl⟩ := Option.map_eq_some_iff.1 bound
  have on_row : row.Holds fun v => InfRat.ofRat (α v) := by
    rw [Row.Holds, ← InfRat.ofRatHom_apply, solves.rows r row found, LinearForm.combine_map]
    rfl
  exact false_of_blocked ((inv.assigned reliable).rows r row found settled) outside none_found on_row
    (respected _ List.mem_cons_self b active) fun t member c at_c =>
      respected _ (List.mem_cons_of_mem _ (List.mem_map_of_mem member)) c at_c

/-! ## Repairing -/

/-- When nothing is violated, nothing is left to be patched. -/
theorem steps_settled (normalized : e.tableau.Normalized)
    (clean : e.firstViolation? e.toPatch = none) :
    Steps h e { e with
      toPatch := []
      status := if e.status = .checking then .consistent else e.status } := by
  have relaxed : Step h e { e with toPatch := [] } :=
    .relax [] (fun v waits => .inr ⟨firstViolation?_eq_none clean waits, normalized.kind_ne v⟩)
      ⟨rfl, rfl⟩
  split
  · rename_i checking
    refine .head relaxed (.single (.verdict .consistent ?_ (fun d => by simp) ⟨rfl, rfl⟩))
    rw [isInfeasible]
    simp only [checking]
  · exact .single relaxed

/-- A row that cannot be repaired is a conflict. -/
theorem answers_blocked {violation : Violation} {rest : List Var} {row : Row}
    (inv : e.Invariant h) (normalized : e.tableau.Normalized)
    (first : e.firstViolation? e.toPatch = some (violation, rest))
    (found : e.tableau.get? violation.row = some row)
    (none_found : e.entering? row.form violation.kind = none) :
    Answers h e
      (let (joined, conflict) := ({ e with toPatch := rest }).joinReasons
        (({ e with toPatch := rest }).rowConflict row violation.kind)
      ((joined.markToPatch violation.base).setConflict conflict, false)) := by
  obtain ⟨violates, kept⟩ := firstViolation?_eq_some first
  have base_eq := violates.base_eq found
  have relaxed : Step h e (({ e with toPatch := rest }).markToPatch violation.base) := by
    refine .relax (SortedSet.insert violation.base rest) (fun v waits => ?_) ⟨rfl, rfl⟩
    rcases kept v waits with later | rfl | harmless
    · exact .inl (mem_insert_var.2 (.inr later))
    · exact .inl (mem_insert_var.2 (.inl rfl))
    · exact .inr ⟨harmless, normalized.kind_ne v⟩
  have relaxed_inv := relaxed.invariant inv
  have j := joined_reasonsOf relaxed_inv (blockingBounds row violation.kind)
  have blames := blames_reasonsOf relaxed_inv (blockingBounds row violation.kind)
    fun reliable α solves respects =>
      refuted_of_blocked relaxed_inv reliable found (normalized _ _ found) (base_eq ▸ violates.target)
        (base_eq ▸ violates.outside) none_found solves respects
  rw [rowConflict_eq]
  exact .conflict (.head relaxed j.steps) (fails_setConflict blames)

/-- A repair answers soundly. If no variable can move, the row explains the conflict by the bounds that
block its terms and the one that is violated. -/
theorem answers_repair (pivots : Nat) (inv : e.Invariant h) (normalized : e.tableau.Normalized) :
    Answers h e (repair pivots e) := by
  induction pivots generalizing e with
  | zero =>
    rw [repair]
    split
    · rename_i clean
      exact .yes (steps_settled normalized clean)
    · rename_i violation rest first
      obtain ⟨violates, -⟩ := firstViolation?_eq_some first
      obtain ⟨row, found, -⟩ := Tableau.get?_of_rowOf? violates.heads
      simp only [found]
      split
      · rename_i none_found
        exact answers_blocked inv normalized first found none_found
      · exact .gaveUp .refl
  | succ left ih =>
    rw [repair]
    split
    · rename_i clean
      exact .yes (steps_settled normalized clean)
    · rename_i violation rest first
      obtain ⟨violates, -⟩ := firstViolation?_eq_some first
      obtain ⟨row, found, -⟩ := Tableau.get?_of_rowOf? violates.heads
      simp only [found]
      split
      · rename_i none_found
        exact answers_blocked inv normalized first found none_found
      · rename_i entering entering_found
        have exchanged : Step h e
            (({ e with toPatch := rest }).pivotAndUpdate violation row entering) :=
          .exchange violation rest row entering normalized first found
            (entering?_eq_some entering_found) rfl
        exact (ih (exchanged.invariant inv) (exchanged.normalized normalized)).after exchanged.steps

/-- Nothing is left to be patched after a repair. -/
theorem toPatch_repair {pivots : Nat} (yes : (repair pivots e).2 = true) :
    (repair pivots e).1.toPatch = [] := by
  induction pivots generalizing e with
  | zero =>
    rw [repair] at yes ⊢
    split at yes
    · rfl
    · simp only at yes
      split at yes
      · cases yes
      · split at yes <;> cases yes
  | succ left ih =>
    rw [repair] at yes ⊢
    split at yes
    · rfl
    · simp only at yes ⊢
      split at yes
      · cases yes
      · split at yes
        · cases yes
        · exact ih yes

theorem answers_makeFeasible (inv : e.Invariant h) (normalized : e.tableau.Normalized) :
    Answers h e e.makeFeasible :=
  answers_repair _ inv normalized

theorem toPatch_makeFeasible (yes : e.makeFeasible.2 = true) : e.makeFeasible.1.toPatch = [] :=
  toPatch_repair yes

end ArithDecide.Engine
