import Mathlib
import ArithDecide.Proofs.Cuts
import ArithDecide.Proofs.Sessions

/-!
# Cuts separate

Adding the cut of a row either installs a bound of a new variable or finds a conflict. The new variable
stands for the left side of the cut. Its bound holds at every point that satisfies the rows, is integral
on the integer variables and respects the bounds on which the other variables of the row sit, whatever
products or literals it breaks; and it fails at the current values. When the left side is empty no such
point exists (`Engine.addCut_separates`).

Nothing is assumed about how the state came about. The current values have to satisfy the rows, as they
do at any time, and the bounds of integer variables have to be integers: a row is turned into a cut by
the distances from these bounds.
-/

namespace ArithDecide

open Engine.State

/-! ## Values of the left side -/

/-- The value of a form at rationals is a rational. -/
theorem LinearForm.combine_ofEntries_ofRat {entries : List (Var × Rat)} {φ : Var → InfRat}
    (rational : ∀ t ∈ entries, φ t.1 = .ofRat (φ t.1).real) :
    (ofEntries entries).combine φ = .ofRat (entries.map fun t => t.2 * (φ t.1).real).sum := by
  rw [combine_ofEntries, ← InfRat.ofRatHom_apply, map_list_sum, List.map_map]
  refine congrArg List.sum (List.map_congr_left fun t member => ?_)
  rw [rational t member, ← InfRat.ofRatHom_apply, ← map_smul]
  rfl

namespace Engine

variable {e next ready : Engine} {α : Var → Rat} {row : Row} {r : RowId} {cut : Cut} {v : Var}
  {kind : BoundKind} {value : InfRat} {reason : Dependency} {origin : BoundOrigin}

/-- The bound that is installed for a cut: that of an integer is rounded. -/
def cutBound (cut : Cut) : Rat := if cut.integral then cut.bound.ceil else cut.bound

theorem le_cutBound (cut : Cut) : cut.bound ≤ cutBound cut := by
  rw [cutBound]
  split
  · exact Rat.ceil_le_iff.1 (le_refl _)
  · exact le_refl _

/-- The variables of a cut have rational values. -/
theorem rational_of_mem_cutOf (source : e.isCutSource row = true) {t : Var × Rat}
    (member : t ∈ (e.cutOf row).terms) : e.stored t.1 = .ofRat (e.stored t.1).real := by
  obtain ⟨u, at_u, same⟩ := exists_of_mem_cutOf member
  simp only [isCutSource, Bool.and_eq_true, List.all_eq_true] at source
  obtain ⟨rational, -⟩ := source.2 u at_u
  exact same ▸ InfRat.ext rfl (of_decide_eq_true rational)

/-! ## A bound of a new variable -/

/-- The first bound of a variable is installed as it is, once rounded. -/
theorem installBound_of_free (bounds : e.bounds.WellFormed e.numVars) (lt : v < e.numVars)
    (free : ∀ side, e.bounds.get v side = none) :
    ∃ store, BoundStore.Installed e.bounds store ⟨v, kind, e.roundBound v kind value, reason, origin⟩ ∧
      e.installBound v kind value reason origin =
        (({ e with bounds := store }).afterTightening v kind (e.roundBound v kind value) origin,
          true) := by
  rw [installBound]
  cases done : e.bounds.assert ⟨v, kind, e.roundBound v kind value, reason, origin⟩ with
  | conflict opposite =>
    obtain ⟨b, found, -⟩ := BoundStore.crossing_of_conflict done
    rw [free] at found
    cases found
  | unchanged store =>
    obtain ⟨-, b, found, -⟩ := BoundStore.unchanged_spec done
    rw [free] at found
    cases found
  | tightened store => exact ⟨store, BoundStore.installed_of_tightened bounds lt done, rfl⟩

/-! ## Adding a cut -/

/-- The engine once the new variable of a cut has its row. -/
structure Prepared (e : Engine) (cut : Cut) (ready : Engine) : Prop where
  tableau : ready.tableau =
    (e.tableau.addRow e.numVars (.ofEntries cut.terms)).normalize e.numRows
  columns : ready.columns = e.columns.push ⟨if cut.integral then .int else .real, .internal⟩
  bounds : ready.bounds = e.bounds.addVar

theorem Prepared.numVars (prepared : Prepared e cut ready) : ready.numVars = e.numVars + 1 := by
  rw [State.numVars, prepared.columns, Array.size_push]
  rfl

theorem Prepared.isInt (prepared : Prepared e cut ready) :
    ready.isInt e.numVars = cut.integral := by
  rw [State.isInt, State.sort, prepared.columns, State.numVars, Array.getElem?_push_size]
  cases cut.integral <;> rfl

theorem Prepared.holds_iff (prepared : Prepared e cut ready) (α : Var → Rat) :
    ready.tableau.Holds α ↔
      e.tableau.Holds α ∧ α e.numVars = (LinearForm.ofEntries cut.terms).combine α := by
  rw [prepared.tableau, Tableau.holds_normalize, Tableau.holds_addRow]

theorem Prepared.roundBound (prepared : Prepared e cut ready) :
    ready.roundBound e.numVars .lower (.ofRat cut.bound) = .ofRat (cutBound cut) := by
  rw [Engine.roundBound, prepared.isInt, cutBound]
  split
  · rw [roundInt, if_neg (show ¬0 < (InfRat.ofRat cut.bound).eps from lt_irrefl _)]
    rfl
  · rfl

/-- A cut with variables becomes a bound of a new variable. -/
theorem addCut_of_terms (source : RowId) (terms : cut.terms ≠ []) :
    ∃ ready, Prepared e cut ready ∧ e.addCut source cut =
      ready.installBound e.numVars .lower (.ofRat cut.bound) (e.joinReasons cut.reasons).2 .cut := by
  rw [addCut]
  have nonempty : ¬cut.terms.isEmpty = true := fun empty => terms (List.isEmpty_iff.1 empty)
  simp only [if_neg nonempty]
  refine ⟨_, ?_, rfl⟩
  generalize withRow_eq : (((e.joinReasons cut.reasons).1.mkVar
    (if cut.integral then .int else .real) .internal).1.pushRow _ (.ofEntries cut.terms)) = withRow
  obtain ⟨mid, becomes, only⟩ := valuesOnly_normalizeRow withRow.1 withRow.2
  refine ⟨?_, ?_, ?_⟩
  · refine only.tableau.trans ?_
    rw [becomes.toState, ← withRow_eq]
    rfl
  · refine only.columns.trans ?_
    rw [becomes.toState, ← withRow_eq]
    rfl
  · refine only.bounds.trans ?_
    rw [becomes.toState, ← withRow_eq]
    rfl

/-- A cut without variables is a conflict. -/
theorem addCut_of_empty (source : RowId) (empty : cut.terms = []) :
    e.addCut source cut =
      ((e.joinReasons cut.reasons).1.setConflict (e.joinReasons cut.reasons).2, false) := by
  simp only [addCut, empty, List.isEmpty_nil, if_true]

/-! ## The main statement -/

/-- The second engine has a new variable that stands for the form, with a bound that rests on the given
ones: it holds wherever these hold, and it fails at the current values. -/
structure CutsOff (e next : Engine) (uses : List (Var × BoundKind)) (form : LinearForm)
    (bound : Rat) : Prop where
  defines : ∀ α : Var → Rat,
    next.tableau.Holds α ↔ e.tableau.Holds α ∧ α e.numVars = form.combine α
  installed : next.bounds.get e.numVars .lower =
    some ⟨e.numVars, .lower, .ofRat bound, (e.joinReasons (e.reasonsOf uses)).2, .cut⟩
  valid : ∀ α : Var → Rat, e.Fits α → e.Respects α uses → bound ≤ form.combine α
  integral : next.isInt e.numVars = true → ∀ α : Var → Rat, e.Fits α → e.Respects α uses →
    ∃ n : Int, form.combine α = n
  separating : form.combine e.stored < .ofRat bound

/-- A cut with terms becomes a new variable with a row and a bound, which the current values violate. -/
theorem cutsOff_of_terms (formed : e.Formed) (assigned : e.Assigned) (rounded : e.Rounded)
    (source : e.isCutSource row = true) (found : e.tableau.get? r = some row)
    (terms : (e.cutOf row).terms ≠ []) :
    ∃ next, e.addCut r (e.cutOf row) = (next, true) ∧
      CutsOff e next (e.cutUses (fractionalPart (e.stored row.base).real) row)
        (.ofEntries (e.cutOf row).terms) (cutBound (e.cutOf row)) := by
  have valid := valid_cutOf formed rounded source found
  have violated := sum_stored_lt_bound e row
  have rational (t : Var × Rat) := rational_of_mem_cutOf (t := t) source
  generalize e.cutUses (fractionalPart (e.stored row.base).real) row = uses at valid ⊢
  generalize e.cutOf row = cut at valid violated rational terms ⊢
  obtain ⟨ready, prepared, added⟩ := addCut_of_terms r terms
  have well : ready.bounds.WellFormed ready.numVars := by
    rw [prepared.bounds, prepared.numVars]
    exact formed.bounds.addVar
  have free (side : BoundKind) : ready.bounds.get e.numVars side = none := by
    rw [prepared.bounds, BoundStore.get_addVar, Option.eq_none_iff_forall_ne_some]
    exact fun b active => lt_irrefl _ (formed.bounds.lt_of_get active)
  obtain ⟨store, installed, result⟩ := installBound_of_free well
    (prepared.numVars ▸ Nat.lt_succ_self _) free
  have integral (all_int : cut.integral = true) {α : Var → Rat} (fits : e.Fits α) :
      ∃ n : Int, (LinearForm.ofEntries cut.terms).combine α = n := by
    rw [LinearForm.combine_ofEntries]
    refine LinearForm.exists_int_sum fun x member => ?_
    obtain ⟨t, at_t, rfl⟩ := List.mem_map.1 member
    obtain ⟨integer, n, coeff⟩ := valid.integral all_int t at_t
    obtain ⟨m, integral⟩ := fits.integral t.1 integer
    exact ⟨n * m, by rw [coeff, integral, smul_eq_mul, Int.cast_mul]⟩
  refine ⟨_, added.trans result, ?_, ?_, fun α fits respects => ?_, fun is_int α fits _ => ?_, ?_⟩
  · intro α
    rw [afterTightening_congr State.tableau fun _ _ _ _ _ _ _ _ => rfl]
    exact prepared.holds_iff α
  · rw [bounds_afterTightening]
    refine (installed.get _ _).trans ((if_pos ⟨rfl, rfl⟩).trans ?_)
    rw [prepared.roundBound, valid.reasons]
  · have holds := valid.holds assigned α fits respects
    rw [cutBound]
    split
    · rename_i all_int
      obtain ⟨n, same⟩ := integral all_int fits
      rw [LinearForm.combine_ofEntries] at same ⊢
      rw [same]
      exact_mod_cast Rat.ceil_le_iff.2 (holds.trans_eq same)
    · rw [LinearForm.combine_ofEntries]
      exact holds
  · rw [afterTightening_congr (fun s => s.isInt e.numVars) fun _ _ _ _ _ _ _ _ => rfl] at is_int
    exact integral (prepared.isInt.symm.trans is_int) fits
  · rw [LinearForm.combine_ofEntries_ofRat rational, ← not_le, InfRat.ofRat_le, not_le]
    exact violated.trans_le (le_cutBound cut)

/-- Adding the cut of a row installs a bound that separates the current values from all points that fit
and respect the bounds it rests on. If the cut is empty there are no such points, and these bounds are
recorded as the conflict. -/
theorem addCut_separates (formed : e.Formed) (assigned : e.Assigned) (rounded : e.Rounded)
    (source : e.isCutSource row = true) (found : e.tableau.get? r = some row) :
    let uses := e.cutUses (fractionalPart (e.stored row.base).real) row
    ∃ next,
      (e.addCut r (e.cutOf row) = (next, true) ∧
        ∃ bound, CutsOff e next uses (.ofEntries (e.cutOf row).terms) bound) ∨
      (e.addCut r (e.cutOf row) = (next, false) ∧
        (e.isInfeasible = false →
          next.status = .infeasible (e.joinReasons (e.reasonsOf uses)).2) ∧
        ∀ α : Var → Rat, e.Fits α → ¬e.Respects α uses) := by
  intro uses
  by_cases terms : (e.cutOf row).terms = []
  · have valid := valid_cutOf formed rounded source found
    refine ⟨_, .inr ⟨addCut_of_empty r terms, fun calm => ?_, fun α fits respects => ?_⟩⟩
    · have calm : (e.joinReasons (e.cutOf row).reasons).1.isInfeasible = false := calm
      rw [status_setConflict calm, valid.reasons]
    · have holds := valid.holds assigned α fits respects
      rw [terms] at holds
      exact absurd (valid.positive terms) (not_lt.2 holds)
  · obtain ⟨next, added, separates⟩ :=
      cutsOff_of_terms formed assigned rounded source found terms
    exact ⟨next, .inl ⟨added, _, separates⟩⟩

end Engine

namespace Session

open Engine

/-- Twice an integer is the sum of an integer, which is not negative, of a number that is not positive, and
of one that is at least one. -/
def halving : List Call :=
  [.mkVar .int .internal, .mkVar .int .internal, .mkVar .real .internal,
    .mkLinear .real .internal [(0, 2), (1, -1), (2, -1)],
    .assertGiven 1 .lower (.ofRat 0), .assertGiven 2 .upper (.ofRat 0),
    .assertGiven 3 .lower (.ofRat 1), .propagate]

/-- The row of the first integer, whose value is one half. -/
def halvingRow : Row := ⟨0, ⟨[(1, 1 / 2), (2, 1 / 2), (3, 1 / 2)], by decide, by simp⟩, false⟩

theorem isCutSource_halving :
    ((start {}).run halving).engine.tableau.get? 0 = some halvingRow ∧
      ((start {}).run halving).engine.isCutSource halvingRow = true ∧
      ((start {}).run halving).engine.scopesEntered = 0 := by
  refine ⟨by cbv, by cbv, by cbv⟩

theorem cutOf_halving :
    let e := ((start {}).run halving).engine
    (e.cutOf halvingRow).terms = [(1, 1), (2, -1), (3, 1)] ∧
      e.cutUses (fractionalPart (e.stored 0).real) halvingRow =
        [(1, .lower), (2, .upper), (3, .lower)] ∧
      (e.addCut 0 (e.cutOf halvingRow)).2 = true := by
  refine ⟨by cbv, by cbv, by cbv⟩

/-- Every one of the other variables sits on a bound, on either side, and one of them is an integer. -/
theorem addCut_separates_halving :
    let e := ((start {}).run halving).engine
    ∃ next bound, e.addCut 0 (e.cutOf halvingRow) = (next, true) ∧
      CutsOff e next [(1, .lower), (2, .upper), (3, .lower)]
        (.ofEntries [(1, 1), (2, -1), (3, 1)]) bound := by
  intro e
  have inv := (ready_run {} halving).invariant
  obtain ⟨found, source, none_entered⟩ := isCutSource_halving
  have numbered : e.Numbered := .of_none none_entered
  obtain ⟨terms, uses, yes⟩ := cutOf_halving
  obtain ⟨next, ⟨added, bound, separates⟩ | ⟨refused, -⟩⟩ :=
    addCut_separates inv.founded.formed (inv.assigned numbered.reliable) inv.founded.rounded source found
  · rw [terms] at separates
    refine ⟨next, bound, added, ?_⟩
    rw [← uses]
    exact separates
  · rw [refused] at yes
    cases yes

end Session

end ArithDecide
