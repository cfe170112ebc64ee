import ArithDecide.Integer.Check
import ArithDecide.Proofs.Cuts
import ArithDecide.Proofs.Moving

/-!
# Integer reasoning is sound

Integer reasoning tests the rows, patches, cuts or asks for a case split. When it finds the assignment
integral it has only made harmless moves.
-/

namespace ArithDecide

/-- Whether integer reasoning ran into no conflict. -/
def IntegerOutcome.goesOn : IntegerOutcome → Bool
  | .conflict => false
  | _ => true

namespace Engine

open State

variable {e next : Engine} {h : History} {v : Var} {cuts : Nat}

/-! ## Case splits -/

theorem steps_internAtom (lt : v < e.numVars) (kind : BoundKind) (threshold : Rat) :
    Steps h e (e.internAtom v kind threshold).1 := by
  rw [internAtom]
  split
  · exact .refl
  · have interned : Step h e { e with atoms := e.atoms.add v kind threshold } :=
      .intern v kind threshold lt ⟨rfl, rfl⟩
    exact interned.steps.trans (steps_propagateAtom h _ _)

theorem mem_of_chosenCandidate? {c : Candidate} (found : e.chosenCandidate? = some c) :
    c ∈ e.candidates := by
  rw [chosenCandidate?] at found
  rcases Option.or_eq_some_iff.1 found with chosen | ⟨-, first⟩
  · obtain ⟨v, -, chosen⟩ := Option.bind_eq_some_iff.1 chosen
    exact List.mem_of_find?_eq_some chosen
  · exact List.mem_of_mem_head? first

theorem steps_selectBranch (inv : e.Invariant h) : Steps h e e.selectBranch.1 := by
  rw [selectBranch]
  split
  · exact .refl
  · rename_i c found
    obtain ⟨w, member, rfl⟩ := List.mem_map.1 (mem_of_chosenCandidate? found)
    have lt := lt_of_fractional member
    have first := steps_internAtom (h := h) lt .upper (e.value w).floor
    have lt' := Nat.lt_of_lt_of_le lt (first.keeps inv).numVars
    have second := steps_internAtom (h := h) lt' .lower (e.value w).ceil
    exact (first.trans second).tail (.quiet ⟨rfl, rfl⟩)

theorem answers_askBranch (inv : e.Invariant h) :
    Answers h e (e.askBranch.1, e.askBranch.2.goesOn) := by
  have steps := steps_selectBranch inv
  rw [askBranch]
  split
  · rename_i next split chosen
    rw [chosen] at steps
    exact .yes steps
  · rename_i next chosen
    rw [chosen] at steps
    exact .yes steps

/-! ## The integer check -/

theorem cutSource?_eq_some {r : RowId} {row : Row} (found : e.cutSource? = some (r, row)) :
    e.tableau.get? r = some row ∧ e.isCutSource row = true := by
  rw [cutSource?] at found
  have checked := List.find?_some found
  refine ⟨?_, checked⟩
  obtain ⟨q, -, at_q⟩ := List.mem_filterMap.1 (List.mem_of_find?_eq_some found)
  obtain ⟨other, at_row, same⟩ := Option.map_eq_some_iff.1 at_q
  obtain ⟨rfl, rfl⟩ := Prod.mk.inj same
  exact at_row

/-- Cutting and branching answer soundly: a valid cut loses no solution, and a split only names atoms.
-/
theorem answers_cutOrBranch (inv : e.Invariant h) (cuts : Nat) :
    Answers h e ((e.cutOrBranch cuts).1, (e.cutOrBranch cuts).2.goesOn) := by
  rw [cutOrBranch]
  split
  · exact answers_askBranch inv
  · rename_i r row chosen
    obtain ⟨-, source⟩ := Option.ite_none_right_eq_some.1 chosen
    obtain ⟨found, is_source⟩ := cutSource?_eq_some source
    have valid := valid_cutOf inv.founded.formed inv.founded.rounded is_source found
    have answers := answers_addCut inv valid r
    generalize e.addCut r (e.cutOf row) = result at answers ⊢
    obtain ⟨next, added⟩ := result
    cases added with
    | true => exact answers
    | false => exact answers

/-- Cutting and branching do not find the assignment integral. -/
theorem cutOrBranch_ne_feasible (e : Engine) (cuts : Nat) :
    (e.cutOrBranch cuts).2 ≠ .feasible := by
  rw [cutOrBranch]
  split
  · rw [askBranch]
    split <;> simp
  · split <;> simp

theorem answers_testAll (inv : e.Invariant h) (rows : List RowId) :
    Answers h e (forEach testDivisibility rows e) :=
  answers_forEach fun _ steps r _ => answers_testDivisibility (steps.invariant inv) r

/-- The rows passed the tests and the values were patched. -/
theorem moved_tested {tested : Engine} (inv : e.Invariant h) (normalized : e.tableau.Normalized)
    {counted : Engine} (becomes : e.Becomes e.toState counted)
    (result : forEach testDivisibility counted.tableau.rowIds counted = (tested, true)) :
    Moved h e tested.patchIntegers := by
  have counted_inv : counted.Invariant h := becomes.toState ▸ inv
  have answers := answers_testAll counted_inv counted.tableau.rowIds
  have same := toState_forEach counted counted.tableau.rowIds fun next r yes =>
    toState_testDivisibility (e := next) (r := r) yes
  rw [result] at answers same
  have same : tested.toState = e.toState := (same rfl).trans becomes.toState
  have first : Moved h e tested :=
    { steps := becomes.steps.trans (answers.steps rfl)
      only := ⟨by rw [same], by rw [same], by rw [same], by simp [same]⟩
      feasible := fun feasible => same ▸ feasible }
  exact first.trans (moved_patchIntegers (same ▸ inv) (same ▸ normalized))

/-- The integer reasoning answers soundly: each of its parts does, and patching only moves values. -/
theorem answers_checkIntegers (inv : e.Invariant h) (normalized : e.tableau.Normalized)
    (cuts : Nat) :
    Answers h e ((e.checkIntegers cuts).1, (e.checkIntegers cuts).2.goesOn) := by
  rw [checkIntegers]
  split
  · exact .yes .refl
  · generalize counted_eq : ({ e with integerChecks := e.integerChecks + 1 } : Engine) = counted
    have becomes : e.Becomes e.toState counted := by
      rw [← counted_eq]
      exact ⟨rfl, rfl⟩
    simp only
    have tested_answers := answers_testAll (h := h) (becomes.toState ▸ inv) counted.tableau.rowIds
    generalize result : forEach testDivisibility counted.tableau.rowIds counted = tests
      at tested_answers ⊢
    obtain ⟨tested, ok⟩ := tests
    cases ok with
    | false => exact tested_answers.after becomes.steps
    | true =>
      have moved := moved_tested (h := h) inv normalized becomes result
      simp only
      split
      · exact .yes moved.steps
      · exact (answers_cutOrBranch (moved.steps.invariant inv) cuts).after moved.steps

/-- When integer reasoning finds the assignment integral, it only moved variables. -/
theorem moved_checkIntegers (cuts : Nat) (inv : e.Invariant h) (normalized : e.tableau.Normalized)
    (found : (e.checkIntegers cuts).2 = .feasible) :
    Moved h e (e.checkIntegers cuts).1 ∧ (e.checkIntegers cuts).1.fractionalVars = [] := by
  rw [checkIntegers] at found ⊢
  split
  · rename_i integral
    exact ⟨.refl h e, List.isEmpty_iff.1 integral⟩
  · rename_i fractional
    rw [if_neg fractional] at found
    generalize counted_eq : ({ e with integerChecks := e.integerChecks + 1 } : Engine) = counted
      at found ⊢
    have becomes : e.Becomes e.toState counted := by
      rw [← counted_eq]
      exact ⟨rfl, rfl⟩
    simp only at found ⊢
    generalize result : forEach testDivisibility counted.tableau.rowIds counted = tests at found ⊢
    obtain ⟨tested, ok⟩ := tests
    cases ok with
    | false => cases found
    | true =>
      have moved := moved_tested (h := h) inv normalized becomes result
      simp only at found ⊢
      split
      · rename_i integral
        exact ⟨moved, List.isEmpty_iff.1 integral⟩
      · rename_i fractional'
        rw [if_neg fractional'] at found
        exact absurd found (cutOrBranch_ne_feasible _ _)

end Engine

end ArithDecide
