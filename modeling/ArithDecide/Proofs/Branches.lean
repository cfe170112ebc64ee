import Mathlib
import ArithDecide.Proofs.AlikeChecks
import ArithDecide.Proofs.Rounds
import ArithDecide.Proofs.Sessions
import ArithDecide.Proofs.Settling

/-!
# Case splits exhaust the integers and make progress

A case split is about an integer variable whose value lies strictly between two consecutive integers,
both of which its bounds allow: `Engine.State.Straddles`. So the bounds decide neither of its atoms, and
since everything that was asserted is in force, neither of them has a sign. `Session.check_branch` says
this of every check that asks for a split, and which variable is taken.
-/

namespace ArithDecide

namespace Engine

variable {e next : Engine} {h : History} {split : CaseSplit} {s : State} {l : Literal} {v : Var}
  {x y : InfRat} {kind : BoundKind} {threshold : Rat}

/-! ## Literals and values -/

/-- The value makes the literal true. -/
def State.Satisfies (s : State) (x : InfRat) (l : Literal) : Prop :=
  ∃ atom, s.atoms.get? l.atom = some atom ∧
    atom.kind.admits (.ofRat atom.threshold) x = !l.negative

/-- The literal states the fact of its atom, which has no sign, and the bounds do not decide it. -/
def State.Undecided (s : State) (l : Literal) : Prop :=
  l.negative = false ∧ ∃ atom, s.atoms.get? l.atom = some atom ∧ atom.assignment = none ∧
    ∀ sign, ¬s.DecidesAtom atom sign

theorem State.States.satisfies_iff (states : s.States l v kind threshold) :
    s.Satisfies x l ↔ kind.admits (.ofRat threshold) x = true := by
  obtain ⟨positive, atom, found, rfl, rfl, rfl⟩ := states
  rw [State.Satisfies, positive]
  refine ⟨fun ⟨other, found', holds⟩ => ?_, fun holds => ⟨atom, found, holds⟩⟩
  obtain rfl := Option.some.inj (found.symm.trans found')
  exact holds

/-- A literal that is in force is true of all rational values that the bounds leave. -/
theorem admits_of_honorsLiteral {atom : Atom} {q : Rat} (honors : s.HonorsLiteral l)
    (found : s.atoms.get? l.atom = some atom) (within : s.bounds.admits atom.var (.ofRat q) = true) :
    atom.kind.admits (.ofRat atom.threshold) (.ofRat q) = !l.negative := by
  obtain ⟨other, found', active, at_side, covers⟩ := honors
  obtain rfl := Option.some.inj (found.symm.trans found')
  have admits := BoundKind.admits_trans covers (BoundStore.admits_iff.1 within _ _ at_side)
  exact (atom.means_iff_admits _ _).1 ((atom.admits_bound_iff _ _).1 admits)

/-- When everything that was asserted is in force, an atom about which two allowed values disagree has
no sign and is not decided. -/
theorem State.States.undecided (founded : s.Founded h) (standing : s.Standing h)
    (calm : s.isInfeasible = false) (drained : s.atoms.queued = [])
    (states : s.States l v kind threshold) {p q : Rat} (p_allowed : s.Permits v (.ofRat p))
    (q_allowed : s.Permits v (.ofRat q)) (holds : kind.admits (.ofRat threshold) (.ofRat p) = true)
    (fails : kind.admits (.ofRat threshold) (.ofRat q) = false) : s.Undecided l := by
  obtain ⟨positive, atom, found, rfl, rfl, rfl⟩ := states
  refine ⟨positive, atom, found, Option.eq_none_iff_forall_ne_some.2 fun sign signed => ?_,
    fun sign decides => ?_⟩
  · have asserted := founded.registered.signed l.atom atom sign found signed
    have honors := standing.honors calm drained asserted
    have at_p := admits_of_honorsLiteral honors found p_allowed.1
    have at_q := admits_of_honorsLiteral honors found q_allowed.1
    rw [holds, ← at_q, fails] at at_p
    cases at_p
  · have at_p := decides _ p_allowed
    rw [holds, ← decides _ q_allowed, fails] at at_p
    cases at_p

/-- A variable whose bounds are integers is allowed the integers next to a value within its bounds. -/
theorem permits_around {m n : Int} (rounded : s.Rounded) (integer : s.isInt v = true)
    (within : s.bounds.admits v x = true) (below : .ofRat m < x) (above : x < .ofRat n)
    (next_to : n ≤ m + 1) : s.Permits v (.ofRat m) ∧ s.Permits v (.ofRat n) := by
  have allowed {j : Int} (lower : ∀ k, k < n → k ≤ j) (upper : ∀ k, m < k → j ≤ k) :
      s.Permits v (.ofRat j) := by
    refine ⟨BoundStore.admits_iff.2 fun kind b active => ?_, fun _ => ⟨j, rfl⟩⟩
    have admits := BoundStore.admits_iff.1 within kind b active
    obtain ⟨k, value⟩ := rounded v kind b.value integer (by rw [BoundStore.value, active]; rfl)
    rw [value] at admits ⊢
    cases kind with
    | lower =>
      have lt := InfRat.ofRat_lt.1 ((BoundKind.admits_lower.1 admits).trans_lt above)
      rw [BoundKind.admits_lower, InfRat.ofRat_le]
      exact_mod_cast lower k (by exact_mod_cast lt)
    | upper =>
      have lt := InfRat.ofRat_lt.1 (below.trans_le (BoundKind.admits_upper.1 admits))
      rw [BoundKind.admits_upper, InfRat.ofRat_le]
      exact_mod_cast upper k (by exact_mod_cast lt)
  exact ⟨allowed (fun k lt => by omega) fun k lt => by omega,
    allowed (fun k lt => by omega) fun k lt => by omega⟩

/-! ## The chosen variable -/

/-- Candidates are about the fractional variables, in increasing order. -/
theorem vars_candidates (e : Engine) : e.candidates.map Candidate.var = e.fractionalVars := by
  rw [candidates, List.map_map]
  exact List.map_id _

theorem sorted_fractionalVars (e : Engine) : e.fractionalVars.Pairwise (· < ·) :=
  List.Pairwise.filter _ List.pairwise_lt_range

/-- The variable that the selector names is taken if it is among the candidates. -/
theorem chosen_of_named {c : Candidate} (chosen : e.chosenCandidate? = some c)
    (named : e.selector e.candidates = some v) (fractional : v ∈ e.fractionalVars) : c.var = v := by
  rw [chosenCandidate?, named, Option.bind_some] at chosen
  rw [← vars_candidates] at fractional
  obtain ⟨d, member, rfl⟩ := List.mem_map.1 fractional
  have known : (e.candidates.find? fun c => c.var == d.var).isSome = true :=
    List.find?_isSome.2 ⟨d, member, beq_self_eq_true _⟩
  obtain ⟨found, at_found⟩ := Option.isSome_iff_exists.1 known
  rw [at_found] at chosen
  obtain rfl := Option.some.inj chosen
  simpa using List.find?_some at_found

/-- Otherwise the smallest candidate is taken. -/
theorem chosen_of_foreign {c : Candidate} (chosen : e.chosenCandidate? = some c)
    (foreign : ∀ v, e.selector e.candidates = some v → v ∉ e.fractionalVars) :
    ∀ w ∈ e.fractionalVars, c.var ≤ w := by
  have fallback : ((e.selector e.candidates).bind fun v =>
      e.candidates.find? fun c => c.var == v) = none := by
    refine Option.bind_eq_none_iff.2 fun v named => List.find?_eq_none.2 fun d member same => ?_
    refine foreign v named ?_
    rw [← vars_candidates]
    exact List.mem_map.2 ⟨d, member, by simpa using same⟩
  rw [chosenCandidate?, fallback, Option.none_or] at chosen
  have first : e.fractionalVars.head? = some c.var := by
    rw [← vars_candidates, List.head?_map, chosen]
    rfl
  obtain ⟨rest, same⟩ := List.head?_eq_some_iff.1 first
  have sorted := sorted_fractionalVars e
  rw [same] at sorted ⊢
  intro w member
  rcases List.mem_cons.1 member with rfl | later
  · exact Nat.le_refl _
  · exact Nat.le_of_lt (List.rel_of_pairwise_cons sorted later)

theorem mem_fractionalVars : v ∈ e.fractionalVars ↔ e.isFractional v = true := by
  rw [fractionalVars, List.mem_filter, and_iff_right_iff_imp]
  exact fun fractional => List.mem_range.2 (State.isInt_lt (Bool.and_eq_true_iff.1 fractional).1)

/-- Making the literals of a split leaves variables, values and bounds as they were. -/
theorem Selected.sameModel (selected : Selected e next split) : SameModel e next := by
  obtain ⟨_, _, same⟩ := selected.same
  refine ⟨?_, State.value_congr ?_ ?_, ?_⟩ <;> rw [same]

/-- It leaves the candidates and the selector as they were. -/
theorem SameModel.candidates (model : SameModel e next) (oracle : next.oracle = e.oracle) :
    next.candidates = e.candidates := by
  rw [Engine.candidates, Engine.candidates, model.fractionalVars, model.value, oracle]
  refine List.map_congr_left fun v _ => ?_
  rw [State.term, State.term, model.columns]

/-- The sides of a split are next to each other. -/
theorem Selected.ceil_eq (selected : Selected e next split) :
    split.value.ceil = split.value.floor + 1 := by
  obtain ⟨below, above, next_to⟩ := InfRat.between_of_not_integer selected.not_integer
  have lt := InfRat.ofRat_lt.1 (below.trans above)
  norm_cast at lt
  omega

/-- Every integer makes exactly one of the literals of a split true, and the value of its variable
neither. -/
theorem Selected.satisfies (selected : Selected e next split) :
    (∀ n : Int, next.Satisfies (.ofRat n) split.down ↔ ¬next.Satisfies (.ofRat n) split.up) ∧
      ¬next.Satisfies split.value split.down ∧ ¬next.Satisfies split.value split.up := by
  obtain ⟨below, above, next_to⟩ := InfRat.between_of_not_integer selected.not_integer
  simp only [selected.down.satisfies_iff, selected.up.satisfies_iff, BoundKind.admits_upper,
    BoundKind.admits_lower, not_le, InfRat.ofRat_le]
  refine ⟨fun n => ?_, below, above⟩
  have lt := InfRat.ofRat_lt.1 (below.trans above)
  norm_cast at lt ⊢
  omega

/-- Once everything that was asserted is in force, the literals of a split are undecided. -/
theorem Selected.undecided (selected : Selected e next split) (feasible : e.Feasible)
    (founded : next.Founded h) (standing : next.Standing h) (calm : next.isInfeasible = false)
    (drained : next.atoms.queued = []) :
    next.Undecided split.down ∧ next.Undecided split.up := by
  obtain ⟨below, above, next_to⟩ := InfRat.between_of_not_integer selected.not_integer
  have lt := InfRat.ofRat_lt.1 (below.trans above)
  obtain ⟨floor_allowed, ceil_allowed⟩ := permits_around founded.rounded selected.isInt
    (selected.within feasible) below above next_to
  refine ⟨selected.down.undecided founded standing calm drained floor_allowed ceil_allowed ?_ ?_,
    selected.up.undecided founded standing calm drained ceil_allowed floor_allowed ?_ ?_⟩
  · rw [BoundKind.admits_upper]
  · rw [← Bool.not_eq_true, BoundKind.admits_upper, InfRat.ofRat_le, not_le]
    exact lt
  · rw [BoundKind.admits_lower]
  · rw [← Bool.not_eq_true, BoundKind.admits_lower, InfRat.ofRat_le, not_le]
    exact lt

/-! ## Checks -/

theorem conflictResult_ne_branch (e : Engine) (split : CaseSplit) :
    e.conflictResult ≠ .branch split := by
  rw [conflictResult]
  intro same
  split at same <;> cases same

/-- A check that asks for a case split selects it after its last propagation. -/
theorem selects_check (inv : e.Invariant h) (found : e.check.2 = .branch split) :
    ∃ mid patched, Rounds e.begun mid ∧ mid.propagate.2 = true ∧ Moved h mid.propagate.1 patched ∧
      patched.selectBranch = (e.check.1, some split) := by
  obtain ⟨mid, rounds, finish⟩ := rounds_check e
  have mid_inv := (rounds.steps_of_begun inv).invariant inv
  generalize e.check = result at found finish ⊢
  cases finish with
  | spent => cases found
  | failed no => exact absurd found (conflictResult_ne_branch _ _)
  | integers yes cuts next outcome integers =>
    have is_branch : outcome = .branch split := by
      cases outcome with
      | branch other => exact congrArg _ (CheckResult.branch.inj found)
      | conflict => exact absurd found (conflictResult_ne_branch _ _)
      | feasible | cutAdded | giveUp => cases found
    have asked : (mid.propagate.1.checkIntegers cuts).2 = .branch split := by
      rw [integers, is_branch]
    have propagated := propagated_of_yes mid_inv yes
    obtain ⟨patched, moved, selects⟩ :=
      selectBranch_of_checkIntegers cuts (propagated.steps.invariant mid_inv) propagated.normalized asked
    rw [integers] at selects
    exact ⟨mid, patched, rounds, yes, moved, selects⟩
  | products yes cuts integral next pass spent outcome integers concluded =>
    cases outcome with
    | conflict => exact absurd found (conflictResult_ne_branch _ _)
    | consistent | progress | giveUp => cases found

/-- The engine in which a check selects the split that it asks for. -/
structure SplitIn (h : History) (e patched : Engine) (split : CaseSplit) : Prop where
  steps : Steps h e patched
  feasible : e.Reliable → patched.Feasible
  selected : Selected patched e.check.1 split
  selector : patched.selector = e.selector
  candidates : e.check.1.candidates = patched.candidates

/-- A case split that a check asks for was selected in the state that patching has left, after some
rounds. -/
theorem splitIn_check (inv : e.Invariant h) (found : e.check.2 = .branch split) :
    ∃ patched, SplitIn h e patched split := by
  obtain ⟨mid, patched, rounds, yes, moved, selects⟩ := selects_check inv found
  have before := rounds.steps_of_begun inv
  have propagated := propagated_of_yes (before.invariant inv) yes
  have feasible (reliable : e.Reliable) : patched.Feasible :=
    moved.feasible (propagated.feasible
      ((Steps.reliable_iff (before.trans propagated.steps) inv).2 reliable))
  have steps : Steps h e patched := (before.trans propagated.steps).trans moved.steps
  have selected := selected_selectBranch (steps.invariant inv) selects
  have asked := (strides_check e).asks
  have kept := (strides_of_result selects (strides_selectBranch patched) :
    Strides true patched e.check.1).asks
  exact ⟨patched, steps, feasible, selected, kept.2.symm.trans asked.2,
    selected.sameModel.candidates kept.1⟩

end Engine

namespace Session

open Engine State

/-- Whatever calls were made, as long as fewer than `2 ^ 32` scopes were entered, when a check asks for a
case split: its variable is an integer variable whose value lies strictly between two consecutive
integers; its literals state that the variable is at most the lower or at least the upper one of them,
about atoms that have no sign and are not decided by the bounds; every integer makes exactly one of the
literals true, and the value neither; and the variable is the one that the selector named if that is a
fractional integer variable, else the smallest such variable. -/
theorem check_branch (options : Options) (calls : List Call) (split : CaseSplit) :
    let s := (start options).run calls
    let next := s.engine.check.1
    s.engine.Numbered → s.engine.check.2 = .branch split →
      (next.isInt split.var = true ∧ next.value split.var = split.value ∧
        split.value.isInteger = false ∧ split.value.ceil = split.value.floor + 1) ∧
      (next.States split.down split.var .upper split.value.floor ∧ next.Undecided split.down ∧
        next.States split.up split.var .lower split.value.ceil ∧ next.Undecided split.up) ∧
      ((∀ n : Int, next.Satisfies (.ofRat n) split.down ↔ ¬next.Satisfies (.ofRat n) split.up) ∧
        ¬next.Satisfies split.value split.down ∧ ¬next.Satisfies split.value split.up) ∧
      (∀ v, s.engine.selector next.candidates = some v → next.isFractional v = true →
        split.var = v) ∧
      ((∀ v, s.engine.selector next.candidates = some v → next.isFractional v = false) →
        ∀ w, next.isFractional w = true → split.var ≤ w) := by
  intro s next numbered branch
  have ready := ready_run options calls
  have checks := checks_check ready.invariant
  have founded := ready.check.ready.invariant.founded
  have calm := (checks.branch split branch).2
  obtain ⟨standing, drains⟩ := checks.standing ready.standing
  obtain ⟨patched, origin⟩ := splitIn_check ready.invariant branch
  have selected := origin.selected
  have model := selected.sameModel
  obtain ⟨c, chosen, at_split⟩ := selected.chosen
  obtain ⟨down_open, up_open⟩ := selected.undecided (origin.feasible numbered.reliable) founded standing calm
    (drains (.inr ⟨split, branch⟩))
  have fractional (v : Var) : v ∈ patched.fractionalVars ↔ next.isFractional v = true := by
    rw [← model.fractionalVars, mem_fractionalVars]
  refine ⟨⟨selected.isInt, ?_, selected.not_integer, selected.ceil_eq⟩,
    ⟨selected.down, down_open, selected.up, up_open⟩, selected.satisfies,
    fun v named is_fractional => ?_, fun foreign w is_fractional => ?_⟩
  · rw [model.value]
    exact selected.value
  · rw [origin.candidates, ← origin.selector] at named
    rw [← at_split]
    exact chosen_of_named chosen named ((fractional v).2 is_fractional)
  · rw [origin.candidates, ← origin.selector] at foreign
    rw [← at_split]
    refine chosen_of_foreign chosen (fun v named among => ?_) w ((fractional w).2 is_fractional)
    exact absurd ((fractional v).1 among) (by rw [foreign v named]; exact Bool.false_ne_true)

/-- An integer variable strictly between zero and one, which only a row says. -/
def squeezed : List Call :=
  [.mkVar .int .internal, .mkLinear .real .internal [(0, 1)], .mkAtom 1 .upper 0, .mkAtom 1 .lower 1,
    .assertLiteral ⟨0, true⟩, .assertLiteral ⟨1, true⟩]

/-- Neither bounds nor cuts are derived. -/
def splitsOnly : Options := { propagateBounds := false, branchCutRatio := 0 }

/-- The variable has the value `ε`, and is at most zero or at least one. -/
def squeezedSplit : CaseSplit := ⟨0, ⟨0, 1⟩, ⟨2, false⟩, ⟨3, false⟩⟩

theorem run_squeezed :
    ((start splitsOnly).run squeezed).engine.scopesEntered = 0 ∧
      ((start splitsOnly).run squeezed).engine.check.2 = .branch squeezedSplit ∧
      ((start splitsOnly).run squeezed).engine.selector
        ((start splitsOnly).run squeezed).engine.check.1.candidates = some 0 ∧
      ((start splitsOnly).run squeezed).engine.check.1.isFractional 0 = true := by
  refine ⟨by cbv, by cbv, by cbv, by cbv⟩

theorem check_branch_squeezed :
    squeezedSplit.value.ceil = squeezedSplit.value.floor + 1 ∧
      ((start splitsOnly).run squeezed).engine.check.1.Undecided ⟨2, false⟩ ∧
      ((start splitsOnly).run squeezed).engine.check.1.Undecided ⟨3, false⟩ ∧
      ¬((start splitsOnly).run squeezed).engine.check.1.Satisfies ⟨0, 1⟩ ⟨2, false⟩ ∧
      squeezedSplit.var = 0 := by
  obtain ⟨none_entered, branch, named, fractional⟩ := run_squeezed
  obtain ⟨⟨-, -, -, next_to⟩, ⟨-, down, -, up⟩, ⟨-, neither, -⟩, taken, -⟩ :=
    check_branch splitsOnly squeezed squeezedSplit (.of_none none_entered) branch
  exact ⟨next_to, down, up, neither, taken 0 named fractional⟩

end Session

end ArithDecide
