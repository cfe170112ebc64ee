import ArithDecide.Proofs.Consequences
import ArithDecide.Proofs.Honoring
import ArithDecide.Proofs.Integers

/-!
# Case splits are complete and open

The literals of a case split are about an integer variable with a fractional value: one says that the
variable is at most the integer below its value, the other that it is at least the one above. Every
solution makes one of them true, and the bounds in force entail neither, since the value lies within
them.
-/

namespace ArithDecide

namespace InfRat

variable {a : InfRat}

/-- A fractional value lies strictly between two consecutive integers. -/
theorem between_of_not_integer (fractional : a.isInteger = false) :
    ofRat a.floor < a ∧ a < ofRat a.ceil ∧ a.ceil ≤ a.floor + 1 := by
  have apart (n : Int) : ofRat n ≠ a := by
    intro same
    rw [isInteger_iff.2 ⟨n, same.symm⟩] at fractional
    cases fractional
  refine ⟨lt_of_le_of_ne (le_floor_iff.1 le_rfl) (apart _),
    lt_of_le_of_ne (ceil_le_iff.1 le_rfl) (apart _).symm, ceil_le_iff.2 (le_of_not_ge fun above => ?_)⟩
  exact absurd (le_floor_iff.2 above) (by omega)

end InfRat

namespace Engine

open State

variable {e next : Engine} {h : History} {v : Var} {kind : BoundKind} {threshold : Rat}
  {split : CaseSplit}

/-! ## The atoms of a split -/

/-- The atom of a fact that was asked for. -/
structure State.States (s : State) (l : Literal) (v : Var) (kind : BoundKind) (threshold : Rat) :
    Prop where
  positive : l.negative = false
  known : ∃ atom, s.atoms.get? l.atom = some atom ∧ atom.var = v ∧ atom.kind = kind ∧
    atom.threshold = threshold

theorem State.Grows.states {s t : State} {l : Literal} (grows : s.Grows t)
    (states : s.States l v kind threshold) : t.States l v kind threshold := by
  obtain ⟨positive, atom, found, rfl, rfl, rfl⟩ := states
  exact ⟨positive, grows.atoms _ atom found⟩

/-- Handing out a literal changes nothing but marks and queues. -/
theorem propagateAtom_toState (e : Engine) (a : AtomId) : ∃ atoms propagations,
    (e.propagateAtom a).toState = { e.toState with atoms := atoms, propagations := propagations } := by
  rw [propagateAtom]
  split
  · exact ⟨e.atoms, e.propagations, rfl⟩
  · split
    · exact ⟨e.atoms, e.propagations, rfl⟩
    · exact ⟨_, _, rfl⟩

/-- Asking for an atom changes nothing but atoms and queues. -/
theorem internAtom_toState (e : Engine) (v : Var) (kind : BoundKind) (threshold : Rat) :
    ∃ atoms propagations, (e.internAtom v kind threshold).1.toState =
      { e.toState with atoms := atoms, propagations := propagations } := by
  rw [internAtom]
  split
  · exact ⟨e.atoms, e.propagations, rfl⟩
  · exact propagateAtom_toState _ _

/-- Asking for an atom answers one that states the fact. -/
theorem states_internAtom (inv : e.Invariant h) (lt : v < e.numVars) :
    (e.internAtom v kind threshold).1.States (e.internAtom v kind threshold).2 v kind threshold := by
  rw [internAtom]
  split
  · rename_i a found
    refine ⟨rfl, ?_⟩
    obtain ⟨in_range, matches_fact⟩ := Array.findIdx?_eq_some_iff_getElem.1 found
    refine ⟨_, Array.getElem?_eq_getElem in_range, ?_⟩
    simpa [and_assoc] using matches_fact.1
  · rename_i absent
    have interned : Step h e { e with atoms := e.atoms.add v kind threshold } :=
      .intern v kind threshold lt ⟨rfl, rfl⟩
    have grows := ((steps_propagateAtom h _ e.atoms.atoms.size).keeps (interned.invariant inv)).grows
    refine grows.states ⟨rfl, ⟨v, kind, threshold, none, false⟩, ?_, rfl, rfl, rfl⟩
    exact (get?_add e.atoms v kind threshold _).trans (if_pos rfl)

/-! ## Splits -/

/-- The engine knows both literals of the split, every solution makes one of them true, and as far as
the values can be relied on, the bounds in force entail neither. -/
structure State.Splits (s : State) (split : CaseSplit) : Prop where
  down_known : ∃ atom, s.atoms.get? split.down.atom = some atom
  up_known : ∃ atom, s.atoms.get? split.up.atom = some atom
  complete : ∀ α, s.Solves α → s.LiteralHolds α split.down ∨ s.LiteralHolds α split.up
  down_open : s.Reliable → ¬s.HonorsLiteral split.down
  up_open : s.Reliable → ¬s.HonorsLiteral split.up

/-- The bounds do not entail a fact that the value of its variable breaks. -/
theorem State.States.open {s : State} {l : Literal} (states : s.States l v kind threshold)
    (within : s.bounds.admits v (s.stored v) = true)
    (breaks : kind.admits (.ofRat threshold) (s.stored v) = false) : ¬s.HonorsLiteral l := by
  obtain ⟨positive, atom, found, rfl, rfl, rfl⟩ := states
  rintro ⟨other, found', active, at_side, covers⟩
  obtain rfl := Option.some.inj (found.symm.trans found')
  rw [positive] at at_side covers
  have holds := BoundStore.admits_iff.1 within _ _ at_side
  exact absurd (BoundKind.admits_trans covers holds) (by simp [Atom.bound, breaks])

/-- A literal says what it was asked for. -/
theorem State.States.holds {s : State} {l : Literal} {α : Var → Rat}
    (states : s.States l v kind threshold)
    (fact : kind.admits (.ofRat threshold) (.ofRat (α v)) = true) : s.LiteralHolds α l := by
  obtain ⟨positive, atom, found, rfl, rfl, rfl⟩ := states
  intro other found'
  obtain rfl := Option.some.inj (found.symm.trans found')
  rw [Atom.means_iff_admits, positive, fact]
  rfl

/-- The split is about the variable that was chosen, and its literals state its sides. -/
structure Selected (e next : Engine) (split : CaseSplit) : Prop where
  chosen : ∃ c, e.chosenCandidate? = some c ∧ c.var = split.var
  fractional : split.var ∈ e.fractionalVars
  value : e.value split.var = split.value
  same : ∃ atoms propagations,
    next.toState = { e.toState with atoms := atoms, propagations := propagations }
  down : next.States split.down split.var .upper split.value.floor
  up : next.States split.up split.var .lower split.value.ceil

/-- The split is about the variable that the selector names, or the first candidate if it names none of
them, and its atoms state the sides next to the value. -/
theorem selected_selectBranch (inv : e.Invariant h) (selects : e.selectBranch = (next, some split)) :
    Selected e next split := by
  rw [selectBranch] at selects
  split at selects
  · cases selects
  · rename_i c found
    obtain ⟨w, fractional, rfl⟩ := List.mem_map.1 (mem_of_chosenCandidate? found)
    have lt := lt_of_fractional fractional
    simp only at selects
    have lower : (e.internAtom w .upper (e.value w).floor).1.States
        (e.internAtom w .upper (e.value w).floor).2 w .upper (e.value w).floor :=
      states_internAtom inv lt
    have first := steps_internAtom (h := h) lt .upper (e.value w).floor
    obtain ⟨_, _, same⟩ := internAtom_toState e w .upper (e.value w).floor
    generalize e.internAtom w .upper (e.value w).floor = result at selects lower first same
    obtain ⟨mid, down⟩ := result
    have mid_inv := first.invariant inv
    have mid_lt := Nat.lt_of_lt_of_le lt (first.keeps inv).numVars
    have upper : (mid.internAtom w .lower (e.value w).ceil).1.States
        (mid.internAtom w .lower (e.value w).ceil).2 w .lower (e.value w).ceil :=
      states_internAtom mid_inv mid_lt
    have second := steps_internAtom (h := h) mid_lt .lower (e.value w).ceil
    obtain ⟨_, _, same'⟩ := internAtom_toState mid w .lower (e.value w).ceil
    simp only at selects
    generalize mid.internAtom w .lower (e.value w).ceil = result at selects upper second same'
    obtain ⟨last, up⟩ := result
    simp only at selects
    obtain ⟨next_eq, split_eq⟩ := Prod.mk.inj selects
    obtain rfl := Option.some.inj split_eq
    have next_state : next.toState = last.toState := by
      rw [← next_eq]
      rfl
    refine ⟨⟨_, found, rfl⟩, fractional, rfl, ?_, ?_, ?_⟩
    · rw [next_state, same', same]
      exact ⟨_, _, rfl⟩
    · rw [next_state]
      exact (second.keeps mid_inv).grows.states lower
    · rw [next_state]
      exact upper

section Selected

variable (selected : Selected e next split) (feasible : e.Feasible)
include selected

theorem Selected.isInt : next.isInt split.var = true := by
  obtain ⟨_, _, same⟩ := selected.same
  rw [same]
  exact isInt_of_isFractional selected.fractional

theorem Selected.not_integer : split.value.isInteger = false := by
  have fractional := (List.mem_filter.1 selected.fractional).2
  rw [isFractional, selected.value, Bool.and_eq_true, Bool.not_eq_true'] at fractional
  exact fractional.2

include feasible

theorem Selected.stored : next.stored split.var = split.value := by
  obtain ⟨_, _, same⟩ := selected.same
  rw [same, ← selected.value, feasible.value]
  rfl

theorem Selected.within : next.bounds.admits split.var split.value = true := by
  have stored := selected.stored feasible
  obtain ⟨_, _, same⟩ := selected.same
  rw [← stored, same]
  exact feasible.admits split.var (lt_of_fractional selected.fractional)

end Selected

/-- A split that was selected in a feasible state cuts the current value out of an integer variable and
loses no integer. -/
theorem Selected.splits (selected : Selected e next split)
    (feasible : next.Reliable → e.Feasible) : next.Splits split := by
  obtain ⟨below, above, next_to⟩ := InfRat.between_of_not_integer selected.not_integer
  have within (reliable : next.Reliable) :
      next.bounds.admits split.var (next.stored split.var) = true := by
    rw [selected.stored (feasible reliable)]
    exact selected.within (feasible reliable)
  refine
    { down_known := selected.down.known.imp fun _ found => found.1
      up_known := selected.up.known.imp fun _ found => found.1
      complete := fun α solves => ?_
      down_open := fun reliable => selected.down.open (within reliable) ?_
      up_open := fun reliable => selected.up.open (within reliable) ?_ }
  · obtain ⟨n, value⟩ := solves.integral split.var selected.isInt
    rcases lt_or_ge split.value.floor n with higher | lower_or_equal
    · refine .inr (selected.up.holds ?_)
      rw [BoundKind.admits_lower, InfRat.ofRat_le, value]
      exact_mod_cast next_to.trans higher
    · refine .inl (selected.down.holds ?_)
      rw [BoundKind.admits_upper, InfRat.ofRat_le, value]
      exact_mod_cast lower_or_equal
  · rw [selected.stored (feasible reliable), ← Bool.not_eq_true, BoundKind.admits_upper]
    exact not_le_of_gt below
  · rw [selected.stored (feasible reliable), ← Bool.not_eq_true, BoundKind.admits_lower]
    exact not_le_of_gt above

/-- Where the answer is a split, it was selected and no cut was made. -/
theorem selectBranch_of_cutOrBranch {cuts : Nat} (found : (e.cutOrBranch cuts).2 = .branch split) :
    e.selectBranch = ((e.cutOrBranch cuts).1, some split) := by
  rw [cutOrBranch] at found ⊢
  split
  · rename_i no_cut
    rw [no_cut] at found
    rw [askBranch] at found ⊢
    split
    · rename_i next chosen result
      rw [result] at found
      obtain rfl := IntegerOutcome.branch.inj found
      exact result
    · rename_i next result
      rw [result] at found
      cases found
  · rename_i r row cut
    rw [cut] at found
    simp only at found
    split at found <;> cases found

/-- Integer reasoning that asks for a case split selects it after patching. -/
theorem selectBranch_of_checkIntegers (cuts : Nat) (inv : e.Invariant h)
    (normalized : e.tableau.Normalized) (found : (e.checkIntegers cuts).2 = .branch split) :
    ∃ patched, Moved h e patched ∧ patched.selectBranch = ((e.checkIntegers cuts).1, some split) := by
  rw [checkIntegers] at found ⊢
  split
  · rename_i integral
    rw [if_pos integral] at found
    cases found
  · rename_i fractional
    rw [if_neg fractional] at found
    generalize counted_eq : ({ e with integerChecks := e.integerChecks + 1 } : Engine) = counted
      at found ⊢
    have becomes : e.Becomes e.toState counted := by
      rw [← counted_eq]
      exact ⟨rfl, rfl⟩
    simp only at found ⊢
    generalize result : forEach testDivisibility counted.tableau.rowIds counted = tests at found ⊢
    obtain ⟨tested, ok⟩ := tests
    cases ok with
    | false => cases found
    | true =>
      have moved := moved_tested (h := h) inv normalized becomes result
      simp only at found ⊢
      split
      · rename_i integral
        rw [if_pos integral] at found
        cases found
      · rename_i fractional'
        rw [if_neg fractional'] at found
        exact ⟨_, moved, selectBranch_of_cutOrBranch found⟩

/-- What integer reasoning leaves behind that asks for a case split. -/
theorem selected_checkIntegers (cuts : Nat) (inv : e.Invariant h)
    (normalized : e.tableau.Normalized) (found : (e.checkIntegers cuts).2 = .branch split) :
    ∃ patched, Moved h e patched ∧ Selected patched (e.checkIntegers cuts).1 split := by
  obtain ⟨patched, moved, selects⟩ := selectBranch_of_checkIntegers cuts inv normalized found
  exact ⟨patched, moved, selected_selectBranch (moved.steps.invariant inv) selects⟩

/-- When integer reasoning asks for a case split, the split is complete and open. -/
theorem splits_checkIntegers (cuts : Nat) (inv : e.Invariant h) (normalized : e.tableau.Normalized)
    (feasible : e.Reliable → e.Feasible) (found : (e.checkIntegers cuts).2 = .branch split) :
    (e.checkIntegers cuts).1.Splits split := by
  obtain ⟨patched, moved, selected⟩ := selected_checkIntegers cuts inv normalized found
  refine selected.splits fun reliable => moved.feasible (feasible ?_)
  obtain ⟨_, _, same⟩ := selected.same
  rw [same] at reliable
  exact (moved.steps.reliable_iff inv).1 reliable

end Engine

end ArithDecide
