import ArithDecide.Integer.Branching
import ArithDecide.Proofs.Propagation

/-!
# Harmless moves keep the assignment feasible

An assignment is feasible when every row is in reduced form and holds and every variable lies within
its bounds; a successful propagation ends in one. Moves that `Engine.admitsMove` allows keep it so and
take no integral value from an integer base, and patching consists of such moves.
-/

namespace ArithDecide

namespace InfRat

theorem isInteger_iff {a : InfRat} : a.isInteger = true ↔ ∃ n : Int, a = .ofRat n := by
  rw [isInteger, isRational, Bool.and_eq_true, decide_eq_true_eq]
  constructor
  · rintro ⟨no_eps, integral⟩
    exact ⟨a.real.num, InfRat.ext (Rat.eq_num_of_isInt integral) no_eps⟩
  · rintro ⟨n, rfl⟩
    exact ⟨rfl, by rw [ofRat_real, Rat.isInt, Rat.den_intCast]; rfl⟩

end InfRat

namespace Engine

open State

variable {e next last : Engine} {h : History} {v w : Var} {delta : InfRat}

/-! ## Feasible assignments -/

/-- Every row is in reduced form and holds, and every variable lies within its bounds. -/
structure State.Feasible (s : State) : Prop where
  normalized : s.tableau.Normalized
  rows : ∀ r row, s.tableau.get? r = some row → row.Holds s.stored
  admits : ∀ v, v < s.numVars → s.bounds.admits v (s.stored v) = true

/-- Every integer variable has an integral value. -/
def State.Integral (s : State) : Prop :=
  ∀ v, s.isInt v = true → (s.stored v).isInteger = true

/-- Without pending rows every value is a stored one. -/
theorem State.value_eq_stored {s : State} (normalized : s.tableau.Normalized) (v : Var) :
    s.value v = s.stored v :=
  State.value_of_kind (normalized.kind_ne v)

theorem State.Feasible.value {s : State} (feasible : s.Feasible) (v : Var) :
    s.value v = s.stored v :=
  s.value_eq_stored feasible.normalized v

/-- When nothing is left to be patched, every variable lies within its bounds. -/
theorem feasible_of_clean (inv : e.Invariant h) (reliable : e.Reliable)
    (normalized : e.tableau.Normalized) (clean : e.toPatch = []) : e.Feasible where
  normalized := normalized
  rows r row found := (inv.assigned reliable).rows r row found (normalized r row found)
  admits v lt := by
    by_cases free : e.kind v = .nonBase
    · exact (inv.assigned reliable).within v lt free List.not_mem_nil
    · rw [State.kind, Tableau.kind_eq_nonBase_iff] at free
      push Not at free
      obtain ⟨r, row, found, rfl⟩ := free
      refine (inv.patched r row found (normalized r row found)
        List.not_mem_nil).resolve_right ?_
      rw [clean]
      exact List.not_mem_nil

theorem isInt_of_isFractional (fractional : v ∈ e.fractionalVars) : e.isInt v = true :=
  (Bool.and_eq_true_iff.1 (List.mem_filter.1 fractional).2).1

theorem lt_of_fractional (fractional : v ∈ e.fractionalVars) : v < e.numVars :=
  List.mem_range.1 (List.mem_filter.1 fractional).1

theorem integral_iff (normalized : e.tableau.Normalized) :
    e.fractionalVars = [] ↔ e.Integral := by
  rw [fractionalVars, List.filter_eq_nil_iff]
  constructor
  · intro none_left v integer
    have := none_left v (List.mem_range.2 (isInt_lt integer))
    rw [isFractional, State.value_eq_stored normalized, integer] at this
    simpa using this
  · intro integral v _ fractional
    rw [isFractional, State.value_eq_stored normalized, Bool.and_eq_true, Bool.not_eq_true'] at fractional
    rw [integral v fractional.1] at fractional
    cases fractional.2

/-! ## Moves -/

/-- Harmless moves lead from the first engine to the second one. -/
structure Moved (h : History) (e next : Engine) : Prop where
  steps : Steps h e next
  only : ValuesOnly e next
  feasible : e.Feasible → next.Feasible

theorem Moved.refl (h : History) (e : Engine) : Moved h e e := ⟨.refl, .refl e, id⟩

theorem Moved.trans (first : Moved h e next) (second : Moved h next last) : Moved h e last :=
  ⟨first.steps.trans second.steps, first.only.trans second.only, second.feasible ∘ first.feasible⟩

theorem Moved.quiet (moved : Moved h e next) (becomes : next.Becomes next.toState last) :
    Moved h e last where
  steps := moved.steps.trans becomes.steps
  only := ⟨by rw [becomes.toState]; exact moved.only.toState,
    by rw [becomes.toState]; exact moved.only.size,
    by rw [becomes.toState]; exact moved.only.trail,
    by rw [becomes.toState]; exact moved.only.marked⟩
  feasible feasible := becomes.toState ▸ moved.feasible feasible

theorem Moved.touched (moved : Moved h e next) : next.touched = e.touched := by
  rw [moved.only.toState]

/-- What `admitsMove` checks for each row in reduced form. -/
theorem rowAdmits_of_admitsMove {target : InfRat} {r : RowId} {row : Row}
    (harmless : e.admitsMove v target delta = true) (found : e.tableau.get? r = some row)
    (settled : row.pending = false) (occurs : row.form.coeff v ≠ 0) :
    e.rowAdmitsMove v delta row = true := by
  rw [admitsMove, Bool.and_eq_true, List.all_eq_true] at harmless
  have := harmless.2 r (Tableau.mem_rowsMentioning.2 ⟨row, found, occurs⟩)
  simpa [found, settled] using this

section Move

variable (fitted : e.Fitted) (lt : v < e.numVars) (free : e.kind v = .nonBase)
include fitted lt free

/-- Where a move takes a variable: to the target if it is the moved one, along with its row if it heads
one that mentions the moved one, and nowhere otherwise. -/
theorem stored_updateValue_cases (normalized : e.tableau.Normalized) (delta : InfRat) (w : Var) :
    (w = v ∧ (e.updateValue v delta).stored w = e.stored v + delta) ∨
      (∃ r row, e.tableau.get? r = some row ∧ row.base = w ∧ row.form.coeff v ≠ 0 ∧
        (e.updateValue v delta).stored w =
          e.stored row.base + delta.scale (row.form.coeff v)) ∨
      (e.updateValue v delta).stored w = e.stored w := by
  have heads_none := Tableau.kind_eq_nonBase_iff.1 free
  by_cases same : w = v
  · subst same
    exact .inl ⟨rfl, stored_updateValue_self fitted.values_size fitted.tableau lt heads_none⟩
  by_cases heads : ∃ r row, e.tableau.get? r = some row ∧ row.base = w
  · obtain ⟨r, row, found, rfl⟩ := heads
    have moved := stored_updateValue_base delta fitted.values_size fitted.tableau lt
      heads_none found
    rw [carried, normalized r row found, if_neg Bool.false_ne_true] at moved
    by_cases occurs : row.form.coeff v = 0
    · rw [occurs, InfRat.scale_zero, add_zero] at moved
      exact .inr (.inr moved)
    · exact .inr (.inl ⟨r, row, found, rfl, occurs, moved⟩)
  · refine .inr (.inr (stored_updateValue_of_ne fitted.values_size fitted.tableau lt same ?_))
    intro r row found same_base
    exact heads ⟨r, row, found, same_base⟩

/-- A harmless move keeps the assignment feasible. -/
theorem feasible_updateValue (feasible : e.Feasible)
    (harmless : e.admitsMove v (e.stored v + delta) delta = true) :
    (e.updateValue v delta).Feasible := by
  have only := valuesOnly_updateValue e v delta
  refine ⟨?_, ?_, ?_⟩
  · rw [only.tableau]
    exact feasible.normalized
  · intro r row found
    rw [only.tableau] at found
    exact holds_updateValue fitted lt free found (feasible.normalized r row found)
      (feasible.rows r row found)
  · intro w w_lt
    rw [numVars_congr only.columns] at w_lt
    rw [only.bounds]
    rcases stored_updateValue_cases fitted lt free feasible.normalized delta w with
      ⟨rfl, moved⟩ | ⟨r, row, found, rfl, occurs, moved⟩ | kept
    · rw [moved]
      exact (Bool.and_eq_true_iff.1 harmless).1
    · rw [moved]
      have row_admits := rowAdmits_of_admitsMove harmless found
        (feasible.normalized r row found) occurs
      exact (Bool.and_eq_true_iff.1 row_admits).2
    · rw [kept]
      exact feasible.admits w w_lt

theorem moved_updateValue (harmless : e.admitsMove v (e.stored v + delta) delta = true) :
    Moved h e (e.updateValue v delta) where
  steps := .single (.move v delta lt free (Bool.and_eq_true_iff.1 harmless).1 rfl)
  only := valuesOnly_updateValue e v delta
  feasible feasible := feasible_updateValue fitted lt free feasible harmless

/-- A harmless move of a variable to a value that suits its sort keeps integral values integral. -/
theorem isInteger_updateValue (feasible : e.Feasible)
    (harmless : e.admitsMove v (e.stored v + delta) delta = true)
    (suits : e.isInt v = true → (e.stored v + delta).isInteger = true)
    (integer : e.isInt w = true) (integral : (e.stored w).isInteger = true) :
    ((e.updateValue v delta).stored w).isInteger = true := by
  rcases stored_updateValue_cases fitted lt free feasible.normalized delta w with
    ⟨rfl, moved⟩ | ⟨r, row, found, rfl, occurs, moved⟩ | kept
  · rw [moved]
    exact suits integer
  · rw [moved]
    have row_admits := rowAdmits_of_admitsMove harmless found
      (feasible.normalized r row found) occurs
    simpa [rowAdmitsMove, integer, integral] using (Bool.and_eq_true_iff.1 row_admits).1
  · rw [kept]
    exact integral

theorem integral_updateValue (feasible : e.Feasible)
    (harmless : e.admitsMove v (e.stored v + delta) delta = true) (integral : e.Integral)
    (suits : e.isInt v = true → (e.stored v + delta).isInteger = true) :
    (e.updateValue v delta).Integral := by
  intro w integer
  rw [isInt_congr (valuesOnly_updateValue e v delta).columns] at integer
  exact isInteger_updateValue fitted lt free feasible harmless suits integer (integral w integer)

end Move

/-! ## Patching -/

/-- The moves concern variables that head no row. -/
def OffersFree (e : Engine) (moves : List (Var × InfRat)) : Prop :=
  ∀ move ∈ moves, move.1 < e.numVars ∧ e.kind move.1 = .nonBase

/-- A patch only moves variables that head no row, by what it offers, and the bases follow. -/
theorem moved_patch {moves : Engine → Var → List (Var × InfRat)} (inv : e.Invariant h)
    (offers : ∀ tried : Engine, Moved h e tried → tried.OffersFree (moves tried v)) :
    Moved h e (patch moves e v) := by
  rw [patch]
  generalize tried_eq : e.count (fun s => { s with patches := s.patches + 1 }) = tried
  have tried_moved : Moved h e tried :=
    (Moved.refl h e).quiet (by rw [← tried_eq]; exact ⟨rfl, rfl⟩)
  have formed := (tried_moved.steps.invariant inv).founded.formed
  split
  · exact tried_moved
  · rename_i moved delta found
    have harmless := List.find?_some found
    obtain ⟨lt, free⟩ := offers tried tried_moved _ (List.mem_of_find?_eq_some found)
    have moves := moved_updateValue (h := h) formed.toFitted lt free harmless
    exact (tried_moved.trans moves).quiet ⟨rfl, rfl⟩

theorem moved_foldl_patch {moves : Engine → Var → List (Var × InfRat)} {vs : List Var}
    (inv : e.Invariant h)
    (offers : ∀ later : Engine, Moved h e later → ∀ v ∈ vs, later.OffersFree (moves later v)) :
    Moved h e (vs.foldl (patch moves) e) := by
  induction vs generalizing e with
  | nil => exact .refl h e
  | cons v rest ih =>
    have first : Moved h e (patch moves e v) :=
      moved_patch inv fun tried moved => offers tried moved v List.mem_cons_self
    refine first.trans (ih (first.steps.invariant inv) fun later moved w member => ?_)
    exact offers later (first.trans moved) w (List.mem_cons_of_mem _ member)

theorem offersFree_ownMoves (lt : v < e.numVars) (free : e.kind v = .nonBase) :
    e.OffersFree (e.ownMoves v) := by
  intro move member
  obtain ⟨target, -, rfl⟩ := List.mem_map.1 member
  exact ⟨lt, free⟩

theorem offersFree_rowMoves (fitted : e.Fitted) (normalized : e.tableau.Normalized) (base : Var) :
    e.OffersFree (e.rowMoves base) := by
  intro move member
  rw [rowMoves] at member
  split at member
  · cases member
  · rename_i row found
    obtain ⟨r, -, at_r⟩ := Option.bind_eq_some_iff.1 found
    obtain ⟨t, at_t, member⟩ := List.mem_flatMap.1 member
    obtain ⟨target, -, rfl⟩ := List.mem_map.1 member
    have occurs := LinearForm.mentions_iff.1 (LinearForm.mentions_of_mem (List.mem_filter.1 at_t).1)
    exact ⟨fitted.tableau.var_lt at_r occurs,
      kind_eq_nonBase_of_mentioned fitted at_r (normalized r row at_r) occurs⟩

/-- Patching makes harmless moves only. -/
theorem moved_patchIntegers (inv : e.Invariant h) (normalized : e.tableau.Normalized) :
    Moved h e e.patchIntegers := by
  rw [patchIntegers]
  have own : Moved h e ((e.fractionalVars.filter fun v => e.kind v = .nonBase).foldl
      (patch ownMoves) e) := by
    refine moved_foldl_patch inv fun later moved v member => ?_
    obtain ⟨fractional, free⟩ := List.mem_filter.1 member
    refine offersFree_ownMoves ?_ ?_
    · rw [numVars_congr moved.only.columns]
      exact lt_of_fractional fractional
    · rw [kind_congr moved.only.tableau]
      exact of_decide_eq_true free
  refine own.trans (moved_foldl_patch (own.steps.invariant inv) fun later moved v _ => ?_)
  exact offersFree_rowMoves
    (moved.steps.invariant (own.steps.invariant inv)).founded.formed.toFitted
    (moved.steps.normalized (own.steps.normalized normalized)) v

end Engine

end ArithDecide
