import Mathlib.Data.Finset.Basic
import ArithDecide.Proofs.Deciding

/-!
# Patching and repairing monomials do no harm

Patching fractional values and moving monomials onto the products of their factors start from a feasible
assignment and make moves only that keep it feasible. Here they are followed move by move:
`Engine.KeepsFeasible` says what no such move changes, and `Engine.Unharmed` adds that no integral value
of an integer variable is lost. Nothing but the assignment being feasible and the tables fitting together
is asked of the engine, so this holds wherever a check may have come to.

The bases that are patched are listed before the first of them is moved. One that is still fractional
when its turn comes becomes integral, and one that an earlier move has made integral stays where it is.
-/

namespace ArithDecide

namespace InfRat

theorem floor_ofRat_int (n : Int) : (ofRat n).floor = n := by
  simp [floor, Rat.floor_intCast]

theorem ceil_ofRat_int (n : Int) : (ofRat n).ceil = n := by
  simp [ceil, Rat.ceil_intCast]

end InfRat

namespace Engine

open State

variable {e next last : Engine} {v w base : Var} {delta : InfRat} {m : Monomial}

/-! ## What harmless moves keep -/

/-- The assignment stays feasible, and only values change. -/
structure KeepsFeasible (e next : Engine) : Prop where
  feasible : next.Feasible
  fitted : next.Fitted
  tableau : next.tableau = e.tableau
  bounds : next.bounds = e.bounds
  atoms : next.atoms = e.atoms
  columns : next.columns = e.columns
  monomials : next.monomials = e.monomials

/-- Also, every integer variable that was integral still is. -/
structure Unharmed (e next : Engine) : Prop extends KeepsFeasible e next where
  integral : ∀ v, e.isInt v = true → (e.value v).isInteger = true → (next.value v).isInteger = true

theorem KeepsFeasible.trans (first : KeepsFeasible e next) (second : KeepsFeasible next last) :
    KeepsFeasible e last where
  feasible := second.feasible
  fitted := second.fitted
  tableau := second.tableau.trans first.tableau
  bounds := second.bounds.trans first.bounds
  atoms := second.atoms.trans first.atoms
  columns := second.columns.trans first.columns
  monomials := second.monomials.trans first.monomials

theorem Unharmed.trans (first : Unharmed e next) (second : Unharmed next last) : Unharmed e last where
  toKeepsFeasible := first.toKeepsFeasible.trans second.toKeepsFeasible
  integral v integer was :=
    second.integral v ((isInt_congr first.columns v).trans integer) (first.integral v integer was)

theorem unharmed_of_same (fitted : e.Fitted) (feasible : e.Feasible)
    (same : next.toState = e.toState) : Unharmed e next := by
  refine ⟨⟨?_, ?_, ?_, ?_, ?_, ?_, ?_⟩, fun v _ was => ?_⟩
  all_goals rw [same]
  · exact feasible
  · exact fitted
  · exact was

/-- The integer variables that are fractional afterwards were so before. -/
theorem Unharmed.fractionalVars_subset (unharmed : Unharmed e next) :
    next.fractionalVars ⊆ e.fractionalVars := by
  intro v fractional
  obtain ⟨integer, broken⟩ := Bool.and_eq_true_iff.1 (mem_fractionalVars.1 fractional)
  rw [isInt_congr unharmed.columns] at integer
  rw [Bool.not_eq_true'] at broken
  refine mem_fractionalVars.2 (Bool.and_eq_true_iff.2 ⟨integer, ?_⟩)
  rw [Bool.not_eq_true', Bool.eq_false_iff]
  intro was
  rw [unharmed.integral v integer was] at broken
  cases broken

section Move

variable (fitted : e.Fitted) (feasible : e.Feasible) (lt : v < e.numVars) (free : e.kind v = .nonBase)
  (harmless : e.admitsMove v (e.stored v + delta) delta = true)
include fitted feasible lt free harmless

theorem keepsFeasible_updateValue : KeepsFeasible e (e.updateValue v delta) := by
  have only := valuesOnly_updateValue e v delta
  refine ⟨feasible_updateValue fitted lt free feasible harmless, fitted_of_valuesOnly fitted only,
    only.tableau, only.bounds, ?_, only.columns, ?_⟩
  all_goals rw [only.toState]

/-- A harmless move of a variable to a value that suits its sort. -/
theorem unharmed_updateValue (suits : e.isInt v = true → (e.stored v + delta).isInteger = true) :
    Unharmed e (e.updateValue v delta) := by
  have keeps := keepsFeasible_updateValue fitted feasible lt free harmless
  refine ⟨keeps, fun w integer was => ?_⟩
  rw [feasible.value] at was
  rw [keeps.feasible.value]
  exact isInteger_updateValue fitted lt free feasible harmless suits integer was

end Move

/-! ## Patching -/

/-- A patch changes nothing, or makes a harmless one of the offered moves. -/
theorem patch_cases (moves : Engine → Var → List (Var × InfRat)) (e : Engine) (v : Var) :
    ((patch moves e v).toState = e.toState ∧
        (patch moves e v).statistics.patchesSucceeded = e.statistics.patchesSucceeded) ∨
      ∃ tried moved delta, tried.toState = e.toState ∧ (moved, delta) ∈ moves tried v ∧
        tried.admitsMove moved (tried.stored moved + delta) delta = true ∧
        (patch moves e v).toState = (tried.updateValue moved delta).toState := by
  rw [patch]
  generalize tried_eq : e.count (fun s => { s with patches := s.patches + 1 }) = tried
  have same : tried.toState = e.toState := tried_eq ▸ rfl
  have counted : tried.statistics.patchesSucceeded = e.statistics.patchesSucceeded := tried_eq ▸ rfl
  split
  · exact .inl ⟨same, counted⟩
  · rename_i moved delta found
    have harmless := List.find?_some found
    exact .inr ⟨tried, moved, delta, same, List.mem_of_find?_eq_some found, harmless, rfl⟩

theorem unharmed_patch {moves : Engine → Var → List (Var × InfRat)} (fitted : e.Fitted)
    (feasible : e.Feasible)
    (offers : ∀ tried : Engine, tried.toState = e.toState → tried.OffersFree (moves tried v))
    (suits : ∀ tried : Engine, tried.SuitsSorts (moves tried v)) : Unharmed e (patch moves e v) := by
  obtain ⟨same, -⟩ | ⟨tried, moved, delta, same, offered, harmless, done⟩ := patch_cases moves e v
  · exact unharmed_of_same fitted feasible same
  · have first := unharmed_of_same fitted feasible same
    obtain ⟨lt, free⟩ := offers tried same _ offered
    have second := unharmed_updateValue first.fitted first.feasible lt free harmless
      (suits tried _ offered)
    exact (first.trans second).trans (unharmed_of_same second.fitted second.feasible done)

theorem unharmed_patch_rowMoves (fitted : e.Fitted) (feasible : e.Feasible) (base : Var) :
    Unharmed e (patch rowMoves e base) := by
  refine unharmed_patch fitted feasible (fun tried same => ?_) fun tried => suitsSorts_rowMoves tried base
  exact offersFree_rowMoves (same ▸ fitted) (same ▸ feasible.normalized) base

/-- The engine when the variables that head no row have had their turn. -/
def patchedFree (e : Engine) : Engine :=
  (e.fractionalVars.filter fun v => e.kind v = .nonBase).foldl (patch ownMoves) e

/-- The bases that have their turn then. -/
def patchedBases (e : Engine) : List Var :=
  e.patchedFree.fractionalVars.filter fun v => e.patchedFree.kind v = .base

/-- The engine when some of the bases have had their turn. -/
def afterBases (e : Engine) (done : List Var) : Engine := done.foldl (patch rowMoves) e.patchedFree

theorem patchIntegers_eq (e : Engine) : e.patchIntegers = e.afterBases e.patchedBases := rfl

theorem afterBases_append (e : Engine) (done : List Var) (base : Var) :
    e.afterBases (done ++ [base]) = patch rowMoves (e.afterBases done) base := by
  rw [afterBases, List.foldl_append]
  rfl

theorem unharmed_patchedFree (fitted : e.Fitted) (feasible : e.Feasible) :
    Unharmed e e.patchedFree := by
  refine List.foldlRecOn _ _ (unharmed_of_same fitted feasible rfl) fun later unharmed v member => ?_
  obtain ⟨fractional, free⟩ := List.mem_filter.1 member
  refine unharmed.trans (unharmed_patch unharmed.fitted unharmed.feasible (fun tried same => ?_)
    fun tried => suitsSorts_ownMoves tried v)
  refine offersFree_ownMoves ?_ ?_
  · rw [same, numVars_congr unharmed.columns]
    exact lt_of_fractional fractional
  · rw [same, kind_congr unharmed.tableau]
    exact of_decide_eq_true free

/-- However many bases have had their turn, no harm was done. -/
theorem unharmed_afterBases (fitted : e.Fitted) (feasible : e.Feasible) (done : List Var) :
    Unharmed e (e.afterBases done) :=
  List.foldlRecOn _ _ (unharmed_patchedFree fitted feasible) fun _ unharmed base _ =>
    unharmed.trans (unharmed_patch_rowMoves unharmed.fitted unharmed.feasible base)

/-- The moves for a base bring it to the integers next to its value. -/
theorem exists_of_mem_rowMoves (member : (w, delta) ∈ e.rowMoves base) :
    ∃ r row, e.tableau.get? r = some row ∧ row.base = base ∧ row.form.coeff w ≠ 0 ∧
      ∃ target : Int, (target = (e.stored base).floor ∨ target = (e.stored base).ceil) ∧
        delta = (.ofRat target - e.stored base).divide (row.form.coeff w) := by
  rw [rowMoves] at member
  split at member
  · cases member
  · rename_i row found
    obtain ⟨r, heads, at_r⟩ := Option.bind_eq_some_iff.1 found
    obtain ⟨headed, at_r', same⟩ := Tableau.get?_of_rowOf? heads
    obtain rfl := Option.some.inj (at_r.symm.trans at_r')
    obtain ⟨t, at_t, member⟩ := List.mem_flatMap.1 member
    obtain ⟨target, next_to, same_move⟩ := List.mem_map.1 member
    obtain ⟨rfl, rfl⟩ := Prod.mk.inj same_move
    obtain ⟨coeff_eq, nonzero⟩ := LinearForm.mem_terms_iff.1 (List.mem_filter.1 at_t).1
    exact ⟨r, row, at_r, same, coeff_eq ▸ nonzero, target, List.mem_pair.1 next_to, by rw [coeff_eq]⟩

/-- A successful patch of a fractional base leaves fewer fractional variables. -/
theorem fractionalVars_ssubset (fitted : e.Fitted) (feasible : e.Feasible)
    (fractional : e.isFractional base = true)
    (succeeds : (patch rowMoves e base).statistics.patchesSucceeded ≠ e.statistics.patchesSucceeded) :
    (patch rowMoves e base).fractionalVars.toFinset ⊂ e.fractionalVars.toFinset := by
  have unharmed := unharmed_patch_rowMoves fitted feasible base
  have subset : (patch rowMoves e base).fractionalVars.toFinset ⊆ e.fractionalVars.toFinset :=
    fun v => by simpa only [List.mem_toFinset] using fun member => unharmed.fractionalVars_subset member
  refine (Finset.ssubset_iff_of_subset subset).2 ⟨base, ?_, fun still => ?_⟩
  · exact List.mem_toFinset.2 (mem_fractionalVars.2 fractional)
  obtain ⟨-, failed⟩ | ⟨tried, moved, delta, same, offered, harmless, done⟩ := patch_cases rowMoves e base
  · exact succeeds failed
  have tried_fitted : tried.Fitted := same ▸ fitted
  have tried_feasible : tried.Feasible := same ▸ feasible
  obtain ⟨lt, free⟩ := offersFree_rowMoves tried_fitted tried_feasible.normalized base _ offered
  obtain ⟨r, row, found, rfl, occurs, target, -, rfl⟩ := exists_of_mem_rowMoves offered
  have reached := stored_updateValue_base
    ((InfRat.ofRat target - tried.stored row.base).divide (row.form.coeff moved))
    tried_fitted.values_size tried_fitted.tableau lt (Tableau.kind_eq_nonBase_iff.1 free) found
  rw [carried, tried_feasible.normalized r row found, if_neg Bool.false_ne_true,
    InfRat.scale_divide occurs, add_sub_cancel, ← done] at reached
  have broken := (Bool.and_eq_true_iff.1 (mem_fractionalVars.1 (List.mem_toFinset.1 still))).2
  rw [unharmed.feasible.value, reached, InfRat.isInteger_iff.2 ⟨target, rfl⟩] at broken
  cases broken

/-- A base that is integral when its turn comes stays where it is, and so does everything else. -/
theorem stored_patch_of_integral (fitted : e.Fitted) (feasible : e.Feasible)
    (integral : (e.value base).isInteger = true) (v : Var) :
    (patch rowMoves e base).stored v = e.stored v := by
  obtain ⟨unchanged, -⟩ | ⟨tried, moved, delta, same, offered, -, done⟩ := patch_cases rowMoves e base
  · rw [unchanged]
  have tried_fitted : tried.Fitted := same ▸ fitted
  have tried_feasible : tried.Feasible := same ▸ feasible
  obtain ⟨lt, free⟩ := offersFree_rowMoves tried_fitted tried_feasible.normalized base _ offered
  obtain ⟨r, row, found, rfl, -, target, next_to, rfl⟩ := exists_of_mem_rowMoves offered
  rw [feasible.value] at integral
  obtain ⟨n, value⟩ := InfRat.isInteger_iff.1 integral
  have reached : InfRat.ofRat target - tried.stored row.base = 0 := by
    rw [same, value, InfRat.floor_ofRat_int, InfRat.ceil_ofRat_int, or_self] at next_to
    rw [same, value, next_to, sub_self]
  have stays : (InfRat.ofRat target - tried.stored row.base).divide (row.form.coeff moved) = 0 := by
    rw [reached, InfRat.divide_eq_scale, InfRat.zero_scale]
  rw [done, stays]
  rcases stored_updateValue_cases tried_fitted lt free tried_feasible.normalized 0 v with
    ⟨rfl, kept⟩ | ⟨_, row, -, rfl, -, kept⟩ | kept
  · rw [kept, add_zero, same]
  · rw [kept, InfRat.zero_scale, add_zero, same]
  · rw [kept, same]

/-! ## Repairing monomials -/

theorem keepsFeasible_repairMonomial (fitted : e.Fitted) (feasible : e.Feasible)
    (lt : m.var < e.numVars) : KeepsFeasible e (e.repairMonomial m) := by
  obtain same | ⟨traced, product, becomes, free, -, harmless, done⟩ := repairMonomial_cases e m
  · exact (unharmed_of_same fitted feasible (congrArg toState same)).toKeepsFeasible
  · have same := becomes.toState
    have first := unharmed_of_same fitted feasible same
    have second := keepsFeasible_updateValue first.fitted first.feasible (same ▸ lt) (same ▸ free)
      harmless
    exact done ▸ first.toKeepsFeasible.trans second

/-- An integer monomial with integral factors is moved onto an integer. -/
theorem unharmed_repairMonomial (fitted : e.Fitted) (feasible : e.Feasible) (lt : m.var < e.numVars)
    (factors : e.isInt m.var = true → ∀ v ∈ m.factors, (e.value v).isInteger = true) :
    Unharmed e (e.repairMonomial m) := by
  obtain same | ⟨traced, product, becomes, free, found, harmless, done⟩ := repairMonomial_cases e m
  · exact unharmed_of_same fitted feasible (congrArg toState same)
  · have same := becomes.toState
    have first := unharmed_of_same fitted feasible same
    have suits (integer : traced.isInt m.var = true) :
        (traced.stored m.var + (.ofRat product - e.stored m.var)).isInteger = true := by
      rw [same] at integer ⊢
      rw [add_sub_cancel]
      exact isInteger_factorProduct (factors integer) found
    have second := unharmed_updateValue first.fitted first.feasible (same ▸ lt) (same ▸ free) harmless
      suits
    exact done ▸ first.trans second

/-- The factors of integer monomials are integral. -/
def FactorsIntegral (e : Engine) : Prop :=
  ∀ m ∈ e.monomials, e.isInt m.var = true → ∀ v ∈ m.factors, (e.value v).isInteger = true

theorem keepsFeasible_repairMonomials (fitted : e.Fitted) (multiplied : e.Multiplied)
    (feasible : e.Feasible) : KeepsFeasible e e.repairMonomials.1 := by
  refine List.foldlRecOn _ _ (unharmed_of_same fitted feasible rfl).toKeepsFeasible
    fun later keeps m wrong => keeps.trans (keepsFeasible_repairMonomial keeps.fitted keeps.feasible ?_)
  rw [numVars_congr keeps.columns]
  exact multiplied.var_lt m (List.mem_filter.1 wrong).1

/-- Integral factors stay integral, so that monomials are moved onto integers until the end. -/
theorem unharmed_repairMonomials (fitted : e.Fitted) (multiplied : e.Multiplied)
    (feasible : e.Feasible) (factors : e.FactorsIntegral) : Unharmed e e.repairMonomials.1 := by
  refine List.foldlRecOn _ _ (unharmed_of_same fitted feasible rfl) fun later unharmed m wrong => ?_
  have member := (List.mem_filter.1 wrong).1
  refine unharmed.trans
    (unharmed_repairMonomial unharmed.fitted unharmed.feasible ?_ fun integer v factor => ?_)
  · rw [numVars_congr unharmed.columns]
    exact multiplied.var_lt m member
  · rw [isInt_congr unharmed.columns] at integer
    exact unharmed.integral v (multiplied.integral m member integer v factor)
      (factors m member integer v factor)

/-- In every engine whose tables fit together, as those of a session always do, and whose assignment is
feasible, patching and repairing monomials keep it feasible and change nothing but values. Patching takes
no integral value from an integer variable, nor does repairing if the factors of integer monomials are
integral. A successful patch of a base that is fractional when its turn comes leaves fewer fractional
integer variables; a base that was made integral before stays where it is, with everything else. When
repairing answers yes, every monomial is the product of its factors in the rational model. -/
theorem patching_harmless (fitted : e.Fitted) (multiplied : e.Multiplied) (feasible : e.Feasible) :
    Unharmed e e.patchIntegers ∧
      (∀ done base rest, e.patchedBases = done ++ base :: rest →
        let before := e.afterBases done
        let after := e.afterBases (done ++ [base])
        (after.statistics.patchesSucceeded ≠ before.statistics.patchesSucceeded →
          before.isFractional base = true →
            after.fractionalVars.toFinset ⊂ before.fractionalVars.toFinset) ∧
          (before.isFractional base = false → ∀ v, after.value v = before.value v)) ∧
      KeepsFeasible e e.repairMonomials.1 ∧
      (e.FactorsIntegral → Unharmed e e.repairMonomials.1) ∧
      (e.repairMonomials.2 = true → ∀ m ∈ e.monomials, e.repairMonomials.1.modelValue m.var =
        (m.factors.map e.repairMonomials.1.modelValue).prod) := by
  have keeps := keepsFeasible_repairMonomials fitted multiplied feasible
  refine ⟨?_, fun done base rest listed => ?_, keeps,
    unharmed_repairMonomials fitted multiplied feasible, fun agrees m member => ?_⟩
  · rw [patchIntegers_eq]
    exact unharmed_afterBases fitted feasible _
  · have before := unharmed_afterBases fitted feasible done
    have after := unharmed_patch_rowMoves before.fitted before.feasible base
    simp only [afterBases_append]
    refine ⟨fun succeeds fractional =>
      fractionalVars_ssubset before.fitted before.feasible fractional succeeds, fun settled v => ?_⟩
    rw [after.feasible.value, before.feasible.value]
    refine stored_patch_of_integral before.fitted before.feasible ?_ v
    -- the base is an integer variable, since it was fractional when the bases were listed
    have among : base ∈ e.patchedBases := by
      rw [listed]
      exact List.mem_append_right _ List.mem_cons_self
    have integer := isInt_of_isFractional (List.mem_filter.1 among).1
    rw [isInt_congr (unharmed_patchedFree fitted feasible).columns, ← isInt_congr before.columns]
      at integer
    rw [isFractional, integer, Bool.true_and, Bool.not_eq_false'] at settled
    exact settled
  · have none_wrong : e.repairMonomials.1.wrongMonomials = [] := List.isEmpty_iff.1 agrees
    by_contra disagrees
    have wrong := mem_wrongMonomials_iff.2 ⟨keeps.monomials ▸ member, disagrees⟩
    rw [none_wrong] at wrong
    cases wrong

end Engine

namespace Session

open Engine State

/-- The engine after a propagation that derives no bounds. -/
def relaxed (calls : List Call) : Engine :=
  ((start { propagateBounds := false }).run calls).engine.propagate.1

theorem relaxed_fits {calls : List Call}
    (yes : ((start { propagateBounds := false }).run calls).engine.propagate.2 = true)
    (none_entered : ((start { propagateBounds := false }).run calls).engine.scopesEntered = 0) :
    (relaxed calls).Fitted ∧ (relaxed calls).Multiplied ∧ (relaxed calls).Feasible := by
  have inv := (ready_run { propagateBounds := false } calls).invariant
  have propagated := propagated_of_yes inv yes
  have founded := (propagated.steps.invariant inv).founded
  have numbered := State.Numbered.of_none none_entered
  exact ⟨founded.formed.toFitted, founded.multiplied,
    propagated.feasible ((propagated.steps.reliable_iff inv).2 numbered.reliable)⟩

/-- A real variable that is at least one half, and two integers that equal it. -/
def twins : List Call :=
  [.mkVar .real .internal, .mkLinear .int .internal [(0, 1)], .mkLinear .int .internal [(0, 1)],
    .assertGiven 0 .lower (.ofRat (1 / 2))]

theorem relaxed_twins :
    ((start { propagateBounds := false }).run twins).engine.propagate.2 = true ∧
      (relaxed twins).patchedBases = [1, 2] ∧
      (relaxed twins).patchedFree.isFractional 1 = true ∧
      (relaxed twins).patchedFree.statistics.patchesSucceeded = 0 ∧
      ((relaxed twins).afterBases [1]).statistics.patchesSucceeded = 1 ∧
      ((relaxed twins).afterBases [1]).fractionalVars = [] ∧
      ((relaxed twins).afterBases [1, 2]).statistics.patchesSucceeded = 2 := by
  refine ⟨by cbv, by cbv, by cbv, by cbv, by cbv, by cbv, by cbv⟩

/-- An integer that is at least two, and its square. -/
def squared : List Call :=
  [.mkVar .int .internal, .mkMonomial [0, 0], .assertGiven 0 .lower (.ofRat 2)]

theorem relaxed_squared :
    ((start { propagateBounds := false }).run squared).engine.propagate.2 = true ∧
      (relaxed squared).monomials = [⟨1, [0, 0]⟩] ∧ ((relaxed squared).value 0).isInteger = true ∧
      (relaxed squared).repairMonomials.2 = true := by
  refine ⟨by cbv, by cbv, by cbv, by cbv⟩

theorem factorsIntegral_squared : (relaxed squared).FactorsIntegral := by
  obtain ⟨-, only, integral, -⟩ := relaxed_squared
  intro m member _ v factor
  rw [only, List.mem_singleton] at member
  subst member
  rw [List.mem_pair, or_self] at factor
  exact factor ▸ integral

/-- Patching the first twin makes both of them integral, patching the second one changes nothing, and
the square is moved onto four. -/
theorem patching_harmless_twins :
    ((relaxed twins).afterBases [1]).fractionalVars.toFinset ⊂
        (relaxed twins).patchedFree.fractionalVars.toFinset ∧
      (∀ v, ((relaxed twins).afterBases [1, 2]).value v = ((relaxed twins).afterBases [1]).value v) ∧
      Unharmed (relaxed squared) (relaxed squared).repairMonomials.1 ∧
      (relaxed squared).repairMonomials.1.modelValue 1 =
        ([0, 0].map (relaxed squared).repairMonomials.1.modelValue).prod := by
  obtain ⟨yes, listed, fractional, none_yet, once, settled, -⟩ := relaxed_twins
  obtain ⟨yes', only, -, agrees⟩ := relaxed_squared
  obtain ⟨fitted, multiplied, feasible⟩ := relaxed_fits yes (by cbv)
  obtain ⟨fitted', multiplied', feasible'⟩ := relaxed_fits yes' (by cbv)
  obtain ⟨-, turns, -⟩ := patching_harmless fitted multiplied feasible
  obtain ⟨-, -, -, unharmed, products⟩ := patching_harmless fitted' multiplied' feasible'
  have still_settled : ((relaxed twins).afterBases [1]).isFractional 2 = false := by
    rw [← Bool.not_eq_true, ← mem_fractionalVars, settled]
    exact List.not_mem_nil
  refine ⟨(turns [] 1 [2] listed).1 ?_ fractional, (turns [1] 2 [] listed).2 still_settled,
    unharmed factorsIntegral_squared, products agrees ⟨1, [0, 0]⟩ ?_⟩
  · show ((relaxed twins).afterBases [1]).statistics.patchesSucceeded ≠
      (relaxed twins).patchedFree.statistics.patchesSucceeded
    rw [none_yet, once]
    decide
  · rw [only]
    exact List.mem_singleton_self _

/-- An integer that is at least one half, its half, and the product of the two. -/
def halvedProduct : List Call := halved ++ [.mkMonomial [0, 1]]

theorem relaxed_halvedProduct :
    ((start { propagateBounds := false }).run halvedProduct).engine.propagate.2 = true ∧
      (relaxed halvedProduct).isInt 2 = true ∧ ((relaxed halvedProduct).value 2).isInteger = true ∧
      ((relaxed halvedProduct).repairMonomials.1.value 2).isInteger = false := by
  refine ⟨by cbv, by cbv, by cbv, by cbv⟩

/-- From feasible assignments, a patch of a base succeeds although no variable is fractional any more,
and repairing monomials takes an integral value from an integer variable. -/
theorem patching_succeeds_in_vain :
    ((relaxed twins).Feasible ∧ (relaxed twins).patchedBases = [1] ++ 2 :: [] ∧
        ((relaxed twins).afterBases ([1] ++ [2])).statistics.patchesSucceeded ≠
          ((relaxed twins).afterBases [1]).statistics.patchesSucceeded ∧
        ¬((relaxed twins).afterBases ([1] ++ [2])).fractionalVars.toFinset ⊂
          ((relaxed twins).afterBases [1]).fractionalVars.toFinset) ∧
      (relaxed halvedProduct).Feasible ∧ (relaxed halvedProduct).isInt 2 = true ∧
      ((relaxed halvedProduct).value 2).isInteger = true ∧
      ((relaxed halvedProduct).repairMonomials.1.value 2).isInteger = false := by
  obtain ⟨yes, listed, -, -, once, settled, twice⟩ := relaxed_twins
  obtain ⟨yes', integer, integral, lost⟩ := relaxed_halvedProduct
  obtain ⟨-, -, feasible⟩ := relaxed_fits yes (by cbv)
  obtain ⟨-, -, feasible'⟩ := relaxed_fits yes' (by cbv)
  refine ⟨⟨feasible, listed, ?_, ?_⟩, feasible', integer, integral, lost⟩
  · rw [List.singleton_append, once, twice]
    decide
  · rw [settled]
    exact Finset.not_ssubset_empty _

end Session

end ArithDecide
