import ArithDecide.Proofs.Moving
import ArithDecide.Proofs.Termination

/-!
# Integral values of integer variables, and bases in order

An integer variable that heads no row has an integral value as long as values can be relied on: it
starts at zero, is only moved to integers, and leaves a row at a bound, which is an integer. And the bases
that wait to be patched wait in increasing order, which a repair relies on when it takes the first one
that is out of its bounds. `State.Orderly` says both. It is kept by whatever the engine does to values,
rows and bounds.
-/

namespace ArithDecide.Engine

open State

variable {e next : Engine} {h : History} {v : Var} {kind : BoundKind} {value : InfRat}

/-- The bases to be patched wait in increasing order, and the integer variables that head no row have
integral values if values can be relied on. -/
structure State.Orderly (s : State) : Prop extends Fitted s where
  increasing : s.toPatch.Pairwise (· < ·)
  integral : s.Reliable → ∀ v, s.isInt v = true → s.kind v = .nonBase →
    (s.stored v).isInteger = true

theorem State.Orderly.of_same {s t : State} (orderly : s.Orderly) (columns : t.columns = s.columns)
    (values : t.values = s.values) (tableau : t.tableau = s.tableau)
    (increasing : t.toPatch.Pairwise (· < ·)) (reliable : t.Reliable → s.Reliable) : t.Orderly where
  values_size := by rw [values, orderly.values_size, numVars_congr columns]
  tableau := by
    rw [tableau, numVars_congr columns]
    exact orderly.tableau
  increasing := increasing
  integral relied v integer free := by
    rw [stored_congr values]
    exact orderly.integral (reliable relied) v (isInt_congr columns v ▸ integer)
      (kind_congr tableau v ▸ free)

/-- What changes neither values nor rows nor what waits keeps the order. -/
theorem State.Orderly.congr {s t : State} (orderly : s.Orderly) (columns : t.columns = s.columns)
    (values : t.values = s.values) (tableau : t.tableau = s.tableau) (toPatch : t.toPatch = s.toPatch)
    (reliable : t.Reliable → s.Reliable) : t.Orderly :=
  orderly.of_same columns values tableau (toPatch ▸ orderly.increasing) reliable

theorem orderly_count (orderly : e.Orderly) (change : Statistics → Statistics) :
    (e.count change).Orderly :=
  orderly.congr rfl rfl rfl rfl id

theorem orderly_trace (orderly : e.Orderly) (tag : TraceTag) (message : Unit → String) :
    (e.trace tag message).Orderly :=
  orderly.congr rfl rfl rfl rfl id

theorem orderly_depend (orderly : e.Orderly) (arena : DependencyArena) :
    ({ e with dependencies := arena } : Engine).Orderly :=
  orderly.congr rfl rfl rfl rfl id

theorem orderly_joinReasons (orderly : e.Orderly) (reasons : List Dependency) :
    (e.joinReasons reasons).1.Orderly :=
  orderly.congr rfl rfl rfl rfl id

theorem orderly_setConflict (orderly : e.Orderly) (d : Dependency) : (e.setConflict d).Orderly := by
  rw [setConflict]
  split
  · exact orderly
  · exact orderly.congr rfl rfl rfl rfl id

/-! ## Values -/

theorem orderly_markToPatch (orderly : e.Orderly) (v : Var) : (e.markToPatch v).Orderly :=
  orderly.of_same rfl rfl rfl (increasing_insert orderly.increasing) id

/-- Giving a variable a value that suits its sort, whether it exists or not. -/
theorem isInteger_stored_setValue {s : Engine} {x : InfRat} {w : Var} (sized : s.values.size = s.numVars)
    (integer : s.isInt w = true) (suits : w = v → x.isInteger = true)
    (before : (s.stored w).isInteger = true) : ((s.setValue v x).stored w).isInteger = true := by
  by_cases same : w = v
  · subst same
    rw [stored_setValue (sized ▸ isInt_lt integer), if_pos rfl]
    exact suits rfl
  · rw [State.stored, setValue_toState]
    simp only [Array.getElem?_setIfInBounds_ne (Ne.symm same)]
    exact before

theorem fitted_of_valuesOnly (fitted : e.Fitted) (only : ValuesOnly e next) : next.Fitted where
  values_size := (only.size.trans fitted.values_size).trans (numVars_congr only.columns).symm
  tableau := by
    rw [only.tableau, numVars_congr only.columns]
    exact fitted.tableau

/-- A variable is moved to a value that suits its sort, if it heads no row. -/
theorem orderly_updateValue {delta : InfRat} (orderly : e.Orderly)
    (suits : e.isInt v = true → (e.stored v + delta).isInteger = true) :
    (e.updateValue v delta).Orderly := by
  have only := valuesOnly_updateValue e v delta
  have set := valuesOnly_setValue e v (e.stored v + delta)
  refine ⟨fitted_of_valuesOnly orderly.toFitted only, increasing_updateValue orderly.increasing,
    fun reliable w integer free => ?_⟩
  rw [isInt_congr only.columns] at integer
  rw [kind_congr only.tableau] at free
  -- the rows that are carried along are headed by other variables
  have carried : (e.updateValue v delta).stored w = (e.setValue v (e.stored v + delta)).stored w := by
    refine stored_foldl_carryRow_of_ne (set.size.trans orderly.values_size)
      (set.tableau ▸ orderly.tableau) fun r _ row found => ?_
    exact Tableau.kind_eq_nonBase_iff.1 free r row (set.tableau ▸ found)
  rw [carried]
  exact isInteger_stored_setValue orderly.values_size integer (fun same => suits (same ▸ integer))
    (orderly.integral (only.reliable_iff.1 reliable) w integer free)

/-! ## Bounds -/

/-- A variable is moved onto a bound that suits its sort. -/
theorem orderly_respectBound (orderly : e.Orderly) (suits : e.isInt v = true → value.isInteger = true)
    (kind : BoundKind) : (e.respectBound v kind value).Orderly := by
  rw [respectBound]
  split
  · split
    · refine orderly_updateValue orderly fun integer => ?_
      rw [add_sub_cancel]
      exact suits integer
    · exact orderly
  · exact orderly_markToPatch orderly v
  · exact orderly_markToPatch orderly v

theorem orderly_propagateAtomsOn (orderly : e.Orderly) (v : Var) :
    (e.propagateAtomsOn v).Orderly := by
  rw [toState_propagateAtomsOn]
  exact orderly.congr rfl rfl rfl rfl id

theorem orderly_afterTightening (orderly : e.Orderly)
    (suits : e.isInt v = true → value.isInteger = true) (kind : BoundKind) (origin : BoundOrigin) :
    (e.afterTightening v kind value origin).Orderly := by
  rw [afterTightening]
  refine orderly_propagateAtomsOn ?_ v
  rw [toState_checked]
  refine State.Orderly.congr (orderly_respectBound ?_ ?_ kind) rfl rfl rfl rfl id
  · split
    · exact orderly.congr rfl rfl rfl rfl id
    · exact orderly.congr rfl rfl rfl rfl id
  · split
    · exact suits
    · exact suits

/-- Whatever bound is installed, it is rounded first if its variable is an integer. -/
theorem isInteger_roundBound (e : Engine) (kind : BoundKind) (value : InfRat)
    (integer : e.isInt v = true) : (e.roundBound v kind value).isInteger = true := by
  rw [roundBound, if_pos integer, InfRat.isInteger_iff]
  exact ⟨_, rfl⟩

theorem orderly_installBound (orderly : e.Orderly) (v : Var) (kind : BoundKind) (value : InfRat)
    (reason : Dependency) (origin : BoundOrigin) :
    (e.installBound v kind value reason origin).1.Orderly := by
  rw [installBound]
  have noted (store : BoundStore) : ({ e with bounds := store } : Engine).Orderly :=
    orderly.congr rfl rfl rfl rfl id
  cases e.bounds.assert ⟨v, kind, e.roundBound v kind value, reason, origin⟩ with
  | conflict opposite => exact orderly_setConflict (orderly_joinReasons orderly _) _
  | unchanged store => exact noted store
  | tightened store =>
    exact orderly_afterTightening (noted store)
      (fun integer => isInteger_roundBound e kind value integer) kind origin

/-! ## Rows -/

/-- The base of a row is given the value of the row, which concerns no variable that heads none. -/
theorem orderly_setBase {base : Var} {x : InfRat} (orderly : e.Orderly) (heads : e.kind base ≠ .nonBase) :
    (e.setValue base x).Orderly := by
  have only := valuesOnly_setValue e base x
  refine ⟨fitted_of_valuesOnly orderly.toFitted only, ?_, fun reliable v integer free => ?_⟩
  · rw [setValue_toState]
    exact orderly.increasing
  · rw [isInt_congr only.columns] at integer
    rw [kind_congr only.tableau] at free
    exact isInteger_stored_setValue orderly.values_size integer
      (fun same => absurd (same ▸ free) heads)
      (orderly.integral (only.reliable_iff.1 reliable) v integer free)

/-- Normalising a row moves no variable that heads none. -/
theorem orderly_normalizeRow (orderly : e.Orderly) (r : RowId) : (e.normalizeRow r).Orderly := by
  obtain ⟨mid, becomes, result⟩ := normalizeRow_spec e r
  have reduced : mid.Orderly := by
    rw [becomes.toState]
    exact
      { values_size := orderly.values_size
        tableau := Tableau.wellFormed_normalize orderly.tableau r
        increasing := orderly.increasing
        integral := fun reliable v integer free =>
          orderly.integral reliable v integer (kind_normalize_eq_nonBase_iff.1 free) }
  rw [result]
  split
  · exact reduced
  · rename_i row found
    refine orderly_markToPatch (orderly_setBase reduced fun free => ?_) _
    exact Tableau.kind_eq_nonBase_iff.1 free r row found rfl

theorem orderly_normalizePendingRows (orderly : e.Orderly) : e.normalizePendingRows.Orderly := by
  rw [normalizePendingRows]
  induction e.pendingRows generalizing e with
  | nil => exact orderly
  | cons r rest ih => exact ih (orderly_normalizeRow orderly r)

/-- A new variable has the value zero. -/
theorem orderly_mkVar (orderly : e.Orderly) (sort : NumSort) (term : Term) :
    (e.mkVar sort term).1.Orderly := by
  show State.Orderly (e.toState.withVar ⟨sort, term⟩)
  refine ⟨⟨?_, ?_⟩, orderly.increasing, fun reliable v integer free => ?_⟩
  · rw [numVars_withVar, ← orderly.values_size, State.withVar, Array.size_push]
  · rw [numVars_withVar]
    exact orderly.tableau.mono (Nat.le_succ _)
  · rw [stored_withVar]
    by_cases new : v = e.numVars
    · have absent : e.values[v]? = none :=
        Array.getElem?_eq_none (Nat.le_of_eq (orderly.values_size.trans new.symm))
      rw [State.stored, absent]
      rfl
    · rw [isInt_withVar, if_neg new] at integer
      exact orderly.integral reliable v integer free

theorem orderly_pushRow {base : Var} {form : LinearForm} (orderly : e.Orderly)
    (fresh : e.tableau.isFresh base = true) (own : form.coeff base = 0) (base_lt : base < e.numVars)
    (var_lt : ∀ v, form.coeff v ≠ 0 → v < e.numVars) : (e.pushRow base form).1.Orderly where
  values_size := orderly.values_size
  tableau := Tableau.wellFormed_addRow orderly.tableau fresh own base_lt var_lt
  increasing := orderly.increasing
  integral reliable v integer free := by
    refine orderly.integral reliable v integer (Tableau.kind_eq_nonBase_iff.2 fun r row found => ?_)
    have lt : r < e.tableau.rows.size := (Array.getElem?_eq_some_iff.1 found).1
    refine Tableau.kind_eq_nonBase_iff.1 free r row ?_
    show (e.tableau.addRow base form).get? r = some row
    rw [Tableau.get?_addRow, if_neg (Nat.ne_of_lt lt), found]

/-! ## Repairing -/

theorem columns_of_exchange? (found : e.exchange? = some next) : next.columns = e.columns := by
  obtain ⟨violation, rest, row, entering, -, -, -, rfl⟩ := exchange?_eq_some_iff.1 found
  exact columns_pivotAndUpdate _ _ _ _

theorem reliable_of_exchange? (found : e.exchange? = some next) (reliable : next.Reliable) :
    e.Reliable := by
  obtain ⟨violation, rest, row, entering, -, -, -, rfl⟩ := exchange?_eq_some_iff.1 found
  show ({ e with toPatch := rest } : Engine).Reliable
  exact (reliable_pivotAndUpdate_iff _ _ _ _).1 reliable

/-- The variable that leaves its row sits on a bound, which is an integer if the variable is one. -/
theorem orderly_exchange (orderly : e.Orderly) (rounded : e.Rounded) (ready : e.Exchangeable)
    (found : e.exchange? = some next) : next.Orderly := by
  obtain ⟨x, exchanges⟩ := exists_exchange ready found
  obtain ⟨after, -⟩ := exchangeable_exchange ready found
  refine ⟨after.fitted, after.increasing, fun reliable v integer free => ?_⟩
  rw [isInt_congr (columns_of_exchange? found)] at integer
  rcases (exchanges.kind_next v).1 free with rfl | ⟨was_free, apart⟩
  · rw [exchanges.reached, InfRat.isInteger_iff]
    exact rounded _ _ _ integer exchanges.target
  · rw [exchanges.kept v was_free apart]
    exact orderly.integral (reliable_of_exchange? found reliable) v integer was_free

/-- Exchanges keep the engine in order: the variable that leaves a row takes the value of its bound,
which is rounded. -/
theorem orderly_advance (orderly : e.Orderly) (rounded : e.Rounded) (ready : e.Exchangeable)
    (count : Nat) : (advance^[count] e).Orderly ∧ (advance^[count] e).Rounded := by
  induction count with
  | zero => exact ⟨orderly, rounded⟩
  | succ count ih =>
    obtain ⟨orderly, rounded⟩ := ih
    obtain ⟨ready, -⟩ := exchangeable_advance ready count
    rw [Function.iterate_succ_apply', advance]
    cases found : (advance^[count] e).exchange? with
    | none => exact ⟨orderly, rounded⟩
    | some next =>
      rw [Option.getD_some]
      refine ⟨orderly_exchange orderly rounded ready found, fun v kind value integer active => ?_⟩
      rw [isInt_congr (columns_of_exchange? found)] at integer
      rw [(exchangeable_exchange ready found).2.bounds] at active
      exact rounded v kind value integer active

/-- A repair makes exchanges as long as some are due and possible. -/
theorem makeFeasible_of_stuck {count : Nat} (within : count ≤ e.pivotLimit)
    (stuck : (advance^[count] e).exchange? = none) :
    e.makeFeasible = repair 0 (advance^[count] e) := by
  rw [makeFeasible, ← Nat.sub_add_cancel within, repair_advance, repair_of_stuck stuck]

end ArithDecide.Engine
