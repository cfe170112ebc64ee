import ArithDecide.Proofs.Conservation

/-!
# Pending bases wait to be repaired

While a row is pending, moves pass it by, so its base may drift out of its bounds unnoticed.
`State.Awaited` says that every such base waits to be repaired. No step forgets one: bases are dropped
only when their rows are in reduced form, and no step but the definition of a variable adds a row.

With the invariant this is what the repair relies on: `State.Watched` says that the rows in reduced form
hold under the current values, and that a variable that is out of its bounds heads a row and waits.
-/

namespace ArithDecide.Engine

variable {e next : Engine} {h : History}

namespace State

variable {s t : State}

/-- Apart from the exempt variables, the base of every pending row waits to be repaired. -/
def AwaitedBut (s : State) (exempt : List Var) : Prop :=
  ∀ r row, s.tableau.get? r = some row → row.pending = true → row.base ∉ exempt →
    row.base ∈ s.toPatch

/-- The same without exempt variables. -/
abbrev Awaited (s : State) : Prop := s.AwaitedBut []

variable {exempt : List Var}

/-- What is pending later was pending before, and what waited still waits. -/
theorem AwaitedBut.later (awaited : s.AwaitedBut exempt)
    (pending : ∀ r row, t.tableau.get? r = some row → row.pending = true →
      s.tableau.get? r = some row)
    (marked : ∀ v ∈ s.toPatch, v ∈ t.toPatch) : t.AwaitedBut exempt :=
  fun r row found still apart =>
    marked row.base (awaited r row (pending r row found still) still apart)

theorem AwaitedBut.congr (awaited : s.AwaitedBut exempt) (tableau : t.tableau = s.tableau)
    (toPatch : t.toPatch = s.toPatch) : t.AwaitedBut exempt := by
  rwa [AwaitedBut, tableau, toPatch]

theorem awaited_of_normalized (normalized : s.tableau.Normalized) : s.Awaited := by
  intro r row found pending
  rw [normalized r row found] at pending
  cases pending

end State

variable {exempt : List Var}

theorem ValuesOnly.awaited (only : ValuesOnly e next) (awaited : e.AwaitedBut exempt) :
    next.AwaitedBut exempt :=
  awaited.later (fun _ _ found _ => only.tableau ▸ found) only.marked

theorem marked_normalizeRow (e : Engine) (r : RowId) :
    ∀ v ∈ e.toPatch, v ∈ (e.normalizeRow r).toPatch := by
  obtain ⟨mid, becomes, only⟩ := valuesOnly_normalizeRow e r
  intro v waits
  exact only.marked v (by rwa [becomes.toState])

theorem awaited_normalizeRow (awaited : e.AwaitedBut exempt) (r : RowId) :
    (e.normalizeRow r).AwaitedBut exempt := by
  refine awaited.later (fun q row found pending => ?_) (marked_normalizeRow e r)
  rw [tableau_normalizeRow] at found
  exact (pending_normalize found pending).2

/-- Putting a row into the tableau makes its base wait. -/
theorem awaited_placeRow (awaited : e.Awaited) (base : Var) (form : LinearForm) :
    (e.placeRow base form).1.Awaited := by
  have added : (e.pushRow base form).1.AwaitedBut [base] := by
    intro r row found pending apart
    have found : (e.tableau.addRow base form).get? r = some row := found
    rw [Tableau.get?_addRow] at found
    split at found
    · obtain rfl := Option.some.inj found
      exact absurd (List.mem_singleton_self _) apart
    · exact awaited r row found pending List.not_mem_nil
  have valued : (if e.options.eagerNormalization then (e.pushRow base form).1.normalizeRow e.numRows
      else (e.pushRow base form).1.setValue base ((e.pushRow base form).1.value base)).AwaitedBut
        [base] := by
    split
    · exact awaited_normalizeRow added _
    · exact (valuesOnly_setValue _ _ _).awaited added
  rw [placeRow]
  simp only [show (e.pushRow base form).2 = e.numRows from rfl]
  generalize (if e.options.eagerNormalization = true then
    (e.pushRow base form).1.normalizeRow e.numRows
    else (e.pushRow base form).1.setValue base ((e.pushRow base form).1.value base)) = next at valued ⊢
  have marked : (next.markToPatch base).Awaited := by
    intro r row found pending _
    by_cases here : row.base = base
    · exact mem_insert_var.2 (.inl here)
    · exact mem_insert_var.2 (.inr (valued r row found pending (by simpa using here)))
  show State.Awaited (declareChecking _).toState
  rw [declareChecking]
  split <;> exact marked.congr rfl rfl

/-- No step makes the base of a pending row be forgotten. -/
theorem Step.awaited (step : Step h e next) (inv : e.Invariant h) (awaited : e.Awaited) :
    next.Awaited := by
  cases step with
  | quiet becomes => exact awaited.congr (by rw [becomes.toState]) (by rw [becomes.toState])
  | depend arena nodes closed becomes =>
    exact awaited.congr (by rw [becomes.toState]) (by rw [becomes.toState])
  | verdict status before feasible becomes =>
    exact awaited.congr (by rw [becomes.toState]) (by rw [becomes.toState])
  | touch touched becomes => exact awaited.congr (by rw [becomes.toState]) (by rw [becomes.toState])
  | handOut a atom sign reason found decided becomes =>
    exact awaited.congr (by rw [becomes.toState]) (by rw [becomes.toState])
  | report pair report becomes =>
    exact awaited.congr (by rw [becomes.toState]) (by rw [becomes.toState])
  | note v kind becomes => exact awaited.congr (by rw [becomes.toState]) (by rw [becomes.toState])
  | tighten b store touched mid ok done becomes moved =>
    rw [moved]
    exact (valuesOnly_respectBound _ _ _ _).awaited
      (awaited.congr (by rw [becomes.toState]) (by rw [becomes.toState]))
  | move v delta lt free admits moved => exact moved ▸ (valuesOnly_updateValue _ _ _).awaited awaited
  | normalize r moved => exact moved ▸ awaited_normalizeRow awaited r
  | relax vs dropped becomes =>
    rw [becomes.toState]
    intro r row found pending apart
    refine (dropped _ (awaited r row found pending apart)).resolve_right fun harmless => harmless.2 ?_
    rw [State.kind, inv.founded.formed.tableau.kind_base found, pending]
    rfl
  | exchange violation rest row entering normalized first found occurs moved =>
    exact State.awaited_of_normalized
      ((Step.exchange (h := h) violation rest row entering normalized first found occurs
        moved).normalized normalized)
  | dequeue l atoms taken becomes =>
    exact awaited.congr (by rw [becomes.toState]) (by rw [becomes.toState])
  | intern v kind threshold lt becomes =>
    exact awaited.congr (by rw [becomes.toState]) (by rw [becomes.toState])
  | define sort form mid var_lt integral becomes moved =>
    -- the new row is pending for a moment, but is put into reduced form before the step ends
    rw [moved]
    refine awaited.later (fun q row found pending => ?_) fun v waits => marked_normalizeRow mid _ v ?_
    · rw [tableau_normalizeRow, becomes.toState] at found
      obtain ⟨other, at_q⟩ := pending_normalize found pending
      rwa [Tableau.get?_addRow, if_neg (show ¬q = e.tableau.rows.size from other)] at at_q
    · rw [becomes.toState]
      exact waits

theorem Steps.awaited (steps : Steps h e next) (inv : e.Invariant h) (awaited : e.Awaited) :
    next.Awaited := by
  induction steps with
  | refl => exact awaited
  | tail before step ih => exact step.awaited (Steps.invariant before inv) ih

theorem Fails.awaited (fails : Fails h e next) (awaited : e.Awaited) : next.Awaited := by
  cases fails with
  | again before becomes => exact awaited.congr (by rw [becomes.toState]) (by rw [becomes.toState])
  | conflict d before blames becomes =>
    exact awaited.congr (by rw [becomes.toState]) (by rw [becomes.toState])

theorem Answers.awaited {result : Engine × Bool} (answers : Answers h e result)
    (inv : e.Invariant h) (awaited : e.Awaited) : result.1.Awaited := by
  cases answers with
  | yes steps => exact steps.awaited inv awaited
  | gaveUp steps => exact steps.awaited inv awaited
  | conflict steps fails => exact fails.awaited (steps.awaited inv awaited)

/-! ## Nothing out of bounds is overlooked -/

/-- The rows in reduced form hold under the current values, a variable that is out of its bounds heads a
row and waits to be repaired, and the bounds of a variable do not cross. -/
structure State.Watched (s : State) : Prop where
  rows : ∀ r row, s.tableau.get? r = some row → row.pending = false →
    s.value row.base = row.form.evalInf s.value
  within : ∀ v, v < s.numVars → s.kind v = .nonBase → ∀ kind,
    s.bounds.violates v kind (s.value v) = false
  waiting : ∀ v, s.kind v ≠ .nonBase → ∀ kind,
    s.bounds.violates v kind (s.value v) = true → v ∈ s.toPatch
  ordered : ∀ v lower upper, s.bounds.value v .lower = some lower →
    s.bounds.value v .upper = some upper → lower ≤ upper

theorem violates_eq_false_of_admits {store : BoundStore} {v : Var} {x : InfRat}
    (admits : store.admits v x = true) (kind : BoundKind) : store.violates v kind x = false :=
  BoundStore.violates_eq_false_iff.2 (BoundStore.admits_iff.1 admits kind)

/-- In a reliable state in which all bases of pending rows wait, settled rows hold, and a variable whose
value is out of bounds heads a row and waits to be repaired. -/
theorem State.Invariant.watched {s : State} (inv : s.Invariant h) (reliable : s.Reliable)
    (awaited : s.Awaited) : s.Watched where
  rows r row found settled := by
    have fitted := inv.founded.formed.toFitted
    have base : s.value row.base = s.stored row.base := by
      refine State.value_of_kind ?_
      rw [State.kind, fitted.tableau.kind_base found, settled]
      simp
    rw [base, (inv.assigned reliable).rows r row found settled, LinearForm.evalInf_eq_combine]
    refine LinearForm.combine_congr fun v mentioned => (State.value_of_kind ?_).symm
    rw [State.kind, Tableau.kind_eq_nonBase_iff.2 fun _ _ at_q =>
      fitted.ne_base found settled mentioned at_q]
    simp
  within v lt free kind := by
    rw [State.value_of_kind (by simp [free])]
    exact violates_eq_false_of_admits ((inv.assigned reliable).within v lt free List.not_mem_nil) kind
  waiting v heads kind violates := by
    rw [State.kind, Ne, Tableau.kind_eq_nonBase_iff] at heads
    push Not at heads
    obtain ⟨r, row, found, rfl⟩ := heads
    cases pending : row.pending with
    | true => exact awaited r row found pending List.not_mem_nil
    | false =>
      rw [State.value_of_kind] at violates
      · refine (inv.patched r row found pending
          List.not_mem_nil).resolve_left fun admits => ?_
        rw [violates_eq_false_of_admits admits kind] at violates
        cases violates
      · rw [State.kind, inv.founded.formed.tableau.kind_base found, pending]
        simp
  ordered v lower upper below above := by
    obtain ⟨l, at_lower, rfl⟩ := Option.map_eq_some_iff.1 below
    obtain ⟨u, at_upper, rfl⟩ := Option.map_eq_some_iff.1 above
    exact inv.founded.formed.bounds.ordered v l u at_lower at_upper

end ArithDecide.Engine
