import ArithDecide.Proofs.Repairing

/-!
# The exchanges of a repair

A repair is a sequence of exchanges. `Engine.Repairable` says what a repair starts from, and every
exchange keeps it; `Engine.Exchangeable` is the part of it that makes a repair end, even if rows did not
hold or variables that head no row were out of their bounds. `Engine.Exchanges` says which exchange the
engine makes and what is different afterwards. The rows keep their solutions and the bounds stay, so all
engines of a repair are about the same problem.
-/

namespace ArithDecide.Engine

open State

variable {e next : Engine} {v w : Var}

/-- Every row is in reduced form, bounds do not cross, and every violated base waits to be patched. -/
structure Exchangeable (e : Engine) : Prop where
  fitted : e.Fitted
  normalized : e.tableau.Normalized
  patched : e.Patched
  ordered : ∀ v lower upper, e.bounds.get v .lower = some lower →
    e.bounds.get v .upper = some upper → lower.value ≤ upper.value
  bounded : ∀ v kind b, e.bounds.get v kind = some b → v < e.numVars
  increasing : e.toPatch.Pairwise (· < ·)

/-- Moreover every row holds, and every variable that heads no row lies within its bounds. -/
structure Repairable (e : Engine) : Prop extends Exchangeable e where
  assigned : e.Assigned

/-- A point satisfies the rows and the active bounds. -/
structure Solution (e : Engine) (φ : Var → InfRat) : Prop where
  rows : e.tableau.Holds φ
  bounds : ∀ v kind b, e.bounds.get v kind = some b → kind.admits b.value (φ v) = true

/-- The engine after the next exchange of a repair, if one is due and possible. -/
def exchange? (e : Engine) : Option Engine := do
  let (violation, rest) ← e.firstViolation? e.toPatch
  let row ← e.tableau.get? violation.row
  let entering ← e.entering? row.form violation.kind
  return ({ e with toPatch := rest }).pivotAndUpdate violation row entering

theorem exchange?_eq_some_iff : e.exchange? = some next ↔
    ∃ violation rest row entering, e.firstViolation? e.toPatch = some (violation, rest) ∧
      e.tableau.get? violation.row = some row ∧
      e.entering? row.form violation.kind = some entering ∧
      ({ e with toPatch := rest }).pivotAndUpdate violation row entering = next := by
  simp only [exchange?, Option.bind_eq_bind, Option.bind_eq_some_iff, Option.pure_def,
    Option.some.injEq, Prod.exists]
  constructor
  · rintro ⟨violation, rest, first, row, found, entering, chosen, same⟩
    exact ⟨violation, rest, row, entering, first, found, chosen, same⟩
  · rintro ⟨violation, rest, row, entering, first, found, chosen, same⟩
    exact ⟨violation, rest, first, row, found, entering, chosen, same⟩

/-! ## The least variables -/

theorem increasing_insert {vs : List Var} (increasing : vs.Pairwise (· < ·)) :
    (SortedSet.insert v vs).Pairwise (· < ·) :=
  SortedSet.pairwise_insert
    (fun _ _ left right => Nat.le_antisymm (Nat.not_lt.1 right) (Nat.not_lt.1 left))
    Nat.lt_trans increasing

theorem increasing_carryRow {delta : InfRat} {r : RowId} (increasing : e.toPatch.Pairwise (· < ·)) :
    (carryRow v delta e r).toPatch.Pairwise (· < ·) := by
  rw [carryRow]
  cases e.tableau.get? r with
  | none => exact increasing
  | some row =>
    simp only
    split
    · exact increasing
    · exact increasing_insert (by simpa using increasing)

theorem increasing_updateValue {delta : InfRat} (increasing : e.toPatch.Pairwise (· < ·)) :
    (e.updateValue v delta).toPatch.Pairwise (· < ·) := by
  rw [updateValue]
  generalize start_eq : e.setValue v (e.stored v + delta) = start
  have increasing : start.toPatch.Pairwise (· < ·) := by
    rw [← start_eq]
    simpa using increasing
  generalize e.tableau.rowsMentioning v = rows
  clear start_eq
  induction rows generalizing start with
  | nil => exact increasing
  | cons r rest ih => exact ih _ (increasing_carryRow increasing)

/-- Before the first violation nothing is violated. -/
theorem firstViolation?_least {vs rest : List Var} {violation : Violation}
    (increasing : vs.Pairwise (· < ·)) (found : e.firstViolation? vs = some (violation, rest)) :
    rest.Pairwise (· < ·) ∧ ∀ v ∈ vs, v < violation.base → e.violation? v = none := by
  induction vs with
  | nil => cases found
  | cons w others ih =>
    have ⟨below, tail⟩ := List.pairwise_cons.1 increasing
    rw [firstViolation?] at found
    split at found
    · rename_i here
      obtain ⟨rfl, rfl⟩ := Prod.mk.inj (Option.some.inj found)
      obtain ⟨rfl, -⟩ := violates_of_violation? here
      refine ⟨tail, fun v member less => ?_⟩
      rcases List.mem_cons.1 member with rfl | later
      · exact absurd less (Nat.lt_irrefl _)
      · exact absurd less (Nat.lt_asymm (below v later))
    · rename_i here
      obtain ⟨increasing, least⟩ := ih tail found
      refine ⟨increasing, fun v member less => ?_⟩
      rcases List.mem_cons.1 member with rfl | later
      · exact here
      · exact least v later less

/-- The entering variable can move, and no smaller one of the row can. -/
theorem entering?_least {form : LinearForm} {violated : BoundKind}
    (found : e.entering? form violated = some v) :
    e.canMove v (blockingSide violated (form.coeff v)) = true ∧
      ∀ w < v, form.coeff w ≠ 0 → e.canMove w (blockingSide violated (form.coeff w)) = false := by
  rw [entering?, Option.map_eq_some_iff] at found
  obtain ⟨⟨u, c⟩, at_u, rfl⟩ := found
  obtain ⟨movable, before, behind, split_eq, stuck⟩ := List.find?_eq_some_iff_append.1 at_u
  have coeff_eq : form.coeff u = c :=
    (LinearForm.mem_terms_iff.1 (List.mem_of_find?_eq_some at_u)).1
  refine ⟨coeff_eq ▸ movable, fun w less occurs => ?_⟩
  have member : (w, form.coeff w) ∈ form.terms := LinearForm.mem_terms_iff.2 ⟨rfl, occurs⟩
  have increasing := form.increasing
  rw [split_eq] at member increasing
  have behind_u := (List.pairwise_cons.1 (List.pairwise_append.1 increasing).2.1).1
  rcases List.mem_append.1 member with earlier | later
  · simpa using stuck _ earlier
  · rcases List.mem_cons.1 later with same | later
    · exact absurd (Prod.mk.inj same).1 (Nat.ne_of_lt less)
    · exact absurd less (Nat.lt_asymm (behind_u _ later))

/-! ## One exchange -/

/-- A variable leaves a row, on the violated side of which the target lies, and another one of the row
enters. -/
structure Exchange where
  leaving : Var
  entering : Var
  side : BoundKind
  target : InfRat
  form : LinearForm
  deriving Inhabited

/-- The engine makes an exchange: the leaving variable heads a row and violates a bound, no smaller one
that heads a row violates one, and the entering variable is the smallest one of the row that can move as
it has to. Afterwards the leaving variable sits on its bound, which is within its other bound, and the
rows have followed. -/
structure Exchanges (e : Engine) (x : Exchange) (next : Engine) : Prop where
  heads : e.kind x.leaving ≠ .nonBase
  row : ∀ φ : Var → InfRat, e.tableau.Holds φ → φ x.leaving = x.form.combine φ
  free : ∀ v, x.form.coeff v ≠ 0 → e.kind v = .nonBase
  target : e.bounds.value x.leaving x.side = some x.target
  outside : x.side.tighter x.target (e.stored x.leaving) = true
  allowed : e.bounds.admits x.leaving x.target = true
  least : ∀ v < x.leaving, e.kind v ≠ .nonBase → e.bounds.admits v (e.stored v) = true
  occurs : x.form.coeff x.entering ≠ 0
  movable : e.canMove x.entering (blockingSide x.side (x.form.coeff x.entering)) = true
  stuck : ∀ v < x.entering, x.form.coeff v ≠ 0 →
    e.canMove v (blockingSide x.side (x.form.coeff v)) = false
  kind_next : ∀ v, next.kind v = .nonBase ↔ v = x.leaving ∨ e.kind v = .nonBase ∧ v ≠ x.entering
  reached : next.stored x.leaving = x.target
  kept : ∀ v, e.kind v = .nonBase → v ≠ x.entering → next.stored v = e.stored v
  shift : e.tableau.Holds fun v => next.stored v - e.stored v

theorem Exchanges.heads_next {x : Exchange} (step : e.Exchanges x next) :
    next.kind x.entering ≠ .nonBase := by
  intro free
  rcases (step.kind_next _).1 free with same | ⟨-, apart⟩
  · exact step.heads (same ▸ step.free _ step.occurs)
  · exact apart rfl

/-- A variable that heads a row lies within its bounds unless it waits to be patched. -/
theorem Exchangeable.admits (ready : e.Exchangeable) (heads : e.kind v ≠ .nonBase)
    (harmless : v ∈ e.toPatch → e.violation? v = none) :
    e.bounds.admits v (e.stored v) = true := by
  obtain ⟨r, row, found, rfl⟩ : ∃ r row, e.tableau.get? r = some row ∧ row.base = v := by
    by_contra none_heads
    exact heads (Tableau.kind_eq_nonBase_iff.2 fun r row found same =>
      none_heads ⟨r, row, found, same⟩)
  rcases ready.patched r row found (ready.normalized r row found) List.not_mem_nil with within | waits
  · exact within
  · exact admits_of_violation?_eq_none (ready.fitted.tableau.rowOf?_base found) (harmless waits)

theorem Repairable.admits (repairable : e.Repairable) (lt : v < e.numVars)
    (harmless : v ∈ e.toPatch → e.violation? v = none) :
    e.bounds.admits v (e.stored v) = true := by
  by_cases free : e.kind v = .nonBase
  · exact repairable.assigned.within v lt free List.not_mem_nil
  · exact repairable.toExchangeable.admits free harmless

/-- What `exchange?` does is an exchange by the rule of least indices: both its variables are the
smallest ones that qualify. -/
theorem exists_exchange (ready : e.Exchangeable) (found : e.exchange? = some next) :
    ∃ x, e.Exchanges x next := by
  obtain ⟨violation, rest, row, entering, first, at_row, chosen, rfl⟩ :=
    exchange?_eq_some_iff.1 found
  have fitted := ready.fitted
  have settled := ready.normalized _ _ at_row
  obtain ⟨violates, -⟩ := firstViolation?_eq_some first
  obtain ⟨-, least⟩ := firstViolation?_least ready.increasing first
  obtain ⟨movable, stuck⟩ := entering?_least chosen
  have occurs := entering?_eq_some chosen
  have base_eq := violates.base_eq at_row
  have free := kind_eq_nonBase_of_mentioned fitted at_row settled occurs
  have fitted' : ({ e with toPatch := rest } : Engine).Fitted := ⟨fitted.values_size, fitted.tableau⟩
  refine ⟨⟨row.base, entering, violation.kind, violation.target, row.form⟩, ?_⟩
  constructor
  · exact fun free => Tableau.kind_eq_nonBase_iff.1 free _ _ at_row rfl
  · exact fun φ holds => holds _ _ at_row
  · exact fun v occurs => kind_eq_nonBase_of_mentioned fitted at_row settled occurs
  · exact base_eq ▸ violates.target
  · exact base_eq ▸ violates.outside
  · exact base_eq ▸ violates.admits_target ready.ordered
  · exact fun v less heads => ready.admits heads fun waits => least v waits (base_eq ▸ less)
  · exact occurs
  · exact movable
  · exact stuck
  · exact fun v => kind_pivotAndUpdate_eq_nonBase_iff fitted' at_row occurs
  · exact stored_pivotAndUpdate_base fitted' at_row occurs settled
  · exact fun v free apart => stored_pivotAndUpdate_of_ne fitted' at_row occurs free apart
  · intro q other at_q
    rw [pivotAndUpdate_toState]
    exact shift_updateValue fitted' (fitted.tableau.var_lt at_row occurs) free at_q
      (ready.normalized q other at_q)

/-- The engines have the same variables, the same bounds and rows with the same solutions. -/
structure SameProblem (e next : Engine) : Prop where
  numVars : next.numVars = e.numVars
  bounds : next.bounds = e.bounds
  rows : ∀ φ : Var → InfRat, next.tableau.Holds φ ↔ e.tableau.Holds φ

theorem SameProblem.refl (e : Engine) : e.SameProblem e := ⟨rfl, rfl, fun _ => Iff.rfl⟩

theorem SameProblem.trans {last : Engine} (first : e.SameProblem next)
    (second : next.SameProblem last) : e.SameProblem last :=
  ⟨second.numVars.trans first.numVars, second.bounds.trans first.bounds,
    fun φ => (second.rows φ).trans (first.rows φ)⟩

theorem SameProblem.solution_iff (same : e.SameProblem next) {φ : Var → InfRat} :
    next.Solution φ ↔ e.Solution φ := by
  constructor
  · rintro ⟨rows, bounds⟩
    exact ⟨(same.rows φ).1 rows, same.bounds ▸ bounds⟩
  · rintro ⟨rows, bounds⟩
    exact ⟨(same.rows φ).2 rows, same.bounds.symm ▸ bounds⟩

section Pivot

variable {violation : Violation} {row : Row} {entering : Var}
  (found : e.tableau.get? violation.row = some row) (occurs : row.form.coeff entering ≠ 0)
include found occurs

theorem sameProblem_pivotAndUpdate :
    e.SameProblem (e.pivotAndUpdate violation row entering) := by
  rw [pivotAndUpdate]
  generalize (violation.target - e.stored row.base).divide (row.form.coeff entering) = theta
  have only := valuesOnly_updateValue e entering theta
  refine ⟨numVars_congr only.columns, only.bounds, fun φ => ?_⟩
  show ((e.updateValue entering theta).tableau.pivot violation.row entering).Holds φ ↔ _
  rw [only.tableau]
  exact Tableau.holds_pivot found occurs φ

theorem fitted_pivotAndUpdate (fitted : e.Fitted) (normalized : e.tableau.Normalized) :
    (e.pivotAndUpdate violation row entering).Fitted := by
  rw [pivotAndUpdate]
  generalize (violation.target - e.stored row.base).divide (row.form.coeff entering) = theta
  have only := valuesOnly_updateValue e entering theta
  have numVars := numVars_congr only.columns
  refine ⟨(only.size.trans fitted.values_size).trans numVars.symm, ?_⟩
  show ((e.updateValue entering theta).tableau.pivot violation.row entering).WellFormed _
  rw [only.tableau]
  exact numVars ▸ Tableau.wellFormed_pivot fitted.tableau normalized found occurs

omit found occurs in
theorem normalized_pivotAndUpdate (normalized : e.tableau.Normalized) :
    (e.pivotAndUpdate violation row entering).tableau.Normalized := by
  rw [pivotAndUpdate]
  generalize (violation.target - e.stored row.base).divide (row.form.coeff entering) = theta
  show ((e.updateValue entering theta).tableau.pivot violation.row entering).Normalized
  rw [(valuesOnly_updateValue e entering theta).tableau]
  exact Tableau.normalized_pivot normalized

end Pivot

/-- An exchange leads to an engine about the same problem from which the repair can go on. -/
theorem exchangeable_exchange (ready : e.Exchangeable) (found : e.exchange? = some next) :
    next.Exchangeable ∧ e.SameProblem next := by
  obtain ⟨violation, rest, row, entering, first, at_row, chosen, rfl⟩ :=
    exchange?_eq_some_iff.1 found
  obtain ⟨fitted, normalized, patched, ordered, bounded, increasing⟩ := ready
  have occurs := entering?_eq_some chosen
  have fitted' : ({ e with toPatch := rest } : Engine).Fitted := ⟨fitted.values_size, fitted.tableau⟩
  have pivoted := sameProblem_pivotAndUpdate (e := { e with toPatch := rest }) at_row occurs
  refine ⟨?_, pivoted.numVars, pivoted.bounds, pivoted.rows⟩
  constructor
  · exact fitted_pivotAndUpdate at_row occurs fitted' normalized
  · exact normalized_pivotAndUpdate normalized
  · exact patched_exchange fitted at_row occurs normalized patched first
  · rw [pivoted.bounds]
    exact ordered
  · rw [pivoted.bounds, pivoted.numVars]
    exact bounded
  · exact increasing_insert (increasing_updateValue (firstViolation?_least increasing first).1)

theorem repairable_exchange (repairable : e.Repairable) (found : e.exchange? = some next) :
    next.Repairable ∧ e.SameProblem next := by
  obtain ⟨ready, same⟩ := exchangeable_exchange repairable.toExchangeable found
  obtain ⟨violation, rest, row, entering, first, at_row, chosen, rfl⟩ :=
    exchange?_eq_some_iff.1 found
  exact ⟨⟨ready, assigned_exchange repairable.fitted at_row (entering?_eq_some chosen)
    repairable.ordered repairable.normalized repairable.assigned first⟩, same⟩

end ArithDecide.Engine
