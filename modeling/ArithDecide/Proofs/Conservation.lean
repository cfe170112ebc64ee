import ArithDecide.Proofs.Steps

/-!
# What steps keep

A step never loosens a bound, never forgets a conflict, and adds no constraint on the variables that
were there: a solution before the step can be extended to one after it. The one step that adds a
constraint is the definition of a new variable, which any values of the others satisfy.
-/

namespace ArithDecide.Engine

variable {e next last : Engine} {h : History}

namespace State

variable {s t u : State}

/-- What later states keep of a state. -/
structure Keeps (s next : State) : Prop where
  numVars : s.numVars ≤ next.numVars
  isInt : ∀ v, v < s.numVars → next.isInt v = s.isInt v
  grows : s.Grows next
  asserted : next.atoms.asserted = s.atoms.asserted
  monomials : next.monomials = s.monomials
  given : next.given = s.given
  covers : ∀ v kind value, s.bounds.Covers v kind value → next.bounds.Covers v kind value
  infeasible : s.isInfeasible = true → next.isInfeasible = true
  rows : ∀ α : Var → Rat, next.tableau.Holds α → s.tableau.Holds α
  solvable : ∀ α, s.Solves α → ∃ β, next.Solves β ∧ ∀ v, v < s.numVars → β v = α v

theorem Keeps.refl (s : State) : s.Keeps s where
  numVars := Nat.le_refl _
  isInt _ _ := rfl
  grows := .refl s
  asserted := rfl
  monomials := rfl
  given := rfl
  covers _ _ _ covered := covered
  infeasible infeasible := infeasible
  rows _ holds := holds
  solvable α solves := ⟨α, solves, fun _ _ => rfl⟩

/-- What two steps keep one after the other is kept by both. -/
theorem Keeps.trans (first : s.Keeps t) (second : t.Keeps u) : s.Keeps u where
  numVars := first.numVars.trans second.numVars
  isInt v lt := (second.isInt v (Nat.lt_of_lt_of_le lt first.numVars)).trans (first.isInt v lt)
  grows := first.grows.trans second.grows
  asserted := second.asserted.trans first.asserted
  monomials := second.monomials.trans first.monomials
  given := second.given.trans first.given
  covers v kind value covered := second.covers v kind value (first.covers v kind value covered)
  infeasible infeasible := second.infeasible (first.infeasible infeasible)
  rows α holds := first.rows α (second.rows α holds)
  solvable α solves := by
    obtain ⟨β, solves_mid, same⟩ := first.solvable α solves
    obtain ⟨γ, solves_last, same'⟩ := second.solvable β solves_mid
    refine ⟨γ, solves_last, fun v lt => ?_⟩
    rw [same' v (Nat.lt_of_lt_of_le lt first.numVars), same v lt]

/-- A change of the rows that keeps their solutions. -/
theorem Keeps.rows_iff {tableau : Tableau}
    (holds : ∀ α : Var → Rat, tableau.Holds α ↔ s.tableau.Holds α) :
    s.Keeps { s with tableau := tableau } :=
  { Keeps.refl s with
    grows := { Grows.refl s with
      solves := fun α solves => { solves with rows := (holds α).1 solves.rows } }
    rows := fun α => (holds α).1
    solvable := fun α solves =>
      ⟨α, { solves with rows := (holds α).2 solves.rows }, fun _ _ => rfl⟩ }

/-- A change of anything but variables and constraints. -/
theorem Keeps.of_same (reliable : t.Reliable → s.Reliable) (columns : t.columns = s.columns)
    (tableau : t.tableau = s.tableau) (monomials : t.monomials = s.monomials)
    (given : t.given = s.given) (nodes : s.dependencies.Extends t.dependencies)
    (atoms : ∀ a atom, s.atoms.get? a = some atom → ∃ later, t.atoms.get? a = some later ∧
      later.var = atom.var ∧ later.kind = atom.kind ∧ later.threshold = atom.threshold)
    (asserted : t.atoms.asserted = s.atoms.asserted)
    (covers : ∀ v kind value, s.bounds.Covers v kind value → t.bounds.Covers v kind value)
    (infeasible : s.isInfeasible = true → t.isInfeasible = true) : s.Keeps t where
  numVars := Nat.le_of_eq (numVars_congr columns).symm
  isInt v _ := isInt_congr columns v
  grows := .of_eq columns tableau monomials given nodes atoms (fun _ member => asserted ▸ member) reliable
  asserted := asserted
  monomials := monomials
  given := given
  covers := covers
  infeasible := infeasible
  rows _ := by
    rw [tableau]
    exact id
  solvable α solves := by
    refine ⟨α, ⟨fun v integer => ?_, tableau ▸ solves.rows, monomials ▸ solves.monomials,
      given ▸ solves.given⟩, fun _ _ => rfl⟩
    exact solves.integral v (isInt_congr columns v ▸ integer)

/-- A change of nothing that a later state has to keep. -/
theorem Keeps.of_eq (reliable : t.Reliable → s.Reliable) (columns : t.columns = s.columns)
    (tableau : t.tableau = s.tableau) (monomials : t.monomials = s.monomials)
    (given : t.given = s.given) (nodes : s.dependencies.Extends t.dependencies) (atoms : t.atoms = s.atoms)
    (bounds : t.bounds = s.bounds) (status : t.status = s.status) : s.Keeps t :=
  .of_same reliable columns tableau monomials given nodes
    (fun _ atom found => ⟨atom, atoms ▸ found, rfl, rfl, rfl⟩) (atoms ▸ rfl)
    (fun _ _ _ covered => bounds ▸ covered) fun infeasible => by rwa [isInfeasible, status]

end State

open State

theorem ValuesOnly.keeps (only : ValuesOnly e next) : e.Keeps next.toState := by
  rw [only.toState]
  exact .of_eq id rfl rfl rfl rfl (.refl _) rfl rfl rfl

theorem keeps_normalizeRow (e : Engine) (r : RowId) : e.Keeps (e.normalizeRow r).toState := by
  obtain ⟨mid, becomes, only⟩ := valuesOnly_normalizeRow e r
  have first : e.Keeps mid.toState := by
    rw [becomes.toState]
    exact Keeps.rows_iff fun α => Tableau.holds_normalize r α
  exact first.trans only.keeps

theorem keeps_pivotAndUpdate {violation : Violation} {row : Row} {entering : Var}
    (found : e.tableau.get? violation.row = some row) (occurs : row.form.coeff entering ≠ 0) :
    e.Keeps (e.pivotAndUpdate violation row entering).toState := by
  rw [pivotAndUpdate_toState]
  generalize (violation.target - e.stored row.base).divide (row.form.coeff entering) = theta
  have only := valuesOnly_updateValue e entering theta
  have pivoted := only.keeps.trans (Keeps.rows_iff fun α =>
    Tableau.holds_pivot (only.tableau.symm ▸ found) occurs α)
  exact pivoted.trans (.of_eq id rfl rfl rfl rfl (.refl _) rfl rfl rfl)

/-! ## What one more constraint asks -/

namespace State

variable {s : State} {α β : Var → Rat}

/-- Constraints are about variables that exist. -/
theorem Founded.solves_congr (inv : s.Founded h) (agree : ∀ v, v < s.numVars → β v = α v)
    (solves : s.Solves α) : s.Solves β where
  integral v integer := agree v (isInt_lt integer) ▸ solves.integral v integer
  rows r row found := by
    have f := inv.formed
    rw [Row.Holds, agree _ (f.tableau.base_lt found), solves.rows r row found]
    refine LinearForm.combine_congr fun v mentioned => (agree v ?_).symm
    exact f.tableau.var_lt found (LinearForm.mentions_iff.1 mentioned)
  monomials m member := by
    have known := inv.multiplied
    rw [Monomial.Holds, agree _ (known.var_lt m member), solves.monomials m member]
    refine congrArg List.prod (List.map_congr_left fun v factor => ?_)
    exact (agree v (known.factor_lt m member v factor)).symm
  given g member := by
    rw [GivenBound.Holds, agree _ (inv.given_lt g member)]
    exact solves.given g member

/-- A new variable restricts solutions by its sort only. -/
theorem solves_withVar (s : State) (column : Variable) (α : Var → Rat) :
    (s.withVar column).Solves α ↔
      s.Solves α ∧ (column.sort = .int → ∃ n : Int, α s.numVars = n) := by
  constructor
  · intro solves
    refine ⟨(grows_withVar s column).solves α solves, fun is_int => solves.integral _ ?_⟩
    rw [isInt_withVar, if_pos rfl, is_int]
    rfl
  · rintro ⟨solves, new⟩
    refine { solves with integral := fun v integer => ?_ }
    rw [isInt_withVar] at integer
    split at integer
    · rename_i here
      exact here ▸ new (of_decide_eq_true integer)
    · exact solves.integral v integer

theorem solves_addRow (s : State) (base : Var) (form : LinearForm) (α : Var → Rat) :
    Solves { s with tableau := s.tableau.addRow base form } α ↔
      s.Solves α ∧ α base = form.combine α := by
  constructor
  · intro solves
    have ⟨others, new⟩ := (Tableau.holds_addRow base form α).1 solves.rows
    exact ⟨{ solves with rows := others }, new⟩
  · rintro ⟨solves, new⟩
    exact { solves with rows := (Tableau.holds_addRow base form α).2 ⟨solves.rows, new⟩ }

theorem solves_monomial (s : State) (m : Monomial) (α : Var → Rat) :
    Solves { s with monomials := s.monomials ++ [m] } α ↔ s.Solves α ∧ m.Holds α := by
  constructor
  · intro solves
    refine ⟨(grows_monomial s m).solves α solves, ?_⟩
    exact solves.monomials m (List.mem_append_right _ (List.mem_singleton.2 rfl))
  · rintro ⟨solves, new⟩
    refine { solves with monomials := fun other member => ?_ }
    rcases List.mem_append.1 member with before | last
    · exact solves.monomials other before
    · exact List.mem_singleton.1 last ▸ new

theorem solves_give (s : State) (g : GivenBound) (α : Var → Rat) :
    Solves { s with given := s.given ++ [g] } α ↔ s.Solves α ∧ g.Holds α := by
  constructor
  · intro solves
    refine ⟨(grows_give s g).solves α solves, ?_⟩
    exact solves.given g (List.mem_append_right _ (List.mem_singleton.2 rfl))
  · rintro ⟨solves, new⟩
    refine { solves with given := fun other member => ?_ }
    rcases List.mem_append.1 member with before | last
    · exact solves.given other before
    · exact List.mem_singleton.1 last ▸ new

end State

/-- A new variable that a row defines can be given the value of the row. -/
theorem keeps_define {sort : NumSort} {form : LinearForm} (inv : e.Invariant h)
    (var_lt : ∀ v, form.coeff v ≠ 0 → v < e.numVars)
    (integral : sort = .int → ∀ v, form.coeff v ≠ 0 →
      e.isInt v = true ∧ ∃ n : Int, form.coeff v = n) :
    e.Keeps { e.toState.withVar ⟨sort, .internal⟩ with
      tableau := e.tableau.addRow e.numVars form } where
  numVars := by
    show e.numVars ≤ (e.toState.withVar ⟨sort, .internal⟩).numVars
    rw [numVars_withVar]
    exact Nat.le_succ _
  isInt v lt := isInt_withVar_of_lt _ lt
  grows := (grows_withVar e.toState _).trans (grows_rows fun α holds =>
    ((Tableau.holds_addRow e.numVars form α).1 holds).1)
  asserted := rfl
  monomials := rfl
  given := rfl
  covers v kind value covered := by
    obtain ⟨active, found, admits⟩ := covered
    exact ⟨active, (BoundStore.get_addVar _ _ _).trans found, admits⟩
  infeasible infeasible := infeasible
  rows α holds := ((Tableau.holds_addRow _ form α).1 holds).1
  solvable α solves := by
    have others (v : Var) (lt : v < e.numVars) :
        Function.update α e.numVars (form.combine α) v = α v :=
      Function.update_of_ne (Nat.ne_of_lt lt) _ _
    have same_combine : form.combine (Function.update α e.numVars (form.combine α)) =
        form.combine α :=
      LinearForm.combine_congr fun v mentioned =>
        others v (var_lt v (LinearForm.mentions_iff.1 mentioned))
    refine ⟨Function.update α e.numVars (form.combine α),
      (solves_addRow (e.toState.withVar ⟨sort, .internal⟩) e.numVars form _).2
        ⟨(solves_withVar _ _ _).2 ⟨inv.founded.solves_congr others solves, fun is_int => ?_⟩, ?_⟩,
      others⟩
    · rw [Function.update_self]
      refine LinearForm.exists_int_combine_of_coeffs fun v occurs => ?_
      obtain ⟨is_integer, coefficient⟩ := integral is_int v occurs
      exact ⟨coefficient, solves.integral v is_integer⟩
    · rw [Function.update_self, same_combine]

/-- Every step keeps what there was. -/
theorem Step.keeps (step : Step h e next) (inv : e.Invariant h) : e.Keeps next.toState := by
  cases step with
  | quiet becomes => exact becomes.toState ▸ .refl _
  | depend arena nodes closed becomes => exact becomes.toState ▸ .of_eq id rfl rfl rfl rfl nodes rfl rfl rfl
  | verdict status before feasible becomes =>
    rw [becomes.toState]
    refine .of_same id rfl rfl rfl rfl (.refl _) (fun _ atom found => ⟨atom, found, rfl, rfl, rfl⟩) rfl
      (fun _ _ _ covered => covered) fun infeasible => ?_
    simp [before] at infeasible
  | touch touched becomes => exact becomes.toState ▸ .of_eq id rfl rfl rfl rfl (.refl _) rfl rfl rfl
  | handOut a atom sign reason found decided becomes =>
    rw [becomes.toState]
    refine .of_same id rfl rfl rfl rfl (.refl _) (fun b atom found => ?_) (asserted_markPropagated _ _)
      (fun _ _ _ covered => covered) fun infeasible => infeasible
    obtain ⟨later, found', var_eq, kind_eq, threshold_eq, -⟩ := markPropagated_spec found
    exact ⟨later, found', var_eq, kind_eq, threshold_eq⟩
  | report pair report becomes => exact becomes.toState ▸ .of_eq id rfl rfl rfl rfl (.refl _) rfl rfl rfl
  | note v kind becomes =>
    rw [becomes.toState]
    exact .of_same id rfl rfl rfl rfl (.refl _) (fun _ atom found => ⟨atom, found, rfl, rfl, rfl⟩) rfl
      (fun _ _ _ covered => covered) fun infeasible => infeasible
  | tighten b store touched mid ok done becomes moved =>
    have installed :=
      BoundStore.installed_of_tightened inv.founded.formed.bounds ok.lt done
    have first : e.Keeps mid.toState := by
      rw [becomes.toState]
      exact .of_same id rfl rfl rfl rfl (.refl _) (fun _ atom found => ⟨atom, found, rfl, rfl, rfl⟩) rfl
        (fun _ _ _ => installed.covers) fun infeasible => infeasible
    rw [moved]
    exact first.trans (valuesOnly_respectBound _ _ _ _).keeps
  | move v delta lt free admits moved => exact moved ▸ (valuesOnly_updateValue e v delta).keeps
  | normalize r moved => exact moved ▸ keeps_normalizeRow e r
  | relax vs dropped becomes => exact becomes.toState ▸ .of_eq id rfl rfl rfl rfl (.refl _) rfl rfl rfl
  | exchange violation rest row entering normalized first found occurs moved =>
    have taken : e.Keeps ({ e with toPatch := rest } : Engine).toState :=
      .of_eq id rfl rfl rfl rfl (.refl _) rfl rfl rfl
    rw [moved]
    exact taken.trans (keeps_pivotAndUpdate found occurs)
  | dequeue l atoms taken becomes =>
    rw [becomes.toState]
    rw [AtomRegistry.next?] at taken
    split at taken
    · cases taken
    · obtain ⟨rfl, rfl⟩ := Prod.mk.inj (Option.some.inj taken)
      exact .of_same id rfl rfl rfl rfl (.refl _) (fun _ atom found => ⟨atom, found, rfl, rfl, rfl⟩) rfl
        (fun _ _ _ covered => covered) fun infeasible => infeasible
  | intern v kind threshold lt becomes =>
    rw [becomes.toState]
    exact .of_same id rfl rfl rfl rfl (.refl _)
      (fun a atom found => ⟨atom, get?_add_of_some found v kind threshold, rfl, rfl, rfl⟩) rfl
      (fun _ _ _ covered => covered) fun infeasible => infeasible
  | define sort form mid var_lt integral becomes moved =>
    have first : e.Keeps mid.toState := becomes.toState ▸ keeps_define inv var_lt integral
    rw [moved]
    exact first.trans (keeps_normalizeRow _ _)

theorem Steps.keeps (steps : Steps h e next) (inv : e.Invariant h) : e.Keeps next.toState := by
  induction steps with
  | refl => exact .refl _
  | tail before step ih => exact ih.trans (step.keeps (Steps.invariant before inv))

/-! ## Conflicts -/

theorem isInfeasible_congr {s t : State} (status : t.status = s.status) :
    t.isInfeasible = s.isInfeasible := by
  rw [isInfeasible, isInfeasible, status]

theorem ValuesOnly.status (only : ValuesOnly e next) : next.status = e.status := by
  rw [only.toState]

theorem status_normalizeRow (e : Engine) (r : RowId) : (e.normalizeRow r).status = e.status := by
  obtain ⟨mid, becomes, only⟩ := valuesOnly_normalizeRow e r
  rw [only.status, becomes.toState]

/-- No step finds a conflict. -/
theorem Step.calm (step : Step h e next) : next.isInfeasible = e.isInfeasible := by
  cases step with
  | quiet becomes => exact becomes.toState ▸ rfl
  | depend arena nodes closed becomes => exact becomes.toState ▸ rfl
  | verdict status before feasible becomes =>
    rw [becomes.toState, before]
    cases status with
    | infeasible d => exact absurd rfl (feasible d)
    | consistent | checking => rfl
  | touch touched becomes => exact becomes.toState ▸ rfl
  | handOut a atom sign reason found decided becomes => exact becomes.toState ▸ rfl
  | report pair report becomes => exact becomes.toState ▸ rfl
  | note v kind becomes => exact becomes.toState ▸ rfl
  | tighten b store touched mid ok done becomes moved =>
    refine isInfeasible_congr ?_
    rw [moved, (valuesOnly_respectBound _ _ _ _).status, becomes.toState]
  | move v delta lt free admits moved =>
    exact isInfeasible_congr (moved ▸ (valuesOnly_updateValue e v delta).status)
  | normalize r moved => exact isInfeasible_congr (moved ▸ status_normalizeRow e r)
  | relax vs dropped becomes => exact becomes.toState ▸ rfl
  | exchange violation rest row entering normalized first found occurs moved =>
    refine isInfeasible_congr ?_
    rw [moved, pivotAndUpdate_toState]
    exact (valuesOnly_updateValue _ _ _).status
  | dequeue l atoms taken becomes => exact becomes.toState ▸ rfl
  | intern v kind threshold lt becomes => exact becomes.toState ▸ rfl
  | define sort form mid var_lt integral becomes moved =>
    refine isInfeasible_congr ?_
    rw [moved, status_normalizeRow, becomes.toState]
    rfl

theorem Steps.calm (steps : Steps h e next) : next.isInfeasible = e.isInfeasible := by
  induction steps with
  | refl => rfl
  | tail _ step ih => exact step.calm.trans ih

/-- A conflict is recorded, unless there was one already. -/
inductive Fails (h : History) (e next : Engine) : Prop
  | again (before : e.isInfeasible = true) (becomes : e.Becomes e.toState next)
  | conflict (d : Dependency) (before : e.isInfeasible = false) (blames : e.Blames h d)
      (becomes : e.Becomes { e.toState with status := .infeasible d } next)

theorem Fails.infeasible (fails : Fails h e next) : next.isInfeasible = true := by
  cases fails with
  | again before becomes => exact becomes.toState ▸ before
  | conflict d before blames becomes => exact becomes.toState ▸ rfl

theorem Fails.invariant (fails : Fails h e next) (inv : e.Invariant h) : next.Invariant h := by
  cases fails with
  | again before becomes => exact becomes.toState ▸ inv
  | conflict d before blames becomes =>
    rw [becomes.toState]
    exact inv.of_same (inv.founded.infeasible blames) rfl rfl rfl (fun _ _ => rfl) (fun _ => id) id

theorem Fails.inside (fails : Fails h e next) : e.Inside next := by
  cases fails with
  | again before becomes =>
    exact becomes.inside rfl rfl rfl rfl rfl rfl fun scope _ _ => .refl e.toState scope
  | conflict d before blames becomes =>
    exact becomes.inside rfl rfl rfl rfl rfl rfl fun scope _ _ => { Rewinds.refl e.toState scope with }

theorem Fails.keeps (fails : Fails h e next) : e.Keeps next.toState := by
  cases fails with
  | again before becomes => exact becomes.toState ▸ Keeps.refl e.toState
  | conflict d before blames becomes =>
    rw [becomes.toState]
    exact .of_same id rfl rfl rfl rfl (.refl _) (fun _ atom found => ⟨atom, found, rfl, rfl, rfl⟩) rfl
      (fun _ _ _ covered => covered) fun _ => rfl

theorem Fails.normalized (fails : Fails h e next) (normalized : e.tableau.Normalized) :
    next.tableau.Normalized := by
  cases fails with
  | again before becomes => exact becomes.toState ▸ normalized
  | conflict d before blames becomes => exact becomes.toState ▸ normalized

/-- What an operation does that answers false only when it gives up or finds a conflict. -/
inductive Answers (h : History) (e : Engine) : Engine × Bool → Prop
  | yes {next : Engine} (steps : Steps h e next) : Answers h e (next, true)
  | gaveUp {next : Engine} (steps : Steps h e next) : Answers h e (next, false)
  | conflict {mid next : Engine} (steps : Steps h e mid) (fails : Fails h mid next) :
    Answers h e (next, false)

variable {result : Engine × Bool}

theorem Answers.after (steps : Steps h e next) (answers : Answers h next result) :
    Answers h e result := by
  cases answers with
  | yes later => exact .yes (steps.trans later)
  | gaveUp later => exact .gaveUp (steps.trans later)
  | conflict later fails => exact .conflict (steps.trans later) fails

/-- Answering true is as good as giving up. -/
theorem Answers.weaken {ok : Bool} (answers : Answers h e (next, ok)) : Answers h e (next, false) := by
  cases answers with
  | yes steps => exact .gaveUp steps
  | gaveUp steps => exact .gaveUp steps
  | conflict steps fails => exact .conflict steps fails

theorem Answers.steps (answers : Answers h e result) (yes : result.2 = true) :
    Steps h e result.1 := by
  cases answers with
  | yes steps => exact steps
  | gaveUp steps => cases yes
  | conflict steps fails => cases yes

/-- An operation followed by another one unless it answered false. -/
theorem Answers.bind {then_ : Engine → Engine × Bool} :
    ∀ {result : Engine × Bool}, Answers h e result →
      (∀ next, Steps h e next → result = (next, true) → Answers h next (then_ next)) →
      Answers h e (match result with
        | (next, true) => then_ next
        | (next, false) => (next, false)) := by
  intro result first second
  cases first with
  | yes steps => exact (second _ steps rfl).after steps
  | gaveUp steps => exact .gaveUp steps
  | conflict steps fails => exact .conflict steps fails

theorem Answers.invariant (answers : Answers h e result) (inv : e.Invariant h) :
    result.1.Invariant h := by
  cases answers with
  | yes steps => exact steps.invariant inv
  | gaveUp steps => exact steps.invariant inv
  | conflict steps fails => exact fails.invariant (steps.invariant inv)

theorem Answers.inside (answers : Answers h e result) (inv : e.Invariant h) : e.Inside result.1 := by
  cases answers with
  | yes steps => exact steps.inside inv
  | gaveUp steps => exact steps.inside inv
  | conflict steps fails => exact (steps.inside inv).trans fails.inside

theorem Answers.scopesEntered (answers : Answers h e result) :
    result.1.scopesEntered = e.scopesEntered := by
  cases answers with
  | yes steps => exact steps.scopesEntered
  | gaveUp steps => exact steps.scopesEntered
  | conflict steps fails =>
    rw [← steps.scopesEntered]
    cases fails with
    | again before becomes => rw [becomes.toState]
    | conflict d before blames becomes => rw [becomes.toState]

theorem Answers.reliable_iff (answers : Answers h e result) (inv : e.Invariant h) :
    result.1.Reliable ↔ e.Reliable :=
  reliable_congr answers.scopesEntered (answers.inside inv).scopes

theorem Answers.keeps (answers : Answers h e result) (inv : e.Invariant h) :
    e.Keeps result.1.toState := by
  cases answers with
  | yes steps => exact steps.keeps inv
  | gaveUp steps => exact steps.keeps inv
  | conflict steps fails => exact (steps.keeps inv).trans fails.keeps

theorem Answers.normalized (answers : Answers h e result) (normalized : e.tableau.Normalized) :
    result.1.tableau.Normalized := by
  cases answers with
  | yes steps => exact steps.normalized normalized
  | gaveUp steps => exact steps.normalized normalized
  | conflict steps fails => exact fails.normalized (steps.normalized normalized)

/-- Steps for each item in turn are steps, and the first conflict is the last of them. -/
theorem answers_forEach {α : Type} {step : Engine → α → Engine × Bool} {items : List α}
    (each : ∀ next, Steps h e next → ∀ a ∈ items, Answers h next (step next a)) :
    Answers h e (forEach step items e) := by
  induction items generalizing e with
  | nil => exact .yes .refl
  | cons a rest ih =>
    have ⟨first, others⟩ := List.forall_mem_cons.1 (each e .refl)
    refine Answers.bind first fun next steps _ => ?_
    exact ih fun last later b member => each last (steps.trans later) b (List.mem_cons_of_mem _ member)

/-- When no step that answers true changes the state, running them all does not. -/
theorem toState_forEach {α : Type} {step : Engine → α → Engine × Bool} (e : Engine) (items : List α)
    (each : ∀ next a, (step next a).2 = true → (step next a).1.toState = next.toState)
    (yes : (forEach step items e).2 = true) : (forEach step items e).1.toState = e.toState := by
  induction items generalizing e with
  | nil => rfl
  | cons a rest ih =>
    have same := each e a
    rw [forEach] at yes ⊢
    split at yes
    · rename_i next result
      rw [result] at same
      exact (ih next yes).trans (same rfl)
    · cases yes

end ArithDecide.Engine
