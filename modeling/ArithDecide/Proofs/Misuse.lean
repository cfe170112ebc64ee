import ArithDecide.Engine.InPlace
import ArithDecide.Proofs.Loading

/-!
# Misuse changes nothing

`Misuse` lists what the calls are documented to refuse. `Session.misuse_refused` says that a call which
runs in place fails exactly on these, and that whenever it fails the engine is what it was before: a
stage that fails after others have changed the engine does not exist, since the checks that come first,
and the rows and columns of a reachable engine, leave nothing to refuse later.
-/

namespace ArithDecide

namespace Engine

open State

variable {e next : Engine} {h : History} {v base : Var} {entries : List (Var × Rat)} {α β : Type}

/-- What a call is documented to refuse. -/
inductive Misuse (e : Engine) : Call → EngineError → Prop where
  | unknownNamed {v : Var} {name : String} : ¬v < e.numVars →
    Misuse e (.setName v name) (.unknownVariable v)
  | unknownBase {base : Var} {entries : List (Var × Rat)} : ¬base < e.numVars →
    Misuse e (.addRow base entries) (.unknownVariable base)
  | unknownEntry {base : Var} {entries : List (Var × Rat)} {entry : Var × Rat} :
    entry ∈ entries → ¬entry.1 < e.numVars → Misuse e (.addRow base entries) (.unknownVariable entry.1)
  | ownEntry {base : Var} {entries : List (Var × Rat)} {entry : Var × Rat} :
    entry ∈ entries → entry.1 = base → Misuse e (.addRow base entries) (.baseNotFresh base)
  | occupied {base : Var} {entries : List (Var × Rat)} {r : RowId} {row : Row} :
    e.tableau.get? r = some row → row.base = base ∨ row.form.coeff base ≠ 0 →
    Misuse e (.addRow base entries) (.baseNotFresh base)
  | unknownTerm {sort : NumSort} {term : Term} {entries : List (Var × Rat)} {entry : Var × Rat} :
    entry ∈ entries → ¬entry.1 < e.numVars →
    Misuse e (.mkLinear sort term entries) (.unknownVariable entry.1)
  | fewFactors {factors : List Var} : factors.length < 2 →
    Misuse e (.mkMonomial factors) (.degenerateMonomial factors.length)
  | unknownFactor {factors : List Var} {v : Var} : v ∈ factors → ¬v < e.numVars →
    Misuse e (.mkMonomial factors) (.unknownVariable v)
  | unknownBounded {v : Var} {kind : BoundKind} {threshold : Rat} : ¬v < e.numVars →
    Misuse e (.mkAtom v kind threshold) (.unknownVariable v)
  | unknownLiteral {l : Literal} : e.atoms.get? l.atom = none →
    Misuse e (.assertLiteral l) (.unknownLiteral l)
  | unknownFixed {v : Var} {value : Rat} : ¬v < e.numVars →
    Misuse e (.assertEq v value) (.unknownVariable v)
  | unknownGiven {v : Var} {kind : BoundKind} {value : InfRat} : ¬v < e.numVars →
    Misuse e (.assertGiven v kind value) (.unknownVariable v)
  | unknownLeft {left right : Var} : ¬left < e.numVars →
    Misuse e (.assertVarEq left right) (.unknownVariable left)
  | unknownRight {left right : Var} : ¬right < e.numVars →
    Misuse e (.assertVarEq left right) (.unknownVariable right)
  | tooMany {count : Nat} : e.depth < count → Misuse e (.pop count) (.popBelowRoot count e.depth)
  | tooDeep {m : Mark} : e.depth < m.depth →
    Misuse e (.retractTo m) (.popBelowRoot m.depth e.depth)

/-! ## How a call in place ends -/

/-- The call ends with the engine and the answer of the result, or with its error and the engine as it
was. -/
def Returns (call : InPlace α) (e : Engine) (result : Except EngineError (Engine × α)) : Prop :=
  call.runOn e = match result with
    | .ok (next, a) => (next, .ok a)
    | .error error => (e, .error error)

/-- The stage looks at the engine and leaves it as it is. -/
def Inspects (stage : InPlace Unit) (e : Engine) (result : Except EngineError Unit) : Prop :=
  stage.runOn e = (e, result)

theorem InPlace.runOn_bind (first : InPlace α) (rest : α → InPlace β) (e : Engine) :
    (first >>= rest).runOn e = match first.runOn e with
      | (left, .ok a) => (rest a).runOn left
      | (left, .error error) => (left, .error error) := by
  unfold InPlace.runOn
  rw [ExceptT.run_bind, StateT.run_bind]
  rcases first.run.run e with ⟨_ | _, _⟩ <;> rfl

/-- What is checked before anything is changed may fail. -/
theorem Inspects.bind {first : InPlace Unit} {rest : Unit → InPlace α} {checked : Except EngineError Unit}
    {result : Except EngineError (Engine × α)} (inspects : Inspects first e checked)
    (goes_on : checked = .ok () → Returns (rest ()) e result) :
    Returns (first >>= rest) e (checked >>= fun _ => result) := by
  unfold Returns
  rw [InPlace.runOn_bind, inspects]
  cases checked with
  | ok _ => exact goes_on rfl
  | error _ => rfl

/-- What comes after a change must succeed. -/
theorem Returns.bind {first : InPlace α} {rest : α → InPlace β} {a : α}
    {result : Engine × β} (returns : Returns first e (.ok (next, a)))
    (goes_on : Returns (rest a) next (.ok result)) : Returns (first >>= rest) e (.ok result) := by
  unfold Returns at returns
  unfold Returns
  rw [InPlace.runOn_bind, returns]
  exact goes_on

theorem returns_pure (a : α) (e : Engine) : Returns (pure a) e (.ok (e, a)) := rfl

theorem returns_stage (change : Engine → Engine × α) (e : Engine) :
    Returns (InPlace.stage change) e (.ok (change e)) := rfl

theorem returns_modify (change : Engine → Engine) (e : Engine) :
    Returns (modify change) e (.ok (change e, ())) := rfl

theorem inspects_if (condition : Engine → Prop) [DecidablePred condition] (error : EngineError)
    (e : Engine) :
    Inspects (do
      let e ← get
      if condition e then return else throw error) e
      (if condition e then .ok () else .error error) := by
  show InPlace.runOn (if condition e then pure () else throw error) e = _
  split <;> rfl

/-! ## Checks -/

theorem inspects_requireVar (v : Var) (e : Engine) :
    Inspects (InPlace.requireVar v) e (e.requireVar v) :=
  inspects_if (fun e => e.hasVar v = true) (.unknownVariable v) e

/-- Checking the entries of a row in place changes nothing. -/
theorem inspects_requireEntries (base : Var) (entries : List (Var × Rat)) (e : Engine) :
    Inspects (InPlace.requireEntries base entries) e (e.requireEntries base entries) := by
  induction entries with
  | nil => rfl
  | cons entry rest ih =>
    obtain ⟨v, coeff⟩ := entry
    unfold Inspects InPlace.requireEntries requireEntries
    rw [InPlace.runOn_bind, inspects_requireVar v e]
    cases e.requireVar v with
    | error _ => rfl
    | ok _ =>
      by_cases same : v = base
      · simp only [same, if_true]
        rfl
      · simp only [same, if_false]
        exact ih

theorem inspects_forM {items : List α} {stage : α → InPlace Unit} {check : α → Except EngineError Unit}
    (each : ∀ a, Inspects (stage a) e (check a)) :
    Inspects (items.forM stage) e (items.forM check) := by
  induction items with
  | nil => rfl
  | cons a rest ih =>
    show InPlace.runOn (stage a >>= fun _ => rest.forM stage) e = (e, check a >>= fun _ => rest.forM check)
    rw [InPlace.runOn_bind, each a]
    cases check a with
    | ok _ => exact ih
    | error _ => rfl

/-! ## Calls that check first -/

theorem map_check (checked : Except EngineError Unit) (result : Except EngineError α) (f : α → β) :
    (checked >>= fun _ => result).map f = checked >>= fun _ => result.map f := by
  cases checked <;> rfl

theorem returns_setName (v : Var) (name : String) (e : Engine) :
    Returns (InPlace.setName v name) e ((e.setName v name).map (·, ())) := by
  unfold setName
  rw [map_check]
  apply (inspects_requireVar v e).bind
  intro _
  apply returns_modify

theorem addRow_eq_checks : e.addRow base entries = e.requireVar base >>= fun _ =>
    e.requireEntries base entries >>= fun _ =>
      (if e.tableau.isFresh base = true then .ok () else .error (.baseNotFresh base)) >>= fun _ =>
        .ok (e.placeRow base (.ofEntries entries)) := by
  unfold addRow
  cases e.tableau.isFresh base <;> rfl

theorem returns_addRow (base : Var) (entries : List (Var × Rat)) (e : Engine) :
    Returns (InPlace.addRow base entries) e (e.addRow base entries) := by
  rw [addRow_eq_checks]
  apply (inspects_requireVar base e).bind
  intro _
  apply (inspects_requireEntries base entries e).bind
  intro _
  apply (inspects_if (fun e => e.tableau.isFresh base = true) (.baseNotFresh base) e).bind
  intro _
  apply returns_stage

theorem returns_internMonomial (sorted : List Var) (e : Engine) :
    Returns (InPlace.internMonomial sorted) e
      (match e.monomials.find? fun m => m.factors == sorted with
        | some m => .ok (e, m.var)
        | none => .ok (e.placeMonomial sorted)) := by
  show InPlace.runOn (match e.monomials.find? fun m => m.factors == sorted with
    | some m => pure m.var
    | none => InPlace.stage (·.placeMonomial sorted)) e = _
  split <;> rfl

theorem returns_mkMonomial (factors : List Var) (e : Engine) :
    Returns (InPlace.mkMonomial factors) e (e.mkMonomial factors) := by
  unfold InPlace.mkMonomial mkMonomial
  by_cases few : factors.length < 2
  · simp only [few, if_true]
    rfl
  · simp only [few, if_false]
    have known : Inspects (factors.forM InPlace.requireVar) e (factors.forM e.requireVar) :=
      inspects_forM fun v => inspects_requireVar v e
    apply known.bind
    intro _
    apply returns_internMonomial

theorem returns_mkAtom (v : Var) (kind : BoundKind) (threshold : Rat) (e : Engine) :
    Returns (InPlace.mkAtom v kind threshold) e (e.mkAtom v kind threshold) := by
  apply (inspects_requireVar v e).bind
  intro _
  apply returns_stage

theorem assertLiteral_eq (l : Literal) : e.assertLiteral l =
    if (e.atoms.get? l.atom).isNone = true then .error (.unknownLiteral l)
    else .ok (e.takeLiteral l) := by
  unfold assertLiteral takeLiteral
  cases e.atoms.assign l <;> rfl

theorem returns_assertLiteral (l : Literal) (e : Engine) :
    Returns (InPlace.assertLiteral l) e ((e.assertLiteral l).map (·, ())) := by
  rw [assertLiteral_eq]
  show InPlace.runOn (if (e.atoms.get? l.atom).isNone = true then throw (.unknownLiteral l)
    else modify (·.takeLiteral l)) e = _
  split <;> rfl

theorem returns_assertGiven (v : Var) (kind : BoundKind) (value : InfRat) (e : Engine) :
    Returns (InPlace.assertGiven v kind value) e ((e.assertGiven v kind value).map (·, ())) := by
  unfold assertGiven
  rw [map_check]
  apply (inspects_requireVar v e).bind
  intro _
  apply Returns.bind (returns_modify _ e)
  apply returns_modify

theorem returns_popScopes (count : Nat) (e : Engine) :
    Returns (InPlace.popScopes count) e (.ok (popScopes count e, ())) := by
  induction count generalizing e with
  | zero => rfl
  | succ count ih => exact (returns_modify popScope e).bind (ih e.popScope)

theorem returns_pop (count : Nat) (e : Engine) :
    Returns (InPlace.pop count) e ((e.pop count).map (·, ())) := by
  unfold pop
  show InPlace.runOn (if e.depth < count then throw (.popBelowRoot count e.depth)
    else InPlace.popScopes count) e = _
  split
  · rfl
  · exact returns_popScopes count e

theorem returns_retractTo (m : Mark) (e : Engine) :
    Returns (InPlace.retractTo m) e ((e.retractTo m).map (·, ())) := by
  unfold retractTo
  show InPlace.runOn (if e.depth < m.depth then throw (.popBelowRoot m.depth e.depth)
    else InPlace.pop (e.depth - m.depth)) e = _
  split
  · rfl
  · exact returns_pop (e.depth - m.depth) e

/-! ## Calls that change before they check -/

theorem returns_mkLinear (formed : e.Formed) (sort : NumSort) (term : Term)
    (entries : List (Var × Rat)) :
    Returns (InPlace.mkLinear sort term entries) e (e.mkLinear sort term entries) := by
  have known : Inspects (entries.forM fun entry => InPlace.requireVar entry.1) e
      (entries.forM fun entry => e.requireVar entry.1) :=
    inspects_forM fun entry => inspects_requireVar entry.1 e
  unfold mkLinear
  apply known.bind
  intro ok
  -- the new variable occurs nowhere, so its row cannot be refused
  obtain ⟨withRow, r, added, -⟩ := mkLinear_eq formed sort term
    fun entry member => requireVar_eq_ok.1 (forM_eq_ok.1 ok entry member)
  have row := returns_addRow e.numVars entries (e.mkVar sort term).1
  rw [added] at row
  show Returns _ e ((e.mkVar sort term).1.addRow e.numVars entries >>= fun made =>
    .ok (made.1, e.numVars))
  rw [added]
  apply Returns.bind (returns_stage (·.mkVar sort term) e)
  apply Returns.bind row
  apply returns_pure

theorem assertLiteral_eq_ok {l : Literal} {kind : BoundKind} {threshold : Rat}
    (states : e.States l v kind threshold) : e.assertLiteral l = .ok (e.takeLiteral l) := by
  obtain ⟨-, atom, found, -⟩ := states
  rw [assertLiteral_eq, found]
  rfl

/-- Both atoms of a value are there when their literals are asserted. -/
theorem exists_assertEq (ready : e.Ready h) (lt : v < e.numVars) (value : Rat) :
    ∃ one lower two upper three four, e.mkAtom v .lower value = .ok (one, lower) ∧
      one.mkAtom v .upper value = .ok (two, upper) ∧ two.assertLiteral lower = .ok three ∧
        three.assertLiteral upper = .ok four := by
  have numVars := numVars_internAtom e v .lower value
  have lower_states : (e.internAtom v .lower value).1.States _ v .lower value :=
    states_internAtom ready.invariant lt
  have one := (ready.internAtom lt .lower value).ready
  rcases made_lower : e.internAtom v .lower value with ⟨e₁, lower⟩
  rw [made_lower] at numVars lower_states one
  have lt₁ : v < e₁.numVars := by
    rw [numVars]
    exact lt
  have upper_states : (e₁.internAtom v .upper value).1.States _ v .upper value :=
    states_internAtom one.invariant lt₁
  have two := one.internAtom lt₁ .upper value
  rcases made_upper : e₁.internAtom v .upper value with ⟨e₂, upper⟩
  rw [made_upper] at upper_states two
  have lower_ok := assertLiteral_eq_ok (two.grows.states lower_states)
  have three := two.ready.assertLiteral lower_ok
  have upper_ok := assertLiteral_eq_ok (three.grows.states upper_states)
  refine ⟨e₁, lower, e₂, upper, _, _, ?_, ?_, lower_ok, upper_ok⟩
  · rw [mkAtom_eq lt, made_lower]
  · rw [mkAtom_eq lt₁, made_upper]

/-- Asserting that a variable has a value leaves, in place, the engine that the session has. -/
theorem returns_assertEq (ready : e.Ready h) (v : Var) (value : Rat) :
    Returns (InPlace.assertEq v value) e (e.assertEq v value) := by
  unfold assertEq InPlace.assertEq
  have first := returns_mkAtom v .lower value e
  by_cases lt : v < e.numVars
  · obtain ⟨one, lower, two, upper, three, four, made_lower, made_upper, lower_ok, upper_ok⟩ :=
      exists_assertEq ready lt value
    have second := returns_mkAtom v .upper value one
    have third := returns_assertLiteral lower two
    have fourth := returns_assertLiteral upper three
    rw [made_lower] at first
    rw [made_upper] at second
    rw [lower_ok] at third
    rw [upper_ok] at fourth
    simp only [made_lower, made_upper, lower_ok, upper_ok, bind, Except.bind, pure, Except.pure]
    apply first.bind
    apply second.bind
    apply third.bind
    apply fourth.bind
    apply returns_pure
  · have failed : e.mkAtom v .lower value = .error (.unknownVariable v) := by
      unfold mkAtom requireVar
      simp [hasVar, lt, bind, Except.bind]
    rw [failed] at first ⊢
    unfold Returns
    rw [InPlace.runOn_bind, first]
    rfl

/-- Asserting that two variables are equal leaves, in place, the engine that the session has. -/
theorem returns_assertVarEq (formed : e.Formed) (left right : Var) :
    Returns (InPlace.assertVarEq left right) e ((e.assertVarEq left right).map (·, ())) := by
  unfold assertVarEq
  rw [map_check]
  apply (inspects_requireVar left e).bind
  intro left_known
  rw [map_check]
  apply (inspects_requireVar right e).bind
  intro right_known
  by_cases same : left = right
  · simp only [same, if_true]
    apply returns_pure
  · simp only [same, if_false]
    have known : ∀ entry ∈ [(left, (1 : Rat)), (right, -1)], entry.1 < e.numVars := by
      simpa using ⟨requireVar_eq_ok.1 left_known, requireVar_eq_ok.1 right_known⟩
    -- the difference occurs nowhere, so its row cannot be refused
    obtain ⟨withRow, r, added, -⟩ :=
      mkLinear_eq formed (e.jointSort [left, right]) .internal known
    have row := returns_addRow e.numVars [(left, 1), (right, -1)]
      (e.mkVar (e.jointSort [left, right]) .internal).1
    rw [added] at row
    show Returns _ e (Except.map _ ((e.mkVar (e.jointSort [left, right]) .internal).1.addRow e.numVars
      [(left, 1), (right, -1)] >>= fun made => .ok (made.1.fixDifference e.numVars left right)))
    rw [added]
    apply Returns.bind (returns_stage (fun e => e.mkVar (e.jointSort [left, right]) .internal) e)
    apply Returns.bind row
    apply returns_modify

/-! ## What is refused -/

/-- The result is an error exactly on misuse, and the error names it. -/
structure Refuses (e : Engine) (call : Call) (result : Except EngineError α) : Prop where
  named : ∀ error, result = .error error → e.Misuse call error
  refused : ∀ error a, e.Misuse call error → result ≠ .ok a

theorem requireVar_eq_error {error : EngineError} (failed : e.requireVar v = .error error) :
    ¬v < e.numVars ∧ error = .unknownVariable v := by
  unfold requireVar at failed
  split at failed
  · cases failed
  · rename_i unknown
    exact ⟨fun lt => unknown (decide_eq_true lt), (Except.error.inj failed).symm⟩

/-- Entries are refused because of a variable that does not exist, or because one is for the base
itself. -/
theorem requireEntries_eq_error {error : EngineError}
    (failed : e.requireEntries base entries = .error error) :
    (∃ entry ∈ entries, ¬entry.1 < e.numVars ∧ error = .unknownVariable entry.1) ∨
      ∃ entry ∈ entries, entry.1 = base ∧ error = .baseNotFresh base := by
  induction entries with
  | nil => cases failed
  | cons entry rest ih =>
    obtain ⟨v, coeff⟩ := entry
    unfold requireEntries at failed
    rcases bind_eq_error failed with unknown | ⟨_, -, failed⟩
    · exact .inl ⟨(v, coeff), List.mem_cons_self, requireVar_eq_error unknown⟩
    · by_cases same : v = base
      · simp only [same, if_true] at failed
        exact .inr ⟨(v, coeff), List.mem_cons_self, same, (Except.error.inj failed).symm⟩
      · simp only [same, if_false] at failed
        rcases ih failed with ⟨entry, member, unknown⟩ | ⟨entry, member, own⟩
        · exact .inl ⟨entry, List.mem_cons_of_mem _ member, unknown⟩
        · exact .inr ⟨entry, List.mem_cons_of_mem _ member, own⟩

theorem refuses_setName (v : Var) (name : String) :
    e.Refuses (.setName v name) (e.setName v name) where
  named error failed := by
    rcases bind_eq_error failed with unknown | ⟨_, -, failed⟩
    · obtain ⟨absent, rfl⟩ := requireVar_eq_error unknown
      exact .unknownNamed absent
    · cases failed
  refused error next misuse ok := by
    obtain ⟨_, known, -⟩ := bind_eq_ok ok
    cases misuse with
    | unknownNamed unknown => exact unknown (requireVar_eq_ok.1 known)

/-- A row is refused exactly if its base or a variable of an entry does not exist, or the base is not
fresh; the error names the first of these in the order of the checks. -/
theorem refuses_addRow (base : Var) (entries : List (Var × Rat)) :
    e.Refuses (.addRow base entries) (e.addRow base entries) where
  named error failed := by
    rw [addRow_eq_checks] at failed
    rcases bind_eq_error failed with unknown | ⟨_, -, failed⟩
    · obtain ⟨absent, rfl⟩ := requireVar_eq_error unknown
      exact .unknownBase absent
    · rcases bind_eq_error failed with refused | ⟨_, -, failed⟩
      · rcases requireEntries_eq_error refused with
          ⟨entry, member, unknown, rfl⟩ | ⟨entry, member, own, rfl⟩
        · exact .unknownEntry member unknown
        · exact .ownEntry member own
      · rcases bind_eq_error failed with refused | ⟨_, -, failed⟩
        · split at refused
          · cases refused
          · rename_i occupied
            obtain rfl := Except.error.inj refused
            rw [Tableau.isFresh_iff] at occupied
            push Not at occupied
            obtain ⟨r, row, found, occurs⟩ := occupied
            exact .occupied found (or_iff_not_imp_left.2 occurs)
        · cases failed
  refused error result misuse ok := by
    obtain ⟨⟨base_lt, fresh, entries_lt⟩, -⟩ := of_addRow ok
    cases misuse with
    | unknownBase unknown => exact unknown base_lt
    | unknownEntry member unknown => exact unknown (entries_lt _ member).1
    | ownEntry member own => exact (entries_lt _ member).2 own
    | occupied found occurs =>
      obtain ⟨other, absent⟩ := Tableau.isFresh_iff.1 fresh _ _ found
      rcases occurs with heads | mentioned
      · exact other heads
      · exact mentioned absent

/-- A variable with a row is refused exactly if an entry is for a variable that does not exist. -/
theorem refuses_mkLinear (formed : e.Formed) (sort : NumSort) (term : Term)
    (entries : List (Var × Rat)) :
    e.Refuses (.mkLinear sort term entries) (e.mkLinear sort term entries) where
  named error failed := by
    by_cases known : ∀ entry ∈ entries, entry.1 < e.numVars
    · obtain ⟨next, r, -, ok⟩ := mkLinear_eq formed sort term known
      rw [ok] at failed
      cases failed
    · rcases bind_eq_error failed with unknown | ⟨_, known', -⟩
      · obtain ⟨entry, member, unknown⟩ := forM_eq_error unknown
        obtain ⟨absent, rfl⟩ := requireVar_eq_error unknown
        exact .unknownTerm member absent
      · exact absurd (fun entry member => requireVar_eq_ok.1 (forM_eq_ok.1 known' entry member)) known
  refused error result misuse ok := by
    obtain ⟨_, known, -⟩ := bind_eq_ok ok
    cases misuse with
    | unknownTerm member unknown => exact unknown (requireVar_eq_ok.1 (forM_eq_ok.1 known _ member))

/-- A product is refused exactly if it has fewer than two factors or one that does not exist. -/
theorem refuses_mkMonomial (factors : List Var) :
    e.Refuses (.mkMonomial factors) (e.mkMonomial factors) where
  named error failed := by
    by_cases few : factors.length < 2
    · unfold mkMonomial at failed
      simp only [few, if_true] at failed
      obtain rfl := Except.error.inj failed
      exact .fewFactors few
    · by_cases known : ∀ v ∈ factors, v < e.numVars
      · obtain ⟨next, v, ok⟩ := exists_mkMonomial (Nat.not_lt.1 few) known
        rw [ok] at failed
        cases failed
      · unfold mkMonomial at failed
        simp only [few, if_false] at failed
        rcases bind_eq_error failed with unknown | ⟨_, known', -⟩
        · obtain ⟨v, member, unknown⟩ := forM_eq_error unknown
          obtain ⟨absent, rfl⟩ := requireVar_eq_error unknown
          exact .unknownFactor member absent
        · exact absurd (fun v member => requireVar_eq_ok.1 (forM_eq_ok.1 known' v member)) known
  refused error result misuse ok := by
    obtain ⟨enough, known, -⟩ := of_mkMonomial ok
    cases misuse with
    | fewFactors few => omega
    | unknownFactor member unknown => exact unknown (known _ member)

theorem refuses_mkAtom (v : Var) (kind : BoundKind) (threshold : Rat) :
    e.Refuses (.mkAtom v kind threshold) (e.mkAtom v kind threshold) where
  named error failed := by
    rcases bind_eq_error failed with unknown | ⟨_, -, failed⟩
    · obtain ⟨absent, rfl⟩ := requireVar_eq_error unknown
      exact .unknownBounded absent
    · cases failed
  refused error result misuse ok := by
    obtain ⟨_, known, -⟩ := bind_eq_ok ok
    cases misuse with
    | unknownBounded unknown => exact unknown (requireVar_eq_ok.1 known)

/-- A literal is refused exactly if its atom does not exist. -/
theorem refuses_assertLiteral (l : Literal) :
    e.Refuses (.assertLiteral l) (e.assertLiteral l) where
  named error failed := by
    rw [assertLiteral_eq] at failed
    split at failed
    · rename_i unknown
      obtain rfl := Except.error.inj failed
      exact .unknownLiteral (Option.isNone_iff_eq_none.1 unknown)
    · cases failed
  refused error result misuse ok := by
    rw [assertLiteral_eq] at ok
    cases misuse with
    | unknownLiteral unknown =>
      rw [unknown] at ok
      cases ok

/-- A value is refused exactly if its variable does not exist. -/
theorem refuses_assertEq (ready : e.Ready h) (v : Var) (value : Rat) :
    e.Refuses (.assertEq v value) (e.assertEq v value) where
  named error failed := by
    by_cases lt : v < e.numVars
    · obtain ⟨one, lower, two, upper, three, four, made_lower, made_upper, lower_ok, upper_ok⟩ :=
        exists_assertEq ready lt value
      simp only [assertEq, made_lower, made_upper, lower_ok, upper_ok, bind, Except.bind] at failed
      cases failed
    · rcases bind_eq_error failed with refused | ⟨_, made, -⟩
      · cases (refuses_mkAtom v .lower value).named error refused with
        | unknownBounded unknown => exact .unknownFixed unknown
      · exact absurd made ((refuses_mkAtom v .lower value).refused _ _ (.unknownBounded lt))
  refused error result misuse ok := by
    obtain ⟨_, made, -⟩ := bind_eq_ok ok
    cases misuse with
    | unknownFixed unknown =>
      exact (refuses_mkAtom v .lower value).refused _ _ (.unknownBounded unknown) made

theorem refuses_assertGiven (v : Var) (kind : BoundKind) (value : InfRat) :
    e.Refuses (.assertGiven v kind value) (e.assertGiven v kind value) where
  named error failed := by
    rcases bind_eq_error failed with unknown | ⟨_, -, failed⟩
    · obtain ⟨absent, rfl⟩ := requireVar_eq_error unknown
      exact .unknownGiven absent
    · cases failed
  refused error result misuse ok := by
    obtain ⟨_, known, -⟩ := bind_eq_ok ok
    cases misuse with
    | unknownGiven unknown => exact unknown (requireVar_eq_ok.1 known)

/-- An equality is refused exactly if one of its variables does not exist. -/
theorem refuses_assertVarEq (formed : e.Formed) (left right : Var) :
    e.Refuses (.assertVarEq left right) (e.assertVarEq left right) where
  named error failed := by
    rcases bind_eq_error failed with unknown | ⟨_, left_known, failed⟩
    · obtain ⟨absent, rfl⟩ := requireVar_eq_error unknown
      exact .unknownLeft absent
    · rcases bind_eq_error failed with unknown | ⟨_, right_known, failed⟩
      · obtain ⟨absent, rfl⟩ := requireVar_eq_error unknown
        exact .unknownRight absent
      · have known : ∀ entry ∈ [(left, (1 : Rat)), (right, -1)], entry.1 < e.numVars := by
          simpa using ⟨requireVar_eq_ok.1 left_known, requireVar_eq_ok.1 right_known⟩
        obtain ⟨withRow, r, added, -⟩ :=
          mkLinear_eq formed (e.jointSort [left, right]) .internal known
        by_cases same : left = right
        · simp only [same, if_true] at failed
          cases failed
        · simp only [same, if_false] at failed
          rcases bind_eq_error failed with refused | ⟨_, -, failed⟩
          · cases added.symm.trans refused
          · cases failed
  refused error result misuse ok := by
    obtain ⟨⟨left_lt, right_lt⟩, -⟩ := of_assertVarEq ok
    cases misuse with
    | unknownLeft unknown => exact unknown left_lt
    | unknownRight unknown => exact unknown right_lt

theorem refuses_pop (count : Nat) : e.Refuses (.pop count) (e.pop count) where
  named error failed := by
    unfold pop at failed
    split at failed
    · rename_i few
      obtain rfl := Except.error.inj failed
      exact .tooMany few
    · cases failed
  refused error next misuse ok := by
    unfold pop at ok
    cases misuse with
    | tooMany few =>
      rw [if_pos few] at ok
      cases ok

/-- A depth is refused exactly if it lies deeper than the open scopes. -/
theorem refuses_retractTo (m : Mark) : e.Refuses (.retractTo m) (e.retractTo m) where
  named error failed := by
    unfold retractTo at failed
    split at failed
    · rename_i deep
      obtain rfl := Except.error.inj failed
      exact .tooDeep deep
    · cases (refuses_pop (e.depth - m.depth)).named error failed with
      | tooMany few => omega
  refused error next misuse ok := by
    unfold retractTo at ok
    cases misuse with
    | tooDeep deep =>
      rw [if_pos deep] at ok
      cases ok

end Engine

open Engine in
/-- A call in place, without its answer. -/
def Call.inPlace : Call → InPlace Unit
  | .mkVar sort term => modify fun e => (e.mkVar sort term).1
  | .setName v name => InPlace.setName v name
  | .addRow base entries => discard (InPlace.addRow base entries)
  | .mkLinear sort term entries => discard (InPlace.mkLinear sort term entries)
  | .mkMonomial factors => discard (InPlace.mkMonomial factors)
  | .mkAtom v kind threshold => discard (InPlace.mkAtom v kind threshold)
  | .assertLiteral l => InPlace.assertLiteral l
  | .assertEq v value => discard (InPlace.assertEq v value)
  | .assertGiven v kind value => InPlace.assertGiven v kind value
  | .assertVarEq left right => InPlace.assertVarEq left right
  | .propagate => modify fun e => e.propagate.1
  | .check => modify fun e => e.check.1
  | .solve selector stop => modify fun e => (e.solve selector stop).engine
  | .nextPropagation => modify fun e => e.nextPropagation.1
  | .nextEquality => modify fun e => e.nextEquality.1
  | .push => modify Engine.push
  | .pop count => InPlace.pop count
  | .retractTo m => InPlace.retractTo m
  | .setSelector selector => modify fun e => { e with selector := selector }
  | .setOracle oracle => modify fun e => { e with oracle := oracle }
  | .setTracer tracer => modify fun e => { e with tracer := tracer }

namespace Session

open Engine

variable {s : Session} {call : Call} {α : Type}

/-! ## Calls of a session -/

/-- The call in place leaves the engine that the session has after it; it fails exactly on misuse, and
then nothing has changed. -/
structure RunsInPlace (s : Session) (call : Call) : Prop where
  left : (call.inPlace.runOn s.engine).1 = (s.perform call).engine
  failed : ∀ error, (call.inPlace.runOn s.engine).2 = .error error →
    (call.inPlace.runOn s.engine).1 = s.engine ∧ s.engine.Misuse call error
  refused : ∀ error, s.engine.Misuse call error →
    ∃ other, (call.inPlace.runOn s.engine).2 = .error other

theorem returns_discard {stage : InPlace α} {e : Engine} {result : Except EngineError (Engine × α)}
    (returns : Returns stage e result) : Returns (discard stage) e (result.map fun r => (r.1, ())) := by
  show InPlace.runOn (stage >>= fun _ => pure ()) e = _
  rw [InPlace.runOn_bind, returns]
  cases result <;> rfl

/-- A call that returns what it should in place and is refused on misuse only runs in place as the
session says. -/
theorem runsInPlace_of_returns {result : Except EngineError α} (engine : α → Engine)
    (record : α → History → History) (refuses : s.engine.Refuses call result)
    (returns : Returns call.inPlace s.engine (result.map fun a => (engine a, ())))
    (performed : s.perform call = s.attempt result engine record) : s.RunsInPlace call := by
  unfold Returns at returns
  cases result with
  | ok a =>
    constructor
    · rw [returns, performed]
      rfl
    · intro error failed
      rw [returns] at failed
      cases failed
    · intro error misuse
      exact absurd rfl (refuses.refused error a misuse)
  | error error =>
    constructor
    · rw [returns, performed]
      rfl
    · intro other failed
      rw [returns] at failed ⊢
      obtain rfl := Except.error.inj failed
      exact ⟨rfl, refuses.named _ rfl⟩
    · intro _ _
      rw [returns]
      exact ⟨error, rfl⟩

/-- A call that cannot be misused does not fail. -/
theorem runsInPlace_of_change {change : Engine → Engine} (stage : call.inPlace = modify change)
    (performed : (s.perform call).engine = change s.engine)
    (sound : ∀ error, ¬s.engine.Misuse call error) : s.RunsInPlace call := by
  constructor
  · rw [stage, performed]
    rfl
  · intro error failed
    rw [stage] at failed
    cases failed
  · intro error misuse
    exact absurd misuse (sound error)

/-- Every call leaves, in place, the engine that the session has after it. -/
theorem runsInPlace (ready : s.engine.Ready s.history) (call : Call) : s.RunsInPlace call := by
  have formed := ready.invariant.founded.formed
  cases call with
  | setName v name =>
    exact runsInPlace_of_returns id _ (refuses_setName v name) (returns_setName v name _) rfl
  | addRow base entries =>
    exact runsInPlace_of_returns Prod.fst _ (refuses_addRow base entries)
      (returns_discard (returns_addRow base entries _)) rfl
  | mkLinear sort term entries =>
    exact runsInPlace_of_returns Prod.fst _ (refuses_mkLinear formed sort term entries)
      (returns_discard (returns_mkLinear formed sort term entries)) rfl
  | mkMonomial factors =>
    exact runsInPlace_of_returns Prod.fst _ (refuses_mkMonomial factors)
      (returns_discard (returns_mkMonomial factors _)) rfl
  | mkAtom v kind threshold =>
    exact runsInPlace_of_returns Prod.fst _ (refuses_mkAtom v kind threshold)
      (returns_discard (returns_mkAtom v kind threshold _)) rfl
  | assertLiteral l =>
    exact runsInPlace_of_returns id (fun _ h => h.assert l) (refuses_assertLiteral l)
      (returns_assertLiteral l _) rfl
  | assertEq v value =>
    exact runsInPlace_of_returns Prod.fst (fun (_, lower, upper) h => (h.assert lower).assert upper)
      (refuses_assertEq ready v value) (returns_discard (returns_assertEq ready v value)) rfl
  | assertGiven v kind value =>
    exact runsInPlace_of_returns id _ (refuses_assertGiven v kind value)
      (returns_assertGiven v kind value _) rfl
  | assertVarEq left right =>
    exact runsInPlace_of_returns id _ (refuses_assertVarEq formed left right)
      (returns_assertVarEq formed left right) rfl
  | pop count => exact runsInPlace_of_returns id _ (refuses_pop count) (returns_pop count _) rfl
  | retractTo m => exact runsInPlace_of_returns id _ (refuses_retractTo m) (returns_retractTo m _) rfl
  | _ => exact runsInPlace_of_change rfl rfl nofun

/-- Whatever calls were made, a call in place fails exactly on misuse, and then it has changed nothing. -/
theorem misuse_refused (options : Options) (calls : List Call) (call : Call) :
    let s := (start options).run calls
    let left := (call.inPlace.runOn s.engine).1
    let answer := (call.inPlace.runOn s.engine).2
    left = (s.perform call).engine ∧
      (∀ error, answer = .error error → left = s.engine ∧ s.engine.Misuse call error) ∧
      ((∃ error, answer = .error error) ↔ ∃ error, s.engine.Misuse call error) := by
  intro s left answer
  have runs : s.RunsInPlace call := runsInPlace (ready_run options calls) call
  refine ⟨runs.left, runs.failed, fun ⟨error, failed⟩ => ?_, fun ⟨error, misuse⟩ => ?_⟩
  · exact ⟨error, (runs.failed error failed).2⟩
  · exact runs.refused error misuse

end Session

end ArithDecide
