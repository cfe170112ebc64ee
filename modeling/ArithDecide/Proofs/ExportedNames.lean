import ArithDecide.Proofs.Exporting
import ArithDecide.Proofs.SnapshotTexts

/-!
# When an export can be replayed

A variable is exported under the label that it was given or that its term has, and under its number
when it has none; nothing relates these three. `Session.exportSnapshot_replays` says what that means for
an export: it can always be written, it is read back exactly if the labels are symbols and none that is
a numeral is bounded from above, and it can be loaded exactly if the labels are apart.
-/

namespace ArithDecide

namespace Snapshot

variable {s : Snapshot} {declared : Declared} {e : Engine}

/-! ## Writing -/

theorem exists_bodyText {a : Assertion} (multiplies : a.Multiplies) :
    ∃ body, bodyText a = .ok body := by
  cases a with
  | product var factors =>
    have enough : ¬factors.length < 2 := Nat.not_lt.2 multiplies
    rw [bodyText, if_neg enough]
    exact ⟨_, rfl⟩
  | _ => exact ⟨_, rfl⟩

theorem exists_writeAssertions (written : String) {assertions : List Assertion}
    (declared : ∀ a ∈ assertions, s.undeclared? a = none)
    (multiplies : ∀ a ∈ assertions, a.Multiplies) :
    ∃ text, s.writeAssertions written assertions = .ok text := by
  induction assertions generalizing written with
  | nil => exact ⟨written, rfl⟩
  | cons a rest ih =>
    obtain ⟨body, body_eq⟩ := exists_bodyText (multiplies a List.mem_cons_self)
    rw [writeAssertions, declared a List.mem_cons_self]
    simp only [body_eq]
    apply ih
    · exact fun b member => declared b (List.mem_cons_of_mem _ member)
    · exact fun b member => multiplies b (List.mem_cons_of_mem _ member)

/-- What is about declared variables can be written. -/
theorem exists_write (declared : ∀ a ∈ s.assertions, s.undeclared? a = none)
    (multiplies : ∀ a ∈ s.assertions, a.Multiplies) : ∃ text, s.write = .ok text := by
  obtain ⟨text, text_eq⟩ :=
    exists_writeAssertions (String.join (s.declarations.map declarationText)) declared multiplies
  simp only [write, text_eq]
  exact ⟨_, rfl⟩

/-! ## Loading -/

/-- The only error of a declaration is that the name is declared already. -/
theorem declareAll_eq_error {ds : List Declaration} {error : LoadError}
    (failed : (declareAll declared e ds).result = .error error) :
    ∃ name, error = .declaredTwice name := by
  induction ds generalizing declared e with
  | nil => cases failed
  | cons d rest ih =>
    simp only [declareAll] at failed
    split at failed
    · exact ⟨d.name, (Except.error.inj failed).symm⟩
    · exact ih failed

/-- A snapshot that declares a name twice is refused for that reason. -/
theorem load_eq_error (twice : ¬(s.declarations.map Declaration.name).Nodup) (e : Engine) :
    ∃ name, (s.load e).result = .error (.declaredTwice name) := by
  cases declaring : (declareAll [] e s.declarations).result with
  | ok declared => exact absurd (of_declareAll declaring).1 twice
  | error error =>
    obtain ⟨name, rfl⟩ := declareAll_eq_error declaring
    simp only [load, declaring]
    exact ⟨name, rfl⟩

end Snapshot

namespace Engine

variable {e : Engine} {h : History} {v w : Var} {n : String}

/-! ## Labels and numbers -/

/-- The name that a variable was given, or else that of its term. -/
def label? (e : Engine) (v : Var) : Option String :=
  (e.names.nameOf? v).or (e.oracle.termName (e.term v))

/-- The name of a variable that has no label. -/
def numberName (v : Var) : String := "x" ++ toString v

theorem varName_eq (e : Engine) (v : Var) : e.varName v = (e.label? v).getD (numberName v) := rfl

theorem numberName_injective : Function.Injective numberName := by
  intro v w same
  unfold numberName at same
  have digits : toString v = toString w := by
    rw [← String.toList_inj] at same ⊢
    simpa using same
  have values : ((v : Nat) : Rat) = (w : Nat) := by
    apply Except.ok.inj (ε := String)
    rw [← Numeral.read_toString v, ← Numeral.read_toString w, digits]
  exact_mod_cast values

theorem isSymbol_numberName (v : Var) : IsSymbol (numberName v) := by
  obtain ⟨-, symbol⟩ := Numeral.isSymbol_toString v
  unfold IsSymbol numberName
  constructor
  · simp
  · intro c member
    rw [String.toList_append, List.mem_append] at member
    rcases member with first | digit
    · obtain rfl : c = 'x' := by simpa using first
      decide
    · exact symbol c digit

theorem isDigits_numberName (v : Var) : Numeral.isDigits (numberName v) = false := by
  have first : Numeral.isDigit 'x' = false := by decide
  simp [numberName, Numeral.isDigits, first]

/-- No two variables have the same label, and none has the name of an unlabelled one as its label. -/
structure LabelsApart (e : Engine) : Prop where
  labels : ∀ v w n, v < e.numVars → w < e.numVars → e.label? v = some n → e.label? w = some n → v = w
  numbers : ∀ v w, v < e.numVars → w < e.numVars → e.label? v = none →
    e.label? w ≠ some (numberName v)

/-- The names that are exported are distinct exactly if labels clash neither with each other nor with
the names of unlabelled variables. -/
theorem nodup_varName_iff : (e.vars.map e.varName).Nodup ↔ e.LabelsApart := by
  rw [State.vars, List.nodup_map_iff_inj_on List.nodup_range]
  simp only [List.mem_range, varName_eq]
  constructor
  · intro injective
    constructor
    · intro v w n v_lt w_lt at_v at_w
      apply injective v v_lt w w_lt
      rw [at_v, at_w]
      rfl
    · intro v w v_lt w_lt at_v at_w
      obtain rfl : v = w := by
        apply injective v v_lt w w_lt
        rw [at_v, at_w]
        rfl
      rw [at_v] at at_w
      cases at_w
  · rintro ⟨labels, numbers⟩ v v_lt w w_lt same
    cases at_v : e.label? v with
    | some n =>
      cases at_w : e.label? w with
      | some m =>
        rw [at_v, at_w] at same
        obtain rfl : n = m := same
        exact labels v w n v_lt w_lt at_v at_w
      | none =>
        rw [at_v, at_w] at same
        obtain rfl : n = numberName w := same
        exact absurd at_v (numbers w v w_lt v_lt at_w)
    | none =>
      cases at_w : e.label? w with
      | some m =>
        rw [at_v, at_w] at same
        obtain rfl : numberName v = m := same
        exact absurd at_w (numbers v w v_lt w_lt at_v)
      | none =>
        rw [at_v, at_w] at same
        exact numberName_injective same

/-! ## What an export says -/

/-- An upper bound of the variable is exported: one that does not fix it. -/
def ExportsUpper (e : Engine) (v : Var) : Prop :=
  ∃ value, e.bounds.upperValue v = some value ∧
    ¬(e.bounds.lowerValue v = some value ∧ value.isRational = true)

theorem exists_upper_iff : (∃ value strict, .upper n value strict ∈ e.boundAssertions v) ↔
    n = e.varName v ∧ e.ExportsUpper v := by
  unfold boundAssertions ExportsUpper
  cases e.bounds.upperValue v with
  | none => cases e.bounds.lowerValue v <;> simp
  | some upper =>
    cases e.bounds.lowerValue v with
    | none => simp
    | some lower =>
      by_cases same : lower = upper
      · subst same
        cases rational : lower.isRational <;> simp [Option.filter, rational]
      · simp [same]

theorem exists_upper_mem_iff :
    (∃ value strict, .upper n value strict ∈ e.exportSnapshot.assertions) ↔
      ∃ v, v < e.numVars ∧ n = e.varName v ∧ e.ExportsUpper v := by
  have elsewhere {value : Rat} {strict : Bool} :
      .upper n value strict ∈ e.exportSnapshot.assertions ↔
        ∃ v, v < e.numVars ∧ .upper n value strict ∈ e.boundAssertions v := by
    simp [exportSnapshot, rowAssertion, monomialAssertion, State.vars]
  simp only [elsewhere, ← exists_upper_iff]
  constructor
  · rintro ⟨value, strict, v, lt, member⟩
    exact ⟨v, lt, value, strict, member⟩
  · rintro ⟨v, lt, value, strict, member⟩
    exact ⟨value, strict, v, lt, member⟩

/-- The names that a text can carry. -/
theorem expressible_exportSnapshot (loadable : ∀ a ∈ e.exportSnapshot.assertions, a.Multiplies ∧
      ∀ name ∈ a.names, ∃ d ∈ e.exportSnapshot.declarations, d.name = name) :
    e.exportSnapshot.Expressible ↔ ∀ v n, v < e.numVars → e.label? v = some n →
      IsSymbol n ∧ (e.ExportsUpper v → Numeral.isDigits n = false) := by
  constructor
  · rintro ⟨symbols, -, -, uppers⟩ v n lt label
    have name : e.varName v = n := by rw [varName_eq, label, Option.getD_some]
    constructor
    · have symbol := symbols ⟨e.varName v, e.sort v⟩ (List.mem_map_of_mem (List.mem_range.2 lt))
      rwa [name] at symbol
    · intro exported
      obtain ⟨value, strict, member⟩ := exists_upper_mem_iff.2 ⟨v, lt, name.symm, exported⟩
      exact uppers n value strict member
  · intro labels
    constructor
    · intro d declared
      obtain ⟨v, member, rfl⟩ := List.mem_map.1 declared
      show IsSymbol (e.varName v)
      rw [varName_eq]
      cases label : e.label? v with
      | some n => exact (labels v n (List.mem_range.1 member) label).1
      | none => exact isSymbol_numberName v
    · exact fun a member => (loadable a member).2
    · exact fun var factors member => (loadable _ member).1
    · intro name value strict member
      obtain ⟨v, lt, rfl, exported⟩ := exists_upper_mem_iff.1 ⟨value, strict, member⟩
      rw [varName_eq]
      cases label : e.label? v with
      | some n => exact (labels v n lt label).2 exported
      | none => exact isDigits_numberName v

end Engine

namespace Session

open Engine

/-- When the snapshot of an engine can be written, read back and loaded. -/
theorem exportSnapshot_replays (options fresh : Options) (calls : List Call) :
    let e := ((start options).run calls).engine
    let s := e.exportSnapshot
    (∃ text, s.write = .ok text) ∧
      ((∃ text, s.write = .ok text ∧ Snapshot.read text = .ok s) ↔
        ∀ v n, v < e.numVars → e.label? v = some n →
          IsSymbol n ∧ (e.ExportsUpper v → Numeral.isDigits n = false)) ∧
      ((s.declarations.map Declaration.name).Nodup ↔ e.LabelsApart) ∧
      (e.LabelsApart →
        (s.load (.new fresh)).result = .ok (e.vars.map fun v => (e.varName v, v))) ∧
      (¬e.LabelsApart → ∃ name, (s.load (.new fresh)).result = .error (.declaredTwice name)) := by
  intro e s
  have founded := (ready_run options calls).invariant.founded
  have about := assertions_exportSnapshot founded
  have names : s.declarations.map Declaration.name = e.vars.map e.varName := List.map_map
  refine ⟨?_, ?_, ?_, fun apart => ?_, fun clash => ?_⟩
  · apply Snapshot.exists_write
    · exact fun a member => Snapshot.undeclared?_eq_none.2 (about a member).2
    · exact fun a member => (about a member).1
  · rw [← expressible_exportSnapshot about]
    constructor
    · rintro ⟨text, -, back⟩
      exact Snapshot.expressible_of_read back
    · intro expressible
      exact ⟨_, Snapshot.write_eq expressible, Snapshot.read_lines expressible⟩
  · rw [names]
    exact nodup_varName_iff
  · have loadable := loadable_exportSnapshot founded (nodup_varName_iff.2 apart)
    rw [(loadable.loads fresh).1, places_exportSnapshot]
  · apply Snapshot.load_eq_error
    rw [names, nodup_varName_iff]
    exact clash

/-- Two variables with one name, and a name with a blank. -/
theorem exportSnapshot_clashes :
    let shared := ((start {}).run [.mkVar .int .internal, .mkVar .int .internal, .setName 0 "n",
      .setName 1 "n"]).engine.exportSnapshot
    let blank := ((start {}).run [.mkVar .int .internal, .setName 0 "a b"]).engine.exportSnapshot
    ¬(shared.declarations.map Declaration.name).Nodup ∧
      (shared.load (.new {})).result = .error (.declaredTwice "n") ∧
      ¬∃ text, blank.write = .ok text ∧ Snapshot.read text = .ok blank := by
  intro shared blank
  refine ⟨by decide +kernel, rfl, ?_⟩
  rintro ⟨text, -, back⟩
  have symbol : IsSymbol "a b" :=
    (Snapshot.expressible_of_read back).names ⟨"a b", .int⟩ (by decide +kernel)
  exact absurd symbol (by decide)

end Session

end ArithDecide
