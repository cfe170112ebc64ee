import Mathlib
import ArithDecide.Proofs.Replaying
import ArithDecide.Snapshot.Export

/-!
# An exported engine is loaded with the same solutions

Whatever calls were made, the snapshot of an engine whose variables have different names can be loaded
into a new engine, and the assignments of its variables that satisfy the sorts, rows, monomials and
active bounds are those that extend to solutions there (`Session.describes_iff_fulfils`). Nothing is
asked of the rows: they may be pending, pivoted, or headed by a monomial.
-/

namespace ArithDecide

/-- Whether a bound excludes its rational part. -/
def BoundKind.leans : BoundKind → InfRat → Bool
  | .lower, bound => 0 < bound.eps
  | .upper, bound => bound.eps < 0

namespace Engine

open State

/-- Integers for the integer variables, and every row, monomial and active bound holds. -/
structure State.Describes (s : State) (α : Var → Rat) : Prop where
  integral : ∀ v, s.isInt v = true → ∃ n : Int, α v = n
  rows : s.tableau.Holds α
  monomials : ∀ m ∈ s.monomials, m.Holds α
  bounds : ∀ v kind bound, s.bounds.value v kind = some bound →
    kind.Limits bound.real (kind.leans bound) (α v)

variable {e : Engine} {h : History} {v : Var} {α : Var → Rat} {β : String → Rat}

/-- The values of the variables are those of their names. -/
def Named (e : Engine) (α : Var → Rat) (β : String → Rat) : Prop :=
  ∀ v, v < e.numVars → β (e.varName v) = α v

theorem exists_named (distinct : (e.vars.map e.varName).Nodup) (α : Var → Rat) :
    ∃ β, e.Named α β := by
  refine ⟨fun name => α ((e.vars.find? fun v => e.varName v == name).getD 0), fun v lt => ?_⟩
  have member : v ∈ e.vars := List.mem_range.2 lt
  have some_has : (e.vars.find? fun w => e.varName w == e.varName v).isSome = true :=
    List.find?_isSome.2 ⟨v, member, beq_self_eq_true (e.varName v)⟩
  obtain ⟨w, found⟩ := Option.isSome_iff_exists.1 some_has
  have same_name := List.find?_some found
  have same := List.inj_on_of_nodup_map distinct (List.mem_of_find?_eq_some found) member
    (eq_of_beq same_name)
  simp only [found, Option.getD_some, same]

/-! ## What the assertions say -/

theorem holds_rowAssertion (founded : e.Founded h) (named : e.Named α β) {r : RowId} {row : Row}
    (found : e.tableau.get? r = some row) : (e.rowAssertion row).Holds β ↔ row.Holds α := by
  have well := founded.formed.tableau
  have terms : (row.form.terms.map fun t => (t.2, e.varName t.1)).map (fun t => t.1 * β t.2) =
      row.form.terms.map fun t => t.2 • α t.1 := by
    rw [List.map_map]
    refine List.map_congr_left fun t member => ?_
    have occurs := LinearForm.mentions_iff.1 (LinearForm.mentions_of_mem member)
    exact congrArg (t.2 * ·) (named t.1 (well.var_lt found occurs))
  rw [rowAssertion, Assertion.Holds, terms, total_eq_sum, named _ (well.base_lt found)]
  rfl

theorem holds_monomialAssertion (multiplied : e.Multiplied) (named : e.Named α β) {m : Monomial}
    (member : m ∈ e.monomials) : (e.monomialAssertion m).Holds β ↔ m.Holds α := by
  have factors : (m.factors.map e.varName).map β = m.factors.map α := by
    rw [List.map_map]
    exact List.map_congr_left fun v factor => named v (multiplied.factor_lt m member v factor)
  rw [monomialAssertion, Assertion.Holds, factors, named _ (multiplied.var_lt m member)]
  rfl

theorem forall_kind {P : BoundKind → Prop} : (∀ kind, P kind) ↔ P .lower ∧ P .upper := by
  refine ⟨fun all => ⟨all .lower, all .upper⟩, fun both kind => ?_⟩
  cases kind with
  | lower => exact both.1
  | upper => exact both.2

/-- Both bounds of a variable, or the value on which they agree. -/
theorem holds_boundAssertions : (∀ a ∈ e.boundAssertions v, a.Holds β) ↔
    ∀ kind bound, e.bounds.value v kind = some bound →
      kind.Limits bound.real (kind.leans bound) (β (e.varName v)) := by
  rw [boundAssertions, forall_kind]
  simp only [BoundStore.lowerValue, BoundStore.upperValue]
  split
  · rename_i value fixed
    obtain ⟨same, fixed⟩ := Option.ite_none_right_eq_some.1 fixed
    obtain ⟨at_lower, rational⟩ := Option.filter_eq_some_iff.1 fixed
    have eps : value.eps = 0 := of_decide_eq_true rational
    have lower_weak : BoundKind.lower.leans value = false := by simp [BoundKind.leans, eps]
    have upper_weak : BoundKind.upper.leans value = false := by simp [BoundKind.leans, eps]
    rw [← same, at_lower]
    simp only [List.forall_mem_singleton, Assertion.Holds, Option.some.injEq, forall_eq',
      lower_weak, upper_weak, BoundKind.Limits]
    exact le_antisymm_iff.trans and_comm
  · rw [List.forall_mem_append]
    refine and_congr ?_ ?_
    · cases e.bounds.value v .lower <;> simp [Assertion.Holds, BoundKind.leans]
    · cases e.bounds.value v .upper <;> simp [Assertion.Holds, BoundKind.leans]

/-- The snapshot of an engine says what the engine says. -/
theorem holds_exportSnapshot (founded : e.Founded h) (named : e.Named α β) :
    e.exportSnapshot.Holds β ↔ e.Describes α := by
  have rows : (∀ a ∈ e.tableau.rows.toList.map e.rowAssertion, a.Holds β) ↔ e.tableau.Holds α := by
    rw [List.forall_mem_map]
    constructor
    · intro all r row found
      exact (holds_rowAssertion founded named found).1
        (all row (Array.mem_toList_iff.2 (Array.mem_of_getElem? found)))
    · intro holds row member
      obtain ⟨r, found⟩ := Array.getElem?_of_mem (Array.mem_toList_iff.1 member)
      exact (holds_rowAssertion founded named found).2 (holds r row found)
  have monomials : (∀ a ∈ e.monomials.map e.monomialAssertion, a.Holds β) ↔
      ∀ m ∈ e.monomials, m.Holds α := by
    rw [List.forall_mem_map]
    exact forall₂_congr fun m member => holds_monomialAssertion founded.multiplied named member
  have bounds : (∀ a ∈ e.vars.flatMap e.boundAssertions, a.Holds β) ↔
      ∀ v kind bound, e.bounds.value v kind = some bound →
        kind.Limits bound.real (kind.leans bound) (α v) := by
    rw [List.forall_mem_flatMap]
    constructor
    · intro all v kind bound active
      have lt : v < e.numVars := by
        obtain ⟨b, at_b, -⟩ := Option.map_eq_some_iff.1 active
        exact founded.formed.bounds.lt_of_get at_b
      rw [← named v lt]
      exact holds_boundAssertions.1 (all v (List.mem_range.2 lt)) kind bound active
    · intro all v member
      refine holds_boundAssertions.2 fun kind bound active => ?_
      rw [named v (List.mem_range.1 member)]
      exact all v kind bound active
  have integral : (∀ d ∈ e.exportSnapshot.declarations, d.sort = .int → ∃ n : Int, β d.name = n) ↔
      ∀ v, e.isInt v = true → ∃ n : Int, α v = n := by
    rw [exportSnapshot, List.forall_mem_map]
    constructor
    · intro all v integer
      have lt := isInt_lt integer
      rw [← named v lt]
      exact all v (List.mem_range.2 lt) (of_decide_eq_true integer)
    · intro all v member is_int
      rw [named v (List.mem_range.1 member)]
      exact all v (decide_eq_true is_int)
  constructor
  · rintro ⟨integers, assertions⟩
    obtain ⟨first, last⟩ := List.forall_mem_append.1 assertions
    obtain ⟨at_rows, at_monomials⟩ := List.forall_mem_append.1 first
    exact ⟨integral.1 integers, rows.1 at_rows, monomials.1 at_monomials, bounds.1 last⟩
  · rintro ⟨integers, at_rows, at_monomials, at_bounds⟩
    exact ⟨integral.2 integers, List.forall_mem_append.2 ⟨List.forall_mem_append.2
      ⟨rows.2 at_rows, monomials.2 at_monomials⟩, bounds.2 at_bounds⟩⟩

/-- What is exported for the bounds of a variable is about this variable. -/
theorem names_of_boundAssertions : ∀ a ∈ e.boundAssertions v, a.Multiplies ∧ a.names = [e.varName v] := by
  rw [boundAssertions]
  simp only [BoundStore.lowerValue, BoundStore.upperValue]
  split
  · exact List.forall_mem_singleton.2 ⟨trivial, rfl⟩
  · refine List.forall_mem_append.2 ⟨?_, ?_⟩
    · cases e.bounds.value v .lower <;> simp [Assertion.Multiplies, Assertion.names]
    · cases e.bounds.value v .upper <;> simp [Assertion.Multiplies, Assertion.names]

/-- What is exported is about declared variables. -/
theorem assertions_exportSnapshot (founded : e.Founded h) :
    ∀ a ∈ e.exportSnapshot.assertions, a.Multiplies ∧
      ∀ name ∈ a.names, ∃ d ∈ e.exportSnapshot.declarations, d.name = name := by
  have declared {v : Var} (lt : v < e.numVars) :
      ∃ d ∈ e.exportSnapshot.declarations, d.name = e.varName v :=
    ⟨⟨e.varName v, e.sort v⟩, List.mem_map_of_mem (List.mem_range.2 lt), rfl⟩
  have multiplied := founded.multiplied
  have well := founded.formed.tableau
  refine List.forall_mem_append.2 ⟨List.forall_mem_append.2
    ⟨List.forall_mem_map.2 fun row member => ⟨trivial, ?_⟩, List.forall_mem_map.2 fun m member => ?_⟩,
    List.forall_mem_flatMap.2 fun v member a bound => ?_⟩
  · obtain ⟨r, found⟩ := Array.getElem?_of_mem (Array.mem_toList_iff.1 member)
    refine List.forall_mem_cons.2 ⟨declared (well.base_lt found), ?_⟩
    rw [List.map_map]
    refine List.forall_mem_map.2 fun t in_row => declared (well.var_lt found ?_)
    exact LinearForm.mentions_iff.1 (LinearForm.mentions_of_mem in_row)
  · refine ⟨?_, ?_⟩
    · rw [monomialAssertion, Assertion.Multiplies, List.length_map]
      exact multiplied.degree m member
    exact List.forall_mem_cons.2 ⟨declared (multiplied.var_lt m member),
      List.forall_mem_map.2 fun v factor => declared (multiplied.factor_lt m member v factor)⟩
  · obtain ⟨multiplies, names⟩ := names_of_boundAssertions a bound
    rw [names]
    exact ⟨multiplies, List.forall_mem_singleton.2 (declared (List.mem_range.1 member))⟩

/-- An exported snapshot declares all variables and mentions no others. -/
theorem loadable_exportSnapshot (founded : e.Founded h) (distinct : (e.vars.map e.varName).Nodup) :
    e.exportSnapshot.Loadable := by
  have about := assertions_exportSnapshot founded
  refine ⟨?_, fun a member => (about a member).2, fun var factors member => (about _ member).1⟩
  rw [exportSnapshot, List.map_map]
  exact distinct

/-- The declared variables are those of the engine, in order. -/
theorem places_exportSnapshot (e : Engine) :
    Snapshot.places e.exportSnapshot.declarations 0 = e.vars.map fun v => (e.varName v, v) := by
  refine List.ext_getElem (by simp [Snapshot.places, exportSnapshot]) fun i _ _ => ?_
  simp [Snapshot.places, exportSnapshot, State.vars]

end Engine

namespace Session

open Engine

/-- The snapshot of an engine can be loaded, and has the solutions of the engine. -/
theorem describes_iff_fulfils (options fresh : Options) (calls : List Call)
    (distinct : (((start options).run calls).engine.vars.map
      ((start options).run calls).engine.varName).Nodup) :
    let e := ((start options).run calls).engine
    let loaded := (start fresh).load e.exportSnapshot
    e.exportSnapshot.load (.new fresh) =
        ⟨loaded.engine, .ok (e.vars.map fun v => (e.varName v, v))⟩ ∧
      ∀ α, e.Describes α ↔
        ∃ γ, loaded.engine.Fulfils loaded.history γ ∧ ∀ v, v < e.numVars → γ v = α v := by
  intro e loaded
  have founded := (ready_run options calls).invariant.founded
  obtain ⟨load_eq, means⟩ := (loadable_exportSnapshot founded distinct).loads fresh
  have count : e.exportSnapshot.declarations.length = e.numVars := by
    rw [exportSnapshot, List.length_map, State.vars, List.length_range]
  rw [places_exportSnapshot] at load_eq means
  refine ⟨load_eq, fun α => ?_⟩
  obtain ⟨β, named⟩ := exists_named distinct α
  rw [← holds_exportSnapshot founded named, ← means α β, count]
  · rfl
  · exact List.forall_mem_map.2 fun v member => (named v (List.mem_range.1 member)).symm

/-- A check pivots the row that a monomial headed, and the row of another monomial is pending. -/
def pivoting : List Call :=
  [.mkVar .int .internal, .mkVar .real .internal, .setName 0 "n", .mkMonomial [0, 1],
    .addRow 2 [(0, 2), (1, 1)], .assertGiven 2 .lower ⟨1, 1⟩, .check, .mkMonomial [1, 1],
    .addRow 3 [(2, 1), (1, -1)]]

/-- An engine that has exchanged a base is exported with the row as it is now, and loading it is posing
the same problem. -/
theorem describes_iff_fulfils_pivoting :
    let e := ((start {}).run pivoting).engine
    let loaded := (start {}).load e.exportSnapshot
    (e.vars.map e.varName).Nodup ∧
      e.exportSnapshot.load (.new {}) =
        ⟨loaded.engine, .ok (e.vars.map fun v => (e.varName v, v))⟩ ∧
      ∀ α, e.Describes α ↔
        ∃ γ, loaded.engine.Fulfils loaded.history γ ∧ ∀ v, v < e.numVars → γ v = α v := by
  have names : ((start {}).run pivoting).engine.vars.map ((start {}).run pivoting).engine.varName =
      ["n", "x1", "x2", "x3"] := by
    cbv
  have distinct : (((start {}).run pivoting).engine.vars.map
      ((start {}).run pivoting).engine.varName).Nodup := by
    rw [names]
    decide
  exact ⟨distinct, describes_iff_fulfils {} {} pivoting distinct⟩

end Session

end ArithDecide
