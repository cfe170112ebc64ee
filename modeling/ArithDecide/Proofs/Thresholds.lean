import Mathlib
import ArithDecide.Proofs.Models
import ArithDecide.Proofs.Sessions

/-!
# The infinitesimal is as large as it can be

Two values in order stay in order when a rational is put in for the infinitesimal, up to the limit that
`Engine.epsilonLimit?` computes and no further. So the active bounds that hold for the values hold in the
rational model exactly up to `Engine.epsilon`.
-/

namespace ArithDecide.Engine

open State

variable {e : Engine} {h : History} {v : Var} {d : Rat}

/-! ## The limit of two values -/

/-- Two values in order stay in order exactly up to their limit. -/
theorem evaluate_le_iff {low high : InfRat} (le : low ≤ high) (pos : 0 < d) :
    low.evaluate d ≤ high.evaluate d ↔ ∀ q, epsilonLimit? low high = some q → d ≤ q := by
  refine ⟨fun ordered q limit => ?_, evaluate_le_of_limit le pos⟩
  rw [epsilonLimit?, Option.ite_none_right_eq_some, Bool.and_eq_true, decide_eq_true_eq,
    decide_eq_true_eq] at limit
  obtain ⟨⟨-, falls⟩, same⟩ := limit
  rw [← Option.some.inj same, le_div_iff₀ (sub_pos.2 falls)]
  simp only [InfRat.evaluate] at ordered
  linarith

theorem mem_epsilonLimits {limit : Rat} : limit ∈ e.epsilonLimits v ↔
    (∃ bound, e.bounds.lowerValue v = some bound ∧ epsilonLimit? bound (e.value v) = some limit) ∨
      ∃ bound, e.bounds.upperValue v = some bound ∧ epsilonLimit? (e.value v) bound = some limit := by
  simp only [epsilonLimits, List.mem_append, Option.mem_toList, Option.bind_eq_some_iff]

/-- What stands for the infinitesimal is the least of one and the limits. -/
theorem le_epsilon_iff :
    d ≤ e.epsilon ↔ d ≤ 1 ∧ ∀ v < e.numVars, ∀ limit ∈ e.epsilonLimits v, d ≤ limit := by
  obtain ⟨le_one, least, reached⟩ := foldl_least (e.vars.flatMap e.epsilonLimits) 1
  constructor
  · exact fun below => ⟨below.trans le_one, fun v lt limit member =>
      below.trans (epsilon_le lt member)⟩
  · rintro ⟨le_one, below⟩
    rcases reached with one | limit
    · exact le_one.trans one.ge
    · obtain ⟨v, lt, member⟩ := List.mem_flatMap.1 limit
      exact below v (List.mem_range.1 lt) _ member

/-! ## Substituting for the infinitesimal -/

/-- The active bounds hold for the values, when both are read in the same way. -/
structure BoundsHold {α : Type} [LE α] (e : Engine) (read : InfRat → α) : Prop where
  lower : ∀ v < e.numVars, ∀ bound, e.bounds.lowerValue v = some bound →
    read bound ≤ read (e.value v)
  upper : ∀ v < e.numVars, ∀ bound, e.bounds.upperValue v = some bound →
    read (e.value v) ≤ read bound

/-- In a feasible assignment the active bounds hold for the values. -/
theorem State.Feasible.boundsHold (feasible : e.Feasible) : e.BoundsHold id := by
  have admits (v : Var) (lt : v < e.numVars) (kind : BoundKind) (bound : InfRat)
      (active : e.bounds.value v kind = some bound) : kind.admits bound (e.value v) = true := by
    obtain ⟨b, found, rfl⟩ := Option.map_eq_some_iff.1 active
    rw [feasible.value]
    exact BoundStore.admits_iff.1 (feasible.admits v lt) kind b found
  exact ⟨fun v lt bound active => BoundKind.admits_lower.1 (admits v lt .lower bound active),
    fun v lt bound active => BoundKind.admits_upper.1 (admits v lt .upper bound active)⟩

/-- Bounds that hold are kept exactly up to the value that stands for the infinitesimal. -/
theorem boundsHold_evaluate_iff (within : e.BoundsHold id) (pos : 0 < d) (le_one : d ≤ 1) :
    e.BoundsHold (·.evaluate d) ↔ d ≤ e.epsilon := by
  rw [le_epsilon_iff]
  constructor
  · refine fun kept => ⟨le_one, fun v lt limit member => ?_⟩
    rcases mem_epsilonLimits.1 member with ⟨bound, active, limited⟩ | ⟨bound, active, limited⟩
    · exact (evaluate_le_iff (within.lower v lt bound active) pos).1 (kept.lower v lt bound active)
        limit limited
    · exact (evaluate_le_iff (within.upper v lt bound active) pos).1 (kept.upper v lt bound active)
        limit limited
  · rintro ⟨-, below⟩
    refine ⟨fun v lt bound active => ?_, fun v lt bound active => ?_⟩
    · exact (evaluate_le_iff (within.lower v lt bound active) pos).2 fun limit limited =>
        below v lt limit (mem_epsilonLimits.2 (.inl ⟨bound, active, limited⟩))
    · exact (evaluate_le_iff (within.upper v lt bound active) pos).2 fun limit limited =>
        below v lt limit (mem_epsilonLimits.2 (.inr ⟨bound, active, limited⟩))

theorem epsilon_le_one (e : Engine) : e.epsilon ≤ 1 := (le_epsilon_iff.1 le_rfl).1

/-- A row that holds still holds when a rational is put in for the infinitesimal. -/
theorem evaluate_row {base : Var} {form : LinearForm} {φ : Var → InfRat}
    (holds : φ base = form.evalInf φ) (d : Rat) :
    (φ base).evaluate d = form.eval fun v => (φ v).evaluate d := by
  rw [holds, LinearForm.evalInf_eq_combine, ← InfRat.evaluateHom_apply]
  exact LinearForm.combine_map (InfRat.evaluateHom d) form φ

/-- The infinitesimal is as large as it can be. When every value lies within its active bounds, putting a
rational up to one in for the infinitesimal keeps all of them exactly when the rational is at most
`Engine.epsilon`, which is the largest such rational; and rows that hold still hold, whatever is put
in. -/
theorem epsilon_exact (within : e.BoundsHold id) :
    (∀ d, 0 < d → d ≤ 1 → (e.BoundsHold (·.evaluate d) ↔ d ≤ e.epsilon)) ∧
      IsGreatest {d | 0 < d ∧ d ≤ 1 ∧ e.BoundsHold (·.evaluate d)} e.epsilon ∧
      ∀ r row, e.tableau.get? r = some row → e.value row.base = row.form.evalInf e.value →
        ∀ d, (e.value row.base).evaluate d = row.form.eval fun v => (e.value v).evaluate d := by
  have exact (d : Rat) (pos : 0 < d) (le_one : d ≤ 1) := boundsHold_evaluate_iff within pos le_one
  refine ⟨exact, ⟨⟨e.epsilon_pos, e.epsilon_le_one, ?_⟩, ?_⟩, fun _ _ _ holds => evaluate_row holds⟩
  · exact (exact _ e.epsilon_pos e.epsilon_le_one).2 le_rfl
  · rintro d ⟨pos, le_one, kept⟩
    exact (exact d pos le_one).1 kept

/-- A number strictly between zero and one, and its double. -/
def openInterval : List Call :=
  [.mkVar .real .internal, .mkLinear .real .internal [(0, 2)], .assertGiven 0 .lower ⟨0, 1⟩,
    .assertGiven 0 .upper ⟨1, -1⟩]

theorem propagate_openInterval :
    let e := ((Session.start {}).run openInterval).engine
    e.propagate.2 = true ∧ e.propagate.1.epsilon = 1 / 2 ∧ e.propagate.1.scopesEntered = 0 := by
  refine ⟨by cbv, by cbv, by cbv⟩

/-- The number is the infinitesimal, so one half may be put in for it, but nothing larger. -/
theorem epsilon_exact_openInterval :
    let e := ((Session.start {}).run openInterval).engine.propagate.1
    e.BoundsHold (·.evaluate (1 / 2)) ∧ ¬e.BoundsHold (·.evaluate (3 / 4)) := by
  intro e
  obtain ⟨yes, epsilon, none_entered⟩ := propagate_openInterval
  have ready := Session.ready_run {} openInterval
  have numbered : e.Numbered := .of_none none_entered
  have feasible := (propagated_of_yes ready.invariant yes).feasible numbered.reliable
  have exact := (epsilon_exact feasible.boundsHold).1
  rw [epsilon] at exact
  exact ⟨(exact _ (by norm_num) (by norm_num)).2 le_rfl,
    fun kept => absurd ((exact _ (by norm_num) (by norm_num)).1 kept) (by norm_num)⟩

end ArithDecide.Engine
