import ArithDecide.Proofs.Checking

/-!
# The rational model

`Engine.epsilon` is positive and small enough for every active bound: bounds that hold with
infinitesimals hold in the rational model too. Values depend on the rational that is put in along a
straight line, and the line of a variable may leave a bound which is not active. If all unconditional
bounds point the right way this does not happen to a bound that points the right way itself: the first
such bound to be left would take a bound with it that the rows imply, at the same point, and that one
is active.
-/

namespace ArithDecide

/-! ## Lines -/

namespace InfRat

variable {a b x : InfRat} {s t : Rat}

/-- Where the line of `x` meets the real part of `a`. -/
def crossing (a x : InfRat) : Rat := (x.real - a.real) / -x.eps

/-- The line of `x` falls, and starts above the real part of `a`. -/
def FallsFrom (x a : InfRat) : Prop := x.eps < 0 ∧ a.real < x.real

theorem FallsFrom.evaluate_lt_iff (falls : x.FallsFrom a) :
    a.real < x.evaluate t ↔ t < crossing a x := by
  rw [crossing, lt_div_iff₀ (neg_pos.2 falls.1), evaluate]
  constructor <;> intro h <;> linarith

/-- A line that does not fall stays within the bounds it starts within. -/
theorem le_evaluate_of_not_falls (le : a ≤ x) (coherent : 0 ≤ a.eps) (pos : 0 < t)
    (rises : ¬x.FallsFrom a) : a ≤ ofRat (x.evaluate t) := by
  rcases (le_def a x).1 le with above | ⟨same, steeper⟩
  · have flat : 0 ≤ x.eps := not_lt.1 fun falls => rises ⟨falls, above⟩
    refine .inl (above.trans_le ?_)
    rw [ofRat_real, evaluate]
    linarith [mul_nonneg flat pos.le]
  · rw [le_ofRat, evaluate, same]
    split
    · rename_i strict
      linarith [mul_pos (strict.trans_le steeper) pos]
    · linarith [mul_nonneg (coherent.trans steeper) pos.le]

/-- A bound holds before the line leaves it. -/
theorem le_evaluate_of_lt_crossing (le : a ≤ x) (coherent : 0 ≤ a.eps) (pos : 0 < t)
    (before : x.FallsFrom a → t < crossing a x) : a ≤ ofRat (x.evaluate t) := by
  by_cases falls : x.FallsFrom a
  · exact .inl (falls.evaluate_lt_iff.2 (before falls))
  · exact le_evaluate_of_not_falls le coherent pos falls

/-- A bound that holds at some point of the line holds before it. -/
theorem le_evaluate_of_later (le : a ≤ x) (coherent : 0 ≤ a.eps) (pos : 0 < t) (earlier : t < s)
    (holds : a ≤ ofRat (x.evaluate s)) : a ≤ ofRat (x.evaluate t) := by
  by_cases falls : x.FallsFrom a
  · refine .inl ((real_le_of_le holds).trans_lt ?_)
    simp only [ofRat_real, evaluate]
    linarith [mul_lt_mul_of_neg_left earlier falls.1]
  · exact le_evaluate_of_not_falls le coherent pos falls

/-- A bound that says as much as another one, and which the line keeps until it leaves that one, has
the same real part. -/
theorem real_eq_of_kept (falls : x.FallsFrom a) (le : a ≤ b) (below : b ≤ x)
    (kept : ∀ t, 0 < t → t < crossing a x → b ≤ ofRat (x.evaluate t)) : b.real = a.real := by
  by_contra apart
  have above : a.real < b.real := lt_of_le_of_ne (real_le_of_le le) (Ne.symm apart)
  have under := real_le_of_le below
  have steep : 0 < -x.eps := neg_pos.2 falls.1
  -- the line passes halfway between both real parts before it leaves the weaker bound
  obtain ⟨t, halfway⟩ : ∃ t, x.evaluate t = (a.real + b.real) / 2 := by
    refine ⟨(x.real - (a.real + b.real) / 2) / -x.eps, ?_⟩
    rw [evaluate]
    field_simp [falls.1.ne]
    ring
  have pos : 0 < t := by
    by_contra nonpos
    rw [evaluate] at halfway
    linarith [mul_nonneg_of_nonpos_of_nonpos falls.1.le (not_lt.1 nonpos)]
  have before : t < crossing a x := falls.evaluate_lt_iff.1 (by rw [halfway]; linarith)
  have := real_le_of_le (kept t pos before)
  rw [ofRat_real, halfway] at this
  linarith

/-- A rational that respects a bound respects a weaker one with the same real part. -/
theorem le_ofRat_of_evaluate_le {q : Rat} (le : a ≤ b) (same : b.real = a.real)
    (coherent : 0 ≤ a.eps) (pos : 0 < t) (holds : b.evaluate t ≤ q) : a ≤ ofRat q := by
  have steeper : a.eps ≤ b.eps := by
    rcases (le_def a b).1 le with above | ⟨-, steeper⟩
    · exact absurd above (by simp [same])
    · exact steeper
  rw [evaluate, same] at holds
  rw [le_ofRat]
  split
  · rename_i strict
    linarith [mul_pos (strict.trans_le steeper) pos]
  · linarith [mul_nonneg (coherent.trans steeper) pos.le]

end InfRat

/-! ## Both kinds of bounds at once -/

namespace BoundKind

variable {kind : BoundKind} {a x : InfRat}

/-- Upper bounds are lower bounds of the negated values. -/
def turn : BoundKind → InfRat → InfRat
  | .lower, a => a
  | .upper, a => -a

theorem admits_iff_turn : kind.admits a x = true ↔ kind.turn a ≤ kind.turn x := by
  cases kind with
  | lower => exact admits_lower
  | upper => exact admits_upper.trans neg_le_neg_iff.symm

theorem coherent_iff_turn : kind.Coherent a ↔ 0 ≤ (kind.turn a).eps := by
  cases kind with
  | lower => exact Iff.rfl
  | upper => exact neg_nonneg.symm

theorem turn_ofRat_evaluate (kind : BoundKind) (x : InfRat) (t : Rat) :
    kind.turn (.ofRat (x.evaluate t)) = .ofRat ((kind.turn x).evaluate t) := by
  cases kind with
  | lower => rfl
  | upper => rw [turn, turn, InfRat.evaluate_neg, InfRat.ofRat_neg]

end BoundKind

namespace Engine

open State

variable {e : Engine} {h : History} {v : Var} {kind : BoundKind} {b : Bound}

/-! ## The infinitesimal -/

theorem epsilonLimit?_pos {low high : InfRat} {q : Rat} (limit : epsilonLimit? low high = some q) :
    0 < q := by
  rw [epsilonLimit?] at limit
  split at limit
  · rename_i room
    rw [Bool.and_eq_true, decide_eq_true_eq, decide_eq_true_eq] at room
    obtain rfl := Option.some.inj limit
    exact div_pos (sub_pos.2 room.1) (sub_pos.2 room.2)
  · cases limit

/-- Up to the limit nothing changes in the order of two values. -/
theorem evaluate_le_of_limit {low high : InfRat} {t : Rat} (le : low ≤ high) (pos : 0 < t)
    (limited : ∀ q, epsilonLimit? low high = some q → t ≤ q) :
    low.evaluate t ≤ high.evaluate t := by
  simp only [InfRat.evaluate]
  rcases (InfRat.le_def low high).1 le with room | ⟨same, steeper⟩
  · by_cases falls : high.eps < low.eps
    · have within := limited ((high.real - low.real) / (low.eps - high.eps)) (by
        simp [epsilonLimit?, room, falls])
      rw [le_div_iff₀ (sub_pos.2 falls)] at within
      linarith
    · linarith [mul_le_mul_of_nonneg_right (not_lt.1 falls) pos.le]
  · linarith [mul_le_mul_of_nonneg_right steeper pos.le]

theorem foldl_least (limits : List Rat) (start : Rat) :
    let least := limits.foldl (fun least limit => if limit < least then limit else least) start
    least ≤ start ∧ (∀ limit ∈ limits, least ≤ limit) ∧ (least = start ∨ least ∈ limits) := by
  induction limits generalizing start with
  | nil => exact ⟨le_refl _, by simp, .inl rfl⟩
  | cons limit rest ih =>
    have := ih (if limit < start then limit else start)
    simp only [List.foldl_cons, List.mem_cons] at this ⊢
    generalize rest.foldl _ _ = least at this ⊢
    split at this <;> grind

theorem epsilon_pos (e : Engine) : 0 < e.epsilon := by
  rw [epsilon]
  obtain ⟨-, -, same | member⟩ := foldl_least (e.vars.flatMap e.epsilonLimits) 1
  · rw [same]
    exact one_pos
  · obtain ⟨v, -, at_v⟩ := List.mem_flatMap.1 member
    generalize List.foldl _ _ _ = least at at_v ⊢
    rw [epsilonLimits, List.mem_append, Option.mem_toList, Option.mem_toList] at at_v
    rcases at_v with low | high
    · obtain ⟨bound, -, limit⟩ := Option.bind_eq_some_iff.1 low
      exact epsilonLimit?_pos limit
    · obtain ⟨bound, -, limit⟩ := Option.bind_eq_some_iff.1 high
      exact epsilonLimit?_pos limit

theorem epsilon_le (lt : v < e.numVars) {limit : Rat} (member : limit ∈ e.epsilonLimits v) :
    e.epsilon ≤ limit :=
  (foldl_least _ _).2.1 limit (List.mem_flatMap.2 ⟨v, List.mem_range.2 lt, member⟩)

/-! ## What the rational model satisfies -/

/-- The assignment when a rational is put in for the infinitesimal. -/
def valuesAt (e : Engine) (t : Rat) : Var → Rat := fun v => (e.stored v).evaluate t

theorem admits_of_get (feasible : e.Feasible) (inv : e.Invariant h)
    (found : e.bounds.get v kind = some b) : kind.admits b.value (e.stored v) = true :=
  BoundStore.admits_iff.1 (feasible.admits v (inv.founded.formed.bounds.lt_of_get found)) kind b found

/-- Every active bound holds in the rational model. -/
theorem evaluate_active (feasible : e.Feasible) (inv : e.Invariant h)
    (found : e.bounds.get v kind = some b) :
    (kind.turn b.value).evaluate e.epsilon ≤ (kind.turn (e.stored v)).evaluate e.epsilon := by
  have admits := admits_of_get feasible inv found
  have lt := inv.founded.formed.bounds.lt_of_get found
  have value_eq := feasible.value v
  have at_value : e.bounds.value v kind = some b.value := by rw [BoundStore.value, found, Option.map_some]
  cases kind with
  | lower =>
    refine evaluate_le_of_limit (BoundKind.admits_lower.1 admits) e.epsilon_pos fun q limit => ?_
    refine epsilon_le lt (List.mem_append_left _ ?_)
    rw [Option.mem_toList, BoundStore.lowerValue, at_value, value_eq]
    exact limit
  | upper =>
    rw [BoundKind.turn, BoundKind.turn, InfRat.evaluate_neg, InfRat.evaluate_neg, neg_le_neg_iff]
    refine evaluate_le_of_limit (BoundKind.admits_upper.1 admits) e.epsilon_pos fun q limit => ?_
    refine epsilon_le lt (List.mem_append_right _ ?_)
    rw [Option.mem_toList, BoundStore.upperValue, at_value, value_eq]
    exact limit

/-- The rows hold whatever is put in for the infinitesimal. -/
theorem rows_valuesAt (feasible : e.Feasible) (t : Rat) : e.tableau.Holds (e.valuesAt t) := by
  intro r row found
  have holds := feasible.rows r row found
  rw [Row.Holds] at holds ⊢
  rw [valuesAt, holds]
  exact LinearForm.combine_map (InfRat.evaluateHom t) row.form e.stored

/-- Every installed bound points the right way, unless it is derived from others. -/
theorem coherent_of_anchored (inv : e.Invariant h) (coherent : ∀ g ∈ e.given, g.Coherent)
    (member : b ∈ e.bounds.records) (anchored : b.Anchored) : b.Coherent := by
  refine anchored.elim id fun is_given => ?_
  refine (inv.founded.justified.origin b member is_given).resolve_right ?_
  rintro ⟨g, at_g, incoherent⟩
  exact incoherent (coherent g at_g)

/-- A bound that points the right way and that the active bounds cover. -/
structure Covered (e : Engine) (b : Bound) : Prop where
  coherent : b.Coherent
  covers : e.bounds.Covers b.var b.kind b.value

/-- A bound holds at a point of the line of its variable. -/
theorem holds_valuesAt_iff {t : Rat} : b.Holds (e.valuesAt t) ↔
    b.kind.turn b.value ≤ .ofRat ((b.kind.turn (e.stored b.var)).evaluate t) := by
  rw [Bound.Holds, Bound.Admits, BoundKind.admits_iff_turn, valuesAt, BoundKind.turn_ofRat_evaluate]

theorem Covered.le (covered : e.Covered b) (feasible : e.Feasible) (inv : e.Invariant h) :
    b.kind.turn b.value ≤ b.kind.turn (e.stored b.var) := by
  obtain ⟨active, found, admits⟩ := covered.covers
  exact BoundKind.admits_iff_turn.1
    (BoundKind.admits_trans admits (admits_of_get feasible inv found))

/-- The point at which the line of the variable of a bound leaves it. -/
def leaves (e : Engine) (b : Bound) : Rat :=
  InfRat.crossing (b.kind.turn b.value) (b.kind.turn (e.stored b.var))

/-- Up to the first point at which one of some covered bounds is left, all installed bounds hold. -/
theorem records_hold_before {t : Rat} (inv : e.Invariant h) (feasible : e.Feasible)
    (coherent : ∀ g ∈ e.given, g.Coherent) (pos : 0 < t) (earlier : t < e.epsilon)
    (before : ∀ c ∈ e.bounds.records, e.Covered c → ¬c.Holds (e.valuesAt e.epsilon) →
      t < e.leaves c) : ∀ c ∈ e.bounds.records, c.Holds (e.valuesAt t) := by
  refine inv.founded.justified.anchored _ (rows_valuesAt feasible t) fun c member anchored => ?_
  have covered : e.Covered c :=
    ⟨coherent_of_anchored inv coherent member anchored, inv.founded.formed.bounds.dominated c member⟩
  have le := covered.le feasible inv
  have points := BoundKind.coherent_iff_turn.1 covered.coherent
  rw [holds_valuesAt_iff]
  by_cases holds : c.Holds (e.valuesAt e.epsilon)
  · exact InfRat.le_evaluate_of_later le points pos earlier (holds_valuesAt_iff.1 holds)
  · exact InfRat.le_evaluate_of_lt_crossing le points pos fun _ => before c member covered holds

/-- When all unconditional bounds point the right way, every covered bound holds in the rational
model. -/
theorem Covered.holds (covered : e.Covered b) (inv : e.Invariant h) (feasible : e.Feasible)
    (coherent : ∀ g ∈ e.given, g.Coherent) : b.Holds (e.valuesAt e.epsilon) := by
  classical
  by_contra fails
  -- among the covered bounds that do not hold, take the one that is left first
  obtain ⟨c, c_failing, least⟩ := Finset.exists_min_image
    ((b :: e.bounds.records.toList).toFinset.filter fun c =>
      e.Covered c ∧ ¬c.Holds (e.valuesAt e.epsilon)) e.leaves ⟨b, by simp [covered, fails]⟩
  obtain ⟨-, c_covered, c_fails⟩ := Finset.mem_filter.1 c_failing
  refine c_fails (holds_valuesAt_iff.2 ?_)
  have le := c_covered.le feasible inv
  have points := BoundKind.coherent_iff_turn.1 c_covered.coherent
  by_cases falls : (c.kind.turn (e.stored c.var)).FallsFrom (c.kind.turn c.value)
  · by_cases soon : e.leaves c ≤ e.epsilon
    · obtain ⟨active, found, admits⟩ := c_covered.covers
      obtain ⟨record, var_eq, kind_eq⟩ := inv.founded.formed.bounds.active found
      have stronger := BoundKind.admits_iff_turn.1 admits
      have below := BoundKind.admits_iff_turn.1 (admits_of_get feasible inv found)
      have same := InfRat.real_eq_of_kept falls stronger below fun t pos before => by
        have all := records_hold_before inv feasible coherent pos (before.trans_le soon)
          fun other member other_covered other_fails => by
            refine before.trans_le (least other ?_)
            simp [Array.mem_toList_iff.2 member, other_covered, other_fails]
        have holds := holds_valuesAt_iff.1 (all active record)
        rwa [var_eq, kind_eq] at holds
      exact InfRat.le_ofRat_of_evaluate_le stronger same points e.epsilon_pos
        (evaluate_active feasible inv found)
    · exact InfRat.le_evaluate_of_lt_crossing le points e.epsilon_pos fun _ => not_le.1 soon
  · exact InfRat.le_evaluate_of_not_falls le points e.epsilon_pos falls

end Engine

end ArithDecide
