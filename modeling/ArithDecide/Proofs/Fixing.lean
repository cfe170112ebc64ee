import ArithDecide.Proofs.Posing

/-!
# Unconditional bounds and equalities are sound

An unconditional bound is installed without a reason. For an equality the difference of the variables
becomes a new variable, whose row says what it is, and which is fixed to zero for the reason that the
variables are equal.
-/

namespace ArithDecide

theorem VarPair.holds_ordered {α : Var → Rat} (v w : Var) :
    (VarPair.ordered v w).Holds α ↔ α v = α w := by
  rw [VarPair.ordered]
  split
  · rfl
  · exact eq_comm

namespace Engine

open State

variable {e next : Engine} {h k : History} {v left right difference : Var} {kind : BoundKind}
  {value : InfRat} {reason : Dependency}

/-! ## Unconditional bounds -/

/-- An unconditional bound may be offered without a reason. -/
theorem offered_given {s : State} (lt : v < s.numVars) (noted : ⟨v, kind, value⟩ ∈ s.given) :
    s.Offered h ⟨v, kind, value, none, .given⟩ where
  lt := lt
  supported := ⟨DependencyArena.names_none, (DependencyArena.allLeaves_none).2 trivial,
    fun _ _ solves _ => solves.given _ noted⟩
  follows drifting := absurd (.inr rfl) drifting
  origin _ := by
    by_cases coherent : kind.Coherent value
    · exact .inl coherent
    · exact .inr ⟨_, noted, coherent⟩

/-- Installing a bound leaves its conclusion in force, or a conflict. -/
theorem covers_of_feasible {origin : BoundOrigin} (inv : e.Invariant h)
    (offered : e.Offered h ⟨v, kind, value, reason, origin⟩)
    (feasible : (e.installBound v kind value reason origin).1.isInfeasible = false) :
    (e.installBound v kind value reason origin).1.bounds.Covers v kind value := by
  refine covers_of_rounded (covers_installBound inv offered ?_)
  by_contra no
  rw [Bool.not_eq_true] at no
  exact absurd (infeasible_installBound no) (by simp [feasible])

/-- An unconditional bound is noted. -/
theorem invariant_give {noted : Engine} (inv : e.Invariant h) (lt : v < e.numVars) (becomes : e.Becomes
      { e.toState with given := e.given ++ [GivenBound.mk v kind value] } noted) :
    noted.Invariant h ∧ noted.Offered h ⟨v, kind, value, none, .given⟩ := by
  rw [becomes.toState]
  exact ⟨inv.of_same (inv.founded.give lt) rfl rfl rfl (fun _ _ => rfl) (fun _ => id) id,
    offered_given lt (List.mem_append_right _ (List.mem_singleton.2 rfl))⟩

/-- A successful call notes the bound and installs it. -/
theorem of_assertGiven (ok : e.assertGiven v kind value = .ok next) : v < e.numVars ∧
    ∃ noted, e.Becomes { e.toState with given := e.given ++ [GivenBound.mk v kind value] } noted ∧
      (noted.installBound v kind value none .given).1 = next := by
  rw [Engine.assertGiven] at ok
  obtain ⟨_, known, ok⟩ := bind_eq_ok ok
  exact ⟨requireVar_eq_ok.1 known, { e with given := e.given ++ [GivenBound.mk v kind value] },
    ⟨rfl, rfl⟩, Except.ok.inj ok⟩

/-- An unconditional bound evolves the engine, whether it crosses the opposite bound, is covered or is
installed. -/
theorem Ready.assertGiven (ready : e.Ready h) (ok : e.assertGiven v kind value = .ok next) :
    Evolves e next h := by
  obtain ⟨lt, noted, becomes, installed⟩ := of_assertGiven ok
  have grows : e.Grows noted.toState := becomes.toState ▸ grows_give e.toState _
  have inside : e.Inside noted := becomes.inside rfl rfl rfl rfl rfl rfl fun scope outer is_open =>
    { Rewinds.refl e.toState scope with
      given := List.take_append_of_le_length
        (ready.invariant.founded.formed.passed scope outer is_open).given }
  obtain ⟨inv, offered⟩ := invariant_give ready.invariant lt becomes
  have announced := announced_of_same grows (by rw [becomes.toState]) ready.announced
  have answers := answers_installBound inv offered
  have covers := covers_of_feasible inv offered
  have same := sameQueue_installBound noted v kind value none .given
  subst installed
  generalize noted.installBound v kind value none .given = result at answers covers same ⊢
  have keeps := answers.keeps inv
  refine ready.evolves (inside.trans (answers.inside inv)) (grows.trans keeps.grows)
    (answers.invariant inv) ?_ (fun _ => id)
    (fun p waits => .inr (answers.announced inv announced p waits)) (answers.awaited inv
      (ready.awaited.congr (by rw [becomes.toState]) (by rw [becomes.toState])))
  have first : e.Retains noted.toState := by
    rw [becomes.toState]
    exact ⟨Nat.le_refl _, fun _ atom found => ⟨atom, found, rfl, rfl, rfl⟩,
      fun _ _ _ covered => covered, fun _ holds => holds, fun infeasible => infeasible⟩
  have queue : SameQueue e result.1 := (SameQueue.of_atoms (by rw [becomes.toState])).trans same
  refine ready.standing.retained (first.trans keeps.retains) (queue.asserted ▸ List.prefix_refl _)
    queue.processed (fun _ _ equated => .inl equated) (fun feasible g member => ?_) fun _ => rfl
  rw [keeps.given, becomes.toState] at member
  rcases List.mem_append.1 member with before | new
  · exact .inl before
  · obtain rfl := List.mem_singleton.1 new
    exact .inr (covers feasible)

/-! ## Equalities -/

/-- Being equal may be written down before the difference is fixed. -/
theorem Founded.equate {s : State} (inv : s.Founded h) {p : VarPair} (left_lt : p.left < s.numVars)
    (right_lt : p.right < s.numVars) : s.Founded (h.equate p) := by
  refine inv.history (fun l => by rw [History.asserted_equate])
    (fun l member => (History.rejected_equate h p).symm ▸ member)
    (fun q member => History.mem_equated_equate.2 (.inr member)) fun q member => ?_
  rcases History.mem_equated_equate.1 member with rfl | before
  · exact ⟨left_lt, right_lt⟩
  · exact inv.registered.pair_lt q before

/-- What fixing a variable to zero comes to. -/
structure Fixed (k : History) (e : Engine) (v : Var) (result : Engine × Bool) : Prop where
  answers : Answers k e result
  sameQueue : SameQueue e result.1
  covers : result.1.isInfeasible = false → ∀ kind, result.1.bounds.Covers v kind 0

/-- What fixes a variable to zero may be offered again later. -/
theorem offered_zero_later (inv : e.Invariant k) (keeps : e.Keeps next.toState)
    (offered : e.Offered k ⟨v, kind, 0, reason, .derived⟩) :
    next.Offered k ⟨v, kind, 0, reason, .derived⟩ where
  lt := Nat.lt_of_lt_of_le offered.lt keeps.numVars
  supported := keeps.grows.supported inv.founded.formed.closed (fun _ => id) offered.supported
  follows drifting := absurd (.inl (BoundKind.coherent_ofRat _ 0)) drifting
  origin given := by cases given

/-- Installing zero as the bound of both sides fixes the variable, unless one side conflicts. -/
theorem fixed_installBoth (inv : e.Invariant k)
    (offered : ∀ kind, e.Offered k ⟨v, kind, 0, reason, .derived⟩) :
    Fixed k e v (forEach (fun e kind => e.installBound v kind 0 reason .derived)
      [.lower, .upper] e) := by
  have answers := answers_installBound inv (offered .lower)
  have covers := covers_of_feasible inv (offered .lower)
  have same := sameQueue_installBound e v .lower 0 reason .derived
  have failed := @infeasible_installBound e v .lower 0 reason .derived
  rw [forEach]
  generalize e.installBound v .lower 0 reason .derived = result at answers covers same failed ⊢
  obtain ⟨first, ok⟩ := result
  cases ok with
  | false => exact ⟨answers, same, fun feasible => absurd (failed rfl) (by simp [feasible])⟩
  | true =>
    have keeps := answers.keeps inv
    have first_inv := answers.invariant inv
    have again := offered_zero_later inv keeps (offered .upper)
    have answers' := answers_installBound first_inv again
    have covers' := covers_of_feasible first_inv again
    have same' := sameQueue_installBound first v .upper 0 reason .derived
    simp only [forEach]
    split
    · rename_i next result
      rw [result] at answers' covers' same'
      refine ⟨answers'.after (answers.steps rfl), same.trans same', fun feasible kind => ?_⟩
      have later := answers'.keeps first_inv
      cases kind with
      | lower => exact later.covers _ _ _ (covers (later.retains.feasible feasible))
      | upper => exact covers' feasible
    · rename_i next result
      rw [result] at answers' same'
      refine ⟨answers'.after (answers.steps rfl), same.trans same', fun feasible => ?_⟩
      have failed' := infeasible_installBound (e := first) (by rw [result])
      rw [result] at failed'
      exact absurd failed' (by simp [feasible])

/-- Two variables that exist may be written down as equal. -/
theorem invariant_equate (inv : e.Invariant h) (left_lt : left < e.numVars)
    (right_lt : right < e.numVars) : e.Invariant (h.equate (.ordered left right)) := by
  have ordered_lt : (VarPair.ordered left right).left < e.numVars ∧
      (VarPair.ordered left right).right < e.numVars := by
    rw [VarPair.ordered]
    split
    · exact ⟨left_lt, right_lt⟩
    · exact ⟨right_lt, left_lt⟩
  exact ⟨Founded.equate inv.founded ordered_lt.1 ordered_lt.2, inv.patched, inv.assigned⟩

/-- The difference of equal variables may be offered zero as its bounds. -/
theorem offered_difference (inv : e.Invariant (h.equate (.ordered left right)))
    (lt : difference < e.numVars)
    (row : ∀ α : Var → Rat, e.tableau.Holds α → α difference = α left - α right) :
    let noted := { e with dependencies := (e.dependencies.mkEquality left right).1 }
    Step (h.equate (.ordered left right)) e noted ∧
      ∀ kind, noted.Offered (h.equate (.ordered left right))
        ⟨difference, kind, 0, (e.dependencies.mkEquality left right).2, .derived⟩ := by
  have built := DependencyArena.built_mkEquality inv.founded.formed.closed left right
  refine ⟨.depend _ built.extended built.closed ⟨rfl, rfl⟩, fun kind => ?_⟩
  refine ⟨lt, ⟨built.names, ?_, fun _ α solves believes => ?_⟩,
    fun drifting => absurd (.inl (BoundKind.coherent_ofRat _ 0)) drifting, nofun⟩
  · exact (built.leaves _ _).2 (History.mem_equated_equate.2 (.inl rfl))
  · have equal : α left = α right := (VarPair.holds_ordered left right).1 ((built.leaves _ _).1 believes)
    have zero : α difference = 0 := by rw [row α solves.rows, equal, sub_self]
    show kind.admits 0 (.ofRat (α difference)) = true
    rw [zero]
    exact BoundKind.admits_refl _ _

/-- Fixing the difference of two variables puts their equality into force. -/
theorem Ready.fixDifference (ready : e.Ready h) (lt : difference < e.numVars)
    (left_lt : left < e.numVars) (right_lt : right < e.numVars)
    (row : ∀ α : Var → Rat, e.tableau.Holds α → α difference = α left - α right) :
    Evolves e (e.fixDifference difference left right) (h.equate (.ordered left right)) := by
  have inv := invariant_equate ready.invariant left_lt right_lt
  have longer : ∀ q ∈ h.equated, q ∈ (h.equate (.ordered left right)).equated :=
    fun q member => History.mem_equated_equate.2 (.inr member)
  have announced : ∀ p ∈ e.propagations, e.Announces (h.equate (.ordered left right)) p :=
    fun p waits => (Grows.refl e.toState).announces longer (ready.announced p waits)
  obtain ⟨noted, offered⟩ := offered_difference inv lt row
  have fixed := fixed_installBoth (noted.invariant inv) offered
  have answers := fixed.answers.after noted.steps
  have keeps := answers.keeps inv
  have same := SameQueue.trans (.of_atoms rfl) fixed.sameQueue
  refine ready.evolves (answers.inside inv) keeps.grows (answers.invariant inv) ?_ longer
    (fun p waits => .inr (answers.announced inv announced p waits))
    (answers.awaited inv ready.awaited)
  refine ready.standing.retained keeps.retains (same.asserted ▸ List.prefix_refl _) same.processed
    (fun feasible q equated => ?_) (fun _ _ member => .inl (keeps.given ▸ member))
    fun _ => History.rejected_equate h _
  rcases History.mem_equated_equate.1 equated with rfl | before
  · refine .inr (.inr ⟨difference, Nat.lt_of_lt_of_le lt keeps.numVars, fun α holds zero => ?_,
      fixed.covers feasible⟩)
    refine (VarPair.holds_ordered left right).2 (sub_eq_zero.1 ?_)
    rw [← row α (keeps.rows α holds), zero]
  · exact .inl before

/-- The row of a new variable says that it is the difference of two others. -/
structure PosedDifference (h : History) (e : Engine) (difference left right : Var)
    (next : Engine) : Prop where
  evolves : Evolves e next h
  lt : difference < next.numVars
  left_lt : left < next.numVars
  right_lt : right < next.numVars
  row : ∀ α : Var → Rat, next.tableau.Holds α → α difference = α left - α right

/-- A variable with a row for the difference of two variables may be added whenever the engine is ready.
-/
theorem Ready.pose {withRow : Engine × RowId} (ready : e.Ready h) (left_lt : left < e.numVars)
    (right_lt : right < e.numVars)
    (added : (e.mkVar (e.jointSort [left, right]) .internal).1.addRow
      (e.mkVar (e.jointSort [left, right]) .internal).2 [(left, 1), (right, -1)] = .ok withRow) :
    PosedDifference h e (e.mkVar (e.jointSort [left, right]) .internal).2 left right withRow.1 := by
  have first := ready.mkVar (e.jointSort [left, right]) .internal
  have numVars : (e.mkVar (e.jointSort [left, right]) .internal).1.numVars = e.numVars + 1 :=
    numVars_withVar e.toState _
  obtain ⟨second, more, row⟩ := first.ready.addRow added
  rw [numVars] at more
  refine ⟨first.trans second, more, Nat.lt_of_lt_of_le left_lt ((Nat.le_succ _).trans more),
    Nat.lt_of_lt_of_le right_lt ((Nat.le_succ _).trans more), fun α holds => ?_⟩
  refine (row α holds).trans ?_
  rw [LinearForm.combine_ofEntries]
  simp [sub_eq_add_neg]

/-- A successful call has nothing to do, or fixes the difference of the variables. -/
theorem of_assertVarEq (ok : e.assertVarEq left right = .ok next) :
    (left < e.numVars ∧ right < e.numVars) ∧ (left = right ∧ next = e ∨ left ≠ right ∧ ∃ withRow,
      (e.mkVar (e.jointSort [left, right]) .internal).1.addRow
          (e.mkVar (e.jointSort [left, right]) .internal).2 [(left, 1), (right, -1)] = .ok withRow ∧
        withRow.1.fixDifference (e.mkVar (e.jointSort [left, right]) .internal).2 left right =
          next) := by
  rw [Engine.assertVarEq] at ok
  obtain ⟨_, left_known, ok⟩ := bind_eq_ok ok
  obtain ⟨_, right_known, ok⟩ := bind_eq_ok ok
  refine ⟨⟨requireVar_eq_ok.1 left_known, requireVar_eq_ok.1 right_known⟩, ?_⟩
  by_cases same : left = right
  · simp only [same, if_true] at ok
    exact .inl ⟨same, (Except.ok.inj ok).symm⟩
  · simp only [same, if_false] at ok
    obtain ⟨withRow, added, ok⟩ := bind_eq_ok ok
    exact .inr ⟨same, withRow, added, Except.ok.inj ok⟩

/-- Asserting that two variables are equal. -/
theorem Ready.assertVarEq (ready : e.Ready h) (ok : e.assertVarEq left right = .ok next) :
    Evolves e next (h.equate (.ordered left right)) := by
  obtain ⟨⟨left_lt, right_lt⟩, ⟨rfl, rfl⟩ | ⟨-, withRow, added, rfl⟩⟩ := of_assertVarEq ok
  · refine (ready.history (fun m => by rw [History.asserted_equate]) (History.rejected_equate h _)
      (fun q member => History.mem_equated_equate.2 (.inr member)) fun q member => ?_).unchanged
    refine (History.mem_equated_equate.1 member).symm.imp_right ?_
    rintro rfl
    simp [VarPair.ordered, left_lt]
  · have posed := ready.pose left_lt right_lt added
    exact posed.evolves.trans
      (posed.evolves.ready.fixDifference posed.lt posed.left_lt posed.right_lt posed.row)

end Engine

end ArithDecide
