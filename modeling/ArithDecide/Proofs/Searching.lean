import ArithDecide.Proofs.Nesting
import ArithDecide.Proofs.Verdicts
import ArithDecide.Search

/-!
# Searching is sound

A search explores both sides of a case split in scopes of their own. What a side answers is about the
state around its scope together with its branch literal; `Engine.Explored` says so. A refutation that
mentions its branch literal is resolved with that of the other side, and as the split is complete and
open, no branch literal is left and none is missed.
-/

namespace ArithDecide

namespace Explanation

variable {x y : Explanation} {resolved : List Literal}

theorem contains_iff {l : Literal} : x.contains l = true ↔ l ∈ x.literals :=
  List.contains_iff_mem

theorem mem_literals_resolve {l : Literal} :
    l ∈ (x.resolve y resolved).literals ↔ (l ∈ x.literals ∨ l ∈ y.literals) ∧ l ∉ resolved := by
  rw [resolve, SortedSet.mem_ofList fun _ _ => Literal.eq_of_not_lt]
  simp [or_and_right]

theorem mem_equalities_resolve {p : VarPair} :
    p ∈ (x.resolve y resolved).equalities ↔ p ∈ x.equalities ∨ p ∈ y.equalities := by
  rw [resolve, SortedSet.mem_ofList fun _ _ => VarPair.eq_of_not_lt, List.mem_append]

end Explanation

namespace Engine

open State

variable {e next : Engine} {h k : History} {l : Literal} {x : Explanation} {split : CaseSplit}
  {result : SearchState}

/-! ## Entering a branch -/

/-- A literal that can be asserted is one of a known atom; variables, constraints and bounds stay. -/
theorem of_assertLiteral (ok : e.assertLiteral l = .ok next) :
    (∃ atom, e.atoms.get? l.atom = some atom) ∧ next.columns = e.columns ∧
      next.tableau = e.tableau ∧ next.monomials = e.monomials ∧ next.given = e.given ∧
      next.bounds = e.bounds := by
  rw [assertLiteral] at ok
  split at ok
  · cases ok
  · rename_i known
    rw [Option.isNone_iff_eq_none, ← ne_eq, Option.ne_none_iff_exists'] at known
    split at ok
    · obtain rfl := Except.ok.inj ok
      exact ⟨known, rfl, rfl, rfl, rfl, rfl⟩
    · obtain rfl := Except.ok.inj ok
      exact ⟨known, rfl, rfl, rfl, rfl, rfl⟩
    · obtain rfl := Except.ok.inj ok
      rw [setConflict]
      split <;> exact ⟨known, rfl, rfl, rfl, rfl, rfl⟩

/-- Every literal of a known atom can be asserted. -/
theorem exists_assertLiteral (known : ∃ atom, e.atoms.get? l.atom = some atom) :
    ∃ next, e.assertLiteral l = .ok next := by
  obtain ⟨atom, found⟩ := known
  rw [assertLiteral, found, Option.isNone_some, if_neg Bool.false_ne_true]
  split <;> exact ⟨_, rfl⟩

theorem solves_assertLiteral (ok : e.assertLiteral l = .ok next) (α : Var → Rat) :
    next.Solves α ↔ e.Solves α := by
  obtain ⟨-, columns, tableau, monomials, given, -⟩ := of_assertLiteral ok
  have isInt := isInt_congr columns
  refine ⟨fun solves => ?_, fun solves => ?_⟩
  · exact ⟨fun v integer => solves.integral v ((isInt v).trans integer), tableau ▸ solves.rows,
      monomials ▸ solves.monomials, given ▸ solves.given⟩
  · exact ⟨fun v integer => solves.integral v ((isInt v).symm.trans integer),
      tableau.symm ▸ solves.rows, monomials.symm ▸ solves.monomials, given.symm ▸ solves.given⟩

/-- A scope in which a branch literal holds has the constraints of the scope around it. -/
structure Branched (h : History) (e : Engine) (l : Literal) (entered : Engine) : Prop where
  evolves : Evolves e.push entered (h.enter.assert l)
  grows : e.Grows entered.toState
  given : entered.given = e.given
  solves : ∀ α, entered.Solves α ↔ e.Solves α

theorem Ready.enterBranch (ready : e.Ready h)
    (known : ∃ atom, e.atoms.get? l.atom = some atom) : Branched h e l (e.enterBranch l) := by
  obtain ⟨entered, ok⟩ := exists_assertLiteral (e := e.push) known
  have evolves := ready.push.assertLiteral ok
  obtain ⟨-, -, -, -, given, -⟩ := of_assertLiteral ok
  rw [Engine.enterBranch, ok]
  exact ⟨evolves, (grows_enter e.toState).trans evolves.grows, given, fun α =>
    (solves_assertLiteral ok α).trans ⟨fun holds => { holds with rows := holds.rows },
      fun holds => { holds with rows := holds.rows }⟩⟩

/-! ## What a search answers -/

/-- What a search does: it comes back ready to where it started, and as long as no number of a scope
came again, a model satisfies everything that was stated there, and a refutation rests on that only. -/
structure Searched (h : History) (e : Engine) (result : SearchState) : Prop where
  evolves : Evolves e result.engine h
  sat : result.engine.Reliable → (∀ g ∈ e.given, g.Coherent) → ∀ model,
    result.result = .sat model → e.Meets h (assignmentOf model)
  unsat : result.engine.Reliable → ∀ x, result.result = .unsat x → e.RefutedBy h x

/-- A refutation of a branch rests on its literal and on what is in force around it. -/
structure BranchRefutedBy (h : History) (e : Engine) (l : Literal) (x : Explanation) : Prop where
  literals : ∀ m ∈ x.literals, m = l ∨ m ∈ h.asserted
  equalities : ∀ p ∈ x.equalities, p ∈ h.equated
  excludes : e.Excludes x

/-- What exploring a branch does. -/
structure Explored (h : History) (e : Engine) (l : Literal) (result : SearchState) : Prop where
  evolves : Evolves e result.engine h
  returns : e.toState.Returns result.engine.toState
  sat : result.engine.Reliable → (∀ g ∈ e.given, g.Coherent) → ∀ model,
    result.result = .sat model → e.Meets h (assignmentOf model)
  unsat : result.engine.Reliable → ∀ x, result.result = .unsat x → BranchRefutedBy h e l x

/-- A search in a branch explores it. -/
theorem Searched.explored (ready : e.Ready h) (none_rejected : h.rejected = [])
    (known : ∃ atom, e.atoms.get? l.atom = some atom)
    (searched : Searched (h.enter.assert l) (e.enterBranch l) result) :
    Explored h e l result.leaveScope := by
  have branched := ready.enterBranch known
  have inside := branched.evolves.trans searched.evolves
  have returns := ready.returns inside.inside
  have within (reliable : result.leaveScope.engine.Reliable) : result.engine.Reliable := by
    have numbered := returns.numbered ready.invariant.founded.formed reliable
    rw [State.Numbered, scopesEntered_popScope] at numbered
    exact .inl numbered
  have asserted {m : Literal} (member : m ∈ (h.enter.assert l).asserted) :
      m = l ∨ m ∈ h.asserted :=
    (History.mem_asserted_assert.1 member).symm.imp_left And.left
  have literals {x : Explanation} (refuted : (e.enterBranch l).RefutedBy (h.enter.assert l) x)
      (m : Literal) (member : m ∈ x.literals) : m = l ∨ m ∈ h.asserted := by
    rcases refuted.literals with all | ⟨n, rejected, opposed, members, -⟩
    · exact asserted (all m member)
    · have same : n = l := by
        rcases History.mem_rejected_assert.1 rejected with before | ⟨same, -⟩
        · rw [History.rejected_enter, none_rejected] at before
          cases before
        · exact same
      subst same
      rcases (members m).1 member with rfl | rfl
      · exact .inl rfl
      · exact asserted opposed
  have at_entry {α : Var → Rat} {m : Literal} (is_known : ∃ atom, e.atoms.get? m.atom = some atom) :
      (e.enterBranch l).LiteralHolds α m ↔ e.LiteralHolds α m := by
    obtain ⟨atom, found⟩ := is_known
    exact branched.grows.literalHolds_iff found
  have accepted {m : Literal} (member : m ∈ h.asserted) :
      ∃ atom, e.atoms.get? m.atom = some atom := by
    have registered := ready.invariant.founded.registered
    obtain ⟨atom, found, -⟩ := registered.assigned m ((registered.asserted m).2 member)
    exact ⟨atom, found⟩
  refine
    { evolves := ready.leave inside
      returns := returns
      sat := fun reliable coherent model found => ?_
      unsat := fun reliable x found => ?_ }
  · have meets := searched.sat (within reliable) (by rwa [branched.given]) model found
    exact meets.before ready.invariant.founded branched.grows none_rejected
      (fun m member => History.mem_asserted_assert.2 (.inl member))
      fun p member => (History.equated_assert _ l).symm ▸ member
  · have refuted := searched.unsat (within reliable) x found
    refine ⟨literals refuted, fun p member => ?_, fun α solves holds equal => ?_⟩
    · have member := refuted.equalities p member
      rwa [History.equated_assert] at member
    · refine refuted.refutes α ((branched.solves α).2 solves) (fun m member => ?_) equal
      refine (at_entry ?_).2 (holds m member)
      rcases literals refuted m member with rfl | before
      · exact known
      · exact accepted before

/-! ## Combining the sides of a split -/

/-- A refutation of one side that does not mention its branch literal. -/
theorem BranchRefutedBy.refutedBy (refuted : BranchRefutedBy h e l x) (ready : e.Ready h)
    (unmentioned : x.contains l = false) : e.RefutedBy h x := by
  have literals (m : Literal) (member : m ∈ x.literals) : m ∈ h.asserted := by
    refine (refuted.literals m member).resolve_left ?_
    rintro rfl
    rw [Explanation.contains_iff.2 member] at unmentioned
    cases unmentioned
  have registered := ready.invariant.founded.registered
  refine ⟨.inl literals, refuted.equalities, fun m member => ?_, refuted.excludes⟩
  obtain ⟨atom, found, -⟩ := registered.assigned m ((registered.asserted m).2 (literals m member))
  exact ⟨atom, found⟩

/-- The refutations of both sides of a split that is complete and open are resolved. -/
theorem refutedBy_resolve {y : Explanation} (ready : e.Ready h) (reliable : e.Reliable)
    (splits : e.Splits split) (calm : e.isInfeasible = false) (drained : e.atoms.queued = [])
    (lower : BranchRefutedBy h e split.down x) (upper : BranchRefutedBy h e split.up y) :
    e.RefutedBy h (x.resolve y [split.down, split.up]) := by
  have registered := ready.invariant.founded.registered
  -- an asserted literal is in force, so it is none of the literals of the split
  have unresolved {m : Literal} (asserted : m ∈ h.asserted) : m ∉ [split.down, split.up] := by
    have honors := ready.standing.honors calm drained ((registered.asserted m).2 asserted)
    intro resolved
    rcases List.mem_cons.1 resolved with rfl | last
    · exact splits.down_open reliable honors
    · obtain rfl := List.mem_singleton.1 last
      exact splits.up_open reliable honors
  have literals (m : Literal) (member : m ∈ (x.resolve y [split.down, split.up]).literals) :
      m ∈ h.asserted := by
    obtain ⟨mentioned, not_resolved⟩ := Explanation.mem_literals_resolve.1 member
    rcases mentioned with in_down | in_up
    · refine (lower.literals m in_down).resolve_left ?_
      rintro rfl
      exact not_resolved (by simp)
    · refine (upper.literals m in_up).resolve_left ?_
      rintro rfl
      exact not_resolved (by simp)
  refine ⟨.inl literals, fun p member => ?_, fun m member => ?_, fun α solves holds equal => ?_⟩
  · exact (Explanation.mem_equalities_resolve.1 member).elim (lower.equalities p)
      (upper.equalities p)
  · obtain ⟨atom, found, -⟩ := registered.assigned m ((registered.asserted m).2 (literals m member))
    exact ⟨atom, found⟩
  · rcases splits.complete α solves with down_holds | up_holds
    · refine lower.excludes α solves (fun m member => ?_) fun p member =>
        equal p (Explanation.mem_equalities_resolve.2 (.inl member))
      rcases lower.literals m member with rfl | asserted
      · exact down_holds
      · exact holds m (Explanation.mem_literals_resolve.2 ⟨.inl member, unresolved asserted⟩)
    · refine upper.excludes α solves (fun m member => ?_) fun p member =>
        equal p (Explanation.mem_equalities_resolve.2 (.inr member))
      rcases upper.literals m member with rfl | asserted
      · exact up_holds
      · exact holds m (Explanation.mem_literals_resolve.2 ⟨.inr member, unresolved asserted⟩)

/-- Exploring a branch of a settled state explores the branch of the state. -/
theorem Explored.of_settled {settled : Engine} (evolves : Evolves e settled h)
    (returns : e.toState.Returns settled.toState) (explored : Explored h settled l result) :
    Explored h e l result := by
  have same := returns.resembles.same
  have solves {α : Var → Rat} : settled.Solves α ↔ e.Solves α := by
    rw [same]
    exact ⟨fun holds => ⟨holds.integral, holds.rows, holds.monomials, holds.given⟩,
      fun holds => ⟨holds.integral, holds.rows, holds.monomials, holds.given⟩⟩
  have atoms : settled.atoms = e.atoms := by rw [same]; rfl
  refine
    { evolves := evolves.trans explored.evolves
      returns := returns.trans explored.returns
      sat := fun reliable coherent model found => ?_
      unsat := fun reliable x found => ?_ }
  · have meets := explored.sat reliable (by rw [same]; exact coherent) model found
    exact ⟨solves.1 meets.solves, fun m stated => by
      rw [Confirms, ← atoms]
      exact meets.literals m stated, meets.equalities⟩
  · have refuted := explored.unsat reliable x found
    refine ⟨refuted.literals, refuted.equalities, fun α holds literals equal => ?_⟩
    refine refuted.excludes α (solves.2 holds) (fun m member => ?_) equal
    rw [LiteralHolds, atoms]
    exact literals m member

/-- What the search makes of the sides of a split, given how it explores a branch. -/
def searchSides (explore : Engine → Nat → Literal → SearchState) (e : Engine) (visited : Nat)
    (split : CaseSplit) : SearchState :=
  let down := explore e visited split.down
  match down.result with
  | .unsat refutation =>
    if refutation.contains split.down then
      .combine split (some refutation) (explore down.engine down.visited split.up)
    else down
  | .unknown => .combine split none (explore down.engine down.visited split.up)
  | _ => down

/-- What is said of a branch holds of the whole, unless the branch is refuted. -/
theorem Explored.searched (explored : Explored h e l result)
    (unsat : result.engine.Reliable → ∀ x, result.result = .unsat x → e.RefutedBy h x) :
    Searched h e result :=
  ⟨explored.evolves, explored.sat, unsat⟩

/-- Combining the sides of a split is sound. -/
theorem searched_combine {down up : SearchState} {refutation : Option Explanation}
    (ready : e.Ready h) (splits : e.Splits split) (calm : e.isInfeasible = false)
    (drained : e.atoms.queued = []) (lower : Explored h e split.down down)
    (upper : Explored h e split.up up)
    (earlier : up.engine.Reliable → down.engine.Reliable)
    (refuted : ∀ x, refutation = some x → down.result = .unsat x) :
    Searched h e (.combine split refutation up) := by
  unfold SearchState.combine
  split
  · rename_i y x up_refuted
    split
    · refine ⟨upper.evolves, nofun, fun reliable z same => ?_⟩
      obtain rfl := SearchResult.unsat.inj same
      exact refutedBy_resolve ready (upper.evolves.grows.reliable reliable) splits calm drained
        (lower.unsat (earlier reliable) x (refuted x rfl)) (upper.unsat reliable y up_refuted)
    · rename_i unmentioned
      refine upper.searched fun reliable z same => ?_
      obtain rfl := SearchResult.unsat.inj (up_refuted.symm.trans same)
      exact (upper.unsat reliable y up_refuted).refutedBy ready (Bool.eq_false_iff.2 unmentioned)
  · rename_i y up_refuted
    split
    · exact ⟨upper.evolves, nofun, nofun⟩
    · rename_i unmentioned
      refine upper.searched fun reliable z same => ?_
      obtain rfl := SearchResult.unsat.inj (up_refuted.symm.trans same)
      exact (upper.unsat reliable y up_refuted).refutedBy ready (Bool.eq_false_iff.2 unmentioned)
  · rename_i first _ _ not_refuted not_refuted'
    refine upper.searched fun _ z same => ?_
    cases first with
    | none => exact (not_refuted' z same rfl).elim
    | some x => exact (not_refuted z x same rfl).elim

/-- Exploring both sides of a split that is complete and open is sound. -/
theorem searched_sides {explore : Engine → Nat → Literal → SearchState} (ready : e.Ready h)
    (splits : e.Splits split) (calm : e.isInfeasible = false) (drained : e.atoms.queued = [])
    (explored : ∀ (e : Engine) (visited : Nat) (l : Literal), e.Ready h →
      (∃ atom, e.atoms.get? l.atom = some atom) → Explored h e l (explore e visited l))
    (visited : Nat) : Searched h e (searchSides explore e visited split) := by
  have lower := explored e visited split.down ready splits.down_known
  rw [searchSides]
  generalize explore e visited split.down = down at lower ⊢
  have second : Explored h down.engine split.up (explore down.engine down.visited split.up) := by
    refine explored _ _ _ lower.evolves.ready ?_
    rw [lower.returns.resembles.same]
    exact splits.up_known
  have upper := second.of_settled lower.evolves lower.returns
  have earlier := second.evolves.grows.reliable
  split
  · rename_i x refuted
    split
    · exact searched_combine ready splits calm drained lower upper earlier fun y same => by
        obtain rfl := Option.some.inj same
        exact refuted
    · rename_i unmentioned
      refine lower.searched fun reliable z same => ?_
      obtain rfl := SearchResult.unsat.inj (refuted.symm.trans same)
      exact (lower.unsat reliable x refuted).refutedBy ready (Bool.eq_false_iff.2 unmentioned)
  · exact searched_combine ready splits calm drained lower upper earlier nofun
  · rename_i not_refuted not_unknown
    exact lower.searched fun _ z same => (not_refuted z same).elim

/-! ## The search -/

/-- A search can go deeper than any number of case splits that fit into 64 bits. -/
theorem exists_depthLimit (e : Engine) {n : Nat} (le : n ≤ 2 ^ 64) : ∃ m, e.depthLimit = m + n :=
  ⟨e.depthLimit - n, (Nat.sub_add_cancel (le.trans (Nat.le_add_right _ _))).symm⟩

/-- What is said of the state after a check holds before it. -/
theorem Searched.before {checked : Engine} (ready : e.Ready h) (first : Evolves e checked h)
    (keeps : e.Keeps checked.toState) (none_rejected : h.rejected = [])
    (searched : Searched h checked result) : Searched h e result where
  evolves := first.trans searched.evolves
  sat reliable coherent model found :=
    (searched.sat reliable (keeps.given ▸ coherent) model found).before ready.invariant.founded
      first.grows none_rejected (fun _ => id) fun _ => id
  unsat reliable x refuted :=
    (searched.unsat reliable x refuted).before ready.invariant.founded keeps

/-- A search does what it should, by induction on the depth that is left. A side that is refuted without
its branch literal answers for the search; otherwise both sides are resolved. -/
theorem searched_search (stop : StopCondition) (depth visited : Nat) (ready : e.Ready h) :
    Searched h e (search stop depth e visited) := by
  induction depth generalizing e h visited with
  | zero => exact ⟨ready.unchanged, nofun, nofun⟩
  | succ depth ih =>
    rw [search]
    split
    · exact ⟨ready.unchanged, nofun, nofun⟩
    · have first := ready.check
      have checks := checks_check ready.invariant
      have stands := checks.standing ready.standing
      have keeps := checks.answers.keeps ready.invariant
      generalize e.check = result at first checks stands keeps
      obtain ⟨checked, verdict⟩ := result
      cases verdict with
      | sat =>
        obtain ⟨satisfied, calm⟩ := checks.satisfied rfl
        refine ⟨first, fun reliable coherent model same => ?_, nofun⟩
        obtain rfl := SearchResult.sat.inj same
        have meets := meets_model first.ready (satisfied reliable) calm (stands.2 (.inl rfl))
          (keeps.given ▸ coherent)
        exact meets.before ready.invariant.founded first.grows (stands.1.rejected calm)
          (fun _ => id) fun _ => id
      | unsat explanation =>
        refine ⟨first, nofun, fun reliable x same => ?_⟩
        obtain rfl := SearchResult.unsat.inj same
        exact checks.answers.refutedBy ready.invariant (first.grows.reliable reliable)
          (checks.conflict _ rfl)
      | unknown => exact ⟨first, nofun, nofun⟩
      | branch split =>
        obtain ⟨splits, calm⟩ := checks.branch split rfl
        have none_rejected := stands.1.rejected calm
        have drained := stands.2 (.inr ⟨split, rfl⟩)
        have explored : ∀ (e : Engine) (visited : Nat) (l : Literal), e.Ready h →
            (∃ atom, e.atoms.get? l.atom = some atom) →
            Explored h e l (search stop depth (e.enterBranch l) visited).leaveScope :=
          fun e visited l ready known => Searched.explored ready none_rejected known
            (ih visited (ready.push.unchanged.trans (ready.enterBranch known).evolves).ready)
        have sides := searched_sides first.ready splits calm drained explored (visited + 1)
        exact Searched.before ready first keeps none_rejected sides

/-- Deciding what was asserted by branching. -/
theorem searched_solve (selector : Selector) (stop : StopCondition) (ready : e.Ready h) :
    Searched h e (e.solve selector stop) := by
  have chosen : e.Becomes e.toState { e with selector := selector } := ⟨rfl, rfl⟩
  have searched := searched_search stop e.depthLimit 0 (ready.quiet chosen).ready
  exact ⟨(ready.quiet chosen).trans searched.evolves, searched.sat, searched.unsat⟩

end Engine

end ArithDecide
