import ArithDecide.Proofs.Sessions

/-!
# A search is a sequence of calls

A search does nothing that its caller could not do: it checks, and on each side of a case split that it
explores it enters a scope, asserts the branch literal, searches on and leaves the scope.
`Engine.searchCalls` lists these calls, and `Session.unfold` puts them in the place of every search, so
that what a session shows between two calls can be said of the nodes of a search too.
`Session.run_unfold` says that the engine ends up the same.
-/

namespace ArithDecide

/-- Whether a call searches. -/
def Call.isSearch : Call → Bool
  | .solve _ _ => true
  | _ => false

/-- Whether the lower side of a split, once explored, leaves the upper side to be explored. -/
def SearchState.goesOn (down : SearchState) (split : CaseSplit) : Bool :=
  match down.result with
  | .unsat refutation => refutation.contains split.down
  | .unknown => true
  | _ => false

namespace Engine

variable {stop : StopCondition} {depth visited : Nat}

/-- The calls that explore a side of a case split, given those of the search in its scope. -/
def sideCalls (l : Literal) (inner : List Call) : List Call :=
  .push :: .assertLiteral l :: (inner ++ [.pop 1])

/-- The calls that a search makes. -/
def searchCalls (stop : StopCondition) : Nat → Engine → Nat → List Call
  | 0, _, _ => []
  | depth + 1, e, visited =>
    if stop visited then []
    else
      let (checked, result) := e.check
      match result with
      | .branch split =>
        let side (e : Engine) (visited : Nat) (l : Literal) : List Call :=
          sideCalls l (searchCalls stop depth (e.enterBranch l) visited)
        let down := (search stop depth (checked.enterBranch split.down) (visited + 1)).leaveScope
        .check :: (side checked (visited + 1) split.down ++
          if down.goesOn split then side down.engine down.visited split.up else [])
      | _ => [.check]

/-- The sides of a split are explored as long as the lower one leaves that open. -/
theorem engine_searchSides (explore : Engine → Nat → Literal → SearchState) (e : Engine)
    (visited : Nat) (split : CaseSplit) :
    (searchSides explore e visited split).engine =
      if (explore e visited split.down).goesOn split then
        (explore (explore e visited split.down).engine (explore e visited split.down).visited
          split.up).engine
      else (explore e visited split.down).engine := by
  have combined (refutation : Option Explanation) (up : SearchState) :
      (SearchState.combine split refutation up).engine = up.engine := by
    unfold SearchState.combine
    split
    · split <;> rfl
    · split <;> rfl
    · rfl
  rw [searchSides, SearchState.goesOn]
  generalize explore e visited split.down = down
  cases down.result with
  | unsat refutation =>
    simp only
    split
    · exact combined _ _
    · rfl
  | unknown =>
    simp only [if_true]
    exact combined _ _
  | sat model =>
    rfl
  | stopped =>
    rfl

end Engine

namespace Session

open Engine

variable {stop : StopCondition} {depth visited : Nat}

/-! ## Sides of a split -/

theorem engine_enterBranch (s : Session) (l : Literal) :
    ((s.perform .push).perform (.assertLiteral l)).engine = s.engine.enterBranch l := by
  rw [enterBranch]
  show ((s.perform .push).attempt (s.engine.push.assertLiteral l) id _).engine = _
  cases s.engine.push.assertLiteral l with
  | ok next => rfl
  | error _ => rfl

theorem engine_pop_one (s : Session) : (s.perform (.pop 1)).engine = s.engine.popScope := by
  show (s.attempt (s.engine.pop 1) id _).engine = _
  rw [Engine.pop]
  split
  · rename_i none_open
    have closed : s.engine.scopes = [] := List.eq_nil_of_length_eq_zero (Nat.lt_one_iff.1 none_open)
    rw [popScope, closed]
    rfl
  · rfl

/-- The calls of a side explore it when the calls of a search do what the search does. -/
theorem run_sideCalls (s : Session) (l : Literal) (visited : Nat)
    (inner : ∀ s : Session, (s.run (searchCalls stop depth s.engine visited)).engine =
      (search stop depth s.engine visited).engine) :
    (s.run (sideCalls l (searchCalls stop depth (s.engine.enterBranch l) visited))).engine =
      (search stop depth (s.engine.enterBranch l) visited).leaveScope.engine := by
  have entered := engine_enterBranch s l
  generalize branched_eq : (s.perform .push).perform (.assertLiteral l) = branched at entered
  have same : s.run (sideCalls l (searchCalls stop depth (s.engine.enterBranch l) visited)) =
      (branched.run (searchCalls stop depth branched.engine visited)).perform (.pop 1) := by
    rw [sideCalls, ← entered, ← branched_eq]
    exact run_append _ _ [.pop 1]
  rw [same, engine_pop_one, inner branched, entered]
  rfl

/-! ## Searches -/

/-- The calls of a search do what the search does. -/
theorem run_searchCalls (stop : StopCondition) (depth visited : Nat) (s : Session) :
    (s.run (searchCalls stop depth s.engine visited)).engine =
      (search stop depth s.engine visited).engine := by
  induction depth generalizing visited s with
  | zero => rfl
  | succ depth ih =>
    rw [searchCalls, search]
    split
    · rfl
    · generalize checked_eq : s.engine.check = result
      obtain ⟨checked, verdict⟩ := result
      have performed : (s.perform .check).engine = checked := congrArg Prod.fst checked_eq
      cases verdict with
      | sat | unsat | unknown => exact performed
      | branch split =>
        let explore (e : Engine) (visited : Nat) (l : Literal) : SearchState :=
          (search stop depth (e.enterBranch l) visited).leaveScope
        have side (s : Session) (e : Engine) (same : s.engine = e) (visited : Nat) (l : Literal) :
            (s.run (sideCalls l (searchCalls stop depth (e.enterBranch l) visited))).engine =
              (explore e visited l).engine := same ▸ run_sideCalls s l visited (ih visited)
        show ((s.perform .check).run _).engine =
          (searchSides explore checked (visited + 1) split).engine
        subst performed
        rw [engine_searchSides, run_append]
        have lower := side (s.perform .check) _ rfl (visited + 1) split.down
        split
        · exact side _ _ lower _ _
        · exact lower

/-! ## Calls -/

theorem engine_attempt {α : Type} (s : Session) (result : Except EngineError α)
    (engine : α → Engine) (record : α → History → History) :
    (s.attempt result engine record).engine =
      match result with
      | .ok a => engine a
      | .error _ => s.engine := by
  cases result <;> rfl

/-- What a call makes of the engine depends on the engine only. -/
theorem engine_perform_congr {s t : Session} (same : t.engine = s.engine) (call : Call) :
    (t.perform call).engine = (s.perform call).engine := by
  cases call <;> simp only [perform, engine_attempt, same]

theorem engine_run_congr {s t : Session} (same : t.engine = s.engine) (calls : List Call) :
    (t.run calls).engine = (s.run calls).engine := by
  induction calls generalizing s t with
  | nil => exact same
  | cons call rest ih => exact ih (engine_perform_congr same call)

/-- The calls, none of them a search, that do what a call does. -/
def primitives (s : Session) : Call → List Call
  | .solve selector stop =>
    .setSelector selector ::
      searchCalls stop s.engine.depthLimit { s.engine with selector := selector } 0
  | call => [call]

/-- The calls, none of them a search, that do what some calls do. -/
def unfold (s : Session) : List Call → List Call
  | [] => []
  | call :: rest => s.primitives call ++ (s.perform call).unfold rest

theorem run_primitives (s : Session) (call : Call) :
    (s.run (s.primitives call)).engine = (s.perform call).engine := by
  cases call with
  | solve selector stop =>
    exact run_searchCalls stop s.engine.depthLimit 0 (s.perform (.setSelector selector))
  | _ => rfl

/-- The engine ends up the same when every search is replaced by the calls that it makes. -/
theorem run_unfold (s : Session) (calls : List Call) :
    (s.run (s.unfold calls)).engine = (s.run calls).engine := by
  induction calls generalizing s with
  | nil => rfl
  | cons call rest ih =>
    rw [unfold, run_append, engine_run_congr (run_primitives s call), ih]
    rfl

/-- A search makes no calls that search, by induction on the depth that is left. -/
theorem not_isSearch_of_mem_searchCalls {call : Call} {e : Engine}
    (made : call ∈ searchCalls stop depth e visited) : call.isSearch = false := by
  have side {l : Literal} {inner : List Call} (all : ∀ c ∈ inner, c.isSearch = false) :
      ∀ c ∈ sideCalls l inner, c.isSearch = false := by
    intro c member
    rw [sideCalls, List.mem_cons, List.mem_cons, List.mem_append, List.mem_singleton] at member
    rcases member with rfl | rfl | within | rfl
    · rfl
    · rfl
    · exact all c within
    · rfl
  induction depth generalizing e visited call with
  | zero => cases made
  | succ depth ih =>
    rw [searchCalls] at made
    split at made
    · cases made
    · simp only at made
      split at made
      · rcases List.mem_cons.1 made with rfl | made
        · rfl
        rcases List.mem_append.1 made with lower | upper
        · exact side (fun _ => ih) _ lower
        · split at upper
          · exact side (fun _ => ih) _ upper
          · cases upper
      · rw [List.mem_singleton.1 made]
        rfl

/-- No search is left. -/
theorem not_isSearch_of_mem_unfold {s : Session} {calls : List Call} {call : Call}
    (made : call ∈ s.unfold calls) : call.isSearch = false := by
  induction calls generalizing s with
  | nil => cases made
  | cons first rest ih =>
    rw [unfold, List.mem_append] at made
    rcases made with here | later
    · cases first with
      | solve selector stop =>
        rcases List.mem_cons.1 here with rfl | made
        · rfl
        · exact not_isSearch_of_mem_searchCalls made
      | _ =>
        rw [List.mem_singleton.1 here]
        rfl
    · exact ih later

end Session

end ArithDecide
