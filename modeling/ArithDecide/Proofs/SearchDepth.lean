import Mathlib
import ArithDecide.Proofs.AlikeChecks
import ArithDecide.Proofs.Determining
import ArithDecide.Proofs.Narrowing
import ArithDecide.Proofs.Selectors
import ArithDecide.Proofs.Turns
import ArithDecide.Proofs.Unfolding

/-!
# What searches answer, and that those of bounded problems end

The answers of a search keep what the checks guarantee, through case splits of any depth:
`Session.solve_sound`.

The selector that names the smallest fractional variable names one that was there before the search, as
these variables determine those that cuts bring in. So each branch literal takes from the room that the
bounds leave to the variables that were there, and a search opens at most as many scopes within each
other as there is room at its root: `Node.ends`. `Session.solve_terminates` says this of whole sessions.
-/

namespace ArithDecide

namespace Session

variable {s : Session} {call : Call} {rest more : List Call} {depth : Nat}

/-- While the calls are made, at most so many scopes are open as long as no number of a scope comes
again. -/
def StaysBelow (s : Session) (calls : List Call) (depth : Nat) : Prop :=
  ∀ done, done <+: calls → (∀ earlier, earlier <+: done → (s.run earlier).engine.Numbered) →
    (s.run done).engine.depth ≤ depth

theorem staysBelow_of_numbered (below : s.engine.Numbered → s.StaysBelow rest depth) :
    s.StaysBelow rest depth :=
  fun done within numbered => below (numbered [] List.nil_prefix) done within numbered

theorem staysBelow_nil (here : s.engine.depth ≤ depth) : s.StaysBelow [] depth :=
  fun _ within _ => List.prefix_nil.1 within ▸ here

theorem staysBelow_cons (here : s.engine.depth ≤ depth)
    (below : (s.perform call).StaysBelow rest depth) : s.StaysBelow (call :: rest) depth := by
  intro done within numbered
  cases done with
  | nil => exact here
  | cons first others =>
    obtain ⟨rfl, inside⟩ := List.cons_prefix_cons.1 within
    exact below others inside fun earlier before =>
      numbered (_ :: earlier) (List.cons_prefix_cons.2 ⟨rfl, before⟩)

theorem StaysBelow.append (below : s.StaysBelow rest depth)
    (after : (s.run rest).engine.depth ≤ depth → (s.run rest).StaysBelow more depth) :
    s.StaysBelow (rest ++ more) depth := by
  intro done within numbered
  rcases List.prefix_or_prefix_of_prefix within (List.prefix_append rest more) with inside | onward
  · exact below done inside numbered
  · obtain ⟨others, rfl⟩ := onward
    rw [run_append]
    refine after (below rest List.prefix_rfl fun earlier before =>
      numbered earlier (before.trans (List.prefix_append rest others))) others
      ((List.prefix_append_right_inj rest).1 within) fun earlier before => ?_
    rw [← run_append]
    exact numbered (rest ++ earlier) ((List.prefix_append_right_inj rest).2 before)

end Session

namespace Engine

open State

variable {e next : Engine} {h : History} {l : Literal} {split : CaseSplit} {n r depth visited : Nat}
  {stop : StopCondition}

/-! ## The selector of a search -/

theorem selector_enterBranch (e : Engine) (l : Literal) : (e.enterBranch l).selector = e.selector := by
  rw [enterBranch]
  split
  · rename_i entered ok
    exact (strides_assertLiteral ok : Strides true e.push entered).asks.2
  · rfl

theorem scopesEntered_enterBranch (e : Engine) (l : Literal) :
    (e.enterBranch l).scopesEntered = e.scopesEntered + 1 := by
  rw [enterBranch]
  split
  · rename_i entered ok
    exact (strides_assertLiteral ok : Strides true e.push entered).scopesEntered
  · rfl

theorem selector_popScope (e : Engine) : e.popScope.selector = e.selector := by
  rw [popScope]
  split <;> rfl

/-- A search does not install another selector. -/
theorem selector_search (stop : StopCondition) (depth visited : Nat) (e : Engine) :
    (search stop depth e visited).engine.selector = e.selector := by
  induction depth generalizing visited e with
  | zero => rfl
  | succ depth ih =>
    rw [search]
    split
    · rfl
    · have asked := (strides_check e).asks.2
      generalize e.check = result at asked ⊢
      obtain ⟨checked, verdict⟩ := result
      cases verdict with
      | sat | unsat | unknown => exact asked
      | branch split =>
        let explore (e : Engine) (visited : Nat) (l : Literal) : SearchState :=
          (search stop depth (e.enterBranch l) visited).leaveScope
        have side (e : Engine) (visited : Nat) (l : Literal) :
            (explore e visited l).engine.selector = e.selector :=
          (selector_popScope _).trans ((ih visited _).trans (selector_enterBranch e l))
        show (searchSides explore checked (visited + 1) split).engine.selector = _
        rw [engine_searchSides]
        split
        · exact (side _ _ _).trans ((side _ _ _).trans asked)
        · exact (side _ _ _).trans asked

/-! ## Nodes -/

/-- The literal is about one of the first integer variables, and the active bounds do not entail it. -/
structure State.Opens (s : State) (n : Nat) (l : Literal) : Prop where
  known : ∃ atom, s.atoms.get? l.atom = some atom ∧ atom.var < n ∧ s.isInt atom.var = true
  unmet : ¬s.HonorsLiteral l

/-- A node of a search that names the smallest fractional variable: the first variables determine the
others, and if the check asks for a case split, its bounds leave them no more than the given room. -/
structure Node (n r : Nat) (h : History) (e : Engine) : Prop where
  ready : e.Ready h
  within : n ≤ e.numVars
  determined : e.Determined n
  selector : e.selector = .firstFractional
  spacious : ∀ split, e.check.2 = .branch split → e.check.1.Enclosed n ∧ e.check.1.room n ≤ r

/-- What a check of a node leaves that asks for a case split. That its literals are about the first
variables rests on the values. -/
structure Fork (n r : Nat) (h : History) (split : CaseSplit) (e : Engine) : Prop where
  ready : e.Ready h
  within : n ≤ e.numVars
  determined : e.Determined n
  selector : e.selector = .firstFractional
  calm : e.isInfeasible = false
  enclosed : e.Enclosed n
  room : e.room n ≤ r
  down : ∃ atom, e.atoms.get? split.down.atom = some atom
  up : ∃ atom, e.atoms.get? split.up.atom = some atom
  opens : e.Reliable → e.Opens n split.down ∧ e.Opens n split.up

/-- A node splits one of the first variables, which has room. -/
theorem Node.fork (node : Node n r h e) (branch : e.check.2 = .branch split) :
    Fork n r h split e.check.1 ∧ (e.check.1.Reliable → 0 < r) := by
  have inv := node.ready.invariant
  have checked := node.ready.check
  have founded := checked.ready.invariant.founded
  have answers := (checks_check inv).answers
  have numVars := (answers.keeps inv).numVars
  obtain ⟨splits, calm⟩ := (checks_check inv).branch split branch
  obtain ⟨patched, origin⟩ := splitIn_check inv branch
  have selected := origin.selected
  have determined := origin.steps.determined inv node.determined
  have feasible (reliable : e.check.1.Reliable) : patched.Feasible :=
    origin.feasible ((answers.reliable_iff inv).1 reliable)
  -- the smallest fractional variable is one of the first ones, as one of these is fractional
  have lt (reliable : e.check.1.Reliable) : split.var < n := by
    obtain ⟨c, chosen, at_split⟩ := selected.chosen
    obtain ⟨w, fractional, w_lt⟩ :=
      exists_fractional_lt determined (feasible reliable) selected.fractional
    have first := origin.selector.trans node.selector
    exact at_split ▸ Nat.lt_of_le_of_lt (chosen_of_firstFractional chosen first w fractional) w_lt
  have known {l : Literal} {kind : BoundKind} {threshold : Rat}
      (states : e.check.1.States l split.var kind threshold) :
      ∃ atom, e.check.1.atoms.get? l.atom = some atom := by
    obtain ⟨-, atom, found, -⟩ := states
    exact ⟨atom, found⟩
  have opens {l : Literal} {kind : BoundKind} {threshold : Rat} (reliable : e.check.1.Reliable)
      (states : e.check.1.States l split.var kind threshold) (unmet : ¬e.check.1.HonorsLiteral l) :
      e.check.1.Opens n l := by
    obtain ⟨-, atom, found, at_var, -⟩ := states
    exact ⟨⟨atom, found, at_var ▸ lt reliable, at_var ▸ selected.isInt⟩, unmet⟩
  obtain ⟨enclosed, room⟩ := node.spacious split branch
  refine ⟨
    { ready := checked.ready
      within := node.within.trans numVars
      determined := ?_
      selector := (strides_check e).asks.2.trans node.selector
      calm := calm
      enclosed := enclosed
      room := room
      down := known selected.down
      up := known selected.up
      opens := fun reliable => ⟨opens reliable selected.down (splits.down_open reliable),
        opens reliable selected.up (splits.up_open reliable)⟩ }, fun reliable => ?_⟩
  · obtain ⟨_, _, same⟩ := selected.same
    exact determined.congr (by rw [same]) fun α => by rw [same]; exact id
  · obtain ⟨below, above, next_to⟩ := InfRat.between_of_not_integer selected.not_integer
    obtain ⟨floor_allowed, ceil_allowed⟩ := permits_around founded.rounded selected.isInt
      (selected.within (feasible reliable)) below above next_to
    obtain ⟨l, u, spans⟩ := enclosed.spans founded (lt reliable) selected.isInt
    have lower := InfRat.ofRat_le.1 (spans.around floor_allowed.1).1
    have upper := InfRat.ofRat_le.1 (spans.around ceil_allowed.1).2
    have between := InfRat.ofRat_lt.1 (below.trans above)
    have less : l < u := by exact_mod_cast (lower.trans_lt between).trans_le upper
    exact (room_pos (lt reliable) selected.isInt spans less).trans_le room

/-- Where leaving a scope leads that was entered at a fork, everything is as it was that matters to it. -/
theorem Fork.returned (fork : Fork n r h split e) (ready : next.Ready h)
    (returns : e.toState.Returns next.toState) (selector : next.selector = e.selector) :
    Fork n r h split next := by
  have same := returns.resembles.same
  have narrows : e.Narrows next.toState := by
    rw [same]
    exact .of_eq rfl rfl
  have le := room_le narrows fork.ready.invariant.founded ready.invariant.founded fork.within
    fork.enclosed
  refine
    { ready := ready
      within := fork.within.trans narrows.numVars
      determined := ?_
      selector := selector.trans fork.selector
      calm := ?_
      enclosed := narrows.enclosed fork.within fork.enclosed
      room := le.trans fork.room
      down := ?_
      up := ?_
      opens := fun reliable => ?_ }
  · rw [same]
    exact fork.determined
  · rw [same]
    exact fork.calm
  · rw [same]
    exact fork.down
  · rw [same]
    exact fork.up
  · obtain ⟨down, up⟩ :=
      fork.opens (returns.reliable fork.ready.invariant.founded.formed reliable)
    rw [same]
    exact ⟨⟨down.known, down.unmet⟩, up.known, up.unmet⟩

/-- Each branch of a fork is a node with less room. -/
theorem Fork.node (fork : Fork n r h split e) (opens : e.Opens n l) :
    Node n (r - 1) (h.enter.assert l) (e.enterBranch l) := by
  obtain ⟨atom, found, lt, integer⟩ := opens.known
  obtain ⟨entered, ok⟩ := exists_assertLiteral (e := e.push) ⟨atom, found⟩
  have branched := fork.ready.enterBranch ⟨atom, found⟩
  have selector := (selector_enterBranch e l).trans fork.selector
  obtain ⟨-, columns, tableau, -, -, bounds⟩ := of_assertLiteral ok
  have is_entered : e.enterBranch l = entered := by rw [enterBranch, ok]
  rw [is_entered] at branched selector ⊢
  have ready := branched.evolves.ready
  have narrows : e.Narrows entered.toState := .of_eq columns bounds
  refine
    { ready := ready
      within := fork.within.trans narrows.numVars
      determined := fork.determined.congr columns fun α holds => ?_
      selector := selector
      spacious := fun split branch => ?_ }
  · rw [tableau] at holds
    exact holds
  · have checks := checks_check ready.invariant
    have keeps := checks.answers.keeps ready.invariant
    have calm := (checks.branch split branch).2
    obtain ⟨standing, drains⟩ := checks.standing ready.standing
    have later := narrows.trans keeps.narrows
    have founded := ready.check.ready.invariant.founded
    -- a rejected literal would have been a conflict
    have asserted : l ∈ (h.enter.assert l).asserted := by
      by_cases opposed : l.negate ∈ h.enter.asserted
      · have rejected := History.mem_rejected_assert.2 (.inr ⟨rfl, opposed⟩)
        rw [standing.rejected calm] at rejected
        cases rejected
      · exact History.mem_asserted_assert.2 (.inr ⟨rfl, opposed⟩)
    obtain ⟨now, found', covers⟩ := standing.honors calm (drains (.inr ⟨split, branch⟩))
      ((founded.registered.asserted l).2 asserted)
    obtain ⟨later_atom, found'', var_eq, kind_eq, threshold_eq⟩ :=
      (branched.grows.trans keeps.grows).atoms _ atom found
    obtain rfl := Option.some.inj (found'.symm.trans found'')
    have unmet : ¬e.bounds.Covers atom.var (atom.bound l.negative).1 (atom.bound l.negative).2 :=
      fun covered => opens.unmet ⟨atom, found, covered⟩
    have same : now.bound l.negative = atom.bound l.negative := by
      rw [Atom.bound, Atom.bound, kind_eq, threshold_eq]
    rw [var_eq, same] at covers
    have less := room_lt later fork.ready.invariant.founded founded fork.within fork.enclosed lt
      integer unmet covers
    exact ⟨later.enclosed fork.within fork.enclosed, Nat.le_sub_one_of_lt (less.trans_le fork.room)⟩

/-- Exploring a branch of a fork leads back to the fork. -/
theorem Fork.explored (stop : StopCondition) (depth visited : Nat) (fork : Fork n r h split e)
    (known : ∃ atom, e.atoms.get? l.atom = some atom) :
    Fork n r h split (search stop depth (e.enterBranch l) visited).leaveScope.engine ∧
      Evolves e (search stop depth (e.enterBranch l) visited).leaveScope.engine h := by
  have entered := (fork.ready.enterBranch known).evolves.ready
  have explored := Searched.explored fork.ready (fork.ready.standing.rejected fork.calm) known
    (searched_search stop depth visited entered)
  refine ⟨fork.returned explored.evolves.ready explored.returns ?_, explored.evolves⟩
  exact (selector_popScope _).trans ((selector_search _ _ _ _).trans (selector_enterBranch e l))

/-! ## Searches -/

/-- A search that, as long as no number of a scope comes again, ends with an answer and has at most so
many scopes open meanwhile. It enters at most so many scopes if there are numbers for them. -/
structure Ends (e : Engine) (most scopes : Nat) (result : SearchState) (calls : List Call) : Prop where
  answered : result.engine.Numbered → result.result ≠ .stopped
  below : ∀ s : Session, s.engine = e → s.StaysBelow calls most
  entered : e.scopesEntered + scopes < 2 ^ 32 → result.engine.scopesEntered ≤ e.scopesEntered + scopes

theorem answered_combine {down : Option Explanation} {up : SearchState}
    (answered : up.result ≠ .stopped) : (SearchState.combine split down up).result ≠ .stopped := by
  unfold SearchState.combine
  split
  · split
    · simp [SearchState.answer]
    · exact answered
  · split
    · simp [SearchState.answer]
    · exact answered
  · exact answered

/-- A split has an answer if its lower side does, and the upper one where it is explored. -/
theorem answered_searchSides {explore : Engine → Nat → Literal → SearchState}
    (lower : (explore e visited split.down).result ≠ .stopped)
    (upper : (explore e visited split.down).goesOn split = true →
      (explore (explore e visited split.down).engine (explore e visited split.down).visited
        split.up).result ≠ .stopped) : (searchSides explore e visited split).result ≠ .stopped := by
  rw [searchSides]
  rw [SearchState.goesOn] at upper
  generalize explore e visited split.down = down at lower upper ⊢
  cases verdict : down.result with
  | unsat refutation =>
    simp only [verdict] at upper ⊢
    split
    · rename_i mentioned
      exact answered_combine (upper mentioned)
    · exact lower
  | unknown =>
    simp only [verdict] at upper ⊢
    exact answered_combine (upper trivial)
  | sat model => exact lower
  | stopped => exact lower

/-- Exploring a branch opens one scope more than searching in it. -/
theorem Ends.side {most scopes : Nat} (ends : Ends (e.enterBranch l) most scopes
      (search stop depth (e.enterBranch l) visited)
      (searchCalls stop depth (e.enterBranch l) visited)) (room : e.depth < most) :
    Ends e most (scopes + 1) (search stop depth (e.enterBranch l) visited).leaveScope
      (sideCalls l (searchCalls stop depth (e.enterBranch l) visited)) := by
  have left : (search stop depth (e.enterBranch l) visited).leaveScope.engine.scopesEntered =
      (search stop depth (e.enterBranch l) visited).engine.scopesEntered := scopesEntered_popScope _
  have one_more := scopesEntered_enterBranch e l
  refine ⟨fun numbered => ends.answered (by rwa [State.Numbered, left] at numbered),
    fun s same => ?_, fun few => ?_⟩
  · have entered := s.engine_enterBranch l
    rw [same] at entered
    refine Session.staysBelow_cons (same ▸ room.le) (Session.staysBelow_cons ?_ ?_)
    · show s.engine.push.depth ≤ most
      rw [same]
      exact room
    · refine (ends.below _ entered).append fun le => Session.staysBelow_cons le
        (Session.staysBelow_nil ?_)
      rw [Session.engine_pop_one, depth_popScope]
      exact (Nat.sub_le _ _).trans le
  · have inner := ends.entered (by omega)
    omega

/-- A side of a fork that searches a node with less room stays within the room of the fork. -/
theorem Fork.side (fork : Fork n r h split e) (pos : 0 < r) (opens : e.Opens n l)
    (ends : Ends (e.enterBranch l) ((e.enterBranch l).depth + (r - 1)) (2 ^ (r - 1 + 1) - 2)
      (search stop depth (e.enterBranch l) visited)
      (searchCalls stop depth (e.enterBranch l) visited)) :
    Ends e (e.depth + r) (2 ^ r - 1) (search stop depth (e.enterBranch l) visited).leaveScope
      (sideCalls l (searchCalls stop depth (e.enterBranch l) visited)) := by
  have known : ∃ atom, e.atoms.get? l.atom = some atom := opens.known.imp fun _ found => found.1
  have deeper : (e.enterBranch l).depth = e.depth + 1 :=
    (fork.ready.enterBranch known).evolves.depth
  have most : (e.enterBranch l).depth + (r - 1) = e.depth + r := by omega
  have scopes : 2 ^ (r - 1 + 1) - 2 + 1 = 2 ^ r - 1 := by
    have two_le := Nat.pow_le_pow_right Nat.two_pos pos
    rw [Nat.sub_add_cancel pos]
    omega
  rw [most] at ends
  exact scopes ▸ ends.side (by omega)

/-- On the sides of a split a search does what it does on each of them, one after the other. -/
theorem ends_searchSides (explore : Engine → Nat → Literal → SearchState)
    (calls : Engine → Nat → Literal → List Call) {most scopes : Nat} :
    let down := explore e visited split.down
    let up := explore down.engine down.visited split.up
    e.scopesEntered ≤ down.engine.scopesEntered →
      down.engine.scopesEntered ≤ up.engine.scopesEntered → down.engine.depth ≤ most →
      (∀ s : Session, s.engine = e → (s.run (calls e visited split.down)).engine = down.engine) →
      (e.Numbered → Ends e most scopes down (calls e visited split.down)) →
      (down.engine.Numbered →
        Ends down.engine most scopes up (calls down.engine down.visited split.up)) →
      Ends e most (scopes + scopes) (searchSides explore e visited split)
        (calls e visited split.down ++
          if down.goesOn split then calls down.engine down.visited split.up else []) := by
  intro down up kept kept' level ran lower upper
  have sides := engine_searchSides explore e visited split
  refine ⟨fun numbered => ?_, fun s same => ?_, fun few => ?_⟩
  · rw [State.Numbered, sides] at numbered
    have lower_numbered : down.engine.Numbered := by
      split at numbered
      · exact kept'.trans_lt numbered
      · exact numbered
    refine answered_searchSides ((lower (kept.trans_lt lower_numbered)).answered lower_numbered)
      fun on => (upper lower_numbered).answered ?_
    rw [if_pos on] at numbered
    exact numbered
  · refine Session.staysBelow_of_numbered fun numbered =>
      ((lower (same ▸ numbered)).below s same).append fun _ =>
        Session.staysBelow_of_numbered fun later => ?_
    split
    · exact (upper (ran s same ▸ later)).below _ (ran s same)
    · exact Session.staysBelow_nil (ran s same ▸ level)
  · have few_numbers : e.Numbered := (Nat.le_add_right _ _).trans_lt few
    have first := (lower few_numbers).entered (by omega)
    have down_numbered : down.engine.Numbered :=
      first.trans_lt ((Nat.add_le_add_left (Nat.le_add_right _ _) _).trans_lt few)
    have second := (upper down_numbered).entered (by omega)
    rw [sides]
    split
    · show up.engine.scopesEntered ≤ _
      omega
    · show down.engine.scopesEntered ≤ _
      omega

/-- A search has at most as many scopes open as there is room, and more fuel than that is enough, as long
as no number of a scope comes again. The tree of scopes is binary, so none does if there are enough
numbers left for a tree of that depth. -/
theorem Node.ends (depth visited : Nat) (node : Node n r h e) (enough : r < depth) :
    Ends e (e.depth + r) (2 ^ (r + 1) - 2) (search .never depth e visited)
      (searchCalls .never depth e visited) := by
  induction depth generalizing r h e visited with
  | zero => exact absurd enough (Nat.not_lt_zero r)
  | succ depth ih =>
    have forks (split : CaseSplit) (branch : e.check.2 = .branch split) := node.fork branch
    have same_depth := node.ready.check.depth
    have same_entered := (checks_check node.ready.invariant).answers.scopesEntered
    rw [search, if_neg (show ¬StopCondition.never visited = true from Bool.false_ne_true)]
    rw [searchCalls, if_neg (show ¬StopCondition.never visited = true from Bool.false_ne_true)]
    have performed (s : Session) (same : s.engine = e) : (s.perform .check).engine = e.check.1 :=
      same ▸ rfl
    generalize e.check = result at forks same_depth same_entered performed ⊢
    obtain ⟨checked, verdict⟩ := result
    cases verdict with
    | sat | unsat | unknown =>
      refine ⟨fun _ same => ?_, fun s same => ?_,
        fun _ => same_entered.le.trans (Nat.le_add_right _ _)⟩
      · cases same
      · refine Session.staysBelow_cons (same ▸ Nat.le_add_right _ _) (Session.staysBelow_nil ?_)
        rw [performed s same]
        exact same_depth ▸ Nat.le_add_right _ _
    | branch split =>
      obtain ⟨fork, has_room⟩ := forks split rfl
      let explore (e : Engine) (visited : Nat) (l : Literal) : SearchState :=
        (search .never depth (e.enterBranch l) visited).leaveScope
      let calls (e : Engine) (visited : Nat) (l : Literal) : List Call :=
        sideCalls l (searchCalls .never depth (e.enterBranch l) visited)
      obtain ⟨fork', first⟩ := fork.explored .never depth (visited + 1) fork.down
      obtain ⟨-, second⟩ := fork'.explored .never depth
        (explore checked (visited + 1) split.down).visited fork'.up
      have side {b : Engine} (fork : Fork n r h split b) (level : b.depth = e.depth)
          (kept : checked.scopesEntered ≤ b.scopesEntered) (numbered : b.Numbered) {l : Literal}
          (opens : b.Opens n l) (visited : Nat) :
          Ends b (e.depth + r) (2 ^ r - 1) (explore b visited l) (calls b visited l) := by
        have pos := has_room (Numbered.reliable (kept.trans_lt numbered))
        exact level ▸ fork.side pos opens (ih visited (fork.node opens) (by omega))
      have sides : Ends checked (e.depth + r) (2 ^ r - 1 + (2 ^ r - 1))
          (searchSides explore checked (visited + 1) split) _ :=
        ends_searchSides explore calls first.inside.entered second.inside.entered
          ((first.depth.trans same_depth).le.trans (Nat.le_add_right _ _))
          (fun s same => same ▸ s.run_sideCalls split.down (visited + 1)
            (Session.run_searchCalls .never depth (visited + 1)))
          (fun numbered => side fork same_depth le_rfl numbered (fork.opens numbered.reliable).1 _)
          (fun numbered => side fork' (first.depth.trans same_depth) first.inside.entered numbered
            (fork'.opens numbered.reliable).2 _)
      have scopes : 2 ^ (r + 1) - 2 = 2 ^ r - 1 + (2 ^ r - 1) := by omega
      refine ⟨sides.answered, fun s same => ?_, fun few => ?_⟩
      · exact Session.staysBelow_cons (same ▸ Nat.le_add_right _ _)
          (sides.below _ (performed s same))
      · rw [scopes] at few ⊢
        exact same_entered ▸ sides.entered (same_entered ▸ few)

/-! ## The root -/

/-- A check that asks for a case split tightens the bounds of its first propagation. -/
theorem narrows_check (inv : e.Invariant h) (branch : e.check.2 = .branch split) :
    e.begun.propagate.1.Narrows e.check.1.toState := by
  obtain ⟨mid, patched, rounds, yes, moved, selects⟩ := selects_check inv branch
  have mid_inv := (rounds.steps_of_begun inv).invariant inv
  have begun_inv : e.begun.Invariant h := inv
  obtain ⟨first, later⟩ := rounds.propagated begun_inv yes
  have first_inv := (propagated_of_yes begun_inv first).steps.invariant begun_inv
  have steps : Steps h e.begun.propagate.1 patched := later.trans moved.steps
  have last : Steps h patched e.check.1 := by
    have asked := steps_selectBranch (steps.invariant first_inv)
    rwa [selects] at asked
  have all : Steps h e.begun.propagate.1 e.check.1 := steps.trans last
  exact (all.keeps first_inv).narrows

/-- So it does with the bounds that propagation finds before another selector is installed. -/
theorem narrows_check_selecting {s : Selector} (inv : e.Invariant h)
    (branch : (e.selecting s).check.2 = .branch split) :
    e.propagate.1.Narrows (e.selecting s).check.1.toState := by
  have alike : Alike Eq e.options e.options (e.selecting s) (e.selecting s).begun :=
    ⟨rfl, rfl, rfl, rfl, rfl, rfl, rfl, rfl, rfl, rfl, rfl, rfl, rfl, rfl, rfl, rfl, rfl⟩
  have begun := alike.propagate.engine
  obtain ⟨columns, bounds⟩ := propagate_selecting s e
  have first : e.propagate.1.Narrows (e.selecting s).begun.propagate.1.toState :=
    .of_eq (begun.columns.trans columns) (begun.bounds.trans bounds)
  exact first.trans (narrows_check (e := e.selecting s) inv branch)

/-- An engine whose integer variables are bounded after propagation is a node with the room that these
bounds leave. -/
theorem node_selecting (ready : e.Ready h) (enclosed : e.propagate.1.Enclosed e.numVars) :
    Node e.numVars (e.propagate.1.room e.numVars) h (e.selecting .firstFractional) := by
  have installed : Evolves e (e.selecting .firstFractional) h := ready.quiet ⟨rfl, rfl⟩
  have root_ready := installed.ready
  have within := ((answers_propagate ready.invariant).keeps ready.invariant).numVars
  have founded := ready.propagate.ready.invariant.founded
  refine ⟨root_ready, Nat.le_refl _, e.determined_numVars, rfl, fun split branch => ?_⟩
  have narrows := narrows_check_selecting ready.invariant branch
  have later := root_ready.check.ready.invariant.founded
  exact ⟨narrows.enclosed within enclosed, room_le narrows founded later within enclosed⟩

/-- The fuel of a search is more than the room. -/
theorem room_lt_depthLimit (le : n ≤ e.propagate.1.numVars) : e.propagate.1.room n < e.depthLimit := by
  have part : e.propagate.1.room n ≤ (e.propagate.1.vars.map e.propagate.1.width).sum :=
    ((List.range_sublist.2 le).map _).sum_le_sum fun _ _ => Nat.zero_le _
  rw [depthLimit, ← List.sum_eq_foldl]
  exact Nat.lt_of_le_of_lt part (Nat.lt_add_of_pos_left (by decide))

end Engine

namespace Session

open Engine State

/-! ## What a search answers -/

/-- Whatever the selector and the stop condition, as long as fewer than `2 ^ 32` scopes were entered, those
of the search included: when a search finds a model, it satisfies everything that was in force at the
start, if all unconditional bounds point the right way; and when it finds a refutation, no branch literal
is left in it and it is right about the start. The search always comes back to the depth at which it
started. -/
theorem solve_sound (options : Options) (calls : List Call) (selector : Selector)
    (stop : StopCondition) :
    let s := (start options).run calls
    let answer := s.engine.solve selector stop
    (answer.engine.Numbered →
      ((∀ g ∈ s.engine.given, g.Coherent) → ∀ model, answer.result = .sat model →
        s.engine.Meets s.history (assignmentOf model)) ∧
      (∀ x, answer.result = .unsat x → s.engine.RefutedBy s.history x)) ∧
      answer.engine.depth = s.engine.depth := by
  intro s answer
  have searched := searched_solve selector stop (ready_run options calls)
  exact ⟨fun numbered => ⟨searched.sat numbered.reliable, searched.unsat numbered.reliable⟩,
    searched.evolves.depth⟩

/-- Two integer variables whose weighted sum is asserted to be one. -/
def weighing : List Call :=
  [.mkVar .int .internal, .mkVar .int .internal, .mkLinear .int .internal [(0, 2), (1, 3)],
    .mkAtom 2 .lower 1, .mkAtom 2 .upper 1, .assertLiteral ⟨0, false⟩, .assertLiteral ⟨1, false⟩]

theorem solve_weighing :
    ((start {}).run weighing).engine.given = [] ∧
      (((start {}).run weighing).engine.solve .firstFractional .never).result = .sat [-1, 1, 1] ∧
      (((start {}).run weighing).engine.solve .firstFractional .never).engine.scopesEntered ≤ 2 := by
  rw [solve]
  obtain ⟨deeper, limit⟩ := exists_depthLimit ((start {}).run weighing).engine (n := 2) (by decide)
  rw [limit]
  refine ⟨by cbv, by cbv, by cbv⟩

/-- Each side of the case split is refuted by one of the literals and its own branch literal. -/
theorem solve_squeezed :
    (((start splitsOnly).run squeezed).engine.solve .firstFractional .never).result =
        .unsat ⟨[⟨0, true⟩, ⟨1, true⟩], []⟩ ∧
      (((start splitsOnly).run squeezed).engine.solve .firstFractional .never).engine.scopesEntered =
        2 := by
  rw [solve]
  obtain ⟨deeper, limit⟩ :=
    exists_depthLimit ((start splitsOnly).run squeezed).engine (n := 2) (by decide)
  rw [limit]
  refine ⟨by cbv, by cbv⟩

theorem solve_sound_squeezed :
    ((start {}).run weighing).engine.Meets ((start {}).run weighing).history
        (assignmentOf [-1, 1, 1]) ∧
      ((start splitsOnly).run squeezed).engine.RefutedBy
        ((start splitsOnly).run squeezed).history ⟨[⟨0, true⟩, ⟨1, true⟩], []⟩ := by
  have ⟨given, found, few⟩ := solve_weighing
  have ⟨refuted, two⟩ := solve_squeezed
  have ⟨sound, _⟩ := solve_sound {} weighing .firstFractional .never
  have ⟨sound', _⟩ := solve_sound splitsOnly squeezed .firstFractional .never
  refine ⟨(sound (few.trans_lt (by decide))).1 ?_ _ found,
    (sound' (.of_eq 2 two (by decide))).2 _ refuted⟩
  rw [given]
  nofun

/-! ## When a search ends -/

/-- Whatever calls were made and whatever the options, when every integer variable has bounds on both
sides after propagation, a search that takes the smallest fractional variable and is never stopped ends
with an answer, and never has more scopes open within each other than the bounds of these variables are
apart, all distances added up; both as long as fewer than `2 ^ 32` scopes were entered. A binary tree of
that depth bounds how many scopes the search enters, if there are numbers for so many. -/
theorem solve_terminates (options : Options) (calls : List Call) (l u : Var → InfRat) :
    let s := (start options).run calls
    let bounds := s.engine.propagate.1.bounds
    let answer := s.engine.solve .firstFractional .never
    let room := ((s.engine.vars.filter s.engine.isInt).map fun v => (u v).real - (l v).real).sum
    (∀ v, s.engine.isInt v = true →
        bounds.lowerValue v = some (l v) ∧ bounds.upperValue v = some (u v)) →
      (answer.engine.Numbered → (∃ model, answer.result = .sat model) ∨
        (∃ x, answer.result = .unsat x) ∨ answer.result = .unknown) ∧
      (∀ n : Nat, room ≤ n → s.engine.scopesEntered + (2 ^ (n + 1) - 2) < 2 ^ 32 →
        answer.engine.scopesEntered ≤ s.engine.scopesEntered + (2 ^ (n + 1) - 2)) ∧
      ∀ done, done <+: s.primitives (.solve .firstFractional .never) →
        (s.run done).engine.Numbered → ((s.run done).engine.depth : Rat) ≤ s.engine.depth + room := by
  intro s bounds answer room bounded
  have ready := ready_run options calls
  have keeps := (answers_propagate ready.invariant).keeps ready.invariant
  have later (v : Var) (lt : v < s.engine.numVars) (integer : s.engine.propagate.1.isInt v = true) :
      bounds.lowerValue v = some (l v) ∧ bounds.upperValue v = some (u v) :=
    bounded v ((keeps.isInt v lt).symm.trans integer)
  have enclosed := enclosed_of_values later
  have cast : (s.engine.propagate.1.room s.engine.numVars : Rat) = room := by
    rw [cast_room later ready.propagate.ready.invariant.founded]
    exact congrArg (fun vs => (List.map _ vs).sum)
      (List.filter_congr fun v member => keeps.isInt v (List.mem_range.1 member))
  have ends := (node_selecting ready enclosed).ends s.engine.depthLimit 0
    (room_lt_depthLimit keeps.numVars)
  refine ⟨fun numbered => ?_, fun n le few => ?_, fun done within numbered => ?_⟩
  · have answered : answer.result ≠ .stopped := ends.answered numbered
    cases found : answer.result with
    | sat model => exact .inl ⟨model, rfl⟩
    | unsat x => exact .inr (.inl ⟨x, rfl⟩)
    | unknown => exact .inr (.inr rfl)
    | stopped => exact absurd found answered
  · have fewer : 2 ^ (s.engine.propagate.1.room s.engine.numVars + 1) - 2 ≤ 2 ^ (n + 1) - 2 := by
      refine Nat.sub_le_sub_right (Nat.pow_le_pow_right Nat.two_pos (Nat.succ_le_succ ?_)) 2
      exact_mod_cast cast ▸ le
    have entered := ends.entered ((Nat.add_le_add_left fewer _).trans_lt few)
    exact entered.trans (Nat.add_le_add_left fewer _)
  · have below : s.StaysBelow (s.primitives (.solve .firstFractional .never))
        (s.engine.depth + s.engine.propagate.1.room s.engine.numVars) :=
      staysBelow_cons (Nat.le_add_right _ _)
        (ends.below (s.perform (.setSelector .firstFractional)) rfl)
    rw [← cast]
    refine mod_cast below done within fun earlier before => ?_
    obtain ⟨later, rfl⟩ := before
    have le := scopesEntered_run_le options (calls ++ earlier) later
    rw [List.append_assoc, run_append, run_append] at le
    exact le.trans_lt numbered

/-- An integer variable between zero and one, of which a row says that it lies strictly between a third
and two thirds. -/
def thirds : List Call :=
  [.mkVar .int .internal, .mkLinear .real .internal [(0, 3)], .assertGiven 0 .lower 0,
    .assertGiven 0 .upper ⟨1, 0⟩, .assertGiven 1 .lower ⟨1, 1⟩, .assertGiven 1 .upper ⟨2, -1⟩]

theorem run_thirds :
    ((start splitsOnly).run thirds).engine.depth = 0 ∧
      ((start splitsOnly).run thirds).engine.scopesEntered = 0 ∧
      ((start splitsOnly).run thirds).engine.columns = #[⟨.int, .internal⟩, ⟨.real, .internal⟩] ∧
      ((start splitsOnly).run thirds).engine.propagate.1.bounds.lowerValue 0 = some 0 ∧
      ((start splitsOnly).run thirds).engine.propagate.1.bounds.upperValue 0 = some ⟨1, 0⟩ := by
  refine ⟨by cbv, by cbv, by cbv, by cbv, by cbv⟩

theorem isInt_thirds {v : Var} :
    ((start splitsOnly).run thirds).engine.isInt v = true ↔ v = 0 := by
  obtain ⟨-, -, columns, -⟩ := run_thirds
  rw [State.isInt, State.sort, columns]
  rcases v with _ | _ | v <;> simp

theorem solve_terminates_thirds :
    (∀ v, ((start splitsOnly).run thirds).engine.isInt v = true →
      ((start splitsOnly).run thirds).engine.propagate.1.bounds.lowerValue v = some 0 ∧
        ((start splitsOnly).run thirds).engine.propagate.1.bounds.upperValue v = some ⟨1, 0⟩) ∧
    (((start splitsOnly).run thirds).engine.solve .firstFractional .never).result ≠ .stopped ∧
    (((start splitsOnly).run thirds).engine.solve .firstFractional .never).engine.scopesEntered ≤ 2 ∧
    ∀ done, done <+: ((start splitsOnly).run thirds).primitives (.solve .firstFractional .never) →
      (((start splitsOnly).run thirds).run done).engine.depth ≤ 1 := by
  obtain ⟨level, none_entered, columns, lower, upper⟩ := run_thirds
  have bounded (v : Var) (integer : ((start splitsOnly).run thirds).engine.isInt v = true) :
      ((start splitsOnly).run thirds).engine.propagate.1.bounds.lowerValue v = some 0 ∧
        ((start splitsOnly).run thirds).engine.propagate.1.bounds.upperValue v = some ⟨1, 0⟩ := by
    obtain rfl := isInt_thirds.1 integer
    exact ⟨lower, upper⟩
  have first : ((start splitsOnly).run thirds).engine.vars.filter
      ((start splitsOnly).run thirds).engine.isInt = [0] := by cbv
  have total : (([0] : List Var).map fun _ => (1 : Rat) - (0 : InfRat).real).sum = 1 := by
    simp
  obtain ⟨answered, few, below⟩ :=
    solve_terminates splitsOnly thirds (fun _ => 0) (fun _ => ⟨1, 0⟩) bounded
  rw [first, total] at few below
  have entered := few 1 (by norm_num) (by rw [none_entered]; decide)
  rw [none_entered] at entered
  have numbered := entered.trans_lt (show 2 < 2 ^ 32 by decide)
  refine ⟨bounded, ?_, entered, fun done within => ?_⟩
  · intro stopped
    have answered := answered numbered
    rw [stopped] at answered
    simp at answered
  · obtain ⟨later, whole⟩ := within
    have kept := scopesEntered_run_le splitsOnly (thirds ++ done) later
    rw [List.append_assoc, whole, run_append, run_append, run_primitives] at kept
    have le := below done ⟨later, whole⟩ (kept.trans_lt numbered)
    rw [level] at le
    exact_mod_cast le

end Session

end ArithDecide
