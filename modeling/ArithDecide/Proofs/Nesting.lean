import ArithDecide.Proofs.Fixing

/-!
# Scopes within scopes

Entering a scope leaves the engine ready, and leaving it leads back to the state in which it was
entered, settled, whatever happened inside. `Engine.Within` describes an engine that was reached from a
base by entering scopes and leaving only such as were entered later: it is a chain of enclosing
engines, one for each scope, each of which is where leaving its scope leads.
-/

namespace ArithDecide.Engine

open State

variable {e next base : Engine} {s t : State} {h k outer : History} {frame : Frame} {n : Nat}

/-! ## Entering -/

theorem push_toState (e : Engine) : e.push.toState = e.toState.enter := rfl

theorem reliable_of_enter (reliable : s.enter.Reliable) : s.Reliable := by
  rcases reliable with numbered | open_only
  · exact .inl (Nat.lt_of_succ_lt numbered)
  · exact .inr (Nat.succ.inj open_only)

theorem grows_enter (s : State) : s.Grows s.enter :=
  { Grows.refl s with
    solves := fun _ solves => { solves with rows := solves.rows }
    reliable := reliable_of_enter }

/-- Entering a scope keeps the state formed; the new scope has marks of what there is. -/
theorem formed_enter (formed : s.Formed) : s.enter.Formed where
  values_size := formed.values_size
  tableau := ⟨formed.tableau.distinct, formed.tableau.separate, formed.tableau.base_lt,
    formed.tableau.var_lt⟩
  bounds := formed.bounds
  closed := formed.closed
  recording := rfl
  entered := Nat.succ_le_succ formed.entered
  passed scope outer same := by
    obtain ⟨rfl, rfl⟩ := List.cons.inj (show s.scope :: s.scopes = scope :: outer from same)
    exact
      { numVars := Nat.le_refl _
        tableau := Nat.le_refl _
        bounds := ⟨Nat.le_refl _, Nat.le_refl _⟩
        atoms := ⟨Nat.le_refl _, Nat.le_refl _, Nat.le_refl _⟩
        dependencies := Nat.le_refl _
        valueTrail := Nat.le_refl _
        monomials := Nat.le_refl _
        given := Nat.le_refl _
        reported := Nat.le_refl _ }

/-- Entering a scope keeps the invariant, for what is in force outside. -/
theorem invariant_enter (inv : s.Invariant h) : s.enter.Invariant h.enter where
  founded :=
    have founded := inv.founded
    have grows := grows_enter s
    { formed := formed_enter founded.formed
      justified := founded.justified.grow founded.formed.closed grows rfl (fun _ _ => rfl)
        (fun _ holds => holds) (fun _ => id) fun _ => id
      registered := { founded.registered with }
      multiplied := { founded.multiplied with }
      given_lt := founded.given_lt
      blamed := fun d failed => grows.blames (h := h) founded.formed.closed (fun _ => id)
        (fun _ => id) (founded.blamed d failed) }
  patched := inv.patched
  assigned reliable :=
    have assigned := inv.assigned (reliable_of_enter reliable)
    ⟨assigned.rows, assigned.within⟩

theorem Standing.of_retains_same (standing : s.Standing h) {t : State} (retains : s.Retains t)
    (atoms : t.atoms = s.atoms) (given : t.given = s.given) (equated : k.equated = h.equated)
    (rejected : k.rejected = h.rejected) : t.Standing k :=
  standing.retained retains (by rw [atoms]) (by rw [atoms]) (fun _ _ member => .inl (equated ▸ member))
    (fun _ _ member => .inl (given ▸ member)) fun _ => rejected

/-- Entering a scope leaves the engine ready. -/
theorem Ready.push (ready : e.Ready h) : e.push.Ready h.enter where
  invariant := invariant_enter ready.invariant
  standing := by
    refine Standing.of_retains_same ready.standing ?_ rfl rfl rfl rfl
    exact ⟨Nat.le_refl _, fun _ atom found => ⟨atom, found, rfl, rfl, rfl⟩,
      fun _ _ _ covered => covered, fun _ holds => holds, fun infeasible => infeasible⟩
  stamped numbered :=
    have fresh : e.push.scopeId = e.scopesEntered + 1 := Nat.mod_eq_of_lt numbered
    have stamped := ready.stamped (Nat.lt_of_succ_lt numbered)
    { sized := stamped.sized
      bounded := fun v id stamp => (stamped.bounded v id stamp).trans (Nat.le_succ _)
      current := Nat.le_of_eq fresh
      positive := fun _ => fresh ▸ Nat.succ_pos _
      saved := fun _ v stamp => by
        rw [fresh] at stamp
        exact absurd (stamped.bounded v _ stamp) (Nat.not_succ_le_self _) }
  announced p waits :=
    (grows_enter e.toState).announces (h := h) (fun _ => id) (ready.announced p waits)
  awaited := ready.awaited

/-! ## Leaving -/

/-- Every base waits to be patched once the state is settled. -/
theorem mem_bases {s : State} {n : Nat} (well : s.tableau.WellFormed n) (numVars : n = s.numVars)
    {r : RowId} {row : Row} (found : s.tableau.get? r = some row) : row.base ∈ s.bases := by
  refine List.mem_filter.2 ⟨List.mem_range.2 (numVars ▸ well.base_lt found), ?_⟩
  rw [decide_eq_true_eq]
  exact fun free => Tableau.kind_eq_nonBase_iff.1 free r row found rfl

/-- The second state is where leaving a scope leads that was entered in the first one: nothing waits any
more, more scopes were entered, and the values are the same as long as no number of a scope came
again. -/
structure State.Returns (s t : State) : Prop where
  resembles : s.settle.Resembles t
  later : s.scopesEntered < t.scopesEntered
  values : t.Numbered → t.values = s.values

theorem State.Returns.same (returns : s.Returns t) (numbered : t.Numbered) :
    t = { s.settle with scopesEntered := t.scopesEntered } := by
  have same := returns.resembles.same
  rw [returns.values numbered] at same
  exact same

theorem State.Returns.trans {u : State} (first : s.Returns t) (second : t.Returns u) : s.Returns u where
  resembles := first.resembles.settle.trans second.resembles
  later := first.later.trans second.later
  values numbered :=
    (second.values numbered).trans (first.values (second.later.trans numbered))

/-- Once a scope was left, values can be relied on only while its number has not come again. -/
theorem State.Returns.numbered (returns : s.Returns t) (formed : s.Formed) (reliable : t.Reliable) :
    t.Numbered := by
  refine reliable.resolve_right fun open_only => ?_
  have depth : t.depth = s.depth := by
    rw [returns.resembles.same]
    rfl
  have entered := formed.entered
  have later := returns.later
  omega

theorem State.Returns.reliable (returns : s.Returns t) (formed : s.Formed) (reliable : t.Reliable) :
    s.Reliable :=
  .inl (returns.later.trans (returns.numbered formed reliable))

theorem State.Returns.grows (returns : s.Returns t) (formed : s.Formed) : s.Grows t := by
  have reliable := returns.reliable formed
  rw [returns.resembles.same] at reliable ⊢
  exact .of_eq rfl rfl rfl rfl (.refl _) (fun _ atom found => ⟨atom, found, rfl, rfl, rfl⟩)
    (fun _ => id) reliable

theorem State.Returns.formed (returns : s.Returns t) (formed : s.Formed) : t.Formed := by
  have size := returns.resembles.size
  have later := returns.later
  rw [returns.resembles.same]
  exact
    { formed with
      values_size := size.trans formed.values_size
      entered := formed.entered.trans (Nat.le_of_lt later)
      passed := fun scope outer is_open => { formed.passed scope outer is_open with } }

theorem State.Returns.founded (returns : s.Returns t) (founded : s.Founded h) : t.Founded h := by
  have formed := returns.formed founded.formed
  have reliable := returns.reliable founded.formed
  rw [returns.resembles.same] at formed reliable ⊢
  exact founded.of_same formed rfl rfl rfl rfl (.refl _) rfl rfl rfl reliable founded.blamed

theorem State.Returns.invariant (returns : s.Returns t) (inv : s.Invariant h) : t.Invariant h where
  founded := returns.founded inv.founded
  patched := by
    rw [returns.resembles.same]
    exact fun _ _ found _ _ => .inr (mem_bases inv.founded.formed.tableau rfl found)
  assigned reliable := by
    have formed := inv.founded.formed
    rw [returns.same (returns.numbered formed reliable)]
    exact (inv.assigned (returns.reliable formed reliable)).congr rfl rfl rfl fun _ _ => rfl

theorem State.Returns.retains (returns : s.Returns t) : s.Retains t := by
  rw [returns.resembles.same]
  exact ⟨Nat.le_refl _, fun _ atom found => ⟨atom, found, rfl, rfl, rfl⟩,
    fun _ _ _ covered => covered, fun _ holds => holds, fun infeasible => infeasible⟩

theorem State.Returns.standing (returns : s.Returns t) (standing : s.Standing h) : t.Standing h := by
  have same := returns.resembles.same
  exact Standing.of_retains_same standing returns.retains (by rw [same]; rfl) (by rw [same]; rfl) rfl rfl

theorem State.Returns.awaited (returns : s.Returns t) (formed : s.Formed) : t.Awaited := by
  rw [returns.resembles.same]
  exact fun _ _ found _ _ => mem_bases formed.tableau rfl found

theorem toState_popScope (e : Engine) : e.popScope.toState = e.toState.leave := by
  cases is_open : e.scopes with
  | nil => rw [popScope, State.leave, is_open]
  | cons scope outer =>
    rw [popScope]
    simp only [is_open]
    rfl

theorem scopesEntered_popScope (e : Engine) : e.popScope.scopesEntered = e.scopesEntered := by
  rw [popScope]
  split
  · rfl
  · rename_i is_open
    show e.toState.leave.scopesEntered = e.scopesEntered
    rw [leave_of_open is_open]
    rfl

theorem scopesEntered_popScopes (count : Nat) (e : Engine) :
    (popScopes count e).scopesEntered = e.scopesEntered := by
  induction count generalizing e with
  | zero => rfl
  | succ count ih => rw [popScopes, ih, scopesEntered_popScope]

theorem settle_rewind_push (formed : e.Formed) :
    (e.push.toState.rewind e.toState.scope e.scopes).settle =
      { e.toState.settle with scopesEntered := e.scopesEntered + 1 } :=
  (leave_of_open rfl).symm.trans (leave_enter formed)

/-- Leaving a scope leads back to where it was entered. -/
theorem resembles_popScope (formed : e.Formed) (inside : e.push.Inside next) :
    e.toState.settle.Resembles next.popScope.toState := by
  have is_open : next.scopes = e.toState.scope :: e.scopes := inside.scopes
  have entered : e.toState.settle.Resembles (e.push.toState.rewind e.toState.scope e.scopes).settle := by
    rw [settle_rewind_push formed]
    exact ⟨rfl, rfl⟩
  rw [toState_popScope, leave_of_open is_open]
  exact entered.trans (inside.leaves _ _ rfl)

/-- The values are given back while numbers of scopes do not come again. -/
theorem values_popScope (formed : e.Formed) (inside : e.push.Inside next) (numbered : next.Numbered)
    (stamped : e.push.Stamped) : next.popScope.values = e.values := by
  have is_open : next.scopes = e.toState.scope :: e.scopes := inside.scopes
  rw [toState_popScope, leave_of_open is_open]
  have entered := congrArg State.values (settle_rewind_push formed)
  exact (inside.values numbered stamped _ _ rfl).trans entered

theorem Ready.returns (ready : e.Ready h) (inside : e.push.Inside next) :
    e.toState.Returns next.popScope.toState where
  resembles := resembles_popScope ready.invariant.founded.formed inside
  later := by
    rw [scopesEntered_popScope]
    exact inside.entered
  values numbered := by
    rw [State.Numbered, scopesEntered_popScope] at numbered
    exact values_popScope ready.invariant.founded.formed inside numbered
      (ready.push.stamped (inside.numbered numbered))

theorem valueStamps_popScope (inside : e.push.Inside next) :
    next.popScope.valueStamps = next.valueStamps.take e.numVars := by
  have is_open : next.scopes = e.toState.scope :: e.scopes := inside.scopes
  rw [popScope]
  simp only [is_open]
  rfl

theorem depth_popScope (e : Engine) : e.popScope.depth = e.depth - 1 := by
  rw [popScope]
  split
  · rename_i closed
    rw [State.depth, closed]
    rfl
  · rename_i scope outer is_open
    show e.toState.leave.scopes.length = e.scopes.length - 1
    rw [leave_of_open is_open, is_open]
    rfl

theorem depth_popScopes (count : Nat) (e : Engine) :
    (popScopes count e).depth = e.depth - count := by
  induction count generalizing e with
  | zero => rfl
  | succ count ih => rw [popScopes, ih, depth_popScope, Nat.sub_sub, Nat.add_comm]

/-- Entering a scope and leaving it again does not leave the scope around it. -/
theorem inside_popScope (ready : e.Ready h) (next_formed : next.Formed)
    (inside : e.push.Inside next) : e.Inside next.popScope := by
  have numVars : e.numVars ≤ next.numVars := (next_formed.passed _ _ inside.scopes).numVars
  have returns := ready.returns inside
  have same := returns.resembles.same
  have entered : e.scopesEntered + 1 ≤ next.scopesEntered := inside.entered
  refine
    { scopes := by rw [same]; rfl
      scopeId := by rw [same]; rfl
      entered := Nat.le_of_lt returns.later
      leaves := fun scope outer _ => ?_
      values := fun numbered _ scope outer _ => by rw [returns.same numbered]; rfl
      trail := by rw [same]; exact Nat.le_refl _
      saved := fun v saved => by rw [same]; exact saved
      sized := fun sized => ?_
      stamps := fun numbered v id stamp => ?_ }
  · have settled : e.Rewinds e.toState.settle scope := { State.Rewinds.refl e.toState scope with }
    have left := (returns.resembles.rewinds scope).settle outer
    exact (settled.settle outer).trans left
  · have next_sized : next.valueStamps.size = next.numVars := inside.sized sized
    rw [valueStamps_popScope inside, same, Array.take_eq_extract, Array.size_extract, next_sized,
      Nat.min_eq_left numVars, Nat.sub_zero]
    rfl
  · rw [State.Numbered, scopesEntered_popScope] at numbered
    rw [valueStamps_popScope inside] at stamp
    have stamp : next.valueStamps[v]? = some id := by
      rw [getElem?_take] at stamp
      split at stamp
      · exact stamp
      · cases stamp
    have fresh : e.push.scopeId = e.scopesEntered + 1 :=
      Nat.mod_eq_of_lt (inside.numbered numbered)
    rw [scopesEntered_popScope]
    rcases inside.stamps numbered v id stamp with before | zero | ⟨same, -⟩ | ⟨above, below⟩
    · exact .inl before
    · exact .inr (.inl zero)
    · rw [fresh] at same
      exact .inr (.inr (.inr (by omega)))
    · have above : e.scopesEntered + 1 < id := above
      exact .inr (.inr (.inr (by omega)))

/-- What happens between entering a scope and leaving it again happens inside the scope around it. -/
theorem Ready.leave (ready : e.Ready h) (evolves : Evolves e.push next k) :
    Evolves e next.popScope h := by
  have formed := ready.invariant.founded.formed
  have returns := ready.returns evolves.inside
  have inside := inside_popScope ready evolves.ready.invariant.founded.formed evolves.inside
  refine ready.evolves inside (returns.grows formed) (returns.invariant ready.invariant)
    (returns.standing ready.standing) (fun _ => id) (fun p waits => ?_) (returns.awaited formed)
  rw [returns.resembles.same] at waits
  cases waits

/-! ## Chains of scopes -/

/-- Reached from the base by entering scopes and leaving only such as were entered later; `outer` is
what was asserted around the scope of the base. -/
inductive Within (base : Engine) (outer : History) : Engine → History → Prop
  | here {e : Engine} {frame : Frame} (evolves : Evolves base e (frame :: outer)) :
    Within base outer e (frame :: outer)
  | deeper {enclosing e : Engine} {k : History} {frame : Frame} (around : Within base outer enclosing k)
    (evolves : Evolves enclosing.push e (frame :: k)) : Within base outer e (frame :: k)

theorem Within.ready (within : Within base outer e h) : e.Ready h := by
  cases within with
  | here evolves => exact evolves.ready
  | deeper around evolves => exact evolves.ready

theorem Within.history_ne_nil (within : Within base outer e h) : h ≠ [] := by
  cases within with
  | here evolves => exact List.cons_ne_nil _ _
  | deeper around evolves => exact List.cons_ne_nil _ _

theorem Evolves.depth (evolves : Evolves e next h) : next.depth = e.depth :=
  congrArg List.length evolves.inside.scopes

/-- No scope around the base was left, and without new scopes only the scope of the base changed. -/
theorem Within.depth (within : Within base outer e h) :
    (e.depth = base.depth ∧ Evolves base e h ∧ h.tail = outer) ∨ base.depth < e.depth := by
  induction within with
  | here evolves => exact .inl ⟨evolves.depth, evolves, rfl⟩
  | deeper around evolves ih =>
    refine .inr (evolves.depth ▸ Nat.lt_succ_of_le ?_)
    exact ih.elim (fun same => Nat.le_of_eq same.1.symm) Nat.le_of_lt

/-- What leaves no scope stays within. -/
theorem Within.evolves (within : Within base outer e h) (evolves : Evolves e next (frame :: h.tail)) :
    Within base outer next (frame :: h.tail) := by
  cases within with
  | here before => exact .here (before.trans evolves)
  | deeper around before => exact .deeper around (before.trans evolves)

theorem Within.push (within : Within base outer e h) : Within base outer e.push h.enter :=
  .deeper within within.ready.push.unchanged

/-- Leaving a scope that was entered since the base stays within. -/
theorem Within.popScope (within : Within base outer e h) (deep : base.depth < e.depth) :
    Within base outer e.popScope h.tail := by
  cases within with
  | here evolves => exact absurd deep (by rw [evolves.depth]; exact Nat.lt_irrefl _)
  | @deeper enclosing _ k frame around evolves =>
    have left := around.ready.leave evolves
    cases around with
    | here before => exact .here (before.trans left)
    | deeper further before => exact .deeper further (before.trans left)

theorem Within.popScopes (count : Nat) (within : Within base outer e h)
    (deep : base.depth + count ≤ e.depth) :
    Within base outer (popScopes count e) (h.drop count) := by
  induction count generalizing e h with
  | zero => exact within
  | succ count ih =>
    have left := within.popScope (by omega)
    have shallower := depth_popScope e
    rw [Engine.popScopes, ← List.drop_tail]
    exact ih left (by omega)

end ArithDecide.Engine
