import ArithDecide.Proofs.Searching

/-!
# Sessions

A session is an engine together with what its caller has asserted in the open scopes. `Call` lists the
ways in which a caller can change the engine; a call that fails changes nothing. Whatever calls were
made, the engine is ready for more, and `Session.within_run` places it in a chain of scopes around the
point from which the calls started, as long as they do not leave the scope of that point.
-/

namespace ArithDecide

/-- A call of the engine by its user. -/
inductive Call where
  | mkVar (sort : NumSort) (term : Term)
  | setName (v : Var) (name : String)
  | addRow (base : Var) (entries : List (Var × Rat))
  | mkLinear (sort : NumSort) (term : Term) (entries : List (Var × Rat))
  | mkMonomial (factors : List Var)
  | mkAtom (v : Var) (kind : BoundKind) (threshold : Rat)
  | assertLiteral (l : Literal)
  | assertEq (v : Var) (value : Rat)
  | assertGiven (v : Var) (kind : BoundKind) (value : InfRat)
  | assertVarEq (left right : Var)
  | propagate
  | check
  | solve (selector : Selector) (stop : StopCondition)
  | nextPropagation
  | nextEquality
  | push
  | pop (count : Nat)
  | retractTo (m : Engine.Mark)
  | setSelector (selector : Selector)
  | setOracle (oracle : Oracle)
  | setTracer (tracer : Tracer)

/-- An engine, and what was asserted in its open scopes. -/
structure Session where
  engine : Engine
  history : History

namespace Session

/-- A new engine. -/
def start (options : Options) : Session := ⟨.new options, .start⟩

/-- The session after a call that may fail, given what is written down when it succeeds. -/
def attempt {α : Type} (s : Session) (result : Except EngineError α)
    (engine : α → Engine) (record : α → History → History) : Session :=
  match result with
  | .ok a => ⟨engine a, record a s.history⟩
  | .error _ => s

/-- The session after a call. -/
def perform (s : Session) : Call → Session
  | .mkVar sort term => { s with engine := (s.engine.mkVar sort term).1 }
  | .setName v name => s.attempt (s.engine.setName v name) id fun _ => id
  | .addRow base entries => s.attempt (s.engine.addRow base entries) Prod.fst fun _ => id
  | .mkLinear sort term entries =>
    s.attempt (s.engine.mkLinear sort term entries) Prod.fst fun _ => id
  | .mkMonomial factors => s.attempt (s.engine.mkMonomial factors) Prod.fst fun _ => id
  | .mkAtom v kind threshold => s.attempt (s.engine.mkAtom v kind threshold) Prod.fst fun _ => id
  | .assertLiteral l => s.attempt (s.engine.assertLiteral l) id fun _ h => h.assert l
  | .assertEq v value => s.attempt (s.engine.assertEq v value) Prod.fst fun (_, lower, upper) h =>
    (h.assert lower).assert upper
  | .assertGiven v kind value => s.attempt (s.engine.assertGiven v kind value) id fun _ => id
  | .assertVarEq left right => s.attempt (s.engine.assertVarEq left right) id fun _ h =>
    h.equate (.ordered left right)
  | .propagate => { s with engine := s.engine.propagate.1 }
  | .check => { s with engine := s.engine.check.1 }
  | .solve selector stop => { s with engine := (s.engine.solve selector stop).engine }
  | .nextPropagation => { s with engine := s.engine.nextPropagation.1 }
  | .nextEquality => { s with engine := s.engine.nextEquality.1 }
  | .push => ⟨s.engine.push, s.history.enter⟩
  | .pop count => s.attempt (s.engine.pop count) id fun _ h => h.drop count
  | .retractTo m => s.attempt (s.engine.retractTo m) id fun _ h => h.drop (s.engine.depth - m.depth)
  | .setSelector selector => { s with engine := { s.engine with selector := selector } }
  | .setOracle oracle => { s with engine := { s.engine with oracle := oracle } }
  | .setTracer tracer => { s with engine := { s.engine with tracer := tracer } }

/-- The session after some calls. -/
def run (s : Session) (calls : List Call) : Session := calls.foldl perform s

theorem run_append (s : Session) (before after : List Call) :
    s.run (before ++ after) = (s.run before).run after := List.foldl_append

/-- The calls leave no scope that was open before. -/
def StaysAbove (s : Session) (calls : List Call) (depth : Nat) : Prop :=
  ∀ done, done <+: calls → depth ≤ (s.run done).engine.depth

/-- The calls leave exactly those scopes that they entered. -/
structure Balanced (s : Session) (calls : List Call) : Prop where
  above : s.StaysAbove calls s.engine.depth
  level : (s.run calls).engine.depth = s.engine.depth

end Session

namespace Engine

open State

variable {e next base : Engine} {h outer : History}

/-! ## A new engine -/

/-- The empty state is founded on nothing. -/
theorem founded_empty : State.empty.Founded .start where
  formed :=
    { values_size := rfl
      tableau := Tableau.wellFormed_empty
      bounds := BoundStore.wellFormed_empty
      closed := DependencyArena.closed_empty
      recording := rfl
      entered := Nat.le_refl _
      passed := nofun }
  justified :=
    { supported := fun b member => by cases Array.mem_def.1 member
      integral := fun b member => by cases Array.mem_def.1 member
      anchored := fun _ _ _ b member => by cases Array.mem_def.1 member
      origin := fun b member => by cases Array.mem_def.1 member }
  registered :=
    { atom_lt := fun a atom found => by simp [State.empty, AtomRegistry.empty, AtomRegistry.get?] at found
      asserted := fun l => Iff.rfl
      assigned := nofun
      signed := fun a atom sign found => by
        simp [State.empty, AtomRegistry.empty, AtomRegistry.get?] at found
      pair_lt := nofun }
  multiplied := ⟨nofun, nofun, nofun, nofun⟩
  given_lt := nofun
  blamed := nofun

/-- A new engine is ready for calls. -/
theorem ready_new (options : Options) : (new options).Ready .start where
  invariant :=
    { founded := founded_empty
      patched := fun r row found => by simp [new, State.empty, Tableau.empty, Tableau.get?] at found
      assigned := fun _ =>
        { rows := fun r row found => by simp [new, State.empty, Tableau.empty, Tableau.get?] at found
          within := fun v lt => absurd lt (Nat.not_lt_zero v) } }
  standing := ⟨Nat.le_refl _, nofun, nofun, nofun, fun _ => rfl⟩
  stamped _ :=
    { sized := rfl
      bounded := fun v id stamp => by simp [new] at stamp
      current := Nat.le_refl _
      positive := fun is_open => absurd rfl is_open
      saved := fun is_open => absurd rfl is_open }
  announced := nofun
  awaited r row found := by simp [new, State.empty, Tableau.empty, Tableau.get?] at found

/-! ## Calls -/

theorem Ready.setName {v : Var} {name : String} (ready : e.Ready h)
    (ok : e.setName v name = .ok next) : Evolves e next h := by
  rw [Engine.setName] at ok
  obtain ⟨_, -, ok⟩ := bind_eq_ok ok
  obtain rfl := Except.ok.inj ok
  exact ready.quiet ⟨rfl, rfl⟩

/-- Scopes can be left as far as the one of the base. -/
theorem Within.pop {count : Nat} (within : Within base outer e h) (ok : e.pop count = .ok next)
    (above : base.depth ≤ next.depth) : Within base outer next (h.drop count) := by
  rw [Engine.pop] at ok
  split at ok
  · cases ok
  · rename_i enough
    obtain rfl := Except.ok.inj ok
    refine within.popScopes count ?_
    rw [depth_popScopes] at above
    omega

theorem Within.retractTo {m : Mark} (within : Within base outer e h)
    (ok : e.retractTo m = .ok next) (above : base.depth ≤ next.depth) :
    Within base outer next (h.drop (e.depth - m.depth)) := by
  rw [Engine.retractTo] at ok
  split at ok
  · cases ok
  · exact within.pop ok above

end Engine

namespace Session

open Engine State

variable {base s : Session} {outer : History}

/-- A call that fails stays where it was made. -/
theorem within_attempt {α : Type} {result : Except EngineError α} {engine : α → Engine}
    {record : α → History → History} (within : Within base.engine outer s.engine s.history)
    (above : base.engine.depth ≤ (s.attempt result engine record).engine.depth)
    (succeeded : ∀ a, result = .ok a → base.engine.depth ≤ (engine a).depth →
      Within base.engine outer (engine a) (record a s.history)) :
    Within base.engine outer (s.attempt result engine record).engine
      (s.attempt result engine record).history := by
  cases result with
  | ok a => exact succeeded a rfl above
  | error _ => exact within

/-- A call that leaves no scope which was open at the base stays within it. -/
theorem within_perform (within : Within base.engine outer s.engine s.history) (call : Call)
    (above : base.engine.depth ≤ (s.perform call).engine.depth) :
    Within base.engine outer (s.perform call).engine (s.perform call).history := by
  have ready := within.ready
  have recorded {next : Engine} {k : History} (evolves : Evolves s.engine next k)
      (tail : k.tail = s.history.tail) (nonempty : k ≠ []) :
      Within base.engine outer next k := by
    obtain ⟨frame, rest, rfl⟩ := List.exists_cons_of_ne_nil nonempty
    obtain rfl : rest = s.history.tail := tail
    exact within.evolves evolves
  have silent {next : Engine} (evolves : Evolves s.engine next s.history) :
      Within base.engine outer next s.history := recorded evolves rfl within.history_ne_nil
  cases call with
  | mkVar sort term => exact silent (ready.mkVar sort term)
  | setName v name => exact within_attempt within above fun next ok _ => silent (ready.setName ok)
  | addRow b entries =>
    exact within_attempt within above fun (next, _) ok _ => silent (ready.addRow ok).1
  | mkLinear sort term entries =>
    exact within_attempt within above fun (next, _) ok _ => silent (ready.mkLinear ok)
  | mkMonomial factors =>
    exact within_attempt within above fun (next, _) ok _ => silent (ready.mkMonomial ok)
  | mkAtom v kind threshold =>
    exact within_attempt within above fun (next, _) ok _ => silent (ready.mkAtom ok)
  | assertLiteral l =>
    exact within_attempt within above fun next ok _ =>
      recorded (ready.assertLiteral ok) (History.tail_assert _ _) (History.assert_ne_nil _ _)
  | assertEq v value =>
    exact within_attempt within above fun (next, _, _) ok _ =>
      recorded (ready.assertEq ok) (by rw [History.tail_assert, History.tail_assert])
        (History.assert_ne_nil _ _)
  | assertGiven v kind value =>
    exact within_attempt within above fun next ok _ => silent (ready.assertGiven ok)
  | assertVarEq left right =>
    exact within_attempt within above fun next ok _ =>
      recorded (ready.assertVarEq ok) (History.tail_equate _ _) (History.equate_ne_nil _ _)
  | propagate => exact silent ready.propagate
  | check => exact silent ready.check
  | solve selector stop => exact silent (searched_solve selector stop ready).evolves
  | nextPropagation =>
    exact silent (ready.requeue (fun _ => List.mem_of_mem_tail) ⟨rfl, rfl⟩)
  | nextEquality => exact silent (ready.requeue (fun _ => id) ⟨rfl, rfl⟩)
  | push => exact within.push
  | pop count => exact within_attempt within above fun next ok above => within.pop ok above
  | retractTo m => exact within_attempt within above fun next ok above => within.retractTo ok above
  | setSelector selector => exact silent (ready.quiet ⟨rfl, rfl⟩)
  | setOracle oracle => exact silent (ready.quiet ⟨rfl, rfl⟩)
  | setTracer tracer => exact silent (ready.quiet ⟨rfl, rfl⟩)

/-- Calls that leave no scope which was open at the base stay within it. -/
theorem within_run (calls : List Call) (within : Within base.engine outer s.engine s.history)
    (above : s.StaysAbove calls base.engine.depth) :
    Within base.engine outer (s.run calls).engine (s.run calls).history := by
  induction calls generalizing s with
  | nil => exact within
  | cons call rest ih =>
    refine ih (within_perform within call (above [call] (by simp))) fun done prefix_rest => ?_
    exact above (call :: done) (List.cons_prefix_cons.2 ⟨rfl, prefix_rest⟩)

/-- Whatever calls were made, the engine is ready for more. -/
theorem ready_run (options : Options) (calls : List Call) :
    ((start options).run calls).engine.Ready ((start options).run calls).history := by
  have within : Within (start options).engine [] (start options).engine (start options).history :=
    .here (ready_new options).unchanged
  exact (within_run calls within fun _ _ => Nat.zero_le _).ready

end Session

end ArithDecide
