import ArithDecide.Proofs.Refusals
import ArithDecide.Proofs.Turns

/-!
# Sessions leave the engine in order

Whatever is posed keeps the order of `State.Orderly`, and so does leaving scopes: a scope is left to the
state in which it was entered, settled, and settled bases wait in increasing order. Along a session the
states behind the open scopes are carried along: `State.OrderlyBehind` says that leaving any number of
scopes leads to a state in order.
-/

namespace ArithDecide

namespace Engine

open State

variable {e next : Engine} {h : History} {v : Var} {l : Literal}

/-! ## Posing -/

theorem orderly_declareChecking (orderly : e.Orderly) : e.declareChecking.Orderly := by
  rw [declareChecking]
  split
  · exact orderly.congr rfl rfl rfl rfl id
  · exact orderly

/-- A new row makes its base wait in its place, and integer variables that head no row keep their
values. -/
theorem orderly_placeRow {base : Var} {form : LinearForm} (orderly : e.Orderly)
    (fresh : e.tableau.isFresh base = true) (own : form.coeff base = 0) (base_lt : base < e.numVars)
    (var_lt : ∀ v, form.coeff v ≠ 0 → v < e.numVars) : (e.placeRow base form).1.Orderly := by
  have added := orderly_pushRow orderly fresh own base_lt var_lt
  have pending : (e.pushRow base form).1.kind base = .pendingBase := kind_addRow added.tableau
  have valued : (if e.options.eagerNormalization then (e.pushRow base form).1.normalizeRow e.numRows
      else (e.pushRow base form).1.setValue base ((e.pushRow base form).1.value base)).Orderly := by
    split
    · exact orderly_normalizeRow added _
    · exact orderly_setBase added (by simp [pending])
  rw [placeRow]
  simp only [show (e.pushRow base form).2 = e.numRows from rfl]
  generalize (if e.options.eagerNormalization = true then (e.pushRow base form).1.normalizeRow e.numRows
    else (e.pushRow base form).1.setValue base ((e.pushRow base form).1.value base)) = next
    at valued ⊢
  have marked : ({ next.markToPatch base with
      touched := SortedSet.insert e.numRows next.touched } : Engine).Orderly :=
    (orderly_markToPatch valued base).congr rfl rfl rfl rfl id
  exact orderly_trace (orderly_declareChecking marked) _ _

theorem orderly_setName {name : String} (orderly : e.Orderly) (ok : e.setName v name = .ok next) :
    next.Orderly := by
  rw [Engine.setName] at ok
  obtain ⟨_, -, ok⟩ := bind_eq_ok ok
  obtain rfl := Except.ok.inj ok
  exact orderly.congr rfl rfl rfl rfl id

theorem orderly_addRow {base : Var} {entries : List (Var × Rat)} {r : RowId} (orderly : e.Orderly)
    (ok : e.addRow base entries = .ok (next, r)) : next.Orderly := by
  obtain ⟨row, placed⟩ := of_addRow ok
  have occurs {v : Var} (nonzero : (LinearForm.ofEntries entries).coeff v ≠ 0) :
      v < e.numVars ∧ v ≠ base := by
    obtain ⟨t, member, rfl⟩ := LinearForm.mem_of_coeff_ofEntries nonzero
    exact row.entries_lt t member
  have result : (e.placeRow base (.ofEntries entries)).1.Orderly := orderly_placeRow orderly row.fresh
    (not_not.1 fun nonzero => (occurs nonzero).2 rfl) row.lt fun v nonzero => (occurs nonzero).1
  rwa [placed] at result

theorem orderly_mkLinear {sort : NumSort} {term : Term} {entries : List (Var × Rat)}
    (orderly : e.Orderly) (ok : e.mkLinear sort term entries = .ok (next, v)) : next.Orderly := by
  rw [Engine.mkLinear] at ok
  obtain ⟨-, -, ok⟩ := bind_eq_ok ok
  obtain ⟨⟨withRow, r⟩, added, ok⟩ := bind_eq_ok ok
  obtain ⟨rfl, -⟩ := Prod.mk.inj (Except.ok.inj ok)
  exact orderly_addRow (orderly_mkVar orderly sort term) added

theorem orderly_mkMonomial {factors : List Var} (orderly : e.Orderly)
    (ok : e.mkMonomial factors = .ok (next, v)) : next.Orderly := by
  obtain ⟨-, -, ⟨rfl, -⟩ | placed⟩ := of_mkMonomial ok
  · exact orderly
  · obtain rfl := congrArg Prod.fst placed
    exact (orderly_mkVar orderly _ .internal).congr rfl rfl rfl rfl id

theorem orderly_mkAtom {kind : BoundKind} {threshold : Rat} (orderly : e.Orderly)
    (ok : e.mkAtom v kind threshold = .ok (next, l)) : next.Orderly := by
  rw [Engine.mkAtom] at ok
  obtain ⟨_, -, ok⟩ := bind_eq_ok ok
  have made : (e.internAtom v kind threshold).1 = next := congrArg Prod.fst (Except.ok.inj ok)
  exact made ▸ orderly_internAtom orderly v kind threshold

theorem orderly_assertLiteral (orderly : e.Orderly) (ok : e.assertLiteral l = .ok next) :
    next.Orderly := by
  rw [Engine.assertLiteral] at ok
  split at ok
  · cases ok
  · split at ok
    · obtain rfl := Except.ok.inj ok
      exact orderly.congr rfl rfl rfl rfl id
    · obtain rfl := Except.ok.inj ok
      exact orderly
    · obtain rfl := Except.ok.inj ok
      refine orderly_setConflict ?_ _
      exact orderly.congr rfl rfl rfl rfl id

theorem orderly_assertEq {value : Rat} {lower upper : Literal} (orderly : e.Orderly)
    (ok : e.assertEq v value = .ok (next, lower, upper)) : next.Orderly := by
  rw [Engine.assertEq] at ok
  obtain ⟨⟨first, lower'⟩, made_lower, ok⟩ := bind_eq_ok ok
  obtain ⟨⟨second, upper'⟩, made_upper, ok⟩ := bind_eq_ok ok
  obtain ⟨third, asserted_lower, ok⟩ := bind_eq_ok ok
  obtain ⟨fourth, asserted_upper, ok⟩ := bind_eq_ok ok
  obtain ⟨rfl, -⟩ := Prod.mk.inj (Except.ok.inj ok)
  have made := orderly_mkAtom (orderly_mkAtom orderly made_lower) made_upper
  exact orderly_assertLiteral (orderly_assertLiteral made asserted_lower) asserted_upper

theorem orderly_assertGiven {kind : BoundKind} {value : InfRat} (orderly : e.Orderly)
    (ok : e.assertGiven v kind value = .ok next) : next.Orderly := by
  rw [Engine.assertGiven] at ok
  obtain ⟨_, -, ok⟩ := bind_eq_ok ok
  obtain rfl := Except.ok.inj ok
  exact orderly_installBound (e := { e with given := e.given ++ [GivenBound.mk v kind value] })
    (orderly.congr rfl rfl rfl rfl id) v kind value none .given

theorem orderly_assertVarEq {left right : Var} (orderly : e.Orderly)
    (ok : e.assertVarEq left right = .ok next) : next.Orderly := by
  obtain ⟨-, ⟨rfl, rfl⟩ | ⟨-, ⟨withRow, r⟩, added, rfl⟩⟩ := of_assertVarEq ok
  · exact orderly
  · have posed := orderly_addRow (orderly_mkVar orderly _ .internal) added
    exact (answered_forEach (orderly_depend posed _) fun _ orderly kind =>
      answered_installBound orderly _ kind 0 _ .derived).orderly

/-! ## Scopes -/

/-- Leaving any of the open scopes leads to a state in order. -/
def State.OrderlyBehind (s : State) : Prop := ∀ count ≤ s.depth, (State.leave^[count] s).Orderly

theorem State.OrderlyBehind.orderly {s : State} (behind : s.OrderlyBehind) : s.Orderly :=
  behind 0 (Nat.zero_le _)

theorem State.Orderly.resembles {s t : State} (orderly : s.Orderly) (resembles : s.Resembles t)
    (values : t.Reliable → s.Reliable ∧ t.values = s.values) : t.Orderly := by
  have size := resembles.size
  rw [resembles.same] at values ⊢
  exact
    { values_size := size.trans orderly.values_size
      tableau := orderly.tableau
      increasing := orderly.increasing
      integral := fun reliable v integer free => by
        obtain ⟨relied, same⟩ := values reliable
        rw [stored_congr same]
        exact orderly.integral relied v integer free }

/-- What happens inside a scope does not change what leaving it leads to. -/
theorem Inside.orderlyBehind (inside : e.Inside next) (stamped : e.Numbered → e.Stamped)
    (formed : next.Formed) (behind : e.OrderlyBehind) (orderly : next.Orderly) :
    next.OrderlyBehind := by
  rintro (- | count) le
  · exact orderly
  · have lt : count < e.depth := Nat.lt_of_lt_of_eq le (congrArg List.length inside.scopes)
    refine (behind (count + 1) lt).resembles (leave_iterate_of_inside inside lt) fun reliable => ?_
    have numbered := numbered_of_leave_iterate formed le reliable
    have before := inside.numbered numbered
    exact ⟨reliable_leave_iterate before _,
      values_leave_iterate_of_inside inside numbered (stamped before) lt⟩

theorem orderly_settle {s : State} (orderly : s.Orderly) : s.settle.Orderly :=
  orderly.of_same rfl rfl rfl (List.pairwise_lt_range.filter _) id

theorem orderly_push (formed : e.Formed) (orderly : e.Orderly) : e.push.Orderly where
  values_size := orderly.values_size
  tableau := ⟨formed.tableau.distinct, formed.tableau.separate, formed.tableau.base_lt,
    formed.tableau.var_lt⟩
  increasing := orderly.increasing
  integral reliable := orderly.integral (reliable_of_enter reliable)

/-- Where the engine is in order, it is so behind a scope that is entered there. -/
theorem orderlyBehind_push (formed : e.Formed) (behind : e.OrderlyBehind) :
    e.push.OrderlyBehind := by
  rintro (- | count) le
  · exact orderly_push formed behind.orderly
  · have lt : count < e.push.depth := le
    have le : count ≤ e.depth := Nat.le_of_succ_le_succ le
    have orderly : (if count = 0 then e.toState.settle else State.leave^[count] e.toState).Orderly := by
      split
      · exact orderly_settle behind.orderly
      · exact behind count le
    refine orderly.resembles (leave_iterate_push formed le) fun reliable => ?_
    have numbered : e.Numbered :=
      Nat.lt_of_succ_lt (numbered_of_leave_iterate (formed_enter formed) lt reliable)
    rw [values_leave_iterate_push formed le]
    split
    · rename_i first
      subst first
      exact ⟨numbered.reliable, rfl⟩
    · exact ⟨reliable_leave_iterate numbered _, rfl⟩

theorem orderlyBehind_popScopes {count : Nat} (le : count ≤ e.depth) (behind : e.OrderlyBehind) :
    (popScopes count e).OrderlyBehind := by
  intro more shallow
  rw [depth_popScopes] at shallow
  rw [toState_popScopes, ← Function.iterate_add_apply]
  exact behind (more + count) (by omega)

end Engine

namespace Session

open Engine State

variable {s : Session}

/-! ## Calls -/

/-- A call that fails leaves the engine as it was. -/
theorem orderly_attempt {α : Type} {result : Except EngineError α} {engine : α → Engine}
    {record : α → History → History} (orderly : s.engine.Orderly)
    (succeeded : ∀ a, result = .ok a → (engine a).Orderly) :
    (s.attempt result engine record).engine.Orderly := by
  cases result with
  | ok a => exact succeeded a rfl
  | error _ => exact orderly

theorem orderly_pop {e next : Engine} {count : Nat} (behind : e.OrderlyBehind)
    (ok : e.pop count = .ok next) : next.Orderly := by
  rw [Engine.pop] at ok
  split at ok
  · cases ok
  · rename_i enough
    obtain rfl := Except.ok.inj ok
    exact (orderlyBehind_popScopes (Nat.le_of_not_lt enough) behind).orderly

/-- Every call but a search, which is a sequence of others, leaves the engine in order. -/
theorem orderly_perform (inv : s.engine.Invariant s.history) (behind : s.engine.OrderlyBehind)
    {call : Call} (plain : call.isSearch = false) : (s.perform call).engine.Orderly := by
  have orderly := behind.orderly
  cases call with
  | mkVar sort term => exact orderly_mkVar orderly sort term
  | setName v name => exact orderly_attempt orderly fun _ ok => orderly_setName orderly ok
  | addRow b entries => exact orderly_attempt orderly fun _ ok => orderly_addRow orderly ok
  | mkLinear sort term entries =>
    exact orderly_attempt orderly fun _ ok => orderly_mkLinear orderly ok
  | mkMonomial factors => exact orderly_attempt orderly fun _ ok => orderly_mkMonomial orderly ok
  | mkAtom v kind threshold => exact orderly_attempt orderly fun _ ok => orderly_mkAtom orderly ok
  | assertLiteral l => exact orderly_attempt orderly fun _ ok => orderly_assertLiteral orderly ok
  | assertEq v value => exact orderly_attempt orderly fun _ ok => orderly_assertEq orderly ok
  | assertGiven v kind value =>
    exact orderly_attempt orderly fun _ ok => orderly_assertGiven orderly ok
  | assertVarEq left right => exact orderly_attempt orderly fun _ ok => orderly_assertVarEq orderly ok
  | propagate => exact (answered_propagate orderly inv).orderly
  | check => exact orderly_check orderly inv
  | solve selector stop => cases plain
  | nextPropagation => exact orderly.congr rfl rfl rfl rfl id
  | nextEquality => exact orderly.congr rfl rfl rfl rfl id
  | push => exact orderly_push inv.founded.formed orderly
  | pop count => exact orderly_attempt orderly fun _ ok => orderly_pop behind ok
  | retractTo m =>
    refine orderly_attempt orderly fun _ ok => ?_
    rw [Engine.retractTo] at ok
    split at ok
    · cases ok
    · exact orderly_pop behind ok
  | setSelector selector => exact orderly
  | setOracle oracle => exact orderly
  | setTracer tracer => exact orderly

/-- Every call but a search keeps the engine in order where leaving scopes leads. -/
theorem orderlyBehind_perform (ready : s.engine.Ready s.history) (behind : s.engine.OrderlyBehind)
    {call : Call} (plain : call.isSearch = false) (formed : (s.perform call).engine.Formed) :
    (s.perform call).engine.OrderlyBehind := by
  have orderly := orderly_perform ready.invariant behind plain
  have turn := turn_perform ready plain
  generalize (s.perform call).engine = next at formed orderly turn ⊢
  have kept (inside : s.engine.Inside next) : next.OrderlyBehind :=
    inside.orderlyBehind ready.stamped formed behind orderly
  cases turn with
  | pose strides k evolves => exact kept evolves.inside
  | reason made k evolves => exact kept evolves.inside
  | serve propagations equalities literals_left equalities_left becomes =>
    exact kept (becomes.inside rfl rfl rfl rfl rfl rfl fun scope _ _ =>
      { Rewinds.refl s.engine.toState scope with })
  | enter made => exact made ▸ orderlyBehind_push ready.invariant.founded.formed behind
  | leave count le made => exact made ▸ orderlyBehind_popScopes le behind

theorem orderly_start (options : Options) : (start options).engine.Orderly where
  toFitted := (ready_new options).invariant.founded.formed.toFitted
  increasing := .nil
  integral _ v integer := absurd (isInt_lt integer) (Nat.not_lt_zero v)

/-- Whatever calls were made, the engine is in order. -/
theorem orderly_run (options : Options) (calls : List Call) :
    ((start options).run calls).engine.Orderly := by
  have plain (calls : List Call) (all : ∀ call ∈ calls, call.isSearch = false) :
      ((start options).run calls).engine.OrderlyBehind := by
    induction calls using List.reverseRecOn with
    | nil =>
      rintro (- | count) le
      · exact orderly_start options
      · cases le
    | append_singleton before call ih =>
      have formed := (ready_run options (before ++ [call])).invariant.founded.formed
      rw [run_append] at formed ⊢
      exact orderlyBehind_perform (ready_run options before)
        (ih fun c member => all c (List.mem_append_left _ member)) (all call (by simp)) formed
  rw [← run_unfold]
  exact (plain _ fun _ made => not_isSearch_of_mem_unfold made).orderly

end Session

end ArithDecide
