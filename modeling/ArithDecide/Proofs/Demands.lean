import ArithDecide.Proofs.Products
import ArithDecide.Proofs.Searching

/-!
# What calls demand of solutions

A call that adds constraints may bring variables of its own: a slack, or the variable of a product.
What it demands of the variables that its caller knows is said by `Engine.Demands`: their values can be
extended to a solution afterwards exactly if they could be before and the demand holds of them. Demands
of calls that follow each other add up (`Demands.trans`), and a variable that only later calls mention
is hidden by looking at fewer variables (`Demands.hide`).

A literal whose negation was asserted before is asserted all the same: no solution makes both true,
and the engine is infeasible from then on.
-/

namespace ArithDecide.Engine

open State

namespace State

variable {s t : State} {h : History} {α β : Var → Rat} {l : Literal}

/-- A solution that makes all literals true that were asserted, be they accepted or rejected. -/
structure Fulfils (s : State) (h : History) (α : Var → Rat) : Prop where
  solves : s.Solves α
  literals : ∀ l, l ∈ h.asserted ∨ l ∈ h.rejected → s.LiteralHolds α l

/-- The values of the first `n` variables can be extended to a solution. -/
def Allows (s : State) (h : History) (n : Nat) (α : Var → Rat) : Prop :=
  ∃ β, s.Fulfils h β ∧ ∀ v, v < n → β v = α v

theorem Fulfils.before (fulfils : t.Fulfils h α) (grows : s.Grows t) : s.Fulfils h α where
  solves := grows.solves α fulfils.solves
  literals l stated := grows.literalHolds (fulfils.literals l stated)

theorem Fulfils.allows (fulfils : s.Fulfils h α) (n : Nat) : s.Allows h n α :=
  ⟨α, fulfils, fun _ _ => rfl⟩

theorem Allows.congr {n : Nat} (allows : s.Allows h n α) (agree : ∀ v, v < n → β v = α v) :
    s.Allows h n β := by
  obtain ⟨γ, fulfils, same⟩ := allows
  exact ⟨γ, fulfils, fun v lt => (same v lt).trans (agree v lt).symm⟩

/-- Fewer values are extended in two steps. -/
theorem allows_iff_of_le {n m : Nat} (le : n ≤ m) :
    s.Allows h n α ↔ ∃ β, s.Allows h m β ∧ ∀ v, v < n → β v = α v := by
  constructor
  · rintro ⟨β, fulfils, same⟩
    exact ⟨β, fulfils.allows m, same⟩
  · rintro ⟨β, ⟨γ, fulfils, same⟩, agree⟩
    exact ⟨γ, fulfils, fun v lt => (same v (Nat.lt_of_lt_of_le lt le)).trans (agree v lt)⟩

theorem Allows.mono {n m : Nat} (allows : s.Allows h m α) (le : n ≤ m) : s.Allows h n α :=
  (allows_iff_of_le le).2 ⟨α, allows, fun _ _ => rfl⟩

theorem literalHolds_congr (registered : s.Registered h) (agree : ∀ v, v < s.numVars → β v = α v)
    (holds : s.LiteralHolds α l) : s.LiteralHolds β l := by
  intro atom found
  rw [agree _ (registered.atom_lt _ atom found)]
  exact holds atom found

end State

variable {e mid next last : Engine} {h k k' : History} {α β : Var → Rat} {l : Literal} {n m : Nat}
  {demand other : (Var → Rat) → Prop} {v : Var} {kind : BoundKind} {threshold : Rat}

/-! ## Demands -/

/-- The engine is ready, and no literal was rejected unless its negation is in force. -/
structure Posed (e : Engine) (h : History) : Prop where
  ready : e.Ready h
  opposed : ∀ l ∈ h.rejected, l.negate ∈ h.asserted

/-- The engine knows the atoms of all literals that were asserted. -/
theorem Posed.known (posed : e.Posed h) (stated : l ∈ h.asserted ∨ l ∈ h.rejected) :
    ∃ atom, e.atoms.get? l.atom = some atom := by
  have registered := posed.ready.invariant.founded.registered
  have accepted {m : Literal} (member : m ∈ h.asserted) :
      ∃ atom, e.atoms.get? m.atom = some atom := by
    obtain ⟨atom, found, -⟩ := registered.assigned m ((registered.asserted m).2 member)
    exact ⟨atom, found⟩
  rcases stated with member | member
  · exact accepted member
  · exact accepted (m := l.negate) (posed.opposed l member)

/-- What was asserted stays true in a solution that has the same values as long as the engine grows. -/
theorem Posed.fulfils (posed : e.Posed h) (grows : e.Grows next.toState)
    (agree : ∀ v, v < e.numVars → β v = α v) (before : e.Fulfils h α) (solves : next.Solves β) :
    next.Fulfils h β := by
  refine ⟨solves, fun l stated => ?_⟩
  obtain ⟨atom, found⟩ := posed.known stated
  exact (grows.literalHolds_iff found).2 (literalHolds_congr
    posed.ready.invariant.founded.registered agree (before.literals l stated))

/-- Solutions are about the variables that exist. -/
theorem Posed.allows_iff (posed : e.Posed h) : e.Allows h e.numVars α ↔ e.Fulfils h α := by
  refine ⟨?_, fun fulfils => fulfils.allows _⟩
  rintro ⟨β, fulfils, same⟩
  have agree (v : Var) (lt : v < e.numVars) : α v = β v := (same v lt).symm
  exact posed.fulfils (.refl _) agree fulfils
    (posed.ready.invariant.founded.solves_congr agree fulfils.solves)

/-- What is said depends on the values of the first `n` variables only. -/
def Local (n : Nat) (demand : (Var → Rat) → Prop) : Prop :=
  ∀ α β, (∀ v, v < n → β v = α v) → demand α → demand β

/-- Between the engines, exactly this was demanded of the first `n` variables. -/
structure Demands (n : Nat) (e : Engine) (h : History) (next : Engine) (k : History)
    (demand : (Var → Rat) → Prop) : Prop where
  posed : next.Posed k
  numVars : e.numVars ≤ next.numVars
  allows : ∀ α, next.Allows k n α ↔ e.Allows h n α ∧ demand α

theorem Demands.refl (posed : e.Posed h) (n : Nat) : Demands n e h e h fun _ => True :=
  ⟨posed, Nat.le_refl _, fun _ => (and_iff_left trivial).symm⟩

theorem Demands.trans (first : Demands n e h mid k demand) (second : Demands n mid k last k' other) :
    Demands n e h last k' fun α => demand α ∧ other α where
  posed := second.posed
  numVars := first.numVars.trans second.numVars
  allows α := by rw [second.allows, first.allows, and_assoc]

theorem Demands.congr (demands : Demands n e h next k demand) (same : ∀ α, demand α ↔ other α) :
    Demands n e h next k other :=
  { demands with allows := fun α => (demands.allows α).trans (and_congr_right fun _ => same α) }

/-- Looking at fewer variables: the others may have any values that make true what is said. -/
theorem Demands.hide (demands : Demands m mid k next k' demand) (numVars : e.numVars ≤ mid.numVars)
    (le : n ≤ m) (reveals : ∀ α, mid.Allows k m α → demand α → e.Allows h n α ∧ other α)
    (bounded : Local n other) (extends_ : ∀ α, e.Allows h n α → other α →
      ∃ β, mid.Allows k m β ∧ demand β ∧ ∀ v, v < n → β v = α v) :
    Demands n e h next k' other where
  posed := demands.posed
  numVars := numVars.trans demands.numVars
  allows α := by
    rw [allows_iff_of_le le]
    constructor
    · rintro ⟨β, allows, same⟩
      obtain ⟨before, holds⟩ := reveals β ((demands.allows β).1 allows).1 ((demands.allows β).1 allows).2
      have agree (v : Var) (lt : v < n) : α v = β v := (same v lt).symm
      exact ⟨before.congr agree, bounded β α agree holds⟩
    · rintro ⟨before, holds⟩
      obtain ⟨β, allows, said, same⟩ := extends_ α before holds
      exact ⟨β, (demands.allows β).2 ⟨allows, said⟩, same⟩

/-- What is said of the first variables only can be looked at there. -/
theorem Demands.lower (demands : Demands m e h next k demand) (le : n ≤ m) (bounded : Local n demand) :
    Demands n e h next k demand := by
  refine demands.hide (Nat.le_refl _) le (fun α allows said => ⟨allows.mono le, said⟩) bounded
    fun α allows said => ?_
  obtain ⟨β, before, same⟩ := (allows_iff_of_le le).1 allows
  exact ⟨β, before, bounded α β same said, same⟩

/-- A call that asserts no literal. -/
theorem Posed.demands (posed : e.Posed h) (ready : next.Ready h) (grows : e.Grows next.toState)
    (numVars : e.numVars ≤ next.numVars) (bounded : Local e.numVars demand)
    (sound : ∀ α, next.Solves α → demand α)
    (complete : ∀ α, e.Solves α → demand α →
      ∃ β, next.Solves β ∧ ∀ v, v < e.numVars → β v = α v) :
    Demands e.numVars e h next h demand where
  posed := ⟨ready, posed.opposed⟩
  numVars := numVars
  allows α := by
    constructor
    · rintro ⟨β, fulfils, same⟩
      have agree (v : Var) (lt : v < e.numVars) : α v = β v := (same v lt).symm
      exact ⟨((fulfils.before grows).allows _).congr agree,
        bounded β α agree (sound β fulfils.solves)⟩
    · rintro ⟨⟨β, fulfils, same⟩, holds⟩
      obtain ⟨γ, solves, same'⟩ := complete β fulfils.solves (bounded α β same holds)
      exact ⟨γ, posed.fulfils grows same' fulfils solves,
        fun v lt => (same' v lt).trans (same v lt)⟩

/-! ## Variables and rows -/

/-- A new variable may have any value, or any integer. -/
theorem Posed.mkVar (posed : e.Posed h) (sort : NumSort) (term : Term) :
    (e.mkVar sort term).1.Posed h ∧ (e.mkVar sort term).1.numVars = e.numVars + 1 ∧
      ∀ α, (e.mkVar sort term).1.Fulfils h α ↔
        e.Fulfils h α ∧ (sort = .int → ∃ n : Int, α e.numVars = n) := by
  have evolves := posed.ready.mkVar sort term
  refine ⟨⟨evolves.ready, posed.opposed⟩, numVars_withVar e.toState ⟨sort, term⟩, fun α => ?_⟩
  have asks := solves_withVar e.toState ⟨sort, term⟩ α
  constructor
  · exact fun fulfils => ⟨fulfils.before evolves.grows, (asks.1 fulfils.solves).2⟩
  · rintro ⟨fulfils, new⟩
    exact posed.fulfils evolves.grows (fun _ _ => rfl) fulfils (asks.2 ⟨fulfils.solves, new⟩)

theorem local_row {base : Var} {entries : List (Var × Rat)} (base_lt : base < n)
    (entries_lt : ∀ t ∈ entries, t.1 < n) :
    Local n fun α => α base = (LinearForm.ofEntries entries).combine α := by
  intro α β agree holds
  rw [agree base base_lt, holds]
  refine LinearForm.combine_congr fun v mentioned => (agree v ?_).symm
  obtain ⟨t, member, rfl⟩ :=
    LinearForm.mem_of_coeff_ofEntries (LinearForm.mentions_iff.1 mentioned)
  exact entries_lt t member

/-- A row demands its equation. -/
theorem Posed.addRow {base : Var} {entries : List (Var × Rat)} {r : RowId} (posed : e.Posed h)
    (ok : e.addRow base entries = .ok (next, r)) : Demands e.numVars e h next h fun α =>
      α base = (LinearForm.ofEntries entries).combine α := by
  obtain ⟨evolves, numVars, sound⟩ := posed.ready.addRow ok
  obtain ⟨row, -⟩ := of_addRow ok
  refine posed.demands evolves.ready evolves.grows numVars
    (local_row row.lt fun t member => (row.entries_lt t member).1)
    (fun α solves => sound α solves.rows) fun α solves holds => ?_
  obtain ⟨added, becomes, -, placed⟩ := placed_addRow posed.ready.invariant ok
  have same : added.numVars = e.numVars := by
    rw [becomes.toState]
    rfl
  rw [← same]
  refine placed.keeps.solvable α ?_
  rw [becomes.toState]
  exact (solves_addRow e.toState base _ α).2 ⟨solves, holds⟩

/-- An unconditional bound demands itself. -/
theorem Posed.assertGiven {value : InfRat} (posed : e.Posed h)
    (ok : e.assertGiven v kind value = .ok next) :
    Demands e.numVars e h next h (GivenBound.Holds · ⟨v, kind, value⟩) := by
  have evolves := posed.ready.assertGiven ok
  obtain ⟨lt, noted, becomes, installed⟩ := of_assertGiven ok
  obtain ⟨inv, offered⟩ := invariant_give posed.ready.invariant lt becomes
  have keeps := (answers_installBound inv offered).keeps inv
  rw [installed] at keeps
  have same : noted.numVars = e.numVars := by
    rw [becomes.toState]
    rfl
  have asks (α : Var → Rat) :
      noted.Solves α ↔ e.Solves α ∧ GivenBound.Holds α ⟨v, kind, value⟩ := by
    rw [becomes.toState]
    exact solves_give e.toState ⟨v, kind, value⟩ α
  refine posed.demands evolves.ready evolves.grows (same ▸ keeps.numVars) (fun α β agree holds => ?_)
    (fun α solves => ((asks α).1 (keeps.grows.solves α solves)).2) fun α solves holds => ?_
  · rw [GivenBound.Holds, agree v lt]
    exact holds
  · rw [← same]
    exact keeps.solvable α ((asks α).2 ⟨solves, holds⟩)

/-! ## Literals -/

theorem numVars_internAtom (e : Engine) (v : Var) (kind : BoundKind) (threshold : Rat) :
    (e.internAtom v kind threshold).1.numVars = e.numVars := by
  obtain ⟨atoms, propagations, same⟩ := internAtom_toState e v kind threshold
  rw [same]
  rfl

/-- What asking for an atom comes to: it demands nothing, and the literal is the positive one. -/
structure Asked (e : Engine) (h : History) (v : Var) (kind : BoundKind) (threshold : Rat)
    (next : Engine) (l : Literal) : Prop where
  made : e.internAtom v kind threshold = (next, l)
  states : next.States l v kind threshold
  grows : e.Grows next.toState
  demands : Demands e.numVars e h next h fun _ => True

theorem Posed.exists_asked (posed : e.Posed h) (lt : v < e.numVars) (kind : BoundKind)
    (threshold : Rat) : ∃ next l, Asked e h v kind threshold next l := by
  have evolves := posed.ready.internAtom lt kind threshold
  refine ⟨(e.internAtom v kind threshold).1, (e.internAtom v kind threshold).2, rfl,
    states_internAtom posed.ready.invariant lt, evolves.grows, ?_⟩
  refine posed.demands evolves.ready evolves.grows (numVars_internAtom e v kind threshold).ge
    (fun _ _ _ => id) (fun _ _ => trivial) fun α solves _ => ⟨α, ?_, fun _ _ => rfl⟩
  obtain ⟨atoms, propagations, same⟩ := internAtom_toState e v kind threshold
  rw [same]
  exact { solves with }

theorem State.States.eq_ofSign {s : State} (states : s.States l v kind threshold) :
    l = .ofSign l.atom true := by
  obtain ⟨atom, negative⟩ := l
  obtain rfl : negative = false := states.positive
  rfl

/-- The literals of an atom say that its fact is true, or that it is not. -/
theorem State.States.ofSign_holds_iff {s : State} (states : s.States l v kind threshold) (sign : Bool) :
    s.LiteralHolds α (.ofSign l.atom sign) ↔
      kind.admits (.ofRat threshold) (.ofRat (α v)) = sign := by
  obtain ⟨-, atom, found, rfl, rfl, rfl⟩ := states
  have at_atom : s.LiteralHolds α (.ofSign l.atom sign) ↔ atom.Means (!sign) (α atom.var) := by
    refine ⟨fun holds => holds atom found, fun means other found' => ?_⟩
    obtain rfl := Option.some.inj (found.symm.trans found')
    exact means
  rw [at_atom, Atom.means_iff_admits, Bool.not_not]

/-- A literal demands what it means. -/
theorem Posed.assertLiteral (posed : e.Posed h) (ok : e.assertLiteral l = .ok next) :
    Demands e.numVars e h next (h.assert l) (e.LiteralHolds · l) := by
  have evolves := posed.ready.assertLiteral ok
  obtain ⟨known, columns, -⟩ := of_assertLiteral ok
  have later : next.Posed (h.assert l) := by
    refine ⟨evolves.ready, fun m rejected => History.mem_asserted_assert.2 (.inl ?_)⟩
    rcases History.mem_rejected_assert.1 rejected with before | ⟨rfl, opposed⟩
    · exact posed.opposed m before
    · exact opposed
  -- whether accepted or rejected, the literal is stated
  have stated (m : Literal) : (m ∈ (h.assert l).asserted ∨ m ∈ (h.assert l).rejected) ↔
      (m ∈ h.asserted ∨ m ∈ h.rejected) ∨ m = l := by
    rw [History.mem_asserted_assert, History.mem_rejected_assert]
    by_cases opposed : l.negate ∈ h.asserted <;> simp [opposed] <;> tauto
  have keeps (m : Literal) (α : Var → Rat) (known : ∃ atom, e.atoms.get? m.atom = some atom) :
      next.LiteralHolds α m ↔ e.LiteralHolds α m := by
    obtain ⟨atom, found⟩ := known
    exact evolves.grows.literalHolds_iff found
  have numVars := numVars_congr columns
  refine ⟨later, numVars.ge, fun α => ?_⟩
  rw [posed.allows_iff, ← numVars, later.allows_iff]
  constructor
  · intro fulfils
    refine ⟨⟨(solves_assertLiteral ok α).1 fulfils.solves, fun m before => ?_⟩,
      (keeps l α known).1 (fulfils.literals l ((stated l).2 (.inr rfl)))⟩
    exact (keeps m α (posed.known before)).1 (fulfils.literals m ((stated m).2 (.inl before)))
  · rintro ⟨fulfils, holds⟩
    refine ⟨(solves_assertLiteral ok α).2 fulfils.solves, fun m member => ?_⟩
    rcases (stated m).1 member with before | rfl
    · exact (keeps m α (posed.known before)).2 (fulfils.literals m before)
    · exact (keeps m α known).2 holds

/-- Asserting a literal of an atom that was asked for. -/
theorem Posed.assertSign (posed : e.Posed h) (states : e.States l v kind threshold) (lt : v < n)
    (le : n ≤ e.numVars) (sign : Bool) : ∃ next,
      e.assertLiteral (.ofSign l.atom sign) = .ok next ∧
        Demands n e h next (h.assert (.ofSign l.atom sign))
          fun α => kind.admits (.ofRat threshold) (.ofRat (α v)) = sign := by
  obtain ⟨atom, found, -⟩ := states.known
  obtain ⟨next, ok⟩ := exists_assertLiteral (l := .ofSign l.atom sign) ⟨atom, found⟩
  refine ⟨next, ok, Demands.lower ?_ le fun α β agree holds => ?_⟩
  · exact (posed.assertLiteral ok).congr fun α => states.ofSign_holds_iff sign
  · rw [agree v lt]
    exact holds

/-! ## Monomials -/

/-- A new monomial demands that its variable is the product. -/
theorem solves_placeMonomial (e : Engine) (sorted : List Var) (α : Var → Rat) :
    (e.placeMonomial sorted).1.Solves α ↔
      (e.Solves α ∧ (e.jointSort sorted = .int → ∃ n : Int, α e.numVars = n)) ∧
        α e.numVars = (sorted.map α).prod :=
  (solves_monomial (e.toState.withVar ⟨e.jointSort sorted, .internal⟩) ⟨e.numVars, sorted⟩ α).trans
    (and_congr_left fun _ => solves_withVar _ _ _)

theorem numVars_placeMonomial (e : Engine) (sorted : List Var) :
    (e.placeMonomial sorted).1.numVars = e.numVars + 1 :=
  numVars_withVar e.toState ⟨e.jointSort sorted, .internal⟩

/-- A product demands nothing of its factors. -/
theorem Posed.placeMonomial {sorted : List Var} (posed : e.Posed h)
    (lt : ∀ v ∈ sorted, v < e.numVars) (degree : 2 ≤ sorted.length) :
    Demands e.numVars e h (e.placeMonomial sorted).1 h fun _ => True := by
  have evolves := posed.ready.placeMonomial lt degree
  refine posed.demands evolves.ready evolves.grows
    (numVars_placeMonomial e sorted ▸ Nat.le_succ _) (fun _ _ _ => id) (fun _ _ => trivial)
    fun α solves _ => ?_
  have others (v : Var) (lt : v < e.numVars) :
      Function.update α e.numVars (sorted.map α).prod v = α v :=
    Function.update_of_ne (Nat.ne_of_lt lt) _ _
  refine ⟨Function.update α e.numVars (sorted.map α).prod, (solves_placeMonomial e sorted _).2
    ⟨⟨posed.ready.invariant.founded.solves_congr others solves, fun joint => ?_⟩, ?_⟩, others⟩
  · rw [Function.update_self]
    refine exists_int_prod fun q member => ?_
    obtain ⟨v, factor, rfl⟩ := List.mem_map.1 member
    exact solves.integral v (isInt_of_jointSort joint v factor)
  · rw [Function.update_self]
    exact congrArg List.prod (List.map_congr_left fun v factor => (others v (lt v factor)).symm)

/-- The variable of a product, whether new or not, is the product in every solution. -/
theorem Posed.mkMonomial {factors : List Var} (posed : e.Posed h)
    (ok : e.mkMonomial factors = .ok (next, v)) :
    Demands e.numVars e h next h (fun _ => True) ∧ v < next.numVars ∧
      ∀ α, next.Solves α → α v = (factors.map α).prod := by
  obtain ⟨enough, known, result⟩ := of_mkMonomial ok
  have sorted_perm := List.mergeSort_perm factors fun v w => decide (v ≤ w)
  have same_prod (α : Var → Rat) := (sorted_perm.map α).prod_eq
  rcases result with ⟨rfl, m, member, rfl, sorted⟩ | placed
  · refine ⟨.refl posed _, posed.ready.invariant.founded.multiplied.var_lt m member, ?_⟩
    exact fun α solves => (solves.monomials m member).trans (sorted ▸ same_prod α)
  · have demands := posed.placeMonomial
      (fun w member => known w (sorted_perm.mem_iff.1 member)) (sorted_perm.length_eq ▸ enough)
    obtain ⟨rfl, rfl⟩ := Prod.mk.inj placed
    refine ⟨demands, (numVars_placeMonomial e _).symm ▸ Nat.lt_succ_self _, fun α solves => ?_⟩
    exact ((solves_placeMonomial e _ α).1 solves).2.trans (same_prod α)

end ArithDecide.Engine
