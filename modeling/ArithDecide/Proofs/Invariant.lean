import ArithDecide.Engine.Scopes
import ArithDecide.Proofs.Engine

/-!
# The invariant of the engine

`Engine.State.Invariant` is what holds between any two elementary steps of the engine. Its parts are
independent of each other as far as possible: the stores are well formed and no shorter than when the
innermost scope was entered (`Formed`), the rows in reduced form hold under the current values and
every variable that heads no row lies within its bounds as long as the values can be relied on
(`Assigned`), every base that is out of its bounds waits to be patched (`Patched`), every installed
bound is supported by its reason (`Justified`), the atoms agree with what was asserted (`Registered`),
and a recorded conflict has something to blame.
-/

namespace ArithDecide

/-- The infinitesimal part of a bound points into the bounded side. -/
def BoundKind.Coherent : BoundKind → InfRat → Prop
  | .lower, a => 0 ≤ a.eps
  | .upper, a => a.eps ≤ 0

def Bound.Coherent (b : Bound) : Prop := b.kind.Coherent b.value

def GivenBound.Coherent (g : GivenBound) : Prop := g.kind.Coherent g.value

/-- The bound does not rest on what rows imply: its infinitesimal part points the right way, or it
was given. -/
def Bound.Anchored (b : Bound) : Prop := b.Coherent ∨ b.origin = .given

namespace Engine.State

/-- Stores and trails are at least as long as when the scope was entered. -/
structure Passed (s : State) (scope : Scope) : Prop where
  numVars : scope.numVars ≤ s.numVars
  tableau : scope.tableau ≤ s.tableau.trail.length
  bounds : s.bounds.Passed scope.bounds
  atoms : s.atoms.Passed scope.atoms
  dependencies : scope.dependencies ≤ s.dependencies.nodes.size
  valueTrail : scope.valueTrail ≤ s.valueTrail.length
  monomials : scope.monomials ≤ s.monomials.length
  given : scope.given ≤ s.given.length
  reported : scope.reported ≤ s.reported.length

/-- The values and the tableau are about the variables that exist. -/
structure Fitted (s : State) : Prop where
  values_size : s.values.size = s.numVars
  tableau : s.tableau.WellFormed s.numVars

/-- The stores fit together. -/
structure Formed (s : State) : Prop extends Fitted s where
  bounds : s.bounds.WellFormed s.numVars
  closed : s.dependencies.Closed
  recording : s.tableau.recording = !s.scopes.isEmpty
  entered : s.depth ≤ s.scopesEntered
  passed : ∀ scope outer, s.scopes = scope :: outer → s.Passed scope

/-- The current values satisfy the rows in reduced form, and apart from the exempt variables, those that
head no row lie within their bounds. -/
structure AssignedBut (s : State) (exempt : List Var) : Prop where
  rows : ∀ r row, s.tableau.get? r = some row → row.pending = false → row.Holds s.stored
  within : ∀ v, v < s.numVars → s.kind v = .nonBase → v ∉ exempt →
    s.bounds.admits v (s.stored v) = true

/-- The same without exempt variables. -/
abbrev Assigned (s : State) : Prop := s.AssignedBut []

/-- Apart from the exempt variables, the base of a row in reduced form that is out of its bounds waits to
be patched. -/
def PatchedBut (s : State) (exempt : List Var) : Prop :=
  ∀ r row, s.tableau.get? r = some row → row.pending = false → row.base ∉ exempt →
    s.bounds.admits row.base (s.stored row.base) = true ∨ row.base ∈ s.toPatch

/-- The same without exempt variables. -/
abbrev Patched (s : State) : Prop := s.PatchedBut []

/-- The active bounds of integer variables are integers. -/
def Rounded (s : State) : Prop :=
  ∀ v kind value, s.isInt v = true → s.bounds.value v kind = some value →
    ∃ n : Int, value = .ofRat n

/-- Every installed bound is supported, is an integer for an integer variable, and follows from the
rows and those bounds that do not rest on rows. -/
structure Justified (s : State) (h : History) : Prop where
  supported : ∀ b ∈ s.bounds.records, s.Supported h b
  integral : ∀ b ∈ s.bounds.records, s.isInt b.var = true → ∃ n : Int, b.value = .ofRat n
  anchored : ∀ α : Var → Rat, s.tableau.Holds α →
    (∀ b ∈ s.bounds.records, b.Anchored → b.Holds α) → ∀ b ∈ s.bounds.records, b.Holds α
  origin : ∀ b ∈ s.bounds.records, b.origin = .given →
    b.Coherent ∨ ∃ g ∈ s.given, ¬g.Coherent

/-- The atoms agree with what was asserted. -/
structure Registered (s : State) (h : History) : Prop where
  atom_lt : ∀ a atom, s.atoms.get? a = some atom → atom.var < s.numVars
  asserted : ∀ l, l ∈ s.atoms.asserted ↔ l ∈ h.asserted
  assigned : ∀ l ∈ s.atoms.asserted, ∃ atom, s.atoms.get? l.atom = some atom ∧
    atom.assignment = some !l.negative
  signed : ∀ a atom sign, s.atoms.get? a = some atom → atom.assignment = some sign →
    Literal.ofSign a sign ∈ s.atoms.asserted
  pair_lt : ∀ p ∈ h.equated, p.left < s.numVars ∧ p.right < s.numVars

/-- Monomials are products of existing variables, and integer monomials have integer factors. -/
structure Multiplied (s : State) : Prop where
  var_lt : ∀ m ∈ s.monomials, m.var < s.numVars
  factor_lt : ∀ m ∈ s.monomials, ∀ v ∈ m.factors, v < s.numVars
  integral : ∀ m ∈ s.monomials, s.isInt m.var = true → ∀ v ∈ m.factors, s.isInt v = true
  degree : ∀ m ∈ s.monomials, 2 ≤ m.factors.length

/-- What holds whatever the current values are. -/
structure Founded (s : State) (h : History) : Prop where
  formed : s.Formed
  justified : s.Justified h
  registered : s.Registered h
  multiplied : s.Multiplied
  given_lt : ∀ g ∈ s.given, g.var < s.numVars
  blamed : ∀ d, s.status = .infeasible d → s.Blames h d

/-- What holds between any two elementary steps. -/
structure Invariant (s : State) (h : History) : Prop where
  founded : s.Founded h
  patched : s.Patched
  assigned : s.Reliable → s.Assigned

variable {s next : State} {h : History}

theorem Founded.rounded (founded : s.Founded h) : s.Rounded := by
  intro v kind value integer active
  obtain ⟨b, found, rfl⟩ := Option.map_eq_some_iff.1 active
  obtain ⟨record, var_eq, -⟩ := founded.formed.bounds.active found
  exact founded.justified.integral b record (var_eq ▸ integer)

/-! ## What the parts depend on -/

theorem kind_congr (tableau : next.tableau = s.tableau) (v : Var) : next.kind v = s.kind v := by
  rw [State.kind, State.kind, tableau]

theorem isInt_congr (columns : next.columns = s.columns) (v : Var) : next.isInt v = s.isInt v := by
  rw [State.isInt, State.isInt, State.sort, State.sort, columns]

theorem numVars_congr (columns : next.columns = s.columns) : next.numVars = s.numVars := by
  rw [State.numVars, State.numVars, columns]

theorem stored_congr (values : next.values = s.values) : next.stored = s.stored := by
  funext v
  rw [State.stored, State.stored, values]

theorem admits_congr {store later : BoundStore}
    (bounds : ∀ v kind, later.get v kind = store.get v kind) (v : Var) (x : InfRat) :
    later.admits v x = store.admits v x := by
  rw [Bool.eq_iff_iff, BoundStore.admits_iff, BoundStore.admits_iff]
  simp only [bounds]

theorem AssignedBut.congr {exempt : List Var} (assigned : s.AssignedBut exempt)
    (columns : next.columns = s.columns) (values : next.values = s.values)
    (tableau : next.tableau = s.tableau)
    (bounds : ∀ v kind, next.bounds.get v kind = s.bounds.get v kind) : next.AssignedBut exempt := by
  have same_stored := stored_congr values
  constructor
  · intro r row found settled
    rw [same_stored]
    exact assigned.rows r row (tableau ▸ found) settled
  · intro v lt free
    rw [same_stored, admits_congr bounds]
    exact assigned.within v (numVars_congr columns ▸ lt) (kind_congr tableau v ▸ free)

theorem PatchedBut.congr {exempt : List Var} (patched : s.PatchedBut exempt)
    (values : next.values = s.values) (tableau : next.tableau = s.tableau)
    (bounds : ∀ v kind, next.bounds.get v kind = s.bounds.get v kind)
    (toPatch : ∀ v ∈ s.toPatch, v ∈ next.toPatch) : next.PatchedBut exempt := by
  intro r row found settled apart
  rw [stored_congr values, admits_congr bounds]
  exact (patched r row (tableau ▸ found) settled apart).imp_right (toPatch _)

/-- What leaves values, rows and bounds as they are, and takes nothing off those to be patched. -/
theorem Invariant.of_same {k : History} (inv : s.Invariant h) (founded : next.Founded k)
    (columns : next.columns = s.columns) (values : next.values = s.values)
    (tableau : next.tableau = s.tableau)
    (bounds : ∀ v kind, next.bounds.get v kind = s.bounds.get v kind)
    (toPatch : ∀ v ∈ s.toPatch, v ∈ next.toPatch) (reliable : next.Reliable → s.Reliable) :
    next.Invariant k :=
  ⟨founded, inv.patched.congr values tableau bounds toPatch, fun relied =>
    (inv.assigned (reliable relied)).congr columns values tableau bounds⟩

/-- Bounds stay justified when more is known, as long as no bound, row or unconditional bound that they
rest on is given up. -/
theorem Justified.grow {k : History} (justified : s.Justified h) (closed : s.dependencies.Closed)
    (grows : s.Grows next) (records : next.bounds.records = s.bounds.records)
    (isInt : ∀ b ∈ s.bounds.records, next.isInt b.var = s.isInt b.var)
    (rows : ∀ α : Var → Rat, next.tableau.Holds α → s.tableau.Holds α)
    (given : ∀ g ∈ s.given, g ∈ next.given) (longer : ∀ p ∈ h.equated, p ∈ k.equated) :
    next.Justified k where
  supported b member :=
    grows.supported closed longer (justified.supported b (records ▸ member))
  integral b member integer :=
    have old := records ▸ member
    justified.integral b old (isInt b old ▸ integer)
  anchored α holds := by
    rw [records]
    exact justified.anchored α (rows α holds)
  origin b member is_given :=
    (justified.origin b (records ▸ member) is_given).imp_right fun ⟨g, at_g, bad⟩ =>
      ⟨g, given g at_g, bad⟩

/-- The same content with longer stores grows. -/
theorem Grows.of_eq (columns : next.columns = s.columns) (tableau : next.tableau = s.tableau)
    (monomials : next.monomials = s.monomials) (given : next.given = s.given)
    (nodes : s.dependencies.Extends next.dependencies)
    (atoms : ∀ a atom, s.atoms.get? a = some atom → ∃ later, next.atoms.get? a = some later ∧
      later.var = atom.var ∧ later.kind = atom.kind ∧ later.threshold = atom.threshold)
    (asserted : ∀ l ∈ s.atoms.asserted, l ∈ next.atoms.asserted)
    (reliable : next.Reliable → s.Reliable) : s.Grows next where
  solves _ solves :=
    { integral := fun v integer => solves.integral v (isInt_congr columns v ▸ integer)
      rows := tableau ▸ solves.rows
      monomials := monomials ▸ solves.monomials
      given := given ▸ solves.given }
  nodes := nodes
  atoms := atoms
  asserted := asserted
  reliable := reliable

/-- What is registered depends on the variables, the atoms and the asserted literals only. -/
theorem Registered.congr (registered : s.Registered h) (columns : next.columns = s.columns)
    (atoms : next.atoms.atoms = s.atoms.atoms) (asserted : next.atoms.asserted = s.atoms.asserted) :
    next.Registered h := by
  have same_get (a : AtomId) : next.atoms.get? a = s.atoms.get? a := by
    rw [AtomRegistry.get?, AtomRegistry.get?, atoms]
  constructor
  · intro a atom found
    rw [numVars_congr columns]
    exact registered.atom_lt a atom (same_get a ▸ found)
  · intro l
    rw [asserted]
    exact registered.asserted l
  · intro l member
    rw [same_get]
    exact registered.assigned l (asserted ▸ member)
  · intro a atom sign found assigned
    rw [asserted]
    exact registered.signed a atom sign (same_get a ▸ found) assigned
  · rw [numVars_congr columns]
    exact registered.pair_lt

theorem Multiplied.congr (multiplied : s.Multiplied) (columns : next.columns = s.columns)
    (monomials : next.monomials = s.monomials) : next.Multiplied where
  var_lt m member := numVars_congr columns ▸ multiplied.var_lt m (monomials ▸ member)
  factor_lt m member v factor :=
    numVars_congr columns ▸ multiplied.factor_lt m (monomials ▸ member) v factor
  integral m member integer v factor := by
    rw [isInt_congr columns] at integer ⊢
    exact multiplied.integral m (monomials ▸ member) integer v factor
  degree m member := multiplied.degree m (monomials ▸ member)

end Engine.State

end ArithDecide
