import ArithDecide.Proofs.Invariant

/-!
# Elementary changes keep the invariant

One lemma for each field or group of fields that an elementary step of the engine changes. Most
changes let the state grow without touching the equations; moving values, normalizing and pivoting
change the assignment or the rows, and their lemmas are about exactly that.
-/

namespace ArithDecide.Engine.State

variable {s next : State} {h : History}

/-! ## Queues, reports and verdicts -/

/-- A change of fields that no part of the invariant reads, apart from the verdict. -/
theorem Founded.of_same (inv : s.Founded h) (formed : next.Formed)
    (columns : next.columns = s.columns) (tableau : next.tableau = s.tableau)
    (monomials : next.monomials = s.monomials) (given : next.given = s.given)
    (nodes : s.dependencies.Extends next.dependencies)
    (atoms : next.atoms.atoms = s.atoms.atoms) (asserted : next.atoms.asserted = s.atoms.asserted)
    (records : next.bounds.records = s.bounds.records) (reliable : next.Reliable → s.Reliable)
    (blamed : ∀ d, next.status = .infeasible d → s.Blames h d) : next.Founded h := by
  have same_get (a : AtomId) : next.atoms.get? a = s.atoms.get? a := by
    rw [AtomRegistry.get?, AtomRegistry.get?, atoms]
  have grows : s.Grows next :=
    .of_eq columns tableau monomials given nodes
      (fun a atom found => ⟨atom, by rw [same_get, found], rfl, rfl, rfl⟩)
      (fun l member => asserted ▸ member) reliable
  have closed := inv.formed.closed
  exact
    { formed := formed
      justified := inv.justified.grow closed grows records (fun b _ => isInt_congr columns _)
        (fun α holds => tableau ▸ holds) (fun g member => given ▸ member) fun _ member => member
      registered := inv.registered.congr columns atoms asserted
      multiplied := inv.multiplied.congr columns monomials
      given_lt := fun g member => numVars_congr columns ▸ inv.given_lt g (given ▸ member)
      blamed := fun d failed =>
        grows.blames closed (fun _ member => member) (fun _ member => member) (blamed d failed) }

theorem Founded.touch (inv : s.Founded h) (touched : List RowId) :
    Founded { s with touched := touched } h :=
  have f := inv.formed
  inv.of_same { f with passed := fun scope outer same => { f.passed scope outer same with } }
    rfl rfl rfl rfl (.refl _) rfl rfl rfl id inv.blamed

theorem Founded.queue (inv : s.Founded h) (propagations : List Propagation)
    (equalities : List EqualityReport) :
    Founded { s with propagations := propagations, equalities := equalities } h :=
  have f := inv.formed
  inv.of_same { f with passed := fun scope outer same => { f.passed scope outer same with } }
    rfl rfl rfl rfl (.refl _) rfl rfl rfl id inv.blamed

theorem Founded.report (inv : s.Founded h) (pair : VarPair) (report : EqualityReport) :
    Founded { s with
      reported := s.reported ++ [pair], equalities := s.equalities ++ [report] } h :=
  have f := inv.formed
  inv.of_same
    { f with
      passed := fun scope outer same =>
        have p := f.passed scope outer same
        { p with reported := p.reported.trans (by simp) } }
    rfl rfl rfl rfl (.refl _) rfl rfl rfl id inv.blamed

theorem Founded.depend (inv : s.Founded h) {arena : DependencyArena}
    (nodes : s.dependencies.Extends arena) (closed : arena.Closed) :
    Founded { s with dependencies := arena } h :=
  have f := inv.formed
  inv.of_same
    { f with
      closed := closed
      passed := fun scope outer same =>
        have p := f.passed scope outer same
        { p with dependencies := p.dependencies.trans nodes.size_le } }
    rfl rfl rfl rfl nodes rfl rfl rfl id inv.blamed

theorem Founded.infeasible (inv : s.Founded h) {d : Dependency} (blames : s.Blames h d) :
    Founded { s with status := .infeasible d } h :=
  have f := inv.formed
  inv.of_same { f with passed := fun scope outer same => { f.passed scope outer same with } }
    rfl rfl rfl rfl (.refl _) rfl rfl rfl id fun _ same =>
      Status.infeasible.inj same ▸ blames

theorem Founded.feasible (inv : s.Founded h) {status : Status}
    (feasible : ∀ d, status ≠ .infeasible d) : Founded { s with status := status } h :=
  have f := inv.formed
  inv.of_same { f with passed := fun scope outer same => { f.passed scope outer same with } }
    rfl rfl rfl rfl (.refl _) rfl rfl rfl id fun d same =>
      absurd same (feasible d)

theorem Founded.values (inv : s.Founded h) {values : Array InfRat}
    {valueTrail : List (Var × InfRat)} {toPatch : List Var} (size : values.size = s.values.size)
    (longer : s.valueTrail.length ≤ valueTrail.length) :
    Founded { s with values := values, valueTrail := valueTrail, toPatch := toPatch } h :=
  have f := inv.formed
  inv.of_same
    { f with
      values_size := size.trans f.values_size
      passed := fun scope outer same =>
        have p := f.passed scope outer same
        { p with valueTrail := p.valueTrail.trans longer } }
    rfl rfl rfl rfl (.refl _) rfl rfl rfl id inv.blamed

/-! ## Atoms -/

theorem get?_markPropagated (registry : AtomRegistry) (a b : AtomId) :
    ((registry.markPropagated a).get? b).map (fun atom => { atom with propagated := true }) =
      (registry.get? b).map fun atom => { atom with propagated := true } := by
  rw [AtomRegistry.markPropagated]
  split
  · rfl
  · simp only [AtomRegistry.get?, Array.getElem?_modify]
    split
    · rw [Option.map_map]
      rfl
    · rfl

/-- Marking an atom as handed out changes nothing but the mark. -/
theorem markPropagated_spec {registry : AtomRegistry} {a b : AtomId} {atom : Atom}
    (found : registry.get? b = some atom) : ∃ later, (registry.markPropagated a).get? b = some later ∧
      later.var = atom.var ∧ later.kind = atom.kind ∧ later.threshold = atom.threshold ∧
      later.assignment = atom.assignment := by
  have same := get?_markPropagated registry a b
  rw [found, Option.map_some, Option.map_eq_some_iff] at same
  obtain ⟨later, at_b, same⟩ := same
  refine ⟨later, at_b, ?_⟩
  cases later
  cases atom
  simp_all

theorem markPropagated_spec_inv {registry : AtomRegistry} {a b : AtomId} {later : Atom}
    (found : (registry.markPropagated a).get? b = some later) : ∃ atom, registry.get? b = some atom ∧
      later.var = atom.var ∧ later.kind = atom.kind ∧ later.threshold = atom.threshold ∧
      later.assignment = atom.assignment := by
  have same := get?_markPropagated registry a b
  rw [found, Option.map_some, eq_comm, Option.map_eq_some_iff] at same
  obtain ⟨atom, at_b, same⟩ := same
  refine ⟨atom, at_b, ?_⟩
  cases later
  cases atom
  simp_all

@[simp] theorem asserted_markPropagated (registry : AtomRegistry) (a : AtomId) :
    (registry.markPropagated a).asserted = registry.asserted := by
  rw [AtomRegistry.markPropagated]
  split <;> rfl

@[simp] theorem processed_markPropagated (registry : AtomRegistry) (a : AtomId) :
    (registry.markPropagated a).processed = registry.processed := by
  rw [AtomRegistry.markPropagated]
  split <;> rfl

@[simp] theorem size_markPropagated (registry : AtomRegistry) (a : AtomId) :
    (registry.markPropagated a).atoms.size = registry.atoms.size := by
  rw [AtomRegistry.markPropagated]
  split <;> simp

theorem length_trail_markPropagated (registry : AtomRegistry) (a : AtomId) :
    registry.trail.length ≤ (registry.markPropagated a).trail.length := by
  rw [AtomRegistry.markPropagated]
  split <;> simp

/-- A change of the atoms that keeps what they are about and what was asserted. -/
theorem Founded.atoms (inv : s.Founded h) (atoms : AtomRegistry)
    (passed : ∀ m, s.atoms.Passed m → atoms.Passed m)
    (later : ∀ a atom, s.atoms.get? a = some atom → ∃ later, atoms.get? a = some later ∧
      later.var = atom.var ∧ later.kind = atom.kind ∧ later.threshold = atom.threshold)
    (asserted : ∀ l ∈ s.atoms.asserted, l ∈ atoms.asserted)
    {k : History} (longer : ∀ p ∈ h.equated, p ∈ k.equated)
    (rejected : ∀ l ∈ h.rejected, l ∈ k.rejected)
    (registered : Registered { s with atoms := atoms } k) : Founded { s with atoms := atoms } k :=
  have f := inv.formed
  have grows : s.Grows { s with atoms := atoms } := .of_eq rfl rfl rfl rfl (.refl _) later asserted id
  { formed :=
      { f with
        passed := fun scope outer same =>
          have p := f.passed scope outer same
          { p with atoms := passed _ p.atoms } }
    justified := inv.justified.grow f.closed grows rfl (fun _ _ => rfl) (fun _ holds => holds)
      (fun _ member => member) longer
    registered := registered
    multiplied := { inv.multiplied with }
    given_lt := inv.given_lt
    blamed := fun d failed => grows.blames f.closed longer rejected (inv.blamed d failed) }

/-- Marking an atom changes neither its fact nor its sign. -/
theorem Founded.markPropagated (inv : s.Founded h) (a : AtomId) :
    Founded { s with atoms := s.atoms.markPropagated a } h := by
  have r := inv.registered
  refine inv.atoms _ ?_ ?_ ?_ (fun _ member => member) (fun _ member => member) ?_
  · intro m passed
    exact ⟨by simpa using passed.atoms, passed.trail.trans (length_trail_markPropagated _ _),
      by simpa using passed.asserted⟩
  · intro b atom found
    obtain ⟨later, found', var_eq, kind_eq, threshold_eq, -⟩ := markPropagated_spec found
    exact ⟨later, found', var_eq, kind_eq, threshold_eq⟩
  · simp
  · constructor
    · intro b later found
      obtain ⟨atom, found', var_eq, -⟩ := markPropagated_spec_inv found
      exact var_eq ▸ r.atom_lt b atom found'
    · simpa using r.asserted
    · intro l member
      obtain ⟨atom, found, assigned⟩ := r.assigned l (by simpa using member)
      obtain ⟨later, found', -, -, -, same⟩ := markPropagated_spec found
      exact ⟨later, found', same.trans assigned⟩
    · intro b later sign found assigned
      obtain ⟨atom, found', -, -, -, same⟩ := markPropagated_spec_inv found
      simpa using r.signed b atom sign found' (same ▸ assigned)
    · exact r.pair_lt

theorem Founded.dequeue (inv : s.Founded h) {l : Literal} {atoms : AtomRegistry}
    (taken : s.atoms.next? = some (l, atoms)) : Founded { s with atoms := atoms } h := by
  rw [AtomRegistry.next?] at taken
  split at taken
  · cases taken
  · obtain ⟨rfl, rfl⟩ := Prod.mk.inj (Option.some.inj taken)
    refine inv.atoms { s.atoms with processed := s.atoms.processed + 1 }
      (fun m passed => { passed with })
      (fun a atom found => ⟨atom, found, rfl, rfl, rfl⟩) (fun _ member => member)
      (fun _ member => member) (fun _ member => member) { inv.registered with }

theorem get?_add (registry : AtomRegistry) (v : Var) (kind : BoundKind) (threshold : Rat)
    (a : AtomId) :
    (registry.add v kind threshold).get? a =
      if a = registry.atoms.size then some ⟨v, kind, threshold, none, false⟩
      else registry.get? a := by
  rw [AtomRegistry.add, AtomRegistry.get?, AtomRegistry.get?, Array.getElem?_push]

theorem get?_add_of_some {registry : AtomRegistry} {a : AtomId} {atom : Atom}
    (found : registry.get? a = some atom) (v : Var) (kind : BoundKind) (threshold : Rat) :
    (registry.add v kind threshold).get? a = some atom := by
  have bound := (Array.getElem?_eq_some_iff.1 found).1
  rw [get?_add, if_neg (Nat.ne_of_lt bound), found]

/-- An atom about a variable may be added at any time: no bound and no literal is about it yet. -/
theorem Founded.intern (inv : s.Founded h) {v : Var} (lt : v < s.numVars) (kind : BoundKind)
    (threshold : Rat) : Founded { s with atoms := s.atoms.add v kind threshold } h := by
  have r := inv.registered
  refine inv.atoms (s.atoms.add v kind threshold) (fun m passed => ?_) ?_ (fun _ member => member)
    (fun _ member => member) (fun _ member => member) ?_
  · exact { passed with atoms := passed.atoms.trans (by simp [AtomRegistry.add]) }
  · intro a atom found
    exact ⟨atom, get?_add_of_some found v kind threshold, rfl, rfl, rfl⟩
  · constructor
    · intro a atom found
      rw [get?_add] at found
      split at found
      · exact Option.some.inj found ▸ lt
      · exact r.atom_lt a atom found
    · exact r.asserted
    · intro l member
      obtain ⟨atom, found, assigned⟩ := r.assigned l member
      exact ⟨atom, get?_add_of_some found v kind threshold, assigned⟩
    · intro a atom sign found assigned
      rw [get?_add] at found
      split at found
      · rw [← Option.some.inj found] at assigned
        cases assigned
      · exact r.signed a atom sign found assigned
    · exact r.pair_lt

/-! ## Bounds -/

/-- What a bound needs to be offered to the store. -/
structure Offered (s : State) (h : History) (b : Bound) : Prop where
  lt : b.var < s.numVars
  supported : s.Supported h b
  follows : ¬b.Anchored → ∀ α : Var → Rat, s.tableau.Holds α →
    (∀ c ∈ s.bounds.records, c.Holds α) → b.Holds α
  origin : b.origin = .given → b.Coherent ∨ ∃ g ∈ s.given, ¬g.Coherent

/-- What a bound needs to be installed. -/
structure Installable (s : State) (h : History) (b : Bound) : Prop extends s.Offered h b where
  integral : s.isInt b.var = true → ∃ n : Int, b.value = .ofRat n

theorem Founded.note (inv : s.Founded h) (v : Var) (kind : BoundKind) :
    Founded { s with bounds := s.bounds.note v kind } h :=
  have f := inv.formed
  inv.of_same
    { f with
      bounds := f.bounds.note v kind
      passed := fun scope outer same =>
        have p := f.passed scope outer same
        { p with bounds := ⟨p.bounds.1.trans (Nat.le_succ _), p.bounds.2⟩ } }
    rfl rfl rfl rfl (.refl _) rfl rfl rfl id inv.blamed

/-- A bound may be installed if its reason names what is in force and enforces it: the active bound of
its side is the only one that changes. -/
theorem Founded.install (inv : s.Founded h) {b : Bound} {store : BoundStore}
    (ok : s.Installable h b) (done : s.bounds.assert b = .tightened store) :
    Founded { s with bounds := store } h := by
  have f := inv.formed
  have j := inv.justified
  have installed := BoundStore.installed_of_tightened f.bounds ok.lt done
  have grows : s.Grows { s with bounds := store } :=
    .of_eq rfl rfl rfl rfl (.refl _) (fun a atom found => ⟨atom, found, rfl, rfl, rfl⟩)
      (fun _ member => member) id
  have same_equated : ∀ p ∈ h.equated, p ∈ h.equated := fun _ member => member
  have records (c : Bound) : c ∈ store.records ↔ c ∈ s.bounds.records ∨ c = b := by
    rw [installed.records, Array.mem_push]
  refine
    { formed :=
        { f with
          bounds := installed.wellFormed f.bounds
          passed := fun scope outer same =>
            have p := f.passed scope outer same
            { p with bounds := ?_ } }
      justified := ?_
      registered := { inv.registered with }
      multiplied := { inv.multiplied with }
      given_lt := inv.given_lt
      blamed := fun d failed =>
        grows.blames f.closed same_equated (fun _ member => member) (inv.blamed d failed) }
  · rw [BoundStore.tightened_eq done]
    exact ⟨p.bounds.1.trans (Nat.le_succ _),
      p.bounds.2.trans (by simp [BoundStore.install, BoundStore.note])⟩
  constructor
  · intro c member
    rcases (records c).1 member with old | rfl
    · exact grows.supported f.closed same_equated (j.supported c old)
    · exact grows.supported f.closed same_equated ok.supported
  · intro c member
    rcases (records c).1 member with old | rfl
    · exact j.integral c old
    · exact ok.integral
  · intro α holds anchored
    have old : ∀ c ∈ s.bounds.records, c.Holds α :=
      j.anchored α holds fun c member => anchored c ((records c).2 (.inl member))
    intro c member
    rcases (records c).1 member with member | rfl
    · exact old c member
    · by_cases rests : c.Anchored
      · exact anchored c member rests
      · exact ok.follows rests α holds old
  · intro c member
    rcases (records c).1 member with old | rfl
    · exact j.origin c old
    · exact ok.origin

/-! ## Rows -/

theorem grows_rows {tableau : Tableau}
    (holds : ∀ α : Var → Rat, tableau.Holds α → s.tableau.Holds α) :
    s.Grows { s with tableau := tableau } :=
  { Grows.refl s with solves := fun α solves => { solves with rows := holds α solves.rows } }

/-- A change of the rows that adds nothing but equations. -/
theorem Founded.rows (inv : s.Founded h) {tableau : Tableau}
    (well : tableau.WellFormed s.numVars) (recording : tableau.recording = s.tableau.recording)
    (longer : s.tableau.trail.length ≤ tableau.trail.length)
    (holds : ∀ α : Var → Rat, tableau.Holds α → s.tableau.Holds α) :
    Founded { s with tableau := tableau } h :=
  have f := inv.formed
  have grows := grows_rows holds
  { formed :=
      { f with
        tableau := well
        recording := recording.trans f.recording
        passed := fun scope outer same =>
          have p := f.passed scope outer same
          { p with tableau := p.tableau.trans longer } }
    justified := inv.justified.grow f.closed grows rfl (fun _ _ => rfl) holds
      (fun _ member => member) fun _ member => member
    registered := { inv.registered with }
    multiplied := { inv.multiplied with }
    given_lt := inv.given_lt
    blamed := fun d failed =>
      grows.blames f.closed (fun _ member => member) (fun _ member => member)
        (inv.blamed d failed) }

theorem length_trail_record (rows : Array Row) (trail : List TableauChange) (recording : Bool)
    (change : TableauChange) :
    trail.length ≤ (Tableau.record ⟨rows, trail, recording⟩ change).trail.length := by
  rw [Tableau.record]
  split
  · exact Nat.le_succ _
  · exact Nat.le_refl _

theorem Founded.normalize (inv : s.Founded h) (r : RowId) :
    Founded { s with tableau := s.tableau.normalize r } h := by
  refine inv.rows (Tableau.wellFormed_normalize inv.formed.tableau r) ?_ ?_
    fun α => (Tableau.holds_normalize r α).1
  · rw [Tableau.normalize]
    split
    · rfl
    · exact Tableau.record_recording _ _
  · rw [Tableau.normalize]
    split
    · exact Nat.le_refl _
    · exact length_trail_record _ _ _ _

theorem Founded.pivot (inv : s.Founded h) (settled : s.tableau.Normalized) {r : RowId} {row : Row}
    {entering : Var} (found : s.tableau.get? r = some row)
    (occurs : row.form.coeff entering ≠ 0) :
    Founded { s with tableau := s.tableau.pivot r entering } h := by
  refine inv.rows (Tableau.wellFormed_pivot inv.formed.tableau settled found occurs) ?_ ?_
    fun α => (Tableau.holds_pivot found occurs α).1
  · simp only [Tableau.pivot, found, Tableau.record_recording]
  · simp only [Tableau.pivot, found]
    exact length_trail_record _ _ _ _

theorem Founded.addRow (inv : s.Founded h) {base : Var} {form : LinearForm}
    (fresh : s.tableau.isFresh base = true) (own : form.coeff base = 0) (base_lt : base < s.numVars)
    (var_lt : ∀ v, form.coeff v ≠ 0 → v < s.numVars) :
    Founded { s with tableau := s.tableau.addRow base form } h :=
  inv.rows (Tableau.wellFormed_addRow inv.formed.tableau fresh own base_lt var_lt)
    (Tableau.record_recording _ _) (length_trail_record _ _ _ _)
    fun α holds => ((Tableau.holds_addRow base form α).1 holds).1

/-! ## Variables -/

/-- The state with one more variable. -/
def withVar (s : State) (column : Variable) : State :=
  { s with
    columns := s.columns.push column
    values := s.values.push 0
    bounds := s.bounds.addVar }

@[simp] theorem numVars_withVar (s : State) (column : Variable) :
    (s.withVar column).numVars = s.numVars + 1 := by
  simp [withVar, numVars]

theorem isInt_lt {v : Var} (integer : s.isInt v = true) : v < s.numVars := by
  refine Decidable.byContradiction fun outside => ?_
  have absent : s.columns[v]? = none := Array.getElem?_eq_none (Nat.not_lt.1 outside)
  simp [isInt, sort, absent] at integer

theorem isInt_withVar (s : State) (column : Variable) (v : Var) :
    (s.withVar column).isInt v =
      if v = s.numVars then decide (column.sort = .int) else s.isInt v := by
  rw [isInt, sort, withVar, Array.getElem?_push]
  split
  · rename_i here
    rw [if_pos (show v = s.numVars from here)]
    rfl
  · rename_i away
    rw [if_neg (show ¬v = s.numVars from away)]
    rfl

theorem isInt_withVar_of_lt (column : Variable) {v : Var} (lt : v < s.numVars) :
    (s.withVar column).isInt v = s.isInt v := by
  rw [isInt_withVar, if_neg (Nat.ne_of_lt lt)]

theorem stored_withVar (s : State) (column : Variable) :
    (s.withVar column).stored = s.stored := by
  funext v
  rw [stored, stored, withVar, Array.getElem?_push]
  split
  · rename_i here
    have absent : s.values[v]? = none := Array.getElem?_eq_none (Nat.le_of_eq here.symm)
    rw [absent]
    rfl
  · rfl

/-- Records are about variables that exist. -/
theorem Formed.record_lt (formed : s.Formed) {b : Bound} (member : b ∈ s.bounds.records) :
    b.var < s.numVars := by
  obtain ⟨active, found, -⟩ := formed.bounds.dominated b member
  obtain ⟨id, slot, -⟩ := BoundStore.slot_of_get found
  refine Decidable.byContradiction fun outside => ?_
  cases kind : b.kind with
  | lower =>
    rw [kind, BoundSlots.get, Array.getElem?_eq_none
      (formed.bounds.lower_size ▸ Nat.not_lt.1 outside)] at slot
    cases slot
  | upper =>
    rw [kind, BoundSlots.get, Array.getElem?_eq_none
      (formed.bounds.upper_size ▸ Nat.not_lt.1 outside)] at slot
    cases slot

theorem grows_withVar (s : State) (column : Variable) : s.Grows (s.withVar column) :=
  { Grows.refl s with
    solves := fun _ solves =>
      { solves with
        integral := fun v integer =>
          solves.integral v (by rwa [isInt_withVar_of_lt column (isInt_lt integer)]) } }

/-- A variable may be added at any time: nothing is known about it yet, and nothing mentions it. -/
theorem Founded.withVar (inv : s.Founded h) (column : Variable) :
    Founded (s.withVar column) h := by
  have f := inv.formed
  have r := inv.registered
  have m := inv.multiplied
  have numVars := numVars_withVar s column
  have step {v : Var} (lt : v < s.numVars) : v < s.numVars + 1 := Nat.lt_succ_of_lt lt
  have grows := grows_withVar s column
  refine
    { formed :=
        { f with
          values_size := by simp [State.withVar, f.values_size, State.numVars]
          tableau := numVars ▸ f.tableau.mono (Nat.le_succ _)
          bounds := numVars ▸ f.bounds.addVar
          passed := fun scope outer same =>
            have p := f.passed scope outer same
            { p with numVars := numVars ▸ p.numVars.trans (Nat.le_succ _) } }
      justified := inv.justified.grow f.closed grows rfl
        (fun b member => isInt_withVar_of_lt column (f.record_lt member)) (fun _ holds => holds)
        (fun _ member => member) fun _ member => member
      registered :=
        { r with
          atom_lt := fun a atom found => numVars ▸ step (r.atom_lt a atom found)
          pair_lt := fun p member =>
            numVars ▸ ⟨step (r.pair_lt p member).1, step (r.pair_lt p member).2⟩ }
      multiplied :=
        { var_lt := fun m' member => numVars ▸ step (m.var_lt m' member)
          factor_lt := fun m' member v factor => numVars ▸ step (m.factor_lt m' member v factor)
          integral := fun m' member integer v factor => ?_
          degree := m.degree }
      given_lt := fun g member => numVars ▸ step (inv.given_lt g member)
      blamed := fun d failed =>
        grows.blames f.closed (fun _ member => member) (fun _ member => member)
          (inv.blamed d failed) }
  rw [isInt_withVar_of_lt column (m.var_lt m' member)] at integer
  rw [isInt_withVar_of_lt column (m.factor_lt m' member v factor)]
  exact m.integral m' member integer v factor

/-! ## Monomials and unconditional bounds -/

theorem grows_monomial (s : State) (m : Monomial) :
    s.Grows { s with monomials := s.monomials ++ [m] } :=
  { Grows.refl s with
    solves := fun _ solves =>
      { solves with
        monomials := fun m' member => solves.monomials m' (List.mem_append_left _ member) } }

/-- A product of at least two variables may be added; if its own variable is an integer, so are the
factors. -/
theorem Founded.monomial (inv : s.Founded h) {m : Monomial} (var_lt : m.var < s.numVars)
    (factor_lt : ∀ v ∈ m.factors, v < s.numVars)
    (integral : s.isInt m.var = true → ∀ v ∈ m.factors, s.isInt v = true)
    (degree : 2 ≤ m.factors.length) : Founded { s with monomials := s.monomials ++ [m] } h :=
  have f := inv.formed
  have old := inv.multiplied
  have grows := grows_monomial s m
  { formed :=
      { f with
        passed := fun scope outer same =>
          have p := f.passed scope outer same
          { p with monomials := p.monomials.trans (by simp) } }
    justified := inv.justified.grow f.closed grows rfl (fun _ _ => rfl) (fun _ holds => holds)
      (fun _ member => member) fun _ member => member
    registered := { inv.registered with }
    multiplied :=
      { var_lt := by
          simpa [or_imp, forall_and] using ⟨old.var_lt, var_lt⟩
        factor_lt := by
          simpa [or_imp, forall_and] using ⟨old.factor_lt, factor_lt⟩
        integral := by
          simpa [or_imp, forall_and] using ⟨old.integral, integral⟩
        degree := by
          simpa [or_imp, forall_and] using ⟨old.degree, degree⟩ }
    given_lt := inv.given_lt
    blamed := fun d failed =>
      grows.blames f.closed (fun _ member => member) (fun _ member => member)
        (inv.blamed d failed) }

theorem grows_give (s : State) (g : GivenBound) : s.Grows { s with given := s.given ++ [g] } :=
  { Grows.refl s with
    solves := fun _ solves =>
      { solves with
        given := fun g' member => solves.given g' (List.mem_append_left _ member) } }

/-- Recording an unconditional bound changes no other part of the state. -/
theorem Founded.give (inv : s.Founded h) {g : GivenBound} (lt : g.var < s.numVars) :
    Founded { s with given := s.given ++ [g] } h :=
  have f := inv.formed
  have grows := grows_give s g
  { formed :=
      { f with
        passed := fun scope outer same =>
          have p := f.passed scope outer same
          { p with given := p.given.trans (by simp) } }
    justified := inv.justified.grow f.closed grows rfl (fun _ _ => rfl) (fun _ holds => holds)
      (fun _ member => List.mem_append_left _ member) fun _ member => member
    registered := { inv.registered with }
    multiplied := { inv.multiplied with }
    given_lt := by
      simpa [or_imp, forall_and] using ⟨inv.given_lt, lt⟩
    blamed := fun d failed =>
      grows.blames f.closed (fun _ member => member) (fun _ member => member)
        (inv.blamed d failed) }

/-! ## What was asserted -/

/-- What was rejected or said to be equal in addition takes nothing back. -/
theorem Founded.history (inv : s.Founded h) {k : History}
    (asserted : ∀ l, l ∈ k.asserted ↔ l ∈ h.asserted) (rejected : ∀ l ∈ h.rejected, l ∈ k.rejected)
    (equated : ∀ p ∈ h.equated, p ∈ k.equated)
    (pair_lt : ∀ p ∈ k.equated, p.left < s.numVars ∧ p.right < s.numVars) : s.Founded k :=
  have f := inv.formed
  have grows := Grows.refl s
  { formed := f
    justified := inv.justified.grow f.closed grows rfl (fun _ _ => rfl) (fun _ holds => holds)
      (fun _ member => member) equated
    registered :=
      { inv.registered with
        asserted := fun l => (inv.registered.asserted l).trans (asserted l).symm
        pair_lt := pair_lt }
    multiplied := inv.multiplied
    given_lt := inv.given_lt
    blamed := fun d failed => grows.blames f.closed equated rejected (inv.blamed d failed) }

/-- What queueing a literal does to the registry. -/
theorem assign_eq {registry atoms : AtomRegistry} {l : Literal}
    (queued : registry.assign l = .queued atoms) :
    (registry.get? l.atom).bind Atom.assignment = none ∧
      atoms = { registry with
        atoms := registry.atoms.modify l.atom fun atom =>
          { atom with assignment := some !l.negative }
        asserted := registry.asserted ++ [l]
        trail := .assigned l.atom :: registry.trail } := by
  rw [AtomRegistry.assign] at queued
  split at queued
  · split at queued <;> cases queued
  · rename_i free
    exact ⟨free, (Assignment.queued.inj queued).symm⟩

theorem get?_assign {registry atoms : AtomRegistry} {l : Literal}
    (queued : registry.assign l = .queued atoms) (a : AtomId) :
    atoms.get? a = (registry.get? a).map fun atom =>
      if a = l.atom then { atom with assignment := some !l.negative } else atom := by
  rw [(assign_eq queued).2, AtomRegistry.get?, AtomRegistry.get?, Array.getElem?_modify]
  by_cases here : l.atom = a
  · simp only [here, if_true]
  · simp only [here, if_false, Ne.symm here, Option.map_id']

theorem grows_assign {l : Literal} {atoms : AtomRegistry}
    (queued : s.atoms.assign l = .queued atoms) : s.Grows { s with atoms := atoms } := by
  refine .of_eq rfl rfl rfl rfl (.refl _) (fun a atom at_a => ?_) (fun m member => ?_) id
  · refine ⟨_, by rw [get?_assign queued, at_a, Option.map_some], ?_⟩
    split <;> exact ⟨rfl, rfl, rfl⟩
  · rw [(assign_eq queued).2]
    exact List.mem_append_left _ member

/-- Queueing a literal that its atom leaves open keeps the state founded, once the history tells that it
was asserted. -/
theorem Founded.assign (inv : s.Founded h) {l : Literal} {atoms : AtomRegistry}
    (queued : s.atoms.assign l = .queued atoms) (known : (s.atoms.get? l.atom).isSome)
    {k : History} (asserted : ∀ m, m ∈ k.asserted ↔ m ∈ h.asserted ∨ m = l)
    (rejected : ∀ l ∈ h.rejected, l ∈ k.rejected) (equated : k.equated = h.equated) :
    Founded { s with atoms := atoms } k := by
  have r := inv.registered
  obtain ⟨free, atoms_eq⟩ := assign_eq queued
  have found := get?_assign queued
  have asserted_eq : atoms.asserted = s.atoms.asserted ++ [l] := by rw [atoms_eq]
  have grows := grows_assign queued
  refine inv.atoms atoms ?_ grows.atoms grows.asserted (fun p member => equated ▸ member) rejected ?_
  · intro m passed
    rw [atoms_eq]
    exact ⟨by simpa using passed.atoms, passed.trail.trans (Nat.le_succ _),
      passed.asserted.trans (by simp)⟩
  constructor
  · intro a later at_a
    rw [found, Option.map_eq_some_iff] at at_a
    obtain ⟨atom, before, rfl⟩ := at_a
    have lt := r.atom_lt a atom before
    split <;> exact lt
  · intro m
    rw [asserted, asserted_eq, List.mem_append, List.mem_singleton, r.asserted]
  · intro m member
    rw [found]
    rcases List.mem_append.1 (asserted_eq ▸ member) with old | new
    · obtain ⟨atom, before, assigned⟩ := r.assigned m old
      have apart : m.atom ≠ l.atom := by
        intro same
        rw [← same, before, Option.bind_some, assigned] at free
        cases free
      exact ⟨atom, by simp only [before, Option.map_some, apart, if_false], assigned⟩
    · obtain rfl := List.mem_singleton.1 new
      obtain ⟨atom, before⟩ := Option.isSome_iff_exists.1 known
      exact ⟨{ atom with assignment := some !m.negative },
        by simp only [before, Option.map_some, if_true], rfl⟩
  · intro a later sign at_a assigned
    rw [found, Option.map_eq_some_iff] at at_a
    obtain ⟨atom, before, rfl⟩ := at_a
    rw [asserted_eq, List.mem_append, List.mem_singleton]
    split at assigned
    · rename_i here
      subst here
      obtain rfl := Option.some.inj assigned
      exact .inr (by simp [Literal.ofSign])
    · exact .inl (r.signed a atom sign before assigned)
  · rw [equated]
    exact r.pair_lt

end ArithDecide.Engine.State
