import ArithDecide.Proofs.AtomIndices

/-!
# The atoms and what was asked of them

What a session of the registry keeps: the indices are exact, the asserted literals are those that were
accepted, one for every atom with a sign, those that were handed out are the first of them, and
retracting to a mark leads to the atoms of the moment at which it was set. The main statement is
`AtomSession.run_exact`.

Lists of variables are no part of what retracting restores: a list may have been dropped since the mark.
Where a variable has a list both then and now it is the same, as the atoms are the same and both lists
are exact.
-/

namespace ArithDecide

/-! ## Signs of atoms -/

namespace AtomRegistry

variable {registry next : AtomRegistry} {l : Literal} {near far : Mark}

/-- The sign with which an atom was asserted. -/
def signOf? (registry : AtomRegistry) (a : AtomId) : Option Bool :=
  (registry.get? a).bind Atom.assignment

/-- The asserted literals are one for every atom with a sign. -/
structure ListsSigns (registry : AtomRegistry) : Prop where
  distinct : (registry.asserted.map Literal.atom).Nodup
  mem : ∀ l, l ∈ registry.asserted ↔ registry.signOf? l.atom = some !l.negative

theorem ListsSigns.of_same (lists : registry.ListsSigns) (asserted : next.asserted = registry.asserted)
    (signs : ∀ a, next.signOf? a = registry.signOf? a) : next.ListsSigns where
  distinct := asserted ▸ lists.distinct
  mem l := by rw [asserted, signs, lists.mem]

theorem signOf?_add (registry : AtomRegistry) (v : Var) (kind : BoundKind) (threshold : Rat)
    (a : AtomId) : (registry.add v kind threshold).signOf? a = registry.signOf? a := by
  rw [signOf?, Engine.State.get?_add, signOf?]
  split
  · rename_i new
    rw [new, get?, Array.getElem?_size]
    rfl
  · rfl

theorem signOf?_markPropagated (registry : AtomRegistry) (a b : AtomId) :
    (registry.markPropagated a).signOf? b = registry.signOf? b := by
  have same := congrArg (Option.bind · Atom.assignment)
    (Engine.State.get?_markPropagated registry a b)
  simp only [Option.bind_map] at same
  exact same

/-- A literal is queued unless its atom has a sign, which then tells what is answered. -/
theorem assign_answer (registry : AtomRegistry) (l : Literal) :
    (registry.signOf? l.atom = none ↔ ∃ next, registry.assign l = .queued next) ∧
      (registry.signOf? l.atom = some !l.negative ↔ registry.assign l = .redundant) ∧
      (registry.signOf? l.atom = some l.negative ↔ registry.assign l = .conflicting) := by
  rw [assign, ← signOf?]
  cases registry.signOf? l.atom with
  | none => simp
  | some sign => cases sign <;> cases l.negative <;> simp

theorem signOf?_assign (queued : registry.assign l = .queued next) (known : (registry.get? l.atom).isSome)
    (a : AtomId) : next.signOf? a = if a = l.atom then some !l.negative else registry.signOf? a := by
  rw [signOf?, Engine.State.get?_assign queued, signOf?]
  split
  · rename_i here
    obtain ⟨atom, found⟩ := Option.isSome_iff_exists.1 known
    rw [here, found]
    rfl
  · simp

/-- No literal of the atom was listed before one is queued, as the atom had no sign; the other atoms
keep theirs. -/
theorem ListsSigns.assign (lists : registry.ListsSigns) (queued : registry.assign l = .queued next)
    (known : (registry.get? l.atom).isSome) : next.ListsSigns := by
  obtain ⟨free, next_eq⟩ := Engine.State.assign_eq queued
  have asserted : next.asserted = registry.asserted ++ [l] := by rw [next_eq]
  have new {m : Literal} (member : m ∈ registry.asserted) : m.atom ≠ l.atom := by
    intro same
    have signed := (lists.mem m).1 member
    rw [same, signOf?, free] at signed
    cases signed
  constructor
  · rw [asserted, List.map_append, List.map_singleton]
    refine List.nodup_append.2 ⟨lists.distinct, List.nodup_singleton _, ?_⟩
    intro a at_a b at_b
    obtain ⟨m, member, rfl⟩ := List.mem_map.1 at_a
    rw [List.mem_singleton.1 at_b]
    exact new member
  · intro m
    rw [asserted, List.mem_append, List.mem_singleton, signOf?_assign queued known]
    split
    · rename_i here
      constructor
      · rintro (member | rfl)
        · exact (new member here).elim
        · rfl
      · intro same
        right
        obtain ⟨a, negative⟩ := m
        obtain ⟨b, opposite⟩ := l
        simp_all
    · rename_i away
      rw [lists.mem]
      refine or_iff_left ?_
      rintro rfl
      exact away rfl

/-! ## Marks in the order of a stack -/

/-- The first mark was set no later than the second one. -/
structure Mark.Older (earlier later : Mark) : Prop where
  atoms : earlier.atoms ≤ later.atoms
  trail : earlier.trail ≤ later.trail
  asserted : earlier.asserted ≤ later.asserted
  processed : earlier.processed ≤ later.processed

theorem Mark.Older.refl (m : Mark) : m.Older m :=
  ⟨Nat.le_refl _, Nat.le_refl _, Nat.le_refl _, Nat.le_refl _⟩

theorem retractTo_retractTo (passed : registry.Passed near) (older : far.Older near) :
    (registry.retractTo near).retractTo far = registry.retractTo far := by
  simp only [retractTo, take_foldl_undo, take_take_of_le older.atoms, List.take_take,
    Nat.min_eq_left older.asserted, foldl_take_drop older.trail passed.trail,
    drop_drop_length older.trail passed.trail]

theorem Passed.retractTo (passed : registry.Passed near) (older : far.Older near) :
    (registry.retractTo near).Passed far := by
  obtain ⟨atoms, trail, asserted⟩ := passed
  obtain ⟨older_atoms, older_trail, older_asserted, -⟩ := older
  constructor
  · simp only [AtomRegistry.retractTo, Array.take_eq_extract, Array.size_extract, size_foldl_undo]
    omega
  · rw [AtomRegistry.retractTo, List.length_drop]
    omega
  · rw [AtomRegistry.retractTo, List.length_take]
    omega

end AtomRegistry

/-! ## What sessions keep -/

namespace AtomSession

variable {s : AtomSession} {plain next : AtomRegistry} {moment later : AtomMoment} {l : Literal}
  {calls : List AtomCall}

/-- Retracting to the mark leads to the atoms of that moment. -/
structure Restores (plain : AtomRegistry) (moment : AtomMoment) : Prop where
  passed : plain.Passed moment.mark
  processed : moment.mark.processed ≤ plain.processed
  accepted : moment.accepted = moment.mark.asserted
  taken : moment.taken = moment.mark.processed
  ordered : moment.mark.processed ≤ moment.mark.asserted
  indexed : moment.registry.Indexed
  lists : moment.registry.ListsSigns
  back : plain.retractTo moment.mark = moment.registry.toAtomRegistry

/-- A step that retracting takes back. -/
theorem Restores.after (restores : Restores plain moment) (passed : next.Passed moment.mark)
    (processed : plain.processed ≤ next.processed)
    (same : next.retractTo moment.mark = plain.retractTo moment.mark) : Restores next moment :=
  { restores with
    passed := passed
    processed := restores.processed.trans processed
    back := same.trans restores.back }

/-- Retracting to a later mark first makes no difference. -/
theorem Restores.older (restores : Restores plain moment) (near : Restores plain later)
    (older : moment.mark.Older later.mark) : Restores (plain.retractTo later.mark) moment :=
  { restores with
    passed := near.passed.retractTo older
    processed := older.processed
    back := (AtomRegistry.retractTo_retractTo near.passed older).trans restores.back }

/-- The asserted literals are the accepted ones, the first of them are those that were taken, and every
mark can be retracted to. -/
structure Follows (plain : AtomRegistry) (accepted taken : List Literal)
    (moments : List AtomMoment) : Prop where
  lists : plain.ListsSigns
  accepted : accepted = plain.asserted
  taken : taken = plain.asserted.take plain.processed
  processed : plain.processed ≤ plain.asserted.length
  restores : ∀ moment ∈ moments, Restores plain moment
  nested : moments.Pairwise fun later earlier => earlier.mark.Older later.mark

section Steps

variable {accepted taken : List Literal} {moments outer : List AtomMoment}
  (follows : Follows plain accepted taken moments)

include follows

theorem Follows.add (fact : AtomFact) :
    Follows (plain.add fact.var fact.kind fact.threshold) accepted taken moments where
  lists := follows.lists.of_same rfl fun a => AtomRegistry.signOf?_add _ _ _ _ a
  accepted := follows.accepted
  taken := follows.taken
  processed := follows.processed
  restores moment member := by
    have restores := follows.restores moment member
    refine restores.after { restores.passed with atoms := restores.passed.atoms.trans ?_ }
      (Nat.le_refl _) (AtomRegistry.retractTo_add restores.passed _ _ _)
    rw [AtomRegistry.add, Array.size_push]
    exact Nat.le_succ _
  nested := follows.nested

/-- A queued literal is accepted: it waits behind all others, and retracting takes it back. -/
theorem Follows.assign (queued : plain.assign l = .queued next) (known : (plain.get? l.atom).isSome) :
    Follows next (accepted ++ [l]) taken moments := by
  have next_eq := (Engine.State.assign_eq queued).2
  have asserted : next.asserted = plain.asserted ++ [l] := by rw [next_eq]
  have processed : next.processed = plain.processed := by rw [next_eq]
  refine ⟨follows.lists.assign queued known, ?_, ?_, ?_, fun moment member => ?_, follows.nested⟩
  · rw [asserted, follows.accepted]
  · rw [asserted, processed, List.take_append_of_le_length follows.processed]
    exact follows.taken
  · rw [asserted, processed, List.length_append]
    exact follows.processed.trans (Nat.le_add_right _ _)
  · have restores := follows.restores moment member
    have passed := restores.passed
    refine restores.after ⟨?_, ?_, ?_⟩ (Nat.le_of_eq processed.symm)
      (AtomRegistry.retractTo_assign passed queued)
    · rw [next_eq, Array.size_modify]
      exact passed.atoms
    · rw [next_eq]
      exact passed.trail.trans (Nat.le_succ _)
    · rw [asserted, List.length_append]
      exact passed.asserted.trans (Nat.le_add_right _ _)

theorem Follows.markPropagated (a : AtomId) :
    Follows (plain.markPropagated a) accepted taken moments where
  lists := follows.lists.of_same (by simp) (AtomRegistry.signOf?_markPropagated plain a)
  accepted := by simpa using follows.accepted
  taken := by simpa using follows.taken
  processed := by simpa using follows.processed
  restores moment member := by
    have restores := follows.restores moment member
    have passed := restores.passed
    refine restores.after ⟨by simpa using passed.atoms, ?_, by simpa using passed.asserted⟩ (by simp)
      (AtomRegistry.retractTo_markPropagated passed a)
    exact passed.trail.trans (Engine.State.length_trail_markPropagated plain a)
  nested := follows.nested

/-- The literal that is handed out is the oldest one that waits. -/
theorem Follows.handOut (handed : plain.next? = some (l, next)) :
    Follows next accepted (taken ++ [l]) moments := by
  have undone (m : AtomRegistry.Mark) : next.retractTo m = plain.retractTo m :=
    AtomRegistry.retractTo_next? handed
  rw [AtomRegistry.next?] at handed
  split at handed
  · cases handed
  · rename_i first rest waiting
    obtain ⟨rfl, rfl⟩ := Prod.mk.inj (Option.some.inj handed)
    have at_front : plain.asserted[plain.processed]? = some first := by
      rw [← List.head?_drop, ← AtomRegistry.queued, waiting, List.head?_cons]
    refine ⟨follows.lists.of_same rfl fun _ => rfl, follows.accepted, ?_, ?_, ?_, follows.nested⟩
    · show taken ++ [first] = plain.asserted.take (plain.processed + 1)
      rw [List.take_add_one, at_front, follows.taken]
      rfl
    · exact (List.getElem?_eq_some_iff.1 at_front).1
    · intro moment member
      have restores := follows.restores moment member
      exact restores.after { restores.passed with } (Nat.le_succ _) (undone _)

/-- A new mark is no older than the others, and retracting to it changes nothing yet. -/
theorem Follows.mark {registry : IndexedRegistry} (same : registry.toAtomRegistry = plain)
    (indexed : registry.Indexed) : Follows plain accepted taken
      (⟨plain.mark, registry, accepted.length, taken.length⟩ :: moments) where
  lists := follows.lists
  accepted := follows.accepted
  taken := follows.taken
  processed := follows.processed
  restores moment member := by
    rcases List.mem_cons.1 member with rfl | old
    · refine ⟨⟨Nat.le_refl _, Nat.le_refl _, Nat.le_refl _⟩, Nat.le_refl _, ?_, ?_, follows.processed,
        indexed, same ▸ follows.lists, ?_⟩
      · show accepted.length = plain.asserted.length
        rw [follows.accepted]
      · show taken.length = plain.processed
        rw [follows.taken, List.length_take, Nat.min_eq_left follows.processed]
      · show plain.retractTo plain.mark = registry.toAtomRegistry
        rw [same, AtomRegistry.retractTo_mark]
    · exact follows.restores moment old
  nested := by
    refine List.pairwise_cons.2 ⟨fun moment member => ?_, follows.nested⟩
    have restores := follows.restores moment member
    exact ⟨restores.passed.atoms, restores.passed.trail, restores.passed.asserted, restores.processed⟩

/-- Retracting leaves the literals that were accepted and taken when the mark was set, and the marks
that were set before it. -/
theorem Follows.retract {index : Nat} (left : moments.drop index = later :: outer) :
    Follows (plain.retractTo later.mark) (accepted.take later.accepted) (taken.take later.taken)
      (later :: outer) := by
  obtain ⟨known, nested⟩ := left_of_drop (fun moment => .refl moment.mark) follows.nested left
  have near := follows.restores later (known later List.mem_cons_self).1
  refine ⟨?_, ?_, ?_, ?_, fun moment member => ?_, nested⟩
  · rw [near.back]
    exact near.lists
  · rw [near.accepted, follows.accepted]
    rfl
  · show taken.take later.taken =
      (plain.asserted.take later.mark.asserted).take later.mark.processed
    rw [near.taken, follows.taken, List.take_take, List.take_take, Nat.min_eq_left near.processed,
      Nat.min_eq_left near.ordered]
  · show later.mark.processed ≤ (plain.asserted.take later.mark.asserted).length
    rw [List.length_take]
    exact le_min near.ordered (near.ordered.trans near.passed.asserted)
  · obtain ⟨member, older⟩ := known moment member
    exact (follows.restores moment member).older near older

/-- What was not taken yet waits, in the order in which it was accepted. -/
theorem Follows.taken_append : taken ++ plain.queued = accepted := by
  rw [follows.taken, follows.accepted, AtomRegistry.queued, List.take_append_drop]

/-- Nothing is handed out only when every accepted literal was. -/
theorem Follows.next?_eq_none_iff : plain.next? = none ↔ taken = accepted := by
  rw [← follows.taken_append, List.self_eq_append_right, AtomRegistry.next?]
  split
  · rename_i none_waits
    simp only [none_waits]
  · rename_i waits
    simp only [waits, reduceCtorEq]

/-- What is taken next was not taken before, and comes next among the accepted literals. -/
theorem Follows.fresh_of_next? (handed : plain.next? = some (l, next)) :
    l ∉ taken ∧ taken ++ [l] <+: accepted := by
  have whole := follows.taken_append
  have distinct : accepted.Nodup := by
    rw [follows.accepted]
    exact follows.lists.distinct.of_map _
  rw [AtomRegistry.next?] at handed
  split at handed
  · cases handed
  · rename_i first rest waiting
    obtain ⟨rfl, -⟩ := Prod.mk.inj (Option.some.inj handed)
    rw [waiting] at whole
    rw [← whole] at distinct ⊢
    refine ⟨fun member => ?_, ⟨rest, by simp⟩⟩
    exact (List.nodup_append.1 distinct).2.2 _ member _ List.mem_cons_self rfl

end Steps

/-- What every session keeps. -/
structure Kept (s : AtomSession) : Prop where
  indexed : s.registry.Indexed
  follows : Follows s.registry.toAtomRegistry s.accepted s.taken s.moments

/-- At the start there are no atoms, no lists and no literals. -/
theorem kept_start : Kept start where
  indexed := by
    have absent (a : AtomId) : start.registry.factOf? a = none := by
      simp [start, IndexedRegistry.empty, AtomRegistry.empty, AtomRegistry.factOf?, AtomRegistry.get?]
    have unlisted (v : Var) : start.registry.listOf? v = none := by
      simp [start, IndexedRegistry.empty, IndexedRegistry.listOf?]
    constructor
    · intro fact a
      rw [absent]
      simp [start, IndexedRegistry.empty, IndexedRegistry.lookup?]
    all_goals
      intro v list at_v
      rw [unlisted] at at_v
      cases at_v
  follows := by
    have none_asserted : start.registry.asserted = [] := rfl
    have unsigned (a : AtomId) : start.registry.signOf? a = none := by
      simp [start, IndexedRegistry.empty, AtomRegistry.empty, AtomRegistry.signOf?, AtomRegistry.get?]
    refine ⟨⟨List.nodup_nil, fun l => ?_⟩, rfl, rfl, Nat.le_refl _, fun _ member => ?_, .nil⟩
    · rw [none_asserted, unsigned]
      simp
    · cases member

theorem Kept.grow (kept : s.Kept) {v : Var} (allowed : s.allows (.grow v) = true) :
    (s.step (.grow v)).Kept := by
  refine ⟨kept.indexed.grow fun a fact states => ?_, kept.follows⟩
  obtain ⟨atom, found, rfl⟩ := Option.map_eq_some_iff.1 states
  have outside := Array.all_eq_true_iff_forall_mem.1 allowed atom (Array.mem_of_getElem? found)
  rwa [Bool.or_eq_true, decide_eq_true_eq, decide_eq_true_eq] at outside

theorem Kept.intern (kept : s.Kept) (fact : AtomFact) : (s.step (.intern fact)).Kept := by
  have same : s.step (.intern fact) = { s with registry := (s.registry.intern fact).1 } := rfl
  rw [same]
  cases known : s.registry.lookup? fact with
  | some a =>
    rw [IndexedRegistry.intern_of_known known]
    exact kept
  | none =>
    refine ⟨kept.indexed.intern known, ?_⟩
    show Follows (s.registry.intern fact).1.toAtomRegistry _ _ _
    rw [IndexedRegistry.toAtomRegistry_intern known]
    exact kept.follows.add fact

theorem Kept.assign (kept : s.Kept) (known : (s.registry.get? l.atom).isSome) :
    (s.step (.assign l)).Kept := by
  unfold step
  cases done : s.registry.toAtomRegistry.assign l with
  | queued plain =>
    simp only [done]
    exact ⟨kept.indexed.withPlain fun a => AtomRegistry.factOf?_assign done a,
      kept.follows.assign done known⟩
  | redundant =>
    simp only [done]
    exact kept
  | conflicting =>
    simp only [done]
    exact kept

theorem Kept.handOut (kept : s.Kept) : (s.step .next).Kept := by
  unfold step
  cases handed : s.registry.toAtomRegistry.next? with
  | none => exact kept
  | some pair =>
    obtain ⟨l, plain⟩ := pair
    exact ⟨kept.indexed.withPlain fun a => AtomRegistry.factOf?_next? handed a,
      kept.follows.handOut handed⟩

theorem Kept.retract (kept : s.Kept) (index : Nat) : (s.step (.retract index)).Kept := by
  unfold step
  cases left : s.moments.drop index with
  | nil =>
    simp only [left]
    exact kept
  | cons later outer =>
    simp only [left]
    have near := kept.follows.restores later (List.mem_of_mem_drop (left ▸ List.mem_cons_self))
    obtain ⟨indexed, plain⟩ := kept.indexed.retractTo near.passed.atoms
    refine ⟨indexed, ?_⟩
    show Follows (s.registry.retractTo later.mark).toAtomRegistry _ _ _
    rw [plain]
    exact kept.follows.retract left

/-- Every allowed call keeps what is kept. -/
theorem Kept.step (kept : s.Kept) {call : AtomCall} (allowed : s.allows call = true) :
    (s.step call).Kept := by
  cases call with
  | grow v => exact kept.grow allowed
  | shrink count => exact ⟨kept.indexed.shrink count, kept.follows⟩
  | intern fact => exact kept.intern fact
  | assign l => exact kept.assign allowed
  | markPropagated a =>
    exact ⟨kept.indexed.withPlain fun b => AtomRegistry.factOf?_markPropagated _ a b,
      kept.follows.markPropagated a⟩
  | next => exact kept.handOut
  | mark => exact ⟨kept.indexed, kept.follows.mark rfl kept.indexed⟩
  | retract index => exact kept.retract index

theorem Kept.run (kept : s.Kept) (allowed : s.allowsAll calls = true) : (s.run calls).Kept :=
  foldl_of_allowsEach (fun kept allowed => kept.step allowed) kept allowed

theorem retract_of_getElem? {index : Nat} (found : s.moments[index]? = some moment) :
    (s.step (.retract index)).registry = s.registry.retractTo moment.mark := by
  obtain ⟨lt, rfl⟩ := List.getElem?_eq_some_iff.1 found
  simp only [step, List.drop_eq_getElem_cons lt]

/-- In every session a fact leads to the atom that states it, which is the one that a search finds, and
asking for a fact answers such an atom, a new one if there was none; the list of a variable has exactly its
atoms, in strictly increasing order; a literal is accepted if its atom has no sign, and is redundant or
conflicting by that sign otherwise; the asserted literals are the accepted ones in their order, and those
are one for every atom with a sign, with this sign; what was taken and what waits are the accepted literals
in their order, what is taken next was not taken before, and nothing is handed out only when all of them
were taken; and retracting to a mark leads to the atoms, signs, queue, facts and lists of the moment at
which it was set.

That a variable gets a list while no atom is about it (`AtomSession.allows`) cannot be left out: growing to
variable 0, asking for a fact about it, dropping its list and growing to it again leaves an empty list for
a variable with an atom. The engine drops the variables of a scope after it has retracted its atoms, and
atoms are about variables that exist, so it never grows to a variable that an atom is about. -/
theorem run_exact (allowed : start.allowsAll calls = true) (ran : start.run calls = s) :
    (∀ fact a, s.registry.lookup? fact = some a ↔ s.registry.factOf? a = some fact) ∧
      (∀ fact, s.registry.lookup? fact = s.registry.find? fact.var fact.kind fact.threshold) ∧
      (∀ fact, s.allows (.intern fact) = true →
        (s.registry.intern fact).1.factOf? (s.registry.intern fact).2.1 = some fact ∧
        ((s.registry.intern fact).2.2 = true ↔ ∀ a, s.registry.factOf? a ≠ some fact)) ∧
      (∀ v list, s.registry.listOf? v = some list → s.registry.Increasing list ∧
        (∀ a, a ∈ list ↔ ∃ fact, s.registry.factOf? a = some fact ∧ fact.var = v) ∧
        list = s.registry.atomsOn v) ∧
      (∀ v, ((s.registry.grow v).listOf? v).isSome) ∧
      (∀ l, (s.registry.signOf? l.atom = none ↔ ∃ plain, s.registry.assign l = .queued plain) ∧
        (s.registry.signOf? l.atom = some !l.negative ↔ s.registry.assign l = .redundant) ∧
        (s.registry.signOf? l.atom = some l.negative ↔ s.registry.assign l = .conflicting)) ∧
      (s.registry.asserted.map Literal.atom).Nodup ∧
      (∀ l, l ∈ s.registry.asserted ↔ s.registry.signOf? l.atom = some !l.negative) ∧
      s.registry.asserted = s.accepted ∧ s.taken ++ s.registry.queued = s.accepted ∧
      (∀ l plain, s.registry.next? = some (l, plain) → l ∉ s.taken ∧ s.taken ++ [l] <+: s.accepted) ∧
      (s.registry.next? = none ↔ s.taken = s.accepted) ∧
      ∀ index moment, s.moments[index]? = some moment →
        (s.step (.retract index)).registry.toAtomRegistry = moment.registry.toAtomRegistry ∧
        (∀ fact, (s.step (.retract index)).registry.lookup? fact = moment.registry.lookup? fact) ∧
        ∀ v list, moment.registry.listOf? v = some list → (s.registry.listOf? v).isSome →
          (s.step (.retract index)).registry.listOf? v = some list := by
  subst ran
  obtain ⟨indexed, follows⟩ := kept_start.run allowed
  refine ⟨indexed.interned, indexed.lookup?_eq, fun fact _ => indexed.intern_answer fact,
    fun v list at_v => ?_, IndexedRegistry.isSome_listOf?_grow _, AtomRegistry.assign_answer _,
    follows.lists.distinct, follows.lists.mem, follows.accepted.symm, follows.taken_append,
    fun l plain => follows.fresh_of_next?, follows.next?_eq_none_iff, fun index moment found => ?_⟩
  · exact ⟨indexed.increasing v list at_v, fun a => indexed.mem_iff at_v, indexed.eq_atomsOn at_v⟩
  · have restores := follows.restores moment (List.mem_of_getElem? found)
    obtain ⟨exact_then, plain⟩ := indexed.retractTo restores.passed.atoms
    have same := plain.trans restores.back
    rw [retract_of_getElem? found]
    refine ⟨same, fun fact => ?_, fun v list at_v listed => ?_⟩
    · rw [exact_then.lookup?_eq, restores.indexed.lookup?_eq, same]
    · rw [← IndexedRegistry.isSome_listOf?_retractTo _ moment.mark] at listed
      obtain ⟨now, at_now⟩ := Option.isSome_iff_exists.1 listed
      rw [at_now, exact_then.eq_atomsOn at_now, restores.indexed.eq_atomsOn at_v, same]

/-- Atoms about two variables, of which one has lost its list when atoms about it are taken out; a literal
is taken after the first mark and waits again once that mark is retracted to. -/
def forgetting : List AtomCall :=
  [.grow 0, .intern ⟨0, .lower, 5⟩, .intern ⟨0, .upper, 1⟩, .assign ⟨0, false⟩, .mark, .next,
    .intern ⟨0, .lower, 1⟩, .grow 1, .intern ⟨1, .upper, 4⟩, .assign ⟨3, true⟩, .mark, .markPropagated 1,
    .assign ⟨1, false⟩, .shrink 1]

theorem run_exact_forgetting :
    [2, 1, 0] = (start.run forgetting).registry.atomsOn 0 ∧
      (start.run forgetting).taken ++ (start.run forgetting).registry.queued =
        [⟨0, false⟩, ⟨3, true⟩, ⟨1, false⟩] ∧
      (start.run forgetting).registry.next? ≠ none ∧
      (start.run (forgetting ++ [.next, .next])).registry.next? = none ∧
      ((start.run forgetting).step (.retract 1)).registry.queued = [⟨0, false⟩] ∧
      ((start.run forgetting).step (.retract 1)).registry.listOf? 0 = some [1, 0] := by
  have allowed : start.allowsAll forgetting = true := by decide +kernel
  have allowed_on : start.allowsAll (forgetting ++ [.next, .next]) = true := by decide +kernel
  obtain ⟨-, -, -, lists, -, -, -, -, -, whole, -, exhausted, back⟩ := run_exact allowed rfl
  obtain ⟨-, -, -, -, -, -, -, -, -, -, -, exhausted_on, -⟩ := run_exact allowed_on rfl
  obtain ⟨plain, -, listed⟩ := back 1 _ rfl
  have at_zero : (start.run forgetting).registry.listOf? 0 = some [2, 1, 0] := by decide +kernel
  refine ⟨(lists 0 _ at_zero).2.2, whole.trans (by decide +kernel), fun done => ?_,
    exhausted_on.2 (by decide +kernel), ?_, ?_⟩
  · exact absurd (exhausted.1 done) (by decide +kernel)
  · exact (congrArg AtomRegistry.queued plain).trans (by decide +kernel)
  · exact listed 0 [1, 0] (by decide +kernel) (by rw [at_zero, Option.isSome_some])

end AtomSession

end ArithDecide
