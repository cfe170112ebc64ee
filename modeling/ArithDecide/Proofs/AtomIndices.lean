import Mathlib.Data.List.Sort
import ArithDecide.Proofs.Flags
import ArithDecide.Proofs.Naming
import ArithDecide.Storage.Registry

/-!
# The indices of the atoms

`IndexedRegistry` finds atoms by two indices, where `AtomRegistry` searches all atoms. Here: every operation
keeps both indices exact, and exact indices give the same answers as the search
(`IndexedRegistry.IndexedBelow.lookup?_eq`, `IndexedRegistry.Indexed.eq_atomsOn`).

Atoms that are taken out leave the list of their variable all at once, with the first of them, while they
leave the other index one at a time. So the invariant of that loop is about the atoms below a limit
(`IndexedRegistry.IndexedBelow`), and the registry is exact if the limit is the number of atoms.
-/

namespace ArithDecide

/-! ## The order of the facts -/

namespace AtomFact

variable {f g h : AtomFact}

theorem before_iff : f.before g = true ↔
    f.threshold < g.threshold ∨ f.threshold = g.threshold ∧ f.kind = .lower ∧ g.kind = .upper := by
  simp [before, and_assoc]

theorem before_trans (first : f.before g = true) (second : g.before h = true) :
    f.before h = true := by
  rw [before_iff] at *
  grind

theorem before_asymm (first : f.before g = true) : g.before f = false := by
  rw [Bool.eq_false_iff, ne_eq, before_iff]
  rw [before_iff] at first
  grind

theorem not_before_trans (first : g.before f = false) (second : h.before g = false) :
    h.before f = false := by
  rw [Bool.eq_false_iff, ne_eq, before_iff] at *
  obtain ⟨v, kind, threshold⟩ := f
  obtain ⟨w, side, middle⟩ := g
  obtain ⟨u, end_side, last⟩ := h
  cases kind <;> cases side <;> cases end_side <;> grind

/-- Facts about one variable are comparable. -/
theorem before_of_ne (same : f.var = g.var) (apart : f ≠ g) (later : f.before g = false) :
    g.before f = true := by
  rw [Bool.eq_false_iff, ne_eq, before_iff] at later
  rw [before_iff]
  obtain ⟨v, kind, threshold⟩ := f
  obtain ⟨w, side, limit⟩ := g
  cases kind <;> cases side <;> grind

end AtomFact

/-- Entering an element between those of a sorted list that have a property and the others. -/
theorem pairwise_takeWhile_cons_dropWhile {α : Type} {R : α → α → Prop} {p : α → Bool} {x : α}
    {list : List α} (sorted : list.Pairwise R) (closed : ∀ y z, R y z → p z = true → p y = true)
    (below : ∀ y ∈ list, p y = true → R y x) (above : ∀ y ∈ list, p y = false → R x y) :
    (list.takeWhile p ++ x :: list.dropWhile p).Pairwise R := by
  induction list with
  | nil => simp
  | cons y rest ih =>
    obtain ⟨first, sorted⟩ := List.pairwise_cons.1 sorted
    obtain ⟨below_first, below⟩ := List.forall_mem_cons.1 below
    obtain ⟨above_first, above⟩ := List.forall_mem_cons.1 above
    cases holds : p y with
    | true =>
      rw [List.takeWhile_cons_of_pos holds, List.dropWhile_cons_of_pos holds, List.cons_append]
      refine List.pairwise_cons.2 ⟨fun z member => ?_, ih sorted below above⟩
      rcases List.mem_append.1 member with taken | entered
      · exact first z ((List.takeWhile_sublist p).subset taken)
      · rcases List.mem_cons.1 entered with rfl | dropped
        · exact below_first holds
        · exact first z ((List.dropWhile_sublist p).subset dropped)
    | false =>
      have fails : ¬p y = true := Bool.eq_false_iff.1 holds
      rw [List.takeWhile_cons_of_neg fails, List.dropWhile_cons_of_neg fails, List.nil_append]
      refine List.pairwise_cons.2 ⟨fun z member => ?_, List.pairwise_cons.2 ⟨first, sorted⟩⟩
      rcases List.mem_cons.1 member with rfl | later
      · exact above_first holds
      · exact above z later (Bool.eq_false_iff.2 fun earlier => fails (closed y z (first z later) earlier))

/-! ## Facts of atoms -/

namespace AtomRegistry

variable {registry next : AtomRegistry} {a b : AtomId} {fact f g : AtomFact} {v : Var}
  {list : List AtomId}

theorem lt_of_factOf? (states : registry.factOf? a = some fact) : a < registry.atoms.size := by
  obtain ⟨atom, found, -⟩ := Option.map_eq_some_iff.1 states
  exact (Array.getElem?_eq_some_iff.1 found).1

theorem factOf?_add (registry : AtomRegistry) (fact : AtomFact) (a : AtomId) :
    (registry.add fact.var fact.kind fact.threshold).factOf? a =
      if a = registry.atoms.size then some fact else registry.factOf? a := by
  rw [factOf?, Engine.State.get?_add]
  split <;> rfl

theorem factOf?_markPropagated (registry : AtomRegistry) (a b : AtomId) :
    (registry.markPropagated a).factOf? b = registry.factOf? b := by
  have same := congrArg (Option.map Atom.fact) (Engine.State.get?_markPropagated registry a b)
  rw [Option.map_map, Option.map_map] at same
  exact same

theorem factOf?_assign {l : Literal} (queued : registry.assign l = .queued next) (a : AtomId) :
    next.factOf? a = registry.factOf? a := by
  rw [factOf?, Engine.State.get?_assign queued, Option.map_map, factOf?]
  congr 1
  funext atom
  simp only [Function.comp_apply]
  split <;> rfl

theorem factOf?_next? {l : Literal} (handed : registry.next? = some (l, next)) (a : AtomId) :
    next.factOf? a = registry.factOf? a := by
  rw [next?] at handed
  split at handed
  · cases handed
  · cases handed
    rfl

theorem factOf?_take (registry : AtomRegistry) (count : Nat) (a : AtomId) :
    ({ registry with atoms := registry.atoms.take count } : AtomRegistry).factOf? a =
      if a < count then registry.factOf? a else none := by
  rw [factOf?, get?, getElem?_take]
  split <;> rfl

theorem factOf?_foldl_undo (changes : List AtomChange) (atoms : Array Atom) (a : AtomId) :
    (changes.foldl undo atoms)[a]?.map Atom.fact = atoms[a]?.map Atom.fact := by
  induction changes generalizing atoms with
  | nil => rfl
  | cons change rest ih =>
    rw [List.foldl_cons, ih]
    cases change <;>
    · rw [undo, Array.getElem?_modify]
      split
      · rw [Option.map_map]
        rfl
      · rfl

theorem size_foldl_undo (changes : List AtomChange) (atoms : Array Atom) :
    (changes.foldl undo atoms).size = atoms.size := by
  induction changes generalizing atoms with
  | nil => rfl
  | cons change rest ih =>
    rw [List.foldl_cons, ih]
    cases change <;> exact Array.size_modify

theorem comesBefore_iff : registry.comesBefore a b = true ↔
    ∃ f g, registry.factOf? a = some f ∧ registry.factOf? b = some g ∧ f.before g = true := by
  unfold comesBefore factOf?
  cases registry.get? a with
  | none => simp
  | some first =>
    cases registry.get? b with
    | none => simp
    | some second => simp [Atom.fact, AtomFact.before]

/-- Which atom comes first depends on their facts only. -/
theorem comesBefore_congr (first : next.factOf? a = registry.factOf? a)
    (second : next.factOf? b = registry.factOf? b) :
    next.comesBefore a b = registry.comesBefore a b := by
  rw [Bool.eq_iff_iff, comesBefore_iff, comesBefore_iff, first, second]

theorem comesBefore_asymm (first : registry.comesBefore a b = true) :
    registry.comesBefore b a = false := by
  rw [Bool.eq_false_iff, ne_eq, comesBefore_iff]
  rintro ⟨f, g, at_b, at_a, second⟩
  obtain ⟨f', g', at_a', at_b', first⟩ := comesBefore_iff.1 first
  obtain rfl := Option.some.inj (at_a.symm.trans at_a')
  obtain rfl := Option.some.inj (at_b.symm.trans at_b')
  rw [AtomFact.before_asymm first] at second
  cases second

/-- The list holds its atoms in strictly increasing order. -/
def Increasing (registry : AtomRegistry) (list : List AtomId) : Prop :=
  list.Pairwise fun a b => registry.comesBefore a b = true

theorem Increasing.congr (increasing : registry.Increasing list)
    (same : ∀ a ∈ list, next.factOf? a = registry.factOf? a) : next.Increasing list :=
  increasing.imp_of_mem fun at_a at_b first =>
    (comesBefore_congr (same _ at_a) (same _ at_b)).trans first

/-- There is one list in strictly increasing order of given atoms. -/
theorem Increasing.eq {other : List AtomId} (first : registry.Increasing list)
    (second : registry.Increasing other) (same : ∀ a, a ∈ list ↔ a ∈ other) : list = other := by
  let order := fun a b => registry.comesBefore a b = true
  have exclusive {a b : AtomId} (ab : order a b) (ba : order b a) : False :=
    Bool.false_ne_true ((comesBefore_asymm ab).symm.trans ba)
  have : Std.Antisymm order := ⟨fun _ _ ab ba => (exclusive ab ba).elim⟩
  have : Std.Irrefl order := ⟨fun _ aa => exclusive aa aa⟩
  exact List.Pairwise.eq_of_mem_iff first second same

theorem mem_enter : a ∈ registry.enter fact b list ↔ a = b ∨ a ∈ list := by
  have whole := List.takeWhile_append_dropWhile
    (p := fun other => (registry.factOf? other).any fun known => known.before fact) (l := list)
  unfold enter
  simp only
  conv => rhs; rw [← whole]
  simp only [List.mem_append, List.mem_cons]
  grind

/-- Entering an atom with a fact of its own keeps the order. -/
theorem Increasing.enter (increasing : registry.Increasing list)
    (states : registry.factOf? b = some fact)
    (about : ∀ a ∈ list, ∃ f, registry.factOf? a = some f ∧ f.var = fact.var ∧ f ≠ fact) :
    registry.Increasing (registry.enter fact b list) := by
  refine pairwise_takeWhile_cons_dropWhile increasing ?_ ?_ ?_
  · intro y z first earlier
    obtain ⟨f, g, at_y, at_z, before⟩ := comesBefore_iff.1 first
    rw [at_z, Option.any_some] at earlier
    rw [at_y, Option.any_some]
    exact AtomFact.before_trans before earlier
  · intro y member earlier
    obtain ⟨f, at_y, -, -⟩ := about y member
    rw [at_y, Option.any_some] at earlier
    exact comesBefore_iff.2 ⟨f, fact, at_y, states, earlier⟩
  · intro y member later
    obtain ⟨f, at_y, same, apart⟩ := about y member
    rw [at_y, Option.any_some] at later
    exact comesBefore_iff.2 ⟨fact, f, states, at_y, AtomFact.before_of_ne same apart later⟩

/-! ### Searching all atoms -/

/-- No two atoms state the same fact. -/
def Distinct (registry : AtomRegistry) : Prop :=
  ∀ a b fact, registry.factOf? a = some fact → registry.factOf? b = some fact → a = b

/-- As no two atoms state the same fact, a search finds the atom that states it. -/
theorem find?_eq_some_iff (distinct : registry.Distinct) :
    registry.find? fact.var fact.kind fact.threshold = some a ↔ registry.factOf? a = some fact := by
  have states (atom : Atom) : (atom.var == fact.var && atom.kind == fact.kind &&
      atom.threshold == fact.threshold) = true ↔ atom.fact = fact := by
    obtain ⟨v, kind, threshold⟩ := fact
    simp [Atom.fact, and_assoc]
  unfold find?
  rw [Array.findIdx?_eq_some_iff_getElem]
  constructor
  · rintro ⟨lt, here, -⟩
    rw [factOf?, get?, Array.getElem?_eq_getElem lt, Option.map_some, (states _).1 here]
  · intro at_a
    obtain ⟨atom, found, same⟩ := Option.map_eq_some_iff.1 at_a
    obtain ⟨lt, rfl⟩ := Array.getElem?_eq_some_iff.1 found
    refine ⟨lt, (states _).2 same, fun b earlier here => ?_⟩
    have at_b : registry.factOf? b = some fact := by
      rw [factOf?, get?, Array.getElem?_eq_getElem (earlier.trans lt), Option.map_some,
        (states _).1 here]
    exact Nat.ne_of_lt earlier (distinct b a fact at_b at_a)

theorem mem_atomsOn_iff : a ∈ registry.atomsOn v ↔ ∃ f, registry.factOf? a = some f ∧ f.var = v := by
  rw [Engine.mem_atomsOn, factOf?]
  constructor
  · rintro ⟨atom, found, same⟩
    exact ⟨atom.fact, by rw [found, Option.map_some], same⟩
  · rintro ⟨f, states, same⟩
    obtain ⟨atom, found, rfl⟩ := Option.map_eq_some_iff.1 states
    exact ⟨atom, found, same⟩

/-- The order of the facts without the demand that the atoms are there. Unlike `comesBefore` it is
transitive on all numbers. -/
def noLater (registry : AtomRegistry) (a b : AtomId) : Bool :=
  !((registry.factOf? b).getD default).before ((registry.factOf? a).getD default)

theorem noLater_eq (at_a : registry.factOf? a = some f) (at_b : registry.factOf? b = some g) :
    registry.noLater a b = !registry.comesBefore b a := by
  rw [noLater, at_a, at_b, Option.getD_some, Option.getD_some, Bool.eq_iff_iff, Bool.not_eq_true',
    Bool.not_eq_true', Bool.eq_false_iff, Bool.eq_false_iff, ne_eq, ne_eq, comesBefore_iff, at_a, at_b]
  simp

/-- The sort sees no atoms that are not there. -/
theorem atomsOn_eq (registry : AtomRegistry) (v : Var) : registry.atomsOn v =
    ((List.range registry.atoms.size).filter fun a =>
      (registry.get? a).any fun atom => atom.var == v).mergeSort registry.noLater := by
  have congr := List.map_mergeSort (r := fun a b => !registry.comesBefore b a)
    (s := registry.noLater) (f := id) (l := (List.range registry.atoms.size).filter fun a =>
      (registry.get? a).any fun atom => atom.var == v) fun a at_a b at_b => by
        obtain ⟨f, states_a, -⟩ := mem_atomsOn_iff.1 (List.mem_mergeSort.2 at_a)
        obtain ⟨g, states_b, -⟩ := mem_atomsOn_iff.1 (List.mem_mergeSort.2 at_b)
        exact (noLater_eq states_a states_b).symm
  rw [List.map_id, List.map_id] at congr
  exact congr

theorem pairwise_noLater_atomsOn (registry : AtomRegistry) (v : Var) :
    (registry.atomsOn v).Pairwise fun a b => registry.noLater a b = true := by
  rw [atomsOn_eq]
  refine List.pairwise_mergeSort (fun a b c ab bc => ?_) (fun a b => ?_) _
  · rw [noLater, Bool.not_eq_true'] at *
    exact AtomFact.not_before_trans ab bc
  · rw [noLater, noLater, Bool.or_eq_true, Bool.not_eq_true', Bool.not_eq_true']
    cases first : ((registry.factOf? b).getD default).before ((registry.factOf? a).getD default) with
    | false => exact .inl rfl
    | true => exact .inr (AtomFact.before_asymm first)

/-- Sorting the atoms of a variable puts them in strictly increasing order. -/
theorem increasing_atomsOn (distinct : registry.Distinct) (v : Var) :
    registry.Increasing (registry.atomsOn v) := by
  have nodup : (registry.atomsOn v).Nodup :=
    (List.mergeSort_perm _ _).nodup_iff.2 (List.nodup_range.filter _)
  refine ((pairwise_noLater_atomsOn registry v).and nodup).imp_of_mem fun at_a at_b pair => ?_
  obtain ⟨f, states_a, same_a⟩ := mem_atomsOn_iff.1 at_a
  obtain ⟨g, states_b, same_b⟩ := mem_atomsOn_iff.1 at_b
  obtain ⟨later, apart⟩ := pair
  rw [noLater, states_a, states_b, Option.getD_some, Option.getD_some, Bool.not_eq_true'] at later
  have facts_apart : g ≠ f := fun same => apart (distinct _ _ f states_a (same ▸ states_b))
  exact comesBefore_iff.2 ⟨f, g, states_a, states_b,
    AtomFact.before_of_ne (same_b.trans same_a.symm) facts_apart later⟩

end AtomRegistry

/-! ## The indices -/

namespace IndexedRegistry

open AtomRegistry (Increasing)

variable {registry : IndexedRegistry} {plain : AtomRegistry} {a : AtomId} {fact f : AtomFact}
  {v : Var} {list : List AtomId} {limit count : Nat}

/-- A fact leads to the atom that states it, and the list of a variable has atoms of this variable, in
strictly increasing order and all of those below the limit. -/
structure IndexedBelow (registry : IndexedRegistry) (limit : Nat) : Prop where
  interned : ∀ fact a, registry.lookup? fact = some a ↔ registry.factOf? a = some fact
  increasing : ∀ v list, registry.listOf? v = some list → registry.Increasing list
  about : ∀ v list, registry.listOf? v = some list → ∀ a ∈ list,
    ∃ fact, registry.factOf? a = some fact ∧ fact.var = v
  complete : ∀ v list, registry.listOf? v = some list → ∀ a < limit, ∀ fact,
    registry.factOf? a = some fact → fact.var = v → a ∈ list

/-- The indices are exact. -/
def Indexed (registry : IndexedRegistry) : Prop := registry.IndexedBelow registry.atoms.size

theorem IndexedBelow.mono (indexed : registry.IndexedBelow limit) (le : count ≤ limit) :
    registry.IndexedBelow count :=
  { indexed with
    complete := fun v list at_v a lt => indexed.complete v list at_v a (Nat.lt_of_lt_of_le lt le) }

theorem IndexedBelow.distinct (indexed : registry.IndexedBelow limit) : registry.Distinct :=
  fun a b fact at_a at_b => Option.some.inj
    (((indexed.interned fact a).2 at_a).symm.trans ((indexed.interned fact b).2 at_b))

/-- The indices depend on the facts only. -/
theorem IndexedBelow.withPlain (indexed : registry.IndexedBelow limit)
    (same : ∀ a, plain.factOf? a = registry.factOf? a) :
    (registry.withPlain plain).IndexedBelow limit where
  interned fact a := by
    rw [show (registry.withPlain plain).factOf? a = registry.factOf? a from same a]
    exact indexed.interned fact a
  increasing v list at_v := (indexed.increasing v list at_v).congr fun a _ => same a
  about v list at_v a member := by
    obtain ⟨fact, states, var_eq⟩ := indexed.about v list at_v a member
    exact ⟨fact, (same a).trans states, var_eq⟩
  complete v list at_v a lt fact states :=
    indexed.complete v list at_v a lt fact ((same a).symm.trans states)

theorem Indexed.mem_iff (indexed : registry.Indexed) (at_v : registry.listOf? v = some list) :
    a ∈ list ↔ ∃ fact, registry.factOf? a = some fact ∧ fact.var = v := by
  constructor
  · exact indexed.about v list at_v a
  · rintro ⟨fact, states, same⟩
    exact indexed.complete v list at_v a (AtomRegistry.lt_of_factOf? states) fact states same

theorem Indexed.withPlain (indexed : registry.Indexed)
    (same : ∀ a, plain.factOf? a = registry.factOf? a) : (registry.withPlain plain).Indexed :=
  { IndexedBelow.withPlain indexed same with
    complete := fun _ _ at_v a _ fact states var_eq =>
      (indexed.mem_iff at_v).2 ⟨fact, (same a).symm.trans states, var_eq⟩ }

/-- The list of a variable is what sorting its atoms gives. -/
theorem Indexed.eq_atomsOn (indexed : registry.Indexed) (at_v : registry.listOf? v = some list) :
    list = registry.atomsOn v :=
  (indexed.increasing v list at_v).eq (AtomRegistry.increasing_atomsOn indexed.distinct v) fun a => by
    rw [indexed.mem_iff at_v, AtomRegistry.mem_atomsOn_iff]

/-- Looking a fact up finds what searching all atoms finds. -/
theorem IndexedBelow.lookup?_eq (indexed : registry.IndexedBelow limit) (fact : AtomFact) :
    registry.lookup? fact = registry.find? fact.var fact.kind fact.threshold :=
  Option.ext fun a => by
    rw [indexed.interned, AtomRegistry.find?_eq_some_iff indexed.distinct]

/-! ### Lists that come and go -/

theorem listOf?_grow (registry : IndexedRegistry) (v w : Var) : (registry.grow v).listOf? w =
    if w < registry.numVars then registry.listOf? w else if w ≤ v then some [] else none := by
  show (registry.byVar ++ Array.replicate (v + 1 - registry.byVar.size) [])[w]? = _
  rw [Array.getElem?_append, Array.getElem?_replicate, numVars, listOf?]
  grind

/-- The variable that was grown to has a list. -/
theorem isSome_listOf?_grow (registry : IndexedRegistry) (v : Var) :
    ((registry.grow v).listOf? v).isSome := by
  rw [listOf?_grow]
  split
  · rename_i listed
    rw [listOf?, Array.getElem?_eq_getElem listed, Option.isSome_some]
  · rw [if_pos (Nat.le_refl v), Option.isSome_some]

theorem listOf?_shrink (registry : IndexedRegistry) (count : Nat) (w : Var) :
    (registry.shrink count).listOf? w = if w < count then registry.listOf? w else none :=
  getElem?_take registry.byVar count w

/-- Growing keeps the indices exact as long as no atom is about a variable that gets an empty list. -/
theorem Indexed.grow (indexed : registry.Indexed)
    (fresh : ∀ a fact, registry.factOf? a = some fact → fact.var < registry.numVars ∨ v < fact.var) :
    (registry.grow v).Indexed := by
  have cases_of {w : Var} {list : List AtomId} (at_w : (registry.grow v).listOf? w = some list) :
      registry.listOf? w = some list ∨ list = [] ∧ ¬w < registry.numVars ∧ w ≤ v := by
    rw [listOf?_grow] at at_w
    grind
  refine ⟨indexed.interned, fun w list at_w => ?_, fun w list at_w a member => ?_, ?_⟩
  · rcases cases_of at_w with old | ⟨rfl, -⟩
    · exact indexed.increasing w list old
    · exact List.Pairwise.nil
  · rcases cases_of at_w with old | ⟨rfl, -⟩
    · exact indexed.about w list old a member
    · cases member
  · rintro w list at_w a lt fact states rfl
    rcases cases_of at_w with old | ⟨-, large, le⟩
    · exact indexed.complete _ list old a lt fact states rfl
    · rcases fresh a fact states with small | beyond
      · exact (large small).elim
      · exact (Nat.not_lt.2 le beyond).elim

theorem Indexed.shrink (indexed : registry.Indexed) (count : Nat) : (registry.shrink count).Indexed := by
  have old {w : Var} {list : List AtomId} (at_w : (registry.shrink count).listOf? w = some list) :
      registry.listOf? w = some list := by
    rw [listOf?_shrink] at at_w
    grind
  exact ⟨indexed.interned, fun w list at_w => indexed.increasing w list (old at_w),
    fun w list at_w => indexed.about w list (old at_w),
    fun w list at_w => indexed.complete w list (old at_w)⟩

/-! ### A new atom -/

theorem intern_of_known (known : registry.lookup? fact = some a) :
    registry.intern fact = (registry, a, false) := by
  rw [intern, known]

section New

variable (unknown : registry.lookup? fact = none)

include unknown

theorem toAtomRegistry_intern : (registry.intern fact).1.toAtomRegistry =
    registry.toAtomRegistry.add fact.var fact.kind fact.threshold := by
  rw [intern, unknown]

theorem lookup?_intern (f : AtomFact) : (registry.intern fact).1.lookup? f =
    if f = fact then some registry.atoms.size else registry.lookup? f := by
  rw [intern, unknown, lookup?, List.lookup_cons]
  grind [lookup?]

theorem listOf?_intern (w : Var) : (registry.intern fact).1.listOf? w = (registry.listOf? w).map
    fun list => if w = fact.var then
      (registry.intern fact).1.enter fact registry.atoms.size list else list := by
  rw [toAtomRegistry_intern unknown, intern, unknown, listOf?, Array.getElem?_modify, listOf?]
  grind

theorem factOf?_intern (a : AtomId) : (registry.intern fact).1.factOf? a =
    if a = registry.atoms.size then some fact else registry.factOf? a := by
  rw [toAtomRegistry_intern unknown, AtomRegistry.factOf?_add]

theorem factOf?_intern_size : (registry.intern fact).1.factOf? registry.atoms.size = some fact := by
  rw [factOf?_intern unknown, if_pos rfl]

theorem factOf?_intern_of_some (states : registry.factOf? a = some f) :
    (registry.intern fact).1.factOf? a = some f := by
  rw [factOf?_intern unknown, if_neg (Nat.ne_of_lt (AtomRegistry.lt_of_factOf? states)), states]

theorem mem_of_listOf?_intern (at_v : (registry.intern fact).1.listOf? v = some list) :
    ∃ earlier, registry.listOf? v = some earlier ∧
      ∀ a, a ∈ list ↔ a ∈ earlier ∨ v = fact.var ∧ a = registry.atoms.size := by
  rw [listOf?_intern unknown, Option.map_eq_some_iff] at at_v
  obtain ⟨earlier, at_v, rfl⟩ := at_v
  refine ⟨earlier, at_v, fun a => ?_⟩
  split
  · rename_i here
    rw [AtomRegistry.mem_enter]
    grind
  · rename_i away
    grind

/-- No atom states the new fact yet. -/
theorem Indexed.ne_of_factOf? (indexed : registry.Indexed) (states : registry.factOf? a = some f) :
    f ≠ fact := by
  rintro rfl
  rw [(indexed.interned f a).2 states] at unknown
  cases unknown

/-- Asking for a fact keeps the indices exact: a new atom is entered where the order of the facts puts
it. -/
theorem Indexed.intern (indexed : registry.Indexed) : (registry.intern fact).1.Indexed where
  interned f a := by
    rw [lookup?_intern unknown, factOf?_intern unknown]
    have interned := indexed.interned f a
    have apart : registry.factOf? a = some f → f ≠ fact := indexed.ne_of_factOf? unknown
    have in_range : registry.factOf? a = some f → a ≠ registry.atoms.size := fun states =>
      Nat.ne_of_lt (AtomRegistry.lt_of_factOf? states)
    grind
  increasing v list at_v := by
    rw [listOf?_intern unknown, Option.map_eq_some_iff] at at_v
    obtain ⟨earlier, at_v, rfl⟩ := at_v
    have about := indexed.about v earlier at_v
    have kept : (registry.intern fact).1.Increasing earlier :=
      (indexed.increasing v earlier at_v).congr fun a member => by
        obtain ⟨f, states, -⟩ := about a member
        exact (factOf?_intern_of_some unknown states).trans states.symm
    split
    · rename_i here
      refine kept.enter (factOf?_intern_size unknown) fun a member => ?_
      obtain ⟨f, states, same⟩ := about a member
      exact ⟨f, factOf?_intern_of_some unknown states, same.trans here,
        indexed.ne_of_factOf? unknown states⟩
    · exact kept
  about v list at_v a member := by
    obtain ⟨earlier, at_v, mem_iff⟩ := mem_of_listOf?_intern unknown at_v
    rcases (mem_iff a).1 member with old | ⟨here, rfl⟩
    · obtain ⟨f, states, same⟩ := indexed.about v earlier at_v a old
      exact ⟨f, factOf?_intern_of_some unknown states, same⟩
    · exact ⟨fact, factOf?_intern_size unknown, here.symm⟩
  complete v list at_v a _ f states same := by
    obtain ⟨earlier, at_v, mem_iff⟩ := mem_of_listOf?_intern unknown at_v
    rw [factOf?_intern unknown] at states
    refine (mem_iff a).2 ?_
    split at states
    · rename_i new
      obtain rfl := Option.some.inj states
      exact .inr ⟨same.symm, new⟩
    · exact .inl ((indexed.mem_iff at_v).2 ⟨f, states, same⟩)

end New

/-- The atom that is answered states the fact, and is new if no atom did so before. -/
theorem Indexed.intern_answer (indexed : registry.Indexed) (fact : AtomFact) :
    (registry.intern fact).1.factOf? (registry.intern fact).2.1 = some fact ∧
      ((registry.intern fact).2.2 = true ↔ ∀ a, registry.factOf? a ≠ some fact) := by
  cases known : registry.lookup? fact with
  | some a =>
    have states := (indexed.interned fact a).1 known
    rw [intern_of_known known]
    exact ⟨states, by simpa using ⟨a, states⟩⟩
  | none =>
    have answer : (registry.intern fact).2 = (registry.atoms.size, true) := by
      rw [IndexedRegistry.intern, known]
    rw [answer]
    refine ⟨factOf?_intern_size known, fun _ a states => ?_, fun _ => rfl⟩
    exact indexed.ne_of_factOf? known states rfl

/-! ### Going back -/

section Latest

variable {atom : Atom} (latest : registry.atoms.back? = some atom)

include latest

theorem toAtomRegistry_dropLatest (limit : Nat) : (registry.dropLatest limit).toAtomRegistry =
    { registry.toAtomRegistry with atoms := registry.atoms.take (registry.atoms.size - 1) } := by
  rw [dropLatest, latest, Array.take_eq_extract, Array.extract_eq_pop rfl]

theorem lookup?_dropLatest (limit : Nat) (fact : AtomFact) :
    (registry.dropLatest limit).lookup? fact =
      if fact = atom.fact then none else registry.lookup? fact := by
  rw [dropLatest, latest, lookup?, lookup_filter_key]
  rfl

theorem listOf?_dropLatest (limit : Nat) (w : Var) : (registry.dropLatest limit).listOf? w =
    (registry.listOf? w).map fun list =>
      if w = atom.var then list.filter (· < limit) else list := by
  rw [dropLatest, latest, listOf?, Array.getElem?_modify, listOf?]
  grind

theorem factOf?_dropLatest (limit : Nat) (a : AtomId) : (registry.dropLatest limit).factOf? a =
    if a < registry.atoms.size - 1 then registry.factOf? a else none := by
  rw [toAtomRegistry_dropLatest latest, AtomRegistry.factOf?_take]

theorem factOf?_latest : registry.factOf? (registry.atoms.size - 1) = some atom.fact := by
  rw [AtomRegistry.factOf?, AtomRegistry.get?, ← Array.back?_eq_getElem?, latest, Option.map_some]

/-- An atom that states something else than the latest one stays. -/
theorem lt_of_fact_ne (states : registry.factOf? a = some fact) (other : fact ≠ atom.fact) :
    a < registry.atoms.size - 1 := by
  have in_range := AtomRegistry.lt_of_factOf? states
  have not_last : a ≠ registry.atoms.size - 1 := by
    rintro rfl
    exact other (Option.some.inj (states.symm.trans (factOf?_latest latest)))
  exact Nat.lt_of_le_of_ne (Nat.le_sub_one_of_lt in_range) not_last

/-- What stays listed stays there, as it is below the limit or about another variable, and nothing below
the limit goes. -/
theorem IndexedBelow.of_listOf?_dropLatest (indexed : registry.IndexedBelow limit)
    (lt : limit < registry.atoms.size) (at_v : (registry.dropLatest limit).listOf? v = some list) :
    ∃ earlier, registry.listOf? v = some earlier ∧ list.Sublist earlier ∧
      (∀ a ∈ list, a < registry.atoms.size - 1) ∧ ∀ a ∈ earlier, a < limit → a ∈ list := by
  rw [listOf?_dropLatest latest, Option.map_eq_some_iff] at at_v
  obtain ⟨earlier, at_v, rfl⟩ := at_v
  refine ⟨earlier, at_v, ?_⟩
  split
  · refine ⟨List.filter_sublist, fun a member => ?_, fun a member small => ?_⟩
    · have small := of_decide_eq_true (List.mem_filter.1 member).2
      exact Nat.lt_of_lt_of_le small (Nat.le_sub_one_of_lt lt)
    · exact List.mem_filter.2 ⟨member, decide_eq_true small⟩
  · rename_i away
    refine ⟨List.Sublist.refl _, fun a member => ?_, fun a member _ => member⟩
    obtain ⟨f, states, same⟩ := indexed.about v earlier at_v a member
    refine lt_of_fact_ne latest states ?_
    rintro rfl
    exact away same.symm

/-- Taking out the latest atom keeps the indices exact below a limit that it is not below. -/
theorem IndexedBelow.dropLatest (indexed : registry.IndexedBelow limit)
    (lt : limit < registry.atoms.size) : (registry.dropLatest limit).IndexedBelow limit where
  interned f a := by
    rw [lookup?_dropLatest latest, factOf?_dropLatest latest]
    have interned := indexed.interned f a
    by_cases same : f = atom.fact
    · subst same
      have only : registry.factOf? a = some atom.fact → a = registry.atoms.size - 1 := fun states =>
        indexed.distinct _ _ _ states (factOf?_latest latest)
      grind
    · have small : registry.factOf? a = some f → a < registry.atoms.size - 1 := fun states =>
        lt_of_fact_ne latest states same
      grind
  increasing v list at_v := by
    obtain ⟨earlier, at_v, sublist, small, -⟩ := indexed.of_listOf?_dropLatest latest lt at_v
    have increasing : registry.Increasing list := (indexed.increasing v earlier at_v).sublist sublist
    exact increasing.congr fun a member =>
      (factOf?_dropLatest latest limit a).trans (if_pos (small a member))
  about v list at_v a member := by
    obtain ⟨earlier, at_v, sublist, small, -⟩ := indexed.of_listOf?_dropLatest latest lt at_v
    obtain ⟨f, states, same⟩ := indexed.about v earlier at_v a (sublist.subset member)
    exact ⟨f, by rw [factOf?_dropLatest latest, if_pos (small a member), states], same⟩
  complete v list at_v a small f states same := by
    obtain ⟨earlier, at_v, -, -, kept⟩ := indexed.of_listOf?_dropLatest latest lt at_v
    rw [factOf?_dropLatest latest] at states
    split at states
    · exact kept a (indexed.complete v earlier at_v a small f states same) small
    · cases states

end Latest

/-- Taking out all atoms that are not below the limit. -/
theorem IndexedBelow.forget (indexed : registry.IndexedBelow limit)
    (size : registry.atoms.size = limit + count) : (registry.forget limit count).IndexedBelow limit ∧
      (registry.forget limit count).toAtomRegistry =
        { registry.toAtomRegistry with atoms := registry.atoms.take limit } := by
  induction count generalizing registry with
  | zero =>
    refine ⟨indexed, ?_⟩
    rw [← size.trans (Nat.add_zero limit), take_size]
    rfl
  | succ count ih =>
    have lt : limit < registry.atoms.size := by omega
    have in_range : registry.atoms.size - 1 < registry.atoms.size := by omega
    have latest : registry.atoms.back? = some registry.atoms[registry.atoms.size - 1] := by
      rw [Array.back?_eq_getElem?, Array.getElem?_eq_getElem in_range]
    have plain := toAtomRegistry_dropLatest latest limit
    have shorter : (registry.dropLatest limit).atoms.size = limit + count := by
      rw [plain]
      simp only [Array.take_eq_extract, Array.size_extract]
      omega
    obtain ⟨kept, rest⟩ := ih (indexed.dropLatest latest lt) shorter
    refine ⟨kept, rest.trans ?_⟩
    rw [plain, take_take_of_le (Nat.le_sub_one_of_lt lt)]

/-- Whatever happens to atoms, a variable keeps its list. -/
theorem isSome_listOf?_retractTo (registry : IndexedRegistry) (m : AtomRegistry.Mark) (v : Var) :
    ((registry.retractTo m).listOf? v).isSome = (registry.listOf? v).isSome := by
  have dropped (limit : Nat) (registry : IndexedRegistry) :
      ((registry.dropLatest limit).listOf? v).isSome = (registry.listOf? v).isSome := by
    cases latest : registry.atoms.back? with
    | none => rw [dropLatest, latest]
    | some atom => rw [listOf?_dropLatest latest, Option.isSome_map]
  have forgotten (limit count : Nat) (registry : IndexedRegistry) :
      ((registry.forget limit count).listOf? v).isSome = (registry.listOf? v).isSome := by
    induction count generalizing registry with
    | zero => rfl
    | succ count ih => exact (ih _).trans (dropped limit registry)
  exact forgotten m.atoms _ (registry.rewind m)

/-- Retracting keeps the indices exact, and leads to the same registry as without them. -/
theorem Indexed.retractTo {m : AtomRegistry.Mark} (indexed : registry.Indexed)
    (older : m.atoms ≤ registry.atoms.size) : (registry.retractTo m).Indexed ∧
      (registry.retractTo m).toAtomRegistry = registry.toAtomRegistry.retractTo m := by
  have rewound : (registry.rewind m).IndexedBelow registry.atoms.size :=
    IndexedBelow.withPlain indexed fun a => AtomRegistry.factOf?_foldl_undo _ registry.atoms a
  have size : (registry.rewind m).atoms.size = m.atoms + (registry.atoms.size - m.atoms) := by
    rw [rewind, AtomRegistry.size_foldl_undo]
    omega
  obtain ⟨kept, plain⟩ := (rewound.mono older).forget size
  have cut : (registry.retractTo m).atoms.size = m.atoms := by
    rw [IndexedRegistry.retractTo, plain]
    simp only [Array.take_eq_extract, Array.size_extract]
    omega
  refine ⟨?_, plain⟩
  rw [Indexed, cut]
  exact kept

end IndexedRegistry

end ArithDecide
