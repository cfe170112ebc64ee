import Mathlib.Order.Basic
import ArithDecide.Dependency

/-!
# What a dependency rests on

`DependencyArena.AllLeaves` says that every literal and every equality below a dependency has a
property. Joining asks it of all joined dependencies, adding nodes does not change it, and
`DependencyArena.allLeaves_iff_linearize` reads it off the explanation that the walk over the arena
collects.
-/

namespace ArithDecide

/-! ## Sorted sets -/

namespace SortedSet

variable {α : Type} [LT α] [DecidableRel (fun a b : α => a < b)]

theorem mem_insert {a b : α} {set : List α} (total : ∀ a b : α, ¬a < b → ¬b < a → a = b) :
    a ∈ insert b set ↔ a = b ∨ a ∈ set := by
  induction set with
  | nil => simp [insert]
  | cons head rest ih =>
    simp only [insert]
    split
    · simp
    · split
      · simp only [List.mem_cons, ih]
        exact or_left_comm
      · have same := total b head (by assumption) (by assumption)
        simp [same]

/-- Inserting keeps a set in strictly increasing order. -/
theorem pairwise_insert (total : ∀ a b : α, ¬a < b → ¬b < a → a = b)
    (trans : ∀ {a b c : α}, a < b → b < c → a < c) {a : α} {set : List α}
    (increasing : set.Pairwise (· < ·)) : (insert a set).Pairwise (· < ·) := by
  induction set with
  | nil => simp [insert]
  | cons head rest ih =>
    have ⟨below, tail⟩ := List.pairwise_cons.1 increasing
    simp only [insert]
    split
    · rename_i before
      refine List.pairwise_cons.2 ⟨fun b member => ?_, increasing⟩
      rcases List.mem_cons.1 member with rfl | later
      · exact before
      · exact trans before (below b later)
    · split
      · rename_i after
        refine List.pairwise_cons.2 ⟨fun b member => ?_, ih tail⟩
        rcases (mem_insert total).1 member with rfl | later
        · exact after
        · exact below b later
      · exact increasing

theorem mem_union {a : α} {left right : List α} (total : ∀ a b : α, ¬a < b → ¬b < a → a = b) :
    a ∈ union left right ↔ a ∈ left ∨ a ∈ right := by
  induction right generalizing left with
  | nil => simp [union]
  | cons head rest ih =>
    have step : union left (head :: rest) = union (insert head left) rest := rfl
    rw [step, ih, mem_insert total, List.mem_cons, or_assoc, or_left_comm]

theorem mem_ofList {a : α} {elements : List α} (total : ∀ a b : α, ¬a < b → ¬b < a → a = b) :
    a ∈ ofList elements ↔ a ∈ elements := by
  rw [ofList, mem_union total]
  simp

end SortedSet

theorem Literal.rank_injective {l m : Literal} (same : l.rank = m.rank) : l = m := by
  have parity {a b : Nat} {s t : Bool}
      (same : 2 * a + (if s then 1 else 0) = 2 * b + if t then 1 else 0) : a = b ∧ s = t := by
    cases s <;> cases t <;> simp only [Bool.false_eq_true, if_true, if_false] at same <;>
      simp only [reduceCtorEq, and_true, and_false] <;> omega
  have ⟨atom, negative⟩ := parity same
  cases l
  cases m
  simp_all

theorem Literal.eq_of_not_lt {l m : Literal} (left : ¬l < m) (right : ¬m < l) : l = m :=
  rank_injective (Nat.le_antisymm (Nat.not_lt.1 right) (Nat.not_lt.1 left))

theorem VarPair.eq_of_not_lt {p q : VarPair} (left : ¬p < q) (right : ¬q < p) : p = q := by
  obtain ⟨a, b⟩ := p
  obtain ⟨c, d⟩ := q
  have not_less : ¬(a < c ∨ (a = c ∧ b < d)) := left
  have not_greater : ¬(c < a ∨ (c = a ∧ d < b)) := right
  have first : a = c := Nat.le_antisymm (by grind) (by grind)
  have second : b = d := Nat.le_antisymm (by grind) (by grind)
  rw [first, second]

namespace DependencyArena

variable {arena : DependencyArena} {L : Literal → Prop} {Q : VarPair → Prop}

/-! ## Leaves -/

/-- The second node is among those that the first one joins, directly or not. -/
inductive Below (arena : DependencyArena) : NodeId → NodeId → Prop
  | refl (id : NodeId) : Below arena id id
  | left {id a b leaf : NodeId} (node : arena.nodes[id]? = some (.join a b))
      (below : Below arena a leaf) : Below arena id leaf
  | right {id a b leaf : NodeId} (node : arena.nodes[id]? = some (.join a b))
      (below : Below arena b leaf) : Below arena id leaf

/-- The node has the property if it is a literal or an equality. -/
def LeafHas (L : Literal → Prop) (Q : VarPair → Prop) : DependencyNode → Prop
  | .literal l => L l
  | .equality p => Q p
  | .join _ _ => True

/-- Every literal and every equality that a dependency rests on has the property. -/
def AllLeaves (arena : DependencyArena) (L : Literal → Prop) (Q : VarPair → Prop)
    (d : Dependency) : Prop :=
  ∀ id, d = some id → ∀ (leaf : NodeId) (node : DependencyNode), arena.Below id leaf →
    arena.nodes[leaf]? = some node → LeafHas L Q node

/-- A node joins older nodes only. -/
def Closed (arena : DependencyArena) : Prop :=
  ∀ id a b : NodeId, arena.nodes[id]? = some (DependencyNode.join a b) → a < id ∧ b < id

/-- The dependency names a node of the arena, if any. -/
def Names (arena : DependencyArena) (d : Dependency) : Prop :=
  ∀ id, d = some id → id < arena.nodes.size

/-- The nodes of the first arena are nodes of the second one. -/
def Extends (before after : DependencyArena) : Prop :=
  ∀ (id : NodeId) (node : DependencyNode),
    before.nodes[id]? = some node → after.nodes[id]? = some node

theorem Extends.refl (arena : DependencyArena) : Extends arena arena :=
  fun _ _ found => found

theorem Extends.trans {a b c : DependencyArena} (first : Extends a b) (second : Extends b c) :
    Extends a c :=
  fun id node found => second id node (first id node found)

theorem Extends.size_le {before after : DependencyArena} (extended : Extends before after) :
    before.nodes.size ≤ after.nodes.size := by
  by_contra smaller
  have last : before.nodes.size - 1 < before.nodes.size := by omega
  have found := extended _ _ (Array.getElem?_eq_getElem last)
  have := (Array.getElem?_eq_some_iff.1 found).1
  omega

theorem Extends.names {before after : DependencyArena} {d : Dependency}
    (extended : Extends before after) (names : before.Names d) : after.Names d :=
  fun id same => Nat.lt_of_lt_of_le (names id same) extended.size_le

theorem names_none : arena.Names none := fun _ same => by cases same

theorem closed_empty : Closed empty := fun id a b found => by simp [empty] at found

@[simp] theorem allLeaves_none : arena.AllLeaves L Q none ↔ True := by
  simp [AllLeaves]

theorem AllLeaves.mono {L' : Literal → Prop} {Q' : VarPair → Prop} {d : Dependency}
    (all : arena.AllLeaves L Q d) (literals : ∀ l, L l → L' l) (equalities : ∀ p, Q p → Q' p) :
    arena.AllLeaves L' Q' d := by
  intro id same leaf node below found
  have has := all id same leaf node below found
  cases node with
  | literal l => exact literals l has
  | equality p => exact equalities p has
  | join a b => trivial

/-- Nodes below a node of the smaller arena are in the smaller arena. -/
theorem Below.restrict {before after : DependencyArena} (closed : before.Closed)
    (extended : Extends before after) {id leaf : NodeId} (below : after.Below id leaf)
    (bound : id < before.nodes.size) : before.Below id leaf ∧ leaf < before.nodes.size := by
  induction below with
  | refl id => exact ⟨.refl id, bound⟩
  | @left id a b leaf node below ih =>
    have old := Array.getElem?_eq_getElem bound
    have old_join : before.nodes[id]? = some (.join a b) := by
      rw [old, ← node]
      exact (extended id _ old).symm
    have ⟨inner, leaf_lt⟩ := ih (Nat.lt_trans (closed id a b old_join).1 bound)
    exact ⟨.left old_join inner, leaf_lt⟩
  | @right id a b leaf node below ih =>
    have old := Array.getElem?_eq_getElem bound
    have old_join : before.nodes[id]? = some (.join a b) := by
      rw [old, ← node]
      exact (extended id _ old).symm
    have ⟨inner, leaf_lt⟩ := ih (Nat.lt_trans (closed id a b old_join).2 bound)
    exact ⟨.right old_join inner, leaf_lt⟩

theorem Below.extend {before after : DependencyArena} (extended : Extends before after)
    {id leaf : NodeId} (below : before.Below id leaf) : after.Below id leaf := by
  induction below with
  | refl id => exact .refl id
  | left node below ih => exact .left (extended _ _ node) ih
  | right node below ih => exact .right (extended _ _ node) ih

/-- Adding nodes does not change what a dependency rests on. -/
theorem allLeaves_extends {before after : DependencyArena} {d : Dependency}
    (closed : before.Closed) (extended : Extends before after) (names : before.Names d) :
    after.AllLeaves L Q d ↔ before.AllLeaves L Q d := by
  constructor
  · intro all id same leaf node below found
    exact all id same leaf node (below.extend extended) (extended _ _ found)
  · intro all id same leaf node below found
    have ⟨inner, leaf_lt⟩ := below.restrict closed extended (names id same)
    have old := Array.getElem?_eq_getElem leaf_lt
    refine all id same leaf node inner ?_
    rw [old, ← found]
    exact (extended leaf _ old).symm

/-! ## Adding nodes -/

theorem extends_add (arena : DependencyArena) (node : DependencyNode) :
    Extends arena (arena.add node).1 := by
  intro id old found
  have bound := (Array.getElem?_eq_some_iff.1 found).1
  simp only [add, Array.getElem?_push, Nat.ne_of_lt bound, if_false, found]

theorem add_get? (arena : DependencyArena) (node : DependencyNode) :
    (arena.add node).1.nodes[arena.nodes.size]? = some node := by
  simp [add]

theorem names_add (arena : DependencyArena) (node : DependencyNode) :
    (arena.add node).1.Names (arena.add node).2 := by
  intro id same
  obtain rfl : arena.nodes.size = id := Option.some.inj same
  simp [add]

theorem closed_add {node : DependencyNode} (closed : arena.Closed)
    (older : ∀ a b, node = .join a b → a < arena.nodes.size ∧ b < arena.nodes.size) :
    (arena.add node).1.Closed := by
  intro id a b found
  simp only [add, Array.getElem?_push] at found
  split at found
  · rename_i same
    exact same ▸ older a b (Option.some.inj found)
  · exact closed id a b found

theorem below_leaf {id leaf : NodeId} {node : DependencyNode} (found : arena.nodes[id]? = some node)
    (is_leaf : ∀ a b, node ≠ .join a b) (below : arena.Below id leaf) : leaf = id := by
  cases below with
  | refl => rfl
  | left join => exact absurd (Option.some.inj (found.symm.trans join)) (is_leaf _ _)
  | right join => exact absurd (Option.some.inj (found.symm.trans join)) (is_leaf _ _)

theorem allLeaves_of_leaf {id : NodeId} {node : DependencyNode}
    (found : arena.nodes[id]? = some node) (is_leaf : ∀ a b, node ≠ .join a b) :
    arena.AllLeaves L Q (some id) ↔ LeafHas L Q node := by
  constructor
  · intro all
    exact all id rfl id node (.refl id) found
  · intro has other same leaf other_node below at_leaf
    obtain rfl := Option.some.inj same
    obtain rfl := below_leaf found is_leaf below
    exact Option.some.inj (found.symm.trans at_leaf) ▸ has

/-- What holds of all leaves of a join holds of those of both parts: the walk from the join visits the
two one after the other. -/
theorem allLeaves_of_join {id a b : NodeId} (found : arena.nodes[id]? = some (.join a b)) :
    arena.AllLeaves L Q (some id) ↔
      arena.AllLeaves L Q (some a) ∧ arena.AllLeaves L Q (some b) := by
  constructor
  · intro all
    constructor
    · intro other same leaf node below at_leaf
      obtain rfl := Option.some.inj same
      exact all id rfl leaf node (.left found below) at_leaf
    · intro other same leaf node below at_leaf
      obtain rfl := Option.some.inj same
      exact all id rfl leaf node (.right found below) at_leaf
  · rintro ⟨first, second⟩ other same leaf node below at_leaf
    obtain rfl := Option.some.inj same
    cases below with
    | refl =>
      obtain rfl := Option.some.inj (found.symm.trans at_leaf)
      trivial
    | left join below =>
      have same := Option.some.inj (found.symm.trans join)
      injection same with same_left _
      exact first a rfl leaf node (same_left ▸ below) at_leaf
    | right join below =>
      have same := Option.some.inj (found.symm.trans join)
      injection same with _ same_right
      exact second b rfl leaf node (same_right ▸ below) at_leaf

/-- What adding nodes for a dependency achieves: the old nodes stay, and the new dependency rests on
what it should. -/
structure Built (before : DependencyArena) (result : DependencyArena × Dependency)
    (rests : (Literal → Prop) → (VarPair → Prop) → Prop) : Prop where
  extended : Extends before result.1
  closed : result.1.Closed
  names : result.1.Names result.2
  leaves : ∀ L Q, result.1.AllLeaves L Q result.2 ↔ rests L Q

theorem built_mkLiteral (closed : arena.Closed) (l : Literal) :
    Built arena (arena.mkLiteral l) fun L _ => L l where
  extended := extends_add arena _
  closed := closed_add closed fun a b same => by cases same
  names := names_add arena _
  leaves L Q := allLeaves_of_leaf (add_get? arena _) fun a b same => by cases same

theorem built_mkEquality (closed : arena.Closed) (v w : Var) :
    Built arena (arena.mkEquality v w) fun _ Q => Q (VarPair.ordered v w) where
  extended := extends_add arena _
  closed := closed_add closed fun a b same => by cases same
  names := names_add arena _
  leaves L Q := allLeaves_of_leaf (add_get? arena _) fun a b same => by cases same

/-- A join is a node whose leaves are those of both parts; no node that was there changes. -/
theorem built_join {d f : Dependency} (closed : arena.Closed) (left : arena.Names d)
    (right : arena.Names f) :
    Built arena (arena.join d f) fun L Q => arena.AllLeaves L Q d ∧ arena.AllLeaves L Q f := by
  cases d with
  | none => exact ⟨.refl arena, closed, right, fun L Q => by simp [join]⟩
  | some a =>
    cases f with
    | none => exact ⟨.refl arena, closed, left, fun L Q => by simp [join]⟩
    | some b =>
      by_cases same : a = b
      · subst same
        simp only [join, if_true]
        exact ⟨.refl arena, closed, left, fun L Q => by simp⟩
      · simp only [join, same, if_false]
        have older : ∀ c e, DependencyNode.join a b = .join c e →
            c < arena.nodes.size ∧ e < arena.nodes.size := by
          rintro c e ⟨⟩
          exact ⟨left a rfl, right b rfl⟩
        refine ⟨extends_add arena _, closed_add closed older, names_add arena _, fun L Q => ?_⟩
        have kept {d : Dependency} (names : arena.Names d) :=
          allLeaves_extends (L := L) (Q := Q) closed (extends_add arena (.join a b)) names
        exact (allLeaves_of_join (add_get? arena _)).trans (and_congr (kept left) (kept right))

/-- Joining reasons one after another collects the leaves of all of them. -/
theorem built_joinOnto {acc : Dependency} {ds : List Dependency} (closed : arena.Closed)
    (first : arena.Names acc) (names : ∀ d ∈ ds, arena.Names d) :
    Built arena (joinOnto acc ds arena) fun L Q =>
      arena.AllLeaves L Q acc ∧ ∀ d ∈ ds, arena.AllLeaves L Q d := by
  induction ds generalizing arena acc with
  | nil => exact ⟨.refl arena, closed, first, fun L Q => by simp [joinOnto]⟩
  | cons d rest ih =>
    have ⟨names_d, names_rest⟩ := List.forall_mem_cons.1 names
    have joined := built_join closed first names_d
    have onto := ih joined.closed joined.names fun f member =>
      joined.extended.names (names_rest f member)
    refine ⟨joined.extended.trans onto.extended, onto.closed, onto.names, fun L Q => ?_⟩
    have kept : (∀ f ∈ rest, (arena.join acc d).1.AllLeaves L Q f) ↔
        ∀ f ∈ rest, arena.AllLeaves L Q f :=
      forall₂_congr fun f member =>
        allLeaves_extends closed joined.extended (names_rest f member)
    refine (onto.leaves L Q).trans ?_
    rw [joined.leaves, kept, List.forall_mem_cons, and_assoc]

theorem built_joinAll {ds : List Dependency} (closed : arena.Closed)
    (names : ∀ d ∈ ds, arena.Names d) :
    Built arena (arena.joinAll ds) fun L Q => ∀ d ∈ ds, arena.AllLeaves L Q d := by
  have built := built_joinOnto closed names_none names
  exact ⟨built.extended, built.closed, built.names, fun L Q =>
    (built.leaves L Q).trans (by simp)⟩

/-! ## The walk -/

/-- The leaf was collected. -/
def Collected (found : Explanation) (node : DependencyNode) : Prop :=
  LeafHas (· ∈ found.literals) (· ∈ found.equalities) node

/-- What a visited node joins was visited or waits on the stack, and visited leaves were collected.
-/
def WalkInvariant (arena : DependencyArena) (visited : Array Bool) (found : Explanation)
    (stack : List NodeId) : Prop :=
  ∀ (id : NodeId) (node : DependencyNode), visited[id]? = some true →
    arena.nodes[id]? = some node → Collected found node ∧ ∀ a b, node = .join a b →
      (visited[a]? = some true ∨ a ∈ stack) ∧ (visited[b]? = some true ∨ b ∈ stack)

theorem Collected.mono {found more : Explanation} {node : DependencyNode}
    (collected : Collected found node) (literals : ∀ l ∈ found.literals, l ∈ more.literals)
    (equalities : ∀ p ∈ found.equalities, p ∈ more.equalities) : Collected more node := by
  cases node with
  | literal l => exact literals l collected
  | equality p => exact equalities p collected
  | join a b => trivial

/-- What the walk collects has every property that the leaves below the stack have. -/
theorem walk_sound (visited : Array Bool) (found : Explanation) (stack : List NodeId)
    (literals : ∀ l ∈ found.literals, L l) (equalities : ∀ p ∈ found.equalities, Q p)
    (waiting : ∀ id ∈ stack, arena.AllLeaves L Q (some id)) :
    (∀ l ∈ (arena.walk visited found stack).literals, L l) ∧
      ∀ p ∈ (arena.walk visited found stack).equalities, Q p := by
  fun_induction walk arena visited found stack with
  | case1 visited found => exact ⟨literals, equalities⟩
  | case2 visited found id stack unvisited marked l node ih =>
    have ⟨first, rest⟩ := List.forall_mem_cons.1 waiting
    have here : L l := first id rfl id _ (.refl id) node
    exact ih (List.forall_mem_cons.2 ⟨here, literals⟩) equalities rest
  | case3 visited found id stack unvisited marked p node ih =>
    have ⟨first, rest⟩ := List.forall_mem_cons.1 waiting
    have here : Q p := first id rfl id _ (.refl id) node
    exact ih literals (List.forall_mem_cons.2 ⟨here, equalities⟩) rest
  | case4 visited found id stack unvisited marked a b node ih =>
    have ⟨first, rest⟩ := List.forall_mem_cons.1 waiting
    have ⟨left, right⟩ := (allLeaves_of_join node).1 first
    exact ih literals equalities
      (List.forall_mem_cons.2 ⟨left, List.forall_mem_cons.2 ⟨right, rest⟩⟩)
  | case5 visited found id stack unvisited marked node ih =>
    exact ih literals equalities (List.forall_mem_cons.1 waiting).2
  | case6 visited found id stack seen ih =>
    exact ih literals equalities (List.forall_mem_cons.1 waiting).2

theorem getElem?_mark {visited : Array Bool} {id : NodeId} (unvisited : visited[id]? = some false)
    (other : NodeId) :
    (visited.setIfInBounds id true)[other]? =
      if other = id then some true else visited[other]? := by
  have bound := (Array.getElem?_eq_some_iff.1 unvisited).1
  rw [Array.getElem?_setIfInBounds]
  by_cases same : id = other
  · subst same
    simp [bound]
  · have apart : ¬other = id := fun h => same h.symm
    simp [same, apart]

/-- What was visited or waited has been visited or still waits after the first node of the stack was
visited. -/
theorem known_mark {visited : Array Bool} {id other : NodeId} {stack next : List NodeId}
    (unvisited : visited[id]? = some false) (waiting : ∀ other ∈ stack, other ∈ next)
    (known : visited[other]? = some true ∨ other ∈ id :: stack) :
    (visited.setIfInBounds id true)[other]? = some true ∨ other ∈ next := by
  rw [getElem?_mark unvisited]
  rcases known with seen | member
  · left
    split
    · rfl
    · exact seen
  · rcases List.mem_cons.1 member with rfl | member
    · exact .inl (if_pos rfl)
    · exact .inr (waiting other member)

/-- Visiting the first node of the stack keeps the invariant if the node is collected and what it
joins goes onto the stack. -/
theorem WalkInvariant.visit {visited : Array Bool} {found more : Explanation} {id : NodeId}
    {stack next : List NodeId} (invariant : WalkInvariant arena visited found (id :: stack))
    (unvisited : visited[id]? = some false)
    (literals : ∀ l ∈ found.literals, l ∈ more.literals)
    (equalities : ∀ p ∈ found.equalities, p ∈ more.equalities)
    (waiting : ∀ other ∈ stack, other ∈ next)
    (here : ∀ node, arena.nodes[id]? = some node →
      Collected more node ∧ ∀ a b, node = .join a b → a ∈ next ∧ b ∈ next) :
    WalkInvariant arena (visited.setIfInBounds id true) more next := by
  intro other node seen found_node
  rw [getElem?_mark unvisited] at seen
  split at seen
  · rename_i same
    subst same
    have ⟨collected, joined⟩ := here node found_node
    exact ⟨collected, fun a b same => ⟨.inr (joined a b same).1, .inr (joined a b same).2⟩⟩
  · have ⟨collected, joined⟩ := invariant other node seen found_node
    exact ⟨collected.mono literals equalities,
      fun a b same => ⟨known_mark unvisited waiting (joined a b same).1,
        known_mark unvisited waiting (joined a b same).2⟩⟩

theorem Below.lt_size {id leaf : NodeId} {node : DependencyNode} (below : arena.Below id leaf)
    (at_leaf : arena.nodes[leaf]? = some node) : id < arena.nodes.size := by
  cases below with
  | refl => exact (Array.getElem?_eq_some_iff.1 at_leaf).1
  | left join => exact (Array.getElem?_eq_some_iff.1 join).1
  | right join => exact (Array.getElem?_eq_some_iff.1 join).1

/-- When nothing waits, the leaves below every visited node were collected. -/
theorem WalkInvariant.collected {visited : Array Bool} {found : Explanation} {id leaf : NodeId}
    {node : DependencyNode} (invariant : WalkInvariant arena visited found [])
    (below : arena.Below id leaf) (at_leaf : arena.nodes[leaf]? = some node)
    (seen : visited[id]? = some true) : Collected found node := by
  induction below with
  | refl id => exact (invariant id node seen at_leaf).1
  | left join below ih =>
    exact ih at_leaf (((invariant _ _ seen join).2 _ _ rfl).1.resolve_right (by simp))
  | right join below ih =>
    exact ih at_leaf (((invariant _ _ seen join).2 _ _ rfl).2.resolve_right (by simp))

/-- A node of the arena that is on the stack but not unvisited need not wait any longer. -/
theorem known_skip {visited : Array Bool} {id other : NodeId} {stack : List NodeId}
    (sized : visited.size = arena.nodes.size) (seen : ¬visited[id]? = some false)
    (lt : other < arena.nodes.size) (known : visited[other]? = some true ∨ other ∈ id :: stack) :
    visited[other]? = some true ∨ other ∈ stack := by
  rcases known with visited_other | member
  · exact .inl visited_other
  · rcases List.mem_cons.1 member with rfl | member
    · have present := Array.getElem?_eq_getElem (sized ▸ lt)
      rw [present] at seen ⊢
      exact .inl (by simpa using seen)
    · exact .inr member

theorem WalkInvariant.skip {visited : Array Bool} {found : Explanation} {id : NodeId}
    {stack : List NodeId} (closed : arena.Closed) (sized : visited.size = arena.nodes.size)
    (seen : ¬visited[id]? = some false) (invariant : WalkInvariant arena visited found (id :: stack)) :
    WalkInvariant arena visited found stack := by
  intro other node visited_other found_node
  have ⟨collected, joined⟩ := invariant other node visited_other found_node
  refine ⟨collected, fun a b same => ?_⟩
  have bound := (Array.getElem?_eq_some_iff.1 found_node).1
  have ⟨older_a, older_b⟩ := closed other a b (same ▸ found_node)
  exact ⟨known_skip sized seen (Nat.lt_trans older_a bound) (joined a b same).1,
    known_skip sized seen (Nat.lt_trans older_b bound) (joined a b same).2⟩

/-- The walk keeps what was collected and collects every leaf below the stack. -/
theorem walk_complete (closed : arena.Closed) (visited : Array Bool) (found : Explanation)
    (stack : List NodeId) (sized : visited.size = arena.nodes.size)
    (invariant : WalkInvariant arena visited found stack) :
    ∀ id, visited[id]? = some true ∨ id ∈ stack → ∀ (leaf : NodeId) (node : DependencyNode),
      arena.Below id leaf → arena.nodes[leaf]? = some node →
        Collected (arena.walk visited found stack) node := by
  fun_induction walk arena visited found stack with
  | case1 visited found =>
    intro id known leaf node below at_leaf
    exact invariant.collected below at_leaf (known.resolve_right (by simp))
  | case2 visited found id stack unvisited marked l node ih =>
    have next : WalkInvariant arena marked { found with literals := l :: found.literals } stack :=
      invariant.visit unvisited (fun _ member => List.mem_cons_of_mem _ member) (fun _ h => h)
        (fun _ h => h) fun other same => by
          obtain rfl := Option.some.inj (node.symm.trans same)
          exact ⟨List.mem_cons_self, fun a b same => by cases same⟩
    intro other known
    exact ih (by simpa [marked] using sized) next other
      (known_mark unvisited (fun _ member => member) known)
  | case3 visited found id stack unvisited marked p node ih =>
    have next : WalkInvariant arena marked { found with equalities := p :: found.equalities }
        stack :=
      invariant.visit unvisited (fun _ h => h) (fun _ member => List.mem_cons_of_mem _ member)
        (fun _ h => h) fun other same => by
          obtain rfl := Option.some.inj (node.symm.trans same)
          exact ⟨List.mem_cons_self, fun a b same => by cases same⟩
    intro other known
    exact ih (by simpa [marked] using sized) next other
      (known_mark unvisited (fun _ member => member) known)
  | case4 visited found id stack unvisited marked a b node ih =>
    have next : WalkInvariant arena marked found (a :: b :: stack) :=
      invariant.visit unvisited (fun _ h => h) (fun _ h => h)
        (fun _ member => List.mem_cons_of_mem _ (List.mem_cons_of_mem _ member))
        fun other same => by
          obtain rfl := Option.some.inj (node.symm.trans same)
          refine ⟨trivial, ?_⟩
          rintro c d ⟨⟩
          exact ⟨by simp, by simp⟩
    intro other known
    exact ih (by simpa [marked] using sized) next other (known_mark unvisited
      (fun _ member => List.mem_cons_of_mem _ (List.mem_cons_of_mem _ member)) known)
  | case5 visited found id stack unvisited marked node ih =>
    have next : WalkInvariant arena marked found stack :=
      invariant.visit unvisited (fun _ h => h) (fun _ h => h) (fun _ h => h) fun other same => by
        rw [node] at same
        cases same
    intro other known
    exact ih (by simpa [marked] using sized) next other
      (known_mark unvisited (fun _ member => member) known)
  | case6 visited found id stack seen ih =>
    intro other known leaf node below at_leaf
    have still := known_skip sized seen (below.lt_size at_leaf) known
    exact ih sized (invariant.skip closed sized seen) other still leaf node below at_leaf

/-- A dependency rests on exactly the literals and equalities of its explanation. -/
theorem allLeaves_iff_linearize (closed : arena.Closed) (d : Dependency) :
    arena.AllLeaves L Q d ↔
      (∀ l ∈ (arena.linearize d).literals, L l) ∧ ∀ p ∈ (arena.linearize d).equalities, Q p := by
  cases d with
  | none => simp [linearize, Explanation.empty]
  | some id =>
    have literal_iff (l : Literal) (ls : List Literal) : l ∈ SortedSet.ofList ls ↔ l ∈ ls :=
      SortedSet.mem_ofList fun _ _ => Literal.eq_of_not_lt
    have equality_iff (p : VarPair) (ps : List VarPair) : p ∈ SortedSet.ofList ps ↔ p ∈ ps :=
      SortedSet.mem_ofList fun _ _ => VarPair.eq_of_not_lt
    simp only [linearize, literal_iff, equality_iff]
    constructor
    · intro all
      refine walk_sound _ _ _ (by simp [Explanation.empty]) (by simp [Explanation.empty]) ?_
      simpa using all
    · rintro ⟨literals, equalities⟩ other same leaf node below at_leaf
      obtain rfl := Option.some.inj same
      have fresh : WalkInvariant arena (.replicate arena.nodes.size false) .empty [id] := by
        intro other node seen _
        simp [Array.getElem?_replicate] at seen
      have collected := walk_complete closed _ _ _ (by simp) fresh id (by simp) leaf node below at_leaf
      cases node with
      | literal l => exact literals l collected
      | equality p => exact equalities p collected
      | join a b => trivial

end DependencyArena

end ArithDecide
