import ArithDecide.Proofs.GuardedBounds
import ArithDecide.Storage.Calls

/-!
# Flattening a dependency

An arena shares: a node that is joined twice is stored once, and the walk of `DependencyArena.linearize`
visits it once. `DependencyArena.tree` unfolds the sharing, so that every joined node gets a copy for
each join. The main statement is that the walk ends after at most as many turns as there are nodes and
joined nodes (`DependencyArena.exists_turns`) and has then found exactly the leaves of that tree
(`DependencyArena.flattens`), in every arena that calls build.
-/

namespace ArithDecide

/-! ## Strictly increasing lists -/

namespace SortedSet

variable {α : Type} [LT α] [DecidableRel (fun a b : α => a < b)] {left right : List α}

theorem pairwise_union (total : ∀ a b : α, ¬a < b → ¬b < a → a = b)
    (trans : ∀ {a b c : α}, a < b → b < c → a < c) (increasing : left.Pairwise (· < ·)) :
    (union left right).Pairwise (· < ·) := by
  induction right generalizing left with
  | nil => exact increasing
  | cons head rest ih => exact ih (pairwise_insert total trans increasing)

theorem pairwise_ofList (total : ∀ a b : α, ¬a < b → ¬b < a → a = b)
    (trans : ∀ {a b c : α}, a < b → b < c → a < c) (elements : List α) :
    (ofList elements).Pairwise (· < ·) :=
  pairwise_union total trans .nil

omit [DecidableRel fun a b : α => a < b] in
/-- Strictly increasing lists with the same elements are the same. -/
theorem eq_of_mem_iff (asymm : ∀ {a b : α}, a < b → ¬b < a) (first : left.Pairwise (· < ·))
    (second : right.Pairwise (· < ·)) (same : ∀ a, a ∈ left ↔ a ∈ right) : left = right := by
  have distinct {l : List α} (increasing : l.Pairwise (· < ·)) : l.Nodup := by
    refine List.Pairwise.imp ?_ increasing
    rintro a b less rfl
    exact asymm less less
  have perm := (List.perm_ext_iff_of_nodup (distinct first) (distinct second)).2 same
  exact perm.eq_of_pairwise (fun a b _ _ less greater => absurd greater (asymm less)) first second

end SortedSet

theorem Literal.lt_trans {l m n : Literal} (first : l < m) (second : m < n) : l < n :=
  Nat.lt_trans (show l.rank < m.rank from first) (show m.rank < n.rank from second)

theorem Literal.lt_asymm {l m : Literal} (less : l < m) : ¬m < l :=
  Nat.lt_asymm (show l.rank < m.rank from less)

theorem VarPair.lt_trans {p q r : VarPair} (first : p < q) (second : q < r) : p < r := by
  rcases first with before | ⟨same, before⟩ <;> rcases second with after | ⟨same', after⟩
  · exact .inl (Nat.lt_trans before after)
  · exact .inl (same' ▸ before)
  · exact .inl (same ▸ after)
  · exact .inr ⟨same.trans same', Nat.lt_trans before after⟩

theorem VarPair.lt_asymm {p q : VarPair} (less : p < q) : ¬q < p := by
  intro greater
  rcases less with before | ⟨same, before⟩ <;> rcases greater with after | ⟨same', after⟩
  · exact Nat.lt_asymm before after
  · exact Nat.ne_of_lt before same'.symm
  · exact Nat.ne_of_lt after same.symm
  · exact Nat.lt_asymm before after

theorem VarPair.left_le_right_ordered (v w : Var) : (ordered v w).left ≤ (ordered v w).right := by
  unfold ordered
  split
  · assumption
  · exact Nat.le_of_not_le (by assumption)

namespace Explanation

/-- The literals and the equalities strictly increase. -/
structure Increasing (e : Explanation) : Prop where
  literals : e.literals.Pairwise (· < ·)
  equalities : e.equalities.Pairwise (· < ·)

/-- Explanations in increasing order that list the same are the same. -/
theorem Increasing.ext {e f : Explanation} (first : e.Increasing) (second : f.Increasing)
    (literals : ∀ l, l ∈ e.literals ↔ l ∈ f.literals)
    (equalities : ∀ p, p ∈ e.equalities ↔ p ∈ f.equalities) : e = f := by
  obtain ⟨ls, ps⟩ := e
  obtain ⟨ms, qs⟩ := f
  obtain rfl := SortedSet.eq_of_mem_iff Literal.lt_asymm first.literals second.literals literals
  obtain rfl := SortedSet.eq_of_mem_iff VarPair.lt_asymm first.equalities second.equalities equalities
  rfl

/-- What either explanation lists. -/
def union (e f : Explanation) : Explanation where
  literals := SortedSet.union e.literals f.literals
  equalities := SortedSet.union e.equalities f.equalities

theorem Increasing.union {e : Explanation} (increasing : e.Increasing) (f : Explanation) :
    (e.union f).Increasing where
  literals := SortedSet.pairwise_union (fun _ _ => Literal.eq_of_not_lt) Literal.lt_trans
    increasing.literals
  equalities := SortedSet.pairwise_union (fun _ _ => VarPair.eq_of_not_lt) VarPair.lt_trans
    increasing.equalities

theorem mem_literals_union {e f : Explanation} {l : Literal} :
    l ∈ (e.union f).literals ↔ l ∈ e.literals ∨ l ∈ f.literals :=
  SortedSet.mem_union fun _ _ => Literal.eq_of_not_lt

theorem mem_equalities_union {e f : Explanation} {p : VarPair} :
    p ∈ (e.union f).equalities ↔ p ∈ e.equalities ∨ p ∈ f.equalities :=
  SortedSet.mem_union fun _ _ => VarPair.eq_of_not_lt

end Explanation

/-! ## Trees -/

/-- What a dependency rests on, with a copy of a node for every join that it is a side of. -/
inductive DependencyTree where
  | nothing
  | literal (l : Literal)
  | equality (p : VarPair)
  | join (left right : DependencyTree)
  deriving DecidableEq

namespace DependencyTree

/-- The literals at the leaves, from left to right. -/
def literals : DependencyTree → List Literal
  | nothing | equality _ => []
  | literal l => [l]
  | join left right => left.literals ++ right.literals

/-- The equalities at the leaves, from left to right. -/
def equalities : DependencyTree → List VarPair
  | nothing | literal _ => []
  | equality p => [p]
  | join left right => left.equalities ++ right.equalities

end DependencyTree

/-- The explanation lists what is at the leaves of the tree, each leaf once and in increasing order. -/
structure Explanation.Flattens (e : Explanation) (tree : DependencyTree) : Prop where
  increasing : e.Increasing
  literals : ∀ l, l ∈ e.literals ↔ l ∈ tree.literals
  equalities : ∀ p, p ∈ e.equalities ↔ p ∈ tree.equalities

namespace DependencyArena

variable {arena before after : DependencyArena} {d f : Dependency} {id : NodeId}
  {L : Literal → Prop} {Q : VarPair → Prop}

/-- The tree of a node. A node joins older nodes only, so the guard does not cut anything off in an arena
that is closed. -/
def subtree (arena : DependencyArena) (id : NodeId) : DependencyTree :=
  match arena.nodes[id]? with
  | none => .nothing
  | some (.literal l) => .literal l
  | some (.equality p) => .equality p
  | some (.join a b) =>
    if _older : a < id ∧ b < id then .join (arena.subtree a) (arena.subtree b) else .nothing
termination_by id
decreasing_by
  · exact _older.1
  · exact _older.2

/-- The joins of a dependency, unfolded. -/
def tree (arena : DependencyArena) : Dependency → DependencyTree
  | none => .nothing
  | some id => arena.subtree id

theorem subtree_join (closed : arena.Closed) {a b : NodeId}
    (node : arena.nodes[id]? = some (.join a b)) :
    arena.subtree id = .join (arena.subtree a) (arena.subtree b) := by
  rw [subtree, node]
  exact dif_pos (closed id a b node)

/-- The leaves that a walk meets are those of the unfolded tree. The induction is on the number of the
node, as joins refer to older nodes only. -/
theorem allLeaves_iff_subtree (closed : arena.Closed) (id : NodeId) :
    arena.AllLeaves L Q (some id) ↔
      (∀ l ∈ (arena.subtree id).literals, L l) ∧ ∀ p ∈ (arena.subtree id).equalities, Q p := by
  induction id using Nat.strong_induction_on with
  | _ id ih =>
    cases node : arena.nodes[id]? with
    | none =>
      have nothing : arena.subtree id = .nothing := by rw [subtree, node]
      simp only [nothing, DependencyTree.literals, DependencyTree.equalities, List.not_mem_nil,
        false_imp_iff, forall_true_iff, and_self, iff_true]
      rintro other same leaf there below at_leaf
      obtain rfl := Option.some.inj same
      cases below with
      | refl => rw [node] at at_leaf; cases at_leaf
      | left join => rw [node] at join; cases join
      | right join => rw [node] at join; cases join
    | some there =>
      cases there with
      | literal l =>
        rw [allLeaves_of_leaf node (fun a b same => by cases same), subtree, node]
        simp [DependencyTree.literals, DependencyTree.equalities, LeafHas]
      | equality p =>
        rw [allLeaves_of_leaf node (fun a b same => by cases same), subtree, node]
        simp [DependencyTree.literals, DependencyTree.equalities, LeafHas]
      | join a b =>
        have older := closed id a b node
        rw [allLeaves_of_join node, ih a older.1, ih b older.2, subtree_join closed node]
        simp only [DependencyTree.literals, DependencyTree.equalities, List.forall_mem_append]
        exact and_and_and_comm

/-- A dependency rests on the leaves of its tree. -/
theorem allLeaves_iff_tree (closed : arena.Closed) (d : Dependency) :
    arena.AllLeaves L Q d ↔
      (∀ l ∈ (arena.tree d).literals, L l) ∧ ∀ p ∈ (arena.tree d).equalities, Q p := by
  cases d with
  | none => simp [tree, DependencyTree.literals, DependencyTree.equalities]
  | some id => exact allLeaves_iff_subtree closed id

theorem increasing_linearize (arena : DependencyArena) (d : Dependency) :
    (arena.linearize d).Increasing := by
  cases d with
  | none => exact ⟨.nil, .nil⟩
  | some id =>
    exact ⟨SortedSet.pairwise_ofList (fun _ _ => Literal.eq_of_not_lt) Literal.lt_trans _,
      SortedSet.pairwise_ofList (fun _ _ => VarPair.eq_of_not_lt) VarPair.lt_trans _⟩

/-- The walk, which visits a shared node once, finds what the unfolded tree has at its leaves. -/
theorem flattens (closed : arena.Closed) (d : Dependency) :
    (arena.linearize d).Flattens (arena.tree d) := by
  have found := (allLeaves_iff_linearize closed d).1 <| (allLeaves_iff_tree closed d).2
    ⟨fun l member => member, fun p member => member⟩
  have unfolded := (allLeaves_iff_tree closed d).1 <| (allLeaves_iff_linearize closed d).2
    ⟨fun l member => member, fun p member => member⟩
  exact ⟨arena.increasing_linearize d, fun l => ⟨found.1 l, unfolded.1 l⟩,
    fun p => ⟨found.2 p, unfolded.2 p⟩⟩

/-- Dependencies that rest on the same have the same explanation, in whatever arenas they are. -/
theorem linearize_congr (closed : before.Closed) (closed' : after.Closed)
    (same : ∀ L Q, after.AllLeaves L Q f ↔ before.AllLeaves L Q d) :
    after.linearize f = before.linearize d := by
  have to_before := (allLeaves_iff_linearize closed' f).1 <| (same _ _).2 <|
    (allLeaves_iff_linearize closed d).2 ⟨fun l member => member, fun p member => member⟩
  have to_after := (allLeaves_iff_linearize closed d).1 <| (same _ _).1 <|
    (allLeaves_iff_linearize closed' f).2 ⟨fun l member => member, fun p member => member⟩
  exact (after.increasing_linearize f).ext (before.increasing_linearize d)
    (fun l => ⟨to_before.1 l, to_after.1 l⟩) fun p => ⟨to_before.2 p, to_after.2 p⟩

/-! ## Joining and cutting back -/

/-- What is joined rests on what either side rests on. -/
theorem linearize_join (closed : arena.Closed) (left : arena.Names d) (right : arena.Names f) :
    (arena.join d f).1.linearize (arena.join d f).2 =
      (arena.linearize d).union (arena.linearize f) := by
  have built := built_join closed left right
  have leaves (L : Literal → Prop) (Q : VarPair → Prop) :
      ((∀ l ∈ ((arena.join d f).1.linearize (arena.join d f).2).literals, L l) ∧
        ∀ p ∈ ((arena.join d f).1.linearize (arena.join d f).2).equalities, Q p) ↔
      (∀ l ∈ ((arena.linearize d).union (arena.linearize f)).literals, L l) ∧
        ∀ p ∈ ((arena.linearize d).union (arena.linearize f)).equalities, Q p := by
    rw [← allLeaves_iff_linearize built.closed, built.leaves, allLeaves_iff_linearize closed,
      allLeaves_iff_linearize closed, and_and_and_comm]
    simp only [Explanation.mem_literals_union, Explanation.mem_equalities_union, or_imp, forall_and]
  have onto := (leaves _ _).2 ⟨fun l member => member, fun p member => member⟩
  have back := (leaves _ _).1 ⟨fun l member => member, fun p member => member⟩
  exact (increasing_linearize _ _).ext ((arena.increasing_linearize d).union _)
    (fun l => ⟨onto.1 l, back.1 l⟩) fun p => ⟨onto.2 p, back.2 p⟩

theorem extends_truncate (arena : DependencyArena) (length : Nat) :
    Extends (arena.truncate length) arena := by
  intro id node found
  rw [truncate, getElem?_take] at found
  split at found
  · exact found
  · cases found

theorem Closed.truncate (closed : arena.Closed) (length : Nat) : (arena.truncate length).Closed :=
  fun id a b found => closed id a b (extends_truncate arena length id _ found)

/-- Cutting the arena back does not change what the nodes that stay rest on. -/
theorem linearize_truncate (closed : arena.Closed) {length : Nat}
    (names : (arena.truncate length).Names d) :
    (arena.truncate length).linearize d = arena.linearize d :=
  linearize_congr closed (closed.truncate length) fun _ _ =>
    (allLeaves_extends (closed.truncate length) (extends_truncate arena length) names).symm

/-! ## The turns of a walk -/

/-- A walk that is under way: the nodes that were visited, the leaves that were found, and the nodes that
wait. -/
structure Walk where
  visited : Array Bool
  found : Explanation
  stack : List NodeId

/-- The walk from a node, before its first turn. -/
def Walk.start (arena : DependencyArena) (id : NodeId) : Walk :=
  ⟨.replicate arena.nodes.size false, .empty, [id]⟩

/-- One turn: the first node that waits is taken from the stack, and visited unless it was before. -/
def turn (arena : DependencyArena) (w : Walk) : Walk :=
  match w.stack with
  | [] => w
  | id :: stack =>
    if w.visited[id]? = some false then
      let marked := w.visited.setIfInBounds id true
      match arena.nodes[id]? with
      | some (.literal l) => ⟨marked, { w.found with literals := l :: w.found.literals }, stack⟩
      | some (.equality p) => ⟨marked, { w.found with equalities := p :: w.found.equalities }, stack⟩
      | some (.join left right) => ⟨marked, w.found, left :: right :: stack⟩
      | none => ⟨marked, w.found, stack⟩
    else { w with stack := stack }

/-- A turn does not change where the walk leads to, and less work is left after it. -/
theorem walk_turn (arena : DependencyArena) (w : Walk) (waiting : w.stack ≠ []) :
    arena.walk (arena.turn w).visited (arena.turn w).found (arena.turn w).stack =
        arena.walk w.visited w.found w.stack ∧
      workLeft (arena.turn w).visited (arena.turn w).stack < workLeft w.visited w.stack := by
  obtain ⟨visited, found, stack⟩ := w
  cases stack with
  | nil => exact absurd rfl waiting
  | cons id stack =>
    by_cases unvisited : visited[id]? = some false
    · have fewer := workLeft_mark unvisited stack
      simp only [workLeft] at fewer
      rw [walk, dif_pos unvisited]
      simp only [turn, unvisited, if_true]
      cases arena.nodes[id]? with
      | none =>
        refine ⟨rfl, ?_⟩
        simp only [workLeft, List.length_cons]
        omega
      | some node =>
        cases node <;> refine ⟨rfl, ?_⟩ <;> simp only [workLeft, List.length_cons] <;> omega
    · rw [walk, dif_neg unvisited]
      have turned : arena.turn ⟨visited, found, id :: stack⟩ = ⟨visited, found, stack⟩ :=
        if_neg unvisited
      rw [turned]
      refine ⟨rfl, ?_⟩
      simp only [workLeft, List.length_cons]
      omega

/-- A walk ends: after as many turns as there is work nothing waits any more. -/
theorem exists_turns (arena : DependencyArena) (w : Walk) :
    ∃ count ≤ workLeft w.visited w.stack, (arena.turn^[count] w).stack = [] ∧
      (arena.turn^[count] w).found = arena.walk w.visited w.found w.stack := by
  generalize work : workLeft w.visited w.stack = n
  induction n using Nat.strong_induction_on generalizing w with
  | _ n ih =>
    by_cases empty : w.stack = []
    · refine ⟨0, Nat.zero_le _, empty, ?_⟩
      rw [Function.iterate_zero_apply, empty, walk]
    · obtain ⟨same, less⟩ := walk_turn arena w empty
      obtain ⟨count, le, ended, leads⟩ := ih _ (work ▸ less) (arena.turn w) rfl
      refine ⟨count + 1, by omega, ?_, ?_⟩
      · rw [Function.iterate_succ_apply, ended]
      · rw [Function.iterate_succ_apply, leads, same]

theorem workLeft_start (arena : DependencyArena) (id : NodeId) :
    workLeft (Walk.start arena id).visited (Walk.start arena id).stack = 2 * arena.nodes.size + 1 := by
  simp [workLeft, Walk.start]

/-- After at most so many turns of the walk from the node nothing waits, and the explanation is what was
found, in order. -/
def EndsWithin (arena : DependencyArena) (id : NodeId) (turns : Nat) (e : Explanation) : Prop :=
  ∃ count ≤ turns, (arena.turn^[count] (.start arena id)).stack = [] ∧
    e = ⟨SortedSet.ofList (arena.turn^[count] (.start arena id)).found.literals,
      SortedSet.ofList (arena.turn^[count] (.start arena id)).found.equalities⟩

/-- The walk takes at most two turns for each node of the arena and one more. -/
theorem endsWithin_linearize (arena : DependencyArena) (id : NodeId) :
    arena.EndsWithin id (2 * arena.nodes.size + 1) (arena.linearize (some id)) := by
  obtain ⟨count, le, ended, leads⟩ := arena.exists_turns (.start arena id)
  refine ⟨count, workLeft_start arena id ▸ le, ended, ?_⟩
  rw [leads]
  rfl

/-! ## Arenas that calls build -/

/-- What is asked of an arena. -/
inductive BuildCall where
  | mkLiteral (l : Literal)
  | mkEquality (v w : Var)
  | join (d f : Dependency)
  | joinAll (ds : List Dependency)
  | truncate (length : Nat)
  deriving DecidableEq

/-- Whether the dependency names a node of the arena, if any. -/
def holds (arena : DependencyArena) (d : Dependency) : Bool :=
  d.all fun id => decide (id < arena.nodes.size)

/-- Dependencies are joined while the arena has them. -/
def allows (arena : DependencyArena) : BuildCall → Bool
  | .mkLiteral _ | .mkEquality _ _ | .truncate _ => true
  | .join d f => arena.holds d && arena.holds f
  | .joinAll ds => ds.all arena.holds

def build (arena : DependencyArena) : BuildCall → DependencyArena
  | .mkLiteral l => (arena.mkLiteral l).1
  | .mkEquality v w => (arena.mkEquality v w).1
  | .join d f => (arena.join d f).1
  | .joinAll ds => (arena.joinAll ds).1
  | .truncate length => arena.truncate length

def buildAll (arena : DependencyArena) (calls : List BuildCall) : DependencyArena :=
  calls.foldl build arena

/-- Every call is made when it is allowed. -/
def allowsAll (arena : DependencyArena) (calls : List BuildCall) : Bool :=
  allowsEach allows build arena calls

theorem holds_iff : arena.holds d = true ↔ arena.Names d := by
  cases d with
  | none => simp [holds, names_none]
  | some id => simp [holds, Names]

/-- What the calls keep: a node joins older nodes only, and every pair has its smaller variable on the
left. -/
structure Kept (arena : DependencyArena) : Prop where
  closed : arena.Closed
  ordered : ∀ (id : NodeId) p, arena.nodes[id]? = some (.equality p) → p.left ≤ p.right

theorem kept_empty : Kept empty := ⟨closed_empty, fun id p found => by simp [empty] at found⟩

theorem Kept.add (kept : arena.Kept) {node : DependencyNode}
    (older : ∀ a b, node = .join a b → a < arena.nodes.size ∧ b < arena.nodes.size)
    (ordered : ∀ p, node = .equality p → p.left ≤ p.right) : (arena.add node).1.Kept := by
  refine ⟨closed_add kept.closed older, fun id p found => ?_⟩
  simp only [DependencyArena.add, Array.getElem?_push] at found
  split at found
  · exact ordered p (Option.some.inj found)
  · exact kept.ordered id p found

theorem Kept.join (kept : arena.Kept) (left : arena.Names d) (right : arena.Names f) :
    (arena.join d f).1.Kept := by
  cases d with
  | none => exact kept
  | some a =>
    cases f with
    | none => exact kept
    | some b =>
      rw [DependencyArena.join]
      split
      · exact kept
      · refine kept.add ?_ fun p same => by cases same
        rintro c e ⟨⟩
        exact ⟨left a rfl, right b rfl⟩

theorem Kept.joinOnto {acc : Dependency} {ds : List Dependency} (kept : arena.Kept)
    (first : arena.Names acc) (names : ∀ d ∈ ds, arena.Names d) : (joinOnto acc ds arena).1.Kept := by
  induction ds generalizing arena acc with
  | nil => exact kept
  | cons d rest ih =>
    obtain ⟨names_d, names_rest⟩ := List.forall_mem_cons.1 names
    have joined := built_join kept.closed first names_d
    exact ih (kept.join first names_d) joined.names fun f member =>
      joined.extended.names (names_rest f member)

theorem Kept.truncate (kept : arena.Kept) (length : Nat) : (arena.truncate length).Kept where
  closed := kept.closed.truncate length
  ordered id p found := kept.ordered id p (extends_truncate arena length id _ found)

/-- Every allowed call keeps what is kept. -/
theorem Kept.build (kept : arena.Kept) {call : BuildCall} (allowed : arena.allows call = true) :
    (arena.build call).Kept := by
  cases call with
  | mkLiteral l => exact kept.add (fun a b same => by cases same) fun p same => by cases same
  | mkEquality v w =>
    refine kept.add (fun a b same => by cases same) fun p same => ?_
    rw [← DependencyNode.equality.inj same]
    exact VarPair.left_le_right_ordered v w
  | join d f =>
    rw [allows, Bool.and_eq_true, holds_iff, holds_iff] at allowed
    exact kept.join allowed.1 allowed.2
  | joinAll ds =>
    rw [allows, List.all_eq_true] at allowed
    exact kept.joinOnto names_none fun d member => holds_iff.1 (allowed d member)
  | truncate length => exact kept.truncate length

theorem Kept.buildAll (kept : arena.Kept) {calls : List BuildCall}
    (allowed : arena.allowsAll calls = true) : (arena.buildAll calls).Kept :=
  foldl_of_allowsEach (fun kept allowed => kept.build allowed) kept allowed

/-- The pairs at the leaves have their smaller variable on the left. -/
theorem Kept.left_le_right (kept : arena.Kept) {p : VarPair}
    (member : p ∈ (arena.linearize d).equalities) : p.left ≤ p.right := by
  have all : arena.AllLeaves (fun _ => True) (fun p => p.left ≤ p.right) d := by
    intro id _ leaf node _ at_leaf
    cases node with
    | literal l => trivial
    | equality p => exact kept.ordered leaf p at_leaf
    | join a b => trivial
  exact ((allLeaves_iff_linearize kept.closed d).1 all).2 p member

/-- The arena is one that allowed calls build. -/
def Buildable (arena : DependencyArena) : Prop :=
  ∃ calls, empty.allowsAll calls = true ∧ empty.buildAll calls = arena

/-- In every arena that calls build the walk from any node stays inside the arena and ends after at most
two turns for each node and one more; the explanation lists exactly the leaves of the unfolded tree, in
increasing order and with ordered pairs; the explanation of a join is the union of both; and cutting the
arena back changes no explanation of a node that stays. -/
theorem linearize_unfolds (buildable : arena.Buildable) (names : arena.Names d) :
    Guarded.linearize arena d = .ok (arena.linearize d) ∧
      (∀ id, d = some id → arena.EndsWithin id (2 * arena.nodes.size + 1) (arena.linearize d)) ∧
      (arena.linearize d).Flattens (arena.tree d) ∧
      (∀ p ∈ (arena.linearize d).equalities, p.left ≤ p.right) ∧
      (∀ f, arena.Names f → (arena.join d f).1.linearize (arena.join d f).2 =
        (arena.linearize d).union (arena.linearize f)) ∧
      ∀ length, (arena.truncate length).Names d →
        (arena.truncate length).linearize d = arena.linearize d := by
  obtain ⟨calls, allowed, rfl⟩ := buildable
  have kept := kept_empty.buildAll allowed
  refine ⟨guarded_linearize kept.closed names, ?_, flattens kept.closed d,
    fun p member => kept.left_le_right member, fun f other => linearize_join kept.closed names other,
    fun length stays => linearize_truncate kept.closed stays⟩
  rintro id rfl
  exact endsWithin_linearize _ id

/-- Two joins of the same leaves in either order, joined again, over a node that was forgotten. -/
def sharing : List BuildCall :=
  [.mkLiteral ⟨3, false⟩, .mkEquality 5 2, .mkLiteral ⟨9, true⟩, .truncate 2, .mkLiteral ⟨1, true⟩,
    .join (some 0) (some 1), .join (some 1) (some 0), .joinAll [some 3, none, some 4, some 2]]

theorem linearize_unfolds_sharing :
    (empty.buildAll sharing).linearize (some 6) = ⟨[⟨1, true⟩, ⟨3, false⟩], [⟨2, 5⟩]⟩ ∧
      ((empty.buildAll sharing).linearize (some 6)).Flattens ((empty.buildAll sharing).tree (some 6)) ∧
      ((empty.buildAll sharing).truncate 4).linearize (some 3) =
        (empty.buildAll sharing).linearize (some 3) := by
  have buildable : (empty.buildAll sharing).Buildable := ⟨sharing, by decide, rfl⟩
  have joined : (empty.buildAll sharing).Names (some 6) := holds_iff.1 (by decide)
  have older : (empty.buildAll sharing).Names (some 3) := holds_iff.1 (by decide)
  refine ⟨by cbv, (linearize_unfolds buildable joined).2.2.1, ?_⟩
  exact (linearize_unfolds buildable older).2.2.2.2.2 4 (holds_iff.1 (by decide))

end DependencyArena

end ArithDecide
