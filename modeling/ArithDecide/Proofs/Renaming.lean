import Mathlib.Order.Hom.Basic
import ArithDecide.Engine.Basic
import ArithDecide.Nonlinear.Completion
import ArithDecide.Proofs.Dependency

/-!
# New numbers for the nodes of an arena

An arena that has more nodes than another one may still hold the same justifications, under other
numbers. `DependencyArena.Embeds` says that every node of the smaller arena is found in the larger one
under its new number, and that the next node of either gets the next number of the other. So the arenas
stay that way when both get the same nodes, and a node rests on the same leaves in both. Numbers are
compared when a bound or a polynomial collects its reasons; the new ones come in the same order, and so
bounds, conflicts and completions of a basis are renamed and otherwise the same.
-/

namespace ArithDecide

/-- New numbers for nodes, in the same order. -/
abbrev Renaming := NodeId ↪o NodeId

variable {ρ σ : Renaming}

namespace Renaming

/-- Nodes below `count` keep their new numbers; from there on, numbers go on with `next`. -/
def resumed (ρ : Renaming) (count next : Nat) (id : NodeId) : NodeId :=
  if id < count then ρ id else next + (id - count)

variable {count next : Nat} {id : NodeId}

theorem resumed_of_lt (lt : id < count) : ρ.resumed count next id = ρ id := if_pos lt

theorem resumed_of_le (le : count ≤ id) : ρ.resumed count next id = next + (id - count) :=
  if_neg (Nat.not_lt.2 le)

theorem strictMono_resumed (room : ∀ id < count, ρ id < next) : StrictMono (ρ.resumed count next) := by
  intro i j lt
  rcases Nat.lt_or_ge j count with below | above
  · rw [resumed_of_lt below, resumed_of_lt (Nat.lt_trans lt below)]
    exact ρ.lt_iff_lt.2 lt
  · rcases Nat.lt_or_ge i count with first | second
    · rw [resumed_of_lt first, resumed_of_le above]
      exact Nat.lt_of_lt_of_le (room i first) (Nat.le_add_right _ _)
    · rw [resumed_of_le second, resumed_of_le above]
      exact Nat.add_lt_add_left (Nat.sub_lt_sub_right second lt) _

/-- The renaming that keeps the new numbers of nodes below `count` and goes on with `next`. -/
def resume (ρ : Renaming) (count next : Nat) (room : ∀ id < count, ρ id < next) : Renaming :=
  OrderEmbedding.ofStrictMono (ρ.resumed count next) (strictMono_resumed room)

end Renaming

/-! ## Sorted sets -/

namespace SortedSet

variable (ρ) (a : NodeId) (set other : List NodeId)

theorem insert_map : insert (ρ a) (set.map ρ) = (insert a set).map ρ := by
  induction set with
  | nil => rfl
  | cons head rest ih =>
    simp only [List.map_cons, insert, ρ.lt_iff_lt, ih]
    split
    · rfl
    · split <;> rfl

theorem union_map : union (set.map ρ) (other.map ρ) = (union set other).map ρ := by
  induction other generalizing set with
  | nil => rfl
  | cons head rest ih =>
    show union (insert (ρ head) (set.map ρ)) (rest.map ρ) = (union (insert head set) rest).map ρ
    rw [insert_map, ih]

theorem ofList_map : ofList (set.map ρ) = (ofList set).map ρ := union_map ρ [] set

end SortedSet

/-! ## Arenas -/

/-- The node with new numbers for what it joins. -/
def DependencyNode.rename (ρ : Renaming) : DependencyNode → DependencyNode
  | .literal l => .literal l
  | .equality p => .equality p
  | .join left right => .join (ρ left) (ρ right)

namespace DependencyArena

/-- Every node of the first arena has a new number in the second one, and the next nodes go on. -/
structure Embeds (ρ : Renaming) (small large : DependencyArena) : Prop where
  node : ∀ id, large.nodes[ρ id]? = small.nodes[id]?.map (DependencyNode.rename ρ)
  next : ∀ more, ρ (small.nodes.size + more) = large.nodes.size + more

/-- The arenas, and the dependencies that come with them, are the same but for numbers. -/
structure EmbedsWith (ρ : Renaming) (x y : DependencyArena × Dependency) : Prop where
  arena : Embeds ρ x.1 y.1
  answer : y.2 = x.2.map ρ

variable {small large : DependencyArena}

theorem embeds_empty : Embeds (RelEmbedding.refl _) empty empty := ⟨fun _ => rfl, fun _ => rfl⟩

section Embeds

variable (embeds : Embeds ρ small large)
include embeds

theorem Embeds.lt_iff {id : NodeId} : ρ id < large.nodes.size ↔ id < small.nodes.size := by
  have last : ρ small.nodes.size = large.nodes.size := embeds.next 0
  rw [← last, ρ.lt_iff_lt]

/-! ### The same nodes are added -/

theorem Embeds.add (node : DependencyNode) :
    EmbedsWith ρ (small.add node) (large.add (node.rename ρ)) := by
  have last : ρ small.nodes.size = large.nodes.size := embeds.next 0
  refine ⟨⟨fun id => ?_, fun more => ?_⟩, congrArg some last.symm⟩
  · simp only [DependencyArena.add, Array.getElem?_push, ← last, ρ.eq_iff_eq]
    split
    · rfl
    · exact embeds.node id
  · simp only [DependencyArena.add, Array.size_push, Nat.add_assoc]
    exact embeds.next (1 + more)

theorem Embeds.mkLiteral (l : Literal) :
    EmbedsWith ρ (small.mkLiteral l) (large.mkLiteral l) := embeds.add (.literal l)

theorem Embeds.mkEquality (v w : Var) :
    EmbedsWith ρ (small.mkEquality v w) (large.mkEquality v w) :=
  embeds.add (.equality (VarPair.ordered v w))

theorem Embeds.join (left right : Dependency) :
    EmbedsWith ρ (small.join left right) (large.join (left.map ρ) (right.map ρ)) := by
  cases left with
  | none => exact ⟨embeds, rfl⟩
  | some left =>
    cases right with
    | none => exact ⟨embeds, rfl⟩
    | some right =>
      simp only [Option.map_some, DependencyArena.join, ρ.eq_iff_eq]
      split
      · exact ⟨embeds, rfl⟩
      · exact embeds.add (.join left right)

omit embeds in
theorem Embeds.joinOnto (acc : Dependency) (ds : List Dependency) (embeds : Embeds ρ small large) :
    EmbedsWith ρ (joinOnto acc ds small) (joinOnto (acc.map ρ) (ds.map (Option.map ρ)) large) := by
  induction ds generalizing acc small large with
  | nil => exact ⟨embeds, rfl⟩
  | cons d rest ih =>
    obtain ⟨joined, same⟩ := embeds.join acc d
    have onto := ih (small.join acc d).2 joined
    rwa [← same] at onto

theorem Embeds.joinAll (ds : List Dependency) :
    EmbedsWith ρ (small.joinAll ds) (large.joinAll (ds.map (Option.map ρ))) :=
  Embeds.joinOnto none ds embeds

/-! ### What a node rests on -/

/-- The walks through both arenas visit the same nodes in the same order. -/
theorem Embeds.walk {visited renamed : Array Bool} (same : ∀ id, renamed[ρ id]? = visited[id]?)
    (found : Explanation) (stack : List NodeId) :
    large.walk renamed found (stack.map ρ) = small.walk visited found stack := by
  have mark {visited renamed : Array Bool} {id : NodeId}
      (same : ∀ id, renamed[ρ id]? = visited[id]?) (unvisited : visited[id]? = some false)
      (other : NodeId) : (renamed.setIfInBounds (ρ id) true)[ρ other]? =
        (visited.setIfInBounds id true)[other]? := by
    simp only [getElem?_mark unvisited, getElem?_mark ((same id).trans unvisited), ρ.eq_iff_eq, same]
  fun_induction small.walk visited found stack generalizing renamed with
  | case1 => rw [List.map_nil, DependencyArena.walk]
  | case2 visited found id stack unvisited marked l node =>
    rename_i ih
    rw [List.map_cons, DependencyArena.walk, dif_pos ((same id).trans unvisited), embeds.node, node]
    exact ih (mark same unvisited)
  | case3 visited found id stack unvisited marked p node =>
    rename_i ih
    rw [List.map_cons, DependencyArena.walk, dif_pos ((same id).trans unvisited), embeds.node, node]
    exact ih (mark same unvisited)
  | case4 visited found id stack unvisited marked left right node =>
    rename_i ih
    rw [List.map_cons, DependencyArena.walk, dif_pos ((same id).trans unvisited), embeds.node, node]
    exact ih (mark same unvisited)
  | case5 visited found id stack unvisited marked node =>
    rename_i ih
    rw [List.map_cons, DependencyArena.walk, dif_pos ((same id).trans unvisited), embeds.node, node]
    exact ih (mark same unvisited)
  | case6 visited found id stack seen ih =>
    rw [List.map_cons, DependencyArena.walk, dif_neg ((same id).symm ▸ seen)]
    exact ih same

theorem Embeds.linearize (d : Dependency) : large.linearize (d.map ρ) = small.linearize d := by
  cases d with
  | none => rfl
  | some id =>
    have fresh (id : NodeId) : (Array.replicate large.nodes.size false)[ρ id]? =
        (Array.replicate small.nodes.size false)[id]? := by
      simp only [Array.getElem?_replicate, embeds.lt_iff]
    have walks := embeds.walk fresh .empty [id]
    rw [List.map_singleton] at walks
    rw [Option.map_some, DependencyArena.linearize, DependencyArena.linearize, walks]

/-! ### Only the larger arena grows -/

omit embeds in
theorem names_map {d : Dependency} (names : small.Names d)
    (same : ∀ id < small.nodes.size, σ id = ρ id) : d.map σ = d.map ρ := by
  cases d with
  | none => rfl
  | some id => exact congrArg some (same id (names id rfl))

/-- Nodes that only the larger arena gets change the numbers of later nodes only. -/
theorem Embeds.extend {more : DependencyArena} (closed : small.Closed)
    (extended : large.Extends more) :
    ∃ σ : Renaming, Embeds σ small more ∧ ∀ id < small.nodes.size, σ id = ρ id := by
  have room (id : NodeId) (lt : id < small.nodes.size) : ρ id < more.nodes.size :=
    Nat.lt_of_lt_of_le (embeds.lt_iff.2 lt) extended.size_le
  refine ⟨ρ.resume small.nodes.size more.nodes.size room, ⟨fun id => ?_, fun count => ?_⟩,
    fun id lt => Renaming.resumed_of_lt lt⟩
  · show more.nodes[ρ.resumed small.nodes.size more.nodes.size id]? = _
    rcases Nat.lt_or_ge id small.nodes.size with below | above
    · have found := Array.getElem?_eq_getElem below
      have there := embeds.node id
      rw [found, Option.map_some] at there
      rw [Renaming.resumed_of_lt below, found, extended _ _ there, Option.map_some]
      -- what the node joins is older than the node, and so keeps its number
      generalize small.nodes[id] = node at found
      cases node with
      | literal l => rfl
      | equality p => rfl
      | join left right =>
        obtain ⟨left_lt, right_lt⟩ := closed id left right found
        have kept {child : NodeId} (lt : child < id) :
            ρ.resume small.nodes.size more.nodes.size room child = ρ child :=
          Renaming.resumed_of_lt (Nat.lt_trans lt below)
        rw [DependencyNode.rename, DependencyNode.rename, kept left_lt, kept right_lt]
    · rw [Renaming.resumed_of_le above, Array.getElem?_eq_none above,
        Array.getElem?_eq_none (Nat.le_add_right _ _)]
      rfl
  · show ρ.resumed small.nodes.size more.nodes.size _ = _
    rw [Renaming.resumed_of_le (Nat.le_add_right _ _), Nat.add_sub_cancel_left]

end Embeds

theorem extends_join (left right : Dependency) : small.Extends (small.join left right).1 := by
  cases left with
  | none => exact .refl small
  | some left =>
    cases right with
    | none => exact .refl small
    | some right =>
      rw [join]
      split
      · exact .refl small
      · exact extends_add small _

theorem extends_joinOnto (acc : Dependency) (ds : List Dependency) :
    small.Extends (joinOnto acc ds small).1 := by
  induction ds generalizing acc small with
  | nil => exact .refl small
  | cons d rest ih => exact (extends_join acc d).trans (ih _)

end DependencyArena

/-! ## Bounds and verdicts -/

namespace Bound

def rename (ρ : Renaming) (bound : Bound) : Bound := { bound with reason := bound.reason.map ρ }

end Bound

namespace BoundStore

/-- The same bounds, with new numbers for what they rest on. -/
def rename (ρ : Renaming) (store : BoundStore) : BoundStore :=
  { store with records := store.records.map (Bound.rename ρ) }

end BoundStore

namespace BoundUpdate

def rename (ρ : Renaming) : BoundUpdate → BoundUpdate
  | .tightened store => .tightened (store.rename ρ)
  | .unchanged store => .unchanged (store.rename ρ)
  | .conflict opposite => .conflict (opposite.map ρ)

end BoundUpdate

namespace BoundStore

variable (ρ) (store : BoundStore)

theorem rename_empty : empty.rename ρ = empty := by
  rw [rename, empty, Array.map_empty]

theorem get_rename (v : Var) (kind : BoundKind) :
    (store.rename ρ).get v kind = (store.get v kind).map (Bound.rename ρ) := by
  rw [get, get, Option.map_bind]
  exact congrArg _ (funext fun id => Array.getElem?_map)

theorem value_rename : (store.rename ρ).value = store.value := by
  funext v kind
  rw [value, value, get_rename, Option.map_map]
  rfl

theorem reason_rename (v : Var) (kind : BoundKind) :
    (store.rename ρ).reason v kind = (store.reason v kind).map ρ := by
  rw [reason, reason, get_rename, Option.bind_map, Option.map_bind]
  rfl

theorem isTighter_rename : (store.rename ρ).isTighter = store.isTighter := by
  funext v kind x
  rw [isTighter, isTighter, get_rename]
  cases store.get v kind <;> rfl

theorem install_rename (bound : Bound) :
    (store.rename ρ).install (bound.rename ρ) = (store.install bound).rename ρ := by
  rw [install, install, rename, rename]
  simp only [Array.map_push, Array.size_map]
  rfl

/-- Whether a bound crosses, is covered or tightens does not depend on the numbers of nodes. -/
theorem assert_rename (bound : Bound) :
    (store.rename ρ).assert (bound.rename ρ) = (store.assert bound).rename ρ := by
  have crossed : ((store.rename ρ).get bound.var bound.kind.opposite).filter
      (fun opposite => bound.kind.tighter bound.value opposite.value) =
      ((store.get bound.var bound.kind.opposite).filter
        fun opposite => bound.kind.tighter bound.value opposite.value).map (Bound.rename ρ) := by
    rw [get_rename, Option.filter_map]
    rfl
  rw [assert, assert]
  simp only [show (bound.rename ρ).var = bound.var from rfl,
    show (bound.rename ρ).kind = bound.kind from rfl,
    show (bound.rename ρ).value = bound.value from rfl, crossed]
  split
  · rename_i opposite found
    obtain ⟨other, same, rfl⟩ := Option.map_eq_some_iff.1 found
    rw [same]
    rfl
  · rename_i found
    rw [Option.map_eq_none_iff.1 found, isTighter_rename]
    simp only
    split
    · exact congrArg BoundUpdate.tightened (install_rename ρ (store.note bound.var bound.kind) bound)
    · rfl

end BoundStore

namespace Status

/-- The same verdict, with a new number for what it rests on. -/
def rename (ρ : Renaming) : Status → Status
  | .infeasible conflict => .infeasible (conflict.map ρ)
  | status => status

end Status

/-! ## Polynomials -/

namespace Polynomial

def rename (ρ : Renaming) (p : Polynomial) : Polynomial := { p with reasons := p.reasons.map ρ }

theorem subScaled_rename (p q : Polynomial) (factor : Rat) (shift : PowerProduct) :
    (p.rename ρ).subScaled factor shift (q.rename ρ) = (p.subScaled factor shift q).rename ρ :=
  congrArg (Polynomial.mk _) (SortedSet.union_map ρ p.reasons q.reasons)

theorem reasons_rename (p : Polynomial) :
    (p.rename ρ).reasons.map some = (p.reasons.map some).map (Option.map ρ) := by
  rw [rename, List.map_map, List.map_map]
  rfl

end Polynomial

namespace Completion

def rename (ρ : Renaming) (c : Completion) : Completion :=
  { c with
    basis := c.basis.map (Polynomial.rename ρ)
    refutation := c.refutation.map (Polynomial.rename ρ) }

theorem reducer?_rename (basis : List Polynomial) (t : PowerProduct × Rat) :
    reducer? (basis.map (Polynomial.rename ρ)) t =
      (reducer? basis t).map fun found => (found.1.rename ρ, found.2) := by
  induction basis with
  | nil => rfl
  | cons p rest ih =>
    have same : (p.rename ρ).leading? = p.leading? := rfl
    rw [List.map_cons, reducer?, reducer?, ih, same]
    split
    · rfl
    · split <;> rfl

/-- How a polynomial is reduced does not depend on the reasons of the members. -/
theorem reduceFrom_rename (basis : List Polynomial) (budget steps index : Nat) (p : Polynomial) :
    reduceFrom (basis.map (Polynomial.rename ρ)) budget steps index (p.rename ρ) =
      ((reduceFrom basis budget steps index p).1.rename ρ,
        (reduceFrom basis budget steps index p).2) := by
  fun_induction reduceFrom basis budget steps index p with
  | case1 steps index p bound q shift factor found ih =>
    have more : steps < budget ∧ index < (p.rename ρ).terms.length := bound
    have again : reducer? (basis.map (Polynomial.rename ρ)) ((p.rename ρ).terms.get ⟨index, more.2⟩) =
        some (q.rename ρ, shift, factor) :=
      (reducer?_rename basis _).trans (congrArg (Option.map _) found)
    rw [reduceFrom, dif_pos more, again, ← ih, ← Polynomial.subScaled_rename]
  | case2 steps index p bound found ih =>
    have more : steps < budget ∧ index < (p.rename ρ).terms.length := bound
    have again : reducer? (basis.map (Polynomial.rename ρ)) ((p.rename ρ).terms.get ⟨index, more.2⟩) =
        none :=
      (reducer?_rename basis _).trans (congrArg (Option.map _) found)
    rw [reduceFrom, dif_pos more, again, ← ih]
  | case3 steps index p bound =>
    have spent : ¬(steps < budget ∧ index < (p.rename ρ).terms.length) := bound
    rw [reduceFrom, dif_neg spent]

theorem add_rename (c : Completion) (budget : Nat) (p : Polynomial) :
    (c.rename ρ).add budget (p.rename ρ) = (c.add budget p).rename ρ := by
  have reduced := reduceFrom_rename (ρ := ρ) c.basis budget c.steps 0 p
  have zero (p : Polynomial) : (p.rename ρ).isZero = p.isZero := rfl
  have constant (p : Polynomial) : (p.rename ρ).isConstant = p.isConstant := rfl
  rw [add, add]
  simp only [show (c.rename ρ).basis = c.basis.map (Polynomial.rename ρ) from rfl,
    show (c.rename ρ).steps = c.steps from rfl, reduced, zero, constant]
  split
  · rfl
  · split
    · rfl
    · simp only [rename, List.map_append, List.map_cons, List.map_nil, List.length_map]

theorem addAll_rename (budget : Nat) (ps : List Polynomial) (c : Completion) :
    addAll budget (ps.map (Polynomial.rename ρ)) (c.rename ρ) = (addAll budget ps c).rename ρ := by
  induction ps generalizing c with
  | nil => rfl
  | cons p rest ih =>
    have refuted : ((c.add budget p).rename ρ).refutation.isSome =
        (c.add budget p).refutation.isSome := Option.isSome_map
    rw [List.map_cons, addAll, addAll]
    simp only [add_rename, refuted]
    split
    · rfl
    · exact ih _

/-- Which terms two polynomials combine to does not depend on their reasons. -/
theorem sPolynomial?_rename (p q : Polynomial) :
    sPolynomial? (p.rename ρ) (q.rename ρ) = (sPolynomial? p q).map (Polynomial.rename ρ) := by
  have leading (p : Polynomial) : (p.rename ρ).leading? = p.leading? := rfl
  have combine (s t : Rat) (ps qs : PowerProduct) :
      ((Polynomial.zero.subScaled s ps (p.rename ρ)).subScaled t qs (q.rename ρ)) =
        ((Polynomial.zero.subScaled s ps p).subScaled t qs q).rename ρ := by
    rw [← Polynomial.subScaled_rename, ← Polynomial.subScaled_rename]
    rfl
  rw [sPolynomial?, sPolynomial?, leading, leading]
  split
  · split
    · rfl
    · simp only [combine]
      split <;> rfl
  · rfl

theorem pairPolynomial?_rename (c : Completion) (pair : Nat × Nat) :
    (c.rename ρ).pairPolynomial? pair = (c.pairPolynomial? pair).map (Polynomial.rename ρ) := by
  have member (i : Nat) : (c.rename ρ).basis[i]? = c.basis[i]?.map (Polynomial.rename ρ) :=
    List.getElem?_map
  rw [pairPolynomial?, pairPolynomial?, member, member]
  cases c.basis[pair.1]? with
  | none => rfl
  | some p =>
    cases c.basis[pair.2]? with
    | none => rfl
    | some q => exact sPolynomial?_rename p q

/-- A completion with renamed reasons runs as the one without: what it does depends on the polynomials
only. -/
theorem run_rename (budget : Nat) (c : Completion) :
    run budget (c.rename ρ) = (run budget c).rename ρ := by
  have still (c : Completion) : ((c.rename ρ).refutation.isNone ∧ (c.rename ρ).steps < budget) =
      (c.refutation.isNone ∧ c.steps < budget) := by
    simp [rename]
  fun_induction run budget c with
  | case1 c running front =>
    rw [run, dif_pos (still c ▸ running)]
    split
    · rfl
    · rename_i front'
      cases front.symm.trans front'
  | case2 c running pair rest front none_found ih =>
    rw [run, dif_pos (still c ▸ running)]
    split
    · rename_i front'
      cases front.symm.trans front'
    · rename_i front'
      obtain ⟨rfl, rfl⟩ := List.cons.inj (front.symm.trans front')
      rw [pairPolynomial?_rename, none_found]
      exact ih
  | case3 c running pair rest front p found ih =>
    rw [run, dif_pos (still c ▸ running)]
    split
    · rename_i front'
      cases front.symm.trans front'
    · rename_i front'
      obtain ⟨rfl, rfl⟩ := List.cons.inj (front.symm.trans front')
      rw [pairPolynomial?_rename, found, ← ih, ← add_rename]
      rfl
  | case4 c done => rw [run, dif_neg (still c ▸ done)]

/-- A completion never looks at reasons, it only collects them. -/
theorem complete_rename (budget : Nat) (input : List Polynomial) :
    complete budget (input.map (Polynomial.rename ρ)) = (complete budget input).rename ρ := by
  rw [complete, complete, ← run_rename, ← addAll_rename]
  rfl

end Completion

end ArithDecide
