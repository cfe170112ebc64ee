import ArithDecide.Explanation

/-!
# The arena of dependencies

Why a bound holds is recorded by a node of an arena. A node names an asserted literal, an equality
between two variables, or joins two older nodes; what rests on nothing needs no node. Joining costs
one node however much the joined nodes rest on, and `DependencyArena.linearize` collects the leaves
of a node as an explanation. Leaving a scope cuts the arena back to its length at the entry.
-/

namespace ArithDecide

/-- A node of the arena, numbered from zero in order of creation. -/
abbrev NodeId := Nat

/-- What a conclusion rests on: nothing, or what a node of the arena rests on. -/
abbrev Dependency := Option NodeId

/-- A node of the arena. -/
inductive DependencyNode where
  | literal (l : Literal)
  | equality (p : VarPair)
  /-- Everything that either node rests on. -/
  | join (left right : NodeId)
  deriving DecidableEq, Inhabited

/-- All nodes, by number. -/
structure DependencyArena where
  nodes : Array DependencyNode
  deriving DecidableEq, Inhabited

namespace DependencyArena

/-- The arena without nodes. -/
def empty : DependencyArena := ⟨#[]⟩

/-- Adds a node. -/
def add (arena : DependencyArena) (node : DependencyNode) : DependencyArena × Dependency :=
  (⟨arena.nodes.push node⟩, some arena.nodes.size)

/-- A dependency on one literal. -/
def mkLiteral (arena : DependencyArena) (l : Literal) : DependencyArena × Dependency :=
  arena.add (.literal l)

/-- A dependency on one equality between variables. -/
def mkEquality (arena : DependencyArena) (v w : Var) : DependencyArena × Dependency :=
  arena.add (.equality (VarPair.ordered v w))

/-- A dependency on everything that either side rests on. Nothing is added when one side rests on
nothing or both are the same. -/
def join (arena : DependencyArena) : Dependency → Dependency → DependencyArena × Dependency
  | none, right => (arena, right)
  | some left, none => (arena, some left)
  | some left, some right =>
    if left = right then (arena, some left) else arena.add (.join left right)

/-- A dependency on everything that one of the given ones rests on, joined from left to right onto
the first argument. -/
def joinOnto (acc : Dependency) : List Dependency → DependencyArena → DependencyArena × Dependency
  | [], arena => (arena, acc)
  | d :: rest, arena =>
    let (joined, next) := arena.join acc d
    joinOnto next rest joined

/-- A dependency on everything that one of the given ones rests on. -/
def joinAll (arena : DependencyArena) (ds : List Dependency) : DependencyArena × Dependency :=
  joinOnto none ds arena

/-- Forgets all nodes from `length` on. -/
def truncate (arena : DependencyArena) (length : Nat) : DependencyArena :=
  ⟨arena.nodes.take length⟩

/-! ## Leaves -/

/-- How much work is left to a walk: the nodes that were not visited, each of which puts at most two
more on the stack, and the stack itself. -/
def workLeft (visited : Array Bool) (stack : List NodeId) : Nat :=
  2 * visited.toList.count false + stack.length

theorem count_false_set {visited : List Bool} {id : Nat} (unvisited : visited[id]? = some false) :
    (visited.set id true).count false + 1 = visited.count false := by
  induction visited generalizing id with
  | nil => simp at unvisited
  | cons head rest ih =>
    cases id with
    | zero =>
      simp only [List.getElem?_cons_zero, Option.some.injEq] at unvisited
      simp [unvisited]
    | succ id =>
      have := ih (by simpa using unvisited)
      simp only [List.set_cons_succ, List.count_cons]
      omega

theorem workLeft_mark {visited : Array Bool} {id : NodeId} (unvisited : visited[id]? = some false)
    (stack : List NodeId) :
    workLeft (visited.setIfInBounds id true) stack + 2 = workLeft visited stack := by
  have at? : visited.toList[id]? = some false := by simpa using unvisited
  have fewer := count_false_set at?
  simp only [workLeft, Array.toList_setIfInBounds]
  omega

/-- The leaves below the nodes on the stack, each node being visited once. -/
def walk (arena : DependencyArena) (visited : Array Bool) (found : Explanation) :
    List NodeId → Explanation
  | [] => found
  | id :: stack =>
    if _unvisited : visited[id]? = some false then
      let marked := visited.setIfInBounds id true
      match arena.nodes[id]? with
      | some (.literal l) => walk arena marked { found with literals := l :: found.literals } stack
      | some (.equality p) =>
        walk arena marked { found with equalities := p :: found.equalities } stack
      | some (.join left right) => walk arena marked found (left :: right :: stack)
      | none => walk arena marked found stack
    else walk arena visited found stack
termination_by stack => workLeft visited stack
decreasing_by
  all_goals simp only [workLeft, List.length_cons]
  · have := workLeft_mark _unvisited stack
    simp only [workLeft] at this
    omega
  · have := workLeft_mark _unvisited stack
    simp only [workLeft] at this
    omega
  · have := workLeft_mark _unvisited stack
    simp only [workLeft] at this
    omega
  · have := workLeft_mark _unvisited stack
    simp only [workLeft] at this
    omega
  · omega

/-- The literals and equalities that a dependency rests on, sorted and without repetitions. -/
def linearize (arena : DependencyArena) : Dependency → Explanation
  | none => .empty
  | some id =>
    let leaves := arena.walk (.replicate arena.nodes.size false) .empty [id]
    ⟨SortedSet.ofList leaves.literals, SortedSet.ofList leaves.equalities⟩

end DependencyArena

end ArithDecide
