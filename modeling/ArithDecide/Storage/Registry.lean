import ArithDecide.Atom
import ArithDecide.Storage.Calls

/-!
# How atoms are found

The registry keeps two indices beside its atoms: one leads from a fact to the atom that states it, the
other has the atoms of every variable, by threshold and the lower bound first. A new atom is entered into
both. `IndexedRegistry.retractTo` takes the atoms that were added since the mark out of both again, latest
first; the variable of such an atom may have lost its list by then.

A session is what is asked of the registry. It keeps, beside the registry, the literals that were newly
asserted and those that `next?` handed out, as far as they were not taken back.
-/

namespace ArithDecide

/-- What an atom states. -/
structure AtomFact where
  var : Var
  kind : BoundKind
  threshold : Rat
  deriving DecidableEq, Inhabited

def Atom.fact (atom : Atom) : AtomFact := ⟨atom.var, atom.kind, atom.threshold⟩

/-- Whether a fact comes first in the order of the facts about one variable. -/
def AtomFact.before (first second : AtomFact) : Bool :=
  first.threshold < second.threshold ||
    (first.threshold = second.threshold && first.kind = .lower && second.kind = .upper)

/-- The fact that an atom of the registry states. -/
def AtomRegistry.factOf? (registry : AtomRegistry) (a : AtomId) : Option AtomFact :=
  (registry.get? a).map Atom.fact

/-- Enters an atom behind those whose facts come before its own. -/
def AtomRegistry.enter (registry : AtomRegistry) (fact : AtomFact) (a : AtomId)
    (list : List AtomId) : List AtomId :=
  let earlier := fun other => (registry.factOf? other).any fun known => known.before fact
  list.takeWhile earlier ++ a :: list.dropWhile earlier

/-- The atoms with their indices. -/
structure IndexedRegistry extends AtomRegistry where
  /-- The atom that states a fact. -/
  interned : List (AtomFact × AtomId)
  /-- The atoms of each variable that has a list. -/
  byVar : Array (List AtomId)
  deriving DecidableEq

namespace IndexedRegistry

def empty : IndexedRegistry := ⟨.empty, [], #[]⟩

/-- The number of variables that have a list. -/
def numVars (registry : IndexedRegistry) : Nat := registry.byVar.size

/-- The atoms of a variable, if it has a list. -/
def listOf? (registry : IndexedRegistry) (v : Var) : Option (List AtomId) := registry.byVar[v]?

/-- Gives empty lists to the variable and to those before it that have none. -/
def grow (registry : IndexedRegistry) (v : Var) : IndexedRegistry :=
  { registry with
    byVar := registry.byVar ++ Array.replicate (v + 1 - registry.numVars) [] }

/-- Drops the lists of all variables from `count` on. -/
def shrink (registry : IndexedRegistry) (count : Nat) : IndexedRegistry :=
  { registry with byVar := registry.byVar.take count }

/-- The atom that states a fact, if there is one. -/
def lookup? (registry : IndexedRegistry) (fact : AtomFact) : Option AtomId :=
  registry.interned.lookup fact

/-- The atom that states a fact, and whether it is new. -/
def intern (registry : IndexedRegistry) (fact : AtomFact) : IndexedRegistry × AtomId × Bool :=
  match registry.lookup? fact with
  | some a => (registry, a, false)
  | none =>
    let a := registry.atoms.size
    let grown := registry.toAtomRegistry.add fact.var fact.kind fact.threshold
    ({ toAtomRegistry := grown
       interned := (fact, a) :: registry.interned
       byVar := registry.byVar.modify fact.var (grown.enter fact a) }, a, true)

/-- The registry after a change that concerns neither the atoms' facts nor the indices. -/
def withPlain (registry : IndexedRegistry) (plain : AtomRegistry) : IndexedRegistry :=
  { registry with toAtomRegistry := plain }

/-! ## Going back -/

/-- Takes out the latest atom; of its variable only atoms below the limit stay listed. -/
def dropLatest (limit : Nat) (registry : IndexedRegistry) : IndexedRegistry :=
  match registry.atoms.back? with
  | none => registry
  | some atom =>
    { registry with
      atoms := registry.atoms.pop
      interned := registry.interned.filter fun entry => entry.1 ≠ atom.fact
      byVar := registry.byVar.modify atom.var fun list => list.filter (· < limit) }

/-- Takes out the given number of atoms, the latest one first. -/
def forget (limit : Nat) : Nat → IndexedRegistry → IndexedRegistry
  | 0, registry => registry
  | count + 1, registry => forget limit count (registry.dropLatest limit)

/-- Takes back what happened to atoms since the mark; atoms that were added since are still there. -/
def rewind (registry : IndexedRegistry) (m : AtomRegistry.Mark) : IndexedRegistry :=
  { registry with
    atoms := (registry.trail.take (registry.trail.length - m.trail)).foldl AtomRegistry.undo
      registry.atoms
    asserted := registry.asserted.take m.asserted
    processed := m.processed
    trail := registry.trail.drop (registry.trail.length - m.trail) }

/-- Takes back everything since the mark. -/
def retractTo (registry : IndexedRegistry) (m : AtomRegistry.Mark) : IndexedRegistry :=
  (registry.rewind m).forget m.atoms (registry.atoms.size - m.atoms)

end IndexedRegistry

/-! ## Sessions -/

/-- What is asked of a registry. -/
inductive AtomCall where
  | grow (v : Var)
  | shrink (count : Nat)
  | intern (fact : AtomFact)
  | assign (l : Literal)
  | markPropagated (a : AtomId)
  | next
  /-- Sets a mark, which is the latest one from now on. -/
  | mark
  /-- Retracts to a mark, which stays; the `index` marks that were set after it are forgotten. -/
  | retract (index : Nat)
  deriving DecidableEq

/-- A mark and the moment at which it was set. -/
structure AtomMoment where
  mark : AtomRegistry.Mark
  registry : IndexedRegistry
  /-- How many literals were accepted before. -/
  accepted : Nat
  /-- How many literals were taken before. -/
  taken : Nat

/-- A registry with the marks that can be retracted to. -/
structure AtomSession where
  registry : IndexedRegistry
  /-- The literals that were newly asserted and not taken back since, in order. -/
  accepted : List Literal
  /-- The literals that were handed out, as far as that was not taken back, in order. -/
  taken : List Literal
  /-- The marks, latest first. -/
  moments : List AtomMoment

namespace AtomSession

def start : AtomSession := ⟨.empty, [], [], []⟩

/-- Atoms are asserted and marked while they are there, a new atom is about a variable with a list, and
marks are retracted to while they are known. No variable gets a list while atoms are about it, as the
list is empty; a variable may lose its list while they are. -/
def allows (s : AtomSession) : AtomCall → Bool
  | .grow v => s.registry.atoms.all fun atom => atom.var < s.registry.numVars || v < atom.var
  | .shrink _ | .next | .mark => true
  | .intern fact => fact.var < s.registry.numVars || (s.registry.lookup? fact).isSome
  | .assign l => (s.registry.get? l.atom).isSome
  | .markPropagated a => (s.registry.get? a).isSome
  | .retract index => index < s.moments.length

def step (s : AtomSession) : AtomCall → AtomSession
  | .grow v => { s with registry := s.registry.grow v }
  | .shrink count => { s with registry := s.registry.shrink count }
  | .intern fact => { s with registry := (s.registry.intern fact).1 }
  | .assign l =>
    match s.registry.toAtomRegistry.assign l with
    | .queued plain =>
      { s with registry := s.registry.withPlain plain, accepted := s.accepted ++ [l] }
    | .redundant | .conflicting => s
  | .markPropagated a =>
    { s with registry := s.registry.withPlain (s.registry.toAtomRegistry.markPropagated a) }
  | .next =>
    match s.registry.toAtomRegistry.next? with
    | none => s
    | some (l, plain) => { s with registry := s.registry.withPlain plain, taken := s.taken ++ [l] }
  | .mark =>
    { s with
      moments := ⟨s.registry.mark, s.registry, s.accepted.length, s.taken.length⟩ :: s.moments }
  | .retract index =>
    match s.moments.drop index with
    | [] => s
    | moment :: outer =>
      { registry := s.registry.retractTo moment.mark
        accepted := s.accepted.take moment.accepted
        taken := s.taken.take moment.taken
        moments := moment :: outer }

def run (s : AtomSession) (calls : List AtomCall) : AtomSession := calls.foldl step s

/-- Every call is made when it is allowed. -/
def allowsAll (s : AtomSession) (calls : List AtomCall) : Bool := allowsEach allows step s calls

end AtomSession

end ArithDecide
