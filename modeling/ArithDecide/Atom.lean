import ArithDecide.Bound

/-!
# The atom registry

An atom is a fact that the Boolean search can see: `v >= k` or `v <= k`. The registry interns atoms,
so asking twice for one fact gives one atom, and keeps the asserted literals in their order of
arrival; those whose bound has not been installed yet are the suffix that `next?` takes from. A trail
of what happened to the atoms lets `AtomRegistry.retractTo` take it back.
-/

namespace ArithDecide

/-- The fact `var >= threshold` or `var <= threshold`. -/
structure Atom where
  var : Var
  kind : BoundKind
  threshold : Rat
  /-- The sign with which the atom was asserted. -/
  assignment : Option Bool
  /-- Whether a literal of the atom was handed out as a consequence of the bounds. -/
  propagated : Bool
  deriving DecidableEq, Inhabited

/-- The bound that the atom stands for, or its negation: the negation of `v >= k` is `v <= k - ε`
and that of `v <= k` is `v >= k + ε`. -/
def Atom.bound (atom : Atom) (negative : Bool) : BoundKind × InfRat :=
  if negative then
    (atom.kind.opposite, ⟨atom.threshold, if atom.kind = .lower then -1 else 1⟩)
  else (atom.kind, .ofRat atom.threshold)

/-- What happened to an atom. -/
inductive AtomChange where
  /-- A literal of it was asserted. -/
  | assigned (a : AtomId)
  /-- A literal of it was handed out. -/
  | propagated (a : AtomId)
  deriving DecidableEq, Inhabited

/-- All atoms, and the literals asserted so far. -/
structure AtomRegistry where
  atoms : Array Atom
  /-- The asserted literals, oldest first. -/
  asserted : List Literal
  /-- How many of the asserted literals had their bound installed. -/
  processed : Nat
  /-- What happened to the atoms, latest first. -/
  trail : List AtomChange
  deriving DecidableEq, Inhabited

/-- What became of a literal handed to the registry. -/
inductive Assignment where
  /-- It is new and waits for its bound to be installed. -/
  | queued (registry : AtomRegistry)
  /-- It was asserted before. -/
  | redundant
  /-- Its negation was asserted before. -/
  | conflicting

namespace AtomRegistry

/-- The registry without atoms. -/
def empty : AtomRegistry := ⟨#[], [], 0, []⟩

def get? (registry : AtomRegistry) (a : AtomId) : Option Atom := registry.atoms[a]?

/-- The atom that states a fact, if there is one. -/
def find? (registry : AtomRegistry) (v : Var) (kind : BoundKind) (threshold : Rat) :
    Option AtomId :=
  registry.atoms.findIdx? fun atom =>
    atom.var == v && atom.kind == kind && atom.threshold == threshold

/-- Adds an atom that states a fact which no atom states so far. -/
def add (registry : AtomRegistry) (v : Var) (kind : BoundKind) (threshold : Rat) : AtomRegistry :=
  { registry with atoms := registry.atoms.push ⟨v, kind, threshold, none, false⟩ }

/-- Whether the first atom comes before the second in the order of the atoms of one variable: by
threshold, and the lower bound first. -/
def comesBefore (registry : AtomRegistry) (a b : AtomId) : Bool :=
  match registry.get? a, registry.get? b with
  | some first, some second =>
    first.threshold < second.threshold ||
      (first.threshold = second.threshold && first.kind = .lower && second.kind = .upper)
  | _, _ => false

/-- The atoms of a variable, by threshold, and the lower bound first. -/
def atomsOn (registry : AtomRegistry) (v : Var) : List AtomId :=
  ((List.range registry.atoms.size).filter fun a =>
    (registry.get? a).any fun atom => atom.var == v).mergeSort fun a b =>
      !registry.comesBefore b a

/-- Records that a literal holds. -/
def assign (registry : AtomRegistry) (l : Literal) : Assignment :=
  match (registry.get? l.atom).bind Atom.assignment with
  | some sign => if sign = !l.negative then .redundant else .conflicting
  | none => .queued
    { registry with
      atoms := registry.atoms.modify l.atom fun atom => { atom with assignment := some !l.negative }
      asserted := registry.asserted ++ [l]
      trail := .assigned l.atom :: registry.trail }

/-- Records that a literal of the atom was handed out, unless that was recorded before. -/
def markPropagated (registry : AtomRegistry) (a : AtomId) : AtomRegistry :=
  if (registry.get? a).any Atom.propagated then registry
  else
    { registry with
      atoms := registry.atoms.modify a fun atom => { atom with propagated := true }
      trail := .propagated a :: registry.trail }

/-- The asserted literals whose bound has not been installed yet, oldest first. -/
def queued (registry : AtomRegistry) : List Literal := registry.asserted.drop registry.processed

/-- Takes the oldest literal whose bound has not been installed yet. -/
def next? (registry : AtomRegistry) : Option (Literal × AtomRegistry) :=
  match registry.queued with
  | [] => none
  | l :: _ => some (l, { registry with processed := registry.processed + 1 })

/-! ## Going back -/

/-- A point to return to. -/
structure Mark where
  atoms : Nat
  trail : Nat
  asserted : Nat
  processed : Nat
  deriving DecidableEq, Inhabited

def mark (registry : AtomRegistry) : Mark where
  atoms := registry.atoms.size
  trail := registry.trail.length
  asserted := registry.asserted.length
  processed := registry.processed

/-- The atoms before something happened to one of them. -/
def undo (atoms : Array Atom) : AtomChange → Array Atom
  | .assigned a => atoms.modify a fun atom => { atom with assignment := none }
  | .propagated a => atoms.modify a fun atom => { atom with propagated := false }

/-- Takes back everything since the mark, the latest change first. -/
def retractTo (registry : AtomRegistry) (m : Mark) : AtomRegistry where
  atoms := ((registry.trail.take (registry.trail.length - m.trail)).foldl undo
    registry.atoms).take m.atoms
  asserted := registry.asserted.take m.asserted
  processed := m.processed
  trail := registry.trail.drop (registry.trail.length - m.trail)

end AtomRegistry

end ArithDecide
