import ArithDecide.Dependency
import ArithDecide.Number.InfRat

/-!
# Bounds and the bound store

The store keeps for every variable the tightest lower and upper bound in force, each with the reason
that justifies it. `BoundStore.assert` is the only way to install one: a bound that crosses the
opposite one is refused, a bound that is not strictly tighter changes nothing, and any other becomes
active. Installed bounds are records that never change; a variable points to its active records, and
a trail keeps what it pointed to before, so that `BoundStore.retractTo` can go back.
-/

namespace ArithDecide

/-- Which side of a variable is bounded. -/
inductive BoundKind where
  | lower
  | upper
  deriving DecidableEq, Inhabited

namespace BoundKind

def opposite : BoundKind → BoundKind
  | lower => upper
  | upper => lower

/-- The relation between the variable and its bound: `>=` for a lower and `<=` for an upper one. -/
def text : BoundKind → String
  | lower => ">="
  | upper => "<="

/-- Whether a bound of this kind with the value `a` says more than one with the value `b`. -/
def tighter : BoundKind → InfRat → InfRat → Bool
  | lower, a, b => b < a
  | upper, a, b => a < b

/-- Whether a variable with the value `a` respects a bound `b` of this kind. -/
def admits : BoundKind → InfRat → InfRat → Bool
  | lower, b, a => b ≤ a
  | upper, b, a => a ≤ b

end BoundKind

/-- Why a bound is installed. -/
inductive BoundOrigin where
  /-- It holds unconditionally. -/
  | given
  /-- A literal was asserted. -/
  | literal (l : Literal)
  /-- It follows from other bounds. -/
  | derived
  /-- It is the bound of a cutting plane. -/
  | cut
  deriving DecidableEq, Inhabited

namespace BoundOrigin

/-- The origin as the trace shows it; a literal is shown with its packed form. -/
def text : BoundOrigin → String
  | given => "Axiom"
  | derived => "Derived"
  | cut => "Cut"
  | literal l =>
    "Atom(Literal \x7b .0: " ++ toString l.rank ++ ", is_negative: " ++
      (if l.negative then "true" else "false") ++ ", code: " ++ toString l.atom ++ " \x7d)"

end BoundOrigin

/-- A bound of a variable and what it rests on. -/
structure Bound where
  var : Var
  kind : BoundKind
  value : InfRat
  reason : Dependency
  origin : BoundOrigin
  deriving DecidableEq, Inhabited

/-- An installed bound, numbered from zero in order of installation. -/
abbrev BoundId := Nat

/-- What a variable pointed to on one side before a bound was offered. -/
structure BoundChange where
  var : Var
  kind : BoundKind
  previous : Option BoundId
  deriving DecidableEq, Inhabited

/-- The active bound of every variable on either side. -/
structure BoundSlots where
  lower : Array (Option BoundId)
  upper : Array (Option BoundId)
  deriving DecidableEq, Inhabited

namespace BoundSlots

/-- The bound that a variable points to on one side. -/
def get (slots : BoundSlots) (v : Var) : BoundKind → Option BoundId
  | .lower => (slots.lower[v]?).getD none
  | .upper => (slots.upper[v]?).getD none

/-- Makes a variable point to a bound on one side. -/
def set (slots : BoundSlots) (v : Var) (kind : BoundKind) (id : Option BoundId) : BoundSlots :=
  match kind with
  | .lower => { slots with lower := slots.lower.setIfInBounds v id }
  | .upper => { slots with upper := slots.upper.setIfInBounds v id }

/-- Adds a variable without bounds. -/
def grow (slots : BoundSlots) : BoundSlots := ⟨slots.lower.push none, slots.upper.push none⟩

/-- Forgets all variables from `count` on. -/
def shrink (slots : BoundSlots) (count : Nat) : BoundSlots :=
  ⟨slots.lower.take count, slots.upper.take count⟩

/-- Lets a variable point again to what it pointed to before a change. -/
def undo (slots : BoundSlots) (change : BoundChange) : BoundSlots :=
  slots.set change.var change.kind change.previous

end BoundSlots

/-- The active bounds of all variables. -/
structure BoundStore where
  /-- The installed bounds, by number. -/
  records : Array Bound
  slots : BoundSlots
  /-- One entry for each bound that was not refused, latest first. -/
  trail : List BoundChange
  deriving DecidableEq, Inhabited

/-- What became of a bound handed to the store. -/
inductive BoundUpdate where
  /-- It is strictly tighter than the active one and active now. -/
  | tightened (store : BoundStore)
  /-- The active bound says at least as much. -/
  | unchanged (store : BoundStore)
  /-- It crosses the active bound on the other side, which rests on this. -/
  | conflict (opposite : Dependency)

namespace BoundStore

/-- The store without variables. -/
def empty : BoundStore := ⟨#[], ⟨#[], #[]⟩, []⟩

/-- Adds a variable without bounds. -/
def addVar (store : BoundStore) : BoundStore := { store with slots := store.slots.grow }

/-- Forgets all variables from `count` on. -/
def shrink (store : BoundStore) (count : Nat) : BoundStore :=
  { store with slots := store.slots.shrink count }

/-! ## Questions -/

/-- The active bound of a variable on one side. -/
def get (store : BoundStore) (v : Var) (kind : BoundKind) : Option Bound :=
  (store.slots.get v kind).bind fun id => store.records[id]?

def value (store : BoundStore) (v : Var) (kind : BoundKind) : Option InfRat :=
  (store.get v kind).map Bound.value

def lowerValue (store : BoundStore) (v : Var) : Option InfRat := store.value v .lower

def upperValue (store : BoundStore) (v : Var) : Option InfRat := store.value v .upper

/-- What the active bound rests on; nothing when there is no bound. -/
def reason (store : BoundStore) (v : Var) (kind : BoundKind) : Dependency :=
  (store.get v kind).bind Bound.reason

/-- Whether a bound says more than the active one. -/
def isTighter (store : BoundStore) (v : Var) (kind : BoundKind) (value : InfRat) : Bool :=
  match store.get v kind with
  | none => true
  | some current => kind.tighter value current.value

/-- Whether both bounds exist and agree. -/
def isFixed (store : BoundStore) (v : Var) : Bool :=
  match store.lowerValue v, store.upperValue v with
  | some lower, some upper => lower = upper
  | _, _ => false

/-- Whether a value lies outside the active bound on one side. -/
def violates (store : BoundStore) (v : Var) (kind : BoundKind) (value : InfRat) : Bool :=
  match store.value v kind with
  | none => false
  | some bound => kind.tighter bound value

/-- Whether a value lies within the active bounds. -/
def admits (store : BoundStore) (v : Var) (value : InfRat) : Bool :=
  !store.violates v .lower value && !store.violates v .upper value

/-- Whether a value sits on the active bound of one side. -/
def isAt (store : BoundStore) (v : Var) (kind : BoundKind) (value : InfRat) : Bool :=
  store.value v kind = some value

/-! ## Installing -/

/-- Notes on the trail what a variable points to on one side. -/
def note (store : BoundStore) (v : Var) (kind : BoundKind) : BoundStore :=
  { store with trail := ⟨v, kind, store.slots.get v kind⟩ :: store.trail }

/-- Makes a bound the active one of its variable. -/
def install (store : BoundStore) (bound : Bound) : BoundStore :=
  { store with
    records := store.records.push bound
    slots := store.slots.set bound.var bound.kind (some store.records.size) }

/-- Offers a bound to the store. -/
def assert (store : BoundStore) (bound : Bound) : BoundUpdate :=
  match (store.get bound.var bound.kind.opposite).filter fun opposite =>
      bound.kind.tighter bound.value opposite.value with
  | some opposite => .conflict opposite.reason
  | none =>
    let noted := store.note bound.var bound.kind
    if store.isTighter bound.var bound.kind bound.value then .tightened (noted.install bound)
    else .unchanged noted

/-! ## Going back -/

/-- A point to return to. -/
structure Mark where
  trail : Nat
  records : Nat
  deriving DecidableEq, Inhabited

def mark (store : BoundStore) : Mark := ⟨store.trail.length, store.records.size⟩

/-- Takes back everything since the mark, the latest change first. -/
def retractTo (store : BoundStore) (m : Mark) : BoundStore :=
  { records := store.records.take m.records
    slots := (store.trail.take (store.trail.length - m.trail)).foldl BoundSlots.undo store.slots
    trail := store.trail.drop (store.trail.length - m.trail) }

end BoundStore

end ArithDecide
