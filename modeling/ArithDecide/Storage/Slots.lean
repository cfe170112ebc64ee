/-!
# Slots

Entries that keep their positions. A removed entry leaves a tombstone, whose position the next entry
takes; `Slots.compact` moves the entries together and tells where each of them went.
-/

namespace ArithDecide

/-- Entries at fixed positions, with tombstones between them. -/
structure Slots (α : Type) where
  entries : Array (Option α)
  /-- The positions of the tombstones, the latest one first. -/
  free : List Nat
  /-- The number of entries. -/
  size : Nat
  deriving DecidableEq, Inhabited

namespace Slots

variable {α : Type}

def empty : Slots α := ⟨#[], [], 0⟩

def get? (s : Slots α) (i : Nat) : Option α := (s.entries[i]?).join

/-- The number of tombstones. -/
def numDead (s : Slots α) : Nat := s.entries.size - s.size

/-- The entries with their positions, in order. -/
def live (s : Slots α) : List (Nat × α) :=
  s.entries.toList.zipIdx.filterMap fun slot => slot.1.map fun a => (slot.2, a)

/-- Stores an entry, in the place of a tombstone if there is one; the answer is its position. -/
def insert (s : Slots α) (a : α) : Nat × Slots α :=
  match s.free with
  | i :: free => (i, ⟨s.entries.setIfInBounds i (some a), free, s.size + 1⟩)
  | [] => (s.entries.size, ⟨s.entries.push (some a), [], s.size + 1⟩)

/-- Removes the entry at a position, if there is one. -/
def kill (s : Slots α) (i : Nat) : Slots α :=
  if (s.get? i).isSome then ⟨s.entries.setIfInBounds i none, i :: s.free, s.size - 1⟩ else s

/-- Changes the entry at a position. -/
def modify (s : Slots α) (i : Nat) (change : α → α) : Slots α :=
  { s with entries := s.entries.modify i (Option.map change) }

/-- Changes all entries. -/
def map (s : Slots α) (change : α → α) : Slots α :=
  { s with entries := s.entries.map (Option.map change) }

/-- Squashes out the tombstones; the first answer are the old and new positions of the entries. -/
def compact (s : Slots α) : List (Nat × Nat) × Slots α :=
  (s.live.zipIdx.map fun entry => (entry.1.1, entry.2),
    ⟨(s.live.map fun entry => some entry.2).toArray, [], s.size⟩)

end Slots

end ArithDecide
