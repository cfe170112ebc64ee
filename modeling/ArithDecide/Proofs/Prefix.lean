import ArithDecide.Atom
import ArithDecide.Bound

/-!
# Stores cut back to a prefix

Leaving a scope undoes the entries of a trail and cuts the stores back to their former length. Both
commute, and what was appended or changed since is not seen afterwards.
-/

namespace ArithDecide

section Arrays

variable {α β : Type}

theorem getElem?_take (a : Array α) (n i : Nat) :
    (a.take n)[i]? = if i < n then a[i]? else none := by
  simp only [Array.take_eq_extract, Array.getElem?_extract, Nat.sub_zero, Nat.zero_add]
  grind

theorem take_size (a : Array α) : a.take a.size = a := by
  simp

theorem take_push {a : Array α} {n : Nat} (le : n ≤ a.size) (x : α) :
    (a.push x).take n = a.take n := by
  refine Array.ext_getElem? fun i => ?_
  rw [getElem?_take, getElem?_take, Array.getElem?_push]
  grind

theorem take_setIfInBounds (a : Array α) (n i : Nat) (x : α) :
    (a.setIfInBounds i x).take n = (a.take n).setIfInBounds i x := by
  refine Array.ext_getElem? fun j => ?_
  simp only [getElem?_take, Array.getElem?_setIfInBounds, Array.take_eq_extract,
    Array.size_extract]
  grind

theorem take_modify (a : Array α) (n i : Nat) (f : α → α) :
    (a.modify i f).take n = (a.take n).modify i f := by
  refine Array.ext_getElem? fun j => ?_
  simp only [getElem?_take, Array.getElem?_modify]
  grind

theorem setIfInBounds_of_getElem? {xs : Array α} {i : Nat} {a : α} (found : xs[i]? = some a) :
    xs.setIfInBounds i a = xs := by
  refine Array.ext_getElem? fun j => ?_
  rw [Array.getElem?_setIfInBounds]
  split
  · rename_i same
    rw [← same, found, if_pos (Array.getElem?_eq_some_iff.1 found).1]
  · rfl

theorem modify_eq_setIfInBounds {xs : Array α} {i : Nat} {a : α} (found : xs[i]? = some a)
    (change : α → α) : xs.modify i change = xs.setIfInBounds i (change a) := by
  refine Array.ext_getElem? fun j => ?_
  simp only [Array.getElem?_modify, Array.getElem?_setIfInBounds]
  grind

theorem modify_setIfInBounds (xs : Array α) (i : Nat) (a : α) (change : α → α) :
    (xs.setIfInBounds i a).modify i change = xs.setIfInBounds i (change a) := by
  refine Array.ext_getElem? fun j => ?_
  simp only [Array.getElem?_modify, Array.getElem?_setIfInBounds]
  grind

theorem setIfInBounds_getElem? {a : Array α} {i : Nat} {x y : α} (found : a[i]? = some x) :
    (a.setIfInBounds i y).setIfInBounds i x = a := by
  rw [Array.setIfInBounds_setIfInBounds, setIfInBounds_of_getElem? found]

theorem setIfInBounds_of_size_le {a : Array α} {i : Nat} {x : α} (large : a.size ≤ i) :
    a.setIfInBounds i x = a := by
  refine Array.ext_getElem? fun j => ?_
  simp only [Array.getElem?_setIfInBounds]
  grind

/-- Undoing the latest entries of a trail does not see an entry that undoes itself. -/
theorem foldl_take_cons {undo : β → α → β} {before after : β} {change : α} {trail : List α}
    {length : Nat} (undone : undo after change = before) (le : length ≤ trail.length) :
    ((change :: trail).take ((change :: trail).length - length)).foldl undo after =
      (trail.take (trail.length - length)).foldl undo before := by
  have longer : (change :: trail).length - length = (trail.length - length) + 1 := by
    rw [List.length_cons]
    omega
  rw [longer, List.take_succ_cons, List.foldl_cons, undone]

theorem drop_cons_length {change : α} {trail : List α} {length : Nat} (le : length ≤ trail.length) :
    (change :: trail).drop ((change :: trail).length - length) =
      trail.drop (trail.length - length) := by
  have longer : (change :: trail).length - length = (trail.length - length) + 1 := by
    rw [List.length_cons]
    omega
  rw [longer, List.drop_succ_cons]

/-- Going back in two stages is going back at once. -/
theorem foldl_take_drop {undo : β → α → β} {start : β} {trail : List α} {near far : Nat}
    (older : far ≤ near) (le : near ≤ trail.length) :
    ((trail.drop (trail.length - near)).take
        ((trail.drop (trail.length - near)).length - far)).foldl undo
      ((trail.take (trail.length - near)).foldl undo start) =
      (trail.take (trail.length - far)).foldl undo start := by
  have split : trail.length - far = (trail.length - near) + (near - far) := by omega
  have length : (trail.drop (trail.length - near)).length = near := by
    rw [List.length_drop]
    omega
  rw [length, split, List.take_add, List.foldl_append]

theorem drop_drop_length {trail : List α} {near far : Nat} (older : far ≤ near)
    (le : near ≤ trail.length) :
    (trail.drop (trail.length - near)).drop ((trail.drop (trail.length - near)).length - far) =
      trail.drop (trail.length - far) := by
  rw [List.length_drop, List.drop_drop]
  congr 1
  omega

theorem take_take_of_le {a : Array α} {near far : Nat} (older : far ≤ near) :
    (a.take near).take far = a.take far := by
  refine Array.ext_getElem? fun i => ?_
  simp only [getElem?_take]
  grind

end Arrays

/-! ## Bounds -/

namespace BoundSlots

theorem set_set_get (slots : BoundSlots) (v : Var) (kind : BoundKind) (id : Option BoundId) :
    (slots.set v kind id).set v kind (slots.get v kind) = slots := by
  have back (a : Array (Option BoundId)) :
      (a.setIfInBounds v id).setIfInBounds v ((a[v]?).getD none) = a := by
    cases found : a[v]? with
    | none =>
      have large := Array.getElem?_eq_none_iff.1 found
      rw [setIfInBounds_of_size_le large, setIfInBounds_of_size_le large]
    | some x => exact setIfInBounds_getElem? found
  cases kind with
  | lower => simp only [set, get, back]
  | upper => simp only [set, get, back]

theorem shrink_set (slots : BoundSlots) (n : Nat) (v : Var) (kind : BoundKind)
    (id : Option BoundId) : (slots.set v kind id).shrink n = (slots.shrink n).set v kind id := by
  cases kind with
  | lower => simp only [set, shrink, take_setIfInBounds]
  | upper => simp only [set, shrink, take_setIfInBounds]

theorem shrink_foldl_undo (changes : List BoundChange) (slots : BoundSlots) (n : Nat) :
    (changes.foldl undo slots).shrink n = changes.foldl undo (slots.shrink n) := by
  induction changes generalizing slots with
  | nil => rfl
  | cons change rest ih => rw [List.foldl_cons, List.foldl_cons, ih, undo, undo, shrink_set]

theorem shrink_grow {slots : BoundSlots} {n : Nat} (lower : n ≤ slots.lower.size)
    (upper : n ≤ slots.upper.size) : slots.grow.shrink n = slots.shrink n := by
  simp only [grow, shrink, take_push lower, take_push upper]

end BoundSlots

namespace BoundStore

variable {store next : BoundStore} {bound : Bound} {m : Mark}

/-- The mark was passed by. -/
def Passed (store : BoundStore) (m : Mark) : Prop :=
  m.trail ≤ store.trail.length ∧ m.records ≤ store.records.size

theorem retractTo_note (passed : store.Passed m) (v : Var) (kind : BoundKind) :
    (store.note v kind).retractTo m = store.retractTo m := by
  have unset : store.slots.undo ⟨v, kind, store.slots.get v kind⟩ = store.slots := by
    have same := store.slots.set_set_get v kind (store.slots.get v kind)
    cases kind <;> simpa [BoundSlots.undo, BoundSlots.set] using same
  simp only [retractTo, note, foldl_take_cons unset passed.1, drop_cons_length passed.1]

theorem retractTo_install (passed : store.Passed m) (bound : Bound) :
    ((store.note bound.var bound.kind).install bound).retractTo m = store.retractTo m := by
  have back : (store.slots.set bound.var bound.kind (some store.records.size)).undo
      ⟨bound.var, bound.kind, store.slots.get bound.var bound.kind⟩ = store.slots :=
    store.slots.set_set_get _ _ _
  simp only [retractTo, note, install, foldl_take_cons back passed.1, drop_cons_length passed.1,
    take_push passed.2]

theorem shrink_retractTo_addVar {n : Nat} (lower : n ≤ store.slots.lower.size)
    (upper : n ≤ store.slots.upper.size) :
    (store.addVar.retractTo m).shrink n = (store.retractTo m).shrink n := by
  simp only [retractTo, addVar, shrink, BoundSlots.shrink_foldl_undo,
    BoundSlots.shrink_grow lower upper]

theorem retractTo_mark (store : BoundStore) : store.retractTo store.mark = store := by
  simp [retractTo, mark]

theorem retractTo_retractTo {near far : Mark} (passed : store.Passed near)
    (trail : far.trail ≤ near.trail) (records : far.records ≤ near.records) :
    (store.retractTo near).retractTo far = store.retractTo far := by
  simp only [retractTo, foldl_take_drop trail passed.1, drop_drop_length trail passed.1,
    take_take_of_le records]

end BoundStore

/-! ## Atoms -/

namespace AtomRegistry

variable {registry : AtomRegistry} {m : Mark}

/-- The mark was passed by. -/
structure Passed (registry : AtomRegistry) (m : Mark) : Prop where
  atoms : m.atoms ≤ registry.atoms.size
  trail : m.trail ≤ registry.trail.length
  asserted : m.asserted ≤ registry.asserted.length

theorem take_foldl_undo (changes : List AtomChange) (atoms : Array Atom) (n : Nat) :
    (changes.foldl undo atoms).take n = changes.foldl undo (atoms.take n) := by
  induction changes generalizing atoms with
  | nil => rfl
  | cons change rest ih =>
    rw [List.foldl_cons, List.foldl_cons, ih]
    cases change <;> simp only [undo, take_modify]

theorem retractTo_add (passed : registry.Passed m) (v : Var) (kind : BoundKind)
    (threshold : Rat) : (registry.add v kind threshold).retractTo m = registry.retractTo m := by
  simp only [retractTo, add, take_foldl_undo, take_push passed.atoms]

theorem modify_modify_eq {atoms : Array Atom} {a : AtomId} {change back : Atom → Atom}
    (undone : ∀ atom, atoms[a]? = some atom → back (change atom) = atom) :
    (atoms.modify a change).modify a back = atoms := by
  refine Array.ext_getElem? fun i => ?_
  simp only [Array.getElem?_modify]
  by_cases same : a = i
  · subst same
    cases found : atoms[a]? with
    | none => simp
    | some atom => simp [undone atom found]
  · simp [same]

/-- Retracting takes back a literal that was queued since the mark. -/
theorem retractTo_assign {l : Literal} {next : AtomRegistry} (passed : registry.Passed m)
    (queued : registry.assign l = .queued next) : next.retractTo m = registry.retractTo m := by
  rw [assign] at queued
  split at queued
  · split at queued <;> cases queued
  · rename_i unassigned
    obtain rfl := Assignment.queued.inj queued
    have back : undo (registry.atoms.modify l.atom fun atom =>
        { atom with assignment := some !l.negative }) (.assigned l.atom) = registry.atoms := by
      refine modify_modify_eq fun atom found => ?_
      have free : atom.assignment = none := by
        rw [get?, found, Option.bind_some] at unassigned
        exact unassigned
      cases atom
      simp_all
    simp only [retractTo, foldl_take_cons back passed.trail, drop_cons_length passed.trail,
      List.take_append_of_le_length passed.asserted]

/-- Retracting takes back a mark that an atom got since. -/
theorem retractTo_markPropagated (passed : registry.Passed m) (a : AtomId) :
    (registry.markPropagated a).retractTo m = registry.retractTo m := by
  rw [markPropagated]
  split
  · rfl
  · rename_i unmarked
    have back : undo (registry.atoms.modify a fun atom => { atom with propagated := true })
        (.propagated a) = registry.atoms := by
      refine modify_modify_eq fun atom found => ?_
      have free : atom.propagated = false := by
        rw [get?, found, Option.any_some] at unmarked
        simpa using unmarked
      cases atom
      simp_all
    simp only [retractTo, foldl_take_cons back passed.trail, drop_cons_length passed.trail]

theorem retractTo_next? {l : Literal} {next : AtomRegistry}
    (taken : registry.next? = some (l, next)) : next.retractTo m = registry.retractTo m := by
  rw [next?] at taken
  split at taken
  · cases taken
  · cases taken
    rfl

theorem retractTo_mark (registry : AtomRegistry) : registry.retractTo registry.mark = registry := by
  simp [retractTo, mark]

end AtomRegistry

end ArithDecide
