import ArithDecide.Proofs.LinearForm
import ArithDecide.Proofs.Prefix

/-!
# What the bound store guarantees

The active lower bound of a variable never exceeds its active upper bound, and no bound that was ever
installed is tighter than the active one of its variable and side. `BoundStore.assert` keeps both: it
either refuses a bound that crosses the opposite one, or leaves the active bounds alone because they
say enough, or makes the bound active.
-/

namespace ArithDecide

/-! ## Comparing bounds -/

namespace BoundKind

variable {kind : BoundKind} {a b x : InfRat}

theorem admits_lower : lower.admits a x = true ↔ a ≤ x := by
  simp [admits]

theorem admits_upper : upper.admits a x = true ↔ x ≤ a := by
  simp [admits]

/-- A bound is tighter than a value exactly when it does not admit it. -/
theorem tighter_eq_not_admits (kind : BoundKind) (a b : InfRat) :
    kind.tighter a b = !kind.admits a b := by
  cases kind with
  | lower => simp [tighter, admits, ← not_le]
  | upper => simp [tighter, admits, ← not_le]

theorem tighter_eq_false_iff : kind.tighter a b = false ↔ kind.admits a b = true := by
  rw [tighter_eq_not_admits, Bool.not_eq_false']

theorem tighter_iff : kind.tighter a b = true ↔ ¬kind.admits a b = true := by
  rw [tighter_eq_not_admits, Bool.not_eq_true', Bool.not_eq_true]

theorem admits_refl (kind : BoundKind) (a : InfRat) : kind.admits a a = true := by
  cases kind <;> simp [admits]

theorem admits_trans (first : kind.admits a b = true) (second : kind.admits b x = true) :
    kind.admits a x = true := by
  cases kind with
  | lower => exact admits_lower.2 ((admits_lower.1 first).trans (admits_lower.1 second))
  | upper => exact admits_upper.2 ((admits_upper.1 second).trans (admits_upper.1 first))

theorem admits_total (kind : BoundKind) (a b : InfRat) :
    kind.admits a b = true ∨ kind.admits b a = true := by
  cases kind with
  | lower => simpa only [admits_lower] using le_total a b
  | upper => simpa only [admits_upper] using le_total b a

theorem admits_of_tighter (tighter : kind.tighter a b = true) : kind.admits b a = true :=
  (admits_total kind b a).resolve_right (tighter_iff.1 tighter)

theorem opposite_admits : kind.opposite.admits a x = true ↔ kind.admits x a = true := by
  cases kind <;> simp [opposite, admits]

@[simp] theorem opposite_opposite (kind : BoundKind) : kind.opposite.opposite = kind := by
  cases kind <;> rfl

/-- Nothing lies within two bounds that cross. -/
theorem not_admits_of_crossing (crossing : kind.tighter a b = true) (first : kind.admits a x = true)
    (second : kind.opposite.admits b x = true) : False :=
  tighter_iff.1 crossing (admits_trans first (opposite_admits.1 second))

/-! ### Arithmetic -/

theorem admits_add {c d : InfRat} (first : kind.admits a b = true)
    (second : kind.admits c d = true) : kind.admits (a + c) (b + d) = true := by
  cases kind with
  | lower => exact admits_lower.2 (add_le_add (admits_lower.1 first) (admits_lower.1 second))
  | upper => exact admits_upper.2 (add_le_add (admits_upper.1 first) (admits_upper.1 second))

theorem admits_neg (admits : kind.admits a b = true) : kind.opposite.admits (-a) (-b) = true := by
  cases kind with
  | lower => exact admits_upper.2 (neg_le_neg (admits_lower.1 admits))
  | upper => exact admits_lower.2 (neg_le_neg (admits_upper.1 admits))

/-- The side on which a variable is limited when its multiple by a factor is limited on the given
one. -/
def turned (kind : BoundKind) (factor : Rat) : BoundKind := if 0 < factor then kind else kind.opposite

/-- Scaling keeps what a bound admits, on the side to which the sign of the factor turns it. -/
theorem admits_scale {factor : Rat} (admits : (kind.turned factor).admits a b = true) :
    kind.admits (a.scale factor) (b.scale factor) = true := by
  rw [turned] at admits
  split at admits
  · rename_i positive
    cases kind with
    | lower => exact admits_lower.2 (InfRat.scale_le_scale positive.le (admits_lower.1 admits))
    | upper => exact admits_upper.2 (InfRat.scale_le_scale positive.le (admits_upper.1 admits))
  · rename_i nonpositive
    have nonpos := not_lt.1 nonpositive
    cases kind with
    | lower =>
      exact admits_lower.2 (InfRat.scale_le_scale_of_nonpos nonpos (admits_upper.1 admits))
    | upper =>
      exact admits_upper.2 (InfRat.scale_le_scale_of_nonpos nonpos (admits_lower.1 admits))

theorem admits_sum {α : Type} {items : List α} {f g : α → InfRat}
    (each : ∀ a ∈ items, kind.admits (f a) (g a) = true) :
    kind.admits (items.map f).sum (items.map g).sum = true := by
  induction items with
  | nil => exact admits_refl _ _
  | cons a rest ih =>
    have ⟨first, others⟩ := List.forall_mem_cons.1 each
    simp only [List.map_cons, List.sum_cons]
    exact admits_add first (ih others)

/-- A form is limited when each of its variables is. -/
theorem admits_combine {form : LinearForm} {φ ψ : Var → InfRat}
    (each : ∀ t ∈ form.terms, (kind.turned t.2).admits (φ t.1) (ψ t.1) = true) :
    kind.admits (form.combine φ) (form.combine ψ) = true :=
  admits_sum fun t member => admits_scale (each t member)

end BoundKind

/-- The value lies on the right side of the bound. -/
def Bound.Admits (b : Bound) (x : InfRat) : Prop := b.kind.admits b.value x = true

namespace BoundStore

variable {store next : BoundStore} {bound b : Bound} {n : Nat} {v : Var} {kind : BoundKind}

/-- The active bound says at least as much as a bound with the given value. -/
def Covers (store : BoundStore) (v : Var) (kind : BoundKind) (value : InfRat) : Prop :=
  ∃ active, store.get v kind = some active ∧ kind.admits value active.value = true

/-- Variables point to records about them, active bounds do not cross, and no record is tighter than
the active bound. -/
structure WellFormed (store : BoundStore) (n : Nat) : Prop where
  lower_size : store.slots.lower.size = n
  upper_size : store.slots.upper.size = n
  pointed : ∀ v kind id, store.slots.get v kind = some id →
    ∃ b, store.records[id]? = some b ∧ b.var = v ∧ b.kind = kind
  ordered : ∀ v lower upper, store.get v .lower = some lower → store.get v .upper = some upper →
    lower.value ≤ upper.value
  dominated : ∀ b ∈ store.records, store.Covers b.var b.kind b.value

theorem isTighter_eq_false_iff {value : InfRat} :
    store.isTighter v kind value = false ↔ store.Covers v kind value := by
  rw [isTighter, Covers]
  cases store.get v kind with
  | none => simp
  | some active => simp [BoundKind.tighter_eq_false_iff]

theorem isTighter_iff {value : InfRat} :
    store.isTighter v kind value = true ↔ ¬store.Covers v kind value := by
  rw [← isTighter_eq_false_iff, Bool.not_eq_false]

theorem violates_eq_false_iff {value : InfRat} :
    store.violates v kind value = false ↔
      ∀ active, store.get v kind = some active → kind.admits active.value value = true := by
  rw [violates, BoundStore.value]
  cases store.get v kind with
  | none => simp
  | some active => simp [BoundKind.tighter_eq_false_iff]

/-- A value is within the active bounds when each of them admits it. -/
theorem admits_iff {value : InfRat} :
    store.admits v value = true ↔
      ∀ kind active, store.get v kind = some active → kind.admits active.value value = true := by
  rw [admits, Bool.and_eq_true, Bool.not_eq_true', Bool.not_eq_true', violates_eq_false_iff,
    violates_eq_false_iff]
  constructor
  · rintro ⟨lower, upper⟩ (_ | _)
    · exact lower
    · exact upper
  · intro all
    exact ⟨all .lower, all .upper⟩

theorem get_of_slot {id : BoundId} (well : store.WellFormed n)
    (slot : store.slots.get v kind = some id) :
    ∃ b, store.get v kind = some b ∧ store.records[id]? = some b ∧ b.var = v ∧ b.kind = kind := by
  obtain ⟨b, found, var_eq, kind_eq⟩ := well.pointed v kind id slot
  exact ⟨b, by rw [get, slot, Option.bind_some, found], found, var_eq, kind_eq⟩

theorem slot_of_get (active : store.get v kind = some b) :
    ∃ id, store.slots.get v kind = some id ∧ store.records[id]? = some b := by
  rw [get, Option.bind_eq_some_iff] at active
  exact active

/-- An active bound is a record about its variable and side. -/
theorem WellFormed.active (well : store.WellFormed n) (active : store.get v kind = some b) :
    b ∈ store.records ∧ b.var = v ∧ b.kind = kind := by
  obtain ⟨id, slot, found⟩ := slot_of_get active
  obtain ⟨other, found', var_eq, kind_eq⟩ := well.pointed v kind id slot
  obtain rfl := Option.some.inj (found.symm.trans found')
  exact ⟨Array.mem_of_getElem? found, var_eq, kind_eq⟩

theorem WellFormed.lt_of_get (well : store.WellFormed n) (active : store.get v kind = some b) :
    v < n := by
  obtain ⟨id, slot, -⟩ := slot_of_get active
  by_contra beyond
  rw [not_lt] at beyond
  cases kind with
  | lower =>
    rw [BoundSlots.get, Array.getElem?_eq_none (well.lower_size.trans_le beyond)] at slot
    cases slot
  | upper =>
    rw [BoundSlots.get, Array.getElem?_eq_none (well.upper_size.trans_le beyond)] at slot
    cases slot

/-! ## The empty store, and growing -/

theorem wellFormed_empty : empty.WellFormed 0 where
  lower_size := rfl
  upper_size := rfl
  pointed v kind id slot := by cases kind <;> simp [empty, BoundSlots.get] at slot
  ordered v lower upper active := by simp [empty, get, BoundSlots.get] at active
  dominated b member := by simp [empty] at member

/-- A new variable points to nothing, like a variable that does not exist. -/
theorem get_grow (slots : BoundSlots) (v : Var) (kind : BoundKind) :
    slots.grow.get v kind = slots.get v kind := by
  have grown (a : Array (Option BoundId)) : ((a.push none)[v]?).getD none = (a[v]?).getD none := by
    rw [Array.getElem?_push]
    split
    · rename_i same
      simp [same]
    · rfl
  cases kind <;> simp only [BoundSlots.grow, BoundSlots.get, grown]

theorem get_addVar (store : BoundStore) (v : Var) (kind : BoundKind) :
    store.addVar.get v kind = store.get v kind := by
  rw [get, addVar, get_grow]
  rfl

theorem WellFormed.addVar (well : store.WellFormed n) : store.addVar.WellFormed (n + 1) where
  lower_size := by simp [BoundStore.addVar, BoundSlots.grow, well.lower_size]
  upper_size := by simp [BoundStore.addVar, BoundSlots.grow, well.upper_size]
  pointed v kind id slot := well.pointed v kind id ((get_grow _ _ _).symm.trans slot)
  ordered v lower upper := by
    rw [get_addVar, get_addVar]
    exact well.ordered v lower upper
  dominated b member := by
    obtain ⟨active, found, admits⟩ := well.dominated b member
    exact ⟨active, (get_addVar _ _ _).trans found, admits⟩

/-! ## Offering a bound -/

/-- What it means that a bound was installed: it did not cross the opposite one, it was not covered,
and it is the only active bound that changed. -/
structure Installed (store next : BoundStore) (bound : Bound) : Prop where
  apart : ∀ opposite, store.get bound.var bound.kind.opposite = some opposite →
    bound.kind.admits bound.value opposite.value = true
  uncovered : ¬store.Covers bound.var bound.kind bound.value
  records : next.records = store.records.push bound
  sizes : next.slots.lower.size = store.slots.lower.size ∧
    next.slots.upper.size = store.slots.upper.size
  get : ∀ v kind, next.get v kind =
    if v = bound.var ∧ kind = bound.kind then some bound else store.get v kind
  pointed : ∀ v kind id, next.slots.get v kind = some id →
    (v = bound.var ∧ kind = bound.kind ∧ id = store.records.size) ∨
      store.slots.get v kind = some id

theorem get_set (slots : BoundSlots) {v w : Var} {kind side : BoundKind} {id : Option BoundId}
    (lower : w < slots.lower.size) (upper : w < slots.upper.size) :
    (slots.set w side id).get v kind =
      if v = w ∧ kind = side then id else slots.get v kind := by
  cases side <;> cases kind <;>
    simp only [BoundSlots.set, BoundSlots.get, Array.getElem?_setIfInBounds, and_true, and_false,
      if_false, reduceCtorEq] <;> grind

/-- An assertion that tightens changes the store as `Installed` says. -/
theorem installed_of_tightened (well : store.WellFormed n) (lt : bound.var < n)
    (done : store.assert bound = .tightened next) : Installed store next bound := by
  rw [BoundStore.assert] at done
  split at done
  · cases done
  · rename_i no_crossing
    simp only at done
    split at done
    · rename_i tighter
      obtain rfl := BoundUpdate.tightened.inj done
      have slots_get (v : Var) (kind : BoundKind) :
          ((store.note bound.var bound.kind).install bound).slots.get v kind =
            if v = bound.var ∧ kind = bound.kind then some store.records.size
            else store.slots.get v kind :=
        get_set store.slots (well.lower_size ▸ lt) (well.upper_size ▸ lt)
      refine ⟨?_, isTighter_iff.1 tighter, rfl, ?_, ?_, ?_⟩
      · intro opposite found
        rw [Option.filter_eq_none_iff] at no_crossing
        have := no_crossing opposite found
        rwa [BoundKind.tighter_iff, not_not] at this
      · cases kind_eq : bound.kind <;> simp [install, note, BoundSlots.set, kind_eq]
      · intro v kind
        rw [BoundStore.get, slots_get]
        split
        · simp [install, note]
        · cases slot : store.slots.get v kind with
          | none => simp [BoundStore.get, slot]
          | some id =>
            obtain ⟨b, active, found, -⟩ := get_of_slot well slot
            have bounded := (Array.getElem?_eq_some_iff.1 found).1
            simp only [install, note, Option.bind_some, Array.getElem?_push,
              Nat.ne_of_lt bounded, if_false, found, active]
      · intro v kind id slot
        rw [slots_get] at slot
        split at slot
        · rename_i same
          exact .inl ⟨same.1, same.2, (Option.some.inj slot).symm⟩
        · exact .inr slot
    · cases done

/-- What was covered stays covered. -/
theorem Installed.covers {value : InfRat} (installed : Installed store next bound)
    (covered : store.Covers v kind value) : next.Covers v kind value := by
  obtain ⟨active, found, admits⟩ := covered
  by_cases here : v = bound.var ∧ kind = bound.kind
  · obtain ⟨rfl, rfl⟩ := here
    refine ⟨bound, by rw [installed.get, if_pos ⟨rfl, rfl⟩], ?_⟩
    have below := (BoundKind.admits_total bound.kind bound.value active.value).resolve_left
      fun covers => installed.uncovered ⟨active, found, covers⟩
    exact BoundKind.admits_trans admits below
  · exact ⟨active, by rw [installed.get, if_neg here, found], admits⟩

theorem Installed.covers_self (installed : Installed store next bound) :
    next.Covers bound.var bound.kind bound.value :=
  ⟨bound, by rw [installed.get, if_pos ⟨rfl, rfl⟩], BoundKind.admits_refl _ _⟩

/-- Installing a bound keeps the store well formed, as it did not cross the opposite bound and no bound
before it was tighter. -/
theorem Installed.wellFormed (installed : Installed store next bound) (well : store.WellFormed n) :
    next.WellFormed n where
  lower_size := installed.sizes.1.trans well.lower_size
  upper_size := installed.sizes.2.trans well.upper_size
  pointed v kind id slot := by
    rw [installed.records]
    rcases installed.pointed v kind id slot with ⟨rfl, rfl, rfl⟩ | old
    · exact ⟨bound, by simp, rfl, rfl⟩
    · obtain ⟨b, found, about⟩ := well.pointed v kind id old
      have bounded := (Array.getElem?_eq_some_iff.1 found).1
      exact ⟨b, by simp only [Array.getElem?_push, Nat.ne_of_lt bounded, if_false, found], about⟩
  ordered v lower upper := by
    rw [installed.get, installed.get]
    intro at_lower at_upper
    split at at_lower
    · rename_i here
      obtain rfl := Option.some.inj at_lower
      have away : ¬(v = bound.var ∧ BoundKind.upper = bound.kind) := fun h =>
        by simp [← here.2] at h
      rw [if_neg away] at at_upper
      have apart := installed.apart upper (by rw [← here.1, ← here.2]; exact at_upper)
      rw [← here.2] at apart
      exact BoundKind.admits_lower.1 apart
    · split at at_upper
      · rename_i here
        obtain rfl := Option.some.inj at_upper
        have apart := installed.apart lower (by rw [← here.1, ← here.2]; exact at_lower)
        rw [← here.2] at apart
        exact BoundKind.admits_upper.1 apart
      · exact well.ordered v lower upper at_lower at_upper
  dominated b member := by
    rw [installed.records, Array.mem_push] at member
    rcases member with member | rfl
    · exact installed.covers (well.dominated b member)
    · exact installed.covers_self

/-- The bound that was refused crosses the active opposite one. -/
theorem crossing_of_conflict {opposite : Dependency} (done : store.assert bound = .conflict opposite) :
    ∃ b, store.get bound.var bound.kind.opposite = some b ∧ b.reason = opposite ∧
      bound.kind.tighter bound.value b.value = true := by
  rw [BoundStore.assert] at done
  split at done
  · rename_i b found
    rw [Option.filter_eq_some_iff] at found
    exact ⟨b, found.1, BoundUpdate.conflict.inj done, found.2⟩
  · simp only at done
    split at done <;> cases done

/-- A bound that changed nothing was covered. -/
theorem unchanged_spec (done : store.assert bound = .unchanged next) :
    next = store.note bound.var bound.kind ∧ store.Covers bound.var bound.kind bound.value := by
  rw [BoundStore.assert] at done
  split at done
  · cases done
  · simp only at done
    split at done
    · cases done
    · rename_i not_tighter
      exact ⟨(BoundUpdate.unchanged.inj done).symm,
        isTighter_eq_false_iff.1 (Bool.eq_false_iff.2 not_tighter)⟩

theorem tightened_eq (done : store.assert bound = .tightened next) :
    next = (store.note bound.var bound.kind).install bound := by
  rw [BoundStore.assert] at done
  split at done
  · cases done
  · simp only at done
    split at done
    · exact (BoundUpdate.tightened.inj done).symm
    · cases done

theorem WellFormed.note (well : store.WellFormed n) (v : Var) (kind : BoundKind) :
    (store.note v kind).WellFormed n where
  lower_size := well.lower_size
  upper_size := well.upper_size
  pointed := well.pointed
  ordered := well.ordered
  dominated := well.dominated

end BoundStore

end ArithDecide
