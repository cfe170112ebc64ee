import Mathlib.Data.List.Basic
import ArithDecide.Storage.Slots

/-!
# Slots keep their entries

What the operations on slots do to the entry at a position. `Slots.WellFormed` says that free positions
hold tombstones, each free position once, and that the size counts the entries. Once the tombstones are
squashed out, the entries stand at the front in their order (`Slots.get?_compact`).
-/

namespace ArithDecide.Slots

variable {α : Type} {s : Slots α} {a b : α} {i j n : Nat}

/-- Free positions hold tombstones, and the size is the number of entries. -/
structure WellFormed (s : Slots α) : Prop where
  free_dead : ∀ i ∈ s.free, s.entries[i]? = some none
  free_nodup : s.free.Nodup
  size_eq : s.size = s.entries.countP Option.isSome

theorem get?_eq_some_iff : s.get? i = some a ↔ s.entries[i]? = some (some a) := by
  rw [get?, Option.join_eq_some_iff]

theorem wellFormed_empty : (empty : Slots α).WellFormed := ⟨by simp [empty], .nil, rfl⟩

@[simp] theorem get?_empty (i : Nat) : (empty : Slots α).get? i = none := rfl

/-! ## Entries in order -/

theorem mem_live : (i, a) ∈ s.live ↔ s.get? i = some a := by
  rw [get?_eq_some_iff]
  simp only [live, List.mem_filterMap, Option.map_eq_some_iff]
  constructor
  · rintro ⟨⟨slot, k⟩, member, b, found, same⟩
    obtain ⟨rfl, rfl⟩ := Prod.mk.inj same
    have at_k := List.mem_zipIdx_iff_getElem?.1 member
    simp only at found at_k
    rw [← found, ← at_k, Array.getElem?_toList]
  · intro found
    refine ⟨(some a, i), List.mem_zipIdx_iff_getElem?.2 ?_, a, rfl, rfl⟩
    rw [Array.getElem?_toList]
    exact found

theorem increasing_live (s : Slots α) : s.live.Pairwise fun x y => x.1 < y.1 := by
  have positions : s.entries.toList.zipIdx.Pairwise fun x y => x.2 < y.2 := by
    refine List.Pairwise.of_map Prod.snd (fun _ _ less => less) ?_
    rw [List.zipIdx_map_snd]
    exact List.pairwise_lt_range'
  refine positions.filterMap _ fun x y less c at_x d at_y => ?_
  obtain ⟨_, _, rfl⟩ := Option.map_eq_some_iff.1 at_x
  obtain ⟨_, _, rfl⟩ := Option.map_eq_some_iff.1 at_y
  exact less

/-- Positions that are different in order are different. -/
theorem eq_of_live {m : Nat} (at_m : s.live[m]? = some (i, a)) (at_n : s.live[n]? = some (i, b)) :
    m = n := by
  have increasing := s.increasing_live
  obtain ⟨m_lt, at_m⟩ := List.getElem?_eq_some_iff.1 at_m
  obtain ⟨n_lt, at_n⟩ := List.getElem?_eq_some_iff.1 at_n
  rcases Nat.lt_trichotomy m n with less | same | greater
  · have := List.pairwise_iff_getElem.1 increasing m n m_lt n_lt less
    rw [at_m, at_n] at this
    exact absurd this (Nat.lt_irrefl _)
  · exact same
  · have := List.pairwise_iff_getElem.1 increasing n m n_lt m_lt greater
    rw [at_m, at_n] at this
    exact absurd this (Nat.lt_irrefl _)

/-- In order, no entry comes before the position that its number names. -/
theorem le_of_live (at_n : s.live[n]? = some (i, a)) : n ≤ i := by
  induction n generalizing i a with
  | zero => exact Nat.zero_le _
  | succ n ih =>
    obtain ⟨lt, same⟩ := List.getElem?_eq_some_iff.1 at_n
    have before := List.pairwise_iff_getElem.1 s.increasing_live n (n + 1)
      (Nat.lt_trans (Nat.lt_succ_self n) lt) lt (Nat.lt_succ_self n)
    rw [same] at before
    exact Nat.lt_of_le_of_lt (ih (List.getElem?_eq_getElem _)) before

/-- The entries, without their positions. -/
theorem map_snd_live (s : Slots α) : s.live.map Prod.snd = s.entries.toList.filterMap id := by
  have firsts : s.entries.toList = s.entries.toList.zipIdx.map Prod.fst := by
    rw [List.zipIdx_map_fst]
  rw [live, List.map_filterMap]
  conv_rhs => rw [firsts, List.filterMap_map]
  refine List.filterMap_congr fun slot _ => ?_
  exact (Option.map_map _ _ _).trans Option.map_id'

/-- Slots without entries have size zero. -/
theorem WellFormed.get?_eq_none (well : s.WellFormed) (none_left : s.size = 0) (i : Nat) :
    s.get? i = none := by
  rw [well.size_eq, Array.countP_eq_zero] at none_left
  by_contra present
  obtain ⟨a, found⟩ := Option.ne_none_iff_exists'.1 present
  exact none_left _ (Array.mem_of_getElem? (get?_eq_some_iff.1 found)) rfl

/-! ## Storing and removing -/

theorem get?_insert_self (well : s.WellFormed) : (s.insert a).2.get? (s.insert a).1 = some a := by
  rw [get?_eq_some_iff, insert]
  split
  · rename_i i free free_eq
    have dead := well.free_dead i (by rw [free_eq]; exact List.mem_cons_self)
    rw [Array.getElem?_setIfInBounds, if_pos rfl, if_pos (Array.getElem?_eq_some_iff.1 dead).1]
  · rw [Array.getElem?_push, if_pos rfl]

theorem get?_insert_of_ne (apart : j ≠ (s.insert a).1) : (s.insert a).2.get? j = s.get? j := by
  rw [insert] at apart ⊢
  split at apart
  · simp only [get?, Array.getElem?_setIfInBounds]
    rw [if_neg apart.symm]
  · simp only [get?, Array.getElem?_push]
    rw [if_neg apart]

theorem get?_insert (well : s.WellFormed) (a : α) (j : Nat) :
    (s.insert a).2.get? j = if j = (s.insert a).1 then some a else s.get? j := by
  split
  · rename_i same
    rw [same, get?_insert_self well]
  · rename_i apart
    exact get?_insert_of_ne apart

/-- An entry is stored where none was. -/
theorem get?_insert_fresh (well : s.WellFormed) : s.get? (s.insert a).1 = none := by
  rw [insert]
  split
  · rename_i i free free_eq
    rw [get?, well.free_dead i (by rw [free_eq]; exact List.mem_cons_self)]
    rfl
  · rw [get?, Array.getElem?_eq_none (Nat.le_refl _)]
    rfl

theorem countP_setIfInBounds {xs : Array (Option α)} {old : Option α} (slot : Option α)
    (at_i : xs[i]? = some old) :
    (xs.setIfInBounds i slot).countP Option.isSome + (if old.isSome then 1 else 0) =
      xs.countP Option.isSome + if slot.isSome then 1 else 0 := by
  obtain ⟨lt, rfl⟩ := Array.getElem?_eq_some_iff.1 at_i
  have counted : xs[i].isSome = true → 0 < xs.countP Option.isSome := fun some_i =>
    Array.countP_pos_iff.2 ⟨xs[i], Array.getElem_mem lt, some_i⟩
  rw [Array.setIfInBounds, dif_pos lt, Array.countP_set lt]
  grind

/-- An entry takes the first free position, or a new one at the end. -/
theorem WellFormed.insert (well : s.WellFormed) (a : α) : (s.insert a).2.WellFormed := by
  have size_eq := well.size_eq
  rw [Slots.insert]
  split
  · rename_i i free free_eq
    have nodup := well.free_nodup
    have dead := well.free_dead
    rw [free_eq] at nodup dead
    have ⟨absent, nodup⟩ := List.nodup_cons.1 nodup
    refine ⟨fun k member => ?_, nodup, ?_⟩
    · have apart : i ≠ k := fun same => absent (same ▸ member)
      rw [Array.getElem?_setIfInBounds, if_neg apart]
      exact dead k (List.mem_cons_of_mem _ member)
    · have counted := countP_setIfInBounds (some a) (dead i List.mem_cons_self)
      simpa [size_eq] using counted.symm
  · refine ⟨nofun, .nil, ?_⟩
    rw [Array.countP_push, size_eq]
    rfl

theorem get?_kill (s : Slots α) (i j : Nat) :
    (s.kill i).get? j = if j = i then none else s.get? j := by
  rw [kill]
  split
  · simp only [get?, Array.getElem?_setIfInBounds]
    grind
  · rename_i dead
    split
    · rename_i same
      rw [same]
      exact Option.not_isSome_iff_eq_none.1 dead
    · rfl

/-- Killing an entry frees its position; where there is none, nothing changes. -/
theorem WellFormed.kill (well : s.WellFormed) (i : Nat) : (s.kill i).WellFormed := by
  rw [Slots.kill]
  split
  · rename_i present
    obtain ⟨a, found⟩ := Option.isSome_iff_exists.1 present
    rw [get?_eq_some_iff] at found
    have lt := (Array.getElem?_eq_some_iff.1 found).1
    have absent : i ∉ s.free := fun member => by
      have dead := well.free_dead i member
      simp [found] at dead
    refine ⟨fun k member => ?_, List.nodup_cons.2 ⟨absent, well.free_nodup⟩, ?_⟩
    · rw [Array.getElem?_setIfInBounds]
      rcases List.mem_cons.1 member with rfl | later
      · rw [if_pos rfl, if_pos lt]
      · have apart : i ≠ k := fun same => absent (same ▸ later)
        rw [if_neg apart]
        exact well.free_dead k later
    · have counted := countP_setIfInBounds none found
      have size_eq := well.size_eq
      simp only [Option.isSome_some, Option.isSome_none, if_true, Bool.false_eq_true, if_false]
        at counted
      show s.size - 1 = (s.entries.setIfInBounds i none).countP Option.isSome
      omega
  · exact well

/-! ## Changing entries -/

theorem get?_modify (s : Slots α) (i : Nat) (change : α → α) (j : Nat) :
    (s.modify i change).get? j = if j = i then (s.get? i).map change else s.get? j := by
  simp only [modify, get?, Array.getElem?_modify]
  by_cases same : i = j
  · subst same
    cases s.entries[i]? with
    | none => simp
    | some slot => cases slot <;> simp
  · rw [if_neg same, if_neg (Ne.symm same)]

/-- Changing an entry frees no position and takes none, whether there is an entry or not. -/
theorem WellFormed.modify (well : s.WellFormed) (i : Nat) (change : α → α) :
    (s.modify i change).WellFormed := by
  refine ⟨fun k member => ?_, well.free_nodup, ?_⟩
  · simp only [Slots.modify, Array.getElem?_modify, well.free_dead k member]
    split <;> rfl
  · cases at_i : s.entries[i]? with
    | none =>
      have unchanged : s.entries.modify i (Option.map change) = s.entries := by
        refine Array.ext_getElem? fun k => ?_
        rw [Array.getElem?_modify]
        split
        · rename_i same
          rw [← same, at_i]
          rfl
        · rfl
      simpa only [Slots.modify, unchanged] using well.size_eq
    | some slot =>
      have replaced : s.entries.modify i (Option.map change) =
          s.entries.setIfInBounds i (slot.map change) := by
        refine Array.ext_getElem? fun k => ?_
        rw [Array.getElem?_modify, Array.getElem?_setIfInBounds]
        split
        · rename_i same
          rw [← same, at_i, if_pos (Array.getElem?_eq_some_iff.1 at_i).1]
          rfl
        · rfl
      have counted := countP_setIfInBounds (slot.map change) at_i
      have size_eq := well.size_eq
      simp only [Option.isSome_map] at counted
      simp only [Slots.modify, replaced]
      omega

theorem get?_map (s : Slots α) (change : α → α) (j : Nat) :
    (s.map change).get? j = (s.get? j).map change := by
  simp only [map, get?, Array.getElem?_map]
  cases s.entries[j]? with
  | none => rfl
  | some slot => cases slot <;> rfl

theorem WellFormed.map (well : s.WellFormed) (change : α → α) : (s.map change).WellFormed := by
  refine ⟨fun k member => ?_, well.free_nodup, ?_⟩
  · simp only [Slots.map, Array.getElem?_map, well.free_dead k member]
    rfl
  · simp only [Slots.map, Array.countP_map, well.size_eq]
    congr 1
    funext slot
    cases slot <;> rfl

/-! ## Squashing out tombstones -/

theorem get?_compact (s : Slots α) (n : Nat) : s.compact.2.get? n = (s.live[n]?).map Prod.snd := by
  simp only [compact, get?, List.getElem?_toArray, List.getElem?_map]
  cases s.live[n]? <;> rfl

theorem mem_moves : (i, n) ∈ s.compact.1 ↔ ∃ a, s.live[n]? = some (i, a) := by
  simp only [compact, List.mem_map, Prod.exists, Prod.mk.injEq]
  constructor
  · rintro ⟨k, a, m, member, rfl, rfl⟩
    exact ⟨a, List.mem_zipIdx_iff_getElem?.1 member⟩
  · rintro ⟨a, at_n⟩
    exact ⟨i, a, n, List.mem_zipIdx_iff_getElem?.2 at_n, rfl, rfl⟩

theorem WellFormed.compact (well : s.WellFormed) : s.compact.2.WellFormed := by
  refine ⟨nofun, .nil, ?_⟩
  have counted : s.live.length = s.entries.countP Option.isSome := by
    rw [← List.length_map Prod.snd, map_snd_live, List.length_filterMap_eq_countP,
      ← Array.countP_toList]
    rfl
  simp only [Slots.compact, List.countP_toArray, List.countP_map, well.size_eq, ← counted]
  exact (List.countP_eq_length.2 fun _ _ => rfl).symm

end ArithDecide.Slots
