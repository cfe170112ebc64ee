import Mathlib.Data.List.Induction
import ArithDecide.Proofs.Substituting

/-!
# Clearing and filling rows

`SparseTableau.clearRow` leaves no term in a row, and `SparseTableau.fillRow` adds the sum of the given
terms to it. Neither touches another row. A row that is added starts without terms and is filled with
the entries, merged and without zeros.
-/

namespace ArithDecide.SparseTableau

variable {t u : SparseTableau} {r q : RowId} {v w : Var} {i k : Nat} {c d : Rat}

/-! ## Clearing -/

theorem mem_positions : k ∈ t.positions r ↔ t.content r k ≠ none := by
  rw [positions]
  cases found : t.rows[r]? with
  | none => simp [content, term?, found]
  | some row =>
    simp only [List.mem_map, Prod.exists, Slots.mem_live, content, term?, found, Option.bind_some,
      ne_eq, Option.map_eq_none_iff]
    constructor
    · rintro ⟨_, entry, at_k, rfl⟩ missing
      rw [missing] at at_k
      cases at_k
    · intro present
      obtain ⟨entry, at_k⟩ := Option.ne_none_iff_exists'.1 present
      exact ⟨k, entry, at_k, rfl⟩

theorem nodup_positions (t : SparseTableau) (r : RowId) : (t.positions r).Nodup := by
  rw [positions]
  split
  · exact .nil
  · rename_i row _
    rw [List.nodup_iff_pairwise_ne, List.pairwise_map]
    exact row.slots.increasing_live.imp Nat.ne_of_lt

/-- Removing the terms at distinct positions one after another leaves the others where they are. -/
theorem removeTerms_keeps {positions : List Nat} (linked : t.Linked) (nonzero : t.Nonzero)
    (nodup : positions.Nodup) (present : ∀ i ∈ positions, t.content r i ≠ none) :
    ∃ u, positions.foldl (fun t i => (t.removeTerm r i).2) t = u ∧ u.Linked ∧ u.Nonzero ∧
      t.Edits r u ∧ ∀ k, u.content r k = if k ∈ positions then none else t.content r k := by
  induction positions generalizing t with
  | nil => exact ⟨t, rfl, linked, nonzero, .refl t r, fun k => (if_neg List.not_mem_nil).symm⟩
  | cons i rest ih =>
    obtain ⟨absent, nodup⟩ := List.nodup_cons.1 nodup
    obtain ⟨⟨v, c⟩, at_i⟩ := Option.ne_none_iff_exists'.1 (present i List.mem_cons_self)
    obtain ⟨removed, removed_eq, linked', emptied⟩ := removeTerm_keeps linked at_i
    obtain ⟨u, cleared, linked'', nonzero', edits, contents⟩ :=
      ih linked' (emptied.nonzero nonzero nofun) nodup fun k member => by
        rw [emptied.elsewhere fun same => absent (same ▸ member)]
        exact present k (List.mem_cons_of_mem _ member)
    refine ⟨u, ?_, linked'', nonzero', emptied.edits.trans edits, fun k => ?_⟩
    · rw [List.foldl_cons, removed_eq, cleared]
    · rw [contents, emptied.contents]
      grind

theorem clearRow_keeps (linked : t.Linked) (nonzero : t.Nonzero) (r : RowId) :
    (t.clearRow r).Linked ∧ (t.clearRow r).Nonzero ∧ t.Edits r (t.clearRow r) ∧
      ∀ k, (t.clearRow r).content r k = none := by
  obtain ⟨u, cleared, linked', nonzero', edits, contents⟩ :=
    removeTerms_keeps linked nonzero (nodup_positions t r) fun k => mem_positions.1
  rw [clearRow, cleared]
  refine ⟨linked', nonzero', edits, fun k => ?_⟩
  rw [contents]
  split
  · rfl
  · rename_i missing
    exact not_not.1 fun present => missing (mem_positions.2 present)

/-! ## Filling -/

/-- Putting distinct terms into a row that has none of them adds exactly these terms to it, and keeps
terms and column entries paired. -/
theorem fillRow_keeps {terms : List (Var × Rat)} (linked : t.Linked) (nonzero : t.Nonzero)
    (r_lt : r < t.rows.size) (distinct : (terms.map Prod.fst).Nodup)
    (lt : ∀ term ∈ terms, term.1 < t.columns.size) (terms_ne : ∀ term ∈ terms, term.2 ≠ 0)
    (absent : ∀ term ∈ terms, ∀ d, ¬t.Occurs r term.1 d) :
    (t.fillRow r terms).Linked ∧ (t.fillRow r terms).Nonzero ∧ t.Edits r (t.fillRow r terms) ∧
      ∀ w, (t.fillRow r terms).coeff r w = t.coeff r w + (LinearForm.ofEntries terms).coeff w := by
  rw [fillRow]
  induction terms generalizing t with
  | nil =>
    refine ⟨linked, nonzero, .refl t r, fun w => ?_⟩
    rw [LinearForm.coeff_ofEntries, List.map_nil, List.sum_nil, add_zero, List.foldl_nil]
  | cons term rest ih =>
    obtain ⟨other, distinct⟩ := List.nodup_cons.1 distinct
    have new := absent term List.mem_cons_self
    obtain ⟨p, u, inserted, linked', free, replaces⟩ :=
      insertTerm_keeps linked r_lt (lt term List.mem_cons_self) new term.2
    have frame := replaces.frame
    rw [List.foldl_cons, inserted]
    obtain ⟨linked'', nonzero', edits, coeff⟩ := ih linked'
      (replaces.nonzero nonzero fun w d same => by
        cases same
        exact terms_ne term List.mem_cons_self)
      (by rwa [frame.size]) distinct
      (fun later member => by
        rw [frame.columns]
        exact lt later (List.mem_cons_of_mem _ member))
      (fun later member => terms_ne later (List.mem_cons_of_mem _ member))
      (fun later member d ⟨k, at_k⟩ => by
        rw [replaces.contents] at at_k
        split at at_k
        · obtain ⟨same, -⟩ := Prod.mk.inj (Option.some.inj at_k)
          exact other (List.mem_map.2 ⟨later, member, same.symm⟩)
        · exact absent later (List.mem_cons_of_mem _ member) d ⟨k, at_k⟩)
    refine ⟨linked'', nonzero', replaces.edits.trans edits, fun w => ?_⟩
    rw [coeff, replaces.coeff_added linked linked' free new, LinearForm.coeff_ofEntries,
      LinearForm.coeff_ofEntries, List.map_cons, List.sum_cons, add_assoc]

/-! ## Merging -/

theorem keys_mergeEntry (merged : List (Var × Rat)) (entry : Var × Rat) :
    (mergeEntry merged entry).map Prod.fst =
      if entry.1 ∈ merged.map Prod.fst then merged.map Prod.fst
      else merged.map Prod.fst ++ [entry.1] := by
  have known : (merged.any fun other => other.1 == entry.1) = true ↔
      entry.1 ∈ merged.map Prod.fst := by
    simp
  rw [mergeEntry]
  by_cases there : entry.1 ∈ merged.map Prod.fst
  · rw [if_pos (known.2 there), if_pos there, List.map_map]
    refine List.map_congr_left fun other _ => ?_
    rw [Function.comp_apply]
    split <;> rfl
  · rw [if_neg (mt known.1 there), if_neg there, List.map_append]
    rfl

theorem nodup_mergeEntry {merged : List (Var × Rat)} (distinct : (merged.map Prod.fst).Nodup)
    (entry : Var × Rat) : ((mergeEntry merged entry).map Prod.fst).Nodup := by
  rw [keys_mergeEntry]
  split
  · exact distinct
  · rename_i new
    exact distinct.append (List.nodup_singleton _) (List.disjoint_singleton.2 new)

/-- Merging an entry adds its coefficient to that of its variable. -/
theorem coeff_mergeEntry {merged : List (Var × Rat)} (distinct : (merged.map Prod.fst).Nodup)
    (entry : Var × Rat) (v : Var) :
    (LinearForm.ofEntries (mergeEntry merged entry)).coeff v =
      (LinearForm.ofEntries merged).coeff v + if entry.1 = v then entry.2 else 0 := by
  by_cases there : (merged.any fun other => other.1 == entry.1) = true
  · split
    · rename_i same
      subst same
      obtain ⟨⟨w, c⟩, member, same⟩ := List.any_eq_true.1 there
      obtain rfl : w = entry.1 := eq_of_beq same
      have summed : (entry.1, c + entry.2) ∈ mergeEntry merged entry := by
        rw [mergeEntry, if_pos there]
        exact List.mem_map.2 ⟨_, member, if_pos rfl⟩
      rw [LinearForm.coeff_ofEntries_of_mem distinct member,
        LinearForm.coeff_ofEntries_of_mem (nodup_mergeEntry distinct entry) summed]
    · rename_i apart
      rw [mergeEntry, if_pos there, LinearForm.coeff_ofEntries, LinearForm.coeff_ofEntries,
        List.map_map, add_zero]
      refine congrArg List.sum (List.map_congr_left fun other _ => ?_)
      rw [Function.comp_apply]
      grind
  · rw [mergeEntry, if_neg there, LinearForm.coeff_ofEntries, LinearForm.coeff_ofEntries,
      List.map_append, List.sum_append, List.map_singleton, List.sum_singleton]

/-- Entries merged from the left: one for each variable, with the same sum. -/
theorem foldl_mergeEntry (entries : List (Var × Rat)) :
    ((entries.foldl mergeEntry []).map Prod.fst).Nodup ∧
      (∀ v ∈ (entries.foldl mergeEntry []).map Prod.fst, v ∈ entries.map Prod.fst) ∧
      ∀ v, (LinearForm.ofEntries (entries.foldl mergeEntry [])).coeff v =
        (LinearForm.ofEntries entries).coeff v := by
  induction entries using List.reverseRecOn with
  | nil => exact ⟨.nil, fun v member => member, fun v => rfl⟩
  | append_singleton entries entry ih =>
    obtain ⟨distinct, known, same⟩ := ih
    rw [List.foldl_append, List.foldl_cons, List.foldl_nil]
    refine ⟨nodup_mergeEntry distinct entry, fun v member => ?_, fun v => ?_⟩
    · rw [List.map_append, List.mem_append, List.map_singleton, List.mem_singleton]
      rw [keys_mergeEntry] at member
      split at member
      · exact .inl (known v member)
      · rcases List.mem_append.1 member with member | member
        · exact .inl (known v member)
        · exact .inr (List.mem_singleton.1 member)
    · rw [coeff_mergeEntry distinct, same, LinearForm.coeff_ofEntries, LinearForm.coeff_ofEntries,
        List.map_append, List.sum_append, List.map_singleton, List.sum_singleton]

/-- What is left of the entries of a new row. -/
def mergedEntries (entries : List (Var × Rat)) : List (Var × Rat) :=
  (entries.foldl mergeEntry []).filter fun entry => entry.2 ≠ 0

theorem nodup_mergedEntries (entries : List (Var × Rat)) :
    ((mergedEntries entries).map Prod.fst).Nodup :=
  (foldl_mergeEntry entries).1.sublist (List.filter_sublist.map _)

theorem ne_zero_of_mem_mergedEntries {entries : List (Var × Rat)} {entry : Var × Rat}
    (member : entry ∈ mergedEntries entries) : entry.2 ≠ 0 :=
  of_decide_eq_true (List.mem_filter.1 member).2

theorem mem_of_mem_mergedEntries {entries : List (Var × Rat)} {entry : Var × Rat}
    (member : entry ∈ mergedEntries entries) : entry.1 ∈ entries.map Prod.fst :=
  (foldl_mergeEntry entries).2.1 _ (List.mem_map_of_mem (List.mem_filter.1 member).1)

/-- Merging entries and dropping zeros does not change their sum. -/
theorem ofEntries_mergedEntries (entries : List (Var × Rat)) :
    LinearForm.ofEntries (mergedEntries entries) = LinearForm.ofEntries entries := by
  refine LinearForm.ext_coeff fun v => ?_
  rw [← (foldl_mergeEntry entries).2.2 v]
  simp only [LinearForm.coeff_ofEntries, mergedEntries]
  generalize entries.foldl mergeEntry [] = merged
  induction merged with
  | nil => rfl
  | cons head rest ih =>
    rw [List.filter_cons, List.map_cons, List.sum_cons, ← ih]
    by_cases zero : head.2 = 0
    · rw [if_neg (by simp [zero]), zero, ite_self, zero_add]
    · rw [if_pos (decide_eq_true zero), List.map_cons, List.sum_cons]

end ArithDecide.SparseTableau
