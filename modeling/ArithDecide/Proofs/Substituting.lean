import ArithDecide.Proofs.Coefficients

/-!
# Substitution on the stored terms

`SparseTableau.substitute` replaces a variable of a row by the terms of the row that it heads, term by
term. Here: what that does to the coefficients, and that no other row is touched
(`SparseTableau.substitute_keeps`). While terms are added the map of positions stays exact
(`SparseTableau.Maps`), as terms of the row move only when the row is squashed at the end.
-/

namespace ArithDecide.SparseTableau

variable {t u : SparseTableau} {r q : RowId} {v w : Var} {i k : Nat} {c d factor : Rat}
  {positions : PositionMap}

/-! ## Maps of positions -/

theorem lookup_eq_some_iff {entries : PositionMap} (distinct : (entries.map Prod.fst).Nodup) :
    entries.lookup v = some i ↔ (v, i) ∈ entries := by
  induction entries with
  | nil => simp
  | cons head rest ih =>
    obtain ⟨w, k⟩ := head
    obtain ⟨absent, distinct⟩ := List.nodup_cons.1 distinct
    rw [List.lookup_cons, List.mem_cons, Prod.mk.injEq]
    by_cases same : v = w
    · subst same
      have others : (v, i) ∉ rest := fun member => absent (List.mem_map.2 ⟨_, member, rfl⟩)
      simp [others, eq_comm]
    · rw [beq_false_of_ne same]
      simp [same, ih distinct]

theorem lookup_filter (entries : PositionMap) (v w : Var) :
    (entries.filter fun position => position.1 ≠ v).lookup w =
      if w = v then none else entries.lookup w := by
  induction entries with
  | nil => simp
  | cons head rest ih =>
    obtain ⟨x, k⟩ := head
    rw [List.filter_cons]
    grind

/-- The map tells the position of every term of a row. -/
def Maps (t : SparseTableau) (r : RowId) (positions : PositionMap) : Prop :=
  ∀ w p, positions.lookup w = some p ↔ ∃ d, t.content r p = some (w, d)

/-- The positions that are looked up for a row are those of its terms. -/
theorem Linked.maps (linked : t.Linked) (r : RowId) : t.Maps r (t.positionMap r) := by
  intro w p
  rw [positionMap]
  cases found : t.rows[r]? with
  | none => simp [content, term?, found]
  | some row =>
    have distinct : ((row.slots.live.map fun entry => (entry.2.var, entry.1)).map
        Prod.fst).Nodup := by
      have nodup := linked.nodup_terms found
      rw [SparseRow.terms, List.map_map] at nodup
      rw [List.map_map]
      exact nodup
    rw [lookup_eq_some_iff distinct]
    simp only [List.mem_map, Prod.exists, Slots.mem_live, Prod.mk.injEq, content_eq_some_iff,
      term?, found, Option.bind_some]
    grind

/-- A variable that the map does not know has no term. -/
theorem Maps.absent (maps : t.Maps r positions) (unknown : positions.lookup v = none) (d : Rat) :
    ¬t.Occurs r v d := by
  rintro ⟨p, at_p⟩
  rw [(maps v p).2 ⟨d, at_p⟩] at unknown
  cases unknown

/-! ## Adding to a term -/

/-- The positions stay exact when a term is put in and its position is noted. -/
theorem Maps.cons (maps : t.Maps r positions) {p : Nat} (free : t.content r p = none)
    (unknown : positions.lookup v = none) (replaces : t.Replaces r p (some (v, c)) u) :
    u.Maps r ((v, p) :: positions) := by
  intro w k
  rw [List.lookup_cons, replaces.contents]
  by_cases same : w = v
  · subst same
    have absent := maps.absent unknown
    have elsewhere : k ≠ p → ∀ d, t.content r k ≠ some (w, d) := fun _ d at_k => absent d ⟨k, at_k⟩
    by_cases here : k = p
    · simp [here]
    · simp [here, elsewhere here, Ne.symm here]
  · rw [beq_false_of_ne same]
    by_cases here : k = p
    · subst here
      have missing : positions.lookup w ≠ some k := fun known => by
        obtain ⟨d, at_k⟩ := (maps w k).1 known
        rw [free] at at_k
        cases at_k
      simp [missing, Ne.symm same]
    · simp [here, maps w k]

/-- The positions stay exact when a term is taken out and its position is forgotten. -/
theorem Maps.filter (maps : t.Maps r positions) (linked : t.Linked) {p : Nat}
    (at_p : t.content r p = some (v, c)) (replaces : t.Replaces r p none u) :
    u.Maps r (positions.filter fun position => position.1 ≠ v) := by
  intro w k
  rw [lookup_filter, replaces.contents]
  by_cases same : w = v
  · subst same
    by_cases here : k = p
    · simp [here]
    · have elsewhere : ∀ d, t.content r k ≠ some (w, d) := fun d at_k =>
        here (linked.distinct_content at_k at_p)
      simp [here, elsewhere]
  · by_cases here : k = p
    · subst here
      have missing : positions.lookup w ≠ some k := fun known => by
        obtain ⟨d, at_k⟩ := (maps w k).1 known
        rw [at_p] at at_k
        cases at_k
        exact same rfl
      simp [same, missing]
    · simp [same, here, maps w k]

theorem Maps.replaces (maps : t.Maps r positions) {p : Nat} (at_p : t.content r p = some (v, c))
    (replaces : t.Replaces r p (some (v, d)) u) : u.Maps r positions := by
  intro w k
  rw [maps w k, replaces.contents]
  split
  · rename_i here
    simp [here.2, at_p]
  · rfl

/-- A new term is added to the row. -/
theorem addTerm_new (linked : t.Linked) (nonzero : t.Nonzero) (maps : t.Maps r positions)
    (r_lt : r < t.rows.size) (v_lt : v < t.columns.size) (delta : factor * c ≠ 0)
    (unknown : positions.lookup v = none) :
    ∃ u later, addTerm r factor (t, positions) (v, c) = (u, later) ∧ u.Linked ∧ u.Nonzero ∧
      u.Maps r later ∧ t.Edits r u ∧
      ∀ w, u.coeff r w = t.coeff r w + if v = w then factor * c else 0 := by
  have absent := maps.absent unknown
  obtain ⟨p, u, inserted, linked', free, replaces⟩ :=
    insertTerm_keeps linked r_lt v_lt absent (factor * c)
  refine ⟨u, (v, p) :: positions, ?_, linked', ?_, maps.cons free unknown replaces,
    replaces.edits, replaces.coeff_added linked linked' free absent⟩
  · simp only [addTerm, unknown, inserted]
  · refine replaces.nonzero nonzero fun w d same => ?_
    cases same
    exact delta

/-- A term is added to that of the same variable, which goes when they cancel. -/
theorem addTerm_known (linked : t.Linked) (nonzero : t.Nonzero) (maps : t.Maps r positions)
    {p : Nat} (known : positions.lookup v = some p) :
    ∃ u later, addTerm r factor (t, positions) (v, c) = (u, later) ∧ u.Linked ∧ u.Nonzero ∧
      u.Maps r later ∧ t.Edits r u ∧
      ∀ w, u.coeff r w = t.coeff r w + if v = w then factor * c else 0 := by
  obtain ⟨d, at_p⟩ := (maps v p).1 known
  have old := coeff_of_occurs linked ⟨p, at_p⟩
  obtain ⟨entry, found, rfl, rfl⟩ := content_eq_some_iff.1 at_p
  have added := addToCoeff_replaces found (factor * c)
  have linked' := linked.addToCoeff r p (factor * c)
  have before {w : Var} (apart : entry.var ≠ w) (d : Rat) : t.content r p ≠ some (w, d) :=
    fun same => by
      rw [at_p] at same
      cases same
      exact apart rfl
  by_cases cancel : entry.coeff + factor * c = 0
  · obtain ⟨u, removed, linked'', emptied⟩ := removeTerm_keeps linked' added.here
    have replaces := added.trans emptied
    refine ⟨u, _, ?_, linked'', replaces.nonzero nonzero nofun, maps.filter linked at_p replaces,
      replaces.edits, fun w => ?_⟩
    · simp only [addTerm, known, found, if_pos cancel, removed]
    · split
      · rename_i same
        rw [← same, replaces.coeff_none linked at_p, old, cancel]
      · rename_i apart
        rw [add_zero]
        exact replaces.coeff_of_ne linked linked'' (before apart) nofun
  · refine ⟨_, _, ?_, linked', added.nonzero nonzero ?_, maps.replaces at_p added,
      added.edits, fun w => ?_⟩
    · simp only [addTerm, known, found, if_neg cancel]
    · intro w d same
      cases same
      exact cancel
    · split
      · rename_i same
        rw [← same, added.coeff_some linked', old]
      · rename_i apart
        rw [add_zero]
        refine added.coeff_of_ne linked linked' (before apart) fun d same => ?_
        cases same
        exact apart rfl

/-- A multiple of a term is added to a row, and the map of positions stays exact. -/
theorem addTerm_keeps (linked : t.Linked) (nonzero : t.Nonzero) (maps : t.Maps r positions)
    (r_lt : r < t.rows.size) (v_lt : v < t.columns.size) (delta : factor * c ≠ 0) :
    ∃ u later, addTerm r factor (t, positions) (v, c) = (u, later) ∧ u.Linked ∧ u.Nonzero ∧
      u.Maps r later ∧ t.Edits r u ∧
      ∀ w, u.coeff r w = t.coeff r w + if v = w then factor * c else 0 := by
  cases known : positions.lookup v with
  | none => exact addTerm_new linked nonzero maps r_lt v_lt delta known
  | some p => exact addTerm_known linked nonzero maps known

/-- Adding a multiple of each of some terms adds the multiple of their sum. -/
theorem addTerms_keeps (terms : List (Var × Rat)) (linked : t.Linked) (nonzero : t.Nonzero)
    (maps : t.Maps r positions) (r_lt : r < t.rows.size)
    (lt : ∀ term ∈ terms, term.1 < t.columns.size) (factor_ne : factor ≠ 0)
    (terms_ne : ∀ term ∈ terms, term.2 ≠ 0) :
    ∃ u later, terms.foldl (addTerm r factor) (t, positions) = (u, later) ∧ u.Linked ∧
      u.Nonzero ∧ t.Edits r u ∧
      ∀ w, u.coeff r w = t.coeff r w + factor * (LinearForm.ofEntries terms).coeff w := by
  induction terms generalizing t positions with
  | nil =>
    refine ⟨t, positions, rfl, linked, nonzero, .refl t r, fun w => ?_⟩
    rw [LinearForm.coeff_ofEntries, List.map_nil, List.sum_nil, mul_zero, add_zero]
  | cons term rest ih =>
    have delta : factor * term.2 ≠ 0 :=
      mul_ne_zero factor_ne (terms_ne term List.mem_cons_self)
    obtain ⟨u, later, added, linked', nonzero', maps', edits, coeff⟩ :=
      addTerm_keeps linked nonzero maps r_lt (lt term List.mem_cons_self) delta
    obtain ⟨s, last, summed, linked'', nonzero'', edits', coeff'⟩ := ih linked' nonzero' maps'
      (by rwa [edits.frame.size])
      (fun other member => by
        rw [edits.frame.columns]
        exact lt other (List.mem_cons_of_mem _ member))
      (fun other member => terms_ne other (List.mem_cons_of_mem _ member))
    refine ⟨s, last, ?_, linked'', nonzero'', edits.trans edits', fun w => ?_⟩
    · rw [List.foldl_cons, added, summed]
    · rw [coeff', coeff, LinearForm.coeff_ofEntries, LinearForm.coeff_ofEntries, List.map_cons,
        List.sum_cons, mul_add, mul_ite, mul_zero, add_assoc]

/-! ## Replacing a variable -/

/-- The variable at a position of a row is replaced by what another row says of it. -/
theorem substitute_keeps (linked : t.Linked) (nonzero : t.Nonzero)
    (at_i : t.content r i = some (v, factor)) {source : RowId} (apart : source ≠ r)
    (exists_source : source < t.rows.size) :
    (t.substitute r i source).Linked ∧ (t.substitute r i source).Nonzero ∧
      t.Edits r (t.substitute r i source) ∧ ∀ w, (t.substitute r i source).coeff r w =
        (if v = w then 0 else t.coeff r w) + factor * t.coeff source w := by
  obtain ⟨removed, removed_eq, linked₁, emptied⟩ := removeTerm_keeps linked at_i
  have nonzero₁ := emptied.nonzero nonzero nofun
  have edits₁ := emptied.edits
  obtain ⟨row, found, -⟩ := edits₁.frame.row (Array.getElem?_eq_getElem exists_source)
  have r_lt : r < removed.rows.size := by
    rw [edits₁.frame.size]
    exact lt_of_content at_i
  obtain ⟨added, positions, added_eq, linked₂, nonzero₂, edits₂, coeff₂⟩ :=
    addTerms_keeps row.terms linked₁ nonzero₁ (linked₁.maps r) r_lt
      (fun term member => by
        obtain ⟨k, at_k⟩ := occurs_iff.2 ⟨row, found, member⟩
        exact linked₁.lt_of_content at_k)
      (nonzero r v factor ⟨i, at_i⟩)
      (fun term member => nonzero₁ source _ _ (occurs_iff.2 ⟨row, found, member⟩))
  obtain ⟨linked₃, edits₃, occurs₃⟩ := compactRow_keeps linked₂ r
  have substituted : t.substitute r i source = added.compactRow r := by
    simp only [substitute, removed_eq, found, Option.map_some, Option.getD_some, added_eq]
  rw [substituted]
  refine ⟨linked₃, ?_, (edits₁.trans edits₂).trans edits₃, fun w => ?_⟩
  · intro q w d occurs
    by_cases same : q = r
    · subst same
      exact nonzero₂ q w d ((occurs₃ w d).1 occurs)
    · exact nonzero₂ q w d ((edits₃.occurs same).1 occurs)
  · have source_coeff : (LinearForm.ofEntries row.terms).coeff w = t.coeff source w := by
      rw [← edits₁.coeff linked linked₁ apart, coeff_eq found]
      rfl
    rw [coeff_congr linked₂ linked₃ (occurs₃ w), coeff₂, source_coeff]
    rw [emptied.coeff_removed linked linked₁ at_i]

end ArithDecide.SparseTableau
