import ArithDecide.Proofs.Linking

/-!
# Squashing out tombstones keeps the links

When the tombstones of a column are squashed out, the terms of its variable are told where their column
entries went (`SparseTableau.compactColumn_keeps`); when those of a row are, the column entries of its
terms are told where these went (`SparseTableau.compactRow_keeps`). Each is told of one move only, since
no two of them have the same pair.
-/

namespace ArithDecide.SparseTableau

variable {t u : SparseTableau} {r q : RowId} {v w : Var} {i j k : Nat} {c : Rat}

/-! ## Repointing -/

/-- A loop that changes what is stored under the key of each move: what is stored under a key in the end
depends on the move with that key, if there is one. -/
theorem get_foldl_repoint {S K A : Type} [DecidableEq K] (step : S → Nat × Nat → S)
    (get : S → K → Option A) (key : Nat → Option K) (put : Nat → A → A) (Stays : S → Prop)
    (stays : ∀ s move, Stays s → Stays (step s move))
    (get_step : ∀ s move κ, Stays s → get (step s move) κ =
      if key move.2 = some κ then (get s κ).map (put move.2) else get s κ)
    (apart : ∀ m n κ, key m = some κ → key n = some κ → m = n)
    (overwrite : ∀ n a, put n (put n a) = put n a) (moves : List (Nat × Nat)) (s : S)
    (start : Stays s) (κ : K) :
    (∀ move ∈ moves, key move.2 = some κ →
        get (moves.foldl step s) κ = (get s κ).map (put move.2)) ∧
      ((∀ move ∈ moves, key move.2 ≠ some κ) → get (moves.foldl step s) κ = get s κ) := by
  induction moves generalizing s with
  | nil => exact ⟨nofun, fun _ => rfl⟩
  | cons first rest ih =>
    obtain ⟨hit, missed⟩ := ih (step s first) (stays s first start)
    rw [List.foldl_cons]
    refine ⟨fun move member keyed => ?_, fun absent => ?_⟩
    · by_cases again : ∃ other ∈ rest, key other.2 = some κ
      · obtain ⟨other, in_rest, other_keyed⟩ := again
        rw [hit other in_rest other_keyed, get_step s first κ start,
          apart _ _ κ other_keyed keyed]
        split
        · rename_i first_keyed
          rw [apart _ _ κ first_keyed keyed, Option.map_map]
          exact congrArg (Option.map · (get s κ)) (funext (overwrite move.2))
        · rfl
      · have absent : ∀ other ∈ rest, key other.2 ≠ some κ := fun other in_rest other_keyed =>
          again ⟨other, in_rest, other_keyed⟩
        rcases List.mem_cons.1 member with rfl | in_rest
        · rw [missed absent, get_step s move κ start, if_pos keyed]
        · exact absurd keyed (absent move in_rest)
    · rw [missed fun move member => absent move (List.mem_cons_of_mem _ member),
        get_step s first κ start, if_neg (absent first List.mem_cons_self)]

/-! ## Squashing out the tombstones of a column -/

theorem repointTerm_columns (v : Var) (t : SparseTableau) (move : Nat × Nat) :
    (repointTerm v t move).columns = t.columns := by
  rw [repointTerm]
  split <;> rfl

theorem repointTerm_frame (v : Var) (t : SparseTableau) (move : Nat × Nat) :
    t.SameFrame (repointTerm v t move) := by
  rw [repointTerm]
  split
  · exact .refl t
  · exact frame_modifyTerm ..

theorem Tidy.repointTerm (tidy : t.Tidy) (v : Var) (move : Nat × Nat) :
    (repointTerm v t move).Tidy := by
  rw [SparseTableau.repointTerm]
  split
  · exact tidy
  · exact tidy.modifyTerm ..

/-- Telling a term the new position of its column entry changes no other term. -/
theorem term?_repointTerm (v : Var) (t : SparseTableau) (move : Nat × Nat) (key : RowId × Nat) :
    (repointTerm v t move).term? key.1 key.2 =
      if (t.place? v move.2).map (fun place => (place.row, place.rowIndex)) = some key then
        (t.term? key.1 key.2).map fun entry => { entry with columnIndex := move.2 }
      else t.term? key.1 key.2 := by
  obtain ⟨q, k⟩ := key
  rw [repointTerm]
  cases t.place? v move.2 with
  | none => simp
  | some place =>
    simp only [term?_modifyTerm, Option.map_some, Option.some.injEq, Prod.mk.injEq]
    by_cases same : q = place.row ∧ k = place.rowIndex
    · obtain ⟨rfl, rfl⟩ := same
      simp
    · rw [if_neg same, if_neg fun both => same ⟨both.1.symm, both.2.symm⟩]

/-- The tableau after the tombstones of a column were squashed out. -/
def compactedColumn (t : SparseTableau) (v : Var) (column : Slots ColumnEntry) : SparseTableau :=
  column.compact.1.foldl (repointTerm v)
    { t with columns := t.columns.setIfInBounds v column.compact.2 }

section

variable {column : Slots ColumnEntry}

theorem compactedColumn_columns :
    (t.compactedColumn v column).columns = t.columns.setIfInBounds v column.compact.2 := by
  refine List.foldlRecOn (motive := fun u : SparseTableau => u.columns = _) _ _ rfl ?_
  intro u same move _
  rw [repointTerm_columns, same]

theorem frame_compactedColumn : t.SameFrame (t.compactedColumn v column) := by
  refine List.foldlRecOn (motive := fun u : SparseTableau => t.SameFrame u) _ _ ?_ ?_
  · exact ⟨rfl, Array.size_setIfInBounds .., rfl, rfl, rfl, rfl⟩
  · exact fun u frame move _ => frame.trans (repointTerm_frame v u move)

theorem Tidy.compactedColumn (tidy : t.Tidy) (found : t.columns[v]? = some column) :
    (t.compactedColumn v column).Tidy := by
  refine List.foldlRecOn (motive := fun u : SparseTableau => u.Tidy) _ _ ?_ ?_
  · refine ⟨tidy.rows, fun {w other} at_w => ?_⟩
    rw [Array.getElem?_setIfInBounds] at at_w
    split at at_w
    · rw [if_pos (by grind), Option.some.injEq] at at_w
      exact at_w ▸ (tidy.columns found).compact
    · exact tidy.columns at_w
  · exact fun u tidy move _ => tidy.repointTerm v move

theorem place?_compactedColumn (found : t.columns[v]? = some column) (w : Var) (k : Nat) :
    (t.compactedColumn v column).place? w k =
      if w = v then (column.live[k]?).map Prod.snd else t.place? w k := by
  have lt := (Array.getElem?_eq_some_iff.1 found).1
  rw [← Slots.get?_compact, ← place?_setColumn lt, place?, compactedColumn_columns]
  rfl

theorem place?_of_live (found : t.columns[v]? = some column) {n : Nat} {place : ColumnEntry}
    (live : column.live[n]? = some (i, place)) : t.place? v i = some place := by
  rw [place?, found]
  exact Slots.mem_live.1 (List.mem_of_getElem? live)

/-- Which term is told of a move. -/
def termKey (column : Slots ColumnEntry) (n : Nat) : Option (RowId × Nat) :=
  (column.live[n]?).map fun slot => (slot.2.row, slot.2.rowIndex)

/-- No term is told of two moves. -/
theorem Linked.termKey_inj (linked : t.Linked) (found : t.columns[v]? = some column) {m n : Nat}
    {key : RowId × Nat} (at_m : termKey column m = some key) (at_n : termKey column n = some key) :
    m = n := by
  obtain ⟨⟨i, place⟩, live_m, rfl⟩ := Option.map_eq_some_iff.1 at_m
  obtain ⟨⟨j, other⟩, live_n, same⟩ := Option.map_eq_some_iff.1 at_n
  obtain ⟨entry, at_entry, -, rfl⟩ := linked.back (place?_of_live found live_m)
  obtain ⟨entry', at_entry', -, rfl⟩ := linked.back (place?_of_live found live_n)
  obtain ⟨same_row, same_index⟩ := Prod.mk.inj same
  rw [same_row, same_index, at_entry] at at_entry'
  cases at_entry'
  exact Slots.eq_of_live live_m live_n

/-- Squashing a column tells exactly the terms that it has entries for where these are now. -/
theorem term?_compactedColumn (linked : t.Linked) (found : t.columns[v]? = some column)
    (key : RowId × Nat) :
    (∀ n, termKey column n = some key → (t.compactedColumn v column).term? key.1 key.2 =
        (t.term? key.1 key.2).map fun entry => { entry with columnIndex := n }) ∧
      ((∀ n, termKey column n ≠ some key) →
        (t.compactedColumn v column).term? key.1 key.2 = t.term? key.1 key.2) := by
  have lt := (Array.getElem?_eq_some_iff.1 found).1
  have told := get_foldl_repoint (repointTerm v) (fun u (key : RowId × Nat) => u.term? key.1 key.2)
    (termKey column) (fun n (entry : RowEntry) => { entry with columnIndex := n })
    (fun u => u.columns = t.columns.setIfInBounds v column.compact.2)
    (fun u move same => (repointTerm_columns v u move).trans same)
    (fun u move key same => by
      rw [term?_repointTerm, place?, same, Array.getElem?_setIfInBounds, if_pos rfl, if_pos lt,
        Option.bind_some, Slots.get?_compact, Option.map_map]
      rfl)
    (fun m n key => linked.termKey_inj found) (fun _ _ => rfl) column.compact.1
    { t with columns := t.columns.setIfInBounds v column.compact.2 } rfl key
  refine ⟨fun n at_n => ?_, fun absent => told.2 fun move _ => absent move.2⟩
  obtain ⟨⟨i, place⟩, live, -⟩ := Option.map_eq_some_iff.1 at_n
  exact told.1 (i, n) (Slots.mem_moves.2 ⟨place, live⟩) at_n

/-- A term of the variable learns where its column entry went. -/
theorem term?_compactedColumn_of_var (linked : t.Linked) (found : t.columns[v]? = some column)
    {entry : RowEntry} (at_k : t.term? q k = some entry) (var : entry.var = v) :
    ∃ n, column.live[n]? = some (entry.columnIndex, ⟨q, k⟩) ∧
      (t.compactedColumn v column).term? q k = some { entry with columnIndex := n } := by
  have paired := linked.forth at_k
  rw [var, place?, found] at paired
  obtain ⟨n, live⟩ := List.mem_iff_getElem?.1 (Slots.mem_live.2 paired)
  refine ⟨n, live, ?_⟩
  rw [(term?_compactedColumn linked found (q, k)).1 n (by rw [termKey, live]; rfl), at_k]
  rfl

theorem term?_compactedColumn_of_ne (linked : t.Linked) (found : t.columns[v]? = some column)
    (other : ∀ entry, t.term? q k = some entry → entry.var ≠ v) :
    (t.compactedColumn v column).term? q k = t.term? q k := by
  refine (term?_compactedColumn linked found (q, k)).2 fun n told => ?_
  obtain ⟨⟨i, place⟩, live, same⟩ := Option.map_eq_some_iff.1 told
  obtain ⟨rfl, rfl⟩ := Prod.mk.inj same
  obtain ⟨entry, at_place, var, -⟩ := linked.back (place?_of_live found live)
  exact other entry at_place var

theorem content_compactedColumn (linked : t.Linked) (found : t.columns[v]? = some column)
    (q : RowId) (k : Nat) : (t.compactedColumn v column).content q k = t.content q k := by
  by_cases here : ∃ entry, t.term? q k = some entry ∧ entry.var = v
  · obtain ⟨entry, at_k, var⟩ := here
    obtain ⟨n, -, told⟩ := term?_compactedColumn_of_var linked found at_k var
    simp only [content, told, at_k, Option.map_some]
  · have other : ∀ entry, t.term? q k = some entry → entry.var ≠ v :=
      fun entry at_k var => here ⟨entry, at_k, var⟩
    simp only [content, term?_compactedColumn_of_ne linked found other]

/-- Squashing out the dead entries of a column keeps terms and column entries paired, as the terms are
told the new positions. -/
theorem Linked.compactedColumn (linked : t.Linked) (found : t.columns[v]? = some column) :
    (t.compactedColumn v column).Linked where
  toTidy := linked.toTidy.compactedColumn found
  forth {r k entry} at_k := by
    rw [place?_compactedColumn found]
    by_cases here : ∃ old, t.term? r k = some old ∧ old.var = v
    · obtain ⟨old, old_at, var⟩ := here
      obtain ⟨n, live, told⟩ := term?_compactedColumn_of_var linked found old_at var
      rw [told] at at_k
      cases at_k
      rw [if_pos var, live]
      rfl
    · have other : ∀ old, t.term? r k = some old → old.var ≠ v :=
        fun old old_at var => here ⟨old, old_at, var⟩
      rw [term?_compactedColumn_of_ne linked found other] at at_k
      rw [if_neg (other entry at_k)]
      exact linked.forth at_k
  back {w j place} at_j := by
    rw [place?_compactedColumn found] at at_j
    split at at_j
    · rename_i same
      obtain ⟨⟨i, place⟩, live, rfl⟩ := Option.map_eq_some_iff.1 at_j
      obtain ⟨entry, at_place, var, rfl⟩ := linked.back (place?_of_live found live)
      obtain ⟨n, live_n, told⟩ := term?_compactedColumn_of_var linked found at_place var
      exact ⟨_, told, var.trans same.symm, Slots.eq_of_live live_n live⟩
    · rename_i apart
      obtain ⟨entry, at_place, rfl, rfl⟩ := linked.back at_j
      have other : ∀ old, t.term? place.row place.rowIndex = some old → old.var ≠ v := by
        intro old at_old
        rw [at_place] at at_old
        cases at_old
        exact apart
      exact ⟨entry, (term?_compactedColumn_of_ne linked found other).trans at_place, rfl, rfl⟩
  distinct {r i j a b} at_i at_j same := by
    refine linked.distinct_content (v := a.var) (c := a.coeff) (d := b.coeff) (r := r) ?_ ?_
    · rw [← content_compactedColumn linked found, content, at_i]
      rfl
    · rw [← content_compactedColumn linked found, content, at_j, same]
      rfl

end

/-- Squashing out the tombstones of a column moves no term. -/
theorem compactColumn_keeps (linked : t.Linked) (v : Var) :
    (t.compactColumn v).Linked ∧ t.SameFrame (t.compactColumn v) ∧
      ∀ q k, (t.compactColumn v).content q k = t.content q k := by
  rw [compactColumn]
  cases found : t.columns[v]? with
  | none => exact ⟨linked, .refl t, fun _ _ => rfl⟩
  | some column =>
    simp only
    split
    · exact ⟨linked.compactedColumn found, frame_compactedColumn,
        content_compactedColumn linked found⟩
    · exact ⟨linked, .refl t, fun _ _ => rfl⟩

/-! ## Squashing out the tombstones of a row -/

theorem repointPlace_rows (r : RowId) (t : SparseTableau) (move : Nat × Nat) :
    (repointPlace r t move).rows = t.rows := by
  rw [repointPlace]
  split <;> rfl

theorem repointPlace_frame (r : RowId) (t : SparseTableau) (move : Nat × Nat) :
    t.SameFrame (repointPlace r t move) := by
  rw [repointPlace]
  split
  · exact .refl t
  · exact frame_modifyPlace ..

theorem Tidy.repointPlace (tidy : t.Tidy) (r : RowId) (move : Nat × Nat) :
    (repointPlace r t move).Tidy := by
  rw [SparseTableau.repointPlace]
  split
  · exact tidy
  · exact tidy.modifyPlace ..

/-- Telling a column entry the new position of its term changes no other entry. -/
theorem place?_repointPlace (r : RowId) (t : SparseTableau) (move : Nat × Nat) (key : Var × Nat) :
    (repointPlace r t move).place? key.1 key.2 =
      if (t.term? r move.2).map (fun entry => (entry.var, entry.columnIndex)) = some key then
        (t.place? key.1 key.2).map fun place => { place with rowIndex := move.2 }
      else t.place? key.1 key.2 := by
  obtain ⟨w, k⟩ := key
  rw [repointPlace]
  cases t.term? r move.2 with
  | none => simp
  | some entry =>
    simp only [place?_modifyPlace, Option.map_some, Option.some.injEq, Prod.mk.injEq]
    by_cases same : w = entry.var ∧ k = entry.columnIndex
    · obtain ⟨rfl, rfl⟩ := same
      simp
    · rw [if_neg same, if_neg fun both => same ⟨both.1.symm, both.2.symm⟩]

/-- The tableau after the tombstones of a row were squashed out. -/
def compactedRow (t : SparseTableau) (r : RowId) (row : SparseRow) : SparseTableau :=
  row.slots.compact.1.foldl (repointPlace r)
    { t with rows := t.rows.setIfInBounds r { row with slots := row.slots.compact.2 } }

section

variable {row : SparseRow}

theorem compactedRow_rows : (t.compactedRow r row).rows =
    t.rows.setIfInBounds r { row with slots := row.slots.compact.2 } := by
  refine List.foldlRecOn (motive := fun u : SparseTableau => u.rows = _) _ _ rfl ?_
  intro u same move _
  rw [repointPlace_rows, same]

theorem frame_compactedRow (found : t.rows[r]? = some row) :
    t.SameFrame (t.compactedRow r row) := by
  refine List.foldlRecOn (motive := fun u : SparseTableau => t.SameFrame u) _ _ ?_ ?_
  · exact ⟨heads_set found ⟨rfl, rfl⟩, rfl, rfl, rfl, rfl, rfl⟩
  · exact fun u frame move _ => frame.trans (repointPlace_frame r u move)

theorem Tidy.compactedRow (tidy : t.Tidy) (found : t.rows[r]? = some row) :
    (t.compactedRow r row).Tidy := by
  refine List.foldlRecOn (motive := fun u : SparseTableau => u.Tidy) _ _ ?_ ?_
  · refine ⟨fun {q other} at_q => ?_, tidy.columns⟩
    rw [Array.getElem?_setIfInBounds] at at_q
    split at at_q
    · rw [if_pos (by grind), Option.some.injEq] at at_q
      exact at_q ▸ (tidy.rows found).compact
    · exact tidy.rows at_q
  · exact fun u tidy move _ => tidy.repointPlace r move

theorem term?_compactedRow (found : t.rows[r]? = some row) (q : RowId) (k : Nat) :
    (t.compactedRow r row).term? q k =
      if q = r then (row.slots.live[k]?).map Prod.snd else t.term? q k := by
  have lt := (Array.getElem?_eq_some_iff.1 found).1
  have set := term?_setRow { row with slots := row.slots.compact.2 } lt q k
  rw [← Slots.get?_compact, ← set, term?, compactedRow_rows]
  rfl

theorem term?_of_live (found : t.rows[r]? = some row) {n : Nat} {entry : RowEntry}
    (live : row.slots.live[n]? = some (i, entry)) : t.term? r i = some entry := by
  rw [term?, found]
  exact Slots.mem_live.1 (List.mem_of_getElem? live)

/-- Which column entry is told of a move. -/
def placeKey (row : SparseRow) (n : Nat) : Option (Var × Nat) :=
  (row.slots.live[n]?).map fun slot => (slot.2.var, slot.2.columnIndex)

/-- No column entry is told of two moves. -/
theorem Linked.placeKey_inj (linked : t.Linked) (found : t.rows[r]? = some row) {m n : Nat}
    {key : Var × Nat} (at_m : placeKey row m = some key) (at_n : placeKey row n = some key) :
    m = n := by
  obtain ⟨⟨i, a⟩, live_m, rfl⟩ := Option.map_eq_some_iff.1 at_m
  obtain ⟨⟨j, b⟩, live_n, same⟩ := Option.map_eq_some_iff.1 at_n
  have same_index := linked.distinct (term?_of_live found live_m) (term?_of_live found live_n)
    (Prod.mk.inj same).1.symm
  subst same_index
  exact Slots.eq_of_live live_m live_n

/-- Squashing a row tells exactly the column entries of its terms where these are now. -/
theorem place?_compactedRow (linked : t.Linked) (found : t.rows[r]? = some row)
    (key : Var × Nat) :
    (∀ n, placeKey row n = some key → (t.compactedRow r row).place? key.1 key.2 =
        (t.place? key.1 key.2).map fun place => { place with rowIndex := n }) ∧
      ((∀ n, placeKey row n ≠ some key) →
        (t.compactedRow r row).place? key.1 key.2 = t.place? key.1 key.2) := by
  have lt := (Array.getElem?_eq_some_iff.1 found).1
  have told := get_foldl_repoint (repointPlace r) (fun u (key : Var × Nat) => u.place? key.1 key.2)
    (placeKey row) (fun n (place : ColumnEntry) => { place with rowIndex := n })
    (fun u => u.rows = t.rows.setIfInBounds r { row with slots := row.slots.compact.2 })
    (fun u move same => (repointPlace_rows r u move).trans same)
    (fun u move key same => by
      rw [place?_repointPlace, term?, same, Array.getElem?_setIfInBounds, if_pos rfl, if_pos lt,
        Option.bind_some, Slots.get?_compact, Option.map_map]
      rfl)
    (fun m n key => linked.placeKey_inj found) (fun _ _ => rfl) row.slots.compact.1
    { t with rows := t.rows.setIfInBounds r { row with slots := row.slots.compact.2 } } rfl key
  refine ⟨fun n at_n => ?_, fun absent => told.2 fun move _ => absent move.2⟩
  obtain ⟨⟨i, entry⟩, live, -⟩ := Option.map_eq_some_iff.1 at_n
  exact told.1 (i, n) (Slots.mem_moves.2 ⟨entry, live⟩) at_n

/-- A column entry of the row learns where its term went. -/
theorem place?_compactedRow_of_row (linked : t.Linked) (found : t.rows[r]? = some row)
    {place : ColumnEntry} (at_k : t.place? w k = some place) (in_row : place.row = r) :
    ∃ n entry, row.slots.live[n]? = some (place.rowIndex, entry) ∧ entry.var = w ∧
      entry.columnIndex = k ∧
      (t.compactedRow r row).place? w k = some { place with rowIndex := n } := by
  obtain ⟨entry, at_place, var, index⟩ := linked.back at_k
  rw [in_row, term?, found] at at_place
  obtain ⟨n, live⟩ := List.mem_iff_getElem?.1 (Slots.mem_live.2 at_place)
  refine ⟨n, entry, live, var, index, ?_⟩
  rw [(place?_compactedRow linked found (w, k)).1 n (by rw [placeKey, live, ← var, ← index]; rfl),
    at_k]
  rfl

theorem place?_compactedRow_of_ne (linked : t.Linked) (found : t.rows[r]? = some row)
    (other : ∀ place, t.place? w k = some place → place.row ≠ r) :
    (t.compactedRow r row).place? w k = t.place? w k := by
  refine (place?_compactedRow linked found (w, k)).2 fun n told => ?_
  obtain ⟨⟨i, entry⟩, live, same⟩ := Option.map_eq_some_iff.1 told
  obtain ⟨rfl, rfl⟩ := Prod.mk.inj same
  exact other _ (linked.forth (term?_of_live found live)) rfl

/-- Squashing out the dead entries of a row keeps terms and column entries paired, as the columns are
told the new positions. -/
theorem Linked.compactedRow (linked : t.Linked) (found : t.rows[r]? = some row) :
    (t.compactedRow r row).Linked where
  toTidy := linked.toTidy.compactedRow found
  forth {q k entry} at_k := by
    rw [term?_compactedRow found] at at_k
    split at at_k
    · rename_i same
      obtain ⟨⟨i, entry⟩, live, rfl⟩ := Option.map_eq_some_iff.1 at_k
      have at_i := term?_of_live found live
      obtain ⟨n, other, live_n, var, index, told⟩ :=
        place?_compactedRow_of_row linked found (linked.forth at_i) rfl
      rw [told, Slots.eq_of_live live_n live, same]
    · rename_i apart
      have paired := linked.forth at_k
      rw [place?_compactedRow_of_ne linked found, paired]
      rintro place at_place in_row
      rw [paired] at at_place
      cases at_place
      exact apart in_row
  back {w j place} at_j := by
    by_cases here : ∃ old, t.place? w j = some old ∧ old.row = r
    · obtain ⟨old, at_old, in_row⟩ := here
      obtain ⟨n, entry, live, var, index, told⟩ :=
        place?_compactedRow_of_row linked found at_old in_row
      rw [told] at at_j
      cases at_j
      refine ⟨entry, ?_, var, index⟩
      rw [term?_compactedRow found, if_pos in_row, live]
      rfl
    · have other : ∀ old, t.place? w j = some old → old.row ≠ r :=
        fun old at_old in_row => here ⟨old, at_old, in_row⟩
      rw [place?_compactedRow_of_ne linked found other] at at_j
      rw [term?_compactedRow found, if_neg (other place at_j)]
      exact linked.back at_j
  distinct {q i j a b} at_i at_j same := by
    rw [term?_compactedRow found] at at_i at_j
    split at at_i
    · rename_i in_row
      rw [if_pos in_row] at at_j
      obtain ⟨⟨m, a⟩, live_i, rfl⟩ := Option.map_eq_some_iff.1 at_i
      obtain ⟨⟨n, b⟩, live_j, rfl⟩ := Option.map_eq_some_iff.1 at_j
      have same_index := linked.distinct (term?_of_live found live_i) (term?_of_live found live_j)
        same
      subst same_index
      exact Slots.eq_of_live live_i live_j
    · rename_i apart
      rw [if_neg apart] at at_j
      exact linked.distinct at_i at_j same

end

theorem occurs_compactedRow {row : SparseRow} (found : t.rows[r]? = some row) :
    (t.compactedRow r row).Occurs r v c ↔ t.Occurs r v c := by
  simp only [Occurs, content_eq_some_iff, term?_compactedRow found, if_true]
  constructor
  · rintro ⟨n, entry, at_n, var, coeff⟩
    obtain ⟨⟨i, entry⟩, live, rfl⟩ := Option.map_eq_some_iff.1 at_n
    exact ⟨i, entry, term?_of_live found live, var, coeff⟩
  · rintro ⟨i, entry, at_i, var, coeff⟩
    rw [term?, found] at at_i
    obtain ⟨n, live⟩ := List.mem_iff_getElem?.1 (Slots.mem_live.2 at_i)
    exact ⟨n, entry, by rw [live]; rfl, var, coeff⟩

/-- Squashing out the tombstones of a row moves the terms of this row only. -/
theorem compactRow_keeps (linked : t.Linked) (r : RowId) :
    (t.compactRow r).Linked ∧ t.Edits r (t.compactRow r) ∧
      ∀ v c, (t.compactRow r).Occurs r v c ↔ t.Occurs r v c := by
  rw [compactRow]
  cases found : t.rows[r]? with
  | none => exact ⟨linked, .refl t r, fun _ _ => Iff.rfl⟩
  | some row =>
    simp only
    split
    · refine ⟨linked.compactedRow found, ⟨frame_compactedRow found, fun q apart i => ?_⟩,
        fun v c => occurs_compactedRow found⟩
      exact congrArg (Option.map _) ((term?_compactedRow found q i).trans (if_neg apart))
    · exact ⟨linked, .refl t r, fun _ _ => Iff.rfl⟩

end ArithDecide.SparseTableau
