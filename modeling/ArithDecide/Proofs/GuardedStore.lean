import Mathlib
import ArithDecide.Guarded.Store
import ArithDecide.Proofs.Failing
import ArithDecide.Proofs.StoredSessions

/-!
# The store never fails

In a session of allowed calls every condition that the store relies on holds
(`TableauSession.Kept.guarded_step`). Terms are removed where a map of positions, a list of live positions
or a column says that they are, and these are exact while a row is worked on. That no row comes to mention
its own base follows from reduced forms: what is substituted mentions no base of its target.
-/

namespace ArithDecide

theorem demand_of {condition : Prop} [Decidable condition] (holds : condition) (failure : Failure) :
    demand condition failure = .ok () :=
  if_pos holds

theorem ok_bind {ε α β : Type} (a : α) (f : α → Except ε β) : (Except.ok a >>= f) = f a := rfl

namespace SparseTableau

variable {s t u : SparseTableau} {r q : RowId} {v w entering : Var} {i k n : Nat} {c d factor : Rat}
  {positions : PositionMap}

/-! ## Entries -/

theorem guarded_insertTerm (r_lt : r < t.rows.size) (v_lt : v < t.columns.size) (c : Rat) :
    Guarded.insertTerm t r v c = .ok (t.insertTerm r v c) := by
  rw [Guarded.insertTerm, demand_of ⟨r_lt, v_lt⟩]
  rfl

theorem guarded_removeTerm (at_i : t.content r i = some (v, c)) :
    Guarded.removeTerm t r i = .ok (t.removeTerm r i) := by
  obtain ⟨entry, found, -, -⟩ := content_eq_some_iff.1 at_i
  rw [Guarded.removeTerm, demand_of (by rw [found]; rfl)]
  rfl

theorem guarded_compactRow (r_lt : r < t.rows.size) :
    Guarded.compactRow t r = .ok (t.compactRow r) := by
  rw [Guarded.compactRow, Array.getElem?_eq_getElem r_lt]
  simp only
  rw [demand_of]
  · rfl
  · rintro ⟨i, n⟩ moved
    obtain ⟨a, live⟩ := Slots.mem_moves.1 moved
    exact Slots.le_of_live live

theorem guarded_removeTerms {positions : List Nat} (linked : t.Linked) (nodup : positions.Nodup)
    (present : ∀ i ∈ positions, t.content r i ≠ none) :
    positions.foldlM (fun t i => do return (← Guarded.removeTerm t r i).2) t =
      .ok (positions.foldl (fun t i => (t.removeTerm r i).2) t) := by
  induction positions generalizing t with
  | nil => rfl
  | cons i rest ih =>
    obtain ⟨absent, nodup⟩ := List.nodup_cons.1 nodup
    obtain ⟨⟨v, c⟩, at_i⟩ := Option.ne_none_iff_exists'.1 (present i List.mem_cons_self)
    obtain ⟨removed, removed_eq, linked', emptied⟩ := removeTerm_keeps linked at_i
    rw [List.foldlM_cons, List.foldl_cons, guarded_removeTerm at_i, removed_eq]
    refine ih linked' nodup fun k member => ?_
    rw [emptied.elsewhere fun same => absent (same ▸ member)]
    exact present k (List.mem_cons_of_mem _ member)

theorem guarded_clearRow (linked : t.Linked) (r : RowId) :
    Guarded.clearRow t r = .ok (t.clearRow r) :=
  guarded_removeTerms linked (nodup_positions t r) fun _ => mem_positions.1

/-- Filling a row does not fail: no term is for a variable that has one already. -/
theorem guarded_fillRow {terms : List (Var × Rat)} (linked : t.Linked) (r_lt : r < t.rows.size)
    (distinct : (terms.map Prod.fst).Nodup) (lt : ∀ term ∈ terms, term.1 < t.columns.size)
    (absent : ∀ term ∈ terms, ∀ d, ¬t.Occurs r term.1 d) :
    Guarded.fillRow t r terms = .ok (t.fillRow r terms) := by
  rw [Guarded.fillRow, fillRow]
  induction terms generalizing t with
  | nil => rfl
  | cons term rest ih =>
    obtain ⟨other, distinct⟩ := List.nodup_cons.1 distinct
    have new := absent term List.mem_cons_self
    have term_lt := lt term List.mem_cons_self
    obtain ⟨p, u, inserted, linked', free, replaces⟩ := insertTerm_keeps linked r_lt term_lt new term.2
    rw [List.foldlM_cons, List.foldl_cons, guarded_insertTerm r_lt term_lt, inserted]
    refine ih linked' (by rwa [replaces.frame.size]) distinct (fun later member => ?_)
      fun later member d occurs => ?_
    · rw [replaces.frame.columns]
      exact lt later (List.mem_cons_of_mem _ member)
    · obtain ⟨k, at_k⟩ := occurs
      rw [replaces.contents] at at_k
      split at at_k
      · obtain ⟨same, -⟩ := Prod.mk.inj (Option.some.inj at_k)
        exact other (List.mem_map.2 ⟨later, member, same.symm⟩)
      · exact absent later (List.mem_cons_of_mem _ member) d ⟨k, at_k⟩

/-! ## Substitution -/

/-- The bases stay when only terms change. -/
theorem SameFrame.base_ne (frame : t.SameFrame u) {P : Var → Prop}
    (all : ∀ row ∈ t.rows[r]?, P row.base) : ∀ row ∈ u.rows[r]?, P row.base := by
  intro row found
  obtain ⟨old, old_at, base, -⟩ := frame.symm.row found
  exact base ▸ all old old_at

/-- Adding a multiple of one term does not fail: where the positions point to an entry there is one, and
else a new one is put in. -/
theorem guarded_addTerm (maps : t.Maps r positions) (r_lt : r < t.rows.size)
    (v_lt : v < t.columns.size) (own : ∀ row ∈ t.rows[r]?, v ≠ row.base) :
    Guarded.addTerm r factor (t, positions) (v, c) = .ok (addTerm r factor (t, positions) (v, c)) := by
  rw [Guarded.addTerm, addTerm]
  cases known : positions.lookup v with
  | none =>
    simp only
    rw [demand_of own, guarded_insertTerm r_lt v_lt]
    rfl
  | some p =>
    obtain ⟨d, at_p⟩ := (maps v p).1 known
    obtain ⟨entry, found, rfl, rfl⟩ := content_eq_some_iff.1 at_p
    simp only [found]
    split
    · rw [guarded_removeTerm (addToCoeff_replaces found (factor * c)).here]
      rfl
    · rfl

/-- Adding a multiple of a row term by term does not fail. The induction is on the terms, with positions
that stay exact. -/
theorem guarded_addTerms (terms : List (Var × Rat)) (linked : t.Linked) (nonzero : t.Nonzero)
    (maps : t.Maps r positions) (r_lt : r < t.rows.size)
    (lt : ∀ term ∈ terms, term.1 < t.columns.size) (factor_ne : factor ≠ 0)
    (terms_ne : ∀ term ∈ terms, term.2 ≠ 0)
    (own : ∀ term ∈ terms, ∀ row ∈ t.rows[r]?, term.1 ≠ row.base) :
    terms.foldlM (Guarded.addTerm r factor) (t, positions) =
      .ok (terms.foldl (addTerm r factor) (t, positions)) := by
  induction terms generalizing t positions with
  | nil => rfl
  | cons term rest ih =>
    have term_lt := lt term List.mem_cons_self
    obtain ⟨u, later, added, linked', nonzero', maps', edits, -⟩ :=
      addTerm_keeps linked nonzero maps r_lt term_lt
        (mul_ne_zero factor_ne (terms_ne term List.mem_cons_self))
    rw [List.foldlM_cons, List.foldl_cons, guarded_addTerm maps r_lt term_lt
      (own term List.mem_cons_self), added]
    refine ih linked' nonzero' maps' (by rwa [edits.frame.size]) (fun other member => ?_)
      (fun other member => terms_ne other (List.mem_cons_of_mem _ member)) fun other member =>
        edits.frame.base_ne (own other (List.mem_cons_of_mem _ member))
    rw [edits.frame.columns]
    exact lt other (List.mem_cons_of_mem _ member)

/-- Replacing a variable in one row by another row does not fail: the entry exists, and the row has no
term for its own base. -/
theorem guarded_substitute (linked : t.Linked) (nonzero : t.Nonzero)
    (at_i : t.content r i = some (v, factor)) {source : RowId} (apart : source ≠ r)
    (exists_source : source < t.rows.size)
    (own : ∀ row ∈ t.rows[r]?, t.coeff source row.base = 0) :
    Guarded.substitute t r i source = .ok (t.substitute r i source) := by
  obtain ⟨removed, removed_eq, linked₁, emptied⟩ := removeTerm_keeps linked at_i
  have nonzero₁ := emptied.nonzero nonzero nofun
  have edits₁ := emptied.edits
  obtain ⟨row, found, -⟩ := edits₁.frame.row (Array.getElem?_eq_getElem exists_source)
  have r_lt : r < removed.rows.size := by
    rw [edits₁.frame.size]
    exact lt_of_content at_i
  have occurs {term : Var × Rat} (member : term ∈ row.terms) : removed.Occurs source term.1 term.2 :=
    occurs_iff.2 ⟨row, found, member⟩
  have lt : ∀ term ∈ row.terms, term.1 < removed.columns.size := fun term member =>
    linked₁.lt_of_content (occurs member).choose_spec
  have factor_ne := nonzero r v factor ⟨i, at_i⟩
  have terms_ne : ∀ term ∈ row.terms, term.2 ≠ 0 := fun term member =>
    nonzero₁ source _ _ (occurs member)
  have own₁ : ∀ term ∈ row.terms, ∀ row ∈ removed.rows[r]?, term.1 ≠ row.base := by
    rintro term member target at_r same
    refine terms_ne term member ?_
    rw [← coeff_of_occurs linked₁ (occurs member), edits₁.coeff linked linked₁ apart, same]
    exact edits₁.frame.base_ne (P := fun base => t.coeff source base = 0) own target at_r
  obtain ⟨added, later, added_eq, -, -, edits₂, -⟩ := addTerms_keeps row.terms linked₁ nonzero₁
    (linked₁.maps r) r_lt lt factor_ne terms_ne
  have guarded := guarded_addTerms row.terms linked₁ nonzero₁ (linked₁.maps r) r_lt lt factor_ne
    terms_ne own₁
  have compacted : Guarded.compactRow added r = .ok (added.compactRow r) :=
    guarded_compactRow (by rwa [edits₂.frame.size])
  rw [Guarded.substitute, substitute, guarded_removeTerm at_i, removed_eq]
  simp only [ok_bind, found, Option.map_some, Option.getD_some, guarded, added_eq, compacted]

/-! ## Normalizing -/

/-- Replacing the bases in a row does not fail, however many of them are left to be replaced. -/
theorem RowIs.guarded_reduceRow {s : SparseTableau} {form : LinearForm} (is : s.RowIs r form t)
    (consistent : s.Consistent) (well : s.view.WellFormed n) (early : s.Early r form) (count : Nat) :
    Guarded.reduceRow r count t = .ok (SparseTableau.reduceRow r count t) := by
  induction count generalizing t form with
  | zero => rfl
  | succ count ih =>
    rw [Guarded.reduceRow, SparseTableau.reduceRow]
    cases found : t.baseTerm? r with
    | none => rfl
    | some base =>
      obtain ⟨i, source⟩ := base
      obtain ⟨row, at_source, before, -, is'⟩ := is.substitute consistent early found
      obtain ⟨v, c, at_i, -, apart⟩ := baseTerm?_eq_some found
      have source_lt : source < t.rows.size := before.trans (lt_of_content at_i)
      have own : ∀ target ∈ t.rows[r]?, t.coeff source target.base = 0 := by
        intro target at_r
        obtain ⟨old, old_at, base, -⟩ := is.edits.frame.symm.row at_r
        have at_view : s.view.get? r = some old.view := by
          rw [view_get?, old_at]
          rfl
        rw [is.edits.coeff consistent.toLinked is.linked apart, ← base, ← coeff_view at_source]
        exact well.separate at_source at_view (.inr before.le)
      simp only
      rw [guarded_substitute is.linked is.nonzero at_i apart source_lt own, ok_bind,
        ih is' (early.eliminate well at_source before)]
      rfl

/-- Normalising a row does not fail. -/
theorem guarded_normalize (consistent : t.Consistent) (well : t.view.WellFormed n) (r : RowId) :
    Guarded.normalize t r = .ok (t.normalize r) := by
  rw [Guarded.normalize, normalize]
  cases at_r : (t.rows[r]?).filter SparseRow.pending with
  | none => rfl
  | some row =>
    obtain ⟨at_r, -⟩ := Option.filter_eq_some_iff.1 at_r
    have found : t.view.get? r = some row.view := by
      rw [view_get?, at_r]
      rfl
    have early : t.Early r row.view.form := fun q other late at_q =>
      well.separate found at_q (.inr late)
    simp only
    rw [(RowIs.refl consistent found).guarded_reduceRow consistent well early]
    rfl

/-! ## Pivoting -/

/-- Replacing a variable in all rows of a list does not fail. The list is of entries that exist before
the first replacement, and each one leaves the rows of the others alone. -/
theorem guarded_substituteAll {targets : List (Nat × ColumnEntry)} (linked : t.Linked)
    (nonzero : t.Nonzero) (r_lt : r < t.rows.size)
    (present : ∀ target ∈ targets, ∃ c, t.content target.2.row target.2.rowIndex = some (v, c))
    (apart : ∀ target ∈ targets, r ≠ target.2.row)
    (distinct : (targets.map fun target => target.2.row).Nodup)
    (own : ∀ target ∈ targets, ∀ row ∈ t.rows[target.2.row]?, t.coeff r row.base = 0) :
    targets.foldlM (fun t target => do
      demand (target.2.row ≠ r) .ownRow
      Guarded.substitute t target.2.row target.2.rowIndex r) t =
    .ok (targets.foldl (fun t target => t.substitute target.2.row target.2.rowIndex r) t) := by
  induction targets generalizing t with
  | nil => rfl
  | cons first rest ih =>
    obtain ⟨c, at_first⟩ := present first List.mem_cons_self
    obtain ⟨absent, distinct⟩ := List.nodup_cons.1 distinct
    have first_apart := apart first List.mem_cons_self
    have later {target : Nat × ColumnEntry} (member : target ∈ rest) :
        target.2.row ≠ first.2.row := fun same =>
      absent (List.mem_map.2 ⟨target, member, same⟩)
    obtain ⟨linked₁, nonzero₁, edits, -⟩ :=
      substitute_keeps linked nonzero at_first first_apart r_lt
    rw [List.foldlM_cons, List.foldl_cons, demand_of first_apart.symm, ok_bind,
      guarded_substitute linked nonzero at_first first_apart r_lt
        (own first List.mem_cons_self), ok_bind]
    refine ih linked₁ nonzero₁ (by rwa [edits.frame.size]) (fun target member => ?_)
      (fun target member => apart target (List.mem_cons_of_mem _ member)) distinct
      fun target member => edits.frame.base_ne
        (P := fun base => (t.substitute first.2.row first.2.rowIndex r).coeff r base = 0)
        fun row at_target => ?_
    · rw [edits.others _ (later member)]
      exact present target (List.mem_cons_of_mem _ member)
    · rw [edits.coeff linked linked₁ first_apart]
      exact own target (List.mem_cons_of_mem _ member) row at_target

/-- Up to the substitutions nothing is left to be checked. -/
theorem guarded_pivotRow_eq (consistent : t.Consistent) {row : SparseRow}
    (at_r : t.rows[r]? = some row) (at_i : row.positionOf? entering = some i)
    (at_content : t.content r i = some (entering, c))
    (columns : (t.solveRow r i row.base).columns.size = t.columns.size) :
    Guarded.pivotRow t r entering =
      let exchanged := (t.solveRow r i row.base).exchangeBase r row.base entering
      (exchanged.targets entering).foldlM (fun t target => do
        demand (target.2.row ≠ r) .ownRow
        Guarded.substitute t target.2.row target.2.rowIndex r) exchanged := by
  have c_ne : c ≠ 0 := consistent.nonzero r entering c ⟨i, at_content⟩
  obtain ⟨removed, removed_eq, -, emptied⟩ := removeTerm_keeps consistent.toLinked at_content
  have r_lt : r < removed.rows.size := by
    rw [emptied.frame.size]
    exact lt_of_content at_content
  have base_lt : row.base < removed.columns.size := by
    rw [emptied.frame.columns]
    exact consistent.base_lt at_r
  have inserted := guarded_insertTerm (t := removed.scaleRow r (-(1 / c))) (r := r) (v := row.base)
    (by rwa [(frame_scaleRow removed r _).size]) base_lt (1 / c)
  rw [Guarded.pivotRow, at_r]
  simp only [at_i]
  rw [guarded_removeTerm at_content, removed_eq, ok_bind]
  simp only
  have solved_eq : t.solveRow r i row.base =
      ((removed.scaleRow r (-(1 / c))).insertTerm r row.base (1 / c)).2 := by
    rw [solveRow, removed_eq]
  have column_lt : entering < (t.solveRow r i row.base).columns.size :=
    Nat.lt_of_lt_of_eq (consistent.lt_of_content at_content) columns.symm
  obtain ⟨column, at_entering⟩ : ∃ column, (t.solveRow r i row.base).columns[entering]? = some column :=
    ⟨_, Array.getElem?_eq_getElem column_lt⟩
  rw [demand_of c_ne, ok_bind, targets, exchangeBase, at_entering]
  rw [solved_eq] at at_entering ⊢
  refine (congrArg (· >>= _) inserted).trans ?_
  simp only [ok_bind, at_entering]
  rfl

/-- Exchanging the base of a row does not fail: the entering variable occurs in it, with a coefficient
that can be divided by, and in the rows that its column lists. -/
theorem guarded_pivotRow (consistent : t.Consistent) (well : t.view.WellFormed n)
    (settled : t.view.Normalized) {row : Row} (found : t.view.get? r = some row)
    (occurs : row.form.coeff entering ≠ 0) :
    Guarded.pivotRow t r entering = .ok (t.pivotRow r entering) := by
  have own := well.own found
  have free := consistent.rowOf?_eq_none well settled found occurs
  obtain ⟨stored, at_r, rfl⟩ := get?_view found
  obtain ⟨i, c, at_i, at_content⟩ := consistent.exists_position at_r occurs
  have r_lt : r < t.rows.size := lt_of_content at_content
  obtain ⟨linked₂, nonzero₂, edits, coeff₂⟩ : (t.solveRow r i stored.base).Linked ∧
      (t.solveRow r i stored.base).Nonzero ∧ t.Edits r (t.solveRow r i stored.base) ∧
      ∀ w, (t.solveRow r i stored.base).coeff r w = (stored.view.solveFor entering).form.coeff w :=
    solveRow_keeps consistent.toLinked consistent.nonzero found at_content own
      (consistent.base_lt at_r)
  have consistent₃ := consistent_exchangeBase consistent edits.frame linked₂ nonzero₂ at_r
    (consistent.lt_of_content at_content) free
  have coeff₃ := coeff_exchangeBase linked₂ r stored.base entering
  have enters : stored.view.base ≠ entering := fun same => occurs (same ▸ own)
  generalize exchanged_eq : (t.solveRow r i stored.base).exchangeBase r stored.base entering =
    exchanged at consistent₃ coeff₃
  have linked₃ := consistent₃.toLinked
  have apart : ∀ target ∈ exchanged.targets entering, r ≠ target.2.row := by
    intro target member same
    obtain ⟨d, at_target⟩ := linked₃.content_of_target member
    rw [← same] at at_target
    refine consistent₃.nonzero _ _ _ ⟨_, at_target⟩ ?_
    rw [← coeff_of_occurs linked₃ ⟨_, at_target⟩, coeff₃, coeff₂, Row.coeff_solveFor, if_pos rfl,
      zero_add]
    exact if_neg enters
  -- the bases of the other rows are none of the variables of the solved row
  have others_own : ∀ target ∈ exchanged.targets entering,
      ∀ other ∈ exchanged.rows[target.2.row]?, exchanged.coeff r other.base = 0 := by
    intro target member other at_other
    have ne := apart target member
    rw [← exchanged_eq, exchangeBase, Array.getElem?_modify, if_neg ne] at at_other
    obtain ⟨old, old_at, base, -⟩ := edits.frame.symm.row at_other
    have at_view : t.view.get? target.2.row = some old.view := by
      rw [view_get?, old_at]
      rfl
    have stays : stored.base ≠ other.base := fun same =>
      ne (well.distinct found at_view (same.trans base.symm))
    have absent : stored.view.form.coeff other.base = 0 := base ▸ well.apart settled found at_view
    rw [coeff₃, coeff₂, Row.coeff_solveFor, absent, mul_zero, ite_self, zero_add]
    exact if_neg stays
  have substituted := guarded_substituteAll linked₃ consistent₃.nonzero
    (by rw [← exchanged_eq, exchangeBase, Array.size_modify, edits.frame.size]; exact r_lt)
    (fun _ => linked₃.content_of_target) apart (linked₃.nodup_targets entering) others_own
  rw [guarded_pivotRow_eq consistent at_r at_i at_content edits.frame.columns,
    pivotRow_eq at_r at_i, exchanged_eq]
  exact substituted

theorem guarded_pivot (consistent : t.Consistent) (well : t.view.WellFormed n)
    (settled : t.view.Normalized) {row : Row} (found : t.view.get? r = some row)
    (occurs : row.form.coeff entering ≠ 0) :
    Guarded.pivot t r entering = .ok (t.pivot r entering) := by
  obtain ⟨stored, at_r, -⟩ := get?_view found
  rw [Guarded.pivot, pivot, at_r]
  simp only
  rw [guarded_pivotRow consistent well settled found occurs]
  rfl

/-! ## Adding a row -/

theorem guarded_addRow (consistent : t.Consistent) {base : Var} {entries : List (Var × Rat)}
    (fresh : t.isFresh base = true)
    (ok : ∀ entry ∈ entries, entry.1 ≠ base ∧ entry.1 < t.numVars) :
    Guarded.addRow t base entries = .ok (t.addRow base entries) := by
  have filled : Guarded.fillRow (t.withRow base) t.rows.size (mergedEntries entries) =
      .ok ((t.withRow base).fillRow t.rows.size (mergedEntries entries)) := by
    refine guarded_fillRow (consistent.toLinked.withRow base) (by simp [withRow])
      (nodup_mergedEntries entries) (fun term member => ?_) fun term _ d occurs =>
        not_occurs_size t _ d ((occurs_withRow t base).1 occurs)
    obtain ⟨entry, in_entries, same⟩ := List.mem_map.1 (mem_of_mem_mergedEntries member)
    exact same ▸ (ok entry in_entries).2
  rw [Guarded.addRow, demand_of fresh, ok_bind, demand_of fun entry member => (ok entry member).1,
    ok_bind]
  exact congrArg (· >>= _) filled

/-! ## Going back -/

theorem guarded_removeLastRow (consistent : t.Consistent) (last : r + 1 = t.rows.size) :
    Guarded.removeLastRow t r = .ok (t.removeLastRow r) := by
  have r_lt : r < t.rows.size := last ▸ Nat.lt_succ_self r
  have found : t.rows[r]? = some t.rows[r] := Array.getElem?_eq_getElem r_lt
  rw [Guarded.removeLastRow, demand_of last, ok_bind, guarded_clearRow consistent.toLinked, ok_bind,
    removeLastRow, found]
  rfl

theorem guarded_replaceTerms (consistent : t.Consistent) (r_lt : r < t.rows.size)
    {terms : List (Var × Rat)} (storable : Storable t.numVars terms) :
    Guarded.replaceTerms t r terms = .ok (t.replaceTerms r terms) := by
  obtain ⟨linked, -, edits, empty⟩ := clearRow_keeps consistent.toLinked consistent.nonzero r
  have filled : Guarded.fillRow (t.clearRow r) r terms = .ok ((t.clearRow r).fillRow r terms) := by
    refine guarded_fillRow linked (by rwa [edits.frame.size]) storable.distinct
      (fun term member => ?_) fun term _ d ⟨k, at_k⟩ => ?_
    · rw [edits.frame.columns]
      exact storable.lt term member
    · rw [empty] at at_k
      cases at_k
  rw [Guarded.replaceTerms, guarded_clearRow consistent.toLinked, ok_bind, filled]
  rfl

/-- Undoing a change does not fail where it is known to be reversible. -/
theorem guarded_undo (consistent : t.Consistent) (well : t.view.WellFormed t.numVars)
    {change : SparseChange} (reversible : Reversible t.numVars t.view.rows change) :
    Guarded.undo t change = .ok (t.undo change) := by
  cases change with
  | addRow r =>
    refine guarded_removeLastRow consistent ?_
    rw [show r + 1 = t.view.rows.size from reversible, view, Array.size_map]
  | pivot r leaving =>
    obtain ⟨settled, row, found, occurs⟩ := reversible
    exact guarded_pivotRow consistent well (fun q other at_q =>
      settled other (Array.mem_of_getElem? at_q)) found occurs
  | normalize r terms =>
    obtain ⟨lt, storable⟩ := reversible
    rw [view, Array.size_map] at lt
    exact guarded_replaceTerms consistent lt storable

theorem Retrace.guarded_foldlM {changes : List SparseChange} {back : Array Row}
    (retrace : Retrace t.numVars t.view.rows changes back) (consistent : t.Consistent) :
    changes.foldlM Guarded.undo t = .ok (changes.foldl undo t) := by
  induction changes generalizing t with
  | nil => rfl
  | cons change rest ih =>
    cases retrace with
    | step well reversible later =>
      have undone := undo_keeps consistent (well.of_rows rfl) reversible
      rw [List.foldlM_cons, List.foldl_cons, guarded_undo consistent (well.of_rows rfl) reversible,
        ok_bind]
      refine ih ?_ undone.consistent
      rwa [undone.numVars, undone.rows_eq]

theorem Retrace.guarded_undoTo {changes rest : List SparseChange} {back : Array Row}
    (retrace : Retrace t.numVars t.view.rows changes back) (consistent : t.Consistent)
    (recorded : t.trail = changes ++ rest) :
    Guarded.undoTo t rest.length = .ok (t.undoTo rest.length) := by
  have length : t.trail.length - rest.length = changes.length := by
    rw [recorded, List.length_append, Nat.add_sub_cancel]
  rw [Guarded.undoTo, SparseTableau.undoTo, length, recorded, List.take_left,
    retrace.guarded_foldlM consistent]
  rfl

/-- A column is empty when no row mentions its variable. -/
theorem Consistent.size_column (consistent : t.Consistent) {column : Slots ColumnEntry}
    (at_v : t.columns[v]? = some column) (absent : ∀ r c, ¬t.Occurs r v c) : column.size = 0 := by
  rw [(consistent.columns at_v).size_eq, Array.countP_eq_zero]
  intro slot member present
  obtain ⟨k, at_k⟩ := Array.mem_iff_getElem?.1 member
  obtain ⟨place, rfl⟩ := Option.isSome_iff_exists.1 present
  have at_place : t.place? v k = some place := by
    rw [place?, at_v]
    exact Slots.get?_eq_some_iff.2 at_k
  obtain ⟨entry, at_entry, rfl, -⟩ := consistent.back at_place
  exact absent place.row entry.coeff
    ⟨place.rowIndex, content_eq_some_iff.2 ⟨entry, at_entry, rfl, rfl⟩⟩

theorem Consistent.absent_of_view (consistent : t.Consistent)
    (absent : ∀ r row, t.view.get? r = some row → row.form.coeff v = 0) (r : RowId) (c : Rat) :
    ¬t.Occurs r v c := by
  intro occurs
  obtain ⟨k, at_k⟩ := occurs
  have lt := lt_of_content at_k
  have found : t.view.get? r = some (t.rows[r]).view := by
    rw [view_get?, Array.getElem?_eq_getElem (lt_of_content at_k)]
    rfl
  refine consistent.nonzero r v c ⟨k, at_k⟩ ?_
  rw [← coeff_of_occurs consistent.toLinked ⟨k, at_k⟩, ← coeff_view found]
  exact absent r _ found

theorem guarded_truncateVars (consistent : t.Consistent) {count : Nat}
    (well : t.view.WellFormed count) :
    Guarded.truncateVars t count = .ok (t.truncateVars count) := by
  rw [Guarded.truncateVars, demand_of]
  · rfl
  · intro column member
    obtain ⟨k, at_k⟩ := List.mem_iff_getElem?.1 member
    rw [List.getElem?_drop, Array.getElem?_toList] at at_k
    refine consistent.size_column at_k (consistent.absent_of_view fun r row found => ?_)
    by_contra occurs
    exact absurd (well.var_lt found occurs) (Nat.not_lt.2 (Nat.le_add_right _ _))

/-- A variable that is fresh in the stored tableau is fresh in the store. -/
theorem Consistent.isFresh_of_view (consistent : t.Consistent) (v_lt : v < t.numVars)
    (fresh : t.view.isFresh v = true) : t.isFresh v = true := by
  have unused := Tableau.isFresh_iff.1 fresh
  have at_v : t.columns[v]? = some t.columns[v] := Array.getElem?_eq_getElem v_lt
  have empty := consistent.size_column at_v
    (consistent.absent_of_view fun r row found => (unused r row found).2)
  have heads_none : t.rowOf? v = none := by
    rw [← consistent.rowOf?_view]
    exact Tableau.rowOf?_eq_none_iff.2 fun r row found => (unused r row found).1
  rw [isFresh, heads_none, at_v]
  simp [empty]

end SparseTableau

/-! ## Sessions -/

namespace TableauSession

variable {s : TableauSession} {plain : PlainSession}

theorem Kept.guarded_pivot (kept : s.Kept plain) {r : RowId} {entering : Var}
    (allowed : s.allows (.pivot r entering) = true) :
    Guarded.step s (.pivot r entering) = .ok (s.step (.pivot r entering)) := by
  obtain ⟨settled, row, found, occurs⟩ := kept.allows_pivot_iff.1 allowed
  rw [Guarded.step, SparseTableau.guarded_pivot kept.consistent kept.well settled found occurs]
  rfl

theorem Kept.guarded_addRow (kept : s.Kept plain) {base : Var} {entries : List (Var × Rat)}
    (allowed : s.allows (.addRow base entries) = true) :
    Guarded.step s (.addRow base entries) = .ok (s.step (.addRow base entries)) := by
  rw [allows, Bool.and_eq_true] at allowed
  obtain ⟨fresh, entries_ok⟩ := allowed
  have ok : ∀ entry ∈ entries, entry.1 ≠ base ∧ entry.1 < s.store.numVars := by
    intro entry member
    have ok := List.all_eq_true.1 entries_ok entry member
    rwa [Bool.and_eq_true, bne_iff_ne, decide_eq_true_eq] at ok
  rw [Guarded.step, SparseTableau.guarded_addRow kept.consistent fresh ok]
  rfl

/-- Leaving a scope does not fail: every row that the trail tells to restore or to drop exists. -/
theorem Kept.guarded_leave (kept : s.Kept plain) : Guarded.step s .leave = .ok (s.step .leave) := by
  obtain ⟨store, scopes, given⟩ := s
  obtain ⟨consistent, nested, -, -, -, -⟩ := kept
  simp only at consistent nested
  cases scopes with
  | nil => rfl
  | cons scope outer =>
    obtain ⟨length, numVars⟩ := scope
    generalize trail_eq : store.trail = trail at nested
    cases nested with
    | @scope _ _ _ back changes rest _ means retrace fewer inner =>
      have undone := retrace.undoTo consistent trail_eq
      rw [Guarded.step]
      simp only
      rw [retrace.guarded_undoTo consistent trail_eq, ok_bind,
        SparseTableau.guarded_truncateVars undone.consistent
          (inner.means.well.of_rows undone.rows_eq)]
      rfl

/-- Every condition holds on which an allowed call relies. -/
theorem Kept.guarded_step (kept : s.Kept plain) {call : TableauCall}
    (allowed : s.allows call = true) : Guarded.step s call = .ok (s.step call) := by
  cases call with
  | addVar => rfl
  | addRow base entries => exact kept.guarded_addRow allowed
  | normalize r =>
    rw [Guarded.step, SparseTableau.guarded_normalize kept.consistent kept.well]
    rfl
  | pivot r entering => exact kept.guarded_pivot allowed
  | enter => rfl
  | leave => exact kept.guarded_leave

end TableauSession

end ArithDecide
