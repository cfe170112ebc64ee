import ArithDecide.Proofs.Tableau
import ArithDecide.SortedSet

/-!
# Pending rows and their reduced forms

`Tableau.Reduces` says that the rows of a second tableau are those of a first one with every pending row
in reduced form. The second tableau has the same bases, takes the same variables for fresh and has no
more solutions; a new row is added to both by reducing it in the second one, and reducing all rows that
are pending in the first one leads to the second one.

Pending rows and their bases are noted in sets. A set absorbs what it has already, and from then on it
makes no difference whether this is noted once more.
-/

namespace ArithDecide

namespace SortedSet

variable {a b : Nat}

theorem insert_insert_self (s : List Nat) : insert a (insert a s) = insert a s := by
  induction s with
  | nil => simp [insert]
  | cons c rest ih =>
    rw [insert]
    split
    · rw [insert, if_neg (Nat.lt_irrefl a), if_neg (Nat.lt_irrefl a)]
    · rename_i not_below
      split
      · rename_i above
        rw [insert, if_neg not_below, if_pos above, ih]
      · rename_i not_above
        rw [insert, if_neg not_below, if_neg not_above]

theorem insert_comm (s : List Nat) : insert a (insert b s) = insert b (insert a s) := by
  induction s with
  | nil =>
    simp only [insert]
    grind
  | cons c rest ih =>
    simp only [insert]
    grind [insert]

/-- An element that a set absorbs is absorbed by every larger set too. -/
theorem insert_of_absorbed {s : List Nat} (absorbed : insert a s = s) :
    insert a (insert b s) = insert b s := by
  rw [insert_comm, absorbed]

theorem insert_union_of_absorbed {s : List Nat} (absorbed : insert a s = s) (items : List Nat) :
    insert a (union s items) = union s items := by
  induction items generalizing s with
  | nil => exact absorbed
  | cons b rest ih => exact ih (insert_of_absorbed absorbed)

/-- Whether a set gets more of the elements that it absorbs makes no difference. -/
theorem union_filter_congr (absorbed : Nat → Bool) {p q : Nat → Bool} {items s : List Nat}
    (absorbs : ∀ a ∈ items, absorbed a = true → insert a s = s)
    (same : ∀ a ∈ items, absorbed a = false → p a = q a) :
    union s (items.filter p) = union s (items.filter q) := by
  induction items generalizing s with
  | nil => rfl
  | cons a rest ih =>
    have later := ih (s := s) (fun b member => absorbs b (List.mem_cons_of_mem a member))
      fun b member => same b (List.mem_cons_of_mem a member)
    cases known : absorbed a with
    | true =>
      have once : insert a s = s := absorbs a List.mem_cons_self known
      have skip (f : Nat → Bool) :
          union s ((a :: rest).filter f) = union s (rest.filter f) := by
        rw [List.filter_cons]
        split
        · rw [union, List.foldl_cons, once, union]
        · rfl
      rw [skip, skip, later]
    | false =>
      have agree := same a List.mem_cons_self known
      rw [List.filter_cons, List.filter_cons, agree]
      split
      · exact ih (fun b member h => insert_of_absorbed (absorbs b (List.mem_cons_of_mem a member) h))
          fun b member => same b (List.mem_cons_of_mem a member)
      · exact later

end SortedSet

namespace Tableau

/-! ## Rows in reduced form -/

/-- The form of a row of the second tableau only depends on the rows before it. -/
theorem reduceBelow_congr {t u : Tableau} {count : Nat} (same : ∀ q, q < count → u.get? q = t.get? q)
    (form : LinearForm) : u.reduceBelow count form = t.reduceBelow count form := by
  induction count generalizing form with
  | zero => rfl
  | succ count ih =>
    rw [reduceBelow, reduceBelow, same count (Nat.lt_succ_self count),
      funext (ih fun q less => same q (Nat.lt_succ_of_lt less))]

/-- Reduction does not touch a variable that is not in the rows which are used for it. -/
theorem coeff_reduceBelow_of_absent {t : Tableau} {count : Nat} {v : Var}
    (absent : ∀ q row, q < count → t.get? q = some row → row.base ≠ v ∧ row.form.coeff v = 0)
    (form : LinearForm) : (t.reduceBelow count form).coeff v = form.coeff v := by
  induction count generalizing form with
  | zero => rfl
  | succ count ih =>
    have below := ih fun q row less => absent q row (Nat.lt_succ_of_lt less)
    rw [reduceBelow]
    split
    · exact below form
    · rename_i row found
      obtain ⟨apart, zero⟩ := absent count row (Nat.lt_succ_self count) found
      rw [below, coeff_eliminate, if_neg apart, zero, mul_zero, add_zero]

/-- The rows of the second tableau are those of the first one, with every pending row in reduced form.
-/
def Reduces (t u : Tableau) : Prop :=
  ∀ r, u.get? r = (t.get? r).map fun row => if row.pending then u.reducedRow r row else row

variable {t u : Tableau} {r : RowId} {row : Row} {v : Var}

theorem Reduces.of_rows {t' u' : Tableau} (reduces : t.Reduces u) (first : t'.rows = t.rows)
    (second : u'.rows = u.rows) : t'.Reduces u' := by
  have get (q : RowId) : u'.get? q = u.get? q := congrArg (·[q]?) second
  intro r
  have here := reduces r
  simp only [reducedRow] at here ⊢
  rw [get, here, show t'.get? r = t.get? r from congrArg (·[r]?) first]
  simp only [reduceBelow_congr fun q _ => get q]

theorem reduces_self (normalized : t.Normalized) : t.Reduces t := by
  intro r
  cases found : t.get? r with
  | none => rfl
  | some row => simp [normalized r row found]

section Reduces

variable (reduces : t.Reduces u)
include reduces

theorem Reduces.size : u.rows.size = t.rows.size := by
  have none_iff (r : RowId) : u.rows[r]? = none ↔ t.rows[r]? = none := by
    have here := reduces r
    rw [get?, get?] at here
    rw [here, Option.map_eq_none_iff]
  simp only [Array.getElem?_eq_none_iff] at none_iff
  exact Nat.le_antisymm ((none_iff t.rows.size).2 (Nat.le_refl _))
    ((none_iff u.rows.size).1 (Nat.le_refl _))

theorem Reduces.rowIds : u.rowIds = t.rowIds := congrArg List.range reduces.size

theorem Reduces.settled (found : t.get? r = some row) (settled : row.pending = false) :
    u.get? r = some row := by
  rw [reduces r, found]
  simp [settled]

theorem Reduces.pending (found : t.get? r = some row) (pending : row.pending = true) :
    u.get? r = some (u.reducedRow r row) := by
  rw [reduces r, found]
  simp [pending]

theorem Reduces.of_get? {other : Row} (found : u.get? r = some other) :
    ∃ row, t.get? r = some row ∧ row.base = other.base := by
  rw [reduces r, Option.map_eq_some_iff] at found
  obtain ⟨row, at_r, rfl⟩ := found
  refine ⟨row, at_r, ?_⟩
  split <;> rfl

theorem Reduces.base (found : t.get? r = some row) :
    ∃ other, u.get? r = some other ∧ other.base = row.base := by
  refine ⟨if row.pending then u.reducedRow r row else row, (reduces r).trans (by rw [found]; rfl), ?_⟩
  split <;> rfl

theorem Reduces.normalized : u.Normalized := by
  intro r other found
  rw [reduces r, Option.map_eq_some_iff] at found
  obtain ⟨row, -, rfl⟩ := found
  split
  · rfl
  · rename_i settled
    exact Bool.eq_false_iff.2 settled

theorem Reduces.rowOf? (v : Var) : u.rowOf? v = t.rowOf? v := by
  have bases : u.rows.map Row.base = t.rows.map Row.base := by
    refine Array.ext_getElem? fun r => ?_
    have here := reduces r
    rw [get?, get?] at here
    rw [Array.getElem?_map, Array.getElem?_map, here, Option.map_map]
    congr 1
    funext row
    simp only [Function.comp]
    split <;> rfl
  have heads (x : Tableau) : x.rowOf? v = (x.rows.map Row.base).findIdx? (· == v) := by
    rw [Array.findIdx?_map]
    rfl
  rw [heads, heads, bases]

/-- A point that satisfies the reduced rows satisfies the pending ones. -/
theorem Reduces.holds {M : Type} [AddCommGroup M] [Module Rat M] {φ : Var → M} (holds : u.Holds φ) :
    t.Holds φ := by
  intro r row found
  cases pending : row.pending with
  | false => exact holds r row (reduces.settled found pending)
  | true =>
    have reduced : (u.reducedRow r row).Holds φ := holds r _ (reduces.pending found pending)
    exact Eq.trans reduced (combine_reduceBelow (fun q other _ at_q => holds q other at_q) row.form)

/-- Reducing pending rows makes no variable fresh and takes freshness from none. -/
theorem Reduces.isFresh (v : Var) : u.isFresh v = t.isFresh v := by
  rw [Bool.eq_iff_iff, isFresh_iff, isFresh_iff]
  constructor
  · intro absent r row found
    obtain ⟨other, at_r, base⟩ := reduces.base found
    refine ⟨base ▸ (absent r other at_r).1, ?_⟩
    cases pending : row.pending with
    | false => exact (absent r row (reduces.settled found pending)).2
    | true =>
      rw [← coeff_reduceBelow_of_absent (fun q other _ at_q => absent q other at_q) row.form]
      exact (absent r _ (reduces.pending found pending)).2
  · intro absent r
    -- by strong induction: the rows that are used for a reduction were reduced without the variable
    induction r using Nat.strong_induction_on with
    | _ r ih =>
      intro other found
      obtain ⟨row, at_r, base⟩ := reduces.of_get? found
      obtain ⟨apart, zero⟩ := absent r row at_r
      refine ⟨base ▸ apart, ?_⟩
      cases pending : row.pending with
      | false =>
        obtain rfl := Option.some.inj (found.symm.trans (reduces.settled at_r pending))
        exact zero
      | true =>
        obtain rfl := Option.some.inj (found.symm.trans (reduces.pending at_r pending))
        exact (coeff_reduceBelow_of_absent (fun q other less at_q => ih q less other at_q)
          row.form).trans zero

/-- A new row stays pending in the one tableau and is reduced in the other one. -/
theorem Reduces.addRow (base : Var) (form : LinearForm) :
    (t.addRow base form).Reduces ((u.addRow base form).normalize t.rows.size) := by
  have below {q : RowId} (less : q < t.rows.size) :
      ((u.addRow base form).normalize t.rows.size).get? q = u.get? q := by
    rw [get?_normalize_of_ne (Nat.ne_of_lt less), get?_addRow, reduces.size,
      if_neg (Nat.ne_of_lt less)]
  intro r
  rw [get?_addRow]
  split
  · rename_i last
    subst last
    have added : (u.addRow base form).get? t.rows.size = some ⟨base, form, true⟩ := by
      rw [get?_addRow, reduces.size, if_pos rfl]
    rw [get?_normalize, added]
    simp only [Option.map_some, if_true, true_and, reducedRow]
    rw [reduceBelow_congr fun q less => get?_normalize_of_ne (Nat.ne_of_lt less)]
  · rename_i apart
    cases found : t.get? r with
    | none =>
      have absent : u.get? r = none := by rw [reduces r, found]; rfl
      rw [get?_normalize_of_ne apart, get?_addRow, reduces.size, if_neg apart, absent]
      rfl
    | some row =>
      have less : r < t.rows.size := (Array.getElem?_eq_some_iff.1 found).1
      rw [below less, reduces r, found]
      simp only [Option.map_some, reducedRow]
      rw [reduceBelow_congr fun q smaller => below (Nat.lt_trans smaller less)]

/-- Reducing the pending rows one after the other leads to the second tableau. -/
theorem Reduces.foldl_normalize :
    ((t.rowIds.filter fun r => (t.get? r).any Row.pending).foldl normalize t).rows = u.rows := by
  have upTo (count : Nat) (q : RowId) :
      (((List.range count).filter fun r => (t.get? r).any Row.pending).foldl normalize t).get? q =
        if q < count then u.get? q else t.get? q := by
    induction count generalizing q with
    | zero => rfl
    | succ count ih =>
      rw [List.range_succ, List.filter_append, List.foldl_append]
      generalize ((List.range count).filter fun r => (t.get? r).any Row.pending).foldl normalize t =
        mid at ih
      have here : mid.get? count = t.get? count := by rw [ih, if_neg (Nat.lt_irrefl count)]
      have onwards {last : Tableau} (at_count : last.get? count = u.get? count)
          (others : q ≠ count → last.get? q = mid.get? q) :
          last.get? q = if q < count + 1 then u.get? q else t.get? q := by
        by_cases same : q = count
        · rw [same, at_count, if_pos (Nat.lt_succ_self count)]
        · rw [others same, ih]
          have below : q < count + 1 ↔ q < count :=
            Nat.lt_succ_iff.trans ⟨fun le => Nat.lt_of_le_of_ne le same, Nat.le_of_lt⟩
          simp only [below]
      by_cases pending : (t.get? count).any Row.pending = true
      · obtain ⟨row, found, still⟩ := Option.any_eq_true _ _ |>.1 pending
        rw [List.filter_singleton, pending, cond_true, List.foldl_cons, List.foldl_nil]
        refine onwards ?_ get?_normalize_of_ne
        rw [get?_normalize, here, reduces count, found]
        simp only [Option.map_some, still, if_true, true_and, reducedRow]
        rw [reduceBelow_congr fun q less => (ih q).trans (if_pos less)]
      · rw [List.filter_singleton, Bool.eq_false_iff.2 pending]
        refine onwards ?_ fun _ => rfl
        rw [cond_false, List.foldl_nil, here, reduces count]
        cases found : t.get? count with
        | none => rfl
        | some row =>
          rw [found] at pending
          simp only [Option.any_some, Bool.not_eq_true] at pending
          simp [pending]
  refine Array.ext_getElem? fun q => ?_
  refine (upTo t.rows.size q).trans ?_
  split
  · rfl
  · rename_i large
    rw [get?, Array.getElem?_eq_none (Nat.not_lt.1 large),
      Array.getElem?_eq_none (by rw [reduces.size]; exact Nat.not_lt.1 large)]

end Reduces

end Tableau

end ArithDecide
