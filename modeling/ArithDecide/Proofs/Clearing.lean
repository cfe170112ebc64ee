import Mathlib
import ArithDecide.Proofs.StoredLayout

/-!
# Clearing a row of bases ends

Rows mention only bases of rows before them (`Tableau.WellFormed.lt_of_mentions`), so no row leads back to
itself, and the recursion that finds the value of the base of a pending row ends (`Tableau.Evaluates`).

A pending row is put into reduced form by replacing bases in it as long as there are any. The rows that
are put in may be pending themselves and bring further bases in. `SparseTableau.Clearing` counts the
replacements, in whatever order the bases are found: each of them makes the row lighter, so there are
fewer of them than `2 ^ r`, and as reduced forms are unique all orders end in the same row.
-/

namespace ArithDecide

namespace Tableau

variable {t : Tableau} {n : Nat} {r q : RowId} {v : Var}

/-! ## Rows that mention bases -/

/-- The row mentions the base of the other one. -/
def Mentions (t : Tableau) (r q : RowId) : Prop :=
  ∃ row other, t.get? r = some row ∧ t.get? q = some other ∧ row.form.coeff other.base ≠ 0

theorem WellFormed.lt_of_mentions (well : t.WellFormed n) (mentions : t.Mentions r q) : q < r := by
  rcases mentions with ⟨row, other, at_r, at_q, occurs⟩
  by_contra late
  exact occurs (well.separate at_r at_q (.inr (Nat.not_lt.1 late)))

/-- No row leads back to itself. -/
theorem WellFormed.acyclic (well : t.WellFormed n) (r : RowId) :
    ¬Relation.TransGen t.Mentions r r := by
  have down {q : RowId} (path : Relation.TransGen t.Mentions r q) : q < r := by
    induction path with
    | single mentions => exact well.lt_of_mentions mentions
    | tail _ mentions ih => exact (well.lt_of_mentions mentions).trans ih
  exact fun cycle => Nat.lt_irrefl r (down cycle)

/-! ## The values of bases -/

/-- What the recursion over pending rows finds: the base of a pending row has the value of the row, every
other variable the value that is stored for it. -/
inductive Evaluates (t : Tableau) (stored : Var → InfRat) : Var → InfRat → Prop
  | stored {v : Var} : t.kind v ≠ .pendingBase → Evaluates t stored v (stored v)
  | pending {r : RowId} {row : Row} {values : Var → InfRat} : t.get? r = some row →
      row.pending = true → (∀ w, row.form.mentions w = true → Evaluates t stored w (values w)) →
      Evaluates t stored row.base (row.form.evalInf values)

variable {stored : Var → InfRat} {x y : InfRat}

/-- The value of a variable is unique. The induction is on the evaluation, as a row leads to bases of
rows before it only. -/
theorem Evaluates.unique (well : t.WellFormed n) (first : t.Evaluates stored v x)
    (second : t.Evaluates stored v y) : x = y := by
  induction first generalizing y with
  | stored settled =>
    cases second with
    | stored _ => rfl
    | pending found pending _ =>
      rw [well.kind_base found, if_pos pending] at settled
      exact absurd rfl settled
  | @pending r row values found pending _ ih =>
    generalize base : row.base = v at second
    cases second with
    | stored settled =>
      rw [← base, well.kind_base found, if_pos pending] at settled
      exact absurd rfl settled
    | @pending q other values' found' _ terms =>
      cases well.distinct found found' base
      cases found.symm.trans found'
      rw [LinearForm.evalInf_eq_combine, LinearForm.evalInf_eq_combine]
      exact LinearForm.combine_congr fun w mentioned => ih w mentioned (terms w mentioned)

/-- The recursion ends: the rows that it meets on its way down are earlier and earlier ones. -/
theorem WellFormed.exists_evaluates (well : t.WellFormed n) (stored : Var → InfRat) (v : Var) :
    ∃ x, t.Evaluates stored v x := by
  have below (count : Nat) : ∀ v, (∀ r row, t.get? r = some row → row.base = v → r < count) →
      ∃ x, t.Evaluates stored v x := by
    induction count with
    | zero =>
      intro v early
      refine ⟨stored v, .stored ?_⟩
      rw [kind_eq_nonBase_iff.2 fun r row found base => Nat.not_lt_zero r (early r row found base)]
      exact nofun
    | succ count ih =>
      intro v early
      by_cases settled : t.kind v ≠ .pendingBase
      · exact ⟨stored v, .stored settled⟩
      · obtain ⟨r, row, found, rfl, pending⟩ := pending_of_kind (not_not.1 settled)
        have inner (w : Var) (mentioned : row.form.mentions w = true) :
            ∃ x, t.Evaluates stored w x := by
          apply ih
          rintro q other at_q rfl
          have before := well.lt_of_mentions
            ⟨row, other, found, at_q, LinearForm.mentions_iff.1 mentioned⟩
          exact Nat.lt_of_lt_of_le before (Nat.lt_succ_iff.1 (early r row found rfl))
        choose! values terms using inner
        exact ⟨_, .pending found pending terms⟩
  exact below t.rows.size v fun r row found _ => (Array.getElem?_eq_some_iff.1 found).1

end Tableau

namespace Engine

variable {s : State} {n count : Nat} {v : Var} {x : InfRat}

/-- The rows that are counted are enough for the recursion. -/
theorem valueBelow_eq (well : s.tableau.WellFormed n) (evaluates : s.tableau.Evaluates s.stored v x)
    (early : ∀ r row, s.tableau.get? r = some row → row.base = v → r < count) :
    s.valueBelow count v = x := by
  induction evaluates generalizing count with
  | @stored v settled =>
    cases count with
    | zero => rfl
    | succ count => exact State.valueBelow_of_kind settled _
  | @pending r row values found pending _ ih =>
    cases count with
    | zero => exact absurd (early r row found rfl) (Nat.not_lt_zero r)
    | succ count =>
      rw [State.valueBelow, well.rowOf?_base found, Option.bind_some, found]
      simp only [pending, if_true]
      rw [LinearForm.evalInf_eq_combine, LinearForm.evalInf_eq_combine]
      refine LinearForm.combine_congr fun w mentioned => ih w mentioned ?_
      rintro q other at_q rfl
      have before := well.lt_of_mentions
        ⟨row, other, found, at_q, LinearForm.mentions_iff.1 mentioned⟩
      exact Nat.lt_of_lt_of_le before (Nat.lt_succ_iff.1 (early r row found rfl))

/-- The recursion ends in the current values. -/
theorem evaluates_value (well : s.tableau.WellFormed n) (v : Var) :
    s.tableau.Evaluates s.stored v (s.value v) := by
  obtain ⟨x, evaluates⟩ := well.exists_evaluates s.stored v
  have same : s.value v = x := valueBelow_eq well evaluates fun r row found _ =>
    (Array.getElem?_eq_some_iff.1 found).1
  rwa [same]

end Engine

namespace SparseTableau

variable {s t u : SparseTableau} {r : RowId} {n m : Nat} {form : LinearForm}

/-! ## Clearing in any order -/

/-- The base of another row is replaced where it is found in the row. -/
inductive Clears (r : RowId) (t : SparseTableau) : SparseTableau → Prop
  | at {i : Nat} {entry : RowEntry} {source : RowId} : t.term? r i = some entry →
      t.rowOf? entry.var = some source → source ≠ r → Clears r t (t.substitute r i source)

/-- A number of replacements in the row, one after the other. -/
inductive Clearing (r : RowId) : Nat → SparseTableau → SparseTableau → Prop
  | refl (t : SparseTableau) : Clearing r 0 t t
  | step {n : Nat} {t u s : SparseTableau} : Clears r t u → Clearing r n u s →
      Clearing r (n + 1) t s

/-- No base of another row is left in the row. -/
def Ended (r : RowId) (t : SparseTableau) : Prop := ∀ u, ¬Clears r t u

/-- The row mentions no base. -/
def Free (r : RowId) (t : SparseTableau) : Prop :=
  ∀ i entry, t.term? r i = some entry → t.rowOf? entry.var = none

theorem Ended.eq (ended : Ended r t) {v : Var} {c : Rat} {q : RowId} (occurs : t.Occurs r v c)
    (heads : t.rowOf? v = some q) : q = r := by
  obtain ⟨i, at_i⟩ := occurs
  obtain ⟨entry, found, rfl, -⟩ := content_eq_some_iff.1 at_i
  by_contra apart
  exact ended _ (.at found heads apart)

/-- Each replacement makes the row lighter and keeps its value. -/
theorem RowIs.clearing (is : s.RowIs r form t) (consistent : s.Consistent)
    (well : s.view.WellFormed n) (early : s.Early r form) (clearing : Clearing r m t u) :
    ∃ last, s.RowIs r last u ∧ s.Early r last ∧
      m + s.view.weight r last ≤ s.view.weight r form ∧
      ∀ φ : Var → Rat, (∀ q row, q < r → s.view.get? q = some row → row.Holds φ) →
        last.combine φ = form.combine φ := by
  induction clearing generalizing form with
  | refl t => exact ⟨form, is, early, by omega, fun _ _ => rfl⟩
  | step clears _ ih =>
    rcases clears with ⟨found, heads, apart⟩
    obtain ⟨row, at_source, before, occurs, is'⟩ := is.replace consistent early
      (content_eq_some_iff.2 ⟨_, found, rfl, rfl⟩) heads apart
    have lighter := Tableau.weight_eliminate well before at_source occurs
    obtain ⟨last, done, early', bound, same⟩ := ih is' (early.eliminate well at_source before)
    refine ⟨last, done, early', by omega, fun φ holds => ?_⟩
    rw [same φ holds, Tableau.combine_eliminate (holds _ row before at_source)]

/-- Once no base of another row is left the row mentions none, not even its own. -/
theorem RowIs.free (is : s.RowIs r form t) (consistent : s.Consistent) (early : s.Early r form)
    (ended : Ended r t) : Free r t := by
  intro i entry found
  have occurs : t.Occurs r entry.var entry.coeff :=
    ⟨i, content_eq_some_iff.2 ⟨entry, found, rfl, rfl⟩⟩
  cases heads : t.rowOf? entry.var with
  | none => rfl
  | some q =>
    cases ended.eq occurs heads
    rw [is.rowOf?] at heads
    obtain ⟨stored, at_r, base⟩ := consistent.headed heads
    have found : s.view.get? r = some stored.view := by
      rw [view_get?, at_r]
      rfl
    refine absurd (early r stored.view (Nat.le_refl r) found) ?_
    rw [show stored.view.base = entry.var from base, ← is.same, coeff_of_occurs is.linked occurs]
    exact is.nonzero _ _ _ occurs

/-- The search for bases makes replacements until none is left or its bound is reached. -/
theorem clearing_reduceRow (r : RowId) (count : Nat) (t : SparseTableau) :
    ∃ m, m ≤ count ∧ Clearing r m t (reduceRow r count t).1 ∧
      (m < count → Ended r (reduceRow r count t).1) := by
  induction count generalizing t with
  | zero => exact ⟨0, Nat.le_refl 0, .refl t, fun less => absurd less (Nat.lt_irrefl 0)⟩
  | succ count ih =>
    rw [reduceRow]
    cases found : t.baseTerm? r with
    | none =>
      refine ⟨0, Nat.zero_le _, .refl t, fun _ u clears => ?_⟩
      rcases clears with ⟨at_i, heads, apart⟩
      exact apart (eq_of_baseTerm?_eq_none found ⟨_, content_eq_some_iff.2 ⟨_, at_i, rfl, rfl⟩⟩ heads)
    | some base =>
      rcases base with ⟨i, source⟩
      obtain ⟨v, c, at_i, heads, apart⟩ := baseTerm?_eq_some found
      obtain ⟨entry, at_entry, rfl, -⟩ := content_eq_some_iff.1 at_i
      obtain ⟨m, le, clearing, ended⟩ := ih (t.substitute r i source)
      exact ⟨m + 1, Nat.succ_le_succ le, .step (.at at_entry heads apart) clearing,
        fun less => ended (Nat.lt_of_succ_lt_succ less)⟩

/-! ## Every order ends -/

theorem Clears.exists_row (clears : Clears r t u) : ∃ row, t.rows[r]? = some row := by
  rcases clears with ⟨found, -, -⟩
  obtain ⟨row, at_r, -⟩ := Option.bind_eq_some_iff.1 found
  exact ⟨row, at_r⟩

/-- What is to be known of replacing bases in a store. -/
structure Ending (t : SparseTableau) : Prop where
  /-- No row leads back to itself by the bases that are mentioned. -/
  acyclic : ∀ r, ¬Relation.TransGen t.view.Mentions r r
  /-- The recursion for the value of a variable ends, whatever values are stored. -/
  values : ∀ (stored : Var → InfRat) v, ∃! x, t.view.Evaluates stored v x
  /-- In whatever order bases are found, a row has only so many to be replaced. -/
  bounded : ∀ {r m u}, Clearing r m t u → m < 2 ^ r
  /-- All orders end in the same row, and it mentions no base. -/
  ends : ∀ {r m u}, Clearing r m t u → Ended r u → Free r u ∧
    u.view.rows = t.view.rows.modify r fun row =>
      { row with form := t.view.reduceBelow r row.form }
  /-- A pending row is normalized in one of these orders, to its end. -/
  normalizes : ∀ {r row}, t.rows[r]? = some row → row.pending = true →
    ∃ m u, Clearing r m t u ∧ Ended r u ∧
      (t.normalize r).1 = (u.withPending r false).record (.normalize r row.sortedTerms)
  freed : ∀ r, Free r (t.normalize r).1

section

variable (consistent : t.Consistent) (well : t.view.WellFormed n)
include consistent well

/-- Where replacing has led to: the form of the row is lighter, and reduced at the end. -/
theorem Consistent.clearing {row : SparseRow} (at_r : t.rows[r]? = some row)
    (clearing : Clearing r m t u) :
    m < 2 ^ r ∧ (Ended r u → Free r u ∧ t.RowIs r (t.view.reduceBelow r row.view.form) u) := by
  have found : t.view.get? r = some row.view := by
    rw [view_get?, at_r]
    rfl
  have early : t.Early r row.view.form := fun q other late at_q =>
    well.separate found at_q (.inr late)
  obtain ⟨last, is, early', bound, same⟩ :=
    (RowIs.refl consistent found).clearing consistent well early clearing
  have below := Tableau.weight_lt t.view r row.view.form
  refine ⟨by omega, fun ended => ⟨is.free consistent early' ended, ?_⟩⟩
  have reduced : t.view.Reduced r last := is.reduced consistent fun _ _ _ => ended.eq
  have reduced' : t.view.Reduced r (t.view.reduceBelow r row.view.form) := fun q other _ at_q =>
    Tableau.coeff_reduceBelow well early at_q
  rwa [← Tableau.eq_of_reduced well reduced reduced' fun φ holds => by
    rw [same φ holds, Tableau.combine_reduceBelow holds]]

theorem Consistent.normalize_eq {row : SparseRow} (at_r : t.rows[r]? = some row)
    (pending : row.pending = true) : ∃ m u, Clearing r m t u ∧ Ended r u ∧
      (t.normalize r).1 = (u.withPending r false).record (.normalize r row.sortedTerms) := by
  obtain ⟨m, le, clearing, ended⟩ := clearing_reduceRow r (Nat.pow 2 r) t
  refine ⟨m, _, clearing, ended (consistent.clearing well at_r clearing).1, ?_⟩
  rw [normalize, at_r, Option.filter_some, if_pos pending]
  rfl

/-- Normalising a row leaves no base in it: it replaces bases as long as there are any, and there are
finitely many replacements. -/
theorem Consistent.free_normalize (r : RowId) : Free r (t.normalize r).1 := by
  by_cases pending : ∃ row, t.rows[r]? = some row ∧ row.pending = true
  · obtain ⟨row, at_r, pending⟩ := pending
    obtain ⟨m, u, clearing, ended, same⟩ := consistent.normalize_eq well at_r pending
    have free := ((consistent.clearing well at_r clearing).2 ended).1
    intro i entry found
    have terms : (t.normalize r).1.term? r i = u.term? r i := by
      rw [same, ← term?_withPending u r false r i, SparseTableau.record]
      split <;> rfl
    have bases : (t.normalize r).1.rowOf? entry.var = u.rowOf? entry.var := by
      rw [same, SparseTableau.record]
      split <;> rfl
    rw [bases]
    exact free i entry (terms ▸ found)
  · have settled : ∀ row, t.rows[r]? = some row → row.pending = false :=
      fun row at_r => Bool.eq_false_iff.2 fun is => pending ⟨row, at_r, is⟩
    rw [normalize_of_not_pending settled]
    intro i entry found
    obtain ⟨row, at_r, -⟩ := Option.bind_eq_some_iff.1 found
    exact consistent.rowOf?_of_settled well at_r (settled row at_r) found

/-- In a consistent store replacing bases comes to an end: what a row leads to was put in before it, so
the number of a row bounds what can be replaced in it. -/
theorem Consistent.ending : t.Ending where
  acyclic := well.acyclic
  values stored v := by
    obtain ⟨x, evaluates⟩ := well.exists_evaluates stored v
    exact ⟨x, evaluates, fun y other => other.unique well evaluates⟩
  bounded {r m u} clearing := by
    cases clearing with
    | refl => exact Nat.two_pow_pos r
    | step clears rest =>
      obtain ⟨row, at_r⟩ := clears.exists_row
      exact (consistent.clearing well at_r (.step clears rest)).1
  ends {r m u} clearing ended := by
    cases at_r : t.rows[r]? with
    | none =>
      -- nothing can be replaced in a row that does not exist
      have missing : t.view.rows[r]? = none := (view_get? t r).trans (by rw [at_r]; rfl)
      cases clearing with
      | refl =>
        refine ⟨fun i entry found => ?_, Array.ext_getElem? fun q => ?_⟩
        · rw [term?, at_r] at found
          cases found
        · rw [Array.getElem?_modify]
          split
          · rename_i here
            rw [← here, missing]
            rfl
          · rfl
      | step clears _ =>
        obtain ⟨row, found⟩ := clears.exists_row
        rw [at_r] at found
        cases found
    | some row =>
      have found : t.view.get? r = some row.view := by
        rw [view_get?, at_r]
        rfl
      obtain ⟨free, is⟩ := (consistent.clearing well at_r clearing).2 ended
      refine ⟨free, ?_⟩
      rw [is.edits.view_rows consistent.toLinked is.linked found is.same]
      refine Array.ext_getElem? fun q => ?_
      rw [Array.getElem?_setIfInBounds, Array.getElem?_modify]
      split
      · rename_i here
        rw [← here, show t.view.rows[r]? = some row.view from found,
          if_pos (Array.getElem?_eq_some_iff.1 found).1]
        rfl
      · rfl
  normalizes := consistent.normalize_eq well
  freed := consistent.free_normalize well

end

end SparseTableau

/-! ## Sessions -/

namespace TableauSession

open SparseTableau

variable {s : TableauSession} {plain : PlainSession}

theorem allowsAll_normalize (rows : List RowId) :
    s.allowsAll (rows.map TableauCall.normalize) = true := by
  induction rows generalizing s with
  | nil => rfl
  | cons r rest ih =>
    rw [List.map_cons, allowsAll, ih]
    rfl

/-- A row that is still pending was not normalized, and was pending before. -/
theorem Kept.pending_run_normalize (kept : s.Kept plain) {rows : List RowId} {q : RowId} {row : Row}
    (found : (s.run (rows.map .normalize)).store.view.get? q = some row)
    (pending : row.pending = true) : q ∉ rows ∧ s.store.view.get? q = some row := by
  induction rows generalizing s plain with
  | nil => exact ⟨List.not_mem_nil, found⟩
  | cons r rest ih =>
    obtain ⟨away, at_q⟩ := ih (kept.normalize r) found
    rw [show (s.step (.normalize r)).store = (s.store.normalize r).1 from rfl,
      view_normalize kept.consistent kept.well] at at_q
    obtain ⟨other, at_q⟩ := Engine.pending_normalize at_q pending
    exact ⟨fun member => (List.mem_cons.1 member).elim other away, at_q⟩

/-- Once all pending rows are normalized, in whatever order, none is left. -/
theorem Kept.settled_run_normalize (kept : s.Kept plain) {rows : List RowId}
    (all : ∀ r row, s.store.rows[r]? = some row → row.pending = true → r ∈ rows) :
    (s.run (rows.map .normalize)).store.view.Normalized := by
  intro q row found
  by_contra unsettled
  obtain ⟨away, at_q⟩ := kept.pending_run_normalize found ((Bool.not_eq_false _).mp unsettled)
  obtain ⟨stored, before, rfl⟩ := get?_view at_q
  exact away (all q stored before ((Bool.not_eq_false _).mp unsettled))

/-- In every engine rows lead back to no row, and the current values are what the recursion over pending
rows finds. -/
theorem evaluates_iff (options : Options) (calls : List Call) :
    (∀ r, ¬Relation.TransGen ((Session.start options).run calls).engine.tableau.Mentions r r) ∧
      ∀ v x, ((Session.start options).run calls).engine.tableau.Evaluates
        ((Session.start options).run calls).engine.stored v x ↔
          x = ((Session.start options).run calls).engine.value v := by
  have well := (Session.ready_run options calls).invariant.founded.formed.tableau
  refine ⟨well.acyclic, fun v x => ⟨fun evaluates => ?_, ?_⟩⟩
  · exact evaluates.unique well (Engine.evaluates_value well v)
  · rintro rfl
    exact Engine.evaluates_value well v

/-- Replacing bases ends in every store that allowed calls lead to, whatever rows are pending, and once
every pending row is normalized none is left; an engine, whose store is one of these, finds the value of
every variable, and leaves no row pending when it normalizes them. -/
theorem clearing_ends (ratio : Nat) :
    (∀ calls, (start ratio).allowsAll calls = true →
      ((start ratio).run calls).store.Ending ∧ ∀ rows : List RowId,
        (∀ r row, ((start ratio).run calls).store.rows[r]? = some row → row.pending = true →
          r ∈ rows) →
        (start ratio).allowsAll (calls ++ rows.map .normalize) = true ∧
          ((start ratio).run (calls ++ rows.map .normalize)).store.view.Normalized) ∧
      ∀ (options : Options) (calls : List Call),
        ((∀ r, ¬Relation.TransGen ((Session.start options).run calls).engine.tableau.Mentions r r) ∧
          ∀ v x, ((Session.start options).run calls).engine.tableau.Evaluates
            ((Session.start options).run calls).engine.stored v x ↔
              x = ((Session.start options).run calls).engine.value v) ∧
        ∃ made done, (start ratio).allowsAll made = true ∧
          Engine.Guarded.run (Engine.new options) calls (start ratio) =
            .ok (((Session.start options).run calls).engine, (start ratio).run made) ∧
          Engine.Guarded.normalizePendingRows ((Session.start options).run calls).engine
            ((start ratio).run made) =
              .ok (((Session.start options).run calls).engine.normalizePendingRows, done) ∧
          done.store.view.Normalized := by
  constructor
  · intro calls allowed
    have kept := (kept_start ratio).run allowed
    refine ⟨kept.consistent.ending kept.well, fun rows all => ⟨?_, ?_⟩⟩
    · rw [allowsAll_append, allowed, allowsAll_normalize]
      rfl
    · rw [show (start ratio).run (calls ++ rows.map .normalize) =
        ((start ratio).run calls).run (rows.map .normalize) from List.foldl_append]
      exact kept.settled_run_normalize all
  · intro options calls
    obtain ⟨store, ran, leads⟩ := Session.leadsTo_run options ratio calls
    obtain ⟨done, normalized, leads'⟩ := Engine.runs_normalizePendingRows _ store leads.toServes
    obtain ⟨made, allowed, rfl⟩ := leads.led
    refine ⟨evaluates_iff options calls, made, done, allowed, ran, normalized, ?_⟩
    rw [leads'.kept.view]
    exact Engine.normalized_normalizePendingRows _

/-- Pending rows, two of which mention bases of pending rows. -/
def chained : List TableauCall :=
  [.addVar, .addVar, .addVar, .addVar, .addRow 1 [(0, 2)], .addRow 2 [(1, 3)],
    .addRow 3 [(2, 1), (1, -1)]]

theorem clearing_ends_chained : (start 50).allowsAll chained = true ∧
    ((start 50).run chained).store.Ending ∧
    ((start 50).run (chained ++ [2, 1, 0].map .normalize)).store.view.Normalized := by
  have allowed : (start 50).allowsAll chained = true := by cbv
  obtain ⟨ending, settles⟩ := (clearing_ends 50).1 chained allowed
  have size : ((start 50).run chained).store.rows.size = 3 := by cbv
  refine ⟨allowed, ending, (settles [2, 1, 0] fun r row found _ => ?_).2⟩
  have lt := (Array.getElem?_eq_some_iff.1 found).1
  rw [size] at lt
  interval_cases r <;> simp

end TableauSession

end ArithDecide
