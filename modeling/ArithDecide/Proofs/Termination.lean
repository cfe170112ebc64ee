import Mathlib
import ArithDecide.Proofs.Exchanging
import ArithDecide.Proofs.Sessions

/-!
# A repair ends

No configuration comes twice in a repair, where a configuration says which variables head a row and
where the others are. If one did, look at the largest variable that enters a row in between. It also
leaves a row, and when it enters again it still is on the bound on which it was put. The row that it
enters then says that its base cannot be better off when the variable leaves than when it enters: the
smaller variables of the row are stuck when it enters and within their bounds when it leaves, unless they
do not move at all, and the larger ones do not move. But the base violates its bound when the variable
enters, and does not when it leaves. Rows are needed for this only as far as values follow them from one
exchange to the next; they need not hold.

Each variable heads a row or is where it was at the start or on one of its bounds, so there are finitely
many configurations. A repair ends before it has used up `Engine.pivotLimit`, and its answer tells
whether the rows and bounds have a solution.
-/

namespace ArithDecide

namespace Engine

open State

variable {e next : Engine} {v : Var} {n i j : Nat} {f : Nat → Engine} {x : Nat → Exchange}

/-- The engine makes exchanges one after another. -/
structure Run (n : Nat) (f : Nat → Engine) (x : Nat → Exchange) : Prop where
  ready : ∀ k ≤ n, (f k).Exchangeable
  same : ∀ k ≤ n, (f 0).SameProblem (f k)
  step : ∀ k < n, (f k).Exchanges (x k) (f (k + 1))

/-- A sequence of exchanges by `exchange?` is a run of exchanges by the rule of least indices. -/
theorem exists_run (ready : (f 0).Exchangeable)
    (found : ∀ k < n, (f k).exchange? = some (f (k + 1))) : ∃ x, Run n f x := by
  have along : ∀ k ≤ n, (f k).Exchangeable ∧ (f 0).SameProblem (f k) := by
    intro k
    induction k with
    | zero => exact fun _ => ⟨ready, .refl _⟩
    | succ k ih =>
      intro le
      obtain ⟨before, same⟩ := ih (Nat.le_of_lt le)
      obtain ⟨after, step⟩ := exchangeable_exchange before (found k le)
      exact ⟨after, same.trans step⟩
  have exchanged : ∀ k < n, ∃ x, (f k).Exchanges x (f (k + 1)) := fun k lt =>
    exists_exchange (along k (Nat.le_of_lt lt)).1 (found k lt)
  choose! x step using exchanged
  exact ⟨x, fun k le => (along k le).1, fun k le => (along k le).2, step⟩

theorem Repairable.holds (repairable : e.Repairable) : e.tableau.Holds e.stored :=
  fun r row found => repairable.assigned.rows r row found (repairable.normalized r row found)

theorem Tableau.holds_zero {t : Tableau} : t.Holds fun _ => (0 : InfRat) := by
  intro r row _
  have same := LinearForm.combine_sub row.form (fun _ => (0 : InfRat)) fun _ => 0
  simp only [sub_self] at same
  exact same.symm

namespace Run

variable (run : Run n f x)
include run

/-! ## Variables at rest -/

/-- A variable that heads no row stays where it is until it enters one. -/
theorem rests (le : i ≤ j) (bound : j ≤ n) (free : (f i).kind v = .nonBase)
    (absent : ∀ k, i ≤ k → k < j → (x k).entering ≠ v) :
    (f j).kind v = .nonBase ∧ (f j).stored v = (f i).stored v := by
  induction j, le using Nat.le_induction with
  | base => exact ⟨free, rfl⟩
  | succ j le ih =>
    obtain ⟨free, stored⟩ := ih (Nat.le_of_succ_le bound) fun k from_i before =>
      absent k from_i (Nat.lt_succ_of_lt before)
    have apart := (absent j le (Nat.lt_succ_self j)).symm
    have step := run.step j bound
    exact ⟨(step.kind_next v).2 (.inr ⟨free, apart⟩), (step.kept v free apart).trans stored⟩

/-- A variable that heads a row goes on to do so until it leaves it. -/
theorem heads (le : i ≤ j) (bound : j ≤ n) (heads : (f i).kind v ≠ .nonBase)
    (absent : ∀ k, i ≤ k → k < j → (x k).leaving ≠ v) : (f j).kind v ≠ .nonBase := by
  induction j, le using Nat.le_induction with
  | base => exact heads
  | succ j le ih =>
    have heads := ih (Nat.le_of_succ_le bound) fun k from_i before =>
      absent k from_i (Nat.lt_succ_of_lt before)
    intro free
    rcases ((run.step j bound).kind_next v).1 free with left | ⟨free, -⟩
    · exact absent j le (Nat.lt_succ_self j) left.symm
    · exact heads free

/-- From the bound on which it was put when it left, a variable moves no more until it enters. -/
theorem admits_after_exit {k : Nat} (lt : k < i) (bound : i ≤ n) (left : (x k).leaving = v)
    (free : (f i).kind v = .nonBase) : (f i).bounds.admits v ((f i).stored v) = true := by
  induction i, Nat.succ_le_of_lt lt using Nat.le_induction with
  | base =>
    have step := run.step k bound
    rw [← left, step.reached, (run.same _ bound).bounds, ← (run.same k (Nat.le_of_lt bound)).bounds]
    exact step.allowed
  | succ i after ih =>
    have step := run.step i bound
    have le := Nat.le_of_lt bound
    rw [(run.same _ bound).bounds, ← (run.same i le).bounds]
    rcases (step.kind_next v).1 free with rfl | ⟨free, apart⟩
    · rw [step.reached]
      exact step.allowed
    · rw [step.kept v free apart]
      exact ih (Nat.lt_of_succ_le after) le free

/-- From one engine to another the values follow the rows. -/
theorem shift (i_le : i ≤ n) (j_le : j ≤ n) :
    (f i).tableau.Holds fun v => (f j).stored v - (f i).stored v := by
  have from_start : ∀ k ≤ n, (f 0).tableau.Holds fun v => (f k).stored v - (f 0).stored v := by
    intro k
    induction k with
    | zero =>
      intro _
      simp only [sub_self]
      exact Tableau.holds_zero
    | succ k ih =>
      intro le
      have before := ih (Nat.le_of_lt le)
      have step := ((run.same k (Nat.le_of_lt le)).rows _).1 (run.step k le).shift
      have both := before.sub (Tableau.holds_zero.sub step)
      simpa using both
  have both := (from_start j j_le).sub (from_start i i_le)
  simp only [sub_sub_sub_cancel_right] at both
  exact ((run.same i i_le).rows _).2 both

/-- When a variable enters for the first time it is where it was. -/
theorem exists_first_entry (bound : j ≤ n) (free : (f i).kind v = .nonBase)
    (enters : ∃ k, i ≤ k ∧ k < j ∧ (x k).entering = v) :
    ∃ k, i ≤ k ∧ k < j ∧ (x k).entering = v ∧ (f k).stored v = (f i).stored v := by
  classical
  obtain ⟨from_i, before, entered⟩ := Nat.find_spec enters
  refine ⟨Nat.find enters, from_i, before, entered, ?_⟩
  refine (run.rests from_i (Nat.le_of_lt (Nat.lt_of_lt_of_le before bound)) free ?_).2
  intro k from_i earlier same
  exact Nat.find_min enters earlier ⟨from_i, Nat.lt_trans earlier before, same⟩

/-! ## No configuration comes twice -/

/-- A variable does not enter on the bound on which it was put when it left, if the base of the row is
within its bounds then, the smaller variables of the row are within theirs or have not moved, and the
larger ones have not moved. -/
theorem false_of_reentry (i_lt : i < n) (j_lt : j < n) (left : (x j).leaving = v)
    (entered : (x i).entering = v) (on_bound : (f i).stored v = (x j).target)
    (base : (f j).bounds.admits (x i).leaving ((f j).stored (x i).leaving) = true)
    (smaller : ∀ w, w < v → (f i).kind w = .nonBase →
      (f j).stored w = (f i).stored w ∨ (f j).bounds.admits w ((f j).stored w) = true)
    (larger : ∀ w, v < w → (f i).kind w = .nonBase → (f j).stored w = (f i).stored w) : False := by
  have entry := run.step i i_lt
  have exit := run.step j j_lt
  have same_i := run.same i (Nat.le_of_lt i_lt)
  have same_j := run.same j (Nat.le_of_lt j_lt)
  have bounds : (f j).bounds = (f i).bounds := same_j.bounds.trans same_i.bounds.symm
  have moved := entry.row _ (run.shift (Nat.le_of_lt i_lt) (Nat.le_of_lt j_lt))
  rw [LinearForm.combine_sub, sub_eq_sub_iff_add_eq_add] at moved
  have limited : ∀ t ∈ (x i).form.terms,
      (blockingSide (x i).side t.2).admits ((f i).stored t.1) ((f j).stored t.1) = true := by
    rintro ⟨w, c⟩ member
    obtain ⟨rfl, occurs⟩ := LinearForm.mem_terms_iff.1 member
    rcases Nat.lt_trichotomy w v with less | rfl | greater
    · rcases smaller w less (entry.free w occurs) with still | within
      · rw [still]
        exact BoundKind.admits_refl _ _
      · -- stuck at the entry, and within its bounds at the exit
        obtain ⟨b, active, blocked⟩ := admits_of_blocked (entry.stuck w (entered ▸ less) occurs)
        exact BoundKind.admits_trans blocked
          (BoundStore.admits_iff.1 within _ b (bounds ▸ active))
    · -- put on a bound, which cannot be the one that would block it
      have movable := entry.movable
      have target := exit.target
      have outside := exit.outside
      rw [entered] at movable
      rw [left] at target outside
      rw [canMove, ← bounds, on_bound] at movable
      generalize blockingSide (x i).side ((x i).form.coeff w) = side at movable
      by_cases same : (x j).side = side
      · rw [← same, target] at movable
        exact absurd (BoundKind.admits_refl _ _) (BoundKind.tighter_iff.1 movable)
      · have opposite : (x j).side = side.opposite := by
          cases side <;> cases side_eq : (x j).side <;> simp_all [BoundKind.opposite]
        rw [opposite] at outside
        have beyond := (BoundKind.admits_total side.opposite _ _).resolve_left
          (BoundKind.tighter_iff.1 outside)
        rw [on_bound]
        exact BoundKind.opposite_admits.1 beyond
    · rw [larger w greater (entry.free w occurs)]
      exact BoundKind.admits_refl _ _
  have no_better := BoundKind.admits_add (admits_of_limited limited)
    (BoundKind.admits_refl _ ((f i).stored (x i).leaving - (x i).form.combine (f i).stored))
  have reached : (x i).form.combine (f j).stored +
      ((f i).stored (x i).leaving - (x i).form.combine (f i).stored) =
        (f j).stored (x i).leaving := by
    rw [← add_sub_assoc, ← moved, add_sub_cancel_right]
  rw [add_sub_cancel, reached] at no_better
  obtain ⟨active, at_side, value_eq⟩ := Option.map_eq_some_iff.1 entry.target
  have within := BoundStore.admits_iff.1 base _ active (bounds ▸ at_side)
  rw [value_eq] at within
  exact BoundKind.tighter_iff.1 entry.outside (BoundKind.admits_trans within no_better)

section Return

variable (bound : j ≤ n) (kinds : ∀ v, (f i).kind v = .nonBase ↔ (f j).kind v = .nonBase)
include bound kinds

/-- Between two states with the same bases a variable that leaves also enters. -/
theorem exists_entry {k : Nat} (from_i : i ≤ k) (before : k < j) :
    ∃ m, i ≤ m ∧ m < j ∧ (x m).entering = (x k).leaving := by
  by_contra absent
  have never (m : Nat) (from_i : i ≤ m) (before : m < j) : (x m).entering ≠ (x k).leaving :=
    fun same => absent ⟨m, from_i, before, same⟩
  have step := run.step k (Nat.lt_of_lt_of_le before bound)
  have later := run.rests before bound ((step.kind_next _).2 (.inl rfl)) fun m after =>
    never m (Nat.le_trans from_i (Nat.le_of_succ_le after))
  have earlier := run.rests from_i (Nat.le_of_lt (Nat.lt_of_lt_of_le before bound))
    ((kinds _).2 later.1) fun m from_i earlier => never m from_i (Nat.lt_trans earlier before)
  exact step.heads earlier.1

/-- Between two states with the same bases a variable that enters also leaves. -/
theorem exists_exit {k : Nat} (from_i : i ≤ k) (before : k < j) :
    ∃ m, i ≤ m ∧ m < j ∧ (x m).leaving = (x k).entering := by
  by_contra absent
  have never (m : Nat) (from_i : i ≤ m) (before : m < j) : (x m).leaving ≠ (x k).entering :=
    fun same => absent ⟨m, from_i, before, same⟩
  have step := run.step k (Nat.lt_of_lt_of_le before bound)
  have later := run.heads before bound step.heads_next fun m after =>
    never m (Nat.le_trans from_i (Nat.le_of_succ_le after))
  have earlier := run.heads from_i (Nat.le_of_lt (Nat.lt_of_lt_of_le before bound))
    (fun free => later ((kinds _).1 free)) fun m from_i earlier =>
      never m from_i (Nat.lt_trans earlier before)
  exact earlier (step.free _ step.occurs)

/-- When a greater variable leaves, a variable that also leaves at some time is within its bounds: those
that head a row and are out of them are greater, and otherwise it still is on the bound on which it was
put, or comes to be on the one on which it will be put. -/
theorem within_or_stays {out : Nat} (from_out : i ≤ out) (before_out : out < j)
    (values : ∀ v, (f i).kind v = .nonBase → (f i).stored v = (f j).stored v)
    (less : v < (x out).leaving) : (f out).bounds.admits v ((f out).stored v) = true ∨
      ∀ k, i ≤ k → k < j → (x k).leaving ≠ v := by
  by_cases leaves : ∃ k, i ≤ k ∧ k < j ∧ (x k).leaving = v
  · obtain ⟨k, from_i, before, left⟩ := leaves
    refine .inl ?_
    have out_le := Nat.le_of_lt (Nat.lt_of_lt_of_le before_out bound)
    have exit := run.step out (Nat.lt_of_lt_of_le before_out bound)
    by_cases free : (f out).kind v = .nonBase
    · by_cases earlier : ∃ q, i ≤ q ∧ q < out ∧ (x q).leaving = v
      · obtain ⟨q, -, before, left⟩ := earlier
        exact run.admits_after_exit before out_le left free
      · -- at rest since the first state, where it is as in the last one
        have start_free : (f i).kind v = .nonBase := by
          by_contra heads
          exact run.heads from_out out_le heads (fun q from_q before same =>
            earlier ⟨q, from_q, before, same⟩) free
        have rested : (f out).stored v = (f i).stored v := by
          refine (run.rests from_out out_le start_free fun q from_q before entered => ?_).2
          have headed := entered ▸ (run.step q (Nat.lt_of_lt_of_le before out_le)).heads_next
          exact run.heads before out_le headed (fun m after before_m same =>
            earlier ⟨m, Nat.le_trans from_q (Nat.le_of_succ_le after), before_m, same⟩) free
        rw [rested, values v start_free, (run.same out out_le).bounds,
          ← (run.same j bound).bounds]
        exact run.admits_after_exit before bound left ((kinds v).1 start_free)
    · exact exit.least v less free
  · exact .inr fun k from_i before same => leaves ⟨k, from_i, before, same⟩

/-- No configuration comes twice. -/
theorem false_of_return (less : i < j)
    (values : ∀ v, (f i).kind v = .nonBase → (f i).stored v = (f j).stored v) : False := by
  obtain ⟨m, inside, largest⟩ := Finset.exists_max_image (Finset.Ico i j)
    (fun k => (x k).entering) ⟨i, Finset.mem_Ico.2 ⟨Nat.le_refl i, less⟩⟩
  obtain ⟨from_m, before_m⟩ := Finset.mem_Ico.1 inside
  generalize top_eq : (x m).entering = top at largest
  have enters_le (k : Nat) (from_i : i ≤ k) (before : k < j) : (x k).entering ≤ top :=
    largest k (Finset.mem_Ico.2 ⟨from_i, before⟩)
  have leaves_le (k : Nat) (from_i : i ≤ k) (before : k < j) : (x k).leaving ≤ top := by
    obtain ⟨q, from_q, before_q, same⟩ := run.exists_entry bound kinds from_i before
    exact same ▸ enters_le q from_q before_q
  -- the largest variable that enters leaves at some time, and enters again where it was put
  obtain ⟨out, from_out, before_out, left⟩ := run.exists_exit bound kinds from_m before_m
  rw [top_eq] at left
  have exit := run.step out (Nat.lt_of_lt_of_le before_out bound)
  have put := exit.reached
  have free_after := (exit.kind_next top).2 (.inl left.symm)
  rw [left] at put
  obtain ⟨back, from_back, before_back, entered, on_bound⟩ : ∃ k, i ≤ k ∧ k < j ∧
      (x k).entering = top ∧ (f k).stored top = (x out).target := by
    by_cases later : ∃ k, out + 1 ≤ k ∧ k < j ∧ (x k).entering = top
    · obtain ⟨k, after, before, entered, stored⟩ := run.exists_first_entry bound free_after later
      exact ⟨k, Nat.le_trans from_out (Nat.le_of_succ_le after), before, entered,
        stored.trans put⟩
    · obtain ⟨free_end, at_end⟩ := run.rests before_out bound free_after fun k after before same =>
        later ⟨k, after, before, same⟩
      have free_start := (kinds top).2 free_end
      obtain ⟨k, from_i, before, entered, stored⟩ :=
        run.exists_first_entry bound free_start ⟨m, from_m, before_m, top_eq⟩
      exact ⟨k, from_i, before, entered,
        stored.trans ((values top free_start).trans (at_end.trans put))⟩
  have back_lt := Nat.lt_of_lt_of_le before_back bound
  have out_lt := Nat.lt_of_lt_of_le before_out bound
  have entry := run.step back back_lt
  have smaller (w : Var) (less : w < top) := run.within_or_stays bound kinds from_out before_out values
    (left.symm ▸ less)
  -- what heads no row and neither enters nor leaves is where it was
  have unmoved (w : Var) (stays : ∀ k, i ≤ k → k < j → (x k).leaving ≠ w)
      (never : ∀ k, i ≤ k → k < j → (x k).entering ≠ w) (free : (f back).kind w = .nonBase) :
      (f out).stored w = (f back).stored w := by
    have start_free : (f i).kind w = .nonBase := by
      by_contra heads
      exact run.heads from_back (Nat.le_of_lt back_lt) heads
        (fun k from_i before => stays k from_i (Nat.lt_trans before before_back)) free
    have rested (k : Nat) (from_i : i ≤ k) (before : k < j) : (f k).stored w = (f i).stored w :=
      (run.rests from_i (Nat.le_of_lt (Nat.lt_of_lt_of_le before bound)) start_free
        fun q from_q before_q => never q from_q (Nat.lt_trans before_q before)).2
    exact (rested out from_out before_out).trans (rested back from_back before_back).symm
  refine run.false_of_reentry back_lt out_lt left entered on_bound ?_ (fun w less free => ?_)
    fun w greater free => ?_
  · have below : (x back).leaving < top := by
      refine Nat.lt_of_le_of_ne (leaves_le back from_back before_back) fun same => ?_
      have free := entry.free _ entry.occurs
      rw [entered, ← same] at free
      exact entry.heads free
    exact (smaller _ below).resolve_right fun stays => stays back from_back before_back rfl
  · refine (smaller w less).symm.imp_left fun stays => unmoved w stays (fun k from_i before same => ?_) free
    obtain ⟨q, from_q, before_q, leaves⟩ := run.exists_exit bound kinds from_i before
    exact stays q from_q before_q (leaves.trans same)
  · exact unmoved w (fun k from_i before same =>
      absurd (same ▸ leaves_le k from_i before) (Nat.not_le.2 greater)) (fun k from_i before same =>
        absurd (same ▸ enters_le k from_i before) (Nat.not_le.2 greater)) free

end Return

/-! ## Configurations -/

/-- Where a variable is that heads no row: at its first place or on a bound. -/
theorem place {k : Nat} (le : k ≤ n) (free : (f k).kind v = .nonBase) :
    (f k).stored v = (f 0).stored v ∨
      ∃ kind, (f 0).bounds.value v kind = some ((f k).stored v) := by
  induction k with
  | zero => exact .inl rfl
  | succ k ih =>
    have step := run.step k le
    rcases (step.kind_next v).1 free with rfl | ⟨free, apart⟩
    · refine .inr ⟨(x k).side, ?_⟩
      rw [step.reached, ← (run.same k (Nat.le_of_lt le)).bounds]
      exact step.target
    · rw [step.kept v free apart]
      exact ih (Nat.le_of_lt le) free

omit run in
/-- Where a variable is, unless it heads a row. -/
def configuration (f : Nat → Engine) (k : Nat) (v : Fin (f 0).numVars) : Option InfRat :=
  if (f k).kind v = .nonBase then some ((f k).stored v) else none

omit run in
/-- Where a variable can be. -/
def places (e : Engine) (v : Fin e.numVars) : Finset (Option InfRat) :=
  {none, some (e.stored v), e.bounds.value v .lower, e.bounds.value v .upper}

theorem configuration_mem {k : Nat} (le : k ≤ n) :
    configuration f k ∈ Fintype.piFinset (places (f 0)) := by
  refine Fintype.mem_piFinset.2 fun v => ?_
  rw [configuration, places]
  split
  · rename_i free
    rcases run.place le free with same | ⟨_ | _, same⟩ <;> simp [same]
  · exact Finset.mem_insert_self _ _

/-- A variable that does not exist heads no row and has no value. -/
theorem free_of_le {k : Nat} (le : k ≤ n) (absent : (f 0).numVars ≤ v) :
    (f k).kind v = .nonBase ∧ (f k).stored v = 0 := by
  have fitted := (run.ready k le).fitted
  have beyond : (f k).numVars ≤ v := (run.same k le).numVars.symm ▸ absent
  constructor
  · refine Tableau.kind_eq_nonBase_iff.2 fun r row found same => ?_
    exact absurd (same ▸ fitted.tableau.base_lt found) (Nat.not_lt.2 beyond)
  · rw [State.stored, Array.getElem?_eq_none (fitted.values_size ▸ beyond)]
    rfl

/-- No configuration comes back: of the variables that take part in between, the greatest would have to
move both ways. -/
theorem false_of_same_configuration (less : i < j) (bound : j ≤ n)
    (same : configuration f i = configuration f j) : False := by
  have le := Nat.le_of_lt (Nat.lt_of_lt_of_le less bound)
  have at_var (v : Var) (lt : v < (f 0).numVars) :
      (if (f i).kind v = .nonBase then some ((f i).stored v) else none) =
        if (f j).kind v = .nonBase then some ((f j).stored v) else none :=
    congrFun same ⟨v, lt⟩
  refine run.false_of_return bound (fun v => ?_) less fun v free => ?_
  · rcases Nat.lt_or_ge v (f 0).numVars with lt | absent
    · have := at_var v lt
      grind
    · simp only [(run.free_of_le le absent).1, (run.free_of_le bound absent).1]
  · rcases Nat.lt_or_ge v (f 0).numVars with lt | absent
    · have := at_var v lt
      grind
    · rw [(run.free_of_le le absent).2, (run.free_of_le bound absent).2]

/-- A repair makes fewer exchanges than `pivotLimit` allows. -/
theorem lt_pivotLimit : n < (f 0).pivotLimit := by
  by_contra too_many
  have few : (Fintype.piFinset (places (f 0))).card < (Finset.range (n + 1)).card := by
    rw [Fintype.card_piFinset, Finset.card_range]
    calc ∏ v, (places (f 0) v).card
        ≤ ∏ _v : Fin (f 0).numVars, 6 := Finset.prod_le_prod' fun v _ =>
          Finset.card_le_four.trans (by decide)
      _ = (f 0).pivotLimit := by
          rw [Finset.prod_const, Finset.card_univ, Fintype.card_fin]
          rfl
      _ < n + 1 := Nat.lt_succ_of_le (Nat.not_lt.1 too_many)
  obtain ⟨a, in_a, b, in_b, apart, same⟩ :=
    Finset.exists_ne_map_eq_of_card_lt_of_maps_to few fun k inside =>
      Finset.mem_coe.2 (run.configuration_mem (Nat.lt_succ_iff.1 (Finset.mem_range.1 inside)))
  have a_le := Nat.lt_succ_iff.1 (Finset.mem_range.1 in_a)
  have b_le := Nat.lt_succ_iff.1 (Finset.mem_range.1 in_b)
  rcases Nat.lt_or_gt_of_ne apart with less | less
  · exact run.false_of_same_configuration less b_le same
  · exact run.false_of_same_configuration less a_le same.symm

end Run

/-! ## What the answer says -/

theorem repair_of_exchange? (found : e.exchange? = some next) (pivots : Nat) :
    repair (pivots + 1) e = repair pivots next := by
  obtain ⟨violation, rest, row, entering, first, at_row, chosen, rfl⟩ :=
    exchange?_eq_some_iff.1 found
  have chosen' : ({ e with toPatch := rest } : Engine).entering? row.form violation.kind =
      some entering := chosen
  rw [repair, first]
  simp only [at_row, chosen']

/-- When no exchange is due or possible it does not matter how many are allowed. -/
theorem repair_of_stuck (stuck : e.exchange? = none) (pivots : Nat) :
    repair pivots e = repair 0 e := by
  cases pivots with
  | zero => rfl
  | succ pivots =>
    rw [repair, repair]
    cases first : e.firstViolation? e.toPatch with
    | none => rfl
    | some found =>
      obtain ⟨violation, rest⟩ := found
      cases at_row : e.tableau.get? violation.row with
      | none => simp only [at_row]
      | some row =>
        have blocked : ({ e with toPatch := rest } : Engine).entering? row.form violation.kind =
            none := by
          by_contra chosen
          obtain ⟨entering, chosen⟩ := Option.ne_none_iff_exists'.1 chosen
          exact absurd (exchange?_eq_some_iff.2
            ⟨violation, rest, row, entering, first, at_row, chosen, rfl⟩) (by simp [stuck])
        simp only [at_row, blocked]

/-- When no exchange is due or possible, the answer tells whether there is a solution. -/
theorem repair_of_stuck_iff (repairable : e.Repairable) (stuck : e.exchange? = none) :
    (repair 0 e).2 = true ↔ ∃ φ, e.Solution φ := by
  rw [repair]
  cases first : e.firstViolation? e.toPatch with
  | none =>
    refine ⟨fun _ => ⟨e.stored, repairable.holds, fun v kind b active => ?_⟩, fun _ => rfl⟩
    have within := repairable.admits (repairable.bounded v kind b active)
      (firstViolation?_eq_none first)
    exact BoundStore.admits_iff.1 within kind b active
  | some found =>
    obtain ⟨violation, rest⟩ := found
    obtain ⟨violates, -⟩ := firstViolation?_eq_some first
    obtain ⟨row, at_row, -⟩ := Tableau.get?_of_rowOf? violates.heads
    have base_eq := violates.base_eq at_row
    have blocked : e.entering? row.form violation.kind = none := by
      by_contra chosen
      obtain ⟨entering, chosen⟩ := Option.ne_none_iff_exists'.1 chosen
      exact absurd (exchange?_eq_some_iff.2
        ⟨violation, rest, row, entering, first, at_row, chosen, rfl⟩) (by simp [stuck])
    have blocked' : ({ e with toPatch := rest } : Engine).entering? row.form violation.kind =
        none := blocked
    simp only [at_row, blocked', Bool.false_eq_true, false_iff, not_exists]
    rintro φ ⟨rows, bounds⟩
    obtain ⟨b, active, target⟩ := Option.map_eq_some_iff.1 violates.target
    refine false_of_blocked (repairable.holds _ _ at_row) (base_eq ▸ violates.outside) blocked
      (rows _ _ at_row) ?_ fun t _ b active => bounds _ _ b active
    rw [base_eq, ← target]
    exact bounds _ _ b active

/-- The engine after the next exchange, or the same when none is due or possible. -/
def advance (e : Engine) : Engine := e.exchange?.getD e

theorem repair_advance (e : Engine) (pivots count : Nat) :
    repair (pivots + count) e = repair pivots (advance^[count] e) := by
  induction count generalizing e with
  | zero => rfl
  | succ count ih =>
    rw [Function.iterate_succ_apply, ← ih]
    cases found : e.exchange? with
    | none =>
      rw [advance, found, Option.getD_none, repair_of_stuck found (pivots + count)]
      exact repair_of_stuck found _
    | some next =>
      rw [advance, found, Option.getD_some, ← repair_of_exchange? found]
      rfl

theorem exchangeable_advance (ready : e.Exchangeable) (count : Nat) :
    (advance^[count] e).Exchangeable ∧ e.SameProblem (advance^[count] e) := by
  induction count with
  | zero => exact ⟨ready, .refl e⟩
  | succ count ih =>
    obtain ⟨ready, same⟩ := ih
    rw [Function.iterate_succ_apply', advance]
    cases found : (advance^[count] e).exchange? with
    | none => exact ⟨ready, same⟩
    | some next =>
      obtain ⟨after, step⟩ := exchangeable_exchange ready found
      exact ⟨after, same.trans step⟩

theorem repairable_advance (repairable : e.Repairable) (count : Nat) :
    (advance^[count] e).Repairable ∧ e.SameProblem (advance^[count] e) := by
  induction count with
  | zero => exact ⟨repairable, .refl e⟩
  | succ count ih =>
    obtain ⟨repairable, same⟩ := ih
    rw [Function.iterate_succ_apply', advance]
    cases found : (advance^[count] e).exchange? with
    | none => exact ⟨repairable, same⟩
    | some next =>
      obtain ⟨after, step⟩ := repairable_exchange repairable found
      exact ⟨after, same.trans step⟩

/-- Before the limit is reached no further exchange is due or possible. -/
theorem exists_stuck (ready : e.Exchangeable) :
    ∃ count, count < e.pivotLimit ∧ (advance^[count] e).exchange? = none := by
  by_contra going
  have found : ∀ k < e.pivotLimit,
      (advance^[k] e).exchange? = some (advance^[k + 1] e) := by
    intro k lt
    obtain ⟨next, found⟩ := Option.ne_none_iff_exists'.1 fun stuck => going ⟨k, lt, stuck⟩
    rw [Function.iterate_succ_apply', advance, found, Option.getD_some]
  obtain ⟨x, run⟩ := exists_run (f := fun k => advance^[k] e) ready found
  exact Nat.lt_irrefl _ run.lt_pivotLimit

/-- From a repairable engine there are not infinitely many exchanges; the limit on their number plays
no role; and the answer of the repair tells whether the rows and the active bounds have a solution. -/
theorem makeFeasible_decides (e : Engine) (repairable : e.Repairable) :
    (¬∃ f : Nat → Engine, f 0 = e ∧ ∀ k, (f k).exchange? = some (f (k + 1))) ∧
      (∀ more, repair (e.pivotLimit + more) e = e.makeFeasible) ∧
      (e.makeFeasible.2 = true ↔ ∃ φ, e.Solution φ) := by
  obtain ⟨count, lt, stuck⟩ := exists_stuck repairable.toExchangeable
  obtain ⟨last, same⟩ := repairable_advance repairable count
  have answer (more : Nat) :
      repair (e.pivotLimit + more) e = repair 0 (advance^[count] e) := by
    have split_limit : e.pivotLimit + more = (e.pivotLimit + more - count) + count := by omega
    rw [split_limit, repair_advance, repair_of_stuck stuck]
  refine ⟨?_, fun more => (answer more).trans (answer 0).symm, ?_⟩
  · rintro ⟨f, rfl, found⟩
    obtain ⟨x, run⟩ := exists_run repairable.toExchangeable fun k (_ : k < (f 0).pivotLimit) => found k
    exact Nat.lt_irrefl _ run.lt_pivotLimit
  · rw [show e.makeFeasible = _ from answer 0, repair_of_stuck_iff last stuck]
    exact exists_congr fun φ => same.solution_iff

/-- Between two elementary steps a repair can start as soon as every row is in reduced form. -/
theorem Exchangeable.of_invariant {h : History} (inv : e.Invariant h)
    (normalized : e.tableau.Normalized) (increasing : e.toPatch.Pairwise (· < ·)) :
    e.Exchangeable where
  fitted := inv.founded.formed.toFitted
  normalized := normalized
  patched := inv.patched
  ordered := inv.founded.formed.bounds.ordered
  bounded _ _ _ active := inv.founded.formed.bounds.lt_of_get active
  increasing := increasing

theorem Repairable.of_invariant {h : History} (inv : e.Invariant h) (reliable : e.Reliable)
    (normalized : e.tableau.Normalized) (increasing : e.toPatch.Pairwise (· < ·)) :
    e.Repairable :=
  ⟨.of_invariant inv normalized increasing, inv.assigned reliable⟩

end Engine

namespace Session

open Engine

/-- A sum of two variables that is at least three while the first one is at most one: the first one
enters the row, has to leave it again, and the sum sits on its bound. -/
def leaning : List Call :=
  [.mkVar .real .internal, .mkVar .real .internal, .mkLinear .real .internal [(0, 1), (1, 1)],
    .assertGiven 0 .upper (.ofRat 1), .assertGiven 2 .lower (.ofRat 3)]

theorem run_leaning :
    ((start { eagerNormalization := true }).run leaning).engine.tableau.rows.all
        (fun row => !row.pending) = true ∧
      ((start { eagerNormalization := true }).run leaning).engine.toPatch = [2] ∧
      ((start { eagerNormalization := true }).run leaning).engine.makeFeasible.2 = true ∧
      ((start { eagerNormalization := true }).run leaning).engine.scopesEntered = 0 := by
  refine ⟨by cbv, by cbv, by cbv, by cbv⟩

theorem repairable_leaning :
    ((start { eagerNormalization := true }).run leaning).engine.Repairable := by
  obtain ⟨settled, waits, -, none_entered⟩ := run_leaning
  refine .of_invariant (ready_run _ leaning).invariant
    (State.Numbered.of_none none_entered).reliable (fun r row found => ?_) ?_
  · obtain ⟨in_range, rfl⟩ := Array.getElem?_eq_some_iff.1 found
    simpa using Array.all_eq_true.1 settled r in_range
  · rw [waits]
    exact List.pairwise_singleton _ _

theorem makeFeasible_decides_leaning :
    (¬∃ f : Nat → Engine, f 0 = ((start { eagerNormalization := true }).run leaning).engine ∧
        ∀ k, (f k).exchange? = some (f (k + 1))) ∧
      ∃ φ, ((start { eagerNormalization := true }).run leaning).engine.Solution φ := by
  have ⟨finite, _, decides⟩ := makeFeasible_decides _ repairable_leaning
  exact ⟨finite, decides.1 run_leaning.2.2.1⟩

end Session

end ArithDecide
