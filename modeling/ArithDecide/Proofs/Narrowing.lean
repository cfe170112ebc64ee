import ArithDecide.Proofs.Conservation
import ArithDecide.Search
import Mathlib.Algebra.Order.BigOperators.Group.List

/-!
# How far integer variables can still be narrowed

The active bounds of an integer variable are integers, so their distance is a natural number. The room
of an engine adds up these distances for its first integer variables. Bounds are only tightened while
scopes are entered, which does not increase the room, and a bound that becomes active on one of these
variables takes at least one from it: `room_le` and `room_lt`.
-/

namespace ArithDecide.Engine

open State

variable {e next : Engine} {h k : History} {n : Nat} {v : Var} {l u l' u' : Int} {x : InfRat}
  {kind : BoundKind}

namespace State

variable {s t w : State}

/-- The later state has the variables of the earlier one, and its bounds are as tight. -/
structure Narrows (s t : State) : Prop where
  numVars : s.numVars ≤ t.numVars
  isInt : ∀ v, v < s.numVars → t.isInt v = s.isInt v
  covers : ∀ v kind value, s.bounds.Covers v kind value → t.bounds.Covers v kind value

theorem Keeps.narrows (keeps : s.Keeps t) : s.Narrows t :=
  ⟨keeps.numVars, keeps.isInt, keeps.covers⟩

theorem Narrows.of_eq (columns : t.columns = s.columns) (bounds : t.bounds = s.bounds) :
    s.Narrows t :=
  ⟨Nat.le_of_eq (numVars_congr columns).symm, fun v _ => isInt_congr columns v,
    fun _ _ _ covered => bounds ▸ covered⟩

theorem Narrows.trans (first : s.Narrows t) (second : t.Narrows w) : s.Narrows w where
  numVars := first.numVars.trans second.numVars
  isInt v lt := (second.isInt v (Nat.lt_of_lt_of_le lt first.numVars)).trans (first.isInt v lt)
  covers v kind value covered := second.covers v kind value (first.covers v kind value covered)

/-! ## Integer bounds -/

/-- The active bounds of the variable are the two integers. -/
structure Spans (s : State) (v : Var) (l u : Int) : Prop where
  lower : s.bounds.lowerValue v = some (.ofRat l)
  upper : s.bounds.upperValue v = some (.ofRat u)
  le : l ≤ u

/-- The first integer variables have bounds on both sides. -/
def Enclosed (s : State) (n : Nat) : Prop :=
  ∀ v, v < n → s.isInt v = true → ∀ kind, ∃ b, s.bounds.get v kind = some b

/-- A variable with bounds on both sides spans two integers. -/
theorem Enclosed.spans (enclosed : s.Enclosed n) (founded : s.Founded h) (lt : v < n)
    (integer : s.isInt v = true) : ∃ l u, s.Spans v l u := by
  have bound (kind : BoundKind) :
      ∃ b, s.bounds.get v kind = some b ∧ ∃ j : Int, b.value = .ofRat j := by
    obtain ⟨b, found⟩ := enclosed v lt integer kind
    refine ⟨b, found, founded.rounded v kind b.value integer ?_⟩
    rw [BoundStore.value, found, Option.map_some]
  obtain ⟨lower, at_lower, l, lower_eq⟩ := bound .lower
  obtain ⟨upper, at_upper, u, upper_eq⟩ := bound .upper
  refine ⟨l, u, ?_, ?_, ?_⟩
  · rw [BoundStore.lowerValue, BoundStore.value, at_lower, Option.map_some, lower_eq]
  · rw [BoundStore.upperValue, BoundStore.value, at_upper, Option.map_some, upper_eq]
  · have ordered := founded.formed.bounds.ordered v lower upper at_lower at_upper
    rw [lower_eq, upper_eq, InfRat.ofRat_le] at ordered
    exact_mod_cast ordered

theorem covers_of_value {a : InfRat} (found : s.bounds.value v kind = some a) :
    s.bounds.Covers v kind x ↔ kind.admits x a = true := by
  obtain ⟨b, active, rfl⟩ := Option.map_eq_some_iff.1 found
  refine ⟨fun ⟨other, found', admits⟩ => ?_, fun admits => ⟨b, active, admits⟩⟩
  obtain rfl := Option.some.inj (active.symm.trans found')
  exact admits

theorem Spans.covers_lower (spans : s.Spans v l u) :
    s.bounds.Covers v .lower x ↔ x ≤ .ofRat l := by
  rw [covers_of_value spans.lower, BoundKind.admits_lower]

theorem Spans.covers_upper (spans : s.Spans v l u) :
    s.bounds.Covers v .upper x ↔ .ofRat u ≤ x := by
  rw [covers_of_value spans.upper, BoundKind.admits_upper]

/-- A value within the bounds lies in the span. -/
theorem Spans.around (spans : s.Spans v l u) (within : s.bounds.admits v x = true) :
    .ofRat l ≤ x ∧ x ≤ .ofRat u := by
  obtain ⟨lower, at_lower, lower_eq⟩ := Option.map_eq_some_iff.1 spans.lower
  obtain ⟨upper, at_upper, upper_eq⟩ := Option.map_eq_some_iff.1 spans.upper
  have admits := BoundStore.admits_iff.1 within
  exact ⟨BoundKind.admits_lower.1 (lower_eq ▸ admits _ lower at_lower),
    BoundKind.admits_upper.1 (upper_eq ▸ admits _ upper at_upper)⟩

theorem Narrows.enclosed (narrows : s.Narrows t) (within : n ≤ s.numVars)
    (enclosed : s.Enclosed n) : t.Enclosed n := by
  intro v lt integer kind
  rw [narrows.isInt v (Nat.lt_of_lt_of_le lt within)] at integer
  obtain ⟨b, found⟩ := enclosed v lt integer kind
  obtain ⟨active, found', -⟩ :=
    narrows.covers v kind b.value ⟨b, found, BoundKind.admits_refl _ _⟩
  exact ⟨active, found'⟩

/-- A later span lies within the earlier one. -/
theorem Narrows.spans (narrows : s.Narrows t) (before : s.Spans v l u) (after : t.Spans v l' u') :
    l ≤ l' ∧ u' ≤ u := by
  have lower := after.covers_lower.1 (narrows.covers v .lower _ (before.covers_lower.2 (le_refl _)))
  have upper := after.covers_upper.1 (narrows.covers v .upper _ (before.covers_upper.2 (le_refl _)))
  rw [InfRat.ofRat_le] at lower upper
  exact ⟨by exact_mod_cast lower, by exact_mod_cast upper⟩

/-- It is a smaller one if a new bound is active. -/
theorem Narrows.spans_ne (before : s.Spans v l u) (after : t.Spans v l' u')
    (open_before : ¬s.bounds.Covers v kind x) (covered : t.bounds.Covers v kind x) :
    l' ≠ l ∨ u' ≠ u := by
  cases kind with
  | lower =>
    refine .inl fun same => open_before (before.covers_lower.2 ?_)
    exact same ▸ after.covers_lower.1 covered
  | upper =>
    refine .inr fun same => open_before (before.covers_upper.2 ?_)
    exact same ▸ after.covers_upper.1 covered

end State

/-! ## Room -/

theorem width_of_spans (integer : e.isInt v = true) (spans : e.Spans v l u) :
    e.width v = (u - l).toNat := by
  rw [width, integer, spans.lower, spans.upper]
  show ((u : Rat) - l).floor.toNat = _
  rw [← Int.cast_sub, Rat.floor_intCast]

theorem width_of_real (real : e.isInt v = false) : e.width v = 0 := by
  rw [width, real]

/-- What bounds leave to the first integer variables. -/
def room (e : Engine) (n : Nat) : Nat := ((List.range n).map e.width).sum

section

variable (narrows : e.Narrows next.toState) (founded : e.Founded h) (later : next.Founded k)
  (within : n ≤ e.numVars) (enclosed : e.Enclosed n)
include narrows founded later within enclosed

theorem width_le (lt : v < n) : next.width v ≤ e.width v := by
  have same := narrows.isInt v (Nat.lt_of_lt_of_le lt within)
  cases integer : e.isInt v with
  | false => rw [width_of_real (same.trans integer), width_of_real integer]
  | true =>
    obtain ⟨l, u, before⟩ := enclosed.spans founded lt integer
    obtain ⟨l', u', after⟩ :=
      (narrows.enclosed within enclosed).spans later lt (same.trans integer)
    obtain ⟨lower, upper⟩ := narrows.spans before after
    rw [width_of_spans integer before, width_of_spans (same.trans integer) after]
    omega

theorem room_le : next.room n ≤ e.room n :=
  List.sum_le_sum fun _ member =>
    width_le narrows founded later within enclosed (List.mem_range.1 member)

/-- A new bound of one of the first integer variables takes from the room. -/
theorem room_lt (lt : v < n) (integer : e.isInt v = true)
    (open_before : ¬e.bounds.Covers v kind x) (covered : next.bounds.Covers v kind x) :
    next.room n < e.room n := by
  refine List.sum_lt_sum _ _ (fun _ member =>
    width_le narrows founded later within enclosed (List.mem_range.1 member))
    ⟨v, List.mem_range.2 lt, ?_⟩
  have same := (narrows.isInt v (Nat.lt_of_lt_of_le lt within)).trans integer
  obtain ⟨l, u, before⟩ := enclosed.spans founded lt integer
  obtain ⟨l', u', after⟩ := (narrows.enclosed within enclosed).spans later lt same
  have inside := narrows.spans before after
  have smaller := Narrows.spans_ne before after open_before covered
  have nonempty := after.le
  rw [width_of_spans integer before, width_of_spans same after]
  omega

end

section

variable {lower upper : Var → InfRat}
  (bounded : ∀ v, v < n → e.isInt v = true →
    e.bounds.lowerValue v = some (lower v) ∧ e.bounds.upperValue v = some (upper v))
include bounded

theorem enclosed_of_values : e.Enclosed n := by
  intro v lt integer kind
  obtain ⟨at_lower, at_upper⟩ := bounded v lt integer
  cases kind with
  | lower => exact (Option.map_eq_some_iff.1 at_lower).imp fun _ found => found.1
  | upper => exact (Option.map_eq_some_iff.1 at_upper).imp fun _ found => found.1

/-- The distance of the bounds of an integer variable. -/
theorem cast_width (founded : e.Founded h) (lt : v < n) (integer : e.isInt v = true) :
    (e.width v : Rat) = (upper v).real - (lower v).real := by
  obtain ⟨l, u, spans⟩ := (enclosed_of_values bounded).spans founded lt integer
  obtain ⟨at_lower, at_upper⟩ := bounded v lt integer
  have distance : ((u - l).toNat : Int) = u - l := Int.toNat_of_nonneg (by linarith [spans.le])
  rw [width_of_spans integer spans, ← Int.cast_natCast, distance, Int.cast_sub,
    Option.some.inj (at_lower.symm.trans spans.lower),
    Option.some.inj (at_upper.symm.trans spans.upper)]
  rfl

/-- The room adds up the distances of the bounds of the integer variables. -/
theorem cast_room (founded : e.Founded h) : (e.room n : Rat) =
    (((List.range n).filter e.isInt).map fun v => (upper v).real - (lower v).real).sum := by
  have integers (v : Var) (member : v ∈ List.range n) : e.isInt v = true →
      (e.width v : Rat) = (upper v).real - (lower v).real :=
    cast_width bounded founded (List.mem_range.1 member)
  rw [room]
  generalize List.range n = vs at integers
  induction vs with
  | nil => rfl
  | cons v rest ih =>
    have others := ih fun w member => integers w (List.mem_cons_of_mem _ member)
    rw [List.map_cons, List.sum_cons, Nat.cast_add, others]
    cases integer : e.isInt v with
    | false =>
      rw [List.filter_cons_of_neg (by simp [integer]), width_of_real integer, Nat.cast_zero, zero_add]
    | true =>
      rw [List.filter_cons_of_pos integer, List.map_cons, List.sum_cons,
        integers v List.mem_cons_self integer]

end

/-- There is room if one of the first integer variables spans two integers. -/
theorem room_pos (lt : v < n) (integer : e.isInt v = true) (spans : e.Spans v l u) (less : l < u) :
    0 < e.room n := by
  have part : e.width v ≤ e.room n :=
    List.le_sum_of_mem (List.mem_map.2 ⟨v, List.mem_range.2 lt, rfl⟩)
  rw [width_of_spans integer spans] at part
  omega

end ArithDecide.Engine
