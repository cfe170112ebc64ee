import Mathlib
import ArithDecide.Proofs.Divisibility
import ArithDecide.Proofs.Sessions

/-!
# What the divisibility tests decide

The plain test is exact: a row in which only integers are free has a solution with these, and with the
fixed variables at their values, exactly if the common divisor of the scaled coefficients divides the
scaled constant. In one direction the divisor divides every combination of the coefficients, in the
other one it is such a combination itself. The extended test is sound. Whichever of them fails, the
bounds that it blames leave the row without integer solutions (`Session.divisibility_tests_decide`).
-/

namespace ArithDecide

/-! ## Common divisors are combinations -/

/-- The common divisor of a number and the coefficients is a combination of them. -/
theorem exists_combination_foldl_gcd {terms : List (Var × Int)}
    (distinct : (terms.map Prod.fst).Nodup) (start : Nat) :
    ∃ (m : Int) (n : Var → Int), m * start + (terms.map fun t => t.2 * n t.1).sum =
      ((terms.map Prod.snd).foldl (fun acc value => acc.gcd value.natAbs) start : Nat) := by
  induction terms generalizing start with
  | nil => exact ⟨1, 0, by simp⟩
  | cons t rest ih =>
    rw [List.map_cons, List.nodup_cons] at distinct
    obtain ⟨absent, distinct⟩ := distinct
    obtain ⟨m, n, sum⟩ := ih distinct (start.gcd t.2.natAbs)
    -- the variable of the first term takes part in the divisor of the first two numbers
    generalize share_eq : m * start.gcdB t.2.natAbs * t.2.sign = share
    refine ⟨m * start.gcdA t.2.natAbs, Function.update n t.1 share, ?_⟩
    have others : (rest.map fun s => s.2 * Function.update n t.1 share s.1) =
        rest.map fun s => s.2 * n s.1 := by
      refine List.map_congr_left fun s member => ?_
      rw [Function.update_of_ne]
      rintro same
      exact absent (same ▸ List.mem_map_of_mem member)
    have first : (start.gcd t.2.natAbs : Int) =
        start * start.gcdA t.2.natAbs + t.2 * t.2.sign * start.gcdB t.2.natAbs := by
      rw [Int.mul_sign_self]
      exact Nat.gcd_eq_gcd_ab _ _
    rw [List.map_cons, List.sum_cons, Function.update_self, others, List.map_cons, List.foldl_cons,
      ← sum, first, ← share_eq]
    ring

/-- Every multiple of the common divisor is a combination of the coefficients. -/
theorem exists_combination_of_dvd {terms : List (Var × Int)}
    (distinct : (terms.map Prod.fst).Nodup) {k : Int}
    (divides : (gcdOfInts (terms.map Prod.snd) : Int) ∣ k) :
    ∃ n : Var → Int, (terms.map fun t => t.2 * n t.1).sum = k := by
  obtain ⟨c, rfl⟩ := divides
  obtain ⟨m, n, sum⟩ := exists_combination_foldl_gcd distinct 0
  rw [Nat.cast_zero, mul_zero, zero_add] at sum
  refine ⟨fun v => n v * c, ?_⟩
  rw [gcdOfInts, ← sum, ← List.sum_map_mul_right]
  exact congrArg List.sum (List.map_congr_left fun t _ => (mul_assoc _ _ _).symm)

namespace Engine

open State

variable {e : Engine} {h : History} {α : Var → Rat} {row : Row} {r : RowId} {scaled : ScaledRow}
  {scale : Rat} {v : Var}

/-- The plain test asks whether the common divisor divides the constant. -/
theorem ScaledRow.divides_iff_dvd :
    scaled.divides = true ↔ (gcdOfInts (scaled.free.map Prod.snd) : Int) ∣ scaled.constant := by
  rw [ScaledRow.divides]
  split
  · rename_i none_free
    rw [decide_eq_true_eq, none_free, Nat.cast_zero, zero_dvd_iff]
  · rw [decide_eq_true_eq, Int.dvd_iff_emod_eq_zero]

/-- The plain test is passed exactly by rows with an integer solution. -/
theorem ScaledRow.divides_iff (distinct : (scaled.free.map Prod.fst).Nodup) :
    scaled.divides = true ↔
      ∃ n : Var → Int, scaled.constant + (scaled.free.map fun t => t.2 * n t.1).sum = 0 := by
  refine ⟨fun divides => ?_, fun ⟨n, zero⟩ => divides_of_solution zero⟩
  obtain ⟨n, sum⟩ := exists_combination_of_dvd distinct
    (dvd_neg.2 (ScaledRow.divides_iff_dvd.1 divides))
  exact ⟨n, by rw [sum, add_neg_cancel]⟩

/-! ## Free variables -/

/-- The free variables of a scaled row are those of the row. -/
theorem ScaledRow.Scales.vars_free (scales : scaled.Scales e row scale) :
    scaled.free.map Prod.fst =
      (row.zeroTerms.filter fun t => !e.bounds.isFixed t.1).map Prod.fst := by
  have vars := congrArg (List.map Prod.fst) scales.free
  rwa [List.map_map, List.map_map] at vars

theorem ScaledRow.Scales.exists_of_mem_free (scales : scaled.Scales e row scale)
    {t : Var × Int} (member : t ∈ scaled.free) :
    e.bounds.isFixed t.1 = false ∧ ∃ u ∈ row.zeroTerms, u.1 = t.1 := by
  have var : t.1 ∈ scaled.free.map Prod.fst := List.mem_map_of_mem member
  rw [scales.vars_free] at var
  obtain ⟨u, at_u, same⟩ := List.mem_map.1 var
  obtain ⟨here, free⟩ := List.mem_filter.1 at_u
  rw [Bool.not_eq_true', same] at free
  exact ⟨free, u, here, same⟩

theorem ScaledRow.Scales.distinct_free (scales : scaled.Scales e row scale)
    (distinct : row.zeroTerms.Pairwise fun s t => s.1 ≠ t.1) : (scaled.free.map Prod.fst).Nodup := by
  rw [scales.vars_free]
  exact List.pairwise_map.2 (distinct.filter _)

/-- A row is scaled exactly if only integers are free. -/
theorem isSome_scaleRow? : (e.scaleRow? row).isSome = true ↔
    ∀ t ∈ row.zeroTerms, e.bounds.isFixed t.1 = false → e.isInt t.1 = true := by
  rw [scaleRow?]
  simp only
  split
  · rename_i all_int
    refine iff_of_true rfl fun t member free => ?_
    exact List.all_eq_true.1 all_int t (List.mem_filter.2 ⟨member, by rw [free]; rfl⟩)
  · rename_i some_real
    refine iff_of_false Bool.false_ne_true fun all_int => some_real ?_
    refine List.all_eq_true.2 fun t member => ?_
    obtain ⟨here, free⟩ := List.mem_filter.1 member
    exact all_int t here (by rwa [Bool.not_eq_true'] at free)

/-! ## The plain test -/

/-- The assignment satisfies the row; the fixed variables have their values and the others are
integers. -/
structure Completes (e : Engine) (row : Row) (α : Var → Rat) : Prop where
  holds : row.Holds α
  fixed : ∀ t ∈ row.zeroTerms, ∀ value, e.fixedValue? t.1 = some value → .ofRat (α t.1) = value
  integral : ∀ t ∈ row.zeroTerms, e.bounds.isFixed t.1 = false → ∃ n : Int, α t.1 = n

/-- The infinitesimal parts of all bounds point to their sides. -/
def Coherent (e : Engine) : Prop :=
  ∀ v kind value, e.bounds.value v kind = some value → kind.Coherent value

theorem coherent_of_records (bounds : e.bounds.WellFormed e.numVars)
    (all : ∀ b ∈ e.bounds.records, b.Coherent) : e.Coherent := by
  intro v kind value active
  obtain ⟨b, found, rfl⟩ := Option.map_eq_some_iff.1 active
  obtain ⟨record, -, rfl⟩ := bounds.active found
  exact all b record

/-- A variable is fixed to a rational. -/
theorem Coherent.fixedValue? (coherent : e.Coherent) {value : InfRat}
    (found : e.fixedValue? v = some value) : value = .ofRat value.real := by
  rw [Engine.fixedValue?, Option.ite_none_right_eq_some] at found
  obtain ⟨other, -, active⟩ := fixedValue?_of_isFixed found.1
  obtain rfl := Option.some.inj ((active .lower).symm.trans found.2)
  exact InfRat.ext rfl (le_antisymm (coherent v .upper _ (active .upper))
    (coherent v .lower _ (active .lower)))

/-- What completes a row solves its scaled form. -/
theorem Completes.holds_scaled (completes : e.Completes row α) (scales : scaled.Scales e row scale) :
    scaled.Holds α ∧ ∀ t ∈ scaled.free, ∃ n : Int, α t.1 = n := by
  refine ⟨(scales.holds_iff fun t member fixed => ?_).2 completes.holds, fun t member => ?_⟩
  · obtain ⟨value, found, -⟩ := fixedValue?_of_isFixed fixed
    rw [found]
    exact congrArg InfRat.real (completes.fixed t member value found)
  · obtain ⟨free, u, at_u, same⟩ := scales.exists_of_mem_free member
    rw [← same] at free ⊢
    exact completes.integral u at_u free

/-- The fixed variables at their values, and the given integers for all others. -/
def completion (e : Engine) (n : Var → Int) (v : Var) : Rat :=
  if e.bounds.isFixed v then ((e.fixedValue? v).getD 0).real else n v

/-- Integers that solve the scaled row complete the fixed values to an integral solution of the row. -/
theorem completes_completion (coherent : e.Coherent) (scales : scaled.Scales e row scale)
    {n : Var → Int} (zero : scaled.constant + (scaled.free.map fun t => t.2 * n t.1).sum = 0) :
    e.Completes row (e.completion n) where
  holds := by
    refine (scales.holds_iff fun t _ fixed => if_pos fixed).1 ?_
    have free : (scaled.free.map fun t => (t.2 : Rat) * e.completion n t.1).sum =
        ((scaled.free.map fun t => t.2 * n t.1).sum : Int) := by
      rw [Int.cast_list_sum, List.map_map]
      refine congrArg List.sum (List.map_congr_left fun t member => ?_)
      obtain ⟨free, -⟩ := scales.exists_of_mem_free member
      rw [completion, if_neg (by rw [free]; exact Bool.false_ne_true), Function.comp_apply,
        Int.cast_mul]
    rw [ScaledRow.Holds, free]
    exact_mod_cast zero
  fixed t _ value found := by
    have fixed : e.bounds.isFixed t.1 = true := (Option.ite_none_right_eq_some.1 found).1
    rw [completion, if_pos fixed, found]
    exact (coherent.fixedValue? found).symm
  integral t _ free := ⟨n t.1, if_neg (by rw [free]; exact Bool.false_ne_true)⟩

/-- The plain test fails exactly on rows that no integers complete. -/
theorem divides_eq_false_iff (coherent : e.Coherent) (scales : scaled.Scales e row scale)
    (distinct : row.zeroTerms.Pairwise fun s t => s.1 ≠ t.1) :
    scaled.divides = false ↔ ¬∃ α, e.Completes row α := by
  rw [← Bool.not_eq_true, ScaledRow.divides_iff (scales.distinct_free distinct), not_iff_not]
  constructor
  · rintro ⟨n, zero⟩
    exact ⟨_, completes_completion coherent scales zero⟩
  · rintro ⟨α, completes⟩
    obtain ⟨holds, integral⟩ := completes.holds_scaled scales
    obtain ⟨n, -, zero⟩ := exists_int_solution integral holds
    exact ⟨n, zero⟩

/-! ## The extended test -/

/-- A variable within its bounds respects them. -/
theorem respects_bothSides (bounds : e.bounds.WellFormed e.numVars) {vs : List Var}
    (within : ∀ v ∈ vs, e.bounds.admits v (.ofRat (α v)) = true) :
    e.Respects α (bothSides vs) := by
  intro u member b active
  obtain ⟨v, at_v, side⟩ := List.mem_flatMap.1 member
  have var_eq : u.1 = v := by
    rcases List.mem_pair.1 side with rfl | rfl <;> rfl
  obtain ⟨-, same, kind_eq⟩ := bounds.active active
  have admits := BoundStore.admits_iff.1 (within v at_v) u.2 b (var_eq ▸ active)
  rw [← var_eq, ← same, ← kind_eq] at admits
  exact admits

/-- The extended test fails only on rows that no integers complete with the variables of the least
coefficient within their bounds. -/
theorem not_completes_of_extended (bounds : e.bounds.WellFormed e.numVars)
    (scales : scaled.Scales e row scale) {reasons : List Dependency}
    (found : e.extendedRefutation? scaled = some reasons) :
    ¬∃ α, e.Completes row α ∧
      ∀ v ∈ scaled.leastVars, e.bounds.admits v (.ofRat (α v)) = true := by
  rintro ⟨α, completes, within⟩
  obtain ⟨holds, integral⟩ := completes.holds_scaled scales
  exact (refuted_of_extended bounds found).2 α integral holds (respects_bothSides bounds within)

/-! ## What is blamed -/

/-- A test of a row that was scaled fails exactly if one of the two tests does. -/
theorem testDivisibility_eq (found : e.tableau.get? r = some row) (settled : row.pending = false)
    (scaled_row : e.scaleRow? row = some scaled) :
    (e.testDivisibility r).2 = (e.divisibilityRefutation? scaled).isNone ∧
      ∀ reasons, e.divisibilityRefutation? scaled = some reasons → e.isInfeasible = false →
        (e.testDivisibility r).1.status = .infeasible (e.joinReasons reasons).2 := by
  have chosen : ((e.tableau.get? r).filter fun row => !row.pending).bind e.scaleRow? = some scaled := by
    rw [found, Option.filter_some, settled]
    exact scaled_row
  have same : (e.count fun s => { s with gcdTests := s.gcdTests + 1 }).divisibilityRefutation? scaled =
      e.divisibilityRefutation? scaled := rfl
  simp only [testDivisibility, chosen, same]
  cases refutation : e.divisibilityRefutation? scaled with
  | none =>
    refine ⟨rfl, fun reasons absent => ?_⟩
    cases absent
  | some reasons =>
    refine ⟨rfl, fun others same calm => ?_⟩
    obtain rfl := Option.some.inj same
    exact status_setConflict calm

theorem isSome_divisibilityRefutation? : (e.divisibilityRefutation? scaled).isSome = true ↔
    scaled.divides = false ∨ (e.extendedRefutation? scaled).isSome = true := by
  rw [divisibilityRefutation?]
  cases divides : scaled.divides with
  | true => simp
  | false => simp

/-- A row with a real variable that is not fixed is not tested. -/
theorem testDivisibility_of_real (found : e.tableau.get? r = some row)
    (unscaled : e.scaleRow? row = none) : e.testDivisibility r = (e, true) := by
  have chosen : ((e.tableau.get? r).filter fun row => !row.pending).bind e.scaleRow? = none := by
    rw [found, Option.filter_some]
    split
    · exact unscaled
    · rfl
  simp only [testDivisibility, chosen]

/-- All bounds that are blamed are active. -/
theorem isSome_of_blamed (scaled_row : e.scaleRow? row = some scaled) {reasons : List Dependency}
    (refutation : e.divisibilityRefutation? scaled = some reasons) :
    ∀ u ∈ scaled.blamed, (e.bounds.get u.1 u.2).isSome = true := by
  have both {vs : List Var} (confined : ∀ v ∈ vs, ∀ kind, (e.bounds.get v kind).isSome = true)
      (u : Var × BoundKind) (member : u ∈ bothSides vs) : (e.bounds.get u.1 u.2).isSome = true := by
    obtain ⟨v, at_v, side⟩ := List.mem_flatMap.1 member
    rcases List.mem_pair.1 side with rfl | rfl
    · exact confined v at_v .lower
    · exact confined v at_v .upper
  have fixed := both (isSome_of_scaleRow? scaled_row)
  rw [divisibilityRefutation?] at refutation
  rw [ScaledRow.blamed]
  split at refutation
  · rename_i divides
    rw [if_pos divides]
    simp only [extendedRefutation?, Option.ite_none_right_eq_some, Bool.and_eq_true] at refutation
    obtain ⟨⟨all_confined, -⟩, -⟩ := refutation
    have least := both fun v (member : v ∈ scaled.leastVars) kind => by
      obtain ⟨t, at_t, rfl⟩ := List.mem_map.1 member
      exact isSome_of_isConfined (List.all_eq_true.1 all_confined t at_t) kind
    exact fun u member => (List.mem_append.1 member).elim (least u) (fixed u)
  · rename_i indivisible
    rw [if_neg indivisible]
    exact fixed

/-- Integer solutions of the row break one of the bounds that are blamed. -/
theorem not_respects_blamed (bounds : e.bounds.WellFormed e.numVars)
    (scales : scaled.Scales e row scale) (scaled_row : e.scaleRow? row = some scaled)
    {reasons : List Dependency} (refutation : e.divisibilityRefutation? scaled = some reasons)
    (holds : row.Holds α)
    (integral : ∀ t ∈ row.zeroTerms, e.bounds.isFixed t.1 = false → ∃ n : Int, α t.1 = n) :
    ¬e.Respects α scaled.blamed := by
  refine (refuted_of_divisibility bounds refutation).2 α (fun t member => ?_)
    (holds_of_scaleRow? bounds scaled_row holds)
  obtain ⟨free, u, at_u, same⟩ := scales.exists_of_mem_free member
  rw [← same] at free ⊢
  exact integral u at_u free

/-! ## The main statement -/

/-- What the tests decide about a row that was scaled. -/
structure Decides (e : Engine) (r : RowId) (row : Row) (scaled : ScaledRow) : Prop where
  scales : ∃ scale, scaled.Scales e row scale
  plain : scaled.divides = false ↔ ¬∃ α, e.Completes row α
  extended : (e.extendedRefutation? scaled).isSome = true → ¬∃ α, e.Completes row α ∧
    ∀ v ∈ scaled.leastVars, e.bounds.admits v (.ofRat (α v)) = true
  fails : (e.testDivisibility r).2 = false ↔
    scaled.divides = false ∨ (e.extendedRefutation? scaled).isSome = true
  blames : (e.testDivisibility r).2 = false →
    (e.isInfeasible = false → (e.testDivisibility r).1.status =
      .infeasible (e.joinReasons (e.reasonsOf scaled.blamed)).2) ∧
    (∀ u ∈ scaled.blamed, (e.bounds.get u.1 u.2).isSome = true) ∧
    ∀ α : Var → Rat, row.Holds α →
      (∀ t ∈ row.zeroTerms, e.bounds.isFixed t.1 = false → ∃ n : Int, α t.1 = n) →
        ¬e.Respects α scaled.blamed

/-- For a row in reduced form that could be scaled, the divisibility tests decide what they are to
decide. -/
theorem decides_of_scaleRow? (formed : e.Formed) (coherent : e.Coherent)
    (found : e.tableau.get? r = some row) (settled : row.pending = false)
    (scaled_row : e.scaleRow? row = some scaled) : e.Decides r row scaled := by
  obtain ⟨scale, scales⟩ := scales_of_scaleRow? scaled_row
  obtain ⟨answer, status⟩ := testDivisibility_eq found settled scaled_row
  have distinct := distinct_zeroTerms (formed.tableau.own found)
  refine ⟨⟨scale, scales⟩, divides_eq_false_iff coherent scales distinct, fun refuted => ?_, ?_,
    fun no => ?_⟩
  · obtain ⟨reasons, refutation⟩ := Option.isSome_iff_exists.1 refuted
    exact not_completes_of_extended formed.bounds scales refutation
  · rw [answer, ← isSome_divisibilityRefutation?, Option.isNone_eq_false_iff]
  · rw [answer, Option.isNone_eq_false_iff] at no
    obtain ⟨reasons, refutation⟩ := Option.isSome_iff_exists.1 no
    refine ⟨fun calm => ?_, isSome_of_blamed scaled_row refutation, fun α holds integral => ?_⟩
    · rw [status reasons refutation calm, (refuted_of_divisibility formed.bounds refutation).1]
    · exact not_respects_blamed formed.bounds scales scaled_row refutation holds integral

end Engine

namespace Session

open Engine

/-- In every state that a session passes through in which the infinitesimal parts of all bounds point to
their sides, a row in reduced form whose free variables are integers is scaled without loss, and the tests
decide about it; a row with a free real variable passes. -/
theorem divisibility_tests_decide (options : Options) (calls : List Call) {e : Engine} {r : RowId}
    {row : Row} :
    let s := (start options).run calls
    Steps s.history s.engine e → e.Coherent → e.tableau.get? r = some row → row.pending = false →
      ((∀ t ∈ row.zeroTerms, e.bounds.isFixed t.1 = false → e.isInt t.1 = true) →
        ∃ scaled, e.scaleRow? row = some scaled ∧ e.Decides r row scaled) ∧
      ((∃ t ∈ row.zeroTerms, e.bounds.isFixed t.1 = false ∧ e.isInt t.1 = false) →
        e.testDivisibility r = (e, true)) := by
  intro s reached coherent found settled
  have formed := (reached.invariant (ready_run options calls).invariant).founded.formed
  refine ⟨fun all_int => ?_, fun ⟨t, member, free, real⟩ => ?_⟩
  · obtain ⟨scaled, scaled_row⟩ := Option.isSome_iff_exists.1 (isSome_scaleRow?.2 all_int)
    exact ⟨scaled, scaled_row, decides_of_scaleRow? formed coherent found settled scaled_row⟩
  · refine testDivisibility_of_real found (Option.not_isSome_iff_eq_none.1 fun scaled => ?_)
    rw [isSome_scaleRow?.1 scaled t member free] at real
    cases real

/-- Twice an integer is a real number, which is five halves. -/
def fractional : List Call :=
  [.mkVar .int .internal, .mkLinear .real .internal [(0, 2)], .propagate,
    .assertGiven 1 .lower (.ofRat (5 / 2)), .assertGiven 1 .upper (.ofRat (5 / 2))]

/-- Its row. -/
def fractionalRow : Row := ⟨1, ⟨[(0, 2)], by decide, by decide⟩, false⟩

theorem run_fractional :
    let e := ((start {}).run fractional).engine
    e.tableau.get? 0 = some fractionalRow ∧ (e.testDivisibility 0).2 = false ∧
      e.bounds.records.all (fun b => b.value.eps = 0) = true := by
  refine ⟨by cbv, by cbv, by cbv⟩

theorem scaleRow?_fractional :
    ((start {}).run fractional).engine.scaleRow? fractionalRow = some ⟨-5, [1], [(0, 4)]⟩ := by
  cbv

/-- With the denominator of the constant cut off the row would have a solution. -/
theorem divisibility_tests_decide_fractional :
    let e := ((start {}).run fractional).engine
    (e.testDivisibility 0).2 = false ∧ e.Decides 0 fractionalRow ⟨-5, [1], [(0, 4)]⟩ := by
  intro e
  obtain ⟨found, fails, rational⟩ := run_fractional
  have bounds := (ready_run {} fractional).invariant.founded.formed.bounds
  have coherent : e.Coherent := by
    refine coherent_of_records bounds fun b member => ?_
    have rational : b.value.eps = 0 :=
      of_decide_eq_true (Array.all_eq_true_iff_forall_mem.1 rational b member)
    rw [Bound.Coherent]
    cases b.kind
    · exact rational.ge
    · exact rational.le
  have all_int := isSome_scaleRow?.1 (Option.isSome_iff_exists.2 ⟨_, scaleRow?_fractional⟩)
  obtain ⟨scaled, scaled_row, decides⟩ :=
    (divisibility_tests_decide {} fractional .refl coherent found rfl).1 all_int
  obtain rfl := Option.some.inj (scaled_row.symm.trans scaleRow?_fractional)
  exact ⟨fails, decides⟩

end Session

end ArithDecide
