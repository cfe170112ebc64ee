import Mathlib
import ArithDecide.Proofs.Sessions

/-!
# How tight implied bounds are

Inspecting a row offers every variable of it two bounds, one for each side of the sum of its terms. Both
sums are computed before the first bound is installed, and what the variable itself contributes to a sum
is taken off it when the bound is computed. The contribution to the least sum is still the one that went
into it, so the first bound is the one that the other terms imply. The first bound is also the one that
limits the contribution to the greatest sum: if it was tightened, less is taken off than went in, and the
second bound is weaker than what the other terms imply by the difference.
-/

namespace ArithDecide

/-! ## Offering a bound -/

/-- The active bound on one side once a bound that crosses nothing was offered. -/
def BoundStore.tightest (store : BoundStore) (v : Var) (kind : BoundKind) (value : InfRat) :
    Option InfRat :=
  if store.isTighter v kind value then some value else store.value v kind

namespace BoundStore

variable {store next : BoundStore} {v w : Var} {kind side : BoundKind} {value : InfRat}

theorem isTighter_eq (store : BoundStore) (v : Var) (kind : BoundKind) (value : InfRat) :
    store.isTighter v kind value =
      match store.value v kind with
      | none => true
      | some current => kind.tighter value current := by
  rw [isTighter, BoundStore.value]
  cases store.get v kind <;> rfl

/-- Only the value of the active bound matters. -/
theorem tightest_congr (same : next.value v kind = store.value v kind) (value : InfRat) :
    next.tightest v kind value = store.tightest v kind value := by
  rw [tightest, tightest, isTighter_eq, isTighter_eq, same]

/-- What was offered is covered. -/
theorem covers_of_tightest (same : next.value v kind = store.tightest v kind value) :
    next.Covers v kind value := by
  rw [tightest] at same
  split at same
  · obtain ⟨active, found, rfl⟩ := Option.map_eq_some_iff.1 same
    exact ⟨active, found, BoundKind.admits_refl _ _⟩
  · rename_i covered
    rw [isTighter_eq, ← same, ← isTighter_eq] at covered
    exact isTighter_eq_false_iff.1 (Bool.eq_false_iff.2 covered)

/-- A bound that changed nothing was not tighter. -/
theorem tightest_of_covers (covers : store.Covers v kind value) :
    store.tightest v kind value = store.value v kind := by
  rw [tightest, if_neg (by rw [isTighter_iff, not_not]; exact covers)]

theorem Installed.value_eq {bound : Bound} (installed : Installed store next bound) (v : Var)
    (kind : BoundKind) :
    next.value v kind =
      if v = bound.var ∧ kind = bound.kind then some bound.value else store.value v kind := by
  rw [BoundStore.value, installed.get]
  split <;> rfl

end BoundStore

namespace Engine

open State

variable {e mid next : Engine} {h : History} {v w : Var} {kind side : BoundKind} {value : InfRat}
  {reason : Dependency} {origin : BoundOrigin} {t : Var × Rat} {terms : List (Var × Rat)}

/-- Installing a bound that crosses nothing changes that bound only, and only if it gets tighter. -/
theorem value_installBound (well : e.bounds.WellFormed e.numVars) (lt : v < e.numVars)
    (yes : (e.installBound v kind value reason origin).2 = true) (w : Var) (side : BoundKind) :
    (e.installBound v kind value reason origin).1.bounds.value w side =
      if w = v ∧ side = kind then e.bounds.tightest v kind (e.roundBound v kind value)
      else e.bounds.value w side := by
  rw [installBound] at yes ⊢
  cases done : e.bounds.assert ⟨v, kind, e.roundBound v kind value, reason, origin⟩ with
  | conflict opposite => simp [done] at yes
  | unchanged store =>
    obtain ⟨rfl, covered⟩ := BoundStore.unchanged_spec done
    show e.bounds.value w side = _
    split
    · rename_i here
      rw [here.1, here.2, BoundStore.tightest_of_covers covered]
    · rfl
  | tightened store =>
    have installed := BoundStore.installed_of_tightened well lt done
    have tighter := BoundStore.isTighter_iff.2 installed.uncovered
    simp only
    rw [bounds_afterTightening, installed.value_eq, BoundStore.tightest, if_pos tighter]

/-- Rounding again changes nothing. -/
theorem roundBound_roundBound (e : Engine) (v : Var) (kind : BoundKind) (value : InfRat) :
    e.roundBound v kind (e.roundBound v kind value) = e.roundBound v kind value := by
  have rounded (n : Int) : roundInt kind (.ofRat n) = n := by
    cases kind <;> simp [roundInt, InfRat.ofRat, Rat.ceil_intCast, Rat.floor_intCast]
  rw [roundBound, roundBound]
  split
  · rw [rounded]
  · rfl

/-! ## One term -/

/-- The bound that a row offers for one of its terms, given what is left of the sum. -/
def offeredBound (e : Engine) (t : Var × Rat) (side : BoundKind) (rest : InfRat) : InfRat :=
  e.roundBound t.1 (limitingKind t.2 side).opposite ((-rest).divide t.2)

/-- The active bound of a term on the side that a row limits, once the row offered its bound. -/
def boundAfter (e : Engine) (t : Var × Rat) (side : BoundKind) (rest : Option InfRat) :
    Option InfRat :=
  match rest with
  | none => e.bounds.value t.1 (limitingKind t.2 side).opposite
  | some rest => e.bounds.tightest t.1 (limitingKind t.2 side).opposite (e.offeredBound t side rest)

/-- Only the bound in question decides what becomes of it. -/
theorem boundAfter_congr
    (value : mid.bounds.value t.1 (limitingKind t.2 side).opposite =
      e.bounds.value t.1 (limitingKind t.2 side).opposite)
    (sort : mid.isInt t.1 = e.isInt t.1) (rest : Option InfRat) :
    mid.boundAfter t side rest = e.boundAfter t side rest := by
  cases rest with
  | none => exact value
  | some rest =>
    rw [boundAfter, boundAfter, offeredBound, offeredBound, roundBound, roundBound, sort]
    exact BoundStore.tightest_congr value _

/-- The bound that is offered for one term changes that bound only. -/
theorem value_impliedBound (well : e.bounds.WellFormed e.numVars) (lt : t.1 < e.numVars)
    {sum : RowSum} (yes : (impliedBound terms side sum e t).2 = true) (w : Var) (kind : BoundKind) :
    (impliedBound terms side sum e t).1.bounds.value w kind =
      if w = t.1 ∧ kind = (limitingKind t.2 side).opposite then
        e.boundAfter t side (e.sumWithout sum t side)
      else e.bounds.value w kind := by
  rw [impliedBound] at yes ⊢
  cases left : e.sumWithout sum t side with
  | none =>
    rw [boundAfter]
    split_ifs with here
    · rw [here.1, here.2]
    · rfl
  | some rest =>
    simp only [left] at yes ⊢
    rw [boundAfter, offeredBound]
    split at yes
    · rename_i tighter
      rw [if_pos tighter]
      -- joining the reasons leaves variables and bounds alone
      refine (value_installBound (e := (e.joinReasons _).1.count _) well lt yes w kind).trans ?_
      refine if_congr Iff.rfl ?_ rfl
      exact congrArg (e.bounds.tightest _ _) (roundBound_roundBound e _ _ _)
    · rename_i covered
      rw [if_neg covered, BoundStore.tightest, if_neg covered]
      split
      · rename_i here
        rw [here.1, here.2]
      · rfl

/-! ## One term after another -/

/-- A loop that reports no conflict comes to each item and goes on from there. -/
theorem forEach_append {α : Type} {step : Engine → α → Engine × Bool} {front back : List α} {a : α}
    (yes : (forEach step (front ++ a :: back) e).2 = true) :
    (forEach step front e).2 = true ∧ (step (forEach step front e).1 a).2 = true ∧
      forEach step (front ++ a :: back) e = forEach step back (step (forEach step front e).1 a).1 := by
  induction front generalizing e with
  | nil =>
    rw [List.nil_append, forEach] at yes
    rw [List.nil_append, forEach, forEach]
    split at yes
    · rename_i next done
      simp only [done, true_and]
    · cases yes
  | cons b front ih =>
    rw [List.cons_append, forEach] at yes
    rw [List.cons_append, forEach, forEach]
    split at yes
    · exact ih yes
    · cases yes

/-- The bounds of a variable stay as they are while other variables are visited. -/
theorem visit_forEach {step : Engine → Var × Rat → Engine × Bool} {items : List (Var × Rat)}
    (each : ∀ next, Steps h e next → ∀ t ∈ items, (step next t).2 = true →
      Steps h next (step next t).1 ∧ ∀ w kind, w ≠ t.1 →
        (step next t).1.bounds.value w kind = next.bounds.value w kind)
    (yes : (forEach step items e).2 = true) :
    Steps h e (forEach step items e).1 ∧ ∀ w kind, (∀ t ∈ items, w ≠ t.1) →
      (forEach step items e).1.bounds.value w kind = e.bounds.value w kind := by
  induction items generalizing e with
  | nil => exact ⟨.refl, fun _ _ _ => rfl⟩
  | cons t rest ih =>
    have visited := each e .refl t List.mem_cons_self
    rw [forEach] at yes ⊢
    split at yes
    · rename_i next done
      rw [done] at visited
      obtain ⟨steps, same⟩ := visited rfl
      obtain ⟨more, kept⟩ := ih (fun last later b member =>
        each last (steps.trans later) b (List.mem_cons_of_mem _ member)) yes
      refine ⟨steps.trans more, fun w kind away => ?_⟩
      obtain ⟨apart, others⟩ := List.forall_mem_cons.1 away
      exact (kept w kind others).trans (same w kind apart)
    · cases yes

/-- Offering a term the bounds that both sums imply for it. -/
def offerBoth (terms : List (Var × Rat)) (least greatest : RowSum) (e : Engine) (t : Var × Rat) :
    Engine × Bool :=
  match impliedBound terms .lower least e t with
  | (next, true) => impliedBound terms .upper greatest next t
  | (next, false) => (next, false)

/-- What the second of two sums has lost when it is used: the bound that the first one implied may
limit the same side of the term. -/
def lag (e now : Engine) (t : Var × Rat) : BoundKind → InfRat
  | .lower => 0
  | .upper => drift e now t .upper

/-- The two sums limit a term on different sides. -/
theorem limitingKind_ne (coeff : Rat) : limitingKind coeff .lower ≠ limitingKind coeff .upper := by
  rw [limitingKind, limitingKind]
  split <;> decide

theorem opposite_ne (kind : BoundKind) : kind ≠ kind.opposite := by
  cases kind <;> decide

theorem opposite_inj {kind side : BoundKind} : kind.opposite = side.opposite ↔ kind = side := by
  cases kind <;> cases side <;> decide

section Row

variable {r : RowId} {row : Row} (inv : e.Invariant h) (found : e.tableau.get? r = some row)
  (later : Steps h e mid) (member : t ∈ row.zeroTerms)
include inv found later member

/-- The bound that the row offers one of its terms, with what has become of the sum. -/
theorem visit_impliedBound (side : BoundKind)
    (yes : (impliedBound row.zeroTerms side (e.rowSum row.zeroTerms side) mid t).2 = true) :
    let next := (impliedBound row.zeroTerms side (e.rowSum row.zeroTerms side) mid t).1
    Steps h mid next ∧ ∀ w kind, next.bounds.value w kind =
      if w = t.1 ∧ kind = (limitingKind t.2 side).opposite then
        mid.boundAfter t side ((e.othersSum row.zeroTerms side t).map fun rest =>
          rest + drift e mid t side)
      else mid.bounds.value w kind := by
  have mid_inv := later.invariant inv
  have keeps := later.keeps inv
  have lt := Nat.lt_of_lt_of_le (lt_of_mem_zeroTerms inv.founded.formed found member) keeps.numVars
  refine ⟨(answers_impliedBound inv later found member side).steps yes, fun w kind => ?_⟩
  rw [value_impliedBound mid_inv.founded.formed.bounds lt yes,
    sumWithout_eq (distinct_zeroTerms (inv.founded.formed.tableau.own found)) member]
  rw [termExtreme, termExtreme, Option.isSome_map, Option.isSome_map]
  intro bounded
  obtain ⟨value, at_value⟩ := Option.isSome_iff_exists.1 bounded
  obtain ⟨b, active, -⟩ := Option.map_eq_some_iff.1 at_value
  obtain ⟨c, now, -⟩ := keeps.covers _ _ _ ⟨b, active, BoundKind.admits_refl _ _⟩
  rw [BoundStore.value, now]
  rfl

/-- Visiting a term changes its own bounds only. If they are still those for which the sums were
computed, they become the ones that the other terms imply, the second one with what its sum has lost. -/
theorem visit_offerBoth
    (yes : (offerBoth row.zeroTerms (e.rowSum row.zeroTerms .lower) (e.rowSum row.zeroTerms .upper)
      mid t).2 = true) :
    let next := (offerBoth row.zeroTerms (e.rowSum row.zeroTerms .lower)
      (e.rowSum row.zeroTerms .upper) mid t).1
    Steps h mid next ∧
      (∀ w kind, w ≠ t.1 → next.bounds.value w kind = mid.bounds.value w kind) ∧
      ((∀ kind, mid.bounds.value t.1 kind = e.bounds.value t.1 kind) → ∀ side,
        next.bounds.value t.1 (limitingKind t.2 side).opposite =
          e.boundAfter t side ((e.othersSum row.zeroTerms side t).map fun rest =>
            rest + lag e next t side)) := by
  have first := visit_impliedBound inv found later member .lower
  rw [offerBoth] at yes ⊢
  generalize impliedBound row.zeroTerms .lower (e.rowSum row.zeroTerms .lower) mid t = result
    at first yes ⊢
  obtain ⟨middle, _ | _⟩ := result
  · cases yes
  obtain ⟨first_steps, first_value⟩ := first rfl
  obtain ⟨second_steps, second_value⟩ :=
    visit_impliedBound inv found (later.trans first_steps) member .upper yes
  refine ⟨first_steps.trans second_steps, fun w kind apart => ?_, fun same side => ?_⟩
  · rw [second_value, if_neg fun here => apart here.1, first_value, if_neg fun here => apart here.1]
  have lt := lt_of_mem_zeroTerms inv.founded.formed found member
  have sort (last : Engine) (steps : Steps h e last) : last.isInt t.1 = e.isInt t.1 :=
    (steps.keeps inv).isInt t.1 lt
  have apart_sides := limitingKind_ne t.2
  cases side with
  | lower =>
    have unchanged : mid.termExtreme t .lower = e.termExtreme t .lower := by
      rw [termExtreme, same, ← termExtreme]
    rw [second_value, if_neg fun here => apart_sides (opposite_inj.1 here.2), first_value,
      if_pos ⟨rfl, rfl⟩, drift_of_eq unchanged, lag]
    exact boundAfter_congr (same _) (sort mid later) _
  | upper =>
    have kept : middle.bounds.value t.1 (limitingKind t.2 .upper).opposite =
        e.bounds.value t.1 (limitingKind t.2 .upper).opposite := by
      rw [first_value, if_neg fun here => apart_sides (opposite_inj.1 here.2).symm, same]
    -- the second bound is on the other side than the one that limits the term in the second sum
    have limited : (impliedBound row.zeroTerms .upper (e.rowSum row.zeroTerms .upper) middle
        t).1.termExtreme t .upper = middle.termExtreme t .upper := by
      rw [termExtreme, second_value, if_neg fun here => opposite_ne _ here.2, ← termExtreme]
    rw [second_value, if_pos ⟨rfl, rfl⟩,
      boundAfter_congr kept (sort middle (later.trans first_steps))]
    simp only [lag, drift, limited]

end Row

/-- What inspecting a row makes of the bounds of its variables, exactly. -/
theorem value_impliedBoundsOf {r : RowId} {row : Row} (inv : e.Invariant h)
    (found : e.tableau.get? r = some row) (reduced : row.pending = false)
    (yes : (e.impliedBoundsOf r).2 = true) (member : t ∈ row.zeroTerms) (side : BoundKind) :
    (e.impliedBoundsOf r).1.bounds.value t.1 (limitingKind t.2 side).opposite =
      e.boundAfter t side ((e.othersSum row.zeroTerms side t).map fun rest =>
        rest + lag e (e.impliedBoundsOf r).1 t side) := by
  have inspected : e.impliedBoundsOf r = forEach (offerBoth row.zeroTerms
      (e.rowSum row.zeroTerms .lower) (e.rowSum row.zeroTerms .upper)) row.zeroTerms e := by
    rw [impliedBoundsOf, found, Option.filter_some, if_pos (by rw [reduced]; rfl)]
    rfl
  rw [inspected] at yes ⊢
  have each (next : Engine) (steps : Steps h e next) (other : Var × Rat)
      (among : other ∈ row.zeroTerms) := visit_offerBoth inv found steps among
  generalize offerBoth row.zeroTerms (e.rowSum row.zeroTerms .lower)
    (e.rowSum row.zeroTerms .upper) = visit at each yes ⊢
  have distinct := distinct_zeroTerms (inv.founded.formed.tableau.own found)
  obtain ⟨front, back, split⟩ := List.append_of_mem member
  rw [split, List.pairwise_append] at distinct
  obtain ⟨-, distinct, before⟩ := distinct
  have after := (List.pairwise_cons.1 distinct).1
  obtain ⟨yes_front, yes_here, rest⟩ := forEach_append (split ▸ yes)
  obtain ⟨steps, same⟩ := visit_forEach (fun next steps other among yes =>
    (each next steps other (split ▸ List.mem_append_left _ among) yes).imp_right And.left) yes_front
  obtain ⟨later, -, visited⟩ := each _ steps t member yes_here
  obtain ⟨-, kept⟩ := visit_forEach (fun next further other among yes =>
    (each next ((steps.trans later).trans further) other
      (split ▸ List.mem_append_right _ (List.mem_cons_of_mem _ among)) yes).imp_right And.left)
    (rest ▸ split ▸ yes)
  have settled (kind : BoundKind) := kept t.1 kind after
  have result := visited (fun kind => same t.1 kind fun other among =>
    (before other among t List.mem_cons_self).symm) side
  rw [split, rest, ← split, settled, result]
  cases side with
  | lower => rfl
  | upper => simp only [lag, drift, termExtreme, settled]

end Engine

namespace Session

open Engine State

/-- When a row in reduced form was inspected without conflict and the other terms of a variable bound
their sum on one side, the active bound of the variable says at least as much as they imply; or that side
was the second one, the first one had limited the variable's own part of the sum, and the bound falls
short of what the others imply by as much as that part had shrunk. -/
theorem implied_bounds_tight (options : Options) (calls : List Call) {e : Engine} {r : RowId}
    {row : Row} {t : Var × Rat} {side : BoundKind} {rest : InfRat} :
    let s := (start options).run calls
    Steps s.history s.engine e → e.tableau.get? r = some row → row.pending = false →
    (e.impliedBoundsOf r).2 = true → t ∈ row.zeroTerms →
    e.othersSum row.zeroTerms side t = some rest →
      let next := (e.impliedBoundsOf r).1
      let kind := (limitingKind t.2 side).opposite
      next.bounds.Covers t.1 kind (e.offeredBound t side rest) ∨
        side = .upper ∧ ∃ own now, e.termExtreme t .upper = some own ∧
          next.termExtreme t .upper = some now ∧ now < own ∧
          next.bounds.value t.1 kind =
            e.bounds.tightest t.1 kind (e.offeredBound t side (rest + (own - now))) := by
  intro s reached found reduced yes member bounded next kind
  have inv := reached.invariant (ready_run options calls).invariant
  have value := value_impliedBoundsOf inv found reduced yes member side
  rw [bounded, Option.map_some, boundAfter] at value
  by_cases nothing : lag e next t side = 0
  · rw [nothing, add_zero] at value
    exact .inl (BoundStore.covers_of_tightest value)
  cases side with
  | lower => exact absurd rfl nothing
  | upper =>
    rw [lag, drift] at nothing value
    split at nothing
    · rename_i own now at_own at_now
      rw [at_own, at_now] at value
      have keeps := (answers_impliedBoundsOf inv r).keeps inv
      have le := BoundKind.admits_upper.1 (admits_termExtreme keeps at_own at_now)
      have lt : now < own := lt_of_le_of_ne le fun same => nothing (sub_eq_zero.2 same.symm)
      exact .inr ⟨rfl, own, now, at_own, at_now, lt, value⟩
    · exact absurd rfl nothing

/-- A variable that equals another one, in a row in reduced form; the other one is between zero and one,
it is between minus three and three. -/
def narrowing : List Call :=
  [.mkVar .real .internal, .mkLinear .real .internal [(0, 1)], .propagate,
    .assertGiven 0 .lower (.ofRat 0), .assertGiven 0 .upper (.ofRat 1),
    .assertGiven 1 .lower (.ofRat (-3)), .assertGiven 1 .upper (.ofRat 3)]

/-- Its row. -/
def narrowingRow : Row := ⟨1, ⟨[(0, 1)], by decide, by decide⟩, false⟩

theorem get?_narrowing :
    ((start {}).run narrowing).engine.tableau.get? 0 = some narrowingRow ∧
      (((start {}).run narrowing).engine.impliedBoundsOf 0).2 = true := by
  refine ⟨by cbv, by cbv⟩

theorem othersSum_narrowing :
    ((start {}).run narrowing).engine.othersSum narrowingRow.zeroTerms .lower (1, -1) =
        some (.ofRat 0) ∧
      ((start {}).run narrowing).engine.othersSum narrowingRow.zeroTerms .upper (1, -1) =
        some (.ofRat 1) := by
  refine ⟨by cbv, by cbv⟩

/-- The first side is as tight as the row allows. -/
theorem implied_bounds_tight_narrowing :
    let e := ((start {}).run narrowing).engine
    (e.impliedBoundsOf 0).1.bounds.Covers 1 .lower (e.offeredBound (1, -1) .lower (.ofRat 0)) :=
  have ⟨found, yes⟩ := get?_narrowing
  (implied_bounds_tight {} narrowing .refl found rfl yes List.mem_cons_self
    othersSum_narrowing.1).resolve_right fun ⟨second, _⟩ => nomatch second

/-- The second side is not: the row makes the variable at most one, but it stays at most three. -/
theorem implied_bounds_loose :
    let e := ((start {}).run narrowing).engine
    (e.impliedBoundsOf 0).2 = true ∧
      e.othersSum narrowingRow.zeroTerms .upper (1, -1) = some (.ofRat 1) ∧
      e.offeredBound (1, -1) .upper (.ofRat 1) = .ofRat 1 ∧
      (e.impliedBoundsOf 0).1.bounds.value 1 .upper = some (.ofRat 3) := by
  refine ⟨get?_narrowing.2, othersSum_narrowing.2, by cbv, by cbv⟩

end Session

end ArithDecide
