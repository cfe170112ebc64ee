import Mathlib.Data.List.Pairwise
import Mathlib.Tactic.Abel
import Mathlib.Tactic.Push
import ArithDecide.Proofs.Repairing

/-!
# Sums over a row

The extreme values of the terms of a row are summed once, before its terms are inspected one after another.
`Engine.sumWithout` takes one term off such a sum. What is left is the sum of the other terms, and besides
what the bound of the term itself has moved since the sum was made (`Engine.drift`); as bounds only get
tighter, it is at worst a weaker limit than the other terms give.
-/

namespace ArithDecide.Engine

open State

variable {e mid next : Engine} {side : BoundKind} {t : Var × Rat} {terms : List (Var × Rat)}

/-! ## Extreme values -/

theorem sum_filterMap {α : Type} (f : α → Option InfRat) (items : List α) :
    (items.filterMap f).sum = (items.map fun a => (f a).getD 0).sum := by
  induction items with
  | nil => rfl
  | cons a rest ih =>
    cases found : f a with
    | none => simp [found, ih]
    | some x => simp [found, ih]

/-- A sum over terms of distinct variables without one of the terms. -/
theorem sum_split (g : Var × Rat → InfRat) (distinct : terms.Pairwise fun s t => s.1 ≠ t.1)
    (member : t ∈ terms) :
    (terms.map g).sum = g t + ((terms.filter fun other => other.1 ≠ t.1).map g).sum := by
  induction terms with
  | nil => cases member
  | cons head rest ih =>
    obtain ⟨apart, distinct⟩ := List.pairwise_cons.1 distinct
    rcases List.mem_cons.1 member with rfl | later
    · have kept : rest.filter (fun other => other.1 ≠ t.1) = rest :=
        List.filter_eq_self.2 fun other at_rest => by simpa using (apart other at_rest).symm
      simp only [ne_eq, not_true_eq_false, decide_false, Bool.false_eq_true, not_false_eq_true,
        List.filter_cons_of_neg, List.map_cons, List.sum_cons] at kept ⊢
      rw [kept]
    · have away : head.1 ≠ t.1 := apart t later
      rw [List.map_cons, List.sum_cons, ih distinct later,
        List.filter_cons_of_pos (by simpa using away), List.map_cons, List.sum_cons, add_left_comm]

/-- The extreme value of a term when there is one. -/
theorem termExtreme_eq_some {x : InfRat} (found : e.termExtreme t side = some x) :
    ∃ b, e.bounds.get t.1 (side.turned t.2) = some b ∧ x = b.value.scale t.2 := by
  rw [termExtreme, BoundStore.value, Option.map_map, Option.map_eq_some_iff] at found
  obtain ⟨b, active, rfl⟩ := found
  exact ⟨b, active, rfl⟩

/-- Extremes only get tighter. -/
theorem admits_termExtreme {x y : InfRat} (keeps : e.Keeps next.toState)
    (before : e.termExtreme t side = some x) (after : next.termExtreme t side = some y) :
    side.admits x y = true := by
  obtain ⟨b, at_b, rfl⟩ := termExtreme_eq_some before
  obtain ⟨c, at_c, rfl⟩ := termExtreme_eq_some after
  obtain ⟨active, found, admits⟩ :=
    keeps.covers _ _ _ ⟨b, at_b, BoundKind.admits_refl _ _⟩
  obtain rfl := Option.some.inj (at_c.symm.trans found)
  exact BoundKind.admits_scale admits

/-- A term that had an extreme value keeps one. -/
theorem isSome_termExtreme (keeps : e.Keeps next.toState)
    (before : (e.termExtreme t side).isSome = true) : (next.termExtreme t side).isSome = true := by
  obtain ⟨x, found⟩ := Option.isSome_iff_exists.1 before
  obtain ⟨b, at_b, -⟩ := termExtreme_eq_some found
  obtain ⟨active, at_active, -⟩ := keeps.covers _ _ _ ⟨b, at_b, BoundKind.admits_refl _ _⟩
  have known : next.bounds.value t.1 (limitingKind t.2 side) = some active.value :=
    Option.map_eq_some_iff.2 ⟨active, at_active, rfl⟩
  rw [termExtreme, known]
  rfl

/-! ## The sum of the other terms -/

/-- The least (for `lower`) or greatest value of the sum of all terms but one, if there is one. -/
def othersSum (e : Engine) (terms : List (Var × Rat)) (side : BoundKind) (t : Var × Rat) :
    Option InfRat :=
  let others := terms.filter fun other => other.1 ≠ t.1
  if others.all fun other => (e.termExtreme other side).isSome then
    some (others.filterMap fun other => e.termExtreme other side).sum
  else none

theorem othersSum_eq_some {rest : InfRat} (found : e.othersSum terms side t = some rest) :
    (∀ other ∈ terms, other.1 ≠ t.1 → ∃ x, e.termExtreme other side = some x) ∧
      ((terms.filter fun other => other.1 ≠ t.1).map fun other =>
        (e.termExtreme other side).getD 0).sum = rest := by
  obtain ⟨all, same⟩ := Option.ite_none_right_eq_some.1 found
  refine ⟨fun other at_other apart => Option.isSome_iff_exists.1 ?_, ?_⟩
  · exact List.all_eq_true.1 all other (List.mem_filter.2 ⟨at_other, by simpa using apart⟩)
  · rw [← sum_filterMap]
    exact Option.some.inj same

/-- By how much the extreme value of a term differs from the earlier one that went into a sum. -/
def drift (e now : Engine) (t : Var × Rat) (side : BoundKind) : InfRat :=
  match e.termExtreme t side, now.termExtreme t side with
  | some before, some after => before - after
  | _, _ => 0

theorem drift_of_eq (same : mid.termExtreme t side = e.termExtreme t side) :
    drift e mid t side = 0 := by
  rw [drift, same]
  cases e.termExtreme t side with
  | none => rfl
  | some x => exact sub_self x

/-- A bound that got tighter since leaves a sum that limits less. -/
theorem admits_drift (keeps : e.Keeps next.toState) (t : Var × Rat) (side : BoundKind) :
    side.admits (drift e next t side) 0 = true := by
  rw [drift]
  split
  · rename_i before after at_before at_after
    have tighter := admits_termExtreme keeps at_before at_after
    have shifted := BoundKind.admits_add tighter (BoundKind.admits_refl side (-after))
    rwa [← sub_eq_add_neg, add_neg_cancel] at shifted
  · exact BoundKind.admits_refl side 0

/-- A sum over the bounded terms is what one term contributes and the sum over the others. -/
theorem bounded_rowSum (distinct : terms.Pairwise fun s t => s.1 ≠ t.1) (member : t ∈ terms)
    (e : Engine) (side : BoundKind) :
    (e.rowSum terms side).bounded = (e.termExtreme t side).getD 0 +
      ((terms.filter fun other => other.1 ≠ t.1).filterMap fun other =>
        e.termExtreme other side).sum := by
  rw [sum_filterMap, ← sum_split (fun other => (e.termExtreme other side).getD 0) distinct member,
    ← sum_filterMap, rowSum, List.sum_eq_foldl]

/-- The terms without a known extreme value are the others without one, and the term itself if it has
none. -/
theorem unbounded_rowSum (distinct : terms.Pairwise fun s t => s.1 ≠ t.1) (member : t ∈ terms)
    (e : Engine) (side : BoundKind) :
    (∀ v, v ∈ (e.rowSum terms side).unbounded ↔
      (v = t.1 ∧ e.termExtreme t side = none) ∨
        ∃ other ∈ terms, other.1 ≠ t.1 ∧ other.1 = v ∧ e.termExtreme other side = none) ∧
      (e.rowSum terms side).unbounded.Nodup := by
  have symmetric : Std.Symm fun s t : Var × Rat => s.1 ≠ t.1 := ⟨fun _ _ => Ne.symm⟩
  constructor
  · intro v
    rw [rowSum, List.mem_map]
    constructor
    · rintro ⟨other, among, rfl⟩
      obtain ⟨at_other, is_none⟩ := List.mem_filter.1 among
      rw [Option.isNone_iff_eq_none] at is_none
      by_cases same : other = t
      · exact .inl ⟨by rw [same], same ▸ is_none⟩
      · exact .inr ⟨other, at_other, distinct.forall at_other member same, rfl, is_none⟩
    · rintro (⟨rfl, is_none⟩ | ⟨other, at_other, -, rfl, is_none⟩)
      · exact ⟨t, List.mem_filter.2 ⟨member, by rw [is_none]; rfl⟩, rfl⟩
      · exact ⟨other, List.mem_filter.2 ⟨at_other, by rw [is_none]; rfl⟩, rfl⟩
  · rw [rowSum, List.Nodup, List.pairwise_map]
    exact distinct.filter _

/-- What is left of an earlier sum without one of its terms is the sum of the other terms, and what the
term itself has lost since. -/
theorem sumWithout_eq (distinct : terms.Pairwise fun s t => s.1 ≠ t.1) (member : t ∈ terms)
    (kept : (e.termExtreme t side).isSome = true → (mid.termExtreme t side).isSome = true) :
    mid.sumWithout (e.rowSum terms side) t side =
      (e.othersSum terms side t).map fun rest => rest + drift e mid t side := by
  have total := bounded_rowSum distinct member e side
  obtain ⟨unbounded_iff, nodup⟩ := unbounded_rowSum distinct member e side
  rw [sumWithout, othersSum]
  generalize (e.rowSum terms side).unbounded = unbounded at unbounded_iff nodup ⊢
  by_cases bounded : ∀ other ∈ terms, other.1 ≠ t.1 → (e.termExtreme other side).isSome = true
  · have all : ((terms.filter fun other => other.1 ≠ t.1).all fun other =>
        (e.termExtreme other side).isSome) = true := by
      refine List.all_eq_true.2 fun other among => ?_
      obtain ⟨at_other, apart⟩ := List.mem_filter.1 among
      exact bounded other at_other (of_decide_eq_true apart)
    simp only [all, if_true, Option.map_some]
    have none_else (v : Var) : v ∈ unbounded ↔ v = t.1 ∧ e.termExtreme t side = none := by
      rw [unbounded_iff, or_iff_left]
      rintro ⟨other, at_other, apart, -, is_none⟩
      simpa [is_none] using bounded other at_other apart
    cases own : e.termExtreme t side with
    | none =>
      have only : unbounded = [t.1] := by
        refine List.perm_singleton.1 ((List.perm_ext_iff_of_nodup nodup (List.nodup_singleton _)).2
          fun v => ?_)
        rw [none_else, own, List.mem_singleton]
        exact and_iff_left rfl
      simp [only, total, drift, own]
    | some x =>
      have nothing : unbounded = [] :=
        List.eq_nil_iff_forall_not_mem.2 fun v waits => by simp [own] at none_else; exact none_else v waits
      obtain ⟨y, now⟩ := Option.isSome_iff_exists.1 (kept (by rw [own]; rfl))
      simp only [nothing, now, total, drift, own, Option.map_some, Option.getD_some]
      congr 1
      abel
  · push Not at bounded
    obtain ⟨other, at_other, apart, is_none⟩ := bounded
    rw [ne_eq, Option.isSome_iff_ne_none, not_not] at is_none
    have waits : other.1 ∈ unbounded := (unbounded_iff _).2 (.inr ⟨other, at_other, apart, rfl, is_none⟩)
    have not_all : ((terms.filter fun other => other.1 ≠ t.1).all fun other =>
        (e.termExtreme other side).isSome) = false := by
      rw [List.all_eq_false]
      exact ⟨other, List.mem_filter.2 ⟨at_other, by simpa using apart⟩, by simp [is_none]⟩
    simp only [not_all, Bool.false_eq_true, if_false, Option.map_none]
    cases unbounded with
    | nil => cases waits
    | cons v rest =>
      cases rest with
      | nil =>
        rw [List.mem_singleton] at waits
        simp only [← waits, apart, if_false]
      | cons w rest => rfl

/-- What is left of a sum without one of its terms is at most (or at least) the sum of the extremes of
the others, all of which are bounded. -/
theorem sumWithout_spec {rest : InfRat} (keeps : e.Keeps next.toState)
    (distinct : terms.Pairwise fun s t => s.1 ≠ t.1) (member : t ∈ terms)
    (found : next.sumWithout (e.rowSum terms side) t side = some rest) :
    (∀ other ∈ terms, other.1 ≠ t.1 → ∃ x, e.termExtreme other side = some x) ∧
      side.admits rest ((terms.filter fun other => other.1 ≠ t.1).map fun other =>
        (e.termExtreme other side).getD 0).sum = true := by
  rw [sumWithout_eq distinct member (isSome_termExtreme keeps), Option.map_eq_some_iff] at found
  obtain ⟨others, at_others, rfl⟩ := found
  obtain ⟨bounded, sum⟩ := othersSum_eq_some at_others
  refine ⟨bounded, ?_⟩
  rw [sum]
  have limited := BoundKind.admits_add (BoundKind.admits_refl side others) (admits_drift keeps t side)
  rwa [add_zero] at limited

end ArithDecide.Engine
