import Mathlib.Algebra.BigOperators.Group.List.Basic
import Mathlib.Algebra.Module.Rat
import Mathlib.Data.List.Perm.Basic
import Mathlib.Data.List.Sort
import ArithDecide.LinearForm
import ArithDecide.Proofs.Infinitesimal

/-!
# The algebra of linear forms

`LinearForm.combine` is the value of a form in any module over the rationals. The values over the
rationals and over the rationals with infinitesimals are instances of it, and so is every single
coefficient, the value at the point that is one at its variable and zero elsewhere; one lemma per
operation serves all of them. Canonical forms with the same coefficients are equal
(`LinearForm.ext_coeff`).
-/

namespace ArithDecide

theorem total_eq_sum (values : List Rat) : total values = values.sum := by
  induction values with
  | nil => rfl
  | cons head rest ih => rw [List.sum_cons, ← ih]; rfl

namespace LinearForm

variable {M : Type*} [AddCommGroup M] [Module ℚ M]

/-- The value of a form in a module. -/
def combine (f : LinearForm) (φ : Var → M) : M :=
  (f.terms.map fun t => t.2 • φ t.1).sum

theorem evalInf_eq_combine (f : LinearForm) (φ : Var → InfRat) : f.evalInf φ = f.combine φ := by
  rw [evalInf, combine, List.sum_eq_foldl]
  rfl

/-! ## Values of the operations -/

/-- Adding to a coefficient adds this multiple of the value of its variable, also where the term
vanishes. -/
theorem sum_addToTerms (v : Var) (coeff : Rat) (terms : List (Var × Rat)) (φ : Var → M) :
    ((addToTerms v coeff terms).map fun t => t.2 • φ t.1).sum =
      (terms.map fun t => t.2 • φ t.1).sum + coeff • φ v := by
  induction terms with
  | nil =>
    simp only [addToTerms]
    split <;> simp_all
  | cons head rest ih =>
    obtain ⟨w, d⟩ := head
    simp only [addToTerms]
    split
    · split
      · simp_all
      · simp only [List.map_cons, List.sum_cons]
        abel
    · split
      · simp only [List.map_cons, List.sum_cons, ih]
        abel
      · have same : w = v := Nat.le_antisymm (Nat.not_lt.1 ‹_›) (Nat.not_lt.1 ‹_›)
        split
        · rename_i cancel
          have : coeff = -d := by linarith
          simp [same, this]
        · simp only [List.map_cons, List.sum_cons, same, add_smul]
          abel

@[simp] theorem combine_zero (φ : Var → M) : zero.combine φ = 0 := rfl

theorem combine_addTerm (f : LinearForm) (v : Var) (coeff : Rat) (φ : Var → M) :
    (f.addTerm v coeff).combine φ = f.combine φ + coeff • φ v :=
  sum_addToTerms v coeff f.terms φ

theorem combine_foldl_addTerm (entries : List (Var × Rat)) (f : LinearForm) (φ : Var → M) :
    (entries.foldl (fun acc t => acc.addTerm t.1 t.2) f).combine φ =
      f.combine φ + (entries.map fun t => t.2 • φ t.1).sum := by
  induction entries generalizing f with
  | nil => simp
  | cons head rest ih =>
    rw [List.foldl_cons, ih, combine_addTerm, List.map_cons, List.sum_cons, add_assoc]

theorem combine_ofEntries (entries : List (Var × Rat)) (φ : Var → M) :
    (ofEntries entries).combine φ = (entries.map fun t => t.2 • φ t.1).sum := by
  rw [ofEntries, combine_foldl_addTerm, combine_zero, zero_add]

theorem combine_addScaled (f : LinearForm) (factor : Rat) (g : LinearForm) (φ : Var → M) :
    (f.addScaled factor g).combine φ = f.combine φ + factor • g.combine φ := by
  have scaled : f.addScaled factor g =
      (g.terms.map fun t => (t.1, factor * t.2)).foldl (fun acc t => acc.addTerm t.1 t.2) f := by
    rw [addScaled, List.foldl_map]
  have factored (terms : List (Var × Rat)) :
      (terms.map fun t => (factor * t.2) • φ t.1).sum =
        factor • (terms.map fun t => t.2 • φ t.1).sum := by
    induction terms with
    | nil => simp
    | cons head rest ih => rw [List.map_cons, List.sum_cons, ih, List.map_cons, List.sum_cons,
        smul_add, mul_smul]
  rw [scaled, combine_foldl_addTerm, List.map_map]
  exact congrArg _ (factored g.terms)

theorem combine_scale (factor : Rat) (f : LinearForm) (φ : Var → M) :
    (f.scale factor).combine φ = factor • f.combine φ := by
  rw [scale, combine_addScaled, combine_zero, zero_add]

/-- Without a variable the value of a form is less by that of its term. -/
theorem combine_erase (f : LinearForm) (v : Var) (φ : Var → M) :
    (f.erase v).combine φ = f.combine φ - f.coeff v • φ v := by
  obtain ⟨terms, increasing, nonzero⟩ := f
  simp only [combine, erase, coeff]
  clear nonzero
  induction terms with
  | nil => simp
  | cons head rest ih =>
    obtain ⟨w, d⟩ := head
    have ⟨below, tail⟩ := List.pairwise_cons.1 increasing
    by_cases same : w = v
    · have others : rest.filter (fun t => decide (t.1 ≠ v)) = rest := by
        refine List.filter_eq_self.2 fun t member => ?_
        have above : w < t.1 := below t member
        simpa [← same] using Nat.ne_of_gt above
      rw [List.filter_cons_of_neg (by simpa using same), others]
      simp [same]
    · have apart : (v == w) = false := by simpa using Ne.symm same
      rw [List.filter_cons_of_pos (by simpa using same)]
      simp only [List.map_cons, List.sum_cons, List.lookup_cons, apart, ih tail]
      abel

theorem combine_substitute (f : LinearForm) (v : Var) (g : LinearForm) (φ : Var → M) :
    (f.substitute v g).combine φ = f.combine φ - f.coeff v • φ v + f.coeff v • g.combine φ := by
  rw [substitute, combine_addScaled, combine_erase]

/-- Replacing a variable by a form of the same value keeps the value. -/
theorem combine_substitute_of_eq {v : Var} {g : LinearForm} {φ : Var → M}
    (same : φ v = g.combine φ) (f : LinearForm) : (f.substitute v g).combine φ = f.combine φ := by
  rw [combine_substitute, same, sub_add_cancel]

theorem combine_map {N : Type*} [AddCommGroup N] [Module ℚ N] (hom : M →ₗ[ℚ] N) (f : LinearForm)
    (φ : Var → M) : hom (f.combine φ) = f.combine fun v => hom (φ v) := by
  rw [combine, combine, map_list_sum, List.map_map]
  simp [Function.comp_def]

/-! ## Coefficients -/

/-- The point that is one at a variable and zero elsewhere. -/
def unit (v : Var) : Var → Rat := fun w => if w = v then 1 else 0

@[simp] theorem unit_apply (v w : Var) : unit v w = if w = v then 1 else 0 := rfl

theorem lookup_eq_none {v : Var} {terms : List (Var × Rat)} (absent : ∀ t ∈ terms, t.1 ≠ v) :
    terms.lookup v = none := by
  induction terms with
  | nil => rfl
  | cons head rest ih =>
    have apart : (v == head.1) = false := by simpa using (absent head (by simp)).symm
    rw [List.lookup_cons, apart]
    exact ih fun t member => absent t (List.mem_cons_of_mem _ member)

/-- A coefficient is the value at the unit of its variable. -/
theorem coeff_eq_combine (f : LinearForm) (v : Var) : f.coeff v = f.combine (unit v) := by
  obtain ⟨terms, increasing, nonzero⟩ := f
  simp only [combine, coeff]
  clear nonzero
  induction terms with
  | nil => rfl
  | cons head rest ih =>
    obtain ⟨w, d⟩ := head
    have ⟨below, tail⟩ := List.pairwise_cons.1 increasing
    rw [List.lookup_cons, List.map_cons, List.sum_cons, ← ih tail]
    by_cases same : w = v
    · have none_left : rest.lookup v = none :=
        lookup_eq_none fun t member => by
          have above : w < t.1 := below t member
          exact same ▸ Nat.ne_of_gt above
      simp [same, none_left]
    · have apart : (v == w) = false := by simpa using Ne.symm same
      simp [same, apart]

@[simp] theorem coeff_zero (v : Var) : zero.coeff v = 0 := rfl

theorem coeff_addTerm (f : LinearForm) (v w : Var) (c : Rat) :
    (f.addTerm v c).coeff w = f.coeff w + if v = w then c else 0 := by
  simp [coeff_eq_combine, combine_addTerm]

theorem coeff_addScaled (f g : LinearForm) (factor : Rat) (v : Var) :
    (f.addScaled factor g).coeff v = f.coeff v + factor * g.coeff v := by
  simp [coeff_eq_combine, combine_addScaled]

theorem coeff_scale (f : LinearForm) (factor : Rat) (v : Var) :
    (f.scale factor).coeff v = factor * f.coeff v := by
  simp [coeff_eq_combine, combine_scale]

theorem coeff_erase (f : LinearForm) (v w : Var) :
    (f.erase v).coeff w = if v = w then 0 else f.coeff w := by
  rw [coeff_eq_combine, combine_erase, ← coeff_eq_combine]
  split
  · rename_i same
    simp [same]
  · rename_i apart
    simp [apart]

theorem coeff_substitute (f g : LinearForm) (v w : Var) :
    (f.substitute v g).coeff w = (if v = w then 0 else f.coeff w) + f.coeff v * g.coeff w := by
  rw [substitute, coeff_addScaled, coeff_erase]

/-! ## Forms of entries -/

theorem coeff_ofEntries (entries : List (Var × Rat)) (v : Var) :
    (ofEntries entries).coeff v = (entries.map fun t => if t.1 = v then t.2 else 0).sum := by
  rw [coeff_eq_combine, combine_ofEntries]
  refine congrArg List.sum (List.map_congr_left fun t _ => ?_)
  simp [mul_ite]

theorem coeff_ofEntries_of_absent {entries : List (Var × Rat)} {v : Var}
    (absent : ∀ t ∈ entries, t.1 ≠ v) : (ofEntries entries).coeff v = 0 := by
  rw [coeff_ofEntries]
  refine List.sum_eq_zero fun x member => ?_
  obtain ⟨t, in_entries, rfl⟩ := List.mem_map.1 member
  exact if_neg (absent t in_entries)

/-- Entries for distinct variables are the coefficients of the form that they make. -/
theorem coeff_ofEntries_of_mem {entries : List (Var × Rat)} {v : Var} {c : Rat}
    (distinct : (entries.map Prod.fst).Nodup) (member : (v, c) ∈ entries) :
    (ofEntries entries).coeff v = c := by
  rw [coeff_ofEntries]
  induction entries with
  | nil => cases member
  | cons head rest ih =>
    obtain ⟨absent, distinct⟩ := List.nodup_cons.1 distinct
    rw [List.map_cons, List.sum_cons]
    rcases List.mem_cons.1 member with rfl | member
    · have others : ∀ t ∈ rest, t.1 ≠ v := fun t in_rest same =>
        absent (List.mem_map.2 ⟨t, in_rest, same⟩)
      rw [if_pos rfl, ← coeff_ofEntries, coeff_ofEntries_of_absent others, add_zero]
    · have apart : head.1 ≠ v := fun same =>
        absent (same ▸ List.mem_map_of_mem (f := Prod.fst) member)
      rw [if_neg apart, ih distinct member, zero_add]

/-! ## Terms -/

/-- The terms are exactly the coefficients that are not zero. -/
theorem mem_terms_iff {f : LinearForm} {v : Var} {c : Rat} :
    (v, c) ∈ f.terms ↔ f.coeff v = c ∧ c ≠ 0 := by
  obtain ⟨terms, increasing, nonzero⟩ := f
  simp only [coeff]
  induction terms with
  | nil => simp [eq_comm]
  | cons head rest ih =>
    obtain ⟨w, d⟩ := head
    have ⟨below, tail⟩ := List.pairwise_cons.1 increasing
    have rest_iff := ih tail fun t member => nonzero t (List.mem_cons_of_mem _ member)
    have head_nonzero : d ≠ 0 := nonzero (w, d) (by simp)
    rw [List.lookup_cons, List.mem_cons]
    by_cases same : v = w
    · have absent : (v, c) ∉ rest := fun member => by have := below _ member; simp_all
      simp only [same, beq_self_eq_true, Option.getD_some]
      grind
    · have apart : (v == w) = false := by simpa using same
      simp only [apart, rest_iff, Prod.mk.injEq, same, false_and, false_or]

theorem mentions_iff {f : LinearForm} {v : Var} : f.mentions v = true ↔ f.coeff v ≠ 0 := by
  rw [mentions, List.any_eq_true]
  constructor
  · rintro ⟨⟨w, c⟩, member, same⟩
    have ⟨value, nonzero⟩ := mem_terms_iff.1 member
    obtain rfl : w = v := by simpa using same
    exact value ▸ nonzero
  · intro nonzero
    exact ⟨(v, f.coeff v), mem_terms_iff.2 ⟨rfl, nonzero⟩, by simp⟩

theorem mentions_eq_false_iff {f : LinearForm} {v : Var} :
    f.mentions v = false ↔ f.coeff v = 0 := by
  rw [← Bool.not_eq_true, mentions_iff, not_not]

theorem mentions_of_mem {f : LinearForm} {t : Var × Rat} (member : t ∈ f.terms) :
    f.mentions t.1 = true :=
  List.any_eq_true.2 ⟨t, member, by simp⟩

theorem nodup_terms (f : LinearForm) : f.terms.Nodup :=
  f.increasing.imp fun {s t} less same => by simp [same] at less

/-- Canonical forms with the same coefficients are equal. -/
theorem ext_coeff {f g : LinearForm} (same : ∀ v, f.coeff v = g.coeff v) : f = g := by
  have members (t : Var × Rat) : t ∈ f.terms ↔ t ∈ g.terms := by
    rw [mem_terms_iff, mem_terms_iff, same]
  have perm : f.terms.Perm g.terms := (List.perm_ext_iff_of_nodup f.nodup_terms g.nodup_terms).2 members
  refine LinearForm.ext (perm.eq_of_pairwise ?_ f.increasing g.increasing)
  intro s t _ _ less greater
  exact absurd less (Nat.lt_asymm greater)

theorem combine_congr {f : LinearForm} {φ ψ : Var → M}
    (same : ∀ v, f.mentions v = true → φ v = ψ v) : f.combine φ = f.combine ψ := by
  rw [combine, combine]
  exact congrArg List.sum (List.map_congr_left fun t member => by rw [same _ (mentions_of_mem member)])

theorem combine_sub (f : LinearForm) (φ ψ : Var → M) :
    f.combine (fun v => φ v - ψ v) = f.combine φ - f.combine ψ := by
  rw [combine, combine, combine]
  induction f.terms with
  | nil => simp
  | cons t rest ih =>
    rw [List.map_cons, List.map_cons, List.map_cons, List.sum_cons, List.sum_cons, List.sum_cons, ih,
      smul_sub]
    abel

/-- Changing one variable changes the value by its coefficient times the change. -/
theorem combine_update [DecidableEq Var] (f : LinearForm) (φ : Var → M) (v : Var) (a : M) :
    f.combine (Function.update φ v a) = f.combine φ + f.coeff v • (a - φ v) := by
  have split (ψ : Var → M) : f.combine ψ = (f.erase v).combine ψ + f.coeff v • ψ v := by
    rw [combine_erase, sub_add_cancel]
  have elsewhere : (f.erase v).combine (Function.update φ v a) = (f.erase v).combine φ := by
    refine combine_congr fun w mentioned => Function.update_of_ne ?_ _ _
    rintro rfl
    simp [mentions_iff, coeff_erase] at mentioned
  rw [split (Function.update φ v a), split φ, elsewhere, Function.update_self, smul_sub]
  abel

/-! ## Integral sums -/

theorem exists_int_sum {values : List Rat} (integral : ∀ q ∈ values, ∃ n : Int, q = n) :
    ∃ n : Int, values.sum = n := by
  induction values with
  | nil => exact ⟨0, by simp⟩
  | cons q rest ih =>
    have ⟨first, others⟩ := List.forall_mem_cons.1 integral
    obtain ⟨n, rfl⟩ := first
    obtain ⟨m, same⟩ := ih others
    exact ⟨n + m, by rw [List.sum_cons, same]; push_cast; rfl⟩

/-- A form has an integral value when each of its terms has. -/
theorem exists_int_combine {f : LinearForm} {α : Var → Rat}
    (integral : ∀ t ∈ f.terms, ∃ n : Int, t.2 * α t.1 = n) : ∃ n : Int, f.combine α = n := by
  refine exists_int_sum fun q member => ?_
  obtain ⟨t, at_t, rfl⟩ := List.mem_map.1 member
  exact integral t at_t

/-- So it has when integral coefficients meet integral values. -/
theorem exists_int_combine_of_coeffs {f : LinearForm} {α : Var → Rat}
    (integral : ∀ v, f.coeff v ≠ 0 → (∃ n : Int, f.coeff v = n) ∧ ∃ n : Int, α v = n) :
    ∃ n : Int, f.combine α = n := by
  refine exists_int_combine fun t member => ?_
  obtain ⟨⟨n, coeff_eq⟩, k, value_eq⟩ := integral t.1 (mentions_iff.1 (mentions_of_mem member))
  refine ⟨n * k, ?_⟩
  rw [← (mem_terms_iff.1 member).1, coeff_eq, value_eq, Int.cast_mul]

end LinearForm

end ArithDecide
