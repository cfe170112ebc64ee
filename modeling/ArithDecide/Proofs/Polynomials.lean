import Mathlib.Algebra.BigOperators.Group.List.Basic
import ArithDecide.Nonlinear.Completion
import ArithDecide.Proofs.Divisibility
import ArithDecide.Proofs.OrderedPolynomials
import ArithDecide.Proofs.Refining

/-!
# Completing a basis is sound

A polynomial is sound when its reasons are those of active bounds that make it zero, together with the
rows and the definitions of the monomials. Subtracting a multiple of a sound polynomial from a sound one
gives a sound one, and completion does nothing else, so every member of a completed basis is sound,
wherever the budget ends. A nonzero constant is never zero, so its reasons are to blame.
-/

namespace ArithDecide

/-! ## Products -/

namespace PowerProduct

theorem eval_eq_prod (p : PowerProduct) (α : Var → Rat) : p.eval α = (p.map α).prod := by
  induction p with
  | nil => rfl
  | cons v rest ih => rw [List.map_cons, List.prod_cons, ← ih]; rfl

theorem eval_mul (p q : PowerProduct) (α : Var → Rat) : (p.mul q).eval α = p.eval α * q.eval α := by
  have same : ((p.mul q).map α).prod = ((p ++ q).map α).prod :=
    ((List.mergeSort_perm (p ++ q) _).map α).prod_eq
  rw [eval_eq_prod, same, List.map_append, List.prod_append, ← eval_eq_prod, ← eval_eq_prod]

theorem mem_mul {p q : PowerProduct} {v : Var} (member : v ∈ p.mul q) : v ∈ p ∨ v ∈ q :=
  List.mem_append.1 (List.mem_mergeSort.1 member)

theorem mem_of_div? {p q r : PowerProduct} {v : Var} (found : p.div? q = some r) (member : v ∈ r) :
    v ∈ p := by
  fun_induction div? p q generalizing r with
  | case1 p => rwa [Option.some.inj found]
  | case2 => cases found
  | case3 p w q ih => exact List.mem_cons_of_mem _ (ih found member)
  | case4 => cases found
  | case5 u p w q apart not_less ih =>
    obtain ⟨rest, quotient, rfl⟩ := Option.map_eq_some_iff.1 found
    rcases List.mem_cons.1 member with rfl | later
    · exact List.mem_cons_self
    · exact List.mem_cons_of_mem _ (ih quotient later)

theorem mem_lcm {p q : PowerProduct} {v : Var} (member : v ∈ p.lcm q) : v ∈ p ∨ v ∈ q := by
  fun_induction lcm p q with grind

theorem lt_of_mem_lcm {p q : PowerProduct} {n : Nat} (first : ∀ v ∈ p, v < n)
    (second : ∀ v ∈ q, v < n) : ∀ v ∈ p.lcm q, v < n :=
  fun v member => (mem_lcm member).elim (first v) (second v)

end PowerProduct

/-! ## Polynomials -/

namespace Polynomial

variable {p q : Polynomial} {n : Nat}

/-- The value of a term at a point, which is linear in the coefficient. -/
def termValue (α : Var → Rat) (product : PowerProduct) : Rat →+ Rat :=
  AddMonoidHom.mulRight (product.eval α)

theorem eval_eq_sum (p : Polynomial) (α : Var → Rat) :
    p.eval α = (p.terms.map fun t => t.2 * t.1.eval α).sum :=
  total_eq_sum _

theorem eval_ofTerms (terms : List (PowerProduct × Rat)) (reasons : List NodeId) (α : Var → Rat) :
    (ofTerms terms reasons).eval α = (terms.map fun t => t.2 * t.1.eval α).sum := by
  rw [eval_eq_sum, ofTerms]
  have sum := sum_foldl_addToTerms (termValue α) terms Prod.fst Prod.snd []
  rwa [List.map_nil, List.sum_nil, zero_add] at sum

theorem eval_subScaled (p : Polynomial) (factor : Rat) (shift : PowerProduct) (q : Polynomial)
    (α : Var → Rat) :
    (p.subScaled factor shift q).eval α = p.eval α - factor * shift.eval α * q.eval α := by
  rw [eval_eq_sum, subScaled]
  have sum := sum_foldl_addToTerms (termValue α) q.terms (fun t => t.1.mul shift)
    (fun t => -(factor * t.2)) p.terms
  refine sum.trans ?_
  simp only [termValue, AddMonoidHom.coe_mulRight]
  rw [eval_eq_sum p, eval_eq_sum q, sub_eq_add_neg, ← neg_mul, ← List.sum_map_mul_left]
  refine congrArg _ (congrArg List.sum (List.map_congr_left fun t _ => ?_))
  rw [PowerProduct.eval_mul]
  ring

/-- No coefficient is zero and all variables exist. -/
def Within (n : Nat) (p : Polynomial) : Prop :=
  ∀ t ∈ p.terms, t.2 ≠ 0 ∧ ∀ v ∈ t.1, v < n

theorem within_addToTerms {product : PowerProduct} {coeff : Rat}
    {terms : List (PowerProduct × Rat)} (lt : ∀ v ∈ product, v < n)
    (within : ∀ t ∈ terms, t.2 ≠ 0 ∧ ∀ v ∈ t.1, v < n) :
    ∀ t ∈ addToTerms product coeff terms, t.2 ≠ 0 ∧ ∀ v ∈ t.1, v < n := by
  induction terms with
  | nil =>
    intro t member
    simp only [addToTerms] at member
    grind
  | cons head rest ih =>
    obtain ⟨first, others⟩ := List.forall_mem_cons.1 within
    intro t member
    simp only [addToTerms] at member
    grind

theorem within_foldl_addToTerms {β : Type} {items : List β} {product : β → PowerProduct}
    {coeff : β → Rat} {terms : List (PowerProduct × Rat)}
    (lt : ∀ a ∈ items, ∀ v ∈ product a, v < n)
    (within : ∀ t ∈ terms, t.2 ≠ 0 ∧ ∀ v ∈ t.1, v < n) :
    ∀ t ∈ items.foldl (fun acc a => addToTerms (product a) (coeff a) acc) terms,
      t.2 ≠ 0 ∧ ∀ v ∈ t.1, v < n := by
  induction items generalizing terms with
  | nil => exact within
  | cons a rest ih =>
    obtain ⟨first, others⟩ := List.forall_mem_cons.1 lt
    exact ih others (within_addToTerms first within)

theorem Within.subScaled (first : p.Within n) (second : q.Within n) (factor : Rat)
    {shift : PowerProduct} (lt : ∀ v ∈ shift, v < n) : (p.subScaled factor shift q).Within n := by
  refine within_foldl_addToTerms (fun t member v at_v => ?_) first
  rcases PowerProduct.mem_mul at_v with at_t | at_shift
  · exact (second t member).2 v at_t
  · exact lt v at_shift

/-- A nonzero constant is never zero. -/
theorem eval_ne_zero (within : p.Within n) (constant : p.isConstant = true) (α : Var → Rat) :
    p.eval α ≠ 0 := by
  rw [isConstant] at constant
  split at constant
  · rename_i product coeff terms_eq
    have nonzero := (within (product, coeff) (by simp [terms_eq])).1
    rw [eval_eq_sum, terms_eq, List.isEmpty_iff.1 constant]
    simpa [PowerProduct.eval] using nonzero
  · cases constant

/-- A polynomial that gives a variable a value is zero only there. -/
theorem eq_of_assignment? {v : Var} {value : Rat} (within : p.Within n)
    (found : p.assignment? = some (v, value)) :
    v < n ∧ ∀ α : Var → Rat, p.eval α = 0 → α v = value := by
  rw [assignment?] at found
  split at found
  · rename_i w coeff terms_eq
    obtain ⟨rfl, rfl⟩ := Prod.mk.inj (Option.some.inj found)
    obtain ⟨nonzero, lt⟩ := within ([w], coeff) (by simp [terms_eq])
    refine ⟨lt w (by simp), fun α zero => ?_⟩
    rw [eval_eq_sum, terms_eq] at zero
    simpa [PowerProduct.eval, nonzero] using zero
  · rename_i w coeff constant terms_eq
    obtain ⟨rfl, rfl⟩ := Prod.mk.inj (Option.some.inj found)
    obtain ⟨nonzero, lt⟩ := within ([w], coeff) (by simp [terms_eq])
    refine ⟨lt w (by simp), fun α zero => ?_⟩
    rw [eval_eq_sum, terms_eq] at zero
    simp only [PowerProduct.eval, List.map_cons, List.map_nil, List.foldr_cons, List.foldr_nil,
      List.sum_cons, List.sum_nil, mul_one, add_zero] at zero
    rw [← neg_div, eq_div_iff nonzero]
    linarith
  · cases found

end Polynomial

/-! ## Sound polynomials -/

namespace Engine

open State

variable {e next : Engine} {h : History} {p q : Polynomial} {uses others : List (Var × BoundKind)}
  {reasons : List NodeId}

/-- The reasons are those of the given bounds, which are active. -/
structure RestsOn (e : Engine) (reasons : List NodeId) (uses : List (Var × BoundKind)) : Prop where
  active : ∀ u ∈ uses, (e.bounds.get u.1 u.2).isSome = true
  mem_iff : ∀ node, node ∈ reasons ↔ some node ∈ e.reasonsOf uses

/-- The property holds wherever the rows, the definitions of the monomials and the given bounds do. -/
def Forces (e : Engine) (uses : List (Var × BoundKind)) (P : (Var → Rat) → Prop) : Prop :=
  ∀ α : Var → Rat, e.tableau.Holds α → (∀ m ∈ e.monomials, m.Holds α) → e.Respects α uses → P α

/-- Active bounds make the polynomial zero, and its reasons are theirs. -/
structure Sound (e : Engine) (p : Polynomial) : Prop where
  vanishes : ∃ uses, e.RestsOn p.reasons uses ∧ e.Forces uses fun α => p.eval α = 0
  within : p.Within e.numVars

theorem mem_union_nodes {a : NodeId} {left right : List NodeId} :
    a ∈ SortedSet.union left right ↔ a ∈ left ∨ a ∈ right :=
  SortedSet.mem_union fun _ _ left right => Nat.le_antisymm (Nat.not_lt.1 right) (Nat.not_lt.1 left)

theorem RestsOn.union {more : List NodeId} (first : e.RestsOn reasons uses)
    (second : e.RestsOn more others) :
    e.RestsOn (SortedSet.union reasons more) (uses ++ others) where
  active u member := (List.mem_append.1 member).elim (first.active u) (second.active u)
  mem_iff node := by
    rw [mem_union_nodes, first.mem_iff, second.mem_iff, reasonsOf, reasonsOf, reasonsOf,
      List.map_append, List.mem_append]

theorem sound_zero (e : Engine) : Sound e .zero where
  vanishes := ⟨[], ⟨by simp, by simp [Polynomial.zero, reasonsOf]⟩, fun α _ _ _ => rfl⟩
  within := by simp [Polynomial.Within, Polynomial.zero]

theorem Sound.subScaled (first : Sound e p) (second : Sound e q) (factor : Rat)
    {shift : PowerProduct} (lt : ∀ v ∈ shift, v < e.numVars) :
    Sound e (p.subScaled factor shift q) where
  vanishes := by
    obtain ⟨uses, rests, p_zero⟩ := first.vanishes
    obtain ⟨others, also_rests, q_zero⟩ := second.vanishes
    refine ⟨uses ++ others, rests.union also_rests, fun α rows monomials respects => ?_⟩
    have at_p : p.eval α = 0 :=
      p_zero α rows monomials fun u member => respects u (List.mem_append_left _ member)
    have at_q : q.eval α = 0 :=
      q_zero α rows monomials fun u member => respects u (List.mem_append_right _ member)
    show (p.subScaled factor shift q).eval α = 0
    rw [Polynomial.eval_subScaled, at_p, at_q, mul_zero, sub_zero]
  within := first.within.subScaled second.within factor lt

/-- The reasons of the polynomial are in force and make it zero at every solution. -/
structure Derived (h : History) (e : Engine) (p : Polynomial) : Prop where
  derives : Derives h e (p.reasons.map some) fun α => p.eval α = 0
  within : p.Within e.numVars

/-- What holds by its reasons in every solution may be used to derive bounds. -/
theorem Sound.derived (sound : Sound e p) (inv : e.Invariant h) : Derived h e p where
  derives := by
    obtain ⟨uses, rests, zero⟩ := sound.vanishes
    have used (d : Dependency) (member : d ∈ p.reasons.map some) : d ∈ e.reasonsOf uses := by
      obtain ⟨node, at_node, rfl⟩ := List.mem_map.1 member
      exact (rests.mem_iff node).1 at_node
    refine ⟨fun d member => names_reasonsOf inv uses d (used d member),
      fun d member => grounded_reasonsOf inv uses d (used d member),
      fun reliable α solves believes => ?_⟩
    refine zero α solves.rows solves.monomials
      (respects_of_believes inv reliable solves fun d member => ?_)
    cases d with
    | none => exact DependencyArena.allLeaves_none.2 trivial
    | some node => exact believes _ (List.mem_map_of_mem ((rests.mem_iff node).2 member))
  within := sound.within

theorem Derived.later (derived : Derived h e p) (inv : e.Invariant h) (steps : Steps h e next) :
    Derived h next p where
  derives := derived.derives.later inv steps
  within t member := by
    obtain ⟨nonzero, lt⟩ := derived.within t member
    exact ⟨nonzero, fun v at_v => Nat.lt_of_lt_of_le (lt v at_v) (steps.keeps inv).numVars⟩

end Engine

/-! ## Completion -/

namespace Completion

open Engine

variable {e : Engine} {basis : List Polynomial} {c : Completion} {budget : Nat}

/-- A member whose leading product divides the term, with the quotient and the factor. -/
theorem reducer?_eq_some {t : PowerProduct × Rat} {q : Polynomial} {shift : PowerProduct}
    {factor : Rat} (found : reducer? basis t = some (q, shift, factor)) :
    q ∈ basis ∧ ∃ lead, q.leading? = some lead ∧ t.1.div? lead.1 = some shift ∧
      factor = t.2 / lead.2 := by
  induction basis with
  | nil => cases found
  | cons head rest ih =>
    rw [reducer?] at found
    split at found
    · exact ⟨List.mem_cons_of_mem _ (ih found).1, (ih found).2⟩
    · rename_i leads
      split at found
      · exact ⟨List.mem_cons_of_mem _ (ih found).1, (ih found).2⟩
      · rename_i quotient
        obtain ⟨rfl, rfl, rfl⟩ := Option.some.inj found
        exact ⟨List.mem_cons_self, _, leads, quotient, rfl⟩

theorem sound_reduceFrom (members : ∀ q ∈ basis, Sound e q) (budget steps index : Nat) {p : Polynomial}
    (sound : Sound e p) : Sound e (reduceFrom basis budget steps index p).1 := by
  fun_induction reduceFrom basis budget steps index p with
  | case1 steps index p bound q shift factor found ih =>
    obtain ⟨at_basis, lead, -, quotient, -⟩ := reducer?_eq_some found
    refine ih (sound.subScaled (members q at_basis) factor fun v member => ?_)
    exact (sound.within _ (List.getElem_mem bound.2)).2 v (PowerProduct.mem_of_div? quotient member)
  | case2 steps index p bound found ih => exact ih sound
  | case3 => exact sound

/-- Every member of the basis is sound, and so is the refutation. -/
structure AllSound (e : Engine) (c : Completion) : Prop where
  basis : ∀ p ∈ c.basis, Sound e p
  refutation : ∀ p, c.refutation = some p → Sound e p ∧ p.isConstant = true

/-- Adding a sound polynomial keeps all members sound, as reduction by sound members is sound. -/
theorem AllSound.add (all : AllSound e c) {p : Polynomial} (sound : Sound e p) (budget : Nat) :
    AllSound e (c.add budget p) := by
  have reduced := sound_reduceFrom all.basis budget c.steps 0 sound
  simp only [Completion.add]
  split
  · exact ⟨all.basis, all.refutation⟩
  · split
    · rename_i constant
      refine ⟨all.basis, fun q found => ?_⟩
      obtain rfl := Option.some.inj found
      exact ⟨reduced, constant⟩
    · refine ⟨fun q member => ?_, all.refutation⟩
      rcases List.mem_append.1 member with old | new
      · exact all.basis q old
      · rw [List.mem_singleton.1 new]
        exact reduced

theorem AllSound.addAll {ps : List Polynomial} (all : AllSound e c)
    (sound : ∀ p ∈ ps, Sound e p) (budget : Nat) : AllSound e (addAll budget ps c) := by
  induction ps generalizing c with
  | nil => exact all
  | cons p rest ih =>
    obtain ⟨first, others⟩ := List.forall_mem_cons.1 sound
    simp only [Completion.addAll]
    split
    · exact all.add first budget
    · exact ih (all.add first budget) others

/-- Combining two sound polynomials is sound, with the reasons of both. -/
theorem sound_sPolynomial? {p q s : Polynomial} (first : Sound e p) (second : Sound e q)
    (found : sPolynomial? p q = some s) : Sound e s := by
  have lt {p : Polynomial} (sound : Sound e p) {product : PowerProduct} {coeff : Rat}
      (leads : p.leading? = some (product, coeff)) : ∀ v ∈ product, v < e.numVars :=
    (sound.within _ (List.mem_of_mem_head? leads)).2
  rw [sPolynomial?] at found
  split at found
  · rename_i pp pc qp qc p_leads q_leads
    split at found
    · cases found
    · simp only at found
      split at found
      · rename_i ps qs p_quotient q_quotient
        obtain rfl := Option.some.inj found
        have common := PowerProduct.lt_of_mem_lcm (lt first p_leads) (lt second q_leads)
        refine ((sound_zero e).subScaled first _ fun v member => ?_).subScaled second _
          fun v member => ?_
        · exact common v (PowerProduct.mem_of_div? p_quotient member)
        · exact common v (PowerProduct.mem_of_div? q_quotient member)
      · cases found
  · cases found

theorem AllSound.pair (all : AllSound e c) {pair : Nat × Nat} {p : Polynomial}
    (found : c.pairPolynomial? pair = some p) : Sound e p := by
  rw [pairPolynomial?] at found
  split at found
  · rename_i at_first at_second
    exact sound_sPolynomial? (all.basis _ (List.mem_of_getElem? at_first))
      (all.basis _ (List.mem_of_getElem? at_second)) found
  · cases found

theorem AllSound.run (all : AllSound e c) (budget : Nat) : AllSound e (run budget c) := by
  fun_induction Completion.run budget c with
  | case1 => exact all
  | case2 c running pair rest front none_found ih => exact ih ⟨all.basis, all.refutation⟩
  | case3 c running pair rest front p found ih =>
    have spent : AllSound e { c with pairs := rest, steps := c.steps + 1 } :=
      ⟨all.basis, all.refutation⟩
    exact ih (spent.add (all.pair found) budget)
  | case4 => exact all

theorem allSound_complete {input : List Polynomial} (sound : ∀ p ∈ input, Sound e p)
    (budget : Nat) : AllSound e (complete budget input) :=
  (AllSound.addAll (c := .empty) ⟨by simp [empty], by simp [empty]⟩ sound budget).run budget

end Completion

end ArithDecide
