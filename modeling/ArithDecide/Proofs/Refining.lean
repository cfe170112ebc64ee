import Mathlib.Algebra.BigOperators.Group.List.Basic
import ArithDecide.Nonlinear.MonomialBounds
import ArithDecide.Proofs.Divisibility
import ArithDecide.Proofs.Intervals

/-!
# Bounds from intervals are sound

What reasons taken together say stays said while the engine goes on, so reasons that were collected
for one bound may be used for the bounds installed after it. A solution that respects the bounds of
some variables gives them values in their intervals, and so to products of them; dividing a monomial
by its other factors gives the remaining one.
-/

namespace ArithDecide

/-- Whether a refinement step ran into no conflict. -/
def Refinement.goesOn : Refinement → Bool
  | .conflict => false
  | _ => true

namespace Engine

open State

variable {e next : Engine} {h : History} {α : Var → Rat} {v : Var} {kind : BoundKind}
  {reasons : List Dependency} {P : (Var → Rat) → Prop}

/-! ## What reasons say -/

/-- Reasons in force, and a property of all solutions that make them true, as far as the values can be
relied on. -/
structure Derives (h : History) (e : Engine) (reasons : List Dependency)
    (P : (Var → Rat) → Prop) : Prop where
  names : ∀ d ∈ reasons, e.dependencies.Names d
  grounded : ∀ d ∈ reasons, e.Grounded h d
  entails : e.Reliable → ∀ α, e.Solves α → (∀ d ∈ reasons, e.Believes α d) → P α

theorem Derives.later (derives : Derives h e reasons P) (inv : e.Invariant h)
    (steps : Steps h e next) : Derives h next reasons P where
  names d member := (steps.keeps inv).grows.nodes.names (derives.names d member)
  grounded d member := (steps.keeps inv).grows.grounded inv.founded.formed.closed
    (derives.names d member) (fun _ equated => equated) (derives.grounded d member)
  entails reliable α solves believes := by
    have grows := (steps.keeps inv).grows
    refine derives.entails (grows.reliable reliable) α (grows.solves α solves) fun d member => ?_
    exact grows.believes inv.founded.formed.closed (derives.names d member) (believes d member)

theorem derives_reasonsOf (inv : e.Invariant h) (uses : List (Var × BoundKind))
    (entails : ∀ α, e.Solves α → e.Respects α uses → P α) : Derives h e (e.reasonsOf uses) P where
  names := names_reasonsOf inv uses
  grounded := grounded_reasonsOf inv uses
  entails reliable α solves believes :=
    entails α solves (respects_of_believes inv reliable solves believes)

theorem Derives.joined (derives : Derives h e reasons P) (inv : e.Invariant h) :
    Joined h e reasons (e.joinReasons reasons).1 (e.joinReasons reasons).2 :=
  joined_joinReasons inv.founded.formed.closed derives.names

/-- Reasons under which there is no solution are a conflict. -/
theorem Derives.conflict (derives : Derives h e reasons fun _ => False) (inv : e.Invariant h)
    {joined : Engine}
    (becomes : (e.joinReasons reasons).1.Becomes (e.joinReasons reasons).1.toState joined) :
    Answers h e (joined.setConflict (e.joinReasons reasons).2, false) := by
  have j := derives.joined inv
  refine .conflict (j.steps.trans becomes.steps) (fails_setConflict ?_)
  rw [becomes.toState]
  exact j.blames derives.grounded derives.entails

/-- A bound of all solutions that make a reason true is installed with this reason. -/
theorem answers_entailed {value : InfRat} {reason : Dependency} (inv : e.Invariant h)
    (names : e.dependencies.Names reason) (grounded : e.Grounded h reason)
    (entails : e.Reliable → ∀ α, e.Solves α → e.Believes α reason →
      kind.admits value (.ofRat (α v)) = true)
    (lt : v < e.numVars) (coherent : kind.Coherent value) :
    Answers h e (e.installBound v kind value reason .derived) := by
  refine answers_installBound inv ⟨lt, ⟨names, grounded, entails⟩, fun drifting => ?_, fun is_given => ?_⟩
  · exact absurd (.inl coherent) drifting
  · cases is_given

/-! ## Refinement steps -/

/-- What a refinement step does: if it reports no change, it did at most join reasons. -/
structure Refines (h : History) (e : Engine) (result : Engine × Refinement) : Prop where
  answers : Answers h e (result.1, result.2.goesOn)
  unchanged : result.2 = .unchanged →
    result.1.toState = { e.toState with dependencies := result.1.dependencies }

theorem Refines.quiet (becomes : e.Becomes e.toState next) : Refines h e (next, .unchanged) :=
  ⟨.yes becomes.steps, fun _ => by rw [becomes.toState]⟩

theorem Refines.tightened (answers : Answers h e (next, true)) : Refines h e (next, .tightened) :=
  ⟨answers, fun same => by cases same⟩

theorem Refines.conflict (answers : Answers h e (next, false)) : Refines h e (next, .conflict) :=
  ⟨answers, fun same => by cases same⟩

theorem Refines.after (steps : Steps h e next)
    (same : next.toState = { e.toState with dependencies := next.dependencies })
    {result : Engine × Refinement} (refines : Refines h next result) : Refines h e result :=
  ⟨refines.answers.after steps, fun found => by rw [refines.unchanged found, same]⟩

theorem goesOn_join (a b : Refinement) : (a.join b).goesOn = (a.goesOn && b.goesOn) := by
  cases a <;> cases b <;> rfl

theorem join_eq_unchanged {a b : Refinement} (same : a.join b = .unchanged) :
    a = .unchanged ∧ b = .unchanged := by
  cases a <;> cases b <;> first | exact ⟨rfl, rfl⟩ | cases same

/-- A refinement step, and another one unless it ran into a conflict. -/
theorem Refines.bind {then_ : Engine → Engine × Refinement} :
    ∀ {result : Engine × Refinement}, Refines h e result →
      (∀ next, Steps h e next → Refines h next (then_ next)) →
      Refines h e (match result with
        | (next, .conflict) => (next, .conflict)
        | (next, outcome) =>
          let (last, others) := then_ next
          (last, outcome.join others)) := by
  rintro ⟨next, outcome⟩ first second
  cases outcome with
  | conflict => exact first
  | unchanged =>
    have steps : Steps h e next := first.answers.steps rfl
    have rest := second next steps
    refine ⟨?_, fun same => ?_⟩
    · have goes_on := goesOn_join .unchanged (then_ next).2
      exact goes_on ▸ rest.answers.after steps
    · have before : next.toState = { e.toState with dependencies := next.dependencies } :=
        first.unchanged rfl
      rw [rest.unchanged (join_eq_unchanged same).2, before]
  | tightened =>
    have steps : Steps h e next := first.answers.steps rfl
    have rest := second next steps
    refine ⟨?_, fun same => ?_⟩
    · have goes_on := goesOn_join .tightened (then_ next).2
      exact goes_on ▸ rest.answers.after steps
    · cases (join_eq_unchanged same).1

theorem refines_each {β : Type} {step : Engine → β → Engine × Refinement} {items : List β}
    (each : ∀ next, Steps h e next → ∀ a ∈ items, Refines h next (step next a)) :
    Refines h e (refineEach step items e) := by
  induction items generalizing e with
  | nil => exact .quiet (.refl e)
  | cons a rest ih =>
    have ⟨first, others⟩ := List.forall_mem_cons.1 (each e .refl)
    refine Refines.bind first fun next steps => ih fun last later b member => ?_
    exact each last (steps.trans later) b (List.mem_cons_of_mem _ member)

/-- What each of several refinement steps keeps is kept by all of them. -/
theorem refineEach_induction {β : Type} {step : Engine → β → Engine × Refinement} {items : List β}
    {M : Engine → Prop}
    (each : ∀ next, Steps h e next → ∀ a ∈ items, Refines h next (step next a))
    (kept : ∀ next, Steps h e next → ∀ a ∈ items, M next → M (step next a).1) (start : M e) :
    M (refineEach step items e).1 := by
  induction items generalizing e with
  | nil => exact start
  | cons a rest ih =>
    have first := each e .refl a List.mem_cons_self
    have moved := kept e .refl a List.mem_cons_self start
    rw [refineEach]
    generalize step e a = result at first moved ⊢
    obtain ⟨next, outcome⟩ := result
    -- unless it was a conflict, the other steps start from where the first one ended
    have others (steps : Steps h e next) : M (refineEach step rest next).1 :=
      ih (fun last later b member => each last (steps.trans later) b (List.mem_cons_of_mem _ member))
        (fun last later b member => kept last (steps.trans later) b (List.mem_cons_of_mem _ member))
        moved
    cases outcome with
    | conflict => exact moved
    | unchanged => exact others (first.answers.steps rfl)
    | tightened => exact others (first.answers.steps rfl)

/-! ## Intervals of variables -/

theorem boundReasons_eq (e : Engine) (vs : List Var) :
    e.boundReasons vs = e.reasonsOf (bothSides vs) := by
  simp [boundReasons, reasonsOf, bothSides, List.map_flatMap]

theorem contains_varInterval (inv : e.Invariant h) {uses : List (Var × BoundKind)}
    (respects : e.Respects α uses) (member : ∀ kind, (v, kind) ∈ uses) :
    (e.varInterval v).contains (α v) = true := by
  have side (kind : BoundKind) : (((e.bounds.value v kind).map
      (Endpoint.ofBound kind)).getD .infinite).Limits kind (α v) := by
    cases found : e.bounds.value v kind with
    | none => cases kind <;> trivial
    | some value =>
      exact Endpoint.limits_ofBound (respects.admits inv.founded.formed.bounds (member kind) found)
  exact Interval.contains_iff.2 ⟨side .lower, side .upper⟩

/-! ## Tightening -/

theorem coherent_roundBound {value : InfRat} (coherent : kind.Coherent value) :
    kind.Coherent (e.roundBound v kind value) := by
  rw [roundBound]
  split
  · exact BoundKind.coherent_ofRat _ _
  · exact coherent

/-- The endpoint of an interval that holds the values of a variable is installed as its bound. -/
theorem refines_tightenSide {interval : Interval} (inv : e.Invariant h) (lt : v < e.numVars)
    (derives : Derives h e reasons fun α => interval.contains (α v) = true) (kind : BoundKind) :
    Refines h e (tightenSide v interval reasons e kind) := by
  unfold tightenSide
  simp only
  split
  · exact .quiet (.refl e)
  · rename_i bound found
    have admits {α : Var → Rat} (member : interval.contains (α v) = true) :
        kind.admits bound (.ofRat (α v)) = true := by
      cases kind
      · exact Endpoint.admits_toBound (Interval.contains_iff.1 member).1 found
      · exact Endpoint.admits_toBound (Interval.contains_iff.1 member).2 found
    split
    · generalize counted_eq : Engine.count (Engine.trace e _ _) _ = counted
      have becomes : e.Becomes e.toState counted := by
        rw [← counted_eq]
        exact ⟨rfl, rfl⟩
      have counted_inv := becomes.steps.invariant inv
      have derives := derives.later inv becomes.steps
      have j := derives.joined counted_inv
      generalize counted.joinReasons reasons = result at j ⊢
      obtain ⟨joined, reason⟩ := result
      have same : joined.toState = { e.toState with dependencies := joined.dependencies } := by
        rw [j.becomes.toState, becomes.toState]
      have answers : Answers h joined
          (joined.installBound v kind (e.roundBound v kind bound) reason .derived) := by
        refine answers_entailed (j.steps.invariant counted_inv) j.names (j.grounded derives.grounded)
          (fun reliable α solves believes => ?_) ?_ (coherent_roundBound (Endpoint.coherent_toBound found))
        · have before := j.grows.solves α solves
          have within := derives.entails (j.grows.reliable reliable) α before (j.believes believes)
          rw [becomes.toState] at before
          exact (admits_roundBound (before.integral v) kind bound).trans (admits within)
        · rw [same]
          exact lt
      have answers := answers.after (becomes.steps.trans j.steps)
      simp only
      generalize joined.installBound v kind (e.roundBound v kind bound) reason .derived = installed
        at answers ⊢
      obtain ⟨next, ok⟩ := installed
      cases ok with
      | true => exact .tightened answers
      | false => exact .conflict answers
    · exact .quiet (.refl e)

/-- The endpoints of an interval that holds the values of a variable are installed as its bounds. -/
theorem refines_tighten {interval : Interval} (inv : e.Invariant h) (lt : v < e.numVars)
    (derives : Derives h e reasons fun α => interval.contains (α v) = true) :
    Refines h e (e.tighten v interval reasons) := by
  rw [tighten]
  refine refines_each fun next steps kind _ => ?_
  exact refines_tightenSide (steps.invariant inv)
    (Nat.lt_of_lt_of_le lt (steps.keeps inv).numVars) (derives.later inv steps) kind

/-! ## Powers -/

/-- Sorted powers that count the variables of a list. -/
structure Powers (powers : List (Var × Nat)) (seen : List Var) : Prop where
  increasing : powers.Pairwise fun p q => p.1 < q.1
  counts : ∀ p ∈ powers, p.1 ∈ seen ∧ p.2 = seen.count p.1
  all : ∀ v ∈ seen, ∃ p ∈ powers, p.1 = v

theorem fst_of_mem_addPower {powers : List (Var × Nat)} {p : Var × Nat}
    (member : p ∈ addPower v powers) : p.1 = v ∨ p ∈ powers := by
  induction powers with
  | nil =>
    rw [addPower, List.mem_singleton] at member
    exact .inl (congrArg Prod.fst member)
  | cons head rest ih =>
    obtain ⟨w, n⟩ := head
    simp only [addPower] at member
    grind

/-- Counting one more factor keeps the powers in strictly increasing order of their variables. -/
theorem pairwise_addPower {powers : List (Var × Nat)}
    (increasing : powers.Pairwise fun p q => p.1 < q.1) :
    (addPower v powers).Pairwise fun p q => p.1 < q.1 := by
  induction powers with
  | nil => exact List.pairwise_singleton _ _
  | cons head rest ih =>
    obtain ⟨w, n⟩ := head
    obtain ⟨below, tail⟩ := List.pairwise_cons.1 increasing
    simp only [addPower]
    split
    · rename_i less
      refine List.pairwise_cons.2 ⟨fun p member => ?_, increasing⟩
      rcases List.mem_cons.1 member with rfl | later
      · exact less
      · exact Nat.lt_trans less (below p later)
    · rename_i not_less
      split
      · rename_i same
        subst same
        exact List.pairwise_cons.2 ⟨below, tail⟩
      · rename_i apart
        refine List.pairwise_cons.2 ⟨fun p member => ?_, ih tail⟩
        rcases fst_of_mem_addPower member with same | later
        · rw [same]
          exact Nat.lt_of_le_of_ne (Nat.not_lt.1 not_less) (Ne.symm apart)
        · exact below p later

/-- A new variable gets the exponent one, a known one an exponent that is larger by one. -/
theorem mem_addPower {powers : List (Var × Nat)} {p : Var × Nat}
    (increasing : powers.Pairwise fun p q => p.1 < q.1) (member : p ∈ addPower v powers) :
    (p.1 ≠ v ∧ p ∈ powers) ∨ (p.1 = v ∧ ∃ n, p.2 = n + 1 ∧
      ((v, n) ∈ powers ∨ n = 0 ∧ ∀ q ∈ powers, q.1 ≠ v)) := by
  induction powers with
  | nil =>
    rw [addPower, List.mem_singleton] at member
    subst member
    exact .inr ⟨rfl, 0, rfl, .inr ⟨rfl, by simp⟩⟩
  | cons head rest ih =>
    obtain ⟨w, n⟩ := head
    obtain ⟨below, tail⟩ := List.pairwise_cons.1 increasing
    simp only [addPower] at member
    split at member
    · rename_i less
      have above (q : Var × Nat) (at_q : q ∈ (w, n) :: rest) : q.1 ≠ v := by
        rcases List.mem_cons.1 at_q with rfl | later
        · exact Nat.ne_of_gt less
        · exact Nat.ne_of_gt (Nat.lt_trans less (below q later))
      rcases List.mem_cons.1 member with rfl | later
      · exact .inr ⟨rfl, 0, rfl, .inr ⟨rfl, above⟩⟩
      · exact .inl ⟨above p later, later⟩
    · split at member
      · rename_i same
        subst same
        rcases List.mem_cons.1 member with rfl | later
        · exact .inr ⟨rfl, n, rfl, .inl List.mem_cons_self⟩
        · exact .inl ⟨Nat.ne_of_gt (below p later), List.mem_cons_of_mem _ later⟩
      · rename_i apart
        rcases List.mem_cons.1 member with rfl | later
        · exact .inl ⟨Ne.symm apart, List.mem_cons_self⟩
        · rcases ih tail later with ⟨other, at_p⟩ | ⟨same, m, exponent, known | ⟨rfl, fresh⟩⟩
          · exact .inl ⟨other, List.mem_cons_of_mem _ at_p⟩
          · exact .inr ⟨same, m, exponent, .inl (List.mem_cons_of_mem _ known)⟩
          · refine .inr ⟨same, 0, exponent, .inr ⟨rfl, fun q at_q => ?_⟩⟩
            rcases List.mem_cons.1 at_q with rfl | at_q
            · exact Ne.symm apart
            · exact fresh q at_q

theorem mem_addPower_self (v : Var) (powers : List (Var × Nat)) :
    ∃ p ∈ addPower v powers, p.1 = v := by
  induction powers with
  | nil => exact ⟨(v, 1), by simp [addPower], rfl⟩
  | cons head rest ih =>
    obtain ⟨w, n⟩ := head
    simp only [addPower]
    split
    · exact ⟨(v, 1), List.mem_cons_self, rfl⟩
    · split
      · rename_i same
        exact ⟨(w, n + 1), List.mem_cons_self, same.symm⟩
      · obtain ⟨p, member, same⟩ := ih
        exact ⟨p, List.mem_cons_of_mem _ member, same⟩

theorem mem_addPower_of_mem {powers : List (Var × Nat)} {p : Var × Nat} (member : p ∈ powers) :
    ∃ q ∈ addPower v powers, q.1 = p.1 := by
  induction powers with
  | nil => cases member
  | cons head rest ih =>
    obtain ⟨w, n⟩ := head
    simp only [addPower]
    split
    · exact ⟨p, List.mem_cons_of_mem _ member, rfl⟩
    · split
      · rcases List.mem_cons.1 member with rfl | later
        · exact ⟨(w, n + 1), List.mem_cons_self, rfl⟩
        · exact ⟨p, List.mem_cons_of_mem _ later, rfl⟩
      · rcases List.mem_cons.1 member with rfl | later
        · exact ⟨(w, n), List.mem_cons_self, rfl⟩
        · obtain ⟨q, at_q, same⟩ := ih later
          exact ⟨q, List.mem_cons_of_mem _ at_q, same⟩

/-- The powers of the factors seen so far count one more factor. -/
theorem Powers.add {powers : List (Var × Nat)} {seen : List Var} (counted : Powers powers seen)
    (v : Var) : Powers (addPower v powers) (seen ++ [v]) where
  increasing := pairwise_addPower counted.increasing
  counts p member := by
    rw [List.mem_append, List.mem_singleton, List.count_append]
    rcases mem_addPower counted.increasing member with
      ⟨other, at_p⟩ | ⟨same, n, exponent, known | ⟨rfl, fresh⟩⟩
    · obtain ⟨at_seen, count⟩ := counted.counts p at_p
      refine ⟨.inl at_seen, ?_⟩
      rw [count, List.count_singleton, if_neg (by simpa using Ne.symm other), Nat.add_zero]
    · refine ⟨.inr same, ?_⟩
      have count : n = seen.count v := (counted.counts _ known).2
      rw [exponent, count, same, List.count_singleton, if_pos (beq_self_eq_true v)]
    · refine ⟨.inr same, ?_⟩
      have absent : seen.count v = 0 := List.count_eq_zero.2 fun at_seen => by
        obtain ⟨q, at_q, same⟩ := counted.all v at_seen
        exact fresh q at_q same
      rw [exponent, same, absent, List.count_singleton, if_pos (beq_self_eq_true v)]
  all w member := by
    rcases List.mem_append.1 member with at_seen | here
    · obtain ⟨p, at_p, rfl⟩ := counted.all w at_seen
      exact mem_addPower_of_mem at_p
    · rw [List.mem_singleton.1 here]
      exact mem_addPower_self v powers

theorem powers_powersOf (factors : List Var) : Powers (powersOf factors) factors := by
  have from_seen (powers : List (Var × Nat)) (seen rest : List Var)
      (counted : Powers powers seen) :
      Powers (rest.foldl (fun powers v => addPower v powers) powers) (seen ++ rest) := by
    induction rest generalizing powers seen with
    | nil => rwa [List.append_nil]
    | cons v rest ih =>
      have later := ih (addPower v powers) (seen ++ [v]) (counted.add v)
      rwa [List.append_assoc] at later
  exact from_seen [] [] factors ⟨.nil, by simp, by simp⟩

/-- Counting one more factor multiplies the product by its value. -/
theorem prod_addPower (v : Var) (powers : List (Var × Nat)) (α : Var → Rat) :
    ((addPower v powers).map fun p => α p.1 ^ p.2).prod =
      (powers.map fun p => α p.1 ^ p.2).prod * α v := by
  induction powers with
  | nil => simp [addPower]
  | cons head rest ih =>
    obtain ⟨w, n⟩ := head
    simp only [addPower]
    split
    · simp only [List.map_cons, List.prod_cons, pow_one]
      ring
    · split
      · rename_i same
        subst same
        simp only [List.map_cons, List.prod_cons]
        ring
      · simp only [List.map_cons, List.prod_cons, ih]
        ring

theorem prod_powersOf (factors : List Var) (α : Var → Rat) :
    ((powersOf factors).map fun p => α p.1 ^ p.2).prod = (factors.map α).prod := by
  have from_powers (powers : List (Var × Nat)) (rest : List Var) :
      ((rest.foldl (fun powers v => addPower v powers) powers).map fun p => α p.1 ^ p.2).prod =
        (powers.map fun p => α p.1 ^ p.2).prod * (rest.map α).prod := by
    induction rest generalizing powers with
    | nil => simp
    | cons v rest ih =>
      rw [List.foldl_cons, ih, prod_addPower, List.map_cons, List.prod_cons, mul_assoc]
  have product := from_powers [] factors
  rwa [List.map_nil, List.prod_nil, one_mul] at product

/-- A product is one of its variables to the power of its occurrences times the rest. -/
theorem prod_eq_pow_mul (factors : List Var) (v : Var) (α : Var → Rat) :
    (factors.map α).prod =
      α v ^ factors.count v * ((factors.filter fun w => w ≠ v).map α).prod := by
  induction factors with
  | nil => simp
  | cons w rest ih =>
    rw [List.map_cons, List.prod_cons, ih]
    by_cases same : w = v
    · subst same
      rw [List.count_cons_self, List.filter_cons_of_neg (by simp)]
      ring
    · rw [List.count_cons_of_ne (by simpa using same), List.filter_cons_of_pos (by simpa using same),
        List.map_cons, List.prod_cons]
      ring

/-! ## Monomials -/

/-- The interval of a product holds the product of values in the intervals of its variables. -/
theorem contains_productInterval {factors : List Var}
    (members : ∀ v ∈ factors, (e.varInterval v).contains (α v) = true) :
    (e.productInterval factors).contains (factors.map α).prod = true := by
  have from_interval (powers : List (Var × Nat)) (start : Interval) (q : Rat)
      (at_start : start.contains q = true)
      (each : ∀ p ∈ powers, (e.varInterval p.1).contains (α p.1) = true ∧ p.2 ≠ 0) :
      (powers.foldl (fun acc p => acc.mul ((e.varInterval p.1).power p.2)) start).contains
        (q * (powers.map fun p => α p.1 ^ p.2).prod) = true := by
    induction powers generalizing start q with
    | nil => simpa using at_start
    | cons p rest ih =>
      obtain ⟨⟨within, positive⟩, others⟩ := List.forall_mem_cons.1 each
      rw [List.map_cons, List.prod_cons, ← mul_assoc]
      exact ih _ _ (Interval.contains_mul at_start (Interval.contains_power within positive)) others
  have counted := powers_powersOf factors
  have product := from_interval (powersOf factors) (.point 1) 1 (Interval.contains_point 1)
    fun p member => by
      obtain ⟨at_factors, count⟩ := counted.counts p member
      exact ⟨members _ at_factors, count ▸ (List.count_pos_iff.2 at_factors).ne'⟩
  rwa [one_mul, prod_powersOf] at product

theorem contains_productInterval_of_respects (inv : e.Invariant h) {vs : List Var}
    (factors : List Var) (respects : e.Respects α (bothSides vs)) (used : ∀ v ∈ factors, v ∈ vs) :
    (e.productInterval factors).contains (factors.map α).prod = true :=
  contains_productInterval fun v member =>
    contains_varInterval inv respects (mem_bothSides (used v member))

variable {m : Monomial}

theorem derives_product (inv : e.Invariant h) (member : m ∈ e.monomials) :
    Derives h e (e.boundReasons m.factors) fun α =>
      (e.productInterval m.factors).contains (α m.var) = true := by
  rw [boundReasons_eq]
  refine derives_reasonsOf inv _ fun α solves respects => ?_
  rw [solves.monomials m member]
  exact contains_productInterval_of_respects inv _ respects fun _ at_factors => at_factors

theorem refines_boundMonomial (inv : e.Invariant h) (member : m ∈ e.monomials) :
    Refines h e (e.boundMonomial m) :=
  refines_tighten inv (inv.founded.multiplied.var_lt m member) (derives_product inv member)

theorem mem_of_simple (simple : v ∈ simpleFactors m) : v ∈ m.factors ∧ m.factors.count v = 1 := by
  obtain ⟨⟨w, n⟩, at_powers, rfl⟩ := List.mem_map.1 simple
  obtain ⟨at_powers, exponent⟩ := List.mem_filter.1 at_powers
  obtain ⟨at_factors, count⟩ := (powers_powersOf m.factors).counts _ at_powers
  exact ⟨at_factors, count.symm.trans (of_decide_eq_true exponent)⟩

/-- A simple factor is the monomial times the reciprocal of the other factors. -/
theorem derives_quotient {inverse : Interval} (inv : e.Invariant h) (member : m ∈ e.monomials)
    (simple : v ∈ simpleFactors m)
    (found : (e.productInterval (m.factors.filter fun u => u ≠ v)).inverse = some inverse) :
    Derives h e (e.boundReasons (m.var :: m.factors.filter fun u => u ≠ v)) fun α =>
      ((e.varInterval m.var).mul inverse).contains (α v) = true := by
  rw [boundReasons_eq]
  refine derives_reasonsOf inv _ fun α solves respects => ?_
  have others := contains_productInterval_of_respects inv
    (m.factors.filter fun u => u ≠ v) respects fun u at_u => List.mem_cons_of_mem _ at_u
  obtain ⟨nonzero, reciprocal⟩ := Interval.contains_inverse others found
  have own := contains_varInterval (v := m.var) inv respects
    (mem_bothSides List.mem_cons_self)
  have quotient := Interval.contains_mul own reciprocal
  have product : α m.var = α v * ((m.factors.filter fun u => u ≠ v).map α).prod := by
    rw [solves.monomials m member, prod_eq_pow_mul m.factors v α, (mem_of_simple simple).2, pow_one]
  rwa [product, mul_one_div, mul_div_assoc, div_self nonzero, mul_one] at quotient

theorem refines_boundFactor (inv : e.Invariant h) (member : m ∈ e.monomials)
    (simple : v ∈ simpleFactors m) : Refines h e (boundFactor m e v) := by
  rw [boundFactor]
  split
  · exact .quiet (.refl e)
  · rename_i inverse found
    exact refines_tighten inv
      (inv.founded.multiplied.factor_lt m member v (mem_of_simple simple).1)
      (derives_quotient inv member simple found)

theorem refines_refineMonomial (inv : e.Invariant h) (member : m ∈ e.monomials) :
    Refines h e (e.refineMonomial m) := by
  rw [refineMonomial]
  refine Refines.bind (refines_boundMonomial inv member) fun next steps => ?_
  refine refines_each fun last later v simple => ?_
  have both : Steps h e last := steps.trans later
  refine refines_boundFactor (both.invariant inv) ?_ simple
  exact (both.keeps inv).monomials ▸ member

theorem refines_refineMonomials (inv : e.Invariant h) : Refines h e e.refineMonomials := by
  rw [refineMonomials]
  refine refines_each fun next steps m member => ?_
  exact refines_refineMonomial (steps.invariant inv) ((steps.keeps inv).monomials ▸ member)

end Engine

end ArithDecide
