import ArithDecide.Proofs.Flags

/-!
# Settled atoms are decided by the values that the bounds leave

The values of a variable are those of its sort within the active bounds; a value of a real variable may
have an infinitesimal part, as bounds do. `Engine.State.settles_iff` says that an active bound settles
an atom exactly when all these values agree about it: the bound itself is one of them, and without a
bound there are integers as far out as one wants. Rational values are enough when the bounds point the
right way, and for integer variables anyway, which is `Engine.State.settles_iff_rational`.
-/

namespace ArithDecide

variable {kind side : BoundKind} {a b c x : InfRat}

/-! ## Values beyond, between and nearby -/

/-- There are integers beyond any two values, on either side. -/
theorem BoundKind.exists_int_tighter (kind : BoundKind) (a b : InfRat) :
    ∃ n : Int, kind.tighter (.ofRat n) a = true ∧ kind.tighter (.ofRat n) b = true := by
  cases kind with
  | lower =>
    have above (c : InfRat) {n : Int} (le : c.real.floor < n) :
        BoundKind.lower.tighter (.ofRat n) c = true := by
      rw [BoundKind.tighter, decide_eq_true_eq]
      exact .inl (Rat.floor_lt_iff.1 le)
    refine ⟨max a.real.floor b.real.floor + 1, above a ?_, above b ?_⟩ <;> omega
  | upper =>
    have below (c : InfRat) {n : Int} (le : n < c.real.ceil) :
        BoundKind.upper.tighter (.ofRat n) c = true := by
      rw [BoundKind.tighter, decide_eq_true_eq]
      exact .inl (Rat.lt_ceil_iff.1 le)
    refine ⟨min a.real.ceil b.real.ceil - 1, below a ?_, below b ?_⟩ <;> omega

/-- Near a value whose infinitesimal part points up there is a rational above it that lies below a
given value above, if any, and on the same side of a threshold. -/
theorem InfRat.exists_rat_above (k : Rat) {opposite : Option InfRat} (coherent : 0 ≤ a.eps)
    (others : ∀ c, opposite = some c → c.eps ≤ 0 ∧ a ≤ c) :
    ∃ q : Rat, a ≤ .ofRat q ∧ (∀ c, opposite = some c → .ofRat q ≤ c) ∧ ∀ side : BoundKind,
      side.admits (.ofRat k) (.ofRat q) = side.admits (.ofRat k) a := by
  rcases coherent.eq_or_lt with exact_value | positive
  · have same : .ofRat a.real = a := InfRat.ext rfl exact_value
    refine ⟨a.real, ?_⟩
    rw [same]
    exact ⟨le_refl a, fun c found => (others c found).2, fun _ => rfl⟩
  · -- strictly above the real part, but below everything that lies strictly above it
    obtain ⟨q, above, below⟩ : ∃ q, a.real < q ∧
        q < min (if a.real < k then k else a.real + 1) ((opposite.map InfRat.real).getD (a.real + 1)) := by
      refine exists_between (lt_min ?_ ?_)
      · split
        · assumption
        · exact lt_add_one _
      · cases opposite with
        | none => exact lt_add_one _
        | some c =>
          obtain ⟨nonpositive, le⟩ := others c rfl
          refine ((InfRat.le_def a c).1 le).resolve_right fun same => ?_
          exact absurd (positive.trans_le same.2) (not_lt.2 nonpositive)
    obtain ⟨near, within⟩ := lt_min_iff.1 below
    refine ⟨q, .inl above, ?_, fun side => ?_⟩
    · rintro c rfl
      exact .inl within
    · rw [Bool.eq_iff_iff]
      cases side with
      | lower =>
        rw [BoundKind.admits_lower, BoundKind.admits_lower, InfRat.ofRat_le, InfRat.ofRat_le_iff,
          if_neg (not_lt.2 coherent)]
        split at near
        · exact iff_of_false (not_le.2 near) (not_le.2 (by assumption))
        · rename_i not_less
          have le := not_lt.1 not_less
          exact iff_of_true (le.trans above.le) le
      | upper =>
        rw [BoundKind.admits_upper, BoundKind.admits_upper, InfRat.ofRat_le, InfRat.le_ofRat,
          if_pos positive]
        split at near
        · exact iff_of_true near.le (by assumption)
        · rename_i not_less
          exact iff_of_false (not_le.2 ((not_lt.1 not_less).trans_lt above)) not_less

/-- The same on either side of a value that points the right way. -/
theorem BoundKind.exists_rat_near (kind : BoundKind) (k : Rat) {opposite : Option InfRat}
    (coherent : kind.Coherent a)
    (others : ∀ c, opposite = some c → kind.opposite.Coherent c ∧ kind.admits a c = true) :
    ∃ q : Rat, kind.admits a (.ofRat q) = true ∧
      (∀ c, opposite = some c → kind.opposite.admits c (.ofRat q) = true) ∧
      ∀ side : BoundKind, side.admits (.ofRat k) (.ofRat q) = side.admits (.ofRat k) a := by
  cases kind with
  | lower =>
    obtain ⟨q, above, below, same⟩ := InfRat.exists_rat_above k coherent fun c found =>
      ⟨(others c found).1, BoundKind.admits_lower.1 (others c found).2⟩
    exact ⟨q, BoundKind.admits_lower.2 above, fun c found => BoundKind.admits_upper.2 (below c found),
      same⟩
  | upper =>
    have turned (side : BoundKind) (x y : InfRat) :
        side.opposite.admits (-x) (-y) = side.admits x y := by
      rw [Bool.eq_iff_iff]
      refine ⟨fun admits => ?_, BoundKind.admits_neg⟩
      have back := BoundKind.admits_neg admits
      rwa [neg_neg, neg_neg, BoundKind.opposite_opposite] at back
    have mirrored (c : InfRat) (found : opposite.map Neg.neg = some c) : c.eps ≤ 0 ∧ -a ≤ c := by
      obtain ⟨c, at_c, rfl⟩ := Option.map_eq_some_iff.1 found
      have ⟨points, le⟩ := others c at_c
      exact ⟨neg_nonpos.2 points, neg_le_neg (BoundKind.admits_upper.1 le)⟩
    obtain ⟨q, above, below, same⟩ :=
      InfRat.exists_rat_above (-k) (neg_nonneg.2 coherent : 0 ≤ (-a).eps) mirrored
    refine ⟨-q, ?_, fun c found => ?_, fun side => ?_⟩
    · rw [← turned, InfRat.ofRat_neg, neg_neg]
      exact BoundKind.admits_lower.2 above
    · rw [← turned, InfRat.ofRat_neg, neg_neg]
      exact BoundKind.admits_upper.2 (below (-c) (by rw [found]; rfl))
    · rw [← turned, ← turned side _ a, InfRat.ofRat_neg, neg_neg, ← InfRat.ofRat_neg]
      exact same side.opposite

namespace Engine.State

variable {s : State} {v : Var} {atom : Atom} {sign : Bool}

/-- The active bounds and the sort of a variable allow it the value. -/
def Permits (s : State) (v : Var) (x : InfRat) : Prop :=
  s.bounds.admits v x = true ∧ (s.isInt v = true → ∃ n : Int, x = .ofRat n)

/-- All values that the bounds allow its variable make the fact of an atom true, or false. -/
def DecidesAtom (s : State) (atom : Atom) (sign : Bool) : Prop :=
  ∀ x, s.Permits atom.var x → atom.kind.admits (.ofRat atom.threshold) x = sign

/-- The same of rational values only. -/
def DecidesAtomRationally (s : State) (atom : Atom) (sign : Bool) : Prop :=
  ∀ q : Rat, s.Permits atom.var (.ofRat q) →
    atom.kind.admits (.ofRat atom.threshold) (.ofRat q) = sign

/-- An active bound is allowed itself. -/
theorem permits_bound {n : Nat} (well : s.bounds.WellFormed n) (rounded : s.Rounded) {b : Bound}
    (active : s.bounds.get v side = some b) : s.Permits v b.value := by
  refine ⟨BoundStore.admits_iff.2 fun kind other found => ?_, fun integer => ?_⟩
  · cases side <;> cases kind
    · obtain rfl := Option.some.inj (active.symm.trans found)
      exact BoundKind.admits_refl _ _
    · exact BoundKind.admits_upper.2 (well.ordered v b other active found)
    · exact BoundKind.admits_lower.2 (well.ordered v other b found active)
    · obtain rfl := Option.some.inj (active.symm.trans found)
      exact BoundKind.admits_refl _ _
  · refine rounded v side b.value integer ?_
    rw [BoundStore.value, active]
    rfl

/-- Without a bound on one side, there are allowed integers beyond any threshold on that side. -/
theorem exists_permitted_beyond (unbounded : s.bounds.get v side = none) (a : InfRat) :
    ∃ n : Int, s.Permits v (.ofRat n) ∧ side.opposite.tighter (.ofRat n) a = true := by
  obtain ⟨n, beyond, past⟩ := side.opposite.exists_int_tighter a
    (((s.bounds.get v side.opposite).map Bound.value).getD 0)
  refine ⟨n, ⟨BoundStore.admits_iff.2 fun kind other found => ?_, fun _ => ⟨n, rfl⟩⟩, beyond⟩
  have kind_eq : kind = side.opposite := by
    cases side <;> cases kind <;> simp_all [BoundKind.opposite]
  subst kind_eq
  rw [found] at past
  exact BoundKind.admits_of_tighter past

/-- The bounds settle an atom in the way in which all allowed values decide it, as long as they include
the bounds and, where there is no bound, values beyond the threshold. -/
theorem settles_iff_of_samples (sample : InfRat → Prop)
    (bound : ∀ side b, s.bounds.get atom.var side = some b → ∃ x, sample x ∧ s.Permits atom.var x ∧
      atom.kind.admits (.ofRat atom.threshold) x = atom.kind.admits (.ofRat atom.threshold) b.value)
    (whole : ∀ n : Int, sample (.ofRat n)) :
    s.bounds.Settles atom sign ↔ ∀ x, sample x → s.Permits atom.var x →
      atom.kind.admits (.ofRat atom.threshold) x = sign := by
  constructor
  · intro settles x _ ⟨within, _⟩
    rw [BoundStore.admits_iff] at within
    cases sign with
    | true =>
      obtain ⟨b, found, admits⟩ := settles
      exact BoundKind.admits_trans admits (within _ b found)
    | false =>
      obtain ⟨b, found, beyond⟩ := settles
      refine Bool.eq_false_iff.2 fun admits => beyond ?_
      exact BoundKind.admits_trans (within _ b found) (BoundKind.opposite_admits.2 admits)
  · intro decided
    cases sign with
    | true =>
      cases found : s.bounds.get atom.var atom.kind with
      | none =>
        obtain ⟨n, allowed, beyond⟩ := exists_permitted_beyond found (.ofRat atom.threshold)
        have admits := decided _ (whole n) allowed
        rw [BoundKind.tighter_iff, BoundKind.opposite_admits] at beyond
        exact (beyond admits).elim
      | some b =>
        obtain ⟨x, sampled, allowed, same⟩ := bound _ b found
        exact ⟨b, found, same ▸ decided x sampled allowed⟩
    | false =>
      cases found : s.bounds.get atom.var atom.kind.opposite with
      | none =>
        obtain ⟨n, allowed, beyond⟩ := exists_permitted_beyond found (.ofRat atom.threshold)
        have refuted := decided _ (whole n) allowed
        rw [BoundKind.opposite_opposite] at beyond
        rw [BoundKind.admits_of_tighter beyond] at refuted
        cases refuted
      | some b =>
        obtain ⟨x, sampled, allowed, same⟩ := bound _ b found
        refine ⟨b, found, fun within => ?_⟩
        have refuted := same.symm.trans (decided x sampled allowed)
        rw [BoundKind.opposite_admits.1 within] at refuted
        cases refuted

/-- An active bound settles an atom exactly when all values of its variable decide it. -/
theorem settles_iff {n : Nat} (well : s.bounds.WellFormed n) (rounded : s.Rounded) :
    s.bounds.Settles atom sign ↔ s.DecidesAtom atom sign := by
  rw [settles_iff_of_samples (fun _ => True)
    (fun side b found => ⟨b.value, trivial, permits_bound well rounded found, rfl⟩) fun _ => trivial]
  exact ⟨fun all x => all x trivial, fun all x _ => all x⟩

/-- The rational values are enough when the active bounds point the right way, and for an integer
variable. -/
theorem settles_iff_rational {n : Nat} (well : s.bounds.WellFormed n) (rounded : s.Rounded)
    (coherent : s.isInt atom.var = true ∨
      ∀ side b, s.bounds.get atom.var side = some b → side.Coherent b.value) :
    s.bounds.Settles atom sign ↔ s.DecidesAtomRationally atom sign := by
  rw [settles_iff_of_samples (fun x => ∃ q, x = .ofRat q) ?_ fun n => ⟨n, rfl⟩]
  · exact ⟨fun all q => all _ ⟨q, rfl⟩, fun all x ⟨q, same⟩ => same ▸ all q⟩
  · intro side b found
    have allowed := permits_bound well rounded found
    by_cases integer : s.isInt atom.var = true
    · obtain ⟨n, same⟩ := allowed.2 integer
      exact ⟨b.value, ⟨n, same⟩, allowed, rfl⟩
    · have points := coherent.resolve_left integer
      have within := BoundStore.admits_iff.1 allowed.1
      have apart (c : InfRat)
          (at_c : (s.bounds.get atom.var side.opposite).map Bound.value = some c) :
          side.opposite.Coherent c ∧ side.admits b.value c = true := by
        obtain ⟨other, found', rfl⟩ := Option.map_eq_some_iff.1 at_c
        exact ⟨points _ other found', BoundKind.opposite_admits.1 (within _ other found')⟩
      obtain ⟨q, above, below, same⟩ :=
        side.exists_rat_near atom.threshold (points side b found) apart
      refine ⟨.ofRat q, ⟨q, rfl⟩, ⟨BoundStore.admits_iff.2 fun kind other found' => ?_,
        fun whole => absurd whole integer⟩, same atom.kind⟩
      by_cases here : kind = side
      · subst here
        obtain rfl := Option.some.inj (found.symm.trans found')
        exact above
      · have kind_eq : kind = side.opposite := by
          cases side <;> cases kind <;> simp_all [BoundKind.opposite]
        subst kind_eq
        exact below _ (by rw [found']; rfl)

end Engine.State

end ArithDecide
