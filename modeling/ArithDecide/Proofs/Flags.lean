import ArithDecide.Proofs.Changes
import ArithDecide.Proofs.Consequences
import ArithDecide.Proofs.Strides

/-!
# Flags of atoms

An atom bears a flag from when its literal was queued for being handed out. `Engine.View.Complete` says
that every atom without an assigned sign that the active bounds settle is flagged, and
`Engine.View.Marks` what happens to the flags on the way from one view to another: an atom that was not
flagged becomes so exactly when a literal of it is queued, and that literal is settled by the bounds.
Both go through every stride: the flags are looked after wherever an atom is added and wherever a bound
becomes tighter, for all atoms of its variable, and an atom never loses its sign while no scope is left.
-/

namespace ArithDecide

/-! ## Settled atoms -/

namespace BoundStore

variable {store next : BoundStore} {bound b : Bound} {v : Var} {kind : BoundKind} {atom later : Atom}
  {sign : Bool}

/-- An active bound of its variable makes the fact of an atom true, or false. -/
def Settles (store : BoundStore) (atom : Atom) : Bool → Prop
  | true => store.Covers atom.var atom.kind (.ofRat atom.threshold)
  | false => ∃ b, store.get atom.var atom.kind.opposite = some b ∧
      ¬atom.kind.opposite.admits b.value (.ofRat atom.threshold) = true

/-- Whatever was covered is covered. -/
def Narrows (store next : BoundStore) : Prop :=
  ∀ v kind value, store.Covers v kind value → next.Covers v kind value

/-- Variables point to existing records. -/
def Pointed (store : BoundStore) : Prop :=
  ∀ v kind id, store.slots.get v kind = some id → id < store.records.size

theorem covers_self (active : store.get v kind = some b) : store.Covers v kind b.value :=
  ⟨b, active, BoundKind.admits_refl _ _⟩

theorem narrows_of_get (same : ∀ v kind, next.get v kind = store.get v kind) :
    store.Narrows next := by
  rintro v kind value ⟨active, found, admits⟩
  exact ⟨active, (same v kind).trans found, admits⟩

/-- What the bounds settle stays settled when they narrow. -/
theorem Settles.narrow (settles : store.Settles atom sign) (narrows : store.Narrows next) :
    next.Settles atom sign := by
  cases sign with
  | true => exact narrows _ _ _ settles
  | false =>
    obtain ⟨b, found, beyond⟩ := settles
    obtain ⟨active, found', admits⟩ := narrows _ _ _ (covers_self found)
    exact ⟨active, found', fun within => beyond (BoundKind.admits_trans admits within)⟩

/-- Only the bounds of its variable settle an atom. -/
theorem Settles.of_get (settles : next.Settles atom sign)
    (same : ∀ kind, next.get atom.var kind = store.get atom.var kind) : store.Settles atom sign := by
  cases sign with
  | true =>
    obtain ⟨active, found, admits⟩ := settles
    exact ⟨active, (same _).symm.trans found, admits⟩
  | false =>
    obtain ⟨b, found, beyond⟩ := settles
    exact ⟨b, (same _).symm.trans found, beyond⟩

theorem Settles.congr (settles : store.Settles atom sign) (var_eq : later.var = atom.var)
    (kind_eq : later.kind = atom.kind) (threshold_eq : later.threshold = atom.threshold) :
    store.Settles later sign := by
  cases sign with
  | true =>
    rw [Settles, var_eq, kind_eq, threshold_eq]
    exact settles
  | false =>
    rw [Settles, var_eq, kind_eq, threshold_eq]
    exact settles

/-- Bounds that do not cross settle an atom in one way only. -/
theorem Settles.unique {n : Nat} {other : Bool} (well : store.WellFormed n)
    (settles : store.Settles atom sign) (settles' : store.Settles atom other) : sign = other := by
  have apart (entailed : store.Settles atom true) (refuted : store.Settles atom false) : False := by
    obtain ⟨near, found, admits⟩ := entailed
    obtain ⟨far, found', beyond⟩ := refuted
    refine beyond (BoundKind.opposite_admits.2 (BoundKind.admits_trans admits ?_))
    cases kind_eq : atom.kind with
    | lower =>
      rw [kind_eq] at found found'
      exact BoundKind.admits_lower.2 (well.ordered _ _ _ found found')
    | upper =>
      rw [kind_eq] at found found'
      exact BoundKind.admits_upper.2 (well.ordered _ _ _ found' found)
  cases sign <;> cases other
  · rfl
  · exact (apart settles' settles).elim
  · exact (apart settles settles').elim
  · rfl

/-! ## Offered bounds -/

theorem Pointed.addVar (pointed : store.Pointed) : store.addVar.Pointed := fun v kind id slot =>
  pointed v kind id ((get_grow _ _ _).symm.trans slot)

/-- Only the slot that is set changes, if it exists. -/
theorem get_set_cases (slots : BoundSlots) (v w : Var) (kind side : BoundKind) (id : Option BoundId) :
    (slots.set w side id).get v kind = slots.get v kind ∨
      v = w ∧ kind = side ∧ (slots.set w side id).get v kind = id := by
  cases side <;> cases kind <;>
    simp only [BoundSlots.set, BoundSlots.get, Array.getElem?_setIfInBounds] <;> grind

theorem Pointed.install (pointed : store.Pointed) (bound : Bound) : (store.install bound).Pointed := by
  intro v kind id slot
  show id < (store.records.push bound).size
  rw [Array.size_push]
  rcases get_set_cases store.slots v bound.var kind bound.kind (some store.records.size) with
    same | ⟨-, -, here⟩
  · exact Nat.lt_succ_of_lt (pointed v kind id (same.symm.trans slot))
  · obtain rfl := Option.some.inj (here.symm.trans slot)
    exact Nat.lt_succ_self _

/-- Making a bound active changes no other active bound. -/
theorem get_install_cases (pointed : store.Pointed) (bound : Bound) (v : Var) (kind : BoundKind) :
    (store.install bound).get v kind = store.get v kind ∨
      v = bound.var ∧ kind = bound.kind ∧ (store.install bound).get v kind = some bound := by
  rcases get_set_cases store.slots v bound.var kind bound.kind (some store.records.size) with
    same | ⟨var_eq, kind_eq, here⟩
  · refine .inl ?_
    show ((store.slots.set _ _ _).get v kind).bind (fun id => (store.records.push bound)[id]?) =
      (store.slots.get v kind).bind fun id => store.records[id]?
    rw [same]
    cases slot : store.slots.get v kind with
    | none => rfl
    | some id =>
      have lt := pointed v kind id slot
      simp only [Option.bind_some, Array.getElem?_push, Nat.ne_of_lt lt, if_false]
  · refine .inr ⟨var_eq, kind_eq, ?_⟩
    show ((store.slots.set _ _ _).get v kind).bind (fun id => (store.records.push bound)[id]?) = _
    rw [here]
    simp

/-- A bound that becomes active narrows what is allowed, for its own variable only. -/
theorem narrows_of_tightened (pointed : store.Pointed) (done : store.assert bound = .tightened next) :
    next.Pointed ∧ store.Narrows next ∧
      ∀ v kind, v ≠ bound.var → next.get v kind = store.get v kind := by
  have tighter : ¬store.Covers bound.var bound.kind bound.value := by
    rw [BoundStore.assert] at done
    split at done
    · cases done
    · simp only at done
      split at done
      · rename_i tighter
        exact isTighter_iff.1 tighter
      · cases done
  obtain rfl := tightened_eq done
  have noted : (store.note bound.var bound.kind).Pointed := pointed
  have cases_get := get_install_cases noted bound
  refine ⟨noted.install bound, ?_, fun v kind away =>
    (cases_get v kind).resolve_right fun here => away here.1⟩
  rintro v kind value ⟨active, found, admits⟩
  rcases cases_get v kind with same | ⟨rfl, rfl, here⟩
  · exact ⟨active, same.trans found, admits⟩
  · refine ⟨bound, here, BoundKind.admits_trans admits ?_⟩
    exact (BoundKind.admits_total bound.kind bound.value active.value).resolve_left
      fun covers => tighter ⟨active, found, covers⟩

end BoundStore

namespace Engine

variable {e next : Engine} {a : AtomId} {l : Literal} {atom : Atom} {reporting : Bool}

/-- Deciding an atom is settling it. -/
theorem settles_of_decided? {sign : Bool} {reason : Dependency}
    (decided : e.decided? atom.var atom.kind atom.threshold = some (sign, reason)) :
    e.bounds.Settles atom sign := by
  rw [decided?] at decided
  split at decided
  · rename_i b found
    obtain ⟨rfl, -⟩ := Prod.mk.inj (Option.some.inj decided)
    obtain ⟨active, weaker⟩ := Option.filter_eq_some_iff.1 found
    rw [Bool.not_eq_true', BoundKind.tighter_eq_false_iff] at weaker
    exact ⟨b, active, weaker⟩
  · rename_i b _ found
    obtain ⟨rfl, -⟩ := Prod.mk.inj (Option.some.inj decided)
    obtain ⟨active, beyond⟩ := Option.filter_eq_some_iff.1 found
    exact ⟨b, active, BoundKind.tighter_iff.1 beyond⟩
  · cases decided

/-- Where `decided?` gives no answer the active bounds settle neither sign. -/
theorem not_settles_of_decided? {sign : Bool}
    (undecided : e.decided? atom.var atom.kind atom.threshold = none) :
    ¬e.bounds.Settles atom sign := by
  rw [decided?] at undecided
  split at undecided
  · cases undecided
  · cases undecided
  · rename_i not_entailed not_refuted
    rw [Option.filter_eq_none_iff] at not_entailed not_refuted
    intro settles
    cases sign with
    | true =>
      obtain ⟨b, found, admits⟩ := settles
      refine not_entailed b found ?_
      rw [Bool.not_eq_true', BoundKind.tighter_eq_false_iff]
      exact admits
    | false =>
      obtain ⟨b, found, beyond⟩ := settles
      exact not_refuted b found (BoundKind.tighter_iff.2 beyond)

/-! ## Views -/

namespace View

variable {f g i : View} {new more : List Literal}

/-- A literal of the atom was handed out or waits for that. -/
def flagged (f : View) (a : AtomId) : Bool := (f.atoms[a]?).any Atom.propagated

/-- The bounds settle the atom of a literal as the literal says. -/
def Settled (f : View) (l : Literal) : Prop :=
  ∃ atom, f.atoms[l.atom]? = some atom ∧ f.bounds.Settles atom (!l.negative)

/-- The atom is flagged if the bounds settle it, unless it has a sign. -/
def CompleteAt (f : View) (a : AtomId) : Prop :=
  ∀ atom, f.atoms[a]? = some atom → atom.assignment = none →
    ∀ sign, f.bounds.Settles atom sign → atom.propagated = true

/-- Every atom without a sign that the bounds settle is flagged. -/
def Complete (f : View) : Prop := ∀ a, f.CompleteAt a

/-- What happens to atoms while some literals are queued: what they state stays, they keep their signs,
and those are flagged of which a literal was queued, which is settled in the end. -/
structure Marks (f g : View) (new : List Literal) : Prop where
  queued : g.propagations.map Propagation.literal = f.propagations.map Propagation.literal ++ new
  narrows : f.bounds.Narrows g.bounds
  kept : ∀ (a : AtomId) (atom : Atom), f.atoms[a]? = some atom →
    ∃ later : Atom, g.atoms[a]? = some later ∧ later.var = atom.var ∧ later.kind = atom.kind ∧
      later.threshold = atom.threshold ∧ (later.assignment = none → atom.assignment = none)
  flags : ∀ a, g.flagged a = (f.flagged a || new.any fun l => l.atom == a)
  fresh : ∀ l ∈ new, f.flagged l.atom = false
  settled : ∀ l ∈ new, g.Settled l

theorem Marks.refl (f : View) : f.Marks f [] where
  queued := (List.append_nil _).symm
  narrows _ _ _ := id
  kept _ atom found := ⟨atom, found, rfl, rfl, rfl, id⟩
  flags _ := (Bool.or_false _).symm
  fresh := nofun
  settled := nofun

/-- A settled literal stays settled. -/
theorem Marks.still (marks : f.Marks g new) (settled : f.Settled l) : g.Settled l := by
  obtain ⟨atom, found, settles⟩ := settled
  obtain ⟨later, found', var_eq, kind_eq, threshold_eq, -⟩ := marks.kept _ atom found
  exact ⟨later, found', (settles.narrow marks.narrows).congr var_eq kind_eq threshold_eq⟩

/-- A flagged atom stays flagged. -/
theorem Marks.flagged (marks : f.Marks g new) (before : f.flagged a = true) :
    g.flagged a = true := by
  rw [marks.flags, before, Bool.true_or]

/-- What is marked in two steps is marked first in one and then in the other, each atom once. -/
theorem Marks.trans (first : f.Marks g new) (second : g.Marks i more) :
    f.Marks i (new ++ more) where
  queued := by rw [second.queued, first.queued, List.append_assoc]
  narrows v kind value covered := second.narrows v kind value (first.narrows v kind value covered)
  kept a atom found := by
    obtain ⟨mid, found', var_eq, kind_eq, threshold_eq, free⟩ := first.kept a atom found
    obtain ⟨later, found'', var_eq', kind_eq', threshold_eq', free'⟩ := second.kept a mid found'
    exact ⟨later, found'', var_eq'.trans var_eq, kind_eq'.trans kind_eq,
      threshold_eq'.trans threshold_eq, fun none => free (free' none)⟩
  flags a := by rw [second.flags, first.flags, List.any_append, Bool.or_assoc]
  fresh l member := by
    rcases List.mem_append.1 member with earlier | later
    · exact first.fresh l earlier
    · have unflagged := second.fresh l later
      rw [first.flags, Bool.or_eq_false_iff] at unflagged
      exact unflagged.1
  settled l member := by
    rcases List.mem_append.1 member with earlier | later
    · exact second.still (first.settled l earlier)
    · exact second.settled l later

/-- An atom that was looked after is so while its variable has the same bounds. -/
theorem Marks.completeAt (marks : f.Marks g new) (complete : f.CompleteAt a)
    (same : ∀ atom : Atom, f.atoms[a]? = some atom → ∀ kind,
      g.bounds.get atom.var kind = f.bounds.get atom.var kind)
    (old : ∀ later : Atom, g.atoms[a]? = some later → ∃ atom : Atom, f.atoms[a]? = some atom) :
    g.CompleteAt a := by
  intro later found free sign settles
  obtain ⟨atom, before⟩ := old later found
  obtain ⟨later', found', var_eq, kind_eq, threshold_eq, kept_free⟩ := marks.kept a atom before
  obtain rfl := Option.some.inj (found.symm.trans found')
  have settled : f.bounds.Settles atom sign :=
    (settles.congr var_eq.symm kind_eq.symm threshold_eq.symm).of_get (same atom before)
  have flagged : g.flagged a = true := by
    refine marks.flagged ?_
    rw [View.flagged, before]
    exact complete atom before (kept_free free) sign settled
  rw [View.flagged, found] at flagged
  exact flagged

end View

/-! ## Handing out -/

/-- An atom is handed out if it has no sign, is not flagged and is settled. -/
theorem view_propagateAtom (e : Engine) (a : AtomId) :
    (e.propagateAtom a = e ∧ e.view.CompleteAt a) ∨
      ∃ atom sign explanation, e.view.atoms[a]? = some atom ∧ atom.propagated = false ∧
        e.bounds.Settles atom sign ∧
        (e.propagateAtom a).facade = { e.facade with
          atoms := e.view.atoms.modify a fun atom => { atom with propagated := true }
          propagations := e.propagations ++ [⟨.ofSign a sign, explanation⟩] } := by
  rw [propagateAtom]
  split
  · rename_i passed
    refine .inl ⟨rfl, fun atom found free sign _ => ?_⟩
    have skipped := Option.filter_eq_none_iff.1 passed atom found
    simpa [free] using skipped
  · rename_i atom found
    obtain ⟨found, waits⟩ := Option.filter_eq_some_iff.1 found
    obtain ⟨free, unflagged⟩ : atom.assignment = none ∧ atom.propagated = false := by
      simpa using waits
    split
    · rename_i undecided
      refine .inl ⟨rfl, fun other found' _ sign settles => ?_⟩
      obtain rfl := Option.some.inj (found.symm.trans found')
      exact (not_settles_of_decided? undecided settles).elim
    · rename_i sign reason decided
      refine .inr ⟨atom, sign, e.dependencies.linearize reason, found, unflagged,
        settles_of_decided? decided, ?_⟩
      have fresh : ¬((e.atoms.get? a).any Atom.propagated) = true := by
        rw [found]
        simp [unflagged]
      simp only [AtomRegistry.markPropagated, fresh]
      rfl

/-- The view after a literal of an atom was queued. -/
def View.handOut (f : View) (a : AtomId) (p : Propagation) : View :=
  { f with
    atoms := f.atoms.modify a fun atom => { atom with propagated := true }
    propagations := f.propagations ++ [p] }

theorem View.atoms_handOut (f : View) (a b : AtomId) (p : Propagation) :
    (f.handOut a p).atoms[b]? =
      if a = b then (f.atoms[b]?).map fun atom => { atom with propagated := true }
      else f.atoms[b]? :=
  Array.getElem?_modify

/-- Handing out an atom marks it, and its literal is the one that the bounds settle. -/
theorem View.marks_handOut {f : View} {sign : Bool} (found : f.atoms[a]? = some atom)
    (unflagged : atom.propagated = false) (settles : f.bounds.Settles atom sign)
    (x : Explanation) : f.Marks (f.handOut a ⟨.ofSign a sign, x⟩) [.ofSign a sign] where
  queued := List.map_append
  narrows _ _ _ := id
  kept b other at_b := by
    rw [View.atoms_handOut, at_b]
    split
    · exact ⟨_, rfl, rfl, rfl, rfl, id⟩
    · exact ⟨_, rfl, rfl, rfl, rfl, id⟩
  flags b := by
    rw [View.flagged, View.flagged, View.atoms_handOut]
    by_cases here : a = b
    · subst here
      simp [found, Literal.ofSign]
    · simp [here, Literal.ofSign]
  fresh l member := by
    rw [List.mem_singleton.1 member, View.flagged, show (Literal.ofSign a sign).atom = a from rfl, found]
    exact unflagged
  settled l member := by
    rw [List.mem_singleton.1 member]
    refine ⟨_, (View.atoms_handOut f a a _).trans (by rw [if_pos rfl, found]; rfl), ?_⟩
    rw [show (!(Literal.ofSign a sign).negative) = sign from Bool.not_not sign]
    exact settles.congr rfl rfl rfl

/-- What looking after atoms does: it may queue literals, and changes neither the bounds nor what atoms
there are. -/
structure Tended (e next : Engine) : Prop where
  marks : ∃ new, e.view.Marks next.view new
  bounds : next.bounds = e.bounds
  old : ∀ (a : AtomId) (later : Atom), next.view.atoms[a]? = some later →
    ∃ atom, e.view.atoms[a]? = some atom

theorem Tended.refl (e : Engine) : Tended e e := ⟨⟨[], .refl _⟩, rfl, fun _ atom found => ⟨atom, found⟩⟩

theorem Tended.trans {last : Engine} (first : Tended e next) (second : Tended next last) :
    Tended e last where
  marks := by
    obtain ⟨new, marks⟩ := first.marks
    obtain ⟨more, marks'⟩ := second.marks
    exact ⟨_, marks.trans marks'⟩
  bounds := second.bounds.trans first.bounds
  old a later found := by
    obtain ⟨mid, found'⟩ := second.old a later found
    exact first.old a mid found'

/-- An atom that was looked after stays so. -/
theorem Tended.completeAt (tended : Tended e next) (complete : e.view.CompleteAt a) :
    next.view.CompleteAt a := by
  obtain ⟨new, marks⟩ := tended.marks
  refine marks.completeAt complete (fun atom _ kind => ?_) (tended.old a)
  show next.bounds.get _ _ = e.bounds.get _ _
  rw [tended.bounds]

/-- Propagating an atom marks it if the active bounds decide it, and no other atom. -/
theorem tended_propagateAtom (e : Engine) (a : AtomId) :
    Tended e (e.propagateAtom a) ∧ (e.propagateAtom a).view.CompleteAt a := by
  rcases view_propagateAtom e a with ⟨same, complete⟩ | ⟨atom, sign, x, found, unflagged, settles, after⟩
  · rw [same]
    exact ⟨.refl e, complete⟩
  · have after : (e.propagateAtom a).view = e.view.handOut a ⟨.ofSign a sign, x⟩ :=
      congrArg Facade.toView after
    refine ⟨⟨⟨_, after ▸ View.marks_handOut found unflagged settles x⟩, congrArg View.bounds after,
      fun b later found' => ?_⟩, fun later found' _ _ _ => ?_⟩
    · rw [after, View.atoms_handOut] at found'
      split at found'
      · obtain ⟨atom, before, -⟩ := Option.map_eq_some_iff.1 found'
        exact ⟨atom, before⟩
      · exact ⟨later, found'⟩
    · rw [after, View.atoms_handOut, if_pos rfl, found] at found'
      obtain rfl := Option.some.inj found'
      rfl

/-- Propagating atoms one after another makes the marks complete for these, if they were for all others.
-/
theorem tended_foldl (items : List AtomId) (e : Engine)
    (others : ∀ a, a ∉ items → e.view.CompleteAt a) :
    Tended e (items.foldl propagateAtom e) ∧ (items.foldl propagateAtom e).view.Complete := by
  induction items generalizing e with
  | nil => exact ⟨.refl e, fun a => others a List.not_mem_nil⟩
  | cons a rest ih =>
    obtain ⟨first, here⟩ := tended_propagateAtom e a
    obtain ⟨second, complete⟩ := ih (e.propagateAtom a) fun b away => by
      by_cases same : b = a
      · exact same ▸ here
      · exact first.completeAt (others b fun member => by
          rcases List.mem_cons.1 member with is_first | later
          · exact same is_first
          · exact away later)
    exact ⟨first.trans second, complete⟩

theorem mem_atomsOn {registry : AtomRegistry} {v : Var} :
    a ∈ registry.atomsOn v ↔ ∃ atom, registry.get? a = some atom ∧ atom.var = v := by
  rw [AtomRegistry.atomsOn, List.mem_mergeSort, List.mem_filter, List.mem_range]
  constructor
  · rintro ⟨-, any⟩
    cases found : registry.get? a with
    | none => simp [found] at any
    | some atom => exact ⟨atom, rfl, by simpa [found] using any⟩
  · rintro ⟨atom, found, same⟩
    refine ⟨(Array.getElem?_eq_some_iff.1 found).1, ?_⟩
    rw [found]
    simp [same]

/-- All atoms of a variable whose bounds changed are looked after. -/
theorem tended_propagateAtomsOn (e : Engine) (v : Var)
    (others : ∀ (a : AtomId) (atom : Atom), e.view.atoms[a]? = some atom → atom.var ≠ v →
      e.view.CompleteAt a) :
    Tended e (e.propagateAtomsOn v) ∧ (e.propagateAtomsOn v).view.Complete := by
  refine tended_foldl _ _ fun a absent => ?_
  intro atom found
  exact others a atom found (fun same => absent (mem_atomsOn.2 ⟨atom, found, same⟩)) atom found

/-! ## Strides -/

/-- What every stride keeps, and what it does. -/
structure Tending (e next : Engine) : Prop where
  pointed : next.bounds.Pointed
  complete : next.view.Complete
  marks : ∃ new, e.view.Marks next.view new

theorem Tending.of_view (pointed : e.bounds.Pointed) (complete : e.view.Complete)
    (same : next.view = e.view) : Tending e next where
  pointed := by
    rw [show next.bounds = e.bounds from congrArg View.bounds same]
    exact pointed
  complete := same ▸ complete
  marks := ⟨[], same ▸ .refl _⟩

/-- Other bounds, which settle at least as much, mark no atom. -/
theorem View.marks_narrow {f : View} {store : BoundStore} (narrows : f.bounds.Narrows store) :
    f.Marks { f with bounds := store } [] where
  queued := (List.append_nil _).symm
  narrows := narrows
  kept _ atom found := ⟨atom, found, rfl, rfl, rfl, id⟩
  flags _ := (Bool.or_false _).symm
  fresh := nofun
  settled := nofun

theorem Tending.of_bounds {store : BoundStore} (complete : e.view.Complete) (pointed : store.Pointed)
    (get : ∀ v kind, store.get v kind = e.bounds.get v kind)
    (same : next.view = { e.view with bounds := store }) : Tending e next where
  pointed := by
    rw [show next.bounds = store from congrArg View.bounds same]
    exact pointed
  complete := by
    rw [same]
    exact fun a => (View.marks_narrow (BoundStore.narrows_of_get get)).completeAt (complete a)
      (fun atom _ kind => get atom.var kind) fun later found => ⟨later, found⟩
  marks := ⟨[], same ▸ View.marks_narrow (BoundStore.narrows_of_get get)⟩

/-- Installing a bound marks the atoms of the variable that become decided, so the marks stay complete. -/
theorem tending_installBound (pointed : e.bounds.Pointed) (complete : e.view.Complete) (v : Var)
    (kind : BoundKind) (value : InfRat) (reason : Dependency) (origin : BoundOrigin) :
    Tending e (e.installBound v kind value reason origin).1 := by
  rw [installBound]
  simp only
  split
  · rename_i opposite refused
    exact .of_view pointed complete (congrArg Facade.toView (facade_setConflict _ _))
  · rename_i store done
    obtain ⟨rfl, -⟩ := BoundStore.unchanged_spec done
    have noted : (e.bounds.note v kind).Pointed := pointed
    exact .of_bounds complete noted (fun _ _ => rfl) rfl
  · rename_i store done
    obtain ⟨pointed', narrows, away⟩ := BoundStore.narrows_of_tightened pointed done
    obtain ⟨moved, facade_eq, after⟩ := afterTightening_eq { e with bounds := store } v kind
      (e.roundBound v kind value) origin
    have view_eq : moved.view = { e.view with bounds := store } := congrArg Facade.toView facade_eq
    have narrowed := View.marks_narrow (f := e.view) narrows
    -- atoms of other variables were complete before, those of this one are looked after now
    have tended := tended_propagateAtomsOn moved v fun a atom found other => by
      rw [view_eq] at found ⊢
      refine narrowed.completeAt (complete a) (fun atom' found' kind => ?_)
        fun later found => ⟨later, found⟩
      obtain rfl := Option.some.inj (found.symm.trans found')
      exact away atom.var kind other
    obtain ⟨new, marks⟩ := tended.1.marks
    rw [after]
    refine ⟨?_, tended.2, _, narrowed.trans (view_eq ▸ marks)⟩
    rw [tended.1.bounds, show moved.bounds = store from congrArg View.bounds view_eq]
    exact pointed'

/-- A new atom is marked at once if the active bounds decide it, so the marks stay complete. -/
theorem tending_internAtom (pointed : e.bounds.Pointed) (complete : e.view.Complete) (v : Var)
    (kind : BoundKind) (threshold : Rat) : Tending e (e.internAtom v kind threshold).1 := by
  rw [internAtom]
  split
  · exact .of_view pointed complete rfl
  · generalize added_eq : ({ e with atoms := e.atoms.add v kind threshold } : Engine) = added
    have view_eq : added.view =
        { e.view with atoms := e.view.atoms.push ⟨v, kind, threshold, none, false⟩ } :=
      added_eq ▸ rfl
    have get (a : AtomId) : added.view.atoms[a]? =
        if a = e.view.atoms.size then some ⟨v, kind, threshold, none, false⟩
        else e.view.atoms[a]? := by
      rw [view_eq]
      exact Array.getElem?_push
    have before {a : AtomId} {atom : Atom} (found : e.view.atoms[a]? = some atom) :
        a ≠ e.view.atoms.size := Nat.ne_of_lt (Array.getElem?_eq_some_iff.1 found).1
    have marks : e.view.Marks added.view [] :=
      { queued := by rw [view_eq, List.append_nil]
        narrows := by
          rw [view_eq]
          exact fun _ _ _ => id
        kept := fun a atom found =>
          ⟨atom, by rw [get, if_neg (before found)]; exact found, rfl, rfl, rfl, id⟩
        flags := fun a => by
          rw [View.flagged, View.flagged, get]
          split
          · rename_i same
            subst same
            simp
          · simp
        fresh := fun _ member => absurd member List.not_mem_nil
        settled := fun _ member => absurd member List.not_mem_nil }
    obtain ⟨tended, here⟩ := tended_propagateAtom added e.atoms.atoms.size
    obtain ⟨new, marks'⟩ := tended.marks
    refine ⟨?_, fun a => ?_, _, marks.trans marks'⟩
    · rw [tended.bounds, show added.bounds = e.bounds from congrArg View.bounds view_eq]
      exact pointed
    · by_cases same : a = e.atoms.atoms.size
      · exact same ▸ here
      · refine tended.completeAt (marks.completeAt (complete a) (fun atom _ kind => ?_) ?_)
        · rw [view_eq]
        · intro later found
          rw [get, if_neg (show ¬a = e.view.atoms.size from same)] at found
          exact ⟨later, found⟩

/-- An asserted atom needs no flag. -/
theorem tending_assign {atoms : AtomRegistry} (pointed : e.bounds.Pointed)
    (complete : e.view.Complete) (made : e.atoms.assign l = .queued atoms)
    (same : next.view = { e.view with atoms := atoms.atoms }) : Tending e next := by
  have get (a : AtomId) : next.view.atoms[a]? = (e.view.atoms[a]?).map fun atom =>
      if a = l.atom then { atom with assignment := some !l.negative } else atom := by
    rw [same]
    exact State.get?_assign made a
  have flagged (a : AtomId) : next.view.flagged a = e.view.flagged a := by
    rw [View.flagged, View.flagged, get, Option.any_map]
    congr 1
    funext atom
    by_cases here : a = l.atom <;> simp [here]
  have bounds : next.bounds = e.bounds := congrArg View.bounds same
  refine ⟨bounds ▸ pointed, ?_, [], ?_⟩
  · intro a later found free sign settles
    rw [get] at found
    obtain ⟨atom, before, made⟩ := Option.map_eq_some_iff.1 found
    split at made
    · subst made
      cases free
    · subst made
      rw [same] at settles
      exact complete a atom before free sign settles
  · refine
      { queued := by rw [same, List.append_nil]
        narrows := by
          rw [same]
          exact fun _ _ _ => id
        kept := fun a atom found => ?_
        flags := fun a => by rw [flagged]; exact (Bool.or_false _).symm
        fresh := fun _ member => absurd member List.not_mem_nil
        settled := fun _ member => absurd member List.not_mem_nil }
    rw [get, found]
    refine ⟨_, rfl, ?_⟩
    split
    · exact ⟨rfl, rfl, rfl, fun none => by cases none⟩
    · exact ⟨rfl, rfl, rfl, id⟩

theorem view_reportEquality (e : Engine) (v : Var) :
    (e.reportEquality v).bounds = e.bounds ∧ (e.reportEquality v).view = { e.view with
      reported := (e.reportEquality v).reported
      equalities := (e.reportEquality v).equalities } := by
  rw [reportEquality]
  split
  · exact ⟨rfl, rfl⟩
  · simp only
    split <;> exact ⟨rfl, rfl⟩

/-- Every stride keeps atoms complete. -/
theorem Stride.tending (stride : Stride reporting e next) (pointed : e.bounds.Pointed)
    (complete : e.view.Complete) : Tending e next := by
  cases stride with
  | aside same => exact .of_view pointed complete (congrArg Facade.toView same)
  | grow sort term made =>
    subst made
    exact .of_bounds complete pointed.addVar (BoundStore.get_addVar _) rfl
  | install v kind value reason origin made =>
    exact made ▸ tending_installBound pointed complete v kind value reason origin
  | intern v kind threshold made =>
    exact made ▸ tending_internAtom pointed complete v kind threshold
  | assign l atoms known made same =>
    exact tending_assign pointed complete made (congrArg Facade.toView same)
  | report v allowed made =>
    obtain ⟨bounds, view⟩ := view_reportEquality e v
    rw [← made] at bounds view
    refine ⟨bounds ▸ pointed, ?_, [], ?_⟩
    · rw [view]
      exact complete
    · rw [view]
      have same := View.Marks.refl e.view
      exact { same with }

theorem Strides.tending (strides : Strides reporting e next) (pointed : e.bounds.Pointed)
    (complete : e.view.Complete) : Tending e next := by
  induction strides with
  | refl => exact .of_view pointed complete rfl
  | tail _ stride ih =>
    obtain ⟨new, marks⟩ := ih.marks
    have last := stride.tending ih.pointed ih.complete
    obtain ⟨more, marks'⟩ := last.marks
    exact ⟨last.pointed, last.complete, _, marks.trans marks'⟩

end Engine

end ArithDecide
