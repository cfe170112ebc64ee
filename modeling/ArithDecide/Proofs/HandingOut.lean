import Mathlib
import ArithDecide.Proofs.Settling
import ArithDecide.Proofs.Turns

/-!
# Which literals are handed out

Whatever calls were made, an atom without an assigned sign is flagged exactly when the bounds decide
it, and the literal that was queued when it was flagged says how: `Session.atoms_flagged`. Bounds,
signs and flags are taken back when scopes are left, each by its own trail, so the argument goes through
all open scopes at once: `Engine.Chronicled` says that leaving any number of them leads to a state in
which the flags are right, and that an atom which is flagged there is flagged inside. A literal that is
queued inside is therefore never about an atom that was flagged outside.
-/

namespace ArithDecide

/-- The last literal of an atom in a list. -/
def lastAbout (a : AtomId) (log : List Literal) : Option Literal :=
  (log.filter fun l => l.atom == a).getLast?

theorem lastAbout_append_of_absent {a : AtomId} {log new : List Literal}
    (absent : ∀ l ∈ new, l.atom ≠ a) : lastAbout a (log ++ new) = lastAbout a log := by
  have none_left : new.filter (fun l => l.atom == a) = [] :=
    List.filter_eq_nil_iff.2 fun l member => by simpa using absent l member
  rw [lastAbout, List.filter_append, none_left, List.append_nil]
  rfl

theorem lastAbout_append_of_present (log : List Literal) {a : AtomId} {new : List Literal}
    (present : (new.any fun l => l.atom == a) = true) :
    ∃ l ∈ new, l.atom = a ∧ lastAbout a (log ++ new) = some l := by
  have some_left : new.filter (fun l => l.atom == a) ≠ [] := by
    intro none_left
    obtain ⟨l, member, about⟩ := List.any_eq_true.1 present
    exact List.filter_eq_nil_iff.1 none_left l member about
  have last := List.getLast_mem some_left
  obtain ⟨member, about⟩ := List.mem_filter.1 last
  refine ⟨_, member, by simpa using about, ?_⟩
  rw [lastAbout, List.filter_append, List.getLast?_append_of_ne_nil _ some_left]
  exact List.getLast?_eq_some_getLast some_left

namespace Engine

variable {e next : Engine} {log new : List Literal} {s t : State}

/-! ## Chronicles -/

/-- The flags are right: complete, and the last literal that was queued of a flagged atom is settled. -/
structure State.Chronicle (s : State) (log : List Literal) : Prop where
  pointed : s.bounds.Pointed
  complete : s.view.Complete
  recorded : ∀ a, s.view.flagged a = true → ∃ l, lastAbout a log = some l ∧ s.view.Settled l

/-- What a chronicle says is about bounds and atoms only. -/
theorem State.Chronicle.of_same (chronicle : s.Chronicle log) (bounds : t.bounds = s.bounds)
    (atoms : t.atoms = s.atoms) : t.Chronicle log where
  pointed := bounds ▸ chronicle.pointed
  complete a atom found free sign settles := by
    refine chronicle.complete a atom ?_ free sign ?_
    · show s.atoms.atoms[a]? = some atom
      rw [← atoms]
      exact found
    · show s.bounds.Settles atom sign
      rw [← bounds]
      exact settles
  recorded a flagged := by
    have same : t.view.flagged a = s.view.flagged a := by
      show (t.atoms.atoms[a]?).any _ = (s.atoms.atoms[a]?).any _
      rw [atoms]
    obtain ⟨l, last, atom, found, settles⟩ := chronicle.recorded a (same ▸ flagged)
    refine ⟨l, last, atom, ?_, ?_⟩
    · show t.atoms.atoms[l.atom]? = some atom
      rw [atoms]
      exact found
    · show t.bounds.Settles atom _
      rw [bounds]
      exact settles

/-- The last literal that was queued of a flagged atom says how it is settled. -/
theorem State.Chronicle.last (chronicle : s.Chronicle log) {a : AtomId} {atom : Atom}
    (found : s.atoms.get? a = some atom) (flagged : atom.propagated = true) :
    ∃ l, lastAbout a log = some l ∧ l.atom = a ∧ s.bounds.Settles atom (!l.negative) := by
  have is_flagged : s.view.flagged a = true := by
    show (s.atoms.get? a).any _ = true
    rw [found]
    exact flagged
  obtain ⟨l, last, other, found', settles⟩ := chronicle.recorded a is_flagged
  have about : l.atom = a := by
    simpa using (List.mem_filter.1 (List.mem_of_getLast? last)).2
  rw [about] at found'
  obtain rfl := Option.some.inj (found.symm.trans found')
  exact ⟨l, last, about, settles⟩

/-- Literals of other atoms do not matter. -/
theorem State.Chronicle.append (chronicle : s.Chronicle log)
    (apart : ∀ l ∈ new, s.view.flagged l.atom = false) : s.Chronicle (log ++ new) where
  pointed := chronicle.pointed
  complete := chronicle.complete
  recorded a flagged := by
    rw [lastAbout_append_of_absent fun l member about => ?_]
    · exact chronicle.recorded a flagged
    · have unflagged := apart l member
      rw [about, flagged] at unflagged
      cases unflagged

/-- What was marked is recorded with the literals that were queued. -/
theorem View.Marks.chronicle (marks : e.view.Marks next.view new) (pointed : next.bounds.Pointed)
    (complete : next.view.Complete) (before : e.Chronicle log) : next.Chronicle (log ++ new) where
  pointed := pointed
  complete := complete
  recorded a flagged := by
    cases present : new.any fun l => l.atom == a with
    | true =>
      obtain ⟨l, member, -, last⟩ := lastAbout_append_of_present log present
      exact ⟨l, last, marks.settled l member⟩
    | false =>
      rw [marks.flags, present, Bool.or_false] at flagged
      obtain ⟨l, last, settled⟩ := before.recorded a flagged
      rw [lastAbout_append_of_absent]
      · exact ⟨l, last, marks.still settled⟩
      · intro m member about
        simpa [about] using List.any_eq_false.1 present m member

/-- The flags are right here and wherever leaving scopes leads, and what is flagged outside is flagged
inside. -/
structure Chronicled (log : List Literal) (e : Engine) : Prop where
  levels : ∀ n ≤ e.depth, (State.leave^[n] e.toState).Chronicle log
  nested : ∀ n < e.depth, ∀ a, (State.leave^[n + 1] e.toState).view.flagged a = true →
    (State.leave^[n] e.toState).view.flagged a = true

theorem Chronicled.here (chronicled : Chronicled log e) : e.Chronicle log :=
  chronicled.levels 0 (Nat.zero_le _)

/-- Which atoms are flagged does not depend on values. -/
theorem State.Resembles.flagged {s t : State} (resembles : s.Resembles t) (a : AtomId) :
    t.view.flagged a = s.view.flagged a := by
  rw [resembles.same]
  rfl

/-- What is flagged in some scope around is flagged here. -/
theorem Chronicled.flagged (chronicled : Chronicled log e) {n : Nat} (le : n ≤ e.depth) {a : AtomId}
    (flagged : (State.leave^[n] e.toState).view.flagged a = true) : e.view.flagged a = true := by
  induction n with
  | zero => exact flagged
  | succ n ih => exact ih (Nat.le_of_succ_le le) (chronicled.nested n le a flagged)

/-- Inside a scope, those around it stay as they are. -/
theorem Chronicled.inside (chronicled : Chronicled log e) (inside : e.Inside next)
    (here : next.Chronicle (log ++ new))
    (kept : ∀ a, e.view.flagged a = true → next.view.flagged a = true)
    (fresh : ∀ l ∈ new, e.view.flagged l.atom = false) : Chronicled (log ++ new) next := by
  have depth : next.depth = e.depth := congrArg List.length inside.scopes
  refine ⟨fun n le => ?_, fun n lt a flagged => ?_⟩
  · rw [depth] at le
    cases n with
    | zero => exact here
    | succ n =>
      have outer := leave_iterate_of_inside inside le
      refine State.Chronicle.of_same (s := State.leave^[n + 1] e.toState)
        ((chronicled.levels (n + 1) le).append fun l member => Bool.eq_false_iff.2 fun flagged => ?_)
        (by rw [outer.same]) (by rw [outer.same])
      have unflagged := fresh l member
      rw [chronicled.flagged le flagged] at unflagged
      cases unflagged
  · rw [depth] at lt
    rw [(leave_iterate_of_inside inside lt).flagged] at flagged
    cases n with
    | zero => exact kept a (chronicled.nested 0 lt a flagged)
    | succ n =>
      rw [(leave_iterate_of_inside inside (Nat.lt_of_succ_lt lt)).flagged]
      exact chronicled.nested (n + 1) lt a flagged

/-! ## Kinds of calls -/

/-- The literals that were queued on the way from one engine to another. -/
def queuedSince (e next : Engine) : List Literal :=
  (next.propagations.drop e.propagations.length).map Propagation.literal

theorem View.Marks.queuedSince (marks : e.view.Marks next.view new) : e.queuedSince next = new := by
  have queued : next.propagations.map Propagation.literal =
      e.propagations.map Propagation.literal ++ new := marks.queued
  rw [Engine.queuedSince, List.map_drop, queued, List.drop_left' (List.length_map _)]

theorem queuedSince_eq_nil (le : next.propagations.length ≤ e.propagations.length) :
    e.queuedSince next = [] := by
  rw [queuedSince, List.drop_eq_nil_of_le le]
  rfl

theorem length_propagations_leave (s : State) :
    s.leave.propagations.length ≤ s.propagations.length := by
  cases is_open : s.scopes with
  | nil => rw [State.leave, is_open]
  | cons scope outer =>
    rw [State.leave_of_open is_open]
    exact Nat.zero_le _

theorem length_propagations_iterate (n : Nat) (s : State) :
    (State.leave^[n] s).propagations.length ≤ s.propagations.length := by
  induction n with
  | zero => exact Nat.le_refl _
  | succ n ih =>
    rw [Function.iterate_succ_apply']
    exact (length_propagations_leave _).trans ih

theorem Chronicled.strides {reporting : Bool} (chronicled : Chronicled log e)
    (strides : Strides reporting e next) (inside : e.Inside next) :
    Chronicled (log ++ e.queuedSince next) next := by
  have here := chronicled.here
  have tending := strides.tending here.pointed here.complete
  obtain ⟨new, marks⟩ := tending.marks
  rw [marks.queuedSince]
  exact chronicled.inside inside (marks.chronicle tending.pointed tending.complete here)
    (fun a => marks.flagged) marks.fresh

/-- Entering a scope keeps the chronicle: what is flagged outside is what was flagged when the scope was
entered. -/
theorem Chronicled.enter (chronicled : Chronicled log e) (formed : e.Formed) :
    Chronicled log e.push := by
  have same (n : Nat) (le : n ≤ e.depth) :
      (State.leave^[n + 1] e.push.toState).bounds = (State.leave^[n] e.toState).bounds ∧
        (State.leave^[n + 1] e.push.toState).atoms = (State.leave^[n] e.toState).atoms := by
    rw [(leave_iterate_push formed le).same]
    split
    · rename_i first
      subst first
      exact ⟨rfl, rfl⟩
    · exact ⟨rfl, rfl⟩
  have flagged_eq {s t : State} (atoms : t.atoms = s.atoms) (a : AtomId) :
      t.view.flagged a = s.view.flagged a := by
    show (t.atoms.atoms[a]?).any _ = (s.atoms.atoms[a]?).any _
    rw [atoms]
  have depth : e.push.depth = e.depth + 1 := rfl
  refine ⟨fun n le => ?_, fun n lt a flagged => ?_⟩
  · cases n with
    | zero => exact chronicled.here.of_same rfl rfl
    | succ n =>
      have le : n ≤ e.depth := by omega
      exact (chronicled.levels n le).of_same (same n le).1 (same n le).2
  · have le : n ≤ e.depth := by omega
    rw [flagged_eq (same n le).2] at flagged
    cases n with
    | zero => exact flagged
    | succ n =>
      rw [flagged_eq (same n (Nat.le_of_succ_le le)).2]
      exact chronicled.nested n le a flagged

theorem Chronicled.leave (chronicled : Chronicled log e) {count : Nat} (le : count ≤ e.depth) :
    Chronicled (log ++ e.queuedSince (popScopes count e)) (popScopes count e) := by
  have toState := toState_popScopes count e
  have shorter : (popScopes count e).propagations.length ≤ e.propagations.length := by
    rw [toState]
    exact length_propagations_iterate count e.toState
  have depth := depth_popScopes count e
  rw [queuedSince_eq_nil shorter, List.append_nil]
  refine ⟨fun n inside => ?_, fun n inside a => ?_⟩
  · rw [toState, ← Function.iterate_add_apply]
    exact chronicled.levels (n + count) (by omega)
  · rw [toState, ← Function.iterate_add_apply, ← Function.iterate_add_apply, Nat.add_right_comm]
    exact chronicled.nested (n + count) (by omega) a

/-- Every call that is not a search keeps the flags right. -/
theorem Turn.chronicled {leaving : Bool} (turn : Turn leaving e next) (formed : e.Formed)
    (chronicled : Chronicled log e) : Chronicled (log ++ e.queuedSince next) next := by
  cases turn with
  | pose strides k evolves => exact chronicled.strides strides evolves.inside
  | reason made k evolves =>
    exact chronicled.strides (strides_of_reason made) evolves.inside
  | serve propagations equalities literals_left equalities_left becomes =>
    have inside : e.Inside next := becomes.inside rfl rfl rfl rfl rfl rfl fun scope _ _ =>
      { State.Rewinds.refl e.toState scope with }
    have shorter : next.propagations.length ≤ e.propagations.length := by
      rw [becomes.toState]
      exact literals_left.length_le
    rw [queuedSince_eq_nil shorter]
    refine chronicled.inside inside ?_ (fun a flagged => ?_) nofun
    · rw [List.append_nil]
      exact chronicled.here.of_same (by rw [becomes.toState]) (by rw [becomes.toState])
    · rw [becomes.toState]
      exact flagged
  | enter made =>
    subst made
    have same : e.push.propagations.length ≤ e.propagations.length := Nat.le_refl _
    rw [queuedSince_eq_nil same, List.append_nil]
    exact chronicled.enter formed
  | leave count le made => exact made ▸ chronicled.leave le

/-- A call that is not a search queues literals of exactly those atoms that it flags. -/
theorem Turn.queues {leaving : Bool} (turn : Turn leaving e next) (chronicled : Chronicled log e)
    (a : AtomId) :
    (∃ l ∈ e.queuedSince next, l.atom = a) ↔
      e.view.flagged a = false ∧ next.view.flagged a = true := by
  have idle (shorter : next.propagations.length ≤ e.propagations.length)
      (kept : next.view.flagged a = true → e.view.flagged a = true) :
      (∃ l ∈ e.queuedSince next, l.atom = a) ↔
        e.view.flagged a = false ∧ next.view.flagged a = true := by
    rw [queuedSince_eq_nil shorter]
    refine iff_of_false nofun fun ⟨unflagged, flagged⟩ => ?_
    rw [kept flagged] at unflagged
    cases unflagged
  have busy {reporting : Bool} (strides : Strides reporting e next) :
      (∃ l ∈ e.queuedSince next, l.atom = a) ↔
        e.view.flagged a = false ∧ next.view.flagged a = true := by
    obtain ⟨new, marks⟩ := (strides.tending chronicled.here.pointed chronicled.here.complete).marks
    rw [marks.queuedSince, marks.flags]
    constructor
    · rintro ⟨l, member, rfl⟩
      rw [marks.fresh l member, Bool.false_or, List.any_eq_true]
      exact ⟨rfl, l, member, beq_self_eq_true _⟩
    · rintro ⟨unflagged, flagged⟩
      rw [unflagged, Bool.false_or, List.any_eq_true] at flagged
      obtain ⟨l, member, about⟩ := flagged
      exact ⟨l, member, by simpa using about⟩
  cases turn with
  | pose strides k evolves => exact busy strides
  | reason made k evolves => exact busy (strides_of_reason made)
  | serve propagations equalities literals_left equalities_left becomes =>
    refine idle ?_ ?_
    · rw [becomes.toState]
      exact literals_left.length_le
    · rw [becomes.toState]
      exact id
  | enter made => exact idle (made ▸ Nat.le_refl _) (made ▸ id)
  | leave count le made =>
    subst made
    refine idle ?_ ?_
    · rw [toState_popScopes]
      exact length_propagations_iterate count e.toState
    · rw [toState_popScopes]
      exact chronicled.flagged le

end Engine

namespace Session

open Engine State

/-! ## Runs -/

/-- The literals that some calls queue for being handed out, in the order in which they do. -/
def handedOut (s : Session) : List Call → List Literal
  | [] => []
  | call :: rest => s.engine.queuedSince (s.perform call).engine ++ (s.perform call).handedOut rest

theorem handedOut_append (s : Session) (before after : List Call) :
    s.handedOut (before ++ after) = s.handedOut before ++ (s.run before).handedOut after := by
  induction before generalizing s with
  | nil => rfl
  | cons call rest ih =>
    rw [List.cons_append, handedOut, handedOut, ih, List.append_assoc]
    rfl

theorem chronicled_start (options : Options) : Chronicled [] (start options).engine where
  levels n le := by
    obtain rfl : n = 0 := Nat.le_zero.1 le
    refine ⟨fun v kind id slot => ?_, fun a atom found => ?_, fun a flagged => ?_⟩
    · cases kind <;> cases slot
    · cases found
    · cases flagged
  nested n lt := absurd lt (Nat.not_lt_zero n)

/-- Whatever calls were made, none of them a search, the flags are right in all open scopes. -/
theorem chronicled_run (options : Options) (calls : List Call)
    (plain : ∀ call ∈ calls, call.isSearch = false) :
    Chronicled ((start options).handedOut calls) ((start options).run calls).engine := by
  induction calls using List.reverseRecOn with
  | nil => exact chronicled_start options
  | append_singleton calls call ih =>
    have ready := ready_run options calls
    have turn := turn_perform ready (plain call (List.mem_append_right _ (List.mem_singleton.2 rfl)))
    have before := ih fun earlier member => plain earlier (List.mem_append_left _ member)
    have after := turn.chronicled ready.invariant.founded.formed before
    rw [handedOut_append, run_append]
    rw [← List.append_nil (queuedSince _ _)] at after
    exact after

/-! ## The flags of a session -/

/-- Whatever calls were made, with every search taken for the calls that it makes: a call queues literals
of exactly those atoms that it flags. An atom without an assigned sign is flagged exactly when all values
that the bounds allow its variable decide it, and then the last literal of it that was queued has the
decided sign. For an integer variable, and when the active bounds of the variable point the right way, it
is enough to look at rational values. -/
theorem atoms_flagged (options : Options) (calls : List Call) (a : AtomId) (atom : Atom) :
    let s := (start options).run calls
    let made := (start options).unfold calls
    (∀ done call rest, made = done ++ call :: rest →
      let before := ((start options).run done).engine
      let after := (((start options).run done).perform call).engine
      (∃ l ∈ before.queuedSince after, l.atom = a) ↔
        before.view.flagged a = false ∧ after.view.flagged a = true) ∧
    (s.engine.atoms.get? a = some atom → atom.assignment = none →
      (atom.propagated = true ↔ ∃ sign, s.engine.DecidesAtom atom sign) ∧
      (atom.propagated = true → ∀ sign, s.engine.DecidesAtom atom sign ↔
        lastAbout a ((start options).handedOut made) = some (.ofSign a sign)) ∧
      ((s.engine.isInt atom.var = true ∨ ∀ side b, s.engine.bounds.get atom.var side = some b →
          side.Coherent b.value) →
        ∀ sign, s.engine.DecidesAtom atom sign ↔ s.engine.DecidesAtomRationally atom sign)) := by
  intro s made
  have plain : ∀ call ∈ made, call.isSearch = false := fun call => not_isSearch_of_mem_unfold
  refine ⟨fun done call rest same => ?_, ?_⟩
  · have earlier (c : Call) (member : c ∈ done) : c ∈ made :=
      same ▸ List.mem_append_left _ member
    have here : call ∈ made := same ▸ List.mem_append_right _ List.mem_cons_self
    exact (turn_perform (ready_run options done) (plain call here)).queues
      (chronicled_run options done fun c member => plain c (earlier c member)) a
  intro found free
  let log := (start options).handedOut made
  have ready := ready_run options calls
  have formed := ready.invariant.founded.formed
  have rounded := ready.invariant.founded.rounded
  have decides (sign : Bool) : s.engine.DecidesAtom atom sign ↔ s.engine.bounds.Settles atom sign :=
    (settles_iff formed.bounds rounded).symm
  have chronicle : s.engine.Chronicle log := by
    have unfolded := (chronicled_run options made plain).here
    rwa [run_unfold] at unfolded
  refine ⟨⟨fun flagged => ?_, fun ⟨sign, decided⟩ => ?_⟩, fun flagged sign => ?_, fun points sign => ?_⟩
  · obtain ⟨l, -, -, settles⟩ := chronicle.last found flagged
    exact ⟨_, (decides _).2 settles⟩
  · exact chronicle.complete a atom found free sign ((decides sign).1 decided)
  · obtain ⟨l, last, about, settles⟩ := chronicle.last found flagged
    rw [last, decides, Option.some.injEq]
    constructor
    · intro settles'
      rw [← settles.unique formed.bounds settles', ← about, Literal.ofSign, Bool.not_not]
    · rintro rfl
      rwa [Literal.ofSign, Bool.not_not] at settles
  · rw [decides]
    exact settles_iff_rational formed.bounds rounded points

/-- An integer variable that is asserted to be at least five halves, which makes it at least two. -/
def lifting : List Call :=
  [.mkVar .int .internal, .mkAtom 0 .lower (5 / 2), .mkAtom 0 .lower 2, .assertLiteral ⟨0, false⟩,
    .propagate]

theorem run_lifting :
    ((start {}).run lifting).engine.atoms.get? 1 = some ⟨0, .lower, 2, none, true⟩ ∧
      ((start {}).run lifting).engine.isInt 0 = true ∧
      lastAbout 1 ((start {}).handedOut ((start {}).unfold lifting)) = some (.ofSign 1 true) := by
  refine ⟨by cbv, by cbv, by cbv⟩

theorem atoms_flagged_lifting :
    (∃ sign, ((start {}).run lifting).engine.DecidesAtom ⟨0, .lower, 2, none, true⟩ sign) ∧
      ((start {}).run lifting).engine.DecidesAtomRationally ⟨0, .lower, 2, none, true⟩ true := by
  obtain ⟨found, integer, last⟩ := run_lifting
  obtain ⟨flagged, queued, rational⟩ := (atoms_flagged {} lifting 1 _).2 found rfl
  exact ⟨flagged.1 rfl, (rational (.inl integer) true).1 ((queued rfl true).2 last)⟩

/-- A variable above zero and at most one, and another one that equals it and is at least zero. -/
def drifting : List Call :=
  [.mkVar .real .internal, .mkLinear .real .internal [(0, 1)], .mkAtom 1 .upper 1,
    .assertGiven 0 .lower ⟨0, 1⟩, .assertGiven 0 .upper (.ofRat 1), .assertGiven 1 .lower 0, .propagate]

theorem run_drifting :
    ((start {}).run drifting).engine.given = [⟨0, .lower, ⟨0, 1⟩⟩, ⟨0, .upper, .ofRat 1⟩, ⟨1, .lower, 0⟩] ∧
      ((start {}).run drifting).engine.atoms.get? 0 = some ⟨1, .upper, 1, none, false⟩ ∧
      ((start {}).run drifting).engine.bounds.value 1 .upper = some ⟨1, 1⟩ := by
  refine ⟨by cbv, by cbv, by cbv⟩

/-- An atom need not be flagged although every rational value that the bounds allow makes it true and all
unconditional bounds point the right way: the upper bound that the row implies for the second variable is
`1 + ε`, because the sum of the row was taken before the lower bound of that variable was tightened. -/
theorem atoms_flagged_drifting :
    (∀ g ∈ ((start {}).run drifting).engine.given, g.Coherent) ∧
      ((start {}).run drifting).engine.atoms.get? 0 = some ⟨1, .upper, 1, none, false⟩ ∧
      ((start {}).run drifting).engine.DecidesAtomRationally ⟨1, .upper, 1, none, false⟩ true := by
  obtain ⟨given, found, upper⟩ := run_drifting
  refine ⟨fun g member => ?_, found, fun q ⟨within, _⟩ => ?_⟩
  · rw [given] at member
    simp only [List.mem_cons, List.not_mem_nil, or_false] at member
    rcases member with rfl | rfl | rfl
    · exact zero_le_one
    · exact le_refl (0 : Rat)
    · exact le_refl (0 : Rat)
  · obtain ⟨b, active, value_eq⟩ := Option.map_eq_some_iff.1 upper
    have below := BoundKind.admits_upper.1 (BoundStore.admits_iff.1 within .upper b active)
    rw [value_eq, InfRat.ofRat_le_iff, if_neg (by norm_num)] at below
    exact BoundKind.admits_upper.2 (InfRat.ofRat_le.2 below)

end Session

end ArithDecide
