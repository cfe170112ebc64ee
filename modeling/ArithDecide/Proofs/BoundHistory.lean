import Mathlib.Logic.Function.Iterate
import ArithDecide.Proofs.BoundStore
import ArithDecide.Storage.Calls

/-!
# The active bounds and what was asserted

A session of the bound store asserts bounds, sets marks and retracts to them in the order of a stack. It
keeps, beside the store, the bounds that were accepted and not taken back since, and for every mark on
the stack the store of that moment. The main statement is `BoundSession.run_follows`: the active bound of
a variable on either side is the first one among the tightest of those that were accepted, active bounds
do not cross, a bound is refused exactly if it would cross, and retracting leads back to the active bounds
of the mark.
-/

namespace ArithDecide

/-! ## The first of the tightest bounds -/

namespace BoundKind

variable {kind : BoundKind} {active : Option Bound} {b c : Bound} {x y z : InfRat}
  {offered : List Bound}

/-- The active bound is the first one among the tightest of those that were offered: it is strictly
tighter than all before it and at least as tight as all after it. There is none if none was offered. -/
def FirstTightest (kind : BoundKind) (active : Option Bound) (offered : List Bound) : Prop :=
  match active with
  | none => offered = []
  | some b => ∃ before after, offered = before ++ b :: after ∧
      (∀ c ∈ before, kind.tighter b.value c.value = true) ∧
      ∀ c ∈ after, kind.admits c.value b.value = true

/-- What is tighter than a bound is tighter than all that this one covers. -/
theorem tighter_of_admits (tighter : kind.tighter x y = true) (admits : kind.admits z y = true) :
    kind.tighter x z = true :=
  tighter_iff.2 fun covers => tighter_iff.1 tighter (admits_trans covers admits)

/-- A bound that is covered does not take the place of the active one. -/
theorem FirstTightest.keep (first : kind.FirstTightest (some b) offered)
    (covered : kind.admits c.value b.value = true) : kind.FirstTightest (some b) (offered ++ [c]) := by
  obtain ⟨before, after, rfl, strict, weak⟩ := first
  refine ⟨before, after ++ [c], by simp, strict, fun d member => ?_⟩
  rcases List.mem_append.1 member with old | new
  · exact weak d old
  · rw [List.mem_singleton.1 new]
    exact covered

/-- A bound that is tighter than the active one takes its place. -/
theorem FirstTightest.replace (first : kind.FirstTightest active offered)
    (tighter : ∀ b, active = some b → kind.tighter c.value b.value = true) :
    kind.FirstTightest (some c) (offered ++ [c]) := by
  refine ⟨offered, [], rfl, fun d member => ?_, fun d member => by cases member⟩
  cases active with
  | none =>
    have none_offered : offered = [] := first
    rw [none_offered] at member
    cases member
  | some b =>
    obtain ⟨before, after, rfl, strict, weak⟩ := first
    have above := tighter b rfl
    rcases List.mem_append.1 member with earlier | later
    · exact tighter_of_admits above (admits_of_tighter (strict d earlier))
    · rcases List.mem_cons.1 later with rfl | later
      · exact above
      · exact tighter_of_admits above (weak d later)

end BoundKind

/-! ## Going back and adding variables -/

namespace BoundSlots

variable {slots : BoundSlots} {changes : List BoundChange}

theorem sizes_foldl_undo (changes : List BoundChange) (slots : BoundSlots) :
    (changes.foldl undo slots).lower.size = slots.lower.size ∧
      (changes.foldl undo slots).upper.size = slots.upper.size := by
  induction changes generalizing slots with
  | nil => exact ⟨rfl, rfl⟩
  | cons change rest ih =>
    obtain ⟨lower, upper⟩ := ih (slots.undo change)
    rw [List.foldl_cons, lower, upper, undo]
    cases change.kind <;> simp [set]

theorem grow_undo {change : BoundChange} (lower : change.var < slots.lower.size)
    (upper : change.var < slots.upper.size) : slots.grow.undo change = (slots.undo change).grow := by
  have push {a : Array (Option BoundId)} (lt : change.var < a.size) :
      (a.push none).setIfInBounds change.var change.previous =
        (a.setIfInBounds change.var change.previous).push none := by
    refine Array.ext_getElem? fun i => ?_
    simp only [Array.getElem?_setIfInBounds, Array.getElem?_push, Array.size_push,
      Array.size_setIfInBounds]
    grind
  unfold undo
  cases change.kind with
  | lower => simp only [set, grow, push lower]
  | upper => simp only [set, grow, push upper]

/-- A variable that was added is not seen by changes of older ones. -/
theorem foldl_undo_grow (lower : ∀ change ∈ changes, change.var < slots.lower.size)
    (upper : ∀ change ∈ changes, change.var < slots.upper.size) :
    changes.foldl undo slots.grow = (changes.foldl undo slots).grow := by
  induction changes generalizing slots with
  | nil => rfl
  | cons change rest ih =>
    obtain ⟨lower_first, lower_rest⟩ := List.forall_mem_cons.1 lower
    obtain ⟨upper_first, upper_rest⟩ := List.forall_mem_cons.1 upper
    obtain ⟨same_lower, same_upper⟩ := sizes_foldl_undo [change] slots
    rw [List.foldl_cons, List.foldl_cons, grow_undo lower_first upper_first]
    exact ih (fun c member => same_lower ▸ lower_rest c member)
      fun c member => same_upper ▸ upper_rest c member

end BoundSlots

namespace BoundStore

variable {store : BoundStore} {bound : Bound} {m : Mark} {n : Nat} {v : Var} {kind : BoundKind}

theorem retractTo_addVar (lower : ∀ change ∈ store.trail, change.var < store.slots.lower.size)
    (upper : ∀ change ∈ store.trail, change.var < store.slots.upper.size) :
    store.addVar.retractTo m = (store.retractTo m).addVar := by
  have undone (count : Nat) : (store.trail.take count).foldl BoundSlots.undo store.slots.grow =
      ((store.trail.take count).foldl BoundSlots.undo store.slots).grow :=
    BoundSlots.foldl_undo_grow (fun change member => lower change (List.mem_of_mem_take member))
      fun change member => upper change (List.mem_of_mem_take member)
  simp only [retractTo, addVar, undone]

theorem get_iterate_addVar (store : BoundStore) (count : Nat) (v : Var) (kind : BoundKind) :
    (addVar^[count] store).get v kind = store.get v kind := by
  induction count with
  | zero => rfl
  | succ count ih => rw [Function.iterate_succ_apply', get_addVar, ih]

theorem WellFormed.iterate_addVar (well : store.WellFormed n) (count : Nat) :
    (BoundStore.addVar^[count] store).WellFormed (n + count) := by
  induction count with
  | zero => exact well
  | succ count ih =>
    rw [Function.iterate_succ_apply']
    exact ih.addVar

/-- A bound is refused exactly if it crosses the active bound on the other side. -/
theorem assert_eq_conflict_iff {reason : Dependency} :
    store.assert bound = .conflict reason ↔
      ∃ opposite, store.get bound.var bound.kind.opposite = some opposite ∧
        opposite.reason = reason ∧ bound.kind.tighter bound.value opposite.value = true := by
  constructor
  · exact crossing_of_conflict
  · rintro ⟨opposite, active, rfl, crossing⟩
    rw [assert, active, Option.filter_some, if_pos crossing]

end BoundStore

/-! ## Sessions -/

/-- What is asked of a bound store. -/
inductive BoundCall where
  | addVar
  | assert (bound : Bound)
  /-- Sets a mark, which is the latest one from now on. -/
  | mark
  /-- Retracts to a mark, which stays; the `index` marks that were set after it are forgotten. -/
  | retract (index : Nat)
  deriving DecidableEq

/-- A mark and the moment at which it was set. -/
structure BoundMoment where
  mark : BoundStore.Mark
  store : BoundStore
  /-- How many bounds were accepted before. -/
  accepted : Nat

/-- The first mark was set no later than the second one. -/
structure BoundMoment.Older (earlier later : BoundMoment) : Prop where
  trail : earlier.mark.trail ≤ later.mark.trail
  records : earlier.mark.records ≤ later.mark.records
  accepted : earlier.accepted ≤ later.accepted

theorem BoundMoment.Older.refl (moment : BoundMoment) : moment.Older moment :=
  ⟨Nat.le_refl _, Nat.le_refl _, Nat.le_refl _⟩

/-- A bound store with the marks that can be retracted to. -/
structure BoundSession where
  store : BoundStore
  /-- The bounds that were asserted without a conflict and not taken back since, in order. -/
  accepted : List Bound
  /-- The marks, latest first. -/
  moments : List BoundMoment

namespace BoundSession

def start : BoundSession := ⟨.empty, [], []⟩

def numVars (s : BoundSession) : Nat := s.store.slots.lower.size

/-- Bounds are asserted about variables that exist, and marks are retracted to while they are known. -/
def allows (s : BoundSession) : BoundCall → Bool
  | .addVar | .mark => true
  | .assert bound => decide (bound.var < s.numVars)
  | .retract index => decide (index < s.moments.length)

def step (s : BoundSession) : BoundCall → BoundSession
  | .addVar => { s with store := s.store.addVar }
  | .assert bound =>
    match s.store.assert bound with
    | .conflict _ => s
    | .tightened store | .unchanged store =>
      { s with store := store, accepted := s.accepted ++ [bound] }
  | .mark => { s with moments := ⟨s.store.mark, s.store, s.accepted.length⟩ :: s.moments }
  | .retract index =>
    match s.moments.drop index with
    | [] => s
    | moment :: outer =>
      { store := s.store.retractTo moment.mark
        accepted := s.accepted.take moment.accepted
        moments := moment :: outer }

def run (s : BoundSession) (calls : List BoundCall) : BoundSession := calls.foldl step s

/-- Every call is made when it is allowed. -/
def allowsAll (s : BoundSession) (calls : List BoundCall) : Bool := allowsEach allows step s calls

/-- The bounds of a list that are about one side of a variable. -/
def about (v : Var) (kind : BoundKind) (bounds : List Bound) : List Bound :=
  bounds.filter fun b => b.var == v && b.kind == kind

variable {s : BoundSession} {store next : BoundStore} {accepted : List Bound} {bound : Bound}
  {moment later : BoundMoment} {v : Var} {kind : BoundKind}

theorem about_append (bounds : List Bound) (bound : Bound) (v : Var) (kind : BoundKind) :
    about v kind (bounds ++ [bound]) =
      about v kind bounds ++ if v = bound.var ∧ kind = bound.kind then [bound] else [] := by
  unfold about
  rw [List.filter_append]
  by_cases here : v = bound.var ∧ kind = bound.kind
  · simp [here]
  · have away : (bound.var == v && bound.kind == kind) = false := by
      rw [Bool.and_eq_false_iff, beq_eq_false_iff_ne, beq_eq_false_iff_ne]
      grind
    simp [here, away]

/-- The active bounds are the first of the tightest ones among those that were accepted. -/
def Follows (store : BoundStore) (accepted : List Bound) : Prop :=
  ∀ (v : Var) (kind : BoundKind), kind.FirstTightest (store.get v kind) (about v kind accepted)

theorem Follows.unchanged (follows : Follows store accepted)
    (done : store.assert bound = .unchanged next) : Follows next (accepted ++ [bound]) := by
  obtain ⟨rfl, active, found, covers⟩ := BoundStore.unchanged_spec done
  intro v kind
  have same : (store.note bound.var bound.kind).get v kind = store.get v kind := rfl
  rw [same, about_append]
  split
  · rename_i here
    obtain ⟨rfl, rfl⟩ := here
    have before := follows bound.var bound.kind
    rw [found] at before ⊢
    exact before.keep covers
  · rw [List.append_nil]
    exact follows v kind

theorem Follows.tightened {n : Nat} (follows : Follows store accepted) (well : store.WellFormed n)
    (lt : bound.var < n) (done : store.assert bound = .tightened next) :
    Follows next (accepted ++ [bound]) := by
  have installed := BoundStore.installed_of_tightened well lt done
  intro v kind
  rw [installed.get, about_append]
  split
  · rename_i here
    obtain ⟨rfl, rfl⟩ := here
    refine (follows bound.var bound.kind).replace fun active found => ?_
    rw [BoundKind.tighter_iff]
    exact fun covers => installed.uncovered ⟨active, found, covers⟩
  · rw [List.append_nil]
    exact follows v kind

/-! ## What sessions keep -/

/-- Retracting to the mark leads to the store of that moment, with the variables that were added since, and
the bounds that were accepted first are those that were accepted by then. -/
structure Restores (store : BoundStore) (accepted : List Bound) (moment : BoundMoment) : Prop where
  passed : store.Passed moment.mark
  count : moment.accepted ≤ accepted.length
  well : ∃ n, moment.store.WellFormed n
  follows : Follows moment.store (accepted.take moment.accepted)
  back : ∃ count, store.retractTo moment.mark = BoundStore.addVar^[count] moment.store

/-- A step that retracting takes back, and that accepts no bound or one more. -/
theorem Restores.after (restores : Restores store accepted moment) (more : List Bound)
    (passed : next.Passed moment.mark) (same : next.retractTo moment.mark = store.retractTo moment.mark) :
    Restores next (accepted ++ more) moment where
  passed := passed
  count := restores.count.trans (by simp)
  well := restores.well
  follows := by
    rw [List.take_append_of_le_length restores.count]
    exact restores.follows
  back := same ▸ restores.back

/-- Retracting to a later mark first makes no difference. -/
theorem Restores.older (restores : Restores store accepted moment)
    (near : Restores store accepted later) (older : moment.Older later) :
    Restores (store.retractTo later.mark) (accepted.take later.accepted) moment where
  passed := by
    obtain ⟨trail, records⟩ := near.passed
    obtain ⟨older_trail, older_records, -⟩ := older
    constructor
    · rw [BoundStore.retractTo, List.length_drop]
      omega
    · simp only [BoundStore.retractTo, Array.take_eq_extract, Array.size_extract]
      omega
  count := by
    have := near.count
    have := older.accepted
    rw [List.length_take]
    omega
  well := restores.well
  follows := by
    rw [List.take_take, Nat.min_eq_left older.accepted]
    exact restores.follows
  back := by
    rw [BoundStore.retractTo_retractTo near.passed older.trail older.records]
    exact restores.back

/-- What every session keeps. -/
structure Kept (s : BoundSession) : Prop where
  well : s.store.WellFormed s.numVars
  changed : ∀ change ∈ s.store.trail, change.var < s.numVars
  follows : Follows s.store s.accepted
  restores : ∀ moment ∈ s.moments, Restores s.store s.accepted moment
  nested : s.moments.Pairwise fun later earlier => earlier.Older later

theorem kept_start : Kept start where
  well := BoundStore.wellFormed_empty
  changed _ member := by cases member
  follows v kind := by
    have none_active : start.store.get v kind = none := by
      cases kind <;> simp [start, BoundStore.empty, BoundStore.get, BoundSlots.get]
    rw [none_active]
    exact rfl
  restores _ member := by cases member
  nested := .nil

/-- A new variable has no bound on either side, so what is kept for the others is kept. -/
theorem Kept.addVar (kept : s.Kept) : (s.step .addVar).Kept where
  well := by
    have grown : (s.step .addVar).numVars = s.numVars + 1 := Array.size_push _
    rw [grown]
    exact kept.well.addVar
  changed change member := by
    have grown : (s.step .addVar).numVars = s.numVars + 1 := Array.size_push _
    rw [grown]
    exact Nat.lt_succ_of_lt (kept.changed change member)
  follows v kind := by
    rw [show (s.step .addVar).store = s.store.addVar from rfl, BoundStore.get_addVar]
    exact kept.follows v kind
  restores moment member := by
    have restores := kept.restores moment member
    obtain ⟨count, back⟩ := restores.back
    refine ⟨restores.passed, restores.count, restores.well, restores.follows, count + 1, ?_⟩
    have upper : ∀ change ∈ s.store.trail, change.var < s.store.slots.upper.size := by
      rw [kept.well.upper_size]
      exact kept.changed
    rw [Function.iterate_succ_apply', ← back]
    exact BoundStore.retractTo_addVar kept.changed upper
  nested := kept.nested

/-- Noting an offer of a bound lengthens the trail by a change of its variable. -/
theorem changed_note {n : Nat} (changed : ∀ change ∈ store.trail, change.var < n)
    (lt : bound.var < n) : ∀ change ∈ (store.note bound.var bound.kind).trail, change.var < n := by
  intro change member
  rcases List.mem_cons.1 member with rfl | old
  · exact lt
  · exact changed change old

/-- Asserting a bound keeps what is kept, whether it crosses the opposite one, is covered or tightens.
-/
theorem Kept.assert (kept : s.Kept) (lt : bound.var < s.numVars) : (s.step (.assert bound)).Kept := by
  unfold step
  cases done : s.store.assert bound with
  | conflict reason =>
    simp only [done]
    exact kept
  | unchanged next =>
    simp only [done]
    have follows := kept.follows.unchanged done
    obtain ⟨rfl, -⟩ := BoundStore.unchanged_spec done
    refine ⟨kept.well.note _ _, changed_note kept.changed lt, follows, ?_, kept.nested⟩
    intro moment member
    have restores := kept.restores moment member
    refine restores.after [bound] ⟨restores.passed.1.trans ?_, restores.passed.2⟩ ?_
    · exact Nat.le_succ _
    · exact BoundStore.retractTo_note restores.passed _ _
  | tightened next =>
    simp only [done]
    have follows := kept.follows.tightened kept.well lt done
    have installed := BoundStore.installed_of_tightened kept.well lt done
    have same : next.slots.lower.size = s.numVars := installed.sizes.1
    have well : next.WellFormed next.slots.lower.size := same ▸ installed.wellFormed kept.well
    obtain rfl := BoundStore.tightened_eq done
    refine ⟨well, ?_, follows, ?_, kept.nested⟩
    · intro change member
      refine lt_of_lt_of_eq ?_ same.symm
      exact changed_note kept.changed lt change member
    · intro moment member
      have restores := kept.restores moment member
      refine restores.after [bound] ⟨restores.passed.1.trans ?_, restores.passed.2.trans ?_⟩ ?_
      · exact Nat.le_succ _
      · rw [installed.records, Array.size_push]
        exact Nat.le_succ _
      · exact BoundStore.retractTo_install restores.passed bound

/-- A new mark is no older than the others, and retracting to it changes nothing yet. -/
theorem Kept.mark (kept : s.Kept) : (s.step .mark).Kept where
  well := kept.well
  changed := kept.changed
  follows := kept.follows
  restores moment member := by
    rcases List.mem_cons.1 member with rfl | old
    · refine ⟨⟨Nat.le_refl _, Nat.le_refl _⟩, Nat.le_refl _, ⟨_, kept.well⟩, ?_, 0, ?_⟩
      · show Follows s.store (s.accepted.take s.accepted.length)
        rw [List.take_length]
        exact kept.follows
      · exact BoundStore.retractTo_mark s.store
    · exact kept.restores moment old
  nested := by
    refine List.pairwise_cons.2 ⟨fun moment member => ?_, kept.nested⟩
    have restores := kept.restores moment member
    exact ⟨restores.passed.1, restores.passed.2, restores.count⟩

/-- Retracting keeps what is kept: the marks that stay were set no later, so they can still be retracted
to. -/
theorem Kept.retract (kept : s.Kept) (index : Nat) : (s.step (.retract index)).Kept := by
  unfold step
  cases left : s.moments.drop index with
  | nil =>
    simp only [left]
    exact kept
  | cons later outer =>
    simp only [left]
    obtain ⟨known, nested⟩ := left_of_drop BoundMoment.Older.refl kept.nested left
    have near := kept.restores later (known later List.mem_cons_self).1
    obtain ⟨n, well⟩ := near.well
    obtain ⟨count, back⟩ := near.back
    have rewound := well.iterate_addVar count
    rw [← back] at rewound
    have numVars : (s.store.retractTo later.mark).slots.lower.size = s.numVars :=
      (BoundSlots.sizes_foldl_undo _ _).1
    refine ⟨?_, ?_, ?_, ?_, nested⟩
    · show (s.store.retractTo later.mark).WellFormed (s.store.retractTo later.mark).slots.lower.size
      rw [rewound.lower_size]
      exact rewound
    · intro change member
      refine lt_of_lt_of_eq ?_ numVars.symm
      exact kept.changed change (List.mem_of_mem_drop member)
    · intro v kind
      show kind.FirstTightest ((s.store.retractTo later.mark).get v kind) _
      rw [back, BoundStore.get_iterate_addVar]
      exact near.follows v kind
    · intro moment member
      obtain ⟨member, older⟩ := known moment member
      exact (kept.restores moment member).older near older

/-- Every allowed call keeps what is kept. -/
theorem Kept.step (kept : s.Kept) {call : BoundCall} (allowed : s.allows call = true) :
    (s.step call).Kept := by
  cases call with
  | addVar => exact kept.addVar
  | assert bound => exact kept.assert (of_decide_eq_true allowed)
  | mark => exact kept.mark
  | retract index => exact kept.retract index

theorem Kept.run (kept : s.Kept) {calls : List BoundCall} (allowed : s.allowsAll calls = true) :
    (s.run calls).Kept :=
  foldl_of_allowsEach (fun kept allowed => kept.step allowed) kept allowed

/-- In every session the active bound of a variable on either side is the first one among the tightest of
those that were accepted and not taken back; the active bounds do not cross, and are records of the store;
a bound is refused exactly if it crosses the active opposite one, with the reason of that one, and then
nothing changes; and retracting to a mark leads to the active bounds of the moment at which it was set. -/
theorem run_follows {calls : List BoundCall} (allowed : start.allowsAll calls = true) :
    (∀ (v : Var) (kind : BoundKind), kind.FirstTightest ((start.run calls).store.get v kind)
        (about v kind (start.run calls).accepted)) ∧
      (∀ v lower upper, (start.run calls).store.get v .lower = some lower →
        (start.run calls).store.get v .upper = some upper → lower.value ≤ upper.value) ∧
      (∀ v kind id, (start.run calls).store.slots.get v kind = some id →
        id < (start.run calls).store.records.size) ∧
      (∀ bound reason, (start.run calls).store.assert bound = .conflict reason ↔
        ∃ opposite, (start.run calls).store.get bound.var bound.kind.opposite = some opposite ∧
          opposite.reason = reason ∧ bound.kind.tighter bound.value opposite.value = true) ∧
      (∀ bound reason, (start.run calls).store.assert bound = .conflict reason →
        (start.run calls).step (.assert bound) = start.run calls) ∧
      ∀ index moment, (start.run calls).moments[index]? = some moment →
        ∀ v kind, ((start.run calls).step (.retract index)).store.get v kind =
          moment.store.get v kind := by
  have kept := kept_start.run allowed
  refine ⟨kept.follows, kept.well.ordered, ?_, fun bound reason => BoundStore.assert_eq_conflict_iff,
    ?_, ?_⟩
  · intro v kind id slot
    obtain ⟨b, found, -⟩ := kept.well.pointed v kind id slot
    exact (Array.getElem?_eq_some_iff.1 found).1
  · intro bound reason refused
    simp only [BoundSession.step, refused]
  · intro index moment found v kind
    obtain ⟨lt, rfl⟩ := List.getElem?_eq_some_iff.1 found
    obtain ⟨count, back⟩ := (kept.restores _ (List.getElem_mem lt)).back
    simp only [BoundSession.step, List.drop_eq_getElem_cons lt, back, BoundStore.get_iterate_addVar]

/-- An unconditional bound with the given value. -/
def givenBound (v : Var) (kind : BoundKind) (value : Rat) : Bound := ⟨v, kind, .ofRat value, none, .given⟩

/-- A redundant and a tighter bound within two marks, an equal one that comes second, one that crosses, and
a new variable before going back. -/
def tightening : List BoundCall :=
  [.addVar, .assert (givenBound 0 .upper 10), .mark, .assert (givenBound 0 .upper 5),
    .assert (givenBound 0 .upper 7), .mark, .addVar, .assert ⟨0, .upper, .ofRat 5, some 3, .derived⟩,
    .assert (givenBound 1 .lower 5), .assert (givenBound 0 .lower 6), .assert (givenBound 0 .upper 3)]

theorem run_follows_tightening :
    BoundKind.upper.FirstTightest ((start.run tightening).store.get 0 .upper)
        (about 0 .upper (start.run tightening).accepted) ∧
      (start.run tightening).store.get 0 .upper = some (givenBound 0 .upper 3) ∧
      ((start.run tightening).step (.retract 0)).store.get 0 .upper = some (givenBound 0 .upper 5) ∧
      ((start.run tightening).step (.retract 1)).store.get 0 .upper = some (givenBound 0 .upper 10) := by
  have allowed : start.allowsAll tightening = true := by cbv
  have follows := run_follows allowed
  refine ⟨follows.1 0 .upper, by cbv, ?_, ?_⟩
  · exact (follows.2.2.2.2.2 0 _ rfl 0 .upper).trans (by cbv)
  · exact (follows.2.2.2.2.2 1 _ rfl 0 .upper).trans (by cbv)

end BoundSession

end ArithDecide
