import ArithDecide.Proofs.Turns

/-!
# Which pairs are reported

A pass over the fixed variables compares each with the smallest one of its value. `Engine.connected_pass`
says that afterwards all of them are connected by reported pairs, whichever pairs were reported before
and whichever variable was the smallest then. A pair is reported only if no report of it is alive, so a
call that is not a search queues none twice: `Engine.Turn.reportedSince`.
-/

namespace ArithDecide

namespace Engine

variable {e next last : Engine} {h : History} {v w : Var} {x : InfRat} {new more : List VarPair}

/-! ## Reporting one equality -/

/-- The bounds that fix two variables. -/
def fixingUses (w v : Var) : List (Var × BoundKind) :=
  [(w, .lower), (w, .upper), (v, .lower), (v, .upper)]

/-- The report that two variables are fixed to one value. -/
def equalityReport (e : Engine) (w v : Var) : EqualityReport :=
  let joined := e.joinReasons (e.reasonsOf (fixingUses w v))
  ⟨⟨w, v⟩, joined.1.dependencies.linearize joined.2⟩

/-- The state after a pair was reported. -/
def State.reporting (s : State) (p : VarPair) (r : EqualityReport) : State :=
  { s with reported := s.reported ++ [p], equalities := s.equalities ++ [r] }

/-- A variable is reported as equal to the representative of its value unless it is that itself or the
pair was reported already. -/
theorem reportEquality_cases (e : Engine) (v : Var) :
    (e.reportEquality v = e ∧ ∀ x w, e.sharedFixedValue? v = some x → e.representative? x = some w →
      w = v ∨ ⟨w, v⟩ ∈ e.reported) ∨
    ∃ x w, e.sharedFixedValue? v = some x ∧ e.representative? x = some w ∧ ⟨w, v⟩ ∉ e.reported ∧
      (e.reportEquality v).toState =
        (e.joinReasons (e.reasonsOf (fixingUses w v))).1.reporting ⟨w, v⟩ (e.equalityReport w v) := by
  rw [reportEquality]
  split
  · rename_i unshared
    exact .inl ⟨rfl, fun x w shared => by rw [unshared] at shared; cases shared⟩
  · rename_i x shared
    simp only
    split
    · rename_i known
      refine .inl ⟨rfl, fun y w shared' found => ?_⟩
      obtain rfl := Option.some.inj (shared.symm.trans shared')
      have old := Option.filter_eq_none_iff.1 known w found
      simpa [or_iff_not_imp_left] using old
    · rename_i w found
      obtain ⟨found, is_new⟩ := Option.filter_eq_some_iff.1 found
      refine .inr ⟨x, w, shared, found, ?_, rfl⟩
      simpa using (Bool.and_eq_true_iff.1 is_new).2

/-! ## What is reported -/

/-- Some pairs were reported in between, none of which was reported before, and none twice. -/
structure Reports (e next : Engine) (new : List VarPair) : Prop where
  reported : next.reported = e.reported ++ new
  equalities : next.equalities.map EqualityReport.pair = e.equalities.map EqualityReport.pair ++ new
  fresh : ∀ p ∈ new, p ∉ e.reported
  nodup : new.Nodup

theorem Undisturbed.reports (undisturbed : Undisturbed e next) : Reports e next [] where
  reported := by rw [undisturbed.reported, List.append_nil]
  equalities := by rw [undisturbed.equalities, List.append_nil]
  fresh := nofun
  nodup := List.nodup_nil

/-- What is reported in two steps is reported first in one and then in the other. -/
theorem Reports.trans (first : Reports e next new) (second : Reports next last more) :
    Reports e last (new ++ more) where
  reported := by rw [second.reported, first.reported, List.append_assoc]
  equalities := by rw [second.equalities, first.equalities, List.append_assoc]
  fresh p member := by
    rcases List.mem_append.1 member with earlier | later
    · exact first.fresh p earlier
    · have absent := second.fresh p later
      rw [first.reported, List.mem_append, not_or] at absent
      exact absent.1
  nodup := by
    refine List.nodup_append.2 ⟨first.nodup, second.nodup, fun p earlier q later same => ?_⟩
    subst same
    refine second.fresh p later ?_
    rw [first.reported]
    exact List.mem_append_right _ earlier

theorem reports_reportEquality (e : Engine) (v : Var) :
    ∃ new, Reports e (e.reportEquality v) new := by
  rcases reportEquality_cases e v with ⟨same, -⟩ | ⟨x, w, -, -, is_new, made⟩
  · rw [same]
    exact ⟨[], (Undisturbed.refl e).reports⟩
  · refine ⟨[⟨w, v⟩], by rw [made]; rfl, ?_, fun p member => ?_, List.nodup_singleton _⟩
    · rw [made, State.reporting, List.map_append]
      rfl
    · rw [List.mem_singleton.1 member]
      exact is_new

theorem Stride.reports {reporting : Bool} (stride : Stride reporting e next) :
    ∃ new, Reports e next new := by
  cases stride with
  | report v allowed made => exact made ▸ reports_reportEquality e v
  | aside same => exact ⟨[], (Stride.aside same).undisturbed.reports⟩
  | grow sort term made => exact ⟨[], (Stride.grow sort term made).undisturbed.reports⟩
  | install v kind value reason origin made =>
    exact ⟨[], (Stride.install v kind value reason origin made).undisturbed.reports⟩
  | intern v kind threshold made =>
    exact ⟨[], (Stride.intern v kind threshold made).undisturbed.reports⟩
  | assign l atoms known made same =>
    exact ⟨[], (Stride.assign l atoms known made same).undisturbed.reports⟩

theorem Strides.reports {reporting : Bool} (strides : Strides reporting e next) :
    ∃ new, Reports e next new := by
  induction strides with
  | refl => exact ⟨[], (Undisturbed.refl e).reports⟩
  | tail _ stride ih =>
    obtain ⟨new, first⟩ := ih
    obtain ⟨more, second⟩ := stride.reports
    exact ⟨_, first.trans second⟩

/-- The pairs that were queued on the way from one engine to another. -/
def reportedSince (e next : Engine) : List VarPair :=
  (next.equalities.drop e.equalities.length).map EqualityReport.pair

theorem Reports.reportedSince (reports : Reports e next new) : e.reportedSince next = new := by
  rw [Engine.reportedSince, List.map_drop, reports.equalities, List.drop_left' (List.length_map _)]

theorem reportedSince_eq_nil (le : next.equalities.length ≤ e.equalities.length) :
    e.reportedSince next = [] := by
  rw [reportedSince, List.drop_eq_nil_of_le le]
  rfl

/-- Leaving scopes empties the queue, unless there is none to leave. -/
theorem iterate_leave_cases (n : Nat) (s : State) :
    State.leave^[n] s = s ∨ (State.leave^[n] s).equalities = [] := by
  induction n with
  | zero => exact .inl rfl
  | succ n ih =>
    rw [Function.iterate_succ_apply']
    generalize State.leave^[n] s = t at ih
    cases is_open : t.scopes with
    | nil =>
      rw [State.leave, is_open]
      exact ih
    | cons scope outer =>
      rw [State.leave_of_open is_open]
      exact .inr rfl

/-- Every call that is not a search queues only pairs that were not reported before, and none twice. -/
theorem Turn.reportedSince {leaving : Bool} (turn : Turn leaving e next) :
    (e.reportedSince next).Nodup ∧ ∀ p ∈ e.reportedSince next, p ∉ e.reported := by
  have idle (shorter : next.equalities.length ≤ e.equalities.length) :
      (e.reportedSince next).Nodup ∧ ∀ p ∈ e.reportedSince next, p ∉ e.reported := by
    rw [reportedSince_eq_nil shorter]
    exact ⟨List.nodup_nil, nofun⟩
  have busy {reporting : Bool} (strides : Strides reporting e next) :
      (e.reportedSince next).Nodup ∧ ∀ p ∈ e.reportedSince next, p ∉ e.reported := by
    obtain ⟨new, reports⟩ := strides.reports
    rw [reports.reportedSince]
    exact ⟨reports.nodup, reports.fresh⟩
  cases turn with
  | pose strides k evolves => exact busy strides
  | reason made k evolves => exact busy (strides_of_reason made)
  | serve propagations equalities literals_left equalities_left becomes =>
    exact idle (by rw [becomes.toState]; exact equalities_left.length_le)
  | enter made => exact idle (made ▸ Nat.le_refl _)
  | leave count le made =>
    subst made
    refine idle ?_
    rw [toState_popScopes]
    rcases iterate_leave_cases count e.toState with same | none_left
    · rw [same]
    · rw [none_left]
      exact Nat.zero_le _

/-! ## What a pass connects -/

/-- The same variables are fixed, to the same values, and no report was dropped. -/
structure Passing (e next : Engine) : Prop where
  bounds : next.bounds = e.bounds
  oracle : next.oracle = e.oracle
  columns : next.columns = e.columns
  reported : ∀ p ∈ e.reported, p ∈ next.reported

theorem Passing.refl (e : Engine) : Passing e e := ⟨rfl, rfl, rfl, fun _ => id⟩

theorem Passing.trans (first : Passing e next) (second : Passing next last) : Passing e last :=
  ⟨second.bounds.trans first.bounds, second.oracle.trans first.oracle,
    second.columns.trans first.columns, fun p member => second.reported p (first.reported p member)⟩

theorem Passing.sharedFixedValue? (passing : Passing e next) (v : Var) :
    next.sharedFixedValue? v = e.sharedFixedValue? v := by
  rw [Engine.sharedFixedValue?, Engine.sharedFixedValue?, passing.oracle, passing.bounds, State.term,
    State.term, passing.columns]

theorem Passing.representative? (passing : Passing e next) (x : InfRat) :
    next.representative? x = e.representative? x := by
  rw [Engine.representative?, Engine.representative?, State.vars, State.vars, State.numVars,
    State.numVars, passing.columns]
  congr 1
  funext v
  rw [passing.sharedFixedValue?]

theorem passing_reportEquality (e : Engine) (v : Var) : Passing e (e.reportEquality v) := by
  obtain ⟨_, _, _, toState⟩ := toState_reportEquality e v
  obtain ⟨new, reports⟩ := reports_reportEquality e v
  have asks := (Stride.report v rfl rfl : Stride true e (e.reportEquality v)).asks
  exact ⟨by rw [toState], asks.1, by rw [toState],
    fun p member => by rw [reports.reported]; exact List.mem_append_left _ member⟩

/-- The representative of the value to which a variable is fixed is the variable itself or was reported
as equal to it. -/
def Represented (e : Engine) (v : Var) : Prop :=
  ∀ x w, e.sharedFixedValue? v = some x → e.representative? x = some w → w = v ∨ ⟨w, v⟩ ∈ e.reported

theorem Passing.represented (passing : Passing e next) (represented : e.Represented v) :
    next.Represented v := by
  intro x w shared found
  rw [passing.sharedFixedValue?] at shared
  rw [passing.representative?] at found
  exact (represented x w shared found).imp_right (passing.reported _)

theorem represented_reportEquality (e : Engine) (v : Var) : (e.reportEquality v).Represented v := by
  have passing := passing_reportEquality e v
  rcases reportEquality_cases e v with ⟨same, known⟩ | ⟨x, w, shared, found, -, made⟩
  · rw [same]
    exact known
  · intro y u shared' found'
    rw [passing.sharedFixedValue?, shared] at shared'
    obtain rfl := Option.some.inj shared'
    rw [passing.representative?, found] at found'
    obtain rfl := Option.some.inj found'
    rw [made]
    exact .inr (List.mem_append_right _ (List.mem_singleton.2 rfl))

theorem represented_foldl (vs : List Var) (e : Engine) :
    Passing e (vs.foldl reportEquality e) ∧
      ∀ v, v ∈ vs ∨ e.Represented v → (vs.foldl reportEquality e).Represented v := by
  induction vs generalizing e with
  | nil => exact ⟨.refl e, fun v known => known.resolve_left List.not_mem_nil⟩
  | cons u rest ih =>
    have first := passing_reportEquality e u
    obtain ⟨second, represented⟩ := ih (e.reportEquality u)
    refine ⟨first.trans second, fun v known => represented v ?_⟩
    rcases known with member | before
    · rcases List.mem_cons.1 member with rfl | later
      · exact .inr (represented_reportEquality e v)
      · exact .inl later
    · exact .inr (first.represented before)

/-- The variables that a pass looks at are fixed to a value of interest among all variables. -/
theorem mem_vars_of_shared (shared : e.sharedFixedValue? v = some x)
    (fits : e.bounds.WellFormed e.numVars) : v ∈ e.vars := by
  rw [sharedFixedValue?] at shared
  split at shared
  · obtain ⟨b, found, -⟩ := Option.map_eq_some_iff.1 shared
    exact List.mem_range.2 (fits.lt_of_get found)
  · cases shared

/-- After a pass, variables of interest that are fixed to one value are connected by reports. -/
theorem connected_pass (fits : e.bounds.WellFormed e.numVars)
    (v_shared : e.propagateFixedEqualities.sharedFixedValue? v = some x)
    (w_shared : e.propagateFixedEqualities.sharedFixedValue? w = some x) :
    Relation.EqvGen (fun a b => ⟨a, b⟩ ∈ e.propagateFixedEqualities.reported) v w := by
  obtain ⟨passing, represented⟩ := represented_foldl e.vars e
  rw [propagateFixedEqualities] at v_shared w_shared ⊢
  generalize e.vars.foldl reportEquality e = last at *
  have inside {u : Var} (shared : last.sharedFixedValue? u = some x) : u ∈ e.vars := by
    rw [passing.sharedFixedValue?] at shared
    exact mem_vars_of_shared shared fits
  have known : ∃ r, e.representative? x = some r := by
    refine Option.isSome_iff_exists.1 (List.find?_isSome.2 ⟨v, inside v_shared, ?_⟩)
    rw [← passing.sharedFixedValue?]
    exact decide_eq_true v_shared
  obtain ⟨r, found⟩ := known
  have linked {u : Var} (shared : last.sharedFixedValue? u = some x) :
      Relation.EqvGen (fun a b => ⟨a, b⟩ ∈ last.reported) r u := by
    rcases represented u (.inl (inside shared)) x r shared (passing.representative? x ▸ found)
      with rfl | reported
    · exact .refl r
    · exact .rel r u reported
  exact .trans _ _ _ (.symm _ _ (linked v_shared)) (linked w_shared)

end Engine

end ArithDecide
