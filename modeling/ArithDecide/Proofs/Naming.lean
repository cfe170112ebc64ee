import ArithDecide.Proofs.Sessions

/-!
# Where names lead

A variable keeps the name that it was given last, but a name is looked up in a second table, and that
forgets more: `Session.lookup_run` says that a name leads to the variable that was given it last, as long
as that variable is there and no variable that bears the name is renamed. So what a name leads to always
bears it. A variable that bears a name is found as long as no name is given to a variable while another
one bears it; with shared names it need not be, as `Session.lookup_misses_bearer` shows.
-/

namespace ArithDecide

/-! ## The two tables -/

/-- What is found for a key once the entries of another key are gone. -/
theorem lookup_filter_key {α β : Type} [DecidableEq α] (entries : List (α × β)) (key other : α) :
    (entries.filter fun entry => entry.1 ≠ key).lookup other =
      if other = key then none else entries.lookup other := by
  induction entries with
  | nil => simp
  | cons head rest ih =>
    obtain ⟨first, value⟩ := head
    rw [List.filter_cons]
    grind

/-- What is found for a key once the entries without a property are gone, if no key comes twice. -/
theorem lookup_filter_value {α β : Type} [DecidableEq α] {entries : List (α × β)}
    (distinct : (entries.map Prod.fst).Nodup) (keep : β → Bool) (key : α) :
    (entries.filter fun entry => keep entry.2).lookup key = (entries.lookup key).filter keep := by
  induction entries with
  | nil => rfl
  | cons head rest ih =>
    obtain ⟨first, value⟩ := head
    obtain ⟨absent, distinct⟩ := List.nodup_cons.1 distinct
    have ih := ih distinct
    have gone (same : key = first) : rest.lookup key = none := by
      rw [List.lookup_eq_none_iff]
      intro entry member
      apply bne_iff_ne.2
      intro equal
      apply absent
      rw [show (first, value).1 = entry.1 from same.symm.trans equal]
      exact List.mem_map_of_mem member
    rw [List.filter_cons]
    grind

namespace Names

variable {names : Names} {v w : Var} {n m : String} {count : Nat}

theorem nameOf?_assign :
    (names.assign v n).nameOf? w = if w = v then some n else names.nameOf? w := by
  simp only [nameOf?, assign, List.lookup_cons, lookup_filter_key]
  grind

theorem varOf?_assign : (names.assign v n).varOf? m =
    if m = n then some v else if names.nameOf? v = some m then none else names.varOf? m := by
  simp only [varOf?, assign, List.lookup_cons, lookup_filter_key]
  cases named : names.nameOf? v with
  | none => grind
  | some previous =>
    simp only [lookup_filter_key]
    grind

theorem nameOf?_truncate :
    (names.truncate count).nameOf? v = if v < count then names.nameOf? v else none := by
  simp only [nameOf?, truncate]
  induction names.byVar with
  | nil => simp
  | cons head rest ih =>
    obtain ⟨first, name⟩ := head
    rw [List.filter_cons]
    grind

/-- No name leads to two variables. -/
def Distinct (names : Names) : Prop := (names.byName.map Prod.fst).Nodup

theorem varOf?_truncate (distinct : names.Distinct) :
    (names.truncate count).varOf? n = (names.varOf? n).filter (decide <| · < count) :=
  lookup_filter_value distinct (decide <| · < count) n

theorem Distinct.of_sublist {entries : List (String × Var)} (distinct : names.Distinct)
    (fewer : entries.Sublist names.byName) : (entries.map Prod.fst).Nodup :=
  List.Nodup.sublist (fewer.map Prod.fst) distinct

theorem Distinct.assign (distinct : names.Distinct) : (names.assign v n).Distinct := by
  have kept (entries : List (String × Var)) (distinct : (entries.map Prod.fst).Nodup) :
      (((n, v) :: entries.filter fun entry => entry.1 ≠ n).map Prod.fst).Nodup := by
    apply List.nodup_cons.2
    constructor
    · simp
    · exact distinct.sublist (List.filter_sublist.map Prod.fst)
  unfold Distinct Names.assign
  apply kept
  split
  · exact distinct
  · exact distinct.of_sublist List.filter_sublist

theorem Distinct.truncate (distinct : names.Distinct) : (names.truncate count).Distinct :=
  distinct.of_sublist List.filter_sublist

end Names

namespace Engine

variable {e next : Engine} {v w : Var} {n m : String}

/-! ## What holds of the tables at any time -/

/-- Names are those of variables, and what a name leads to bears it. -/
structure NamesAgree (e : Engine) : Prop where
  distinct : e.names.Distinct
  lt : ∀ v n, e.names.nameOf? v = some n → v < e.numVars
  bears : ∀ n v, e.names.varOf? n = some v → e.names.nameOf? v = some n

theorem namesAgree_new (options : Options) : (new options).NamesAgree where
  distinct := List.nodup_nil
  lt _ _ named := by cases named
  bears _ _ leads := by cases leads

/-- Naming a variable keeps the tables agreeing: a name leads to a variable that bears it. -/
theorem NamesAgree.assign (agree : e.NamesAgree) (v_lt : v < e.numVars) (n : String) :
    ({ e with names := e.names.assign v n } : Engine).NamesAgree where
  distinct := agree.distinct.assign
  lt w m named := by
    rw [Names.nameOf?_assign] at named
    split at named
    · rename_i same
      exact same ▸ v_lt
    · exact agree.lt w m named
  bears m w leads := by
    rw [Names.varOf?_assign] at leads
    rw [Names.nameOf?_assign]
    split at leads
    · rename_i same
      obtain rfl := Option.some.inj leads
      rw [if_pos rfl, same]
    · split at leads
      · cases leads
      · rename_i other
        have named := agree.bears m w leads
        rw [if_neg]
        · exact named
        · rintro rfl
          exact other named

/-! ## Calls that name nothing -/

/-- Names stay, except for those of variables that are gone. -/
structure Retains (e next : Engine) : Prop where
  distinct : next.names.Distinct
  nameOf? : ∀ v n, next.names.nameOf? v = some n ↔ e.names.nameOf? v = some n ∧ v < next.numVars
  varOf? : ∀ n v, next.names.varOf? n = some v ↔ e.names.varOf? n = some v ∧ v < next.numVars

theorem NamesAgree.retains (agree : e.NamesAgree) (names : next.names = e.names)
    (numVars : e.numVars ≤ next.numVars) : Retains e next where
  distinct := names ▸ agree.distinct
  nameOf? v n := by
    rw [names]
    exact ⟨fun named => ⟨named, Nat.lt_of_lt_of_le (agree.lt v n named) numVars⟩, And.left⟩
  varOf? n v := by
    rw [names]
    exact ⟨fun leads => ⟨leads, Nat.lt_of_lt_of_le (agree.lt v n (agree.bears n v leads)) numVars⟩,
      And.left⟩

theorem Retains.namesAgree (retains : Retains e next) (agree : e.NamesAgree) :
    next.NamesAgree where
  distinct := retains.distinct
  lt v n named := ((retains.nameOf? v n).1 named).2
  bears n v leads := by
    obtain ⟨led, lt⟩ := (retains.varOf? n v).1 leads
    exact (retains.nameOf? v n).2 ⟨agree.bears n v led, lt⟩

theorem Retains.trans {last : Engine} (first : Retains e next) (second : Retains next last)
    (fewer : last.numVars ≤ next.numVars) : Retains e last where
  distinct := second.distinct
  nameOf? v n := by
    rw [second.nameOf?, first.nameOf?, and_assoc]
    exact and_congr_right fun _ => and_iff_right_of_imp fun lt => Nat.lt_of_lt_of_le lt fewer
  varOf? n v := by
    rw [second.varOf?, first.varOf?, and_assoc]
    exact and_congr_right fun _ => and_iff_right_of_imp fun lt => Nat.lt_of_lt_of_le lt fewer

/-- Leaving a scope drops the names of its variables and no others. -/
theorem retains_popScope (agree : e.NamesAgree) :
    Retains e e.popScope ∧ e.popScope.numVars ≤ e.numVars := by
  unfold popScope
  split
  · exact ⟨agree.retains rfl (Nat.le_refl _), Nat.le_refl _⟩
  · rename_i scope outer is_open
    have numVars : (e.toState.leave).numVars = min scope.numVars e.numVars := by
      simp [State.leave, is_open, State.settle, State.rewind, State.numVars]
    have below {v : Var} {n : String} (named : e.names.nameOf? v = some n) :
        v < scope.numVars ↔ v < (e.toState.leave).numVars := by
      rw [numVars, lt_min_iff]
      exact (and_iff_left (agree.lt v n named)).symm
    constructor
    · constructor
      · exact agree.distinct.truncate
      · intro v n
        show (e.names.truncate scope.numVars).nameOf? v = some n ↔ _ ∧ v < (e.toState.leave).numVars
        rw [Names.nameOf?_truncate]
        grind
      · intro n v
        show (e.names.truncate scope.numVars).varOf? n = some v ↔ _ ∧ v < (e.toState.leave).numVars
        rw [Names.varOf?_truncate agree.distinct, Option.filter_eq_some_iff, decide_eq_true_eq]
        exact and_congr_right fun leads => below (agree.bears n v leads)
    · show (e.toState.leave).numVars ≤ e.numVars
      rw [numVars]
      apply Nat.min_le_right

theorem retains_popScopes (agree : e.NamesAgree) (count : Nat) :
    Retains e (popScopes count e) ∧ (popScopes count e).numVars ≤ e.numVars := by
  induction count generalizing e with
  | zero => exact ⟨agree.retains rfl (Nat.le_refl _), Nat.le_refl _⟩
  | succ count ih =>
    obtain ⟨first, fewer⟩ := retains_popScope agree
    obtain ⟨rest, fewer_rest⟩ := ih (first.namesAgree agree)
    exact ⟨first.trans rest fewer_rest, fewer_rest.trans fewer⟩

theorem retains_pop {count : Nat} (agree : e.NamesAgree) (ok : e.pop count = .ok next) :
    Retains e next := by
  rw [Engine.pop] at ok
  split at ok
  · cases ok
  · obtain rfl := Except.ok.inj ok
    exact (retains_popScopes agree count).1

theorem retains_retractTo {mark : Mark} (agree : e.NamesAgree) (ok : e.retractTo mark = .ok next) :
    Retains e next := by
  rw [Engine.retractTo] at ok
  split at ok
  · cases ok
  · exact retains_pop agree ok

theorem setName_eq (e : Engine) (v : Var) (n : String) : e.setName v n =
    if v < e.numVars then .ok { e with names := e.names.assign v n }
    else .error (.unknownVariable v) := by
  unfold setName requireVar
  by_cases known : v < e.numVars
  · simp [State.hasVar, known, bind, Except.bind, pure, Except.pure]
  · simp [State.hasVar, known, bind, Except.bind]

end Engine

/-- Whether a call adds or names a variable or enters or leaves scopes. -/
def Call.isNaming : Call → Bool
  | .mkVar _ _ | .setName _ _ | .push | .pop _ | .retractTo _ => true
  | _ => false

namespace Session

open Engine

variable {s : Session} {v w : Var} {n : String} {call : Call} {calls : List Call}

/-! ## What a call does to a name -/

/-- The call gives the variable another name or drops the variable. -/
def Unnames (s : Session) (v : Var) : Call → Prop
  | .setName w _ => w = v
  | call => (s.perform call).engine.numVars ≤ v

/-- The call gives the name to a variable, renames a variable that bears it, or drops the variable that
it leads to. -/
def Misleads (s : Session) (v : Var) (n : String) : Call → Prop
  | .setName w m => w < s.engine.numVars ∧ (m = n ∨ s.engine.names.nameOf? w = some n)
  | call => (s.perform call).engine.numVars ≤ v

/-- The call gives the variable a name while another variable bears that name. -/
def Shares (s : Session) : Call → Prop
  | .setName w m => ∃ v, v ≠ w ∧ s.engine.names.nameOf? v = some m
  | _ => False

/-- The ways of a call that enters, leaves or names. -/
theorem naming_cases (agree : s.engine.NamesAgree) (naming : call.isNaming = true) :
    (∃ w m, call = .setName w m ∧ w < s.engine.numVars ∧
      (s.perform call).engine = { s.engine with names := s.engine.names.assign w m }) ∨
    (∃ w m, call = .setName w m ∧ ¬w < s.engine.numVars ∧ s.perform call = s) ∨
    (∀ w m, call ≠ .setName w m) ∧ Retains s.engine (s.perform call).engine := by
  cases call with
  | setName w m =>
    by_cases known : w < s.engine.numVars
    · left
      refine ⟨w, m, rfl, known, ?_⟩
      rw [perform, setName_eq, if_pos known]
      rfl
    · right; left
      refine ⟨w, m, rfl, known, ?_⟩
      rw [perform, setName_eq, if_neg known]
      rfl
  | mkVar sort term =>
    right; right
    refine ⟨nofun, agree.retains rfl ?_⟩
    show s.engine.columns.size ≤ (s.engine.columns.push ⟨sort, term⟩).size
    rw [Array.size_push]
    apply Nat.le_succ
  | push =>
    right; right
    exact ⟨nofun, agree.retains rfl (Nat.le_refl _)⟩
  | pop count =>
    right; right
    refine ⟨nofun, ?_⟩
    simp only [perform]
    cases ok : s.engine.pop count with
    | ok next => exact retains_pop agree ok
    | error _ => exact agree.retains rfl (Nat.le_refl _)
  | retractTo mark =>
    right; right
    refine ⟨nofun, ?_⟩
    simp only [perform]
    cases ok : s.engine.retractTo mark with
    | ok next => exact retains_retractTo agree ok
    | error _ => exact agree.retains rfl (Nat.le_refl _)
  | _ => cases naming

theorem namesAgree_perform (agree : s.engine.NamesAgree) (naming : call.isNaming = true) :
    (s.perform call).engine.NamesAgree := by
  rcases naming_cases agree naming with ⟨w, m, -, known, same⟩ | ⟨w, m, -, -, same⟩ | ⟨-, retains⟩
  · rw [same]
    exact agree.assign known m
  · rw [same]
    exact agree
  · exact retains.namesAgree agree

/-- The name of a variable after a call. -/
theorem nameOf?_perform (agree : s.engine.NamesAgree) (naming : call.isNaming = true) :
    (s.perform call).engine.names.nameOf? v = some n ↔
      (call = .setName v n ∧ v < s.engine.numVars) ∨
        (s.engine.names.nameOf? v = some n ∧ ¬s.Unnames v call) := by
  have live := agree.lt v n
  rcases naming_cases agree naming with
    ⟨w, m, rfl, known, same⟩ | ⟨w, m, rfl, unknown, same⟩ | ⟨other, retains⟩
  · rw [same, Names.nameOf?_assign]
    unfold Unnames
    grind
  · rw [same]
    unfold Unnames
    grind
  · have unnames : s.Unnames v call ↔ (s.perform call).engine.numVars ≤ v := by
      unfold Unnames
      split
      · exact absurd rfl (other _ _)
      · rfl
    rw [retains.nameOf?, unnames, Nat.not_le]
    exact (or_iff_right fun named => other v n named.1).symm

/-- Where a name leads after a call. -/
theorem varOf?_perform (agree : s.engine.NamesAgree) (naming : call.isNaming = true) :
    (s.perform call).engine.names.varOf? n = some v ↔
      (call = .setName v n ∧ v < s.engine.numVars) ∨
        (s.engine.names.varOf? n = some v ∧ ¬s.Misleads v n call) := by
  rcases naming_cases agree naming with
    ⟨w, m, rfl, known, same⟩ | ⟨w, m, rfl, unknown, same⟩ | ⟨other, retains⟩
  · rw [same, Names.varOf?_assign]
    unfold Misleads
    grind
  · rw [same]
    unfold Misleads
    grind
  · have misleads : s.Misleads v n call ↔ (s.perform call).engine.numVars ≤ v := by
      unfold Misleads
      split
      · exact absurd rfl (other _ _)
      · rfl
    rw [retains.varOf?, misleads, Nat.not_le]
    exact (or_iff_right fun named => other v n named.1).symm

/-- Variables that are found under their names stay so, unless names are shared. -/
theorem found_perform (agree : s.engine.NamesAgree) (naming : call.isNaming = true)
    (unshared : ¬s.Shares call)
    (found : ∀ v n, s.engine.names.nameOf? v = some n → s.engine.names.varOf? n = some v) (v : Var)
    (n : String) (named : (s.perform call).engine.names.nameOf? v = some n) :
    (s.perform call).engine.names.varOf? n = some v := by
  rcases naming_cases agree naming with
    ⟨w, m, rfl, known, same⟩ | ⟨w, m, rfl, unknown, same⟩ | ⟨other, retains⟩
  · rw [same, Names.nameOf?_assign] at named
    rw [same, Names.varOf?_assign]
    unfold Shares at unshared
    grind
  · rw [same] at named ⊢
    exact found v n named
  · obtain ⟨named, lt⟩ := (retains.nameOf? v n).1 named
    exact (retains.varOf? n v).2 ⟨found v n named, lt⟩

/-! ## What the calls so far have done to it -/

/-- The name was given to the variable, and no call since then has ended that. -/
inductive StillGiven (s : Session) (v : Var) (n : String) (ends : Session → Call → Prop) :
    List Call → Prop where
  | given {calls : List Call} : v < (s.run calls).engine.numVars →
    StillGiven s v n ends (calls ++ [.setName v n])
  | kept {calls : List Call} {call : Call} : StillGiven s v n ends calls →
    ¬ends (s.run calls) call → StillGiven s v n ends (calls ++ [call])

/-- After one more call a name is still given if that call gave it, or if it was given before and the
call did not end that. -/
theorem stillGiven_concat {ends : Session → Call → Prop} :
    s.StillGiven v n ends (calls ++ [call]) ↔
      (call = .setName v n ∧ v < (s.run calls).engine.numVars) ∨
        (s.StillGiven v n ends calls ∧ ¬ends (s.run calls) call) := by
  constructor
  · intro given
    generalize eq : calls ++ [call] = all at given
    cases given with
    | given live =>
      obtain ⟨rfl, last⟩ := List.append_inj' eq rfl
      exact .inl ⟨List.singleton_inj.1 last, live⟩
    | kept before on =>
      obtain ⟨rfl, last⟩ := List.append_inj' eq rfl
      obtain rfl := List.singleton_inj.1 last
      exact .inr ⟨before, on⟩
  · rintro (⟨rfl, live⟩ | ⟨before, on⟩)
    · exact .given live
    · exact .kept before on

theorem not_stillGiven_nil {ends : Session → Call → Prop} : ¬s.StillGiven v n ends [] := by
  intro given
  generalize eq : ([] : List Call) = all at given
  cases given <;> simp at eq

/-- No call gives a variable a name while another variable bears it. -/
def Unshared (s : Session) (calls : List Call) : Prop :=
  ∀ done call rest, calls = done ++ call :: rest → ¬(s.run done).Shares call

/-- Both tables say what the calls have done to names, and nothing is lost as long as no names are
shared. -/
theorem lookup_run (options : Options) (calls : List Call)
    (naming : ∀ call ∈ calls, call.isNaming = true) :
    let s := start options
    let e := (s.run calls).engine
    (∀ v n, e.names.nameOf? v = some n ↔ s.StillGiven v n (Unnames · v) calls) ∧
    (∀ n v, e.names.varOf? n = some v ↔ s.StillGiven v n (Misleads · v n) calls) ∧
    (∀ n v, e.names.varOf? n = some v → v < e.numVars ∧ e.names.nameOf? v = some n) ∧
    (s.Unshared calls → ∀ n v, e.names.varOf? n = some v ↔ e.names.nameOf? v = some n) := by
  suffices both : ((start options).run calls).engine.NamesAgree ∧
      (∀ v n, ((start options).run calls).engine.names.nameOf? v = some n ↔
        (start options).StillGiven v n (Unnames · v) calls) ∧
      (∀ n v, ((start options).run calls).engine.names.varOf? n = some v ↔
        (start options).StillGiven v n (Misleads · v n) calls) ∧
      ((start options).Unshared calls → ∀ v n,
        ((start options).run calls).engine.names.nameOf? v = some n →
          ((start options).run calls).engine.names.varOf? n = some v) by
    obtain ⟨agree, named, leads, found⟩ := both
    refine ⟨named, leads, fun n v leads => ?_, fun unshared n v => ?_⟩
    · have bears := agree.bears n v leads
      exact ⟨agree.lt v n bears, bears⟩
    · exact ⟨agree.bears n v, found unshared v n⟩
  induction calls using List.reverseRecOn with
  | nil =>
    refine ⟨namesAgree_new options, fun v n => ?_, fun n v => ?_, fun _ v n named => ?_⟩
    · exact iff_of_false nofun not_stillGiven_nil
    · exact iff_of_false nofun not_stillGiven_nil
    · cases named
  | append_singleton calls call ih =>
    have naming_call := naming call (by simp)
    obtain ⟨agree, named, leads, found⟩ := ih fun call member => naming call (by simp [member])
    have step : (start options).run (calls ++ [call]) = ((start options).run calls).perform call :=
      run_append _ _ _
    rw [step]
    refine ⟨namesAgree_perform agree naming_call, fun v n => ?_, fun n v => ?_, fun unshared => ?_⟩
    · rw [nameOf?_perform agree naming_call, stillGiven_concat, named]
    · rw [varOf?_perform agree naming_call, stillGiven_concat, leads]
    · apply found_perform agree naming_call (unshared calls call [] rfl)
      apply found
      intro done other rest eq
      exact unshared done other (rest ++ [call]) (by simp [eq])

/-- Two variables, renamed back and forth in and out of a scope. -/
theorem lookup_run_renamed :
    let calls : List Call := [.mkVar .int .internal, .setName 0 "a", .push, .mkVar .real .internal,
      .setName 1 "b", .setName 0 "c", .pop 1, .setName 0 "a"]
    (∀ call ∈ calls, call.isNaming = true) ∧
      ((start {}).run calls).engine.names.varOf? "a" = some 0 ∧
      (start {}).StillGiven 0 "a" (Misleads · 0 "a") calls := by
  have naming : ∀ call ∈ ([.mkVar .int .internal, .setName 0 "a", .push, .mkVar .real .internal,
      .setName 1 "b", .setName 0 "c", .pop 1, .setName 0 "a"] : List Call),
      call.isNaming = true := by decide
  obtain ⟨-, leads, -⟩ := lookup_run {} _ naming
  have found : ((start {}).run [.mkVar .int .internal, .setName 0 "a", .push,
      .mkVar .real .internal, .setName 1 "b", .setName 0 "c", .pop 1,
      .setName 0 "a"]).engine.names.varOf? "a" = some 0 := by decide +kernel
  exact ⟨naming, found, (leads "a" 0).1 found⟩

/-- A variable bears a name that leads nowhere: it shared the name with a variable that was renamed. -/
theorem lookup_misses_bearer :
    let e := ((start {}).run [.mkVar .int .internal, .mkVar .int .internal, .setName 0 "n",
      .setName 1 "n", .setName 1 "m"]).engine
    (0 : Var) < e.numVars ∧ e.names.nameOf? 0 = some "n" ∧ e.names.varOf? "n" = none := by
  decide +kernel

end Session

end ArithDecide
