import ArithDecide.Proofs.Demands
import ArithDecide.Proofs.Sessions
import ArithDecide.Snapshot.Load

/-!
# Loading a snapshot demands what it says

Loading is a sequence of calls, and `Session.load` makes them one after the other, so that what was
asserted is written down. A definition is a row of its own when its variable is still free, and a slack
that is fixed to zero otherwise; a strict bound is the negation of the opposite atom. Either way a step
demands what its assertion says of the values of the declared variables, and nothing else.
-/

namespace ArithDecide

/-! ## What a snapshot says -/

/-- The value is on the right side of a bound of this kind, and off it when the bound is strict. -/
def BoundKind.Limits : BoundKind → Rat → Bool → Rat → Prop
  | .lower, bound, false, q => bound ≤ q
  | .lower, bound, true, q => bound < q
  | .upper, bound, false, q => q ≤ bound
  | .upper, bound, true, q => q < bound

/-- The values of the variables make the assertion true. -/
def Assertion.Holds (β : String → Rat) : Assertion → Prop
  | row base terms => β base = total (terms.map fun t => t.1 * β t.2)
  | product var factors => β var = (factors.map β).prod
  | fixed var value => β var = value
  | lower var value strict => BoundKind.lower.Limits value strict (β var)
  | upper var value strict => BoundKind.upper.Limits value strict (β var)

/-- Integers for the integer variables, and every assertion holds. -/
structure Snapshot.Holds (s : Snapshot) (β : String → Rat) : Prop where
  integral : ∀ d ∈ s.declarations, d.sort = .int → ∃ n : Int, β d.name = n
  assertions : ∀ a ∈ s.assertions, a.Holds β

/-! ## The calls of loading -/

namespace Declared

/-- The variable that a declared name stands for. -/
def place (declared : Declared) (name : String) : Var := (List.lookup name declared).getD 0

/-- The name stands for one of the first `n` variables. -/
def Knows (declared : Declared) (n : Nat) (name : String) : Prop :=
  Snapshot.lookup declared name = .ok (declared.place name) ∧ declared.place name < n

/-- The values of the variables under their names. -/
def read (declared : Declared) (α : Var → Rat) (name : String) : Rat := α (declared.place name)

end Declared

namespace Session

/-- A row of its own, or a slack that is fixed to zero. -/
def define (s : Session) (base : Var) (entries : List (Var × Rat)) : Session :=
  match s.engine.addRow base entries with
  | .ok _ => s.perform (.addRow base entries)
  | .error _ =>
    s.run [.mkLinear .real .internal (entries ++ [(base, -1)]), .assertGiven s.engine.numVars .lower 0,
      .assertGiven s.engine.numVars .upper 0]

/-- The literal of an atom, or the negation of the opposite atom when the bound is strict. -/
def assertBound (s : Session) (v : Var) (kind : BoundKind) (value : Rat) (strict : Bool) : Session :=
  let side := if strict then kind.opposite else kind
  let l := (s.engine.internAtom v side value).2
  s.run [.mkAtom v side value, .assertLiteral (if strict then l.negate else l)]

def loadProduct (declared : Declared) (s : Session) : Assertion → Session
  | .product var factors =>
    match s.engine.mkMonomial (factors.map declared.place) with
    | .ok (_, monomial) =>
      (s.perform (.mkMonomial (factors.map declared.place))).define (declared.place var)
        [(monomial, 1)]
    | .error _ => s
  | _ => s

def loadLinear (declared : Declared) (s : Session) : Assertion → Session
  | .product _ _ => s
  | .row base terms =>
    s.define (declared.place base) (terms.map fun t => (declared.place t.2, t.1))
  | .fixed var value => s.perform (.assertEq (declared.place var) value)
  | .lower var value strict => s.assertBound (declared.place var) .lower value strict
  | .upper var value strict => s.assertBound (declared.place var) .upper value strict

/-- Each variable is added and named. -/
def declareAll (s : Session) (count : Nat) : List Declaration → Session
  | [] => s
  | d :: rest =>
    (s.run [.mkVar d.sort (.external count), .setName s.engine.numVars d.name]).declareAll
      (count + 1) rest

end Session

/-- The variables that declarations stand for, from the given one on. -/
def Snapshot.places (ds : List Declaration) (first : Var) : List (String × Var) :=
  (ds.zipIdx first).map fun p => (p.1.name, p.2)

/-- The session after the calls that load a snapshot: declarations, products, everything else. -/
def Session.load (s : Session) (snapshot : Snapshot) : Session :=
  let declared : Declared := (Snapshot.places snapshot.declarations s.engine.numVars).reverse
  let declaring := s.declareAll 0 snapshot.declarations
  let products := snapshot.assertions.foldl (loadProduct declared) declaring
  snapshot.assertions.foldl (loadLinear declared) products

namespace Engine

open State

variable {e next : Engine} {h k : History} {l : Literal} {n : Nat} {v base : Var}
  {entries : List (Var × Rat)}

/-! ## Calls that succeed -/

theorem requireEntries_eq_ok (known : ∀ t ∈ entries, t.1 < e.numVars)
    (apart : ∀ t ∈ entries, t.1 ≠ base) : e.requireEntries base entries = .ok () := by
  induction entries with
  | nil => rfl
  | cons t rest ih =>
    obtain ⟨v, coeff⟩ := t
    obtain ⟨lt, known⟩ := List.forall_mem_cons.1 known
    obtain ⟨differs, apart⟩ := List.forall_mem_cons.1 apart
    rw [requireEntries, requireVar_eq_ok.2 lt]
    simp only [differs, if_false]
    exact ih known apart

theorem requireEntries_eq (known : ∀ t ∈ entries, t.1 < e.numVars) :
    e.requireEntries base entries = .ok () ∨
      e.requireEntries base entries = .error (.baseNotFresh base) := by
  induction entries with
  | nil => exact .inl rfl
  | cons t rest ih =>
    obtain ⟨v, coeff⟩ := t
    have ⟨lt, others⟩ := List.forall_mem_cons.1 known
    rw [requireEntries, requireVar_eq_ok.2 lt]
    by_cases same : v = base
    · refine .inr ?_
      simp [same, bind, Except.bind, throw, throwThe, MonadExceptOf.throw]
    · simp only [same, if_false]
      exact ih others

theorem addRow_eq_ok (base_lt : base < e.numVars) (known : e.requireEntries base entries = .ok ())
    (fresh : e.tableau.isFresh base = true) :
    e.addRow base entries = .ok (e.placeRow base (.ofEntries entries)) := by
  rw [Engine.addRow, requireVar_eq_ok.2 base_lt, known]
  simp only [fresh, Bool.not_true, Bool.false_eq_true, if_false]
  rfl

/-- A row of known variables is added unless its base is not free. -/
theorem addRow_eq (base_lt : base < e.numVars) (known : ∀ t ∈ entries, t.1 < e.numVars) :
    (∃ next r, e.addRow base entries = .ok (next, r)) ∨
      e.addRow base entries = .error (.baseNotFresh base) := by
  rcases requireEntries_eq known with ok | failed
  · by_cases fresh : e.tableau.isFresh base = true
    · exact .inl ⟨_, _, addRow_eq_ok base_lt ok fresh⟩
    · refine .inr ?_
      rw [Engine.addRow, requireVar_eq_ok.2 base_lt, ok]
      simp [fresh, bind, Except.bind, throw, throwThe, MonadExceptOf.throw]
  · rw [Engine.addRow, requireVar_eq_ok.2 base_lt, failed]
    exact .inr rfl

/-- A row for a new variable is added. -/
theorem mkLinear_eq (formed : e.Formed) (sort : NumSort) (term : Term)
    (known : ∀ t ∈ entries, t.1 < e.numVars) : ∃ next r,
      (e.mkVar sort term).1.addRow e.numVars entries = .ok (next, r) ∧
        e.mkLinear sort term entries = .ok (next, e.numVars) := by
  have numVars : (e.mkVar sort term).1.numVars = e.numVars + 1 :=
    numVars_withVar e.toState ⟨sort, term⟩
  have tableau : (e.mkVar sort term).1.tableau = e.tableau := rfl
  have answered : (e.mkVar sort term).2 = e.numVars := rfl
  have all : entries.forM (fun t => e.requireVar t.1) = .ok () :=
    forM_eq_ok.2 fun t member => requireVar_eq_ok.2 (known t member)
  rw [Engine.mkLinear, all]
  generalize e.mkVar sort term = made at numVars tableau answered ⊢
  obtain ⟨added, v⟩ := made
  subst answered
  have fresh : added.tableau.isFresh e.numVars = true := by
    refine Tableau.isFresh_iff.2 fun r row found => ?_
    rw [tableau] at found
    refine ⟨Nat.ne_of_lt (formed.tableau.base_lt found), not_not.1 fun occurs => ?_⟩
    exact absurd (formed.tableau.var_lt found occurs) (Nat.lt_irrefl _)
  have later (t : Var × Rat) (member : t ∈ entries) : t.1 < added.numVars :=
    numVars ▸ Nat.lt_succ_of_lt (known t member)
  have ok := addRow_eq_ok (numVars ▸ Nat.lt_succ_self _)
    (requireEntries_eq_ok later fun t member => Nat.ne_of_lt (known t member)) fresh
  refine ⟨_, _, ok, ?_⟩
  show (added.addRow e.numVars entries >>= fun result => _) = _
  rw [ok]
  rfl

theorem exists_assertGiven (lt : v < e.numVars) (kind : BoundKind) (value : InfRat) :
    ∃ next, e.assertGiven v kind value = .ok next := by
  rw [Engine.assertGiven, requireVar_eq_ok.2 lt]
  exact ⟨_, rfl⟩

theorem mkAtom_eq (lt : v < e.numVars) (kind : BoundKind) (threshold : Rat) :
    e.mkAtom v kind threshold = .ok (e.internAtom v kind threshold) := by
  rw [Engine.mkAtom, requireVar_eq_ok.2 lt]
  rfl

theorem exists_mkMonomial {factors : List Var} (enough : 2 ≤ factors.length)
    (known : ∀ v ∈ factors, v < e.numVars) : ∃ next v, e.mkMonomial factors = .ok (next, v) := by
  have all : factors.forM e.requireVar = .ok () :=
    forM_eq_ok.2 fun v member => requireVar_eq_ok.2 (known v member)
  have not_less : ¬factors.length < 2 := Nat.not_lt.2 enough
  rw [Engine.mkMonomial, all]
  simp only [not_less, if_false]
  cases e.monomials.find? fun m => m.factors == factors.mergeSort fun v w => v ≤ w with
  | some m => exact ⟨_, _, rfl⟩
  | none => exact ⟨_, _, rfl⟩

/-! ## Definitions -/

/-- Both bounds of one value fix it. -/
theorem both_iff {value q : Rat} : BoundKind.lower.admits (.ofRat value) (.ofRat q) = true ∧
    BoundKind.upper.admits (.ofRat value) (.ofRat q) = true ↔ q = value := by
  simp only [BoundKind.admits, InfRat.ofRat_le, decide_eq_true_eq]
  exact and_comm.trans le_antisymm_iff.symm

theorem holds_zero_iff {α : Var → Rat} : GivenBound.Holds α ⟨v, .lower, 0⟩ ∧
    GivenBound.Holds α ⟨v, .upper, 0⟩ ↔ α v = 0 :=
  both_iff

/-- The difference of both sides. -/
theorem combine_difference (entries : List (Var × Rat)) (base : Var) (α : Var → Rat) :
    (LinearForm.ofEntries (entries ++ [(base, -1)])).combine α =
      (LinearForm.ofEntries entries).combine α - α base := by
  rw [LinearForm.combine_ofEntries, LinearForm.combine_ofEntries]
  simp [sub_eq_add_neg]

/-- What fixing a new slack to zero comes to: calls that succeed, and their demand on the variables
together with the slack. -/
structure Slacks (e : Engine) (h : History) (base : Var) (entries : List (Var × Rat))
    (withRow lower last : Engine) : Prop where
  made : e.mkLinear .real .internal (entries ++ [(base, -1)]) = .ok (withRow, e.numVars)
  lower_ok : withRow.assertGiven e.numVars .lower 0 = .ok lower
  upper_ok : lower.assertGiven e.numVars .upper 0 = .ok last
  demands : Demands (e.numVars + 1) (e.mkVar .real .internal).1 h last h fun α =>
    α e.numVars = (LinearForm.ofEntries entries).combine α - α base ∧ α e.numVars = 0

/-- Fixing a slack for a row to zero succeeds, even if the base of the row occurs elsewhere. -/
theorem exists_slacks (posed : e.Posed h) (base_lt : base < e.numVars)
    (known : ∀ t ∈ entries, t.1 < e.numVars) :
    ∃ withRow lower last, Slacks e h base entries withRow lower last := by
  have all_known : ∀ t ∈ entries ++ [(base, -1)], t.1 < e.numVars :=
    List.forall_mem_append.2 ⟨known, List.forall_mem_singleton.2 base_lt⟩
  obtain ⟨withRow, r, added, made⟩ :=
    mkLinear_eq posed.ready.invariant.founded.formed .real .internal all_known
  obtain ⟨var_posed, numVars, -⟩ := posed.mkVar .real .internal
  have row := var_posed.addRow added
  rw [numVars] at row
  have enough := numVars.ge.trans row.numVars
  obtain ⟨lower, lower_ok⟩ := exists_assertGiven enough .lower 0
  have first := row.posed.assertGiven lower_ok
  obtain ⟨last, upper_ok⟩ := exists_assertGiven (Nat.lt_of_lt_of_le enough first.numVars) .upper 0
  have second := first.posed.assertGiven upper_ok
  have bounded (kind : BoundKind) :
      Local (e.numVars + 1) (GivenBound.Holds · ⟨e.numVars, kind, 0⟩) := by
    intro α β agree holds
    rw [GivenBound.Holds, agree _ (Nat.lt_succ_self _)]
    exact holds
  have fixed := (row.trans (first.lower enough (bounded .lower))).trans
    (second.lower (enough.trans first.numVars) (bounded .upper))
  refine ⟨withRow, lower, last, made, lower_ok, upper_ok, fixed.congr fun α => ?_⟩
  rw [and_assoc, combine_difference, holds_zero_iff]

/-- A slack for the difference of both sides that is fixed to zero demands the equation. -/
theorem Slacks.equation {withRow lower last : Engine} (slacks : Slacks e h base entries withRow lower last)
    (posed : e.Posed h) (base_lt : base < e.numVars) (known : ∀ t ∈ entries, t.1 < e.numVars) :
    Demands e.numVars e h last h fun α => α base = (LinearForm.ofEntries entries).combine α := by
  obtain ⟨var_posed, numVars, asks⟩ := posed.mkVar .real .internal
  have bounded := local_row base_lt known
  refine slacks.demands.hide (numVars ▸ Nat.le_succ _) (Nat.le_succ _)
    (fun α allows ⟨row, zero⟩ => ?_) bounded fun α allows holds => ?_
  · rw [← numVars] at allows
    rw [row, sub_eq_zero] at zero
    exact ⟨((asks α).1 (var_posed.allows_iff.1 allows)).1.allows _, zero.symm⟩
  · have agree (v : Var) (lt : v < e.numVars) : Function.update α e.numVars 0 v = α v :=
      Function.update_of_ne (Nat.ne_of_lt lt) _ _
    have zero : Function.update α e.numVars 0 e.numVars = (0 : Rat) := Function.update_self _ _ _
    have fulfils := posed.allows_iff.1 (allows.congr agree)
    refine ⟨Function.update α e.numVars 0, ((asks _).2 ⟨fulfils, fun is_int => ?_⟩).allows _,
      ⟨?_, zero⟩, agree⟩
    · cases is_int
    · rw [zero, bounded α _ agree holds, sub_self]

/-- A definition demands its equation, whichever way it is encoded. -/
theorem demands_define {s : Session} (posed : s.engine.Posed s.history)
    (base_lt : base < s.engine.numVars) (known : ∀ t ∈ entries, t.1 < s.engine.numVars) :
    Snapshot.define s.engine base entries = .ok (s.define base entries).engine ∧
      Demands s.engine.numVars s.engine s.history (s.define base entries).engine
        (s.define base entries).history
        fun α => α base = (LinearForm.ofEntries entries).combine α := by
  rcases addRow_eq base_lt known with ⟨next, r, ok⟩ | failed
  · rw [Snapshot.define, Session.define, ok, Session.perform, ok]
    exact ⟨rfl, posed.addRow ok⟩
  · obtain ⟨withRow, lower, last, slacks⟩ := exists_slacks posed base_lt known
    have performed : s.define base entries = ⟨last, s.history⟩ := by
      rw [Session.define, failed]
      simp only [Session.run, List.foldl_cons, List.foldl_nil, Session.perform, Session.attempt,
        slacks.made, slacks.lower_ok, slacks.upper_ok, id]
    rw [performed, Snapshot.define, failed]
    refine ⟨?_, slacks.equation posed base_lt known⟩
    simp only [slacks.made, slacks.lower_ok, slacks.upper_ok, bind, Except.bind]

/-! ## Bounds -/

/-- A strict bound is the negation of the opposite one. -/
theorem limits_iff (kind : BoundKind) (value : Rat) (strict : Bool) (q : Rat) :
    kind.Limits value strict q ↔
      (if strict then kind.opposite else kind).admits (.ofRat value) (.ofRat q) = !strict := by
  cases kind <;> cases strict <;>
    simp [BoundKind.Limits, BoundKind.opposite, BoundKind.admits, InfRat.ofRat_le]

/-- Both ways of asserting a bound ask for an atom and assert one of its literals. -/
theorem assertBound_eq (lt : v < e.numVars) (kind : BoundKind) (value : Rat) (strict : Bool) :
    Snapshot.assertBound e v kind value strict =
      let side := if strict then kind.opposite else kind
      let asked := e.internAtom v side value
      asked.1.assertLiteral (if strict then asked.2.negate else asked.2) := by
  cases strict <;> simp [Snapshot.assertBound, mkAtom_eq lt, bind, Except.bind]

/-- A bound demands what it says. -/
theorem demands_assertBound {s : Session} (posed : s.engine.Posed s.history)
    (lt : v < s.engine.numVars) (kind : BoundKind) (value : Rat) (strict : Bool) :
    Snapshot.assertBound s.engine v kind value strict =
        .ok (s.assertBound v kind value strict).engine ∧
      Demands s.engine.numVars s.engine s.history (s.assertBound v kind value strict).engine
        (s.assertBound v kind value strict).history
        fun α => kind.Limits value strict (α v) := by
  rw [assertBound_eq lt, Session.assertBound]
  generalize side_eq : (if strict then kind.opposite else kind) = side
  obtain ⟨next, l, asked⟩ := posed.exists_asked lt side value
  have sign : (if strict then l.negate else l) = .ofSign l.atom !strict := by
    cases strict
    · exact asked.states.eq_ofSign
    · exact congrArg Literal.negate asked.states.eq_ofSign
  obtain ⟨last, ok, asserted⟩ :=
    asked.demands.posed.assertSign asked.states lt asked.demands.numVars !strict
  simp only [Session.run, List.foldl_cons, List.foldl_nil, Session.perform, Session.attempt,
    mkAtom_eq lt, asked.made, sign, ok, id]
  refine ⟨trivial, (asked.demands.trans asserted).congr fun α => ?_⟩
  rw [limits_iff, side_eq, true_and]

/-- A value demands itself. -/
theorem demands_assertEq (posed : e.Posed h) (lt : v < e.numVars) (value : Rat) :
    ∃ next lower upper, e.assertEq v value = .ok (next, lower, upper) ∧
      Demands e.numVars e h next ((h.assert lower).assert upper) fun α => α v = value := by
  obtain ⟨one, lower, first⟩ := posed.exists_asked lt .lower value
  have lt' := Nat.lt_of_lt_of_le lt first.demands.numVars
  obtain ⟨two, upper, second⟩ := first.demands.posed.exists_asked lt' .upper value
  have asked := first.demands.trans
    (second.demands.lower first.demands.numVars fun _ _ _ => id)
  obtain ⟨three, lower_ok, lower_holds⟩ :=
    asked.posed.assertSign (second.grows.states first.states) lt asked.numVars true
  rw [← first.states.eq_ofSign] at lower_ok lower_holds
  have grows := (asked.posed.ready.assertLiteral lower_ok).grows
  obtain ⟨last, upper_ok, upper_holds⟩ := lower_holds.posed.assertSign
    (grows.states second.states) lt (asked.numVars.trans lower_holds.numVars) true
  rw [← second.states.eq_ofSign] at upper_ok upper_holds
  refine ⟨last, lower, upper, ?_, ((asked.trans lower_holds).trans upper_holds).congr fun α => ?_⟩
  · simp only [Engine.assertEq, mkAtom_eq lt, first.made, mkAtom_eq lt', second.made, lower_ok,
      upper_ok, bind, Except.bind, pure, Except.pure]
  · rw [← both_iff]
    simp only [true_and]

end Engine

end ArithDecide
