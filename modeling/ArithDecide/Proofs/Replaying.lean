import Mathlib
import ArithDecide.Proofs.Loading

/-!
# What a loaded snapshot means

A snapshot can be loaded exactly if it declares no name twice, is about declared variables only and has
no product of fewer than two factors (`Snapshot.Loadable`). The values of the declared variables that
satisfy it are those that extend to a solution of the engine it was loaded into
(`Snapshot.holds_iff_fulfils`), however often a variable is defined and in whichever order.
-/

namespace ArithDecide

/-- A snapshot that can be loaded. -/
structure Snapshot.Loadable (s : Snapshot) : Prop where
  names : (s.declarations.map Declaration.name).Nodup
  declared : ∀ a ∈ s.assertions, ∀ name ∈ a.names, ∃ d ∈ s.declarations, d.name = name
  products : ∀ var factors, .product var factors ∈ s.assertions → 2 ≤ factors.length

namespace Assertion

/-- Whether the assertion is one of those that are loaded first. -/
def isProduct : Assertion → Bool
  | product _ _ => true
  | _ => false

/-- Every product has at least two factors. -/
def Multiplies : Assertion → Prop
  | product _ factors => 2 ≤ factors.length
  | _ => True

/-- Whether an assertion holds depends on the values of the names that it mentions. -/
theorem holds_congr {β γ : String → Rat} {a : Assertion} (same : ∀ name ∈ a.names, γ name = β name)
    (holds : a.Holds β) : a.Holds γ := by
  cases a with
  | row base terms =>
    obtain ⟨at_base, at_terms⟩ := List.forall_mem_cons.1 same
    refine (at_base.trans holds).trans (congrArg total (List.map_congr_left fun t member => ?_))
    rw [at_terms t.2 (List.mem_map_of_mem member)]
  | product var factors =>
    obtain ⟨at_var, at_factors⟩ := List.forall_mem_cons.1 same
    refine (at_var.trans holds).trans (congrArg List.prod (List.map_congr_left fun name member => ?_))
    exact (at_factors name member).symm
  | fixed var value => exact (List.forall_mem_singleton.1 same).trans holds
  | lower var value strict =>
    rw [Holds, List.forall_mem_singleton.1 same]
    exact holds
  | upper var value strict =>
    rw [Holds, List.forall_mem_singleton.1 same]
    exact holds

end Assertion

namespace Engine

open State

variable {e next : Engine} {h k : History} {n : Nat} {declared : Declared} {a : Assertion} {s : Session}

/-! ## Assertions -/

/-- A step of loading succeeds, and demands this of the first `n` variables. -/
structure Loads (n : Nat) (s : Session) (loaded : Loaded Unit) (next : Session)
    (demand : (Var → Rat) → Prop) : Prop where
  succeeds : loaded = ⟨next.engine, .ok ()⟩
  demands : Demands n s.engine s.history next.engine next.history demand

/-- A step that leaves an assertion to the other round. -/
theorem Loads.wait (posed : s.engine.Posed s.history) (n : Nat) {now : Prop}
    {demand : (Var → Rat) → Prop} (later : ¬now) :
    Loads n s ⟨s.engine, .ok ()⟩ s fun α => now → demand α :=
  ⟨rfl, (Demands.refl posed n).congr fun _ => iff_of_true trivial fun here => absurd here later⟩

/-- What an assertion says depends on the variables it mentions. -/
theorem local_holds (known : ∀ name ∈ a.names, declared.Knows n name) :
    Local n fun α => a.Holds (declared.read α) := by
  intro α β agree holds
  exact a.holds_congr (fun name member => agree _ (known name member).2) holds

/-- A step that demands what its assertion says demands so of the declared variables. -/
theorem Loads.now {loaded : Loaded Unit} {next : Session} {now : Prop} (le : n ≤ s.engine.numVars)
    (known : ∀ name ∈ a.names, declared.Knows n name) (here : now)
    (loads : Loads s.engine.numVars s loaded next fun α => a.Holds (declared.read α)) :
    Loads n s loaded next fun α => now → a.Holds (declared.read α) :=
  ⟨loads.succeeds, (loads.demands.lower le (local_holds known)).congr fun _ =>
    ⟨fun holds _ => holds, fun holds => holds here⟩⟩

/-- A variable defined as a product is the product of the variables, whichever variable the engine has
for the product itself. -/
theorem loads_defineProduct {var : String} {factors : List String} (posed : s.engine.Posed s.history)
    (known : ∀ name ∈ (Assertion.product var factors).names, declared.Knows s.engine.numVars name)
    (enough : 2 ≤ factors.length) :
    Loads s.engine.numVars s (Snapshot.defineProduct s.engine declared var factors)
      (s.loadProduct declared (.product var factors))
      fun α => (Assertion.product var factors).Holds (declared.read α) := by
  have bounded := local_holds known
  obtain ⟨⟨found, lt⟩, others⟩ := List.forall_mem_cons.1 known
  have places := mapM_eq_ok fun name member => (others name member).1
  have places_lt : ∀ v ∈ factors.map declared.place, v < s.engine.numVars :=
    List.forall_mem_map.2 fun name member => (others name member).2
  obtain ⟨next, m, made⟩ := exists_mkMonomial (List.length_map declared.place ▸ enough) places_lt
  obtain ⟨first, m_lt, is_product⟩ := posed.mkMonomial made
  have single : ∀ t ∈ [(m, (1 : Rat))], t.1 < next.numVars := List.forall_mem_singleton.2 m_lt
  obtain ⟨defined, second⟩ := demands_define (s := ⟨next, s.history⟩) first.posed
    (Nat.lt_of_lt_of_le lt first.numVars) single
  have performed : s.loadProduct declared (.product var factors) =
      (⟨next, s.history⟩ : Session).define (declared.place var) [(m, 1)] := by
    rw [Session.loadProduct, made, Session.perform, made]
    rfl
  have product {α : Var → Rat} (fulfils : next.Fulfils s.history α) :
      (LinearForm.ofEntries [(m, 1)]).combine α = (factors.map (declared.read α)).prod := by
    rw [LinearForm.combine_ofEntries, List.map_singleton, List.sum_singleton, one_smul,
      is_product α fulfils.solves, List.map_map]
    rfl
  rw [performed]
  refine ⟨?_, second.hide first.numVars first.numVars (fun α allows holds => ?_) bounded
    fun α allows holds => ?_⟩
  · have looked : (do return (← Snapshot.lookup declared var,
        ← factors.mapM (Snapshot.lookup declared)) : Except LoadError (Var × List Var)) =
          .ok (declared.place var, factors.map declared.place) := by
      rw [found, places]
      rfl
    rw [Snapshot.defineProduct, looked]
    simp only [made, defined]
    rfl
  · have fulfils := first.posed.allows_iff.1 allows
    exact ⟨((first.allows α).1 (fulfils.allows _)).1, holds.trans (product fulfils)⟩
  · obtain ⟨γ, later, agree⟩ := (first.allows α).2 ⟨allows, trivial⟩
    exact ⟨γ, later.allows _, (bounded α γ agree holds).trans (product later).symm, agree⟩

theorem knows_mono {m : Nat} (le : n ≤ m) (known : ∀ name ∈ a.names, declared.Knows n name) :
    ∀ name ∈ a.names, declared.Knows m name := fun name member =>
  ⟨(known name member).1, Nat.lt_of_lt_of_le (known name member).2 le⟩

/-- A product demands what it says. -/
theorem loads_loadProduct (posed : s.engine.Posed s.history) (le : n ≤ s.engine.numVars)
    (known : ∀ name ∈ a.names, declared.Knows n name) (multiplies : a.Multiplies) :
    Loads n s (Snapshot.loadProduct declared s.engine a) (s.loadProduct declared a)
      fun α => a.isProduct = true → a.Holds (declared.read α) := by
  cases a with
  | product var factors =>
    exact .now le known rfl (loads_defineProduct posed (knows_mono le known) multiplies)
  | row _ _ | fixed _ _ | lower _ _ _ | upper _ _ _ => exact .wait posed n Bool.false_ne_true

theorem lookup_terms {terms : List (Rat × String)}
    (known : ∀ name ∈ terms.map Prod.snd, declared.Knows n name) :
    (terms.mapM fun t => do return (← Snapshot.lookup declared t.2, t.1)) =
      Except.ok (terms.map fun t => (declared.place t.2, t.1)) :=
  mapM_eq_ok fun t member => by
    rw [(known t.2 (List.mem_map_of_mem member)).1]
    rfl

/-- A row is stated for the variables as it is for their names. -/
theorem combine_places (declared : Declared) (terms : List (Rat × String)) (α : Var → Rat) :
    (LinearForm.ofEntries (terms.map fun t => (declared.place t.2, t.1))).combine α =
      total (terms.map fun t => t.1 * declared.read α t.2) := by
  rw [LinearForm.combine_ofEntries, total_eq_sum, List.map_map]
  rfl

/-- A row demands what it says. -/
theorem loads_row {base : String} {terms : List (Rat × String)} (posed : s.engine.Posed s.history)
    (known : ∀ name ∈ (Assertion.row base terms).names, declared.Knows s.engine.numVars name) :
    Loads s.engine.numVars s (Snapshot.loadLinear declared s.engine (.row base terms))
      (s.loadLinear declared (.row base terms))
      fun α => (Assertion.row base terms).Holds (declared.read α) := by
  obtain ⟨⟨found, lt⟩, others⟩ := List.forall_mem_cons.1 known
  have entries_lt : ∀ t ∈ terms.map fun t => (declared.place t.2, t.1), t.1 < s.engine.numVars :=
    List.forall_mem_map.2 fun t member => (others t.2 (List.mem_map_of_mem member)).2
  obtain ⟨loaded, demands⟩ := demands_define posed lt entries_lt
  refine ⟨?_, demands.congr fun α => ?_⟩
  · rw [Snapshot.loadLinear, found]
    show Snapshot.attempt _ (terms.mapM _ >>= _) = _
    rw [lookup_terms others]
    show Snapshot.attempt _ (Snapshot.ofEngine (Snapshot.define _ _ _)) = _
    rw [loaded]
    rfl
  · rw [combine_places]
    rfl

/-- A bound of either kind demands itself. -/
theorem loads_bound {var : String} (posed : s.engine.Posed s.history)
    (found : Snapshot.lookup declared var = .ok (declared.place var))
    (lt : declared.place var < s.engine.numVars) (kind : BoundKind) (value : Rat) (strict : Bool) :
    Loads s.engine.numVars s
      (Snapshot.attempt s.engine do
        let v ← Snapshot.lookup declared var
        Snapshot.ofEngine (Snapshot.assertBound s.engine v kind value strict))
      (s.assertBound (declared.place var) kind value strict)
      fun α => kind.Limits value strict (declared.read α var) := by
  obtain ⟨loaded, demands⟩ := demands_assertBound posed lt kind value strict
  refine ⟨?_, demands⟩
  rw [found]
  show Snapshot.attempt _ (Snapshot.ofEngine (Snapshot.assertBound _ _ _ _ _)) = _
  rw [loaded]
  rfl

/-- An assertion other than a product demands what it says. -/
theorem loads_loadLinear (posed : s.engine.Posed s.history) (le : n ≤ s.engine.numVars)
    (known : ∀ name ∈ a.names, declared.Knows n name) :
    Loads n s (Snapshot.loadLinear declared s.engine a) (s.loadLinear declared a)
      fun α => a.isProduct = false → a.Holds (declared.read α) := by
  cases a with
  | product var factors => exact .wait posed n fun same => Bool.noConfusion same
  | row base terms => exact .now le known rfl (loads_row posed (knows_mono le known))
  | fixed var value =>
    obtain ⟨found, lt⟩ := List.forall_mem_singleton.1 known
    obtain ⟨next, lower, upper, ok, demands⟩ :=
      demands_assertEq posed (Nat.lt_of_lt_of_le lt le) value
    rw [Snapshot.loadLinear, found, Session.loadLinear, Session.perform, ok]
    refine .now le known rfl ⟨?_, demands⟩
    show Snapshot.attempt _ (Snapshot.ofEngine (Engine.assertEq _ _ _) >>= _) = _
    rw [ok]
    rfl
  | lower var value strict =>
    obtain ⟨found, lt⟩ := List.forall_mem_singleton.1 known
    exact .now le known rfl (loads_bound posed found (Nat.lt_of_lt_of_le lt le) .lower value strict)
  | upper var value strict =>
    obtain ⟨found, lt⟩ := List.forall_mem_singleton.1 known
    exact .now le known rfl (loads_bound posed found (Nat.lt_of_lt_of_le lt le) .upper value strict)

/-- Steps for each assertion in turn demand what each of them does. -/
theorem loads_loadEach {step : Engine → Assertion → Loaded Unit}
    {perform : Session → Assertion → Session} {demand : Assertion → (Var → Rat) → Prop}
    {items : List Assertion}
    (each : ∀ (s : Session), ∀ a ∈ items, s.engine.Posed s.history → n ≤ s.engine.numVars →
      Loads n s (step s.engine a) (perform s a) (demand a))
    (posed : s.engine.Posed s.history) (le : n ≤ s.engine.numVars) :
    Loads n s (Snapshot.loadEach step s.engine items) (items.foldl perform s)
      fun α => ∀ a ∈ items, demand a α := by
  induction items generalizing s with
  | nil =>
    refine ⟨rfl, (Demands.refl posed n).congr fun α => ?_⟩
    exact ⟨fun _ a member => absurd member List.not_mem_nil, fun _ => trivial⟩
  | cons a rest ih =>
    have first := each s a List.mem_cons_self posed le
    have second := ih (fun s a member => each s a (List.mem_cons_of_mem _ member))
      first.demands.posed (le.trans first.demands.numVars)
    rw [Snapshot.loadEach, first.succeeds]
    refine ⟨second.succeeds, (first.demands.trans second.demands).congr fun α => ?_⟩
    rw [List.forall_mem_cons]

/-! ## Declarations -/

/-- What declaring a variable of a new name comes to. -/
structure Declares (s : Session) (declared : Declared) (d : Declaration) (next : Session) : Prop where
  performed : s.run [.mkVar d.sort (.external declared.length), .setName s.engine.numVars d.name] = next
  loaded : ∀ rest, Snapshot.declareAll declared s.engine (d :: rest) =
    Snapshot.declareAll ((d.name, s.engine.numVars) :: declared) next.engine rest
  posed : next.engine.Posed next.history
  numVars : next.engine.numVars = s.engine.numVars + 1
  fulfils : ∀ α, next.engine.Fulfils next.history α ↔
    s.engine.Fulfils s.history α ∧ (d.sort = .int → ∃ n : Int, α s.engine.numVars = n)

/-- A variable of a new name can always be declared. -/
theorem exists_declares (posed : s.engine.Posed s.history) {d : Declaration}
    (fresh : List.lookup d.name declared = none) : ∃ next, Declares s declared d next := by
  obtain ⟨made, numVars, asks⟩ := posed.mkVar d.sort (.external declared.length)
  have performed : s.run [.mkVar d.sort (.external declared.length),
      .setName s.engine.numVars d.name] =
        Session.attempt ⟨(s.engine.mkVar d.sort (.external declared.length)).1, s.history⟩
          ((s.engine.mkVar d.sort (.external declared.length)).1.setName s.engine.numVars d.name) id
          fun _ => id := rfl
  have loaded (rest : List Declaration) : Snapshot.declareAll declared s.engine (d :: rest) =
      Snapshot.declareAll ((d.name, s.engine.numVars) :: declared)
        { (s.engine.mkVar d.sort (.external declared.length)).1 with
          names := (s.engine.mkVar d.sort (.external declared.length)).1.names.assign
            s.engine.numVars d.name } rest := by
    rw [Snapshot.declareAll]
    simp only [fresh]
    rfl
  generalize (s.engine.mkVar d.sort (.external declared.length)).1 = added at *
  have known : added.requireVar s.engine.numVars = .ok () :=
    requireVar_eq_ok.2 (numVars ▸ Nat.lt_succ_self _)
  have named : added.setName s.engine.numVars d.name =
      .ok { added with names := added.names.assign s.engine.numVars d.name } := by
    rw [Engine.setName, known]
    rfl
  rw [named] at performed
  exact ⟨_, performed, loaded, ⟨(made.ready.setName named).ready, made.opposed⟩, numVars, asks⟩

/-- Declaring variables of new names adds them one after the other, and demands integers for those of
integer sort. -/
theorem declared_declareAll (posed : s.engine.Posed s.history) (declared : Declared)
    (ds : List Declaration) (names : (ds.map Declaration.name).Nodup)
    (fresh : ∀ d ∈ ds, List.lookup d.name declared = none) :
    Snapshot.declareAll declared s.engine ds = ⟨(s.declareAll declared.length ds).engine,
        .ok ((Snapshot.places ds s.engine.numVars).reverse ++ declared)⟩ ∧
      (s.declareAll declared.length ds).engine.Posed (s.declareAll declared.length ds).history ∧
      (s.declareAll declared.length ds).engine.numVars = s.engine.numVars + ds.length ∧
      ∀ α, (s.declareAll declared.length ds).engine.Fulfils
          (s.declareAll declared.length ds).history α ↔
        s.engine.Fulfils s.history α ∧ ∀ p ∈ ds.zipIdx s.engine.numVars, p.1.sort = .int →
          ∃ n : Int, α p.2 = n := by
  induction ds generalizing s declared with
  | nil => exact ⟨rfl, posed, rfl, fun α => by simp [Session.declareAll]⟩
  | cons d rest ih =>
    obtain ⟨next, declares⟩ := exists_declares posed (fresh d List.mem_cons_self)
    obtain ⟨apart, names⟩ := List.nodup_cons.1 names
    have later : ∀ d' ∈ rest, List.lookup d'.name ((d.name, s.engine.numVars) :: declared) = none := by
      intro d' member
      have differs : (d'.name == d.name) = false :=
        beq_false_of_ne fun same => apart (same ▸ List.mem_map_of_mem member)
      rw [List.lookup_cons, differs]
      exact fresh d' (List.mem_cons_of_mem _ member)
    obtain ⟨loaded, last_posed, numVars, fulfils⟩ := ih declares.posed _ names later
    rw [Session.declareAll, declares.performed, declares.loaded, loaded]
    refine ⟨?_, last_posed, ?_, fun α => ?_⟩
    · rw [declares.numVars, Snapshot.places, Snapshot.places, List.zipIdx_cons]
      simp
    · rw [List.length_cons] at numVars
      rw [numVars, declares.numVars, List.length_cons]
      omega
    · rw [List.length_cons] at fulfils
      rw [fulfils, declares.fulfils, declares.numVars, List.zipIdx_cons, List.forall_mem_cons, and_assoc]

/-! ## Loading -/

theorem mem_of_lookup {name : String} {v : Var} (found : List.lookup name declared = some v) :
    (name, v) ∈ declared := by
  obtain ⟨before, after, rfl, -⟩ := List.lookup_eq_some_iff.1 found
  exact List.mem_append_right _ List.mem_cons_self

theorem knows_of_mem {p : String × Var} (lt : ∀ q ∈ declared, q.2 < n) (member : p ∈ declared) :
    declared.Knows n p.1 := by
  obtain ⟨v, found⟩ := Option.isSome_iff_exists.1
    (List.lookup_isSome_iff.2 ⟨p, member, beq_self_eq_true p.1⟩)
  rw [Declared.Knows, Snapshot.lookup, Declared.place, found]
  exact ⟨rfl, lt _ (mem_of_lookup found)⟩

/-- The places of declarations are the variables that follow each other from the first one on. -/
theorem mem_places_iff {ds : List Declaration} {first : Var} {p : String × Var} :
    p ∈ Snapshot.places ds first ↔ ∃ d, (d, p.2) ∈ ds.zipIdx first ∧ d.name = p.1 := by
  rw [Snapshot.places, List.mem_map]
  constructor
  · rintro ⟨⟨d, i⟩, member, rfl⟩
    exact ⟨d, member, rfl⟩
  · rintro ⟨d, member, same⟩
    exact ⟨(d, p.2), member, Prod.ext same rfl⟩

theorem exists_mem_zipIdx {ds : List Declaration} {d : Declaration} (member : d ∈ ds) (first : Var) :
    ∃ v, (d, v) ∈ ds.zipIdx first := by
  obtain ⟨i, lt, rfl⟩ := List.mem_iff_getElem.1 member
  refine ⟨first + i, List.mem_zipIdx_iff_le_and_getElem?_sub.2 ⟨Nat.le_add_right _ _, ?_⟩⟩
  rw [Nat.add_sub_cancel_left, List.getElem?_eq_getElem lt]

theorem knows_places {ds : List Declaration} {name : String} (declared : ∃ d ∈ ds, d.name = name)
    (first : Var) : Declared.Knows (Snapshot.places ds first).reverse (first + ds.length) name := by
  obtain ⟨d, member, rfl⟩ := declared
  obtain ⟨v, listed⟩ := exists_mem_zipIdx member first
  refine knows_of_mem (p := (d.name, v)) (fun q in_places => ?_)
    (List.mem_reverse.2 (mem_places_iff.2 ⟨d, listed, rfl⟩))
  obtain ⟨other, at_place, -⟩ := mem_places_iff.1 (List.mem_reverse.1 in_places)
  exact (List.mem_zipIdx at_place).2.1

/-- Loading a snapshot that can be loaded demands what it says. -/
theorem demands_load {snapshot : Snapshot} (posed : s.engine.Posed s.history)
    (loadable : snapshot.Loadable) :
    snapshot.load s.engine =
        ⟨(s.load snapshot).engine, .ok (Snapshot.places snapshot.declarations s.engine.numVars)⟩ ∧
      ∀ α, (s.load snapshot).engine.Allows (s.load snapshot).history
          (s.engine.numVars + snapshot.declarations.length) α ↔
        (s.engine.Fulfils s.history α ∧
          ∀ p ∈ snapshot.declarations.zipIdx s.engine.numVars, p.1.sort = .int →
            ∃ n : Int, α p.2 = n) ∧
          ∀ a ∈ snapshot.assertions,
            a.Holds (Declared.read (Snapshot.places snapshot.declarations s.engine.numVars).reverse α) := by
  have known (a : Assertion) (member : a ∈ snapshot.assertions) (name : String)
      (mentioned : name ∈ a.names) :=
    knows_places (loadable.declared a member name mentioned) s.engine.numVars
  have multiplies (a : Assertion) (member : a ∈ snapshot.assertions) : a.Multiplies := by
    cases a with
    | product var factors => exact loadable.products var factors member
    | row _ _ | fixed _ _ | lower _ _ _ | upper _ _ _ => trivial
  obtain ⟨declared, ready, numVars, fulfils⟩ := declared_declareAll posed []
    snapshot.declarations loadable.names fun _ _ => rfl
  rw [List.append_nil] at declared
  obtain ⟨products, first⟩ := loads_loadEach
    (fun s a member posed le => loads_loadProduct posed le (known a member) (multiplies a member))
    ready numVars.ge
  obtain ⟨others, second⟩ := loads_loadEach
    (fun s a member posed le => loads_loadLinear posed le (known a member)) first.posed
    (numVars.ge.trans first.numVars)
  have split (holds : Assertion → Prop) : (∀ a ∈ snapshot.assertions, holds a) ↔
      (∀ a ∈ snapshot.assertions, a.isProduct = true → holds a) ∧
        ∀ a ∈ snapshot.assertions, a.isProduct = false → holds a := by
    refine ⟨fun all => ⟨fun a member _ => all a member, fun a member _ => all a member⟩,
      fun both a member => ?_⟩
    cases product : a.isProduct with
    | true => exact both.1 a member product
    | false => exact both.2 a member product
  rw [Session.load]
  refine ⟨?_, fun α => ?_⟩
  · rw [List.length_nil] at declared products others
    simp only [Snapshot.load, declared, products, others, Except.map, List.reverse_reverse]
  · rw [split, ← and_assoc, ← fulfils, ← ready.allows_iff, numVars]
    exact (second.allows α).trans (and_congr_left fun _ => first.allows α)

end Engine

namespace Snapshot

variable {s : Snapshot} {declared last : Declared} {e : Engine} {a : Assertion} {options : Options}

/-! ## What can be loaded -/

theorem mem_of_lookup_eq_ok {name : String} {v : Var} (ok : lookup declared name = .ok v) :
    (name, v) ∈ declared := by
  rw [lookup] at ok
  split at ok
  · rename_i w found
    obtain rfl := Except.ok.inj ok
    exact Engine.mem_of_lookup found
  · cases ok

theorem lookup_eq_ok {name : String} {v : Var} (ok : lookup declared name = .ok v) :
    ∃ p ∈ declared, p.1 = name :=
  ⟨(name, v), mem_of_lookup_eq_ok ok, rfl⟩

theorem attempt_eq_ok {step : Except LoadError Engine} (ok : (attempt e step).result = .ok ()) :
    ∃ next, step = .ok next := by
  cases step with
  | ok next => exact ⟨next, rfl⟩
  | error _ => cases ok

/-- What is declared in the end was declared before or is new. -/
theorem of_declareAll {ds : List Declaration} (ok : (declareAll declared e ds).result = .ok last) :
    (ds.map Declaration.name).Nodup ∧ (∀ d ∈ ds, List.lookup d.name declared = none) ∧
      ∀ p ∈ last, p ∈ declared ∨ ∃ d ∈ ds, d.name = p.1 := by
  induction ds generalizing declared e with
  | nil =>
    obtain rfl := Except.ok.inj ok
    exact ⟨List.nodup_nil, fun _ member => absurd member List.not_mem_nil, fun _ => .inl⟩
  | cons d rest ih =>
    cases fresh : List.lookup d.name declared with
    | some _ =>
      simp only [declareAll, fresh] at ok
      cases ok
    | none =>
      simp only [declareAll, fresh] at ok
      obtain ⟨names, apart, listed⟩ := ih ok
      have differs (d' : Declaration) (member : d' ∈ rest) :
          (d'.name == d.name) = false ∧ List.lookup d'.name declared = none := by
        have free := apart d' member
        rw [List.lookup_cons] at free
        split at free
        · cases free
        · rename_i other
          exact ⟨other, free⟩
      refine ⟨List.nodup_cons.2 ⟨fun again => ?_, names⟩,
        List.forall_mem_cons.2 ⟨fresh, fun d' member => (differs d' member).2⟩, fun p member => ?_⟩
      · obtain ⟨d', member, same⟩ := List.mem_map.1 again
        exact ne_of_beq_false (differs d' member).1 same
      · rcases listed p member with before | ⟨d', member', same⟩
        · rcases List.mem_cons.1 before with rfl | before
          · exact .inr ⟨d, List.mem_cons_self, rfl⟩
          · exact .inl before
        · exact .inr ⟨d', List.mem_cons_of_mem _ member', same⟩

theorem of_loadEach {step : Engine → Assertion → Loaded Unit} {items : List Assertion}
    (ok : (loadEach step e items).result = .ok ()) : ∀ a ∈ items, ∃ e, (step e a).result = .ok () := by
  induction items generalizing e with
  | nil => exact fun _ member => absurd member List.not_mem_nil
  | cons a rest ih =>
    rw [loadEach] at ok
    split at ok
    · rename_i done
      exact List.forall_mem_cons.2 ⟨⟨e, done⟩, ih ok⟩
    · rename_i failed
      rw [failed] at ok
      cases ok

/-- A product that was loaded has factors, and all its names are declared. -/
theorem of_loadProduct (ok : (loadProduct declared e a).result = .ok ())
    (product : a.isProduct = true) : a.Multiplies ∧ ∀ name ∈ a.names, ∃ p ∈ declared, p.1 = name := by
  cases a with
  | product var factors =>
    rw [loadProduct, defineProduct] at ok
    split at ok
    · cases ok
    · rename_i v vs looked
      obtain ⟨_, found, looked⟩ := bind_eq_ok looked
      obtain ⟨_, places, looked⟩ := bind_eq_ok looked
      obtain ⟨rfl, rfl⟩ := Prod.mk.inj (Except.ok.inj looked)
      obtain ⟨length, each⟩ := of_mapM_eq_ok places
      split at ok
      · cases ok
      · rename_i added m made
        have enough : 2 ≤ factors.length := length ▸ (Engine.of_mkMonomial made).1
        refine ⟨enough,
          List.forall_mem_cons.2 ⟨lookup_eq_ok found, fun name member => ?_⟩⟩
        obtain ⟨_, found⟩ := each name member
        exact lookup_eq_ok found
  | row _ _ | fixed _ _ | lower _ _ _ | upper _ _ _ => cases product

/-- An assertion that was loaded as a linear one has only declared names. -/
theorem of_loadLinear (ok : (loadLinear declared e a).result = .ok ())
    (other : a.isProduct = false) : ∀ name ∈ a.names, ∃ p ∈ declared, p.1 = name := by
  cases a with
  | product var factors => cases other
  | row base terms =>
    obtain ⟨next, step⟩ := attempt_eq_ok ok
    obtain ⟨_, found, step⟩ := bind_eq_ok step
    obtain ⟨_, entries, -⟩ := bind_eq_ok step
    refine List.forall_mem_cons.2 ⟨lookup_eq_ok found, List.forall_mem_map.2 fun t member => ?_⟩
    obtain ⟨_, entry⟩ := (of_mapM_eq_ok entries).2 t member
    obtain ⟨_, found, -⟩ := bind_eq_ok entry
    exact lookup_eq_ok found
  | fixed _ _ | lower _ _ _ | upper _ _ _ =>
    obtain ⟨next, step⟩ := attempt_eq_ok ok
    obtain ⟨_, found, -⟩ := bind_eq_ok step
    exact List.forall_mem_singleton.2 (lookup_eq_ok found)

/-- Whatever was loaded can be loaded. -/
theorem loadable_of_ok {answer : List (String × Var)} (ok : (s.load e).result = .ok answer) :
    s.Loadable := by
  simp only [load] at ok
  split at ok
  · cases ok
  · rename_i last declared
    split at ok
    · cases ok
    · rename_i products
      obtain ⟨_, others, -⟩ := map_eq_ok ok
      obtain ⟨names, -, listed⟩ := of_declareAll declared
      have known {name : String} (found : ∃ p ∈ last, p.1 = name) :
          ∃ d ∈ s.declarations, d.name = name := by
        obtain ⟨p, member, rfl⟩ := found
        exact (listed p member).resolve_left List.not_mem_nil
      have product {a : Assertion} (member : a ∈ s.assertions) (product : a.isProduct = true) :
          a.Multiplies ∧ ∀ name ∈ a.names, ∃ p ∈ last, p.1 = name := by
        obtain ⟨e, done⟩ := of_loadEach products a member
        exact of_loadProduct done product
      refine ⟨names, fun a member name mentioned => known ?_, fun var factors member =>
        (product member rfl).1⟩
      cases kind : a.isProduct with
      | true => exact (product member kind).2 name mentioned
      | false =>
        obtain ⟨e, done⟩ := of_loadEach others a member
        exact of_loadLinear done kind name mentioned

/-! ## Meaning -/

theorem posed_new (options : Options) : (Engine.new options).Posed .start :=
  ⟨Engine.ready_new options, fun _ member => absurd member List.not_mem_nil⟩

/-- A new engine demands nothing. -/
theorem fulfils_new (options : Options) (α : Var → Rat) : (Engine.new options).Fulfils .start α where
  solves :=
    { integral := fun v integer => absurd (Engine.State.isInt_lt integer) (Nat.not_lt_zero v)
      rows := fun r row found => by
        simp [Engine.new, Engine.State.empty, Tableau.empty, Tableau.get?] at found
      monomials := fun _ member => absurd member List.not_mem_nil
      given := fun _ member => absurd member List.not_mem_nil }
  literals _ member := member.elim (fun m => absurd m List.not_mem_nil)
    fun m => absurd m List.not_mem_nil

/-- Loading into a new engine demands what the snapshot says, the declared variables being the first
ones. -/
theorem Loadable.loads (loadable : s.Loadable) (options : Options) :
    s.load (.new options) = ⟨((Session.start options).load s).engine, .ok (places s.declarations 0)⟩ ∧
      ∀ (α : Var → Rat) (β : String → Rat), (∀ p ∈ places s.declarations 0, α p.2 = β p.1) →
        (((Session.start options).load s).engine.Allows ((Session.start options).load s).history
          s.declarations.length α ↔ s.Holds β) := by
  obtain ⟨loaded, means⟩ :=
    Engine.demands_load (s := Session.start options) (posed_new options) loadable
  refine ⟨loaded, fun α β same => ?_⟩
  have numVars : (Session.start options).engine.numVars = 0 := rfl
  rw [numVars, Nat.zero_add] at means
  have reads (a : Assertion) (member : a ∈ s.assertions) (name : String) (mentioned : name ∈ a.names) :
      Declared.read (places s.declarations 0).reverse α name = β name := by
    obtain ⟨found, -⟩ := Engine.knows_places (loadable.declared a member name mentioned) 0
    exact same (name, _) (List.mem_reverse.1 (mem_of_lookup_eq_ok found))
  have placed {d : Declaration} {v : Var} (listed : (d, v) ∈ s.declarations.zipIdx) :
      α v = β d.name :=
    same (d.name, v) (Engine.mem_places_iff.2 ⟨d, listed, rfl⟩)
  rw [means α]
  constructor
  · rintro ⟨⟨-, integral⟩, assertions⟩
    refine ⟨fun d member is_int => ?_, fun a member => ?_⟩
    · obtain ⟨v, listed⟩ := Engine.exists_mem_zipIdx member 0
      exact placed listed ▸ integral (d, v) listed is_int
    · exact a.holds_congr (fun name mentioned => (reads a member name mentioned).symm)
        (assertions a member)
  · rintro ⟨integral, assertions⟩
    refine ⟨⟨fulfils_new options α, fun p listed is_int => ?_⟩, fun a member => ?_⟩
    · exact (placed listed).symm ▸ integral p.1 (List.fst_mem_of_mem_zipIdx listed) is_int
    · exact a.holds_congr (reads a member) (assertions a member)

/-- Values of the declared names are values of the variables that they stand for. -/
theorem exists_placed (ds : List Declaration) (β : String → Rat) :
    ∃ α : Var → Rat, ∀ p ∈ places ds 0, α p.2 = β p.1 := by
  refine ⟨fun v => β ((ds[v]?.map Declaration.name).getD ""), fun p listed => ?_⟩
  obtain ⟨d, at_place, name_eq⟩ := Engine.mem_places_iff.1 listed
  have found : ds[p.2]? = some d := List.mem_zipIdx_iff_getElem?.1 at_place
  simp only [found, Option.map_some, Option.getD_some, name_eq]

/-- The values of the declared variables that satisfy a snapshot are those that can be extended to
solutions of the engine into which it was loaded. -/
theorem holds_iff_fulfils (options : Options) (s : Snapshot) {declared : List (String × Var)}
    (ok : (s.load (.new options)).result = .ok declared) :
    let loaded := (Session.start options).load s
    loaded.engine = (s.load (.new options)).engine ∧
      declared.map Prod.fst = s.declarations.map Declaration.name ∧
      ∀ β : String → Rat, s.Holds β ↔
        ∃ α, loaded.engine.Fulfils loaded.history α ∧ ∀ p ∈ declared, α p.2 = β p.1 := by
  intro loaded
  obtain ⟨load_eq, means⟩ := (loadable_of_ok ok).loads options
  obtain rfl : places s.declarations 0 = declared :=
    Except.ok.inj ((congrArg Loaded.result load_eq).symm.trans ok)
  refine ⟨by rw [load_eq], ?_, fun β => ⟨fun holds => ?_, ?_⟩⟩
  · rw [places, List.map_map]
    conv_rhs => rw [← List.zipIdx_map_fst 0 s.declarations, List.map_map]
    rfl
  · obtain ⟨named, same⟩ := exists_placed s.declarations β
    obtain ⟨α, fulfils, agree⟩ := (means named β same).2 holds
    refine ⟨α, fulfils, fun p listed => (agree p.2 ?_).trans (same p listed)⟩
    obtain ⟨d, at_place, -⟩ := Engine.mem_places_iff.1 listed
    simpa using (List.mem_zipIdx at_place).2.1
  · rintro ⟨α, fulfils, same⟩
    exact (means α β same).1 (fulfils.allows _)

/-- A variable that is defined by a product and by a row, another one by two rows of which one is about
itself, after it was used, and bounds of which one is the negation of what is stated elsewhere. -/
def redefining : Snapshot where
  declarations := [⟨"x", .int⟩, ⟨"y", .real⟩, ⟨"z", .real⟩]
  assertions := [.row "z" [(2, "x"), (1, "y")], .product "z" ["x", "y"], .lower "x" 2 true,
    .row "y" [(3, "y"), (-1, "x")], .upper "x" 2 false, .fixed "y" (1/2), .product "y" ["y", "x"]]

theorem holds_iff_fulfils_redefining :
    (redefining.load (.new {})).result = .ok [("x", 0), ("y", 1), ("z", 2)] ∧
      ∀ β : String → Rat, redefining.Holds β ↔
        ∃ α, ((Session.start {}).load redefining).engine.Fulfils
            ((Session.start {}).load redefining).history α ∧
          ∀ p ∈ [("x", 0), ("y", 1), ("z", 2)], α p.2 = β p.1 := by
  have ok : (redefining.load (.new {})).result = .ok [("x", 0), ("y", 1), ("z", 2)] := by cbv
  exact ⟨ok, (holds_iff_fulfils {} redefining ok).2.2⟩

end Snapshot

end ArithDecide
