import Mathlib.Tactic.Ring
import ArithDecide.Proofs.Failing
import ArithDecide.Proofs.Numerals
import ArithDecide.Snapshot.Reader
import ArithDecide.Snapshot.Writer

/-!
# Snapshots are read back

The snapshots that can be written and read back are exactly the expressible ones
(`Snapshot.expressible_iff`), and reading answers with such snapshots only. What is written is a line
for each command, so the expressions of the commands say what is read.
-/

namespace ArithDecide

/-! ## The expressions that are written -/

namespace Assertion

/-- The summands of a row; a row without any has a zero. -/
def summandExprs : List (Rat × String) → List SExpr
  | [] => [.symbol "0"]
  | terms => terms.map fun t => .list [.symbol "*", Numeral.expr t.1, .symbol t.2]

/-- The expression that is written for an assertion. -/
def expr : Assertion → SExpr
  | row base terms => .list [.symbol "=", .symbol base, .list (.symbol "+" :: summandExprs terms)]
  | product var factors =>
    .list [.symbol "=", .symbol var, .list (.symbol "*" :: factors.map .symbol)]
  | fixed var value => .list [.symbol "=", .symbol var, Numeral.expr value]
  | lower var value strict =>
    .list [.symbol (Snapshot.relationText strict), Numeral.expr value, .symbol var]
  | upper var value strict =>
    .list [.symbol (Snapshot.relationText strict), .symbol var, Numeral.expr value]

/-- An assertion that can be told from all others by its text: a product has at least two factors, and
what is bounded from above is no numeral. -/
def Distinct : Assertion → Prop
  | product _ factors => 2 ≤ factors.length
  | upper var _ _ => Numeral.isDigits var = false
  | _ => True

end Assertion

namespace Snapshot

/-- A snapshot that a text can express: the declared names are symbols, the assertions are about
declared variables, products have at least two factors, and no variable whose name is a numeral is
bounded from above. -/
structure Expressible (s : Snapshot) : Prop where
  names : ∀ d ∈ s.declarations, IsSymbol d.name
  declared : ∀ a ∈ s.assertions, ∀ name ∈ a.names, ∃ d ∈ s.declarations, d.name = name
  products : ∀ var factors, .product var factors ∈ s.assertions → 2 ≤ factors.length
  uppers : ∀ var value strict, .upper var value strict ∈ s.assertions →
    Numeral.isDigits var = false

def declarationExpr (d : Declaration) : SExpr :=
  .list [.symbol "declare-fun", .symbol d.name, .list [], .symbol d.sort.name]

def assertionExpr (a : Assertion) : SExpr := .list [.symbol "assert", a.expr]

/-- The commands that are written for a snapshot. -/
def commands (s : Snapshot) : List SExpr :=
  s.declarations.map declarationExpr ++ s.assertions.map assertionExpr ++
    [.list [.symbol "check-sat"]]

/-! ## Their texts -/

theorem text_declarationExpr (d : Declaration) :
    (declarationExpr d).text ++ "\n" = declarationText d := by
  rw [← String.toList_inj]
  simp [declarationExpr, declarationText, SExpr.text, SExpr.restText]

theorem restText_eq_join (items : List SExpr) :
    SExpr.restText items = String.join (items.map fun item => " " ++ item.text) := by
  induction items with
  | nil => rfl
  | cons item rest ih => rw [SExpr.restText, ih, List.map_cons, String.join_cons]

theorem restText_summandExprs (terms : List (Rat × String)) :
    SExpr.restText (Assertion.summandExprs terms) = termsText terms := by
  cases terms with
  | nil => rfl
  | cons t rest =>
    rw [Assertion.summandExprs, restText_eq_join, List.map_map, termsText]
    · refine congrArg String.join (List.map_congr_left fun t _ => ?_)
      rw [← String.toList_inj]
      simp [SExpr.text, SExpr.restText, Numeral.text_expr]
    · simp
    · simp

/-- The text of an assertion that can be told from all others is that of its expression. -/
theorem bodyText_eq (a : Assertion) (distinct : a.Distinct) : bodyText a = .ok a.expr.text := by
  cases a with
  | row base terms =>
    rw [bodyText, Except.ok.injEq, ← String.toList_inj]
    simp [Assertion.expr, SExpr.text, SExpr.restText, restText_summandExprs]
  | product var factors =>
    have enough : ¬factors.length < 2 := Nat.not_lt.2 distinct
    have items : SExpr.restText (factors.map .symbol) = String.join (factors.map (" " ++ ·)) := by
      rw [restText_eq_join, List.map_map]
      exact congrArg String.join (List.map_congr_left fun name _ => by simp [SExpr.text])
    rw [bodyText, if_neg enough, Except.ok.injEq, ← String.toList_inj]
    simp [Assertion.expr, SExpr.text, SExpr.restText, items]
  | fixed var value =>
    rw [bodyText, Except.ok.injEq, ← String.toList_inj]
    simp [Assertion.expr, SExpr.text, SExpr.restText, Numeral.text_expr]
  | lower var value strict =>
    rw [bodyText, Except.ok.injEq, ← String.toList_inj]
    simp [Assertion.expr, SExpr.text, SExpr.restText, Numeral.text_expr]
  | upper var value strict =>
    rw [bodyText, Except.ok.injEq, ← String.toList_inj]
    simp [Assertion.expr, SExpr.text, SExpr.restText, Numeral.text_expr]

theorem lines_append (first second : List SExpr) :
    SExpr.lines (first ++ second) = SExpr.lines first ++ SExpr.lines second := by
  rw [← String.toList_inj]
  simp [SExpr.lines]

theorem undeclared?_eq_none {s : Snapshot} {a : Assertion} :
    s.undeclared? a = none ↔ ∀ name ∈ a.names, ∃ d ∈ s.declarations, d.name = name := by
  simp [undeclared?, sortOf?]

theorem writeAssertions_eq {s : Snapshot} (written : String) {assertions : List Assertion}
    (declared : ∀ a ∈ assertions, s.undeclared? a = none)
    (distinct : ∀ a ∈ assertions, a.Distinct) :
    s.writeAssertions written assertions =
      .ok (written ++ SExpr.lines (assertions.map assertionExpr)) := by
  induction assertions generalizing written with
  | nil => simp [writeAssertions, SExpr.lines]
  | cons a rest ih =>
    rw [writeAssertions, declared a List.mem_cons_self]
    simp only [bodyText_eq a (distinct a List.mem_cons_self)]
    rw [ih _ (fun b member => declared b (List.mem_cons_of_mem _ member))
      fun b member => distinct b (List.mem_cons_of_mem _ member), Except.ok.injEq,
      ← String.toList_inj]
    simp [SExpr.lines, assertionExpr, assertionStart, SExpr.text, SExpr.restText]

theorem Expressible.distinct {s : Snapshot} (expressible : s.Expressible) :
    ∀ a ∈ s.assertions, a.Distinct := by
  intro a member
  cases a with
  | product var factors => exact expressible.products var factors member
  | upper var value strict => exact expressible.uppers var value strict member
  | row | fixed | lower => trivial

/-- An expressible snapshot is written as its commands. -/
theorem write_eq {s : Snapshot} (expressible : s.Expressible) :
    s.write = .ok (SExpr.lines s.commands) := by
  have declared (a : Assertion) (member : a ∈ s.assertions) : s.undeclared? a = none :=
    undeclared?_eq_none.2 (expressible.declared a member)
  have start : String.join (s.declarations.map declarationText) =
      SExpr.lines (s.declarations.map declarationExpr) := by
    rw [SExpr.lines, List.map_map]
    exact congrArg String.join (List.map_congr_left fun d _ => (text_declarationExpr d).symm)
  rw [write, writeAssertions_eq _ declared expressible.distinct, commands, lines_append, lines_append,
    start]
  rfl

/-! ## They are legible -/

/-- An assertion whose names are symbols becomes an expression that can stand in a text. -/
theorem legible_expr {a : Assertion} (names : ∀ name ∈ a.names, IsSymbol name) :
    a.expr.Legible := by
  have relation (strict : Bool) : IsSymbol (relationText strict) := by cases strict <;> decide
  have triple {first second third : SExpr} (one : first.Legible) (two : second.Legible)
      (three : third.Legible) : (SExpr.list [first, second, third]).Legible := by
    refine .list fun item member => ?_
    simp only [List.mem_cons, List.not_mem_nil, or_false] at member
    rcases member with rfl | rfl | rfl <;> assumption
  cases a with
  | row base terms =>
    obtain ⟨base_ok, terms_ok⟩ := List.forall_mem_cons.1 names
    refine triple (.symbol (by decide)) (.symbol base_ok)
      (.list (List.forall_mem_cons.2 ⟨.symbol (by decide), fun item member => ?_⟩))
    cases terms with
    | nil =>
      obtain rfl := List.mem_singleton.1 member
      exact .symbol (by decide)
    | cons t rest =>
      obtain ⟨u, among, rfl⟩ := List.mem_map.1 member
      exact triple (.symbol (by decide)) (Numeral.legible_expr _)
        (.symbol (terms_ok _ (List.mem_map_of_mem among)))
  | product var factors =>
    obtain ⟨var_ok, factors_ok⟩ := List.forall_mem_cons.1 names
    refine triple (.symbol (by decide)) (.symbol var_ok)
      (.list (List.forall_mem_cons.2 ⟨.symbol (by decide), fun item member => ?_⟩))
    obtain ⟨name, among, rfl⟩ := List.mem_map.1 member
    exact .symbol (factors_ok name among)
  | fixed var value =>
    exact triple (.symbol (by decide)) (.symbol (names var List.mem_cons_self)) (Numeral.legible_expr _)
  | lower var value strict =>
    exact triple (.symbol (relation strict)) (Numeral.legible_expr _)
      (.symbol (names var List.mem_cons_self))
  | upper var value strict =>
    exact triple (.symbol (relation strict)) (.symbol (names var List.mem_cons_self))
      (Numeral.legible_expr _)

/-- The commands of a snapshot that can be expressed can stand in a text. -/
theorem Expressible.legible {s : Snapshot} (expressible : s.Expressible) :
    ∀ command ∈ s.commands, command.Legible := by
  intro command member
  rcases List.mem_append.1 member with written | last
  · rcases List.mem_append.1 written with declaration | assertion
    · obtain ⟨d, among, rfl⟩ := List.mem_map.1 declaration
      have sort : IsSymbol d.sort.name := by cases d.sort <;> decide
      refine .list fun item member => ?_
      simp only [List.mem_cons, List.not_mem_nil, or_false] at member
      rcases member with rfl | rfl | rfl | rfl
      · exact .symbol (by decide)
      · exact .symbol (expressible.names d among)
      · exact .list (by simp)
      · exact .symbol sort
    · obtain ⟨a, among, rfl⟩ := List.mem_map.1 assertion
      refine .list (List.forall_mem_cons.2 ⟨.symbol (by decide), List.forall_mem_cons.2 ⟨?_, by simp⟩⟩)
      refine legible_expr fun name mentioned => ?_
      obtain ⟨d, declared, rfl⟩ := expressible.declared a among name mentioned
      exact expressible.names d declared
  · obtain rfl := List.mem_singleton.1 last
    exact .list (List.forall_mem_cons.2 ⟨.symbol (by decide), by simp⟩)

/-! ## Reading them -/

theorem readNumeral_expr (value : Rat) : readNumeral (Numeral.expr value) = .ok value := by
  rw [readNumeral, Numeral.read_expr]
  rfl

theorem readTerms_map (malformed : ReadError) (terms : List (Rat × String)) :
    readTerms malformed (terms.map fun t => .list [.symbol "*", Numeral.expr t.1, .symbol t.2]) =
      .ok terms := by
  induction terms with
  | nil => rfl
  | cons t rest ih =>
    rw [List.map_cons, readTerms, if_pos rfl, readNumeral_expr, ih]
    rfl

theorem readTerms_summandExprs (malformed : ReadError) (terms : List (Rat × String)) :
    readTerms malformed (Assertion.summandExprs terms) = .ok terms := by
  cases terms with
  | nil => rfl
  | cons t rest => exact readTerms_map malformed (t :: rest)

theorem mapM_symbol? (names : List String) :
    (names.map SExpr.symbol).mapM SExpr.symbol? = some names := by
  induction names with
  | nil => rfl
  | cons name rest ih =>
    rw [List.map_cons, List.mapM_cons, ih]
    rfl

/-- What is written for a rational is not taken for a sum or a product. -/
theorem readDefinition_expr (malformed : ReadError) (var : String) (value : Rat) :
    readDefinition malformed var (Numeral.expr value) = .ok (.fixed var value) := by
  have read : (readNumeral (Numeral.expr value)).map (Assertion.fixed var) = .ok (.fixed var value) := by
    rw [readNumeral_expr]
    rfl
  rw [← read, Numeral.expr, Numeral.magnitudeExpr, Numeral.magnitudeExpr]
  split
  · rfl
  · split <;> rfl

/-- What is written for a rational is not taken for a variable. -/
theorem symbol?_expr (value : Rat) :
    (Numeral.expr value).symbol?.filter (fun name => !Numeral.isDigits name) = none := by
  rw [Numeral.expr, Numeral.magnitudeExpr, Numeral.magnitudeExpr]
  split
  · rfl
  · split
    · have digits := Numeral.isDigits_toString value.num.toNat
      rw [SExpr.symbol?, Option.filter_some, digits]
      rfl
    · rfl

theorem readComparison_lower (malformed : ReadError) (strict : Bool) (value : Rat) (var : String) :
    readComparison malformed strict (Numeral.expr value) (.symbol var) =
      .ok (.lower var value strict) := by
  have numeral := symbol?_expr value
  simp only [readComparison, numeral, readNumeral_expr]
  rfl

theorem readComparison_upper (malformed : ReadError) (strict : Bool) (value : Rat) {var : String}
    (distinct : Numeral.isDigits var = false) :
    readComparison malformed strict (.symbol var) (Numeral.expr value) =
      .ok (.upper var value strict) := by
  have named : (SExpr.symbol var).symbol?.filter (fun name => !Numeral.isDigits name) = some var := by
    rw [SExpr.symbol?, Option.filter_some, distinct]
    rfl
  simp only [readComparison, named, readNumeral_expr]
  rfl

/-- An assertion is read back from its expression. -/
theorem readAssertion_expr (a : Assertion) (distinct : a.Distinct) :
    readAssertion a.expr = .ok a := by
  cases a with
  | row base terms =>
    simp only [Assertion.expr, readAssertion, if_true, SExpr.symbol?, readDefinition,
      readTerms_summandExprs]
    rfl
  | product var factors =>
    simp only [Assertion.expr, readAssertion, if_true, SExpr.symbol?, readDefinition, mapM_symbol?]
    have enough : 2 ≤ factors.length := distinct
    cases factors with
    | nil => simp at enough
    | cons first rest =>
      cases rest with
      | nil => simp at enough
      | cons second others => rfl
  | fixed var value =>
    simp only [Assertion.expr, readAssertion, if_true, SExpr.symbol?, readDefinition_expr]
  | lower var value strict =>
    cases strict <;> exact readComparison_lower _ _ value var
  | upper var value strict =>
    cases strict <;> exact readComparison_upper _ _ value distinct

theorem readSort_name (sort : NumSort) : readSort sort.name = .ok sort := by
  cases sort <;> rfl

theorem readCommand_declarationExpr (s : Snapshot) (d : Declaration) :
    s.readCommand (declarationExpr d) = .ok (s.declare d.name d.sort) := by
  simp only [declarationExpr, readCommand, if_true, readSort_name]
  rfl

theorem readCommand_assertionExpr {s : Snapshot} {a : Assertion} (distinct : a.Distinct)
    (declared : s.undeclared? a = none) : s.readCommand (assertionExpr a) = .ok (s.assert a) := by
  have other : ("assert" = "declare-fun") = False := by simp
  have another : ("assert" = "declare-const") = False := by simp
  simp only [assertionExpr, readCommand, other, another, if_false, if_true,
    readAssertion_expr a distinct, bind, Except.bind, declared]
  rfl

theorem foldlM_declarationExpr (s : Snapshot) (declarations : List Declaration) :
    (declarations.map declarationExpr).foldlM readCommand s =
      .ok { s with declarations := s.declarations ++ declarations } := by
  induction declarations generalizing s with
  | nil => simp [pure, Except.pure]
  | cons d rest ih =>
    rw [List.map_cons, List.foldlM_cons, readCommand_declarationExpr]
    refine (ih _).trans ?_
    simp [declare]

theorem foldlM_assertionExpr {s : Snapshot} {assertions : List Assertion}
    (distinct : ∀ a ∈ assertions, a.Distinct)
    (declared : ∀ a ∈ assertions, ∀ name ∈ a.names, ∃ d ∈ s.declarations, d.name = name) :
    (assertions.map assertionExpr).foldlM readCommand s =
      .ok { s with assertions := s.assertions ++ assertions } := by
  induction assertions generalizing s with
  | nil => simp [pure, Except.pure]
  | cons a rest ih =>
    obtain ⟨here, later⟩ := List.forall_mem_cons.1 declared
    obtain ⟨one, others⟩ := List.forall_mem_cons.1 distinct
    rw [List.map_cons, List.foldlM_cons,
      readCommand_assertionExpr one (undeclared?_eq_none.2 here)]
    refine (ih (s := s.assert a) others later).trans ?_
    simp [assert]

/-- The commands of an expressible snapshot lead to it. -/
theorem foldlM_commands {s : Snapshot} (expressible : s.Expressible) :
    s.commands.foldlM readCommand .empty = .ok s := by
  rw [commands, List.foldlM_append, List.foldlM_append, foldlM_declarationExpr]
  have asserted := foldlM_assertionExpr (s := ⟨s.declarations, []⟩) expressible.distinct
    expressible.declared
  simp only [bind, Except.bind, empty, List.nil_append]
  rw [asserted]
  rfl

theorem read_lines {s : Snapshot} (expressible : s.Expressible) :
    read (SExpr.lines s.commands) = .ok s := by
  rw [read, SExpr.parse_lines expressible.legible]
  exact foldlM_commands expressible

/-! ## Whatever is read -/

theorem expressible_empty : empty.Expressible := by
  constructor <;> simp [empty]

theorem Expressible.declare {s : Snapshot} (expressible : s.Expressible) {name : String}
    (symbol : IsSymbol name) (sort : NumSort) : (s.declare name sort).Expressible where
  names := by
    intro d member
    rcases List.mem_append.1 member with before | last
    · exact expressible.names d before
    · obtain rfl := List.mem_singleton.1 last
      exact symbol
  declared a member mentioned among := by
    obtain ⟨d, before, same⟩ := expressible.declared a member mentioned among
    exact ⟨d, List.mem_append_left _ before, same⟩
  products := expressible.products
  uppers := expressible.uppers

theorem Expressible.assert {s : Snapshot} (expressible : s.Expressible) {a : Assertion}
    (declared : s.undeclared? a = none) (distinct : a.Distinct) : (s.assert a).Expressible := by
  have all (P : Assertion → Prop) (before : ∀ b ∈ s.assertions, P b) (here : P a) :
      ∀ b ∈ (s.assert a).assertions, P b := by
    intro b member
    rcases List.mem_append.1 member with earlier | last
    · exact before b earlier
    · exact List.mem_singleton.1 last ▸ here
  have distinct_all := all Assertion.Distinct expressible.distinct distinct
  exact
    { names := expressible.names
      declared := all _ expressible.declared (undeclared?_eq_none.1 declared)
      products := fun var factors member => distinct_all _ member
      uppers := fun var value strict member => distinct_all _ member }

/-- A definition that was read can be told from all others by its text. -/
theorem distinct_of_readDefinition {malformed : ReadError} {var : String} {e : SExpr} {a : Assertion}
    (read : readDefinition malformed var e = .ok a) : a.Distinct := by
  unfold readDefinition at read
  split at read
  · split at read
    · obtain ⟨terms, -, rfl⟩ := map_eq_ok read
      trivial
    · split at read
      · split at read
        · obtain rfl := Except.ok.inj read
          simp [Assertion.Distinct]
        · cases read
      · obtain ⟨value, -, rfl⟩ := map_eq_ok read
        trivial
  · obtain ⟨value, -, rfl⟩ := map_eq_ok read
    trivial

theorem distinct_of_readComparison {malformed : ReadError} {strict : Bool} {left right : SExpr}
    {a : Assertion} (read : readComparison malformed strict left right = .ok a) : a.Distinct := by
  unfold readComparison at read
  split at read
  · rename_i var named
    obtain ⟨value, -, read⟩ := bind_eq_ok read
    obtain rfl := Except.ok.inj read
    have other := (Option.filter_eq_some_iff.1 named).2
    rwa [Bool.not_eq_true'] at other
  · obtain ⟨value, -, read⟩ := bind_eq_ok read
    obtain rfl := Except.ok.inj read
    trivial
  · cases read

/-- What is read for an assertion can be told from all others. -/
theorem distinct_of_readAssertion {body : SExpr} {a : Assertion}
    (read : readAssertion body = .ok a) : a.Distinct := by
  unfold readAssertion at read
  simp only at read
  split at read
  · split at read
    · split at read
      · exact distinct_of_readDefinition read
      · cases read
    · split at read
      · exact distinct_of_readComparison read
      · split at read
        · exact distinct_of_readComparison read
        · cases read
  · cases read

/-- What a command declares is a symbol, and what it asserts is about declared variables. -/
theorem Expressible.readCommand {s next : Snapshot} (expressible : s.Expressible) {command : SExpr}
    (legible : command.Legible) (read : s.readCommand command = .ok next) : next.Expressible := by
  have declares {var : String} {sort : String} (symbol : IsSymbol var)
      (read : (readSort sort).map (s.declare var) = .ok next) : next.Expressible := by
    obtain ⟨sort, -, rfl⟩ := map_eq_ok read
    exact expressible.declare symbol sort
  unfold Snapshot.readCommand at read
  simp only at read
  split at read
  · have symbols {var : String} {items : List SExpr} (legible : (SExpr.list items).Legible)
        (member : .symbol var ∈ items) : IsSymbol var := by
      cases legible with
      | list all =>
        cases all _ member with
        | symbol is => exact is
    split at read
    · split at read
      · exact declares (symbols legible (by simp)) read
      · cases read
    · split at read
      · split at read
        · exact declares (symbols legible (by simp)) read
        · cases read
      · split at read
        · split at read
          · obtain ⟨a, asserted, read⟩ := bind_eq_ok read
            split at read
            · cases read
            · rename_i declared
              obtain rfl := Except.ok.inj read
              exact expressible.assert declared (distinct_of_readAssertion asserted)
          · cases read
        · split at read
          · exact Except.ok.inj read ▸ expressible
          · cases read
  · cases read

/-- Whatever was read can be expressed by a text. -/
theorem expressible_of_read {text : String} {s : Snapshot} (is_read : read text = .ok s) :
    s.Expressible := by
  rw [read] at is_read
  cases parsed : SExpr.parse text.toList with
  | error rest =>
    rw [parsed] at is_read
    cases is_read
  | ok commands =>
    rw [parsed] at is_read
    have legible := SExpr.legible_of_parse parsed
    have keeps (before : Snapshot) (expressible : before.Expressible)
        (led : commands.foldlM Snapshot.readCommand before = .ok s) : s.Expressible := by
      clear parsed is_read
      induction commands generalizing before with
      | nil => exact Except.ok.inj led ▸ expressible
      | cons command rest ih =>
        obtain ⟨here, later⟩ := List.forall_mem_cons.1 legible
        rw [List.foldlM_cons] at led
        cases first : before.readCommand command with
        | error _ =>
          rw [first] at led
          cases led
        | ok next =>
          rw [first] at led
          exact ih later next (expressible.readCommand here first) led
    exact keeps .empty expressible_empty is_read

/-- The snapshots that are read back from what is written for them are the expressible ones, and
reading answers with no others, so a snapshot that was read can be written and read again. -/
theorem expressible_iff :
    (∀ s : Snapshot, (∃ text, s.write = .ok text ∧ read text = .ok s) ↔ s.Expressible) ∧
      (∀ text s, read text = .ok s → s.Expressible) ∧
      ∀ text s, read text = .ok s → ∃ written, s.write = .ok written ∧ read written = .ok s := by
  have back {s : Snapshot} (expressible : s.Expressible) :
      ∃ text, s.write = .ok text ∧ read text = .ok s :=
    ⟨_, write_eq expressible, read_lines expressible⟩
  refine ⟨fun s => ⟨fun ⟨text, _, is_read⟩ => expressible_of_read is_read, back⟩,
    fun _ _ => expressible_of_read, fun _ _ is_read => back (expressible_of_read is_read)⟩

/-- A numeral as a name, an empty row, a product of equal factors and bounds on both sides. -/
def mixed : Snapshot where
  declarations := [⟨"x", .real⟩, ⟨"7", .int⟩]
  assertions := [.row "x" [(-1 / 2, "7"), (0, "x")], .row "7" [], .product "x" ["7", "7"],
    .fixed "7" (-3), .lower "7" (2 / 3) true, .upper "x" (-5) false]

theorem expressible_iff_mixed :
    mixed.Expressible ∧ ∃ text, mixed.write = .ok text ∧ read text = .ok mixed := by
  have expressible : mixed.Expressible := by
    constructor <;> simp [mixed, Assertion.names] <;> decide
  exact ⟨expressible, (expressible_iff.1 mixed).2 expressible⟩

end Snapshot

end ArithDecide
