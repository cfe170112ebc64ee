import ArithDecide.Engine.Problem
import ArithDecide.Snapshot.Basic

/-!
# Loading snapshots

Declarations become variables, rows and products become rows of the tableau and monomials, and
bounds become asserted literals. Products come first, so that rows that mention a product find it
defined. What was declared and asserted before an error stays.
-/

namespace ArithDecide

/-- Why a snapshot cannot be loaded. -/
inductive LoadError where
  | declaredTwice (name : String)
  | notDeclared (name : String)
  | engine (error : EngineError)
  deriving DecidableEq, Inhabited

namespace LoadError

def message : LoadError → String
  | declaredTwice name => "variable '" ++ name ++ "' is declared twice"
  | notDeclared name => "variable '" ++ name ++ "' is not declared"
  | engine error => error.message

end LoadError

/-- The declared variables, latest first. -/
abbrev Declared := List (String × Var)

/-- An engine in which something was loaded, and the error that ended the loading. -/
structure Loaded (α : Type) where
  engine : Engine
  result : Except LoadError α

namespace Snapshot

/-- The variable declared under a name. -/
def lookup (declared : Declared) (name : String) : Except LoadError Var :=
  match List.lookup name declared with
  | some v => .ok v
  | none => .error (.notDeclared name)

/-- A step of loading; an error of the engine leaves the engine as it was. -/
def attempt (e : Engine) (step : Except LoadError Engine) : Loaded Unit :=
  match step with
  | .ok next => ⟨next, .ok ()⟩
  | .error error => ⟨e, .error error⟩

def ofEngine {α : Type} (result : Except EngineError α) : Except LoadError α :=
  result.mapError .engine

/-! ## Declarations -/

/-- Declares variables; each stands for the term with its place in the list. -/
def declareAll (declared : Declared) (e : Engine) : List Declaration → Loaded Declared
  | [] => ⟨e, .ok declared⟩
  | d :: rest =>
    let (added, v) := e.mkVar d.sort (.external declared.length)
    let named := { added with names := added.names.assign v d.name }
    match List.lookup d.name declared with
    | some _ => ⟨named, .error (.declaredTwice d.name)⟩
    | none => declareAll ((d.name, v) :: declared) named rest

/-! ## Definitions -/

/-- Adds the row `base = Σ entries`. If the base occurs in the tableau already, the difference of
both sides becomes a variable that is fixed to zero. -/
def define (e : Engine) (base : Var) (entries : List (Var × Rat)) : Except EngineError Engine :=
  match e.addRow base entries with
  | .ok (next, _) => .ok next
  | .error (.baseNotFresh _) => do
    let (added, slack) ← e.mkLinear .real .internal (entries ++ [(base, -1)])
    let lower ← added.assertGiven slack .lower 0
    lower.assertGiven slack .upper 0
  | .error error => .error error

/-- Defines a variable as a product. -/
def defineProduct (e : Engine) (declared : Declared) (var : String) (factors : List String) :
    Loaded Unit :=
  match (do return (← lookup declared var, ← factors.mapM (lookup declared))) with
  | .error error => ⟨e, .error error⟩
  | .ok (v, vs) =>
    match e.mkMonomial vs with
    | .error error => ⟨e, .error (.engine error)⟩
    | .ok (added, monomial) => attempt added (ofEngine (define added v [(monomial, 1)]))

/-! ## Bounds -/

/-- Asserts a bound. A strict bound is the negation of the opposite atom. -/
def assertBound (e : Engine) (v : Var) (kind : BoundKind) (value : Rat) (strict : Bool) :
    Except EngineError Engine := do
  if strict then
    let (next, l) ← e.mkAtom v kind.opposite value
    next.assertLiteral l.negate
  else
    let (next, l) ← e.mkAtom v kind value
    next.assertLiteral l

/-! ## Assertions -/

/-- Asserts a product; other assertions wait. -/
def loadProduct (declared : Declared) (e : Engine) : Assertion → Loaded Unit
  | .product var factors => defineProduct e declared var factors
  | _ => ⟨e, .ok ()⟩

/-- Asserts everything but products. -/
def loadLinear (declared : Declared) (e : Engine) : Assertion → Loaded Unit
  | .product _ _ => ⟨e, .ok ()⟩
  | .row base terms => attempt e do
    let v ← lookup declared base
    let entries ← terms.mapM fun t => return (← lookup declared t.2, t.1)
    ofEngine (define e v entries)
  | .fixed var value => attempt e do
    let v ← lookup declared var
    let (next, _) ← ofEngine (e.assertEq v value)
    return next
  | .lower var value strict => attempt e do
    let v ← lookup declared var
    ofEngine (assertBound e v .lower value strict)
  | .upper var value strict => attempt e do
    let v ← lookup declared var
    ofEngine (assertBound e v .upper value strict)

/-- Runs a loading step for each assertion in turn and stops at the first error. -/
def loadEach (step : Engine → Assertion → Loaded Unit) (e : Engine) : List Assertion → Loaded Unit
  | [] => ⟨e, .ok ()⟩
  | a :: rest =>
    let next := step e a
    match next.result with
    | .ok _ => loadEach step next.engine rest
    | .error _ => next

/-- Loads a snapshot into an engine. Answers with the declared variables, in order. -/
def load (s : Snapshot) (e : Engine) : Loaded (List (String × Var)) :=
  let declaring := declareAll [] e s.declarations
  match declaring.result with
  | .error error => ⟨declaring.engine, .error error⟩
  | .ok declared =>
    let products := loadEach (loadProduct declared) declaring.engine s.assertions
    match products.result with
    | .error error => ⟨products.engine, .error error⟩
    | .ok _ =>
      let all := loadEach (loadLinear declared) products.engine s.assertions
      ⟨all.engine, all.result.map fun _ => declared.reverse⟩

end Snapshot

end ArithDecide
