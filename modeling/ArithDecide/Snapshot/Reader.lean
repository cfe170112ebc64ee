import ArithDecide.Snapshot.Basic
import ArithDecide.Snapshot.Numeral

/-!
# Reading snapshots

A snapshot text is a sequence of commands: `declare-fun` and `declare-const` declare variables,
`assert` states something about variables declared before, and `check-sat`, `set-logic`, `set-info`
and `exit` are accepted and mean nothing. `Snapshot.read` answers with the first error; the syntax
of the whole text is checked first.
-/

namespace ArithDecide

/-- Why a text is no snapshot. -/
inductive ReadError where
  /-- Reading stopped at the given text. -/
  | syntaxError (near : String)
  | unsupportedCommand (command : String)
  | malformedAssertion (assertion : String)
  | invalidNumeral (numeral : String)
  | unknownSort (name : String)
  | undeclaredVariable (name : String)
  deriving DecidableEq, Inhabited

namespace ReadError

def message : ReadError → String
  | syntaxError near => "syntax error near '" ++ near ++ "'"
  | unsupportedCommand command => "unsupported command '" ++ command ++ "'"
  | malformedAssertion assertion => "malformed assertion '" ++ assertion ++ "'"
  | invalidNumeral numeral => "invalid numeral '" ++ numeral ++ "'"
  | unknownSort name => "unknown sort '" ++ name ++ "'"
  | undeclaredVariable name => "variable '" ++ name ++ "' is used before it is declared"

/-- How many characters of the text a syntax error shows. -/
def contextLength : Nat := 32

/-- The error for reading that stopped at a text. -/
def syntaxAt (text : List Char) : ReadError :=
  .syntaxError (String.ofList (text.take contextLength))

end ReadError

namespace Snapshot

def readNumeral (e : SExpr) : Except ReadError Rat :=
  (Numeral.read e).mapError .invalidNumeral

def readSort (name : String) : Except ReadError NumSort :=
  match NumSort.ofName? name with
  | some sort => .ok sort
  | none => .error (.unknownSort name)

/-! ## Assertions -/

/-- The terms of a sum: products `(* k v)`, and zeros, which add nothing. -/
def readTerms (malformed : ReadError) : List SExpr → Except ReadError (List (Rat × String))
  | [] => .ok []
  | .list [.symbol times, coeff, .symbol name] :: rest =>
    if times = "*" then do
      let coeff ← readNumeral coeff
      let terms ← readTerms malformed rest
      return (coeff, name) :: terms
    else .error malformed
  | .symbol zero :: rest => if zero = "0" then readTerms malformed rest else .error malformed
  | _ => .error malformed

/-- The right side of `(= var ...)`: a sum, a product of two or more variables, or a numeral. -/
def readDefinition (malformed : ReadError) (var : String) (definition : SExpr) :
    Except ReadError Assertion :=
  match definition with
  | .list (.symbol operator :: items) =>
    if operator = "+" then (readTerms malformed items).map (.row var)
    else if operator = "*" then
      match items.mapM SExpr.symbol? with
      | some (first :: second :: others) => .ok (.product var (first :: second :: others))
      | _ => .error malformed
    else (readNumeral definition).map (.fixed var)
  | _ => (readNumeral definition).map (.fixed var)

/-- A comparison. A symbol on the left that is no numeral is a variable bounded from above;
otherwise the right side is a variable bounded from below. -/
def readComparison (malformed : ReadError) (strict : Bool) (left right : SExpr) :
    Except ReadError Assertion :=
  match left.symbol?.filter fun name => !Numeral.isDigits name, right with
  | some var, _ => do return .upper var (← readNumeral right) strict
  | none, .symbol var => do return .lower var (← readNumeral left) strict
  | none, .list _ => .error malformed

def readAssertion (body : SExpr) : Except ReadError Assertion :=
  let malformed := ReadError.malformedAssertion body.text
  match body with
  | .list [.symbol relation, left, right] =>
    if relation = "=" then
      match left.symbol? with
      | some var => readDefinition malformed var right
      | none => .error malformed
    else if relation = "<=" then readComparison malformed false left right
    else if relation = "<" then readComparison malformed true left right
    else .error malformed
  | _ => .error malformed

/-! ## Commands -/

/-- The commands that are accepted and mean nothing. -/
def ignoredCommands : List String := ["check-sat", "set-logic", "set-info", "exit"]

/-- What one command does to the snapshot read so far. -/
def readCommand (s : Snapshot) (command : SExpr) : Except ReadError Snapshot :=
  let unsupported := ReadError.unsupportedCommand command.text
  match command with
  | .list (.symbol name :: arguments) =>
    if name = "declare-fun" then
      match arguments with
      | [.symbol var, .list [], .symbol sort] => (readSort sort).map (s.declare var)
      | _ => .error unsupported
    else if name = "declare-const" then
      match arguments with
      | [.symbol var, .symbol sort] => (readSort sort).map (s.declare var)
      | _ => .error unsupported
    else if name = "assert" then
      match arguments with
      | [body] => do
        let assertion ← readAssertion body
        match s.undeclared? assertion with
        | some var => throw (.undeclaredVariable var)
        | none => return s.assert assertion
      | _ => .error (.malformedAssertion command.text)
    else if ignoredCommands.contains name then .ok s
    else .error unsupported
  | _ => .error unsupported

/-- The snapshot that a text describes. -/
def read (text : String) : Except ReadError Snapshot :=
  match SExpr.parse text.toList with
  | .error rest => .error (.syntaxAt rest)
  | .ok commands => commands.foldlM readCommand .empty

end Snapshot

end ArithDecide
