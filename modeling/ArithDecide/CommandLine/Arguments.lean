import ArithDecide.Selection
import ArithDecide.Snapshot.Numeral

/-!
# Arguments

What the words of a command line ask for. A word is first taken apart into items (an option with its
value, or an operand), then the items are interpreted from left to right. The first fault ends the
interpretation, and so does a request for help.
-/

namespace ArithDecide.CommandLine

/-! ## Options -/

/-- The options, by what they set. -/
inductive OptionName where
  | selector | nodes | rounds | noBasis | statistics | help
  deriving DecidableEq, Inhabited

namespace OptionName

def all : List OptionName := [selector, nodes, rounds, noBasis, statistics, help]

/-- The name after two dashes. -/
def long : OptionName → String
  | selector => "selector"
  | nodes => "nodes"
  | rounds => "nl-rounds"
  | noBasis => "no-grobner"
  | statistics => "statistics"
  | help => "help"

/-- The letter after one dash. -/
def short : OptionName → Option Char
  | selector => some 'S'
  | nodes => some 'n'
  | statistics => some 's'
  | help => some 'h'
  | rounds | noBasis => none

/-- Whether the option is followed by a value. -/
def takesValue : OptionName → Bool
  | selector | nodes | rounds => true
  | noBasis | statistics | help => false

def ofLong? (text : String) : Option OptionName := all.find? fun name => name.long == text

def ofShort? (c : Char) : Option OptionName := all.find? fun name => name.short == some c

end OptionName

/-- Why a command line asks for nothing that can be done. -/
inductive UsageError where
  | unknownOption (text : String)
  | missingValue (option : OptionName)
  | needlessValue (option : OptionName)
  | invalidValue (option : OptionName) (value : String)
  | repeated (option : OptionName)
  | extraOperand (text : String)
  | emptyPath
  | missingPath
  deriving DecidableEq, Inhabited

def UsageError.message : UsageError → String
  | unknownOption text => "unexpected argument '" ++ text ++ "' found"
  | missingValue option => "a value is required for '--" ++ option.long ++ "'"
  | needlessValue option => "no value is expected for '--" ++ option.long ++ "'"
  | invalidValue option value => "invalid value '" ++ value ++ "' for '--" ++ option.long ++ "'"
  | repeated option => "'--" ++ option.long ++ "' cannot be used multiple times"
  | extraOperand text => "unexpected argument '" ++ text ++ "' found"
  | emptyPath => "the snapshot's name is empty"
  | missingPath => "the snapshot's name is missing"

/-! ## Items -/

/-- A piece of a command line. -/
inductive Item where
  /-- An option that takes no value. -/
  | flag (name : OptionName)
  /-- An option with its value. -/
  | setting (name : OptionName) (value : String)
  | operand (text : String)
  deriving DecidableEq, Inhabited

/-- How a word ends. -/
inductive Ending where
  | complete
  /-- The value of the last option is the next word. -/
  | awaits (name : OptionName)
  | faulty (error : UsageError)
  deriving DecidableEq, Inhabited

/-- The items of a word that starts with a dash. -/
structure Word where
  items : List Item
  ending : Ending
  deriving DecidableEq, Inhabited

namespace Word

/-- A word whose only item is complete. -/
def single (item : Item) : Word := ⟨[item], .complete⟩

/-- An option's letters, several in a row. What follows the letter of an option with a value is the
value, with or without an equals sign. -/
def ofLetters : List Char → Word
  | [] => ⟨[], .complete⟩
  | c :: rest =>
    match OptionName.ofShort? c with
    | none => ⟨[], .faulty (.unknownOption (String.ofList ['-', c]))⟩
    | some name =>
      if name.takesValue then
        match rest with
        | [] => ⟨[], .awaits name⟩
        | '=' :: value => single (.setting name (String.ofList value))
        | value => single (.setting name (String.ofList value))
      else
        let others := ofLetters rest
        ⟨.flag name :: others.items, others.ending⟩

/-- An option's long name, with its value after an equals sign if there is one. -/
def ofLongName (text : List Char) : Word :=
  let value := (text.dropWhile (· ≠ '=')).tail?.map String.ofList
  match OptionName.ofLong? (String.ofList (text.takeWhile (· ≠ '='))) with
  | none => ⟨[], .faulty (.unknownOption (String.ofList ('-' :: '-' :: text)))⟩
  | some name =>
    match name.takesValue, value with
    | true, some value => single (.setting name value)
    | true, none => ⟨[], .awaits name⟩
    | false, some _ => ⟨[], .faulty (.needlessValue name)⟩
    | false, none => single (.flag name)

/-- The items of a word. A word without a dash in front is an operand, and so is a lone dash. -/
def ofText (text : String) : Word :=
  match text.toList with
  | '-' :: '-' :: name => ofLongName name
  | '-' :: c :: letters => ofLetters (c :: letters)
  | _ => single (.operand text)

end Word

/-- Whether a word can be the value of the option before it. -/
def isValue (text : String) : Bool :=
  match text.toList with
  | '-' :: _ :: _ => false
  | _ => true

/-- The items of a command line up to the first faulty one, and what is wrong with that one. After
two dashes all words are operands. -/
def items : List String → List Item × Option UsageError
  | [] => ([], none)
  | text :: rest =>
    if text = "--" then (rest.map .operand, none)
    else
      let word := Word.ofText text
      match word.ending, rest with
      | .complete, rest =>
        let (others, error) := items rest
        (word.items ++ others, error)
      | .awaits name, value :: rest =>
        if isValue value then
          let (others, error) := items rest
          (word.items ++ .setting name value :: others, error)
        else (word.items, some (.missingValue name))
      | .awaits name, [] => (word.items, some (.missingValue name))
      | .faulty error, _ => (word.items, some error)

/-! ## Values -/

/-- The number with the given decimal digits, of which there is at least one. -/
def digits? (text : List Char) : Option Nat :=
  if text.isEmpty || !text.all Numeral.isDigit then none else some (Numeral.ofDigits text)

/-- A number that may have a plus sign. -/
def unsigned? : List Char → Option Nat
  | '+' :: digits => digits? digits
  | digits => digits? digits

/-- A number that may have a sign. -/
def signed? : List Char → Option Int
  | '-' :: digits => (digits? digits).map fun n => -(n : Int)
  | text => (unsigned? text).map Int.ofNat

/-- A number of nodes: at most 64 bits, and no minus sign. -/
def nodes? (text : String) : Option Nat := (unsigned? text.toList).filter (· < Nat.pow 2 64)

/-- A number of rounds: at most 32 bits. Minus zero is zero. -/
def rounds? (text : String) : Option Nat :=
  match signed? text.toList with
  | some (Int.ofNat n) => if n < Nat.pow 2 32 then some n else none
  | _ => none

/-- The selectors that can be asked for. -/
inductive SelectorChoice where
  | mostFractional | firstFractional
  deriving DecidableEq, Inhabited

namespace SelectorChoice

def all : List SelectorChoice := [mostFractional, firstFractional]

def name : SelectorChoice → String
  | mostFractional => "most-fractional"
  | firstFractional => "first-fractional"

def ofName? (text : String) : Option SelectorChoice := all.find? fun choice => choice.name == text

def selector : SelectorChoice → Selector
  | mostFractional => Selector.mostFractional
  | firstFractional => Selector.firstFractional

end SelectorChoice

/-! ## Interpretation -/

/-- How to decide a snapshot. -/
structure Settings where
  selector : SelectorChoice := .mostFractional
  /-- Give up after so many nodes. -/
  nodes : Option Nat := none
  /-- How many rounds of interval reasoning a check may do. -/
  rounds : Nat := 4
  /-- Whether a check may complete a polynomial basis. -/
  basis : Bool := true
  /-- Whether to print the counters. -/
  statistics : Bool := false
  deriving DecidableEq, Inhabited

/-- What a command line asks for. -/
inductive Request where
  | help
  | decide (path : String) (settings : Settings)
  deriving DecidableEq, Inhabited

/-- What the items so far ask for. -/
structure Draft where
  path : Option String := none
  /-- The options seen so far. -/
  seen : List OptionName := []
  settings : Settings := {}
  deriving DecidableEq, Inhabited

namespace Draft

/-- The value of an option, or the fault that it has none. -/
def valueOf {α : Type} (name : OptionName) (value : String) (read : String → Option α) :
    Except UsageError α :=
  match read value with
  | some a => .ok a
  | none => .error (.invalidValue name value)

/-- The draft after an option was seen, which may be seen once. -/
def see (d : Draft) (name : OptionName) : Except UsageError Draft :=
  if name ∈ d.seen then .error (.repeated name) else .ok { d with seen := name :: d.seen }

def set (d : Draft) (name : OptionName) (value : String) : Except UsageError Settings :=
  match name with
  | .selector => return { d.settings with selector := ← valueOf name value SelectorChoice.ofName? }
  | .nodes => return { d.settings with nodes := some (← valueOf name value nodes?) }
  | .rounds => return { d.settings with rounds := ← valueOf name value rounds? }
  | .noBasis | .statistics | .help => .error (.needlessValue name)

def raise (d : Draft) (name : OptionName) : Except UsageError Settings :=
  match name with
  | .noBasis => .ok { d.settings with basis := false }
  | .statistics => .ok { d.settings with statistics := true }
  | .selector | .nodes | .rounds => .error (.missingValue name)
  | .help => .ok d.settings

/-- The draft after another item. There is one operand, the path. -/
def add (d : Draft) : Item → Except UsageError Draft
  | .operand text =>
    match d.path with
    | some _ => .error (.extraOperand text)
    | none => if text.isEmpty then .error .emptyPath else .ok { d with path := some text }
  | .setting name value => do
    let seen ← d.see name
    return { seen with settings := ← d.set name value }
  | .flag name => do
    let seen ← d.see name
    return { seen with settings := ← d.raise name }

/-- What the draft asks for when no item is left. -/
def finish (d : Draft) : Except UsageError Request :=
  match d.path with
  | some path => .ok (.decide path d.settings)
  | none => .error .missingPath

/-- What the draft and more items ask for; `fault` is what is wrong after the items. -/
def interpret (fault : Option UsageError) (d : Draft) : List Item → Except UsageError Request
  | [] =>
    match fault with
    | some error => .error error
    | none => d.finish
  | .flag .help :: _ => .ok .help
  | item :: rest =>
    match d.add item with
    | .ok next => interpret fault next rest
    | .error error => .error error

end Draft

/-- What the words of a command line ask for. -/
def Request.ofWords (words : List String) : Except UsageError Request :=
  let (given, fault) := items words
  Draft.interpret fault {} given

end ArithDecide.CommandLine
