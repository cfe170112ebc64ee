import ArithDecide.Search
import ArithDecide.Snapshot.Load
import ArithDecide.Snapshot.Reader

/-!
# Reports

What a run prints: the verdict on standard output, followed by the counters if they are asked for,
or the reason of a failure on standard error.
-/

namespace ArithDecide.CommandLine

/-- A text as a line of its own. -/
def line (text : String) : String := text ++ "\n"

/-! ## Verdicts -/

/-- The value of a declared variable. -/
def assignmentText (model : List Rat) (declared : String × Var) : String :=
  declared.1 ++ " = " ++ rationalText (model.getD declared.2 0) ++ ";"

/-- The lines of a verdict. A model shows the declared variables only, a search that was stopped has
decided nothing. -/
def verdictLines (declared : List (String × Var)) : SearchResult → List String
  | .sat model => "sat" :: declared.map (assignmentText model)
  | .unsat explanation => ["unsat", explanation.text]
  | .unknown | .stopped => ["unknown"]

/-- The counters with the names under which they are printed, in order. -/
def counters (s : Statistics) : List (String × Nat) :=
  [("Checks", s.checks), ("Conflicts", s.conflicts), ("Pivots", s.pivots),
   ("AssertLower", s.assertLower), ("AssertUpper", s.assertUpper),
   ("BoundPropagations", s.boundPropagations), ("ImpliedBounds", s.impliedBounds),
   ("FixedEqs", s.fixedEqualities), ("GcdTests", s.gcdTests), ("GcdConflicts", s.gcdConflicts),
   ("Patches", s.patches), ("PatchesSucc", s.patchesSucceeded), ("GomoryCuts", s.gomoryCuts),
   ("Branches", s.branches), ("Grobner", s.basisSteps), ("NonlinearBounds", s.nonlinearBounds),
   ("NonlinearHorner", s.nestedForms), ("TableauMaxRows", s.maxRows),
   ("TableauMaxColumns", s.maxColumns)]

def counterLines (s : Statistics) : List String :=
  (counters s).map fun c => "%% arith" ++ c.1 ++ "=" ++ toString c.2

/-! ## Failures -/

/-- Why a file has no text. -/
inductive FileError where
  | missing
  | permissionDenied
  | notDirectory
  | isDirectory
  | notText
  | other (text : String)
  deriving DecidableEq, Inhabited

namespace FileError

def message : FileError → String
  | missing => "No such file or directory (os error 2)"
  | permissionDenied => "Permission denied (os error 13)"
  | notDirectory => "Not a directory (os error 20)"
  | isDirectory => "Is a directory (os error 21)"
  | notText => "stream did not contain valid UTF-8"
  | other text => text

end FileError

/-- Why a snapshot is not decided. -/
inductive Failure where
  | unreadable (path : String) (error : FileError)
  | noSnapshot (path : String) (error : ReadError)
  | notLoaded (error : LoadError)
  deriving DecidableEq, Inhabited

namespace Failure

def message : Failure → String
  | unreadable path _ => "Error reading " ++ path
  | noSnapshot path _ => "Failed to parse snapshot " ++ path
  | notLoaded error => error.message

/-- What lies behind the failure. -/
def cause : Failure → Option String
  | unreadable _ error => some error.message
  | noSnapshot _ error => some error.message
  | notLoaded _ => none

end Failure

/-- A text of which each line is indented. -/
def indented (text : String) : String :=
  let indent := "    ".toList
  String.ofList (indent ++ text.toList.flatMap fun c => if c = '\n' then c :: indent else [c])

def failureText (f : Failure) : String :=
  match f.cause with
  | none => line ("Error: " ++ f.message)
  | some cause => line ("Error: " ++ f.message) ++ "\nCaused by:\n" ++ line (indented cause)

/-! ## Help -/

def usageText : String := line "Usage: arith-decide [OPTIONS] <SNAPSHOT>"

def helpText : String :=
  line "Decides a snapshot of an arithmetic problem" ++ "\n" ++ usageText ++ "\n" ++
  line "Arguments:" ++
  line "  <SNAPSHOT>  The snapshot to decide" ++ "\n" ++
  line "Options:" ++
  line "  -S, --selector <SELECTOR>    most-fractional (default) or first-fractional" ++
  line "  -n, --nodes <NODES>          Give up after this many nodes" ++
  line "      --nl-rounds <NL_ROUNDS>  Rounds of interval reasoning per check (default 4)" ++
  line "      --no-grobner             Do not complete a polynomial basis" ++
  line "  -s, --statistics             Print the counters after the verdict" ++
  line "  -h, --help                   Print help"

end ArithDecide.CommandLine
