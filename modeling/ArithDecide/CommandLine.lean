import ArithDecide.CommandLine.Arguments
import ArithDecide.CommandLine.Report

/-!
# The command line

`CommandLine.run` is the whole program as a function of its words and of the texts of files: it
reads the snapshot that the words name, loads it into an engine, decides it and reports. Nothing is
reported before the verdict is known.
-/

namespace ArithDecide.CommandLine

/-- What a run leaves behind. -/
structure Outcome where
  exitCode : Nat
  output : String
  errors : String
  deriving DecidableEq, Inhabited

namespace Outcome

/-- A run that did what was asked for. -/
def success (output : String) : Outcome := ⟨0, output, ""⟩

/-- A run that was asked for something, but failed. -/
def failure (f : Failure) : Outcome := ⟨1, "", failureText f⟩

/-- A run that was not asked for anything that can be done. -/
def misuse (error : UsageError) : Outcome :=
  ⟨2, "", line ("error: " ++ error.message) ++ "\n" ++ usageText⟩

end Outcome

namespace Settings

/-- The options of the engine; those that cannot be set have their defaults. -/
def options (s : Settings) : Options := { nonlinearRounds := s.rounds, enableBasis := s.basis }

/-- When the search stops. -/
def stop (s : Settings) : StopCondition :=
  match s.nodes with
  | some nodes => .nodeBudget nodes
  | none => .never

end Settings

/-- Decides the snapshot of a file, given the text of the file. -/
def decideText (s : Settings) (path text : String) : Except Failure String := do
  let snapshot ← (Snapshot.read text).mapError (.noSnapshot path)
  let loaded := snapshot.load (Engine.new s.options)
  let declared ← loaded.result.mapError .notLoaded
  let search := loaded.engine.solve s.selector.selector s.stop
  let lines := verdictLines declared search.result ++
    if s.statistics then counterLines search.engine.statistics else []
  return String.join (lines.map line)

/-- Decides the snapshot of a file, given its text or why it has none. -/
def decideFile (s : Settings) (path : String) (contents : Except FileError String) : Outcome :=
  match contents.mapError (.unreadable path) >>= decideText s path with
  | .ok output => .success output
  | .error failure => .failure failure

/-- Runs the program on the words of a command line. The texts of files are read with `readFile`. -/
def runWith {m : Type → Type} [Monad m] (readFile : String → m (Except FileError String))
    (words : List String) : m Outcome := do
  match Request.ofWords words with
  | .error error => return .misuse error
  | .ok .help => return .success helpText
  | .ok (.decide path settings) => return decideFile settings path (← readFile path)

/-- Runs the program on the words of a command line, given the texts of files. -/
def run (files : String → Except FileError String) (words : List String) : Outcome :=
  Id.run (runWith (fun path => pure (files path)) words)

end ArithDecide.CommandLine
