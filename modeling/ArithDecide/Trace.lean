/-!
# Tracing

The engine reports what it does as lines `[tag] message`. Only lines with an enabled tag are
written. A writer collects them in memory, hands them to standard error, or puts them into a file
through a block buffer, so that the text of a file grows at a flush or when the buffer is full.
-/

namespace ArithDecide

/-- The topics of the trace. -/
inductive TraceTag where
  | simplex
  | bounds
  | atoms
  | integer
  | nonlinear
  | backtrack
  deriving DecidableEq, Inhabited

namespace TraceTag

/-- Every tag. -/
def all : List TraceTag := [simplex, bounds, atoms, integer, nonlinear, backtrack]

def name : TraceTag → String
  | simplex => "simplex"
  | bounds => "bounds"
  | atoms => "atoms"
  | integer => "integer"
  | nonlinear => "nonlinear"
  | backtrack => "backtrack"

/-- The tag with a name. -/
def ofName? (name : String) : Option TraceTag := all.find? fun tag => tag.name == name

end TraceTag

/-! ## Writers -/

/-- A file that is written through a block buffer: what it holds, and what waits in the buffer. -/
structure BufferedFile where
  contents : String
  waiting : String
  deriving Inhabited

namespace BufferedFile

/-- The size of the block buffer in bytes. -/
def capacity : Nat := 8192

/-- A file that was just created. -/
def create : BufferedFile := ⟨"", ""⟩

/-- Moves what waits in the buffer to the file. -/
def flush (file : BufferedFile) : BufferedFile := ⟨file.contents ++ file.waiting, ""⟩

/-- Puts one piece of text into the buffer. The buffer is flushed first if the piece does not fit,
and a piece as large as the whole buffer goes to the file at once. -/
def write (file : BufferedFile) (piece : String) : BufferedFile :=
  let room := capacity - file.waiting.utf8ByteSize
  let file := if room < piece.utf8ByteSize then file.flush else file
  if capacity ≤ piece.utf8ByteSize then { file with contents := file.contents ++ piece }
  else { file with waiting := file.waiting ++ piece }

end BufferedFile

/-- Where trace lines go. -/
inductive TraceSink where
  | discard
  | standardError
  | memory
  /-- A file; `writable` says whether it can be created. -/
  | file (writable : Bool)
  deriving DecidableEq, Inhabited

/-- A sink together with what was written to it. -/
structure TraceWriter where
  sink : TraceSink
  /-- The lines in memory that were not taken yet. -/
  memory : String
  /-- The lines for standard error. -/
  standardError : String
  /-- The file, once a line was written to it. -/
  file : Option BufferedFile
  deriving Inhabited

namespace TraceWriter

def new (sink : TraceSink) : TraceWriter := ⟨sink, "", "", none⟩

/-- Writes one line. A file is created by its first line; if that is impossible nothing is written.
-/
def writeLine (writer : TraceWriter) (line : String) : TraceWriter :=
  match writer.sink with
  | .discard => writer
  | .standardError => { writer with standardError := writer.standardError ++ line ++ "\n" }
  | .memory => { writer with memory := writer.memory ++ line ++ "\n" }
  | .file writable =>
    if writable then
      { writer with file := some (((writer.file.getD .create).write line).write "\n") }
    else writer

/-- The lines in memory, which are forgotten. -/
def take (writer : TraceWriter) : String × TraceWriter :=
  (writer.memory, { writer with memory := "" })

def flush (writer : TraceWriter) : TraceWriter :=
  { writer with file := writer.file.map BufferedFile.flush }

end TraceWriter

/-! ## Tracers -/

/-- A writer with the tags that are enabled. -/
structure Tracer where
  enabled : List TraceTag
  writer : TraceWriter
  deriving Inhabited

namespace Tracer

/-- A tracer without enabled tags. -/
def new (sink : TraceSink) : Tracer := ⟨[], .new sink⟩

def isEnabled (tracer : Tracer) (tag : TraceTag) : Bool := tracer.enabled.contains tag

def enable (tracer : Tracer) (tag : TraceTag) : Tracer :=
  { tracer with enabled := if tracer.isEnabled tag then tracer.enabled else tag :: tracer.enabled }

def disable (tracer : Tracer) (tag : TraceTag) : Tracer :=
  { tracer with enabled := tracer.enabled.filter fun other => other ≠ tag }

/-- Writes the line `[tag] message` if the tag is enabled. The message is built only then. -/
def trace (tracer : Tracer) (tag : TraceTag) (message : Unit → String) : Tracer :=
  if tracer.isEnabled tag then
    { tracer with writer := tracer.writer.writeLine ("[" ++ tag.name ++ "] " ++ message ()) }
  else tracer

end Tracer

end ArithDecide
