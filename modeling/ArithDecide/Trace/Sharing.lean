import ArithDecide.Trace

/-!
# Tracers that share a writer

A synchronised tracer can be handed to several users. Each has tags of its own and starts with those
of the tracer it was made from; all lines go to one writer. A single-threaded tracer cannot be
shared.
-/

namespace ArithDecide

/-- Whether a tracer may be shared. -/
inductive ThreadingMode where
  | single
  | synchronised
  deriving DecidableEq, Inhabited

/-- A family of tracers with one writer. -/
structure SharedTracers where
  mode : ThreadingMode
  writer : TraceWriter
  /-- The enabled tags of each tracer. -/
  enabled : Array (List TraceTag)
  deriving Inhabited

namespace SharedTracers

/-- One tracer without enabled tags. -/
def new (mode : ThreadingMode) (sink : TraceSink) : SharedTracers := ⟨mode, .new sink, #[[]]⟩

/-- One tracer of the family. -/
def tracer (family : SharedTracers) (handle : Nat) : Tracer :=
  ⟨(family.enabled[handle]?).getD [], family.writer⟩

/-- Changes one tracer of the family; what it writes is seen by all. -/
def update (family : SharedTracers) (handle : Nat) (change : Tracer → Tracer) : SharedTracers :=
  let changed := change (family.tracer handle)
  { family with
    writer := changed.writer
    enabled := family.enabled.modify handle fun _ => changed.enabled }

/-- A new tracer for the writer, unless the mode forbids it. -/
def share (family : SharedTracers) (handle : Nat) : Option Nat × SharedTracers :=
  match family.mode with
  | .single => (none, family)
  | .synchronised =>
    (some family.enabled.size,
      { family with enabled := family.enabled.push (family.tracer handle).enabled })

end SharedTracers

end ArithDecide
