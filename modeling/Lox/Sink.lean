/-!
# The sink for output

A sink keeps the bytes that are written to it. It may have a limit on how many it holds, and then
takes the bytes that still fit and refuses the rest, and it may refuse to be flushed.
-/

namespace Lox

/-- Why a sink refused. -/
inductive SinkFault where
  | full
  | flushFailed
deriving DecidableEq

namespace SinkFault

/-- The words for a refusal. -/
def cause : SinkFault → String
  | full => "sink full"
  | flushFailed => "flush failed"

/-- The report of a refusal. -/
def report (f : SinkFault) : String := "failed to write program output: " ++ f.cause

end SinkFault

/-- A sink: the bytes it holds, how many it may hold, whether flushing it fails, and how often it
was flushed. -/
structure Sink where
  held : ByteArray := ByteArray.empty
  limit : Option Nat := none
  failFlush : Bool := false
  flushes : Nat := 0

namespace Sink

/-- Takes as many bytes as still fit. -/
def write (bytes : ByteArray) : EStateM SinkFault Sink Unit
  | ⟨held, none, failFlush, flushes⟩ => .ok () ⟨held ++ bytes, none, failFlush, flushes⟩
  | ⟨held, some limit, failFlush, flushes⟩ =>
    let room := limit - held.size
    if bytes.size ≤ room then .ok () ⟨held ++ bytes, some limit, failFlush, flushes⟩
    else .error .full ⟨held ++ bytes.extract 0 room, some limit, failFlush, flushes⟩

/-- Counts a flush, which fails if the sink was told so. -/
def flush : EStateM SinkFault Sink Unit
  | ⟨held, limit, failFlush, flushes⟩ =>
    let sink : Sink := ⟨held, limit, failFlush, flushes + 1⟩
    if failFlush then .error .flushFailed sink else .ok () sink

end Sink

end Lox
