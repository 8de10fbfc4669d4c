import BoundedFormat.Calendar
import BoundedFormat.Record.Codec

/-!
# Emitting records

An emitter collects the lines of a run. A record without a trace id is given one, made of the
name of the run and the number of ids given so far. Records that bring their own id do not count.
The count has the size of a word; no run gives so many ids that it would come to its end.
-/

namespace BoundedFormat

/-- The records of one run. -/
structure Emitter where
  runId : String
  /-- How many trace ids have been given. -/
  sequence : Nat := 0
  /-- The lines so far, each with its end. -/
  text : String := ""
deriving DecidableEq, Repr

namespace Emitter

/-- What every trace id begins with. -/
def traceStart : String := "bootfmt::"

/-- The trace id with a number, which has at least three digits. -/
def traceId (runId : String) (number : Nat) : String :=
  traceStart ++ runId ++ "::" ++ String.ofList (Calendar.padded 3 number)

/-- The next trace id. -/
def nextTraceId (e : Emitter) : String × Emitter :=
  let number := e.sequence + 1
  (traceId e.runId number, { e with sequence := number })

/-- Writes the line of a record. -/
def write (e : Emitter) (r : Record) (codec : Record.Codec := .standard) : Emitter :=
  { e with text := e.text ++ r.line codec ++ "\n" }

/-- Emits a record with the required fields only. -/
def emit (e : Emitter) (timestamp : String) (level : Level) (event : String)
    (codec : Record.Codec := .standard) : Record × Emitter :=
  let (traceId, e) := e.nextTraceId
  let r : Record := { timestamp, traceId, level, event }
  (r, e.write r codec)

/-- Emits a record, with the next trace id if it has none. -/
def emitRecord (e : Emitter) (r : Record) (codec : Record.Codec := .standard) : Emitter :=
  if r.traceId.isEmpty then
    let (traceId, e) := e.nextTraceId
    e.write { r with traceId } codec
  else e.write r codec

end Emitter
end BoundedFormat
