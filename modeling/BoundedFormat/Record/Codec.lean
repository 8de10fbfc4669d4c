import BoundedFormat.Json.Printer
import BoundedFormat.Json.Reader
import BoundedFormat.Record.Basic

/-!
# Writing and reading records

Records go through a `Codec`, in two steps each way: to JSON values and to their texts. Emitting and
validating take any codec; `Codec.standard` stands where no other is named.
-/

namespace BoundedFormat.Record

/-- How records are written and read. -/
structure Codec where
  /-- The JSON value of a record. -/
  encode : Record → Json
  /-- The text of a value. -/
  write : Json → String
  /-- The value of a text, if it holds one. -/
  read? : String → Option Json
  /-- The record of a value, if it is one. -/
  decode? : Json → Option Record

/-- A name: a string, or an object whose only member has the name as its key and no value. -/
def nameOf? : Json → Option String
  | .string name => some name
  | .object [(name, .null)] => some name
  | _ => none

/-- Reads a field that may be missing or null. -/
def optional? {α : Type} (decode : Json → Option α) : Option Json → Option (Option α)
  | none | some .null => some none
  | some value => (decode value).map some

/-- The record of an object, if its fields have the right types. -/
def ofObject? (object : Json) : Option Record := do
  let timestamp ← (object.get? "timestamp").bind Json.text?
  let traceId ← (object.get? "trace_id").bind Json.text?
  let level ← ((object.get? "level").bind nameOf?).bind Level.ofName?
  let event ← (object.get? "event").bind Json.text?
  let format ← optional? Json.text? (object.get? "format")
  let length ← optional? Json.natural? (object.get? "length")
  let capacity ← optional? Json.natural? (object.get? "capacity")
  let outcome ← optional? (fun value => (nameOf? value).bind Outcome.ofName?)
    (object.get? "outcome")
  let latency ← optional? Json.natural? (object.get? "latency_ns")
  let details ← optional? some (object.get? "details")
  return { timestamp, traceId, level, event, format, length, capacity, outcome, latency, details }

/-- The codec of this library. -/
def Codec.standard : Codec where
  encode r := .object r.fields
  write := Json.print
  read? := Json.parse?
  decode? := ofObject?

/-- The line of a record, without its end. -/
def line (r : Record) (codec : Codec := .standard) : String := codec.write (codec.encode r)

end BoundedFormat.Record
