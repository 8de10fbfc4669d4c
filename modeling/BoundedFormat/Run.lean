import BoundedFormat.Format
import BoundedFormat.Record.Basic

/-!
# Requests and what is reported of them

A formatting run gives the bytes that reached their destination and the length of the whole
output; its record says whether anything was lost. Reports on a division and on the reading of a
number are JSON objects.
-/

namespace BoundedFormat

/-- The result of one formatting request. -/
structure FormatRun where
  /-- The bytes that reached the destination, without the NUL. -/
  output : Bytes
  /-- The length of the whole output. -/
  length : Nat
  /-- The size of the destination, if it was bounded. -/
  capacity : Option Nat
deriving DecidableEq, Repr

namespace FormatRun

/-- True if the destination could not hold the whole output. -/
def truncated (run : FormatRun) : Bool := run.output.length < run.length

/-- The outcome that is recorded of a run. -/
def outcome (run : FormatRun) : Outcome := if run.truncated then .truncated else .pass

/-- The event that a run is recorded as. -/
def eventName : String := "format"

/-- The record of a run that took `latency` nanoseconds. -/
def record (run : FormatRun) (timestamp traceId format : String) (latency : Nat) : Record where
  timestamp := timestamp
  traceId := traceId
  level := .info
  event := eventName
  format := some format
  length := some run.length
  capacity := run.capacity
  outcome := some run.outcome
  latency := some latency

/-- Formats into a buffer of a size that can be allocated, or into one allocated for the output. -/
def perform (dialect : Dialect) (format : Bytes) (arguments : List Argument)
    (capacity : Option Nat) (heap : Heap := .system) : Except Error FormatRun :=
  match capacity with
  | some size =>
    let (stored, _) := formatInto dialect heap (List.replicate size 0) format arguments
    .ok { output := stored.buffer.take (min stored.length (size - 1)), length := stored.length,
          capacity }
  | none =>
    (formatAllocate dialect heap {} format arguments).result.map fun output =>
      { output, length := output.length, capacity }

/-- What a request comes to. The buffer is not asked of the heap. Asking for one that no allocation
is large enough for ends the program: there is no result, not even an error. -/
def perform? (dialect : Dialect) (format : Bytes) (arguments : List Argument)
    (capacity : Option Nat) (heap : Heap := .system) : Option (Except Error FormatRun) :=
  if capacity.all (· ≤ maxAllocation) then some (perform dialect format arguments capacity heap)
  else none

end FormatRun

/-- The report on a division; a zero divisor is refused. -/
def divisionReport? (dividend divisor : Word) : Option Json :=
  (Division.divMod? dividend divisor).map fun (quotient, remainder) =>
    .object
      [("dividend", Record.naturalJson dividend.toNat),
       ("divisor", Record.naturalJson divisor.toNat),
       ("quotient", Record.naturalJson quotient.toNat),
       ("remainder", Record.naturalJson remainder.toNat)]

/-- The name of the end of a reading. -/
def Numeral.Status.name : Numeral.Status → String
  | .success => "success"
  | .overflow => "overflow"
  | .badNumber => "bad_number"

/-- The report on the reading of a number. -/
def readingReport (text : String) (base : Nat) : Json :=
  let r := Numeral.read base (textBytes text)
  .object
    [("value", Record.naturalJson r.value.toNat), ("consumed", Record.naturalJson r.consumed),
     ("status", .string r.status.name)]

end BoundedFormat
