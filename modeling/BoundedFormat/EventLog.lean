import BoundedFormat.Format

/-!
# The event log

A log keeps formatted events in the order in which they happened, each with the time at which it
was stored. An event for which there is no room is dropped, and reads no clock; a message for
which there is no memory is left empty. Whatever happens, the caller's pending error is saved
before and restored behind it.
-/

namespace BoundedFormat

/-- A clock in milliseconds: what it shows at each reading, and how often it has been read. -/
structure Clock where
  reading : Nat → Nat
  taken : Nat := 0

namespace Clock

/-- The time now, and the clock after this reading. -/
def read (c : Clock) : Nat × Clock := (c.reading c.taken, { c with taken := c.taken + 1 })

/-- A clock that shows the numbers of a list in turn and stays at the last one. -/
def ofList (readings : List Nat) : Clock where
  reading k := (readings[k]? <|> readings.getLast?).getD 0

/-- How many nanoseconds make a millisecond. -/
def nanosPerMilli : Nat := 1000000

/-- Milliseconds since the first reading of a clock in nanoseconds. Time that runs backwards
counts as none. -/
def sinceStart (nanos : Clock) : Clock where
  reading k := saturate ((nanos.reading (k + 1) - nanos.reading 0) / nanosPerMilli)

end Clock

/-- One event. -/
structure EventEntry where
  file : String
  line : Nat
  milliseconds : Nat
  message : Bytes
deriving DecidableEq, Repr

/-- A log, with its clock and its heap. -/
structure EventLog where
  dialect : Dialect
  clock : Clock
  heap : Heap
  /-- The events stored so far, the oldest first. -/
  entries : List EventEntry := []

namespace EventLog

/-- The room that one entry takes in the heap. -/
def entryBytes : Nat := 56

/-- Clears the pending error and takes back the saved one, if one was saved. -/
def restore (errors : ErrorState) (saved : Bool) : ErrorState :=
  if saved then errors.clear.pop.2 else errors.clear

/-- Records an event that happened at a line of a file. Its room is asked for as in a new array,
since no log comes near the size of one allocation. -/
def record (log : EventLog) (errors : ErrorState) (file : String) (line : Nat) (format : Bytes)
    (arguments : List Argument) : EventLog × ErrorState :=
  let (saved, errors) := errors.push
  match log.heap.request 1 entryBytes with
  | (false, heap) => ({ log with heap }, restore errors saved)
  | (true, heap) =>
    let (milliseconds, clock) := log.clock.read
    let message := formatAllocate log.dialect heap {} format arguments
    let entry : EventEntry :=
      { file, line, milliseconds, message := message.result.toOption.getD [] }
    ({ log with clock, heap := message.heap, entries := log.entries ++ [entry] },
     restore errors saved)

end EventLog
end BoundedFormat
