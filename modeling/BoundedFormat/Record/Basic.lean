import BoundedFormat.Json.Basic

/-!
# Log records

A record describes one operation. It is written as a JSON object with the fields in a fixed order;
fields without a value are left out.
-/

namespace BoundedFormat

/-- How severe a record is. -/
inductive Level
  | trace
  | debug
  | info
  | warn
  | error
deriving DecidableEq, Repr

namespace Level

/-- The name of a level. -/
def name : Level → String
  | .trace => "trace"
  | .debug => "debug"
  | .info => "info"
  | .warn => "warn"
  | .error => "error"

/-- All levels, the least severe first. -/
def all : List Level := [.trace, .debug, .info, .warn, .error]

/-- The level with a name. -/
def ofName? (name : String) : Option Level := all.find? (·.name == name)

end Level

/-- How an operation ended. -/
inductive Outcome
  | pass
  | truncated
  | fail
  | error
deriving DecidableEq, Repr

namespace Outcome

/-- The name of an outcome. -/
def name : Outcome → String
  | .pass => "pass"
  | .truncated => "truncated"
  | .fail => "fail"
  | .error => "error"

/-- All outcomes. -/
def all : List Outcome := [.pass, .truncated, .fail, .error]

/-- The outcome with a name. -/
def ofName? (name : String) : Option Outcome := all.find? (·.name == name)

end Outcome

/-- A log record. -/
structure Record where
  timestamp : String
  traceId : String
  level : Level
  event : String
  format : Option String := none
  /-- The length of the whole output. -/
  length : Option Nat := none
  /-- The size of the buffer, if the output was bounded. -/
  capacity : Option Nat := none
  outcome : Option Outcome := none
  /-- How long the operation took, in nanoseconds. -/
  latency : Option Nat := none
  details : Option Json := none

namespace Record

/-- A natural number in JSON. -/
def naturalJson (n : Nat) : Json := .number (.integer n)

/-- A field that may be missing. -/
def optionalField {α : Type} (key : String) (encode : α → Json) (value : Option α) :
    List (String × Json) :=
  (value.map fun a => (key, encode a)).toList

/-- The fields of a record in the order in which they are written. -/
def fields (r : Record) : List (String × Json) :=
  [("timestamp", .string r.timestamp), ("trace_id", .string r.traceId),
   ("level", .string r.level.name), ("event", .string r.event)] ++
  optionalField "format" .string r.format ++
  optionalField "length" naturalJson r.length ++
  optionalField "capacity" naturalJson r.capacity ++
  optionalField "outcome" (fun o => .string o.name) r.outcome ++
  optionalField "latency_ns" naturalJson r.latency ++
  optionalField "details" id r.details

end Record
end BoundedFormat
