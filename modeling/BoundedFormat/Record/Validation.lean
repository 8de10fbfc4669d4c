import BoundedFormat.Bytes
import BoundedFormat.Record.Codec

/-!
# Validating log lines

`validateLine` reads a line back into its record or says what is wrong with it: a text that is not
JSON or not an object, required fields that are missing, names that are not known, a run that
claims to have passed though its output did not fit, or a field of the wrong type. Only the last
fault hides others. `validateText` goes through a whole log.
-/

namespace BoundedFormat

/-- What can be wrong with a line. -/
inductive Fault
  /-- The line is not JSON. -/
  | notJson
  /-- The line is not an object. -/
  | notObject
  /-- A required field is missing. -/
  | missing (field : String)
  /-- The level has no such name. -/
  | unknownLevel (name : String)
  /-- The outcome has no such name. -/
  | unknownOutcome (name : String)
  /-- The outcome is a pass, but the output did not fit. -/
  | unfit (length capacity : Nat)
  /-- A field has a value of the wrong type. -/
  | badField
deriving DecidableEq, Repr

namespace Fault

/-- The field that a fault is reported for. -/
def field : Fault → String
  | .notJson => "<json>"
  | .notObject => "<root>"
  | .missing field => field
  | .unknownLevel _ => "level"
  | .unknownOutcome _ | .unfit .. => "outcome"
  | .badField => "<deserialization>"

/-- The wording of a fault. What a reader itself says of a text that it refuses is not kept. -/
def message : Fault → String
  | .notJson => "invalid JSON: the line is not one JSON value"
  | .notObject => "expected JSON object"
  | .missing _ => "required field missing"
  | .unknownLevel name => "invalid level: '" ++ name ++ "'"
  | .unknownOutcome name => "invalid outcome: '" ++ name ++ "'"
  | .unfit length capacity =>
    "length " ++ toString length ++ " does not fit capacity " ++ toString capacity ++
      " but outcome is 'pass'"
  | .badField => "failed to deserialize: a field has a value of the wrong type"

end Fault

/-- A fault at a line. -/
structure Complaint where
  lineNumber : Nat
  fault : Fault
deriving DecidableEq, Repr

/-- A complaint as it is shown. -/
def Complaint.display (c : Complaint) : String :=
  "line " ++ toString c.lineNumber ++ ": field '" ++ c.fault.field ++ "': " ++ c.fault.message

namespace Record

/-- The fields that every record has. -/
def requiredFields : List String := ["timestamp", "trace_id", "level", "event"]

/-- The names of levels that a line may have. -/
def levelNames : List String := ["trace", "debug", "info", "warn", "error"]

/-- The names of outcomes that a line may have. -/
def outcomeNames : List String := ["pass", "truncated", "fail", "error"]

/-- The faults of an object that show in its fields one by one. -/
def fieldFaults (object : Json) : List Fault :=
  let missing := requiredFields.filter fun field => (object.get? field).isNone
  let level := (object.get? "level").bind Json.text?
  let outcome := (object.get? "outcome").bind Json.text?
  let length := (object.get? "length").bind Json.natural?
  let capacity := (object.get? "capacity").bind Json.natural?
  missing.map .missing ++
  (match level with
    | some name => if levelNames.contains name then [] else [.unknownLevel name]
    | none => []) ++
  (match outcome with
    | some name => if outcomeNames.contains name then [] else [.unknownOutcome name]
    | none => []) ++
  (match length, capacity with
    | some length, some capacity =>
      if outcome = some "pass" ∧ 0 < capacity ∧ capacity ≤ length then
        [.unfit length capacity]
      else []
    | _, _ => [])

/-- The record of a line, or all that is wrong with it. -/
def ofLine (line : String) (codec : Codec := .standard) : Except (List Fault) Record :=
  match codec.read? line with
  | none => .error [.notJson]
  | some (.object members) =>
    let object := Json.object members
    match fieldFaults object with
    | [] =>
      match codec.decode? object with
      | some r => .ok r
      | none => .error [.badField]
    | faults => .error faults
  | some _ => .error [.notObject]

/-- The record of a numbered line, or the complaints about it. -/
def validateLine (line : String) (lineNumber : Nat) (codec : Codec := .standard) :
    Except (List Complaint) Record :=
  (ofLine line codec).mapError (·.map fun fault => { lineNumber, fault })

/-! ### Whole logs -/

/-- The characters with the Unicode property `White_Space`, as ranges of code points. -/
def blankRanges : List (Nat × Nat) :=
  [(0x09, 0x0d), (0x20, 0x20), (0x85, 0x85), (0xa0, 0xa0), (0x1680, 0x1680), (0x2000, 0x200a),
   (0x2028, 0x2029), (0x202f, 0x202f), (0x205f, 0x205f), (0x3000, 0x3000)]

/-- True of blank characters. -/
def isBlankChar (c : Char) : Bool :=
  blankRanges.any fun (first, last) => first ≤ c.toNat && c.toNat ≤ last

/-- A text without the blanks around it. -/
def trimBlanks (s : List Char) : List Char :=
  ((s.dropWhile isBlankChar).reverse.dropWhile isBlankChar).reverse

/-- What is to be said of a whole log. -/
structure Report where
  /-- The number of lines that are not blank. -/
  lines : Nat
  complaints : List Complaint
deriving DecidableEq, Repr

/-- The lines of a log that are not blank, trimmed, with their numbers. Lines are numbered from
one, blank ones too. -/
def logLines (text : List Char) : List (List Char × Nat) :=
  ((text.splitOnP (· == '\n')).zipIdx 1).filterMap fun (line, number) =>
    match trimBlanks line with
    | [] => none
    | trimmed => some (trimmed, number)

/-- The complaints about a numbered line. -/
def complaintsAbout (line : List Char) (lineNumber : Nat) (codec : Codec := .standard) :
    List Complaint :=
  match validateLine (String.ofList line) lineNumber codec with
  | .ok _ => []
  | .error complaints => complaints

/-- The report on the text of a log. -/
def validateText (text : String) (codec : Codec := .standard) : Report :=
  let lines := logLines text.toList
  { lines := lines.length
    complaints := lines.flatMap fun (line, number) => complaintsAbout line number codec }

/-- The report on the bytes of a log, if they are UTF-8. -/
def validateBytes? (content : Bytes) (codec : Codec := .standard) : Option Report :=
  (String.fromUTF8? content.toByteArray).map (validateText · codec)

end Record
end BoundedFormat
