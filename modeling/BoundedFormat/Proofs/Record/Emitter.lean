import BoundedFormat.Proofs.FixedWidth
import BoundedFormat.Proofs.Record.Codec
import BoundedFormat.Record.Emitter
import Mathlib.Data.List.Basic
import Mathlib.Data.List.Induction

/-!
# What an emitter collects

A session is a list of calls on one emitter. From the calls alone it follows which records are
written and which of them are given a trace id, since the number of an id counts the calls that
were given one. The text is the lines of these records, each with its end, and no line has an end
of its own if the writer escapes control characters. A trace id tells the run and the number apart,
although the name of the run may hold what separates them.
-/

namespace BoundedFormat

namespace Emitter

open Calendar (padded)

/-! ## Trace ids -/

theorem toList_traceId (runId : String) (number : ℕ) :
    (traceId runId number).toList =
      traceStart.toList ++ (runId.toList ++ ("::".toList ++ padded 3 number)) := by
  simp [traceId]

/-- From behind, the number of a trace id is all that comes before a colon. -/
theorem takeWhile_reverse_traceId (runId : String) (number : ℕ) :
    (traceId runId number).toList.reverse.takeWhile Char.isDigit =
      (padded 3 number).reverse := by
  have hdigits : ∀ c ∈ (padded 3 number).reverse, c.isDigit := by
    intro c hc
    exact Calendar.isDigit_of_mem_padded (List.mem_reverse.mp hc)
  rw [toList_traceId, ← List.append_assoc, ← List.append_assoc, List.reverse_append,
    List.takeWhile_append_of_pos hdigits, List.reverse_append]
  exact List.append_nil _

/-- A trace id tells the run and the number. -/
theorem traceId_eq_iff (runId runId' : String) (number number' : ℕ) :
    traceId runId number = traceId runId' number' ↔ runId = runId' ∧ number = number' := by
  refine ⟨fun h => ?_, fun ⟨hrun, hnumber⟩ => by rw [hrun, hnumber]⟩
  have hpadded : padded 3 number = padded 3 number' := by
    rw [← List.reverse_inj, ← takeWhile_reverse_traceId runId, h, takeWhile_reverse_traceId]
  have hnumber : number = number' := by
    calc number = Nat.ofDigitChars 10 (padded 3 number) 0 :=
          (Calendar.ofDigitChars_padded 3 number).symm
      _ = Nat.ofDigitChars 10 (padded 3 number') 0 := by rw [hpadded]
      _ = number' := Calendar.ofDigitChars_padded 3 number'
  have hchars := congrArg String.toList h
  rw [toList_traceId, toList_traceId, hpadded, List.append_cancel_left_eq,
    List.append_cancel_right_eq] at hchars
  exact ⟨String.toList_inj.mp hchars, hnumber⟩

/-! ## Sessions -/

/-- A call on an emitter. -/
inductive Operation
  /-- Emits a record with the required fields only. -/
  | emit (timestamp : String) (level : Level) (event : String)
  /-- Emits a record that the caller made. -/
  | emitRecord (r : Record)
  /-- Hands on what has been collected; nothing is added to it. -/
  | flush

namespace Operation

/-- The call is given a trace id: it emits a record that has none. -/
def takesId : Operation → Bool
  | .emit .. => true
  | .emitRecord r => r.traceId.isEmpty
  | .flush => false

/-- The record that a call writes, if the next trace id has this number. -/
def record? (runId : String) (number : ℕ) : Operation → Option Record
  | .emit timestamp level event =>
    some { timestamp, traceId := Emitter.traceId runId number, level, event }
  | .emitRecord r =>
    some (if r.traceId.isEmpty then { r with traceId := Emitter.traceId runId number } else r)
  | .flush => none

end Operation

section Collecting

variable (codec : Record.Codec)

/-- The emitter behind a call. -/
def perform (e : Emitter) : Operation → Emitter
  | .emit timestamp level event => (e.emit timestamp level event codec).2
  | .emitRecord r => e.emitRecord r codec
  | .flush => e

/-- The emitter behind a session. -/
def performAll (e : Emitter) (operations : List Operation) : Emitter :=
  operations.foldl (perform codec) e

/-- The records that a session writes. The trace id of a call has the number of calls up to it that
are given one. -/
def written (runId : String) (operations : List Operation) : List Record :=
  operations.zipIdx.filterMap fun (operation, k) =>
    operation.record? runId ((operations.take (k + 1)).countP Operation.takesId)

/-- The text of records: their lines, each with its end. -/
def logText (records : List Record) : String := String.join (records.map (·.line codec ++ "\n"))

theorem logText_append (records more : List Record) :
    logText codec (records ++ more) = logText codec records ++ logText codec more := by
  simp [logText]

theorem toList_logText_cons (r : Record) (records : List Record) :
    (logText codec (r :: records)).toList =
      (r.line codec).toList ++ '\n' :: (logText codec records).toList := by
  simp [logText]

theorem written_concat (runId : String) (operations : List Operation) (operation : Operation) :
    written runId (operations ++ [operation]) =
      written runId operations ++
        (operation.record? runId
          ((operations ++ [operation]).countP Operation.takesId)).toList := by
  rw [written, written, List.zipIdx_append, List.filterMap_append]
  congr 1
  · apply List.filterMap_congr
    rintro ⟨earlier, k⟩ hk
    have hlt : k < operations.length := (List.mem_zipIdx' hk).1
    dsimp only
    rw [List.take_append_of_le_length hlt]
  · have hall : (operations ++ [operation]).take (operations.length + 1) =
        operations ++ [operation] := List.take_of_length_le (by simp)
    simp only [List.zipIdx_singleton, List.filterMap_cons, List.filterMap_nil, Nat.zero_add, hall]
    cases operation.record? runId ((operations ++ [operation]).countP Operation.takesId) <;> rfl

theorem write_eq (e : Emitter) (r : Record) :
    e.write r codec = { e with text := e.text ++ logText codec [r] } := by
  simp [write, logText, String.append_assoc]

/-- A call counts an id if it gives one, and writes its record. -/
theorem perform_eq (e : Emitter) (operation : Operation) :
    e.perform codec operation =
      { runId := e.runId
        sequence := e.sequence + [operation].countP Operation.takesId
        text := e.text ++
          logText codec (operation.record? e.runId
            (e.sequence + [operation].countP Operation.takesId)).toList } := by
  cases operation with
  | emit timestamp level event => exact write_eq codec _ _
  | emitRecord r =>
      by_cases hid : r.traceId.isEmpty <;>
        simp [perform, emitRecord, nextTraceId, Operation.record?, Operation.takesId, write_eq, hid]
  | flush => simp [perform, Operation.record?, Operation.takesId, logText]

/-- A session counts the ids it gives, and writes its records. -/
theorem performAll_eq (runId : String) (operations : List Operation) :
    ({ runId } : Emitter).performAll codec operations =
      { runId
        sequence := operations.countP Operation.takesId
        text := logText codec (written runId operations) } := by
  induction operations using List.reverseRecOn with
  | nil => rfl
  | append_singleton operations operation ih =>
      rw [performAll] at ih ⊢
      rw [List.foldl_append, ih, List.foldl_cons, List.foldl_nil, perform_eq, written_concat,
        logText_append, List.countP_append]

end Collecting

/-! ## Lines -/

section Lines

variable {codec : Record.Codec} (hescapes : codec.EscapesControls)
include hescapes

/-- A line has no end of its own. -/
theorem newline_notMem_line (r : Record) : '\n' ∉ (r.line codec).toList := by
  intro h
  exact absurd (hescapes _ _ h) (by decide)

theorem count_newline_logText (records : List Record) :
    (logText codec records).toList.count '\n' = records.length := by
  induction records with
  | nil => rfl
  | cons r records ih =>
      have hline := List.count_eq_zero.mpr (newline_notMem_line hescapes r)
      rw [toList_logText_cons, List.count_append, hline, List.count_cons_self, ih, Nat.zero_add,
        List.length_cons]

/-- Cut at line ends, the text of records is their lines, and nothing behind the last end. -/
theorem splitOnP_logText (records : List Record) :
    (logText codec records).toList.splitOnP (· == '\n') =
      records.map (fun r => (r.line codec).toList) ++ [[]] := by
  induction records with
  | nil => rfl
  | cons r records ih =>
      have hline : ∀ c ∈ (r.line codec).toList, (c == '\n') = false := by
        intro c hc
        rw [beq_eq_false_iff_ne]
        rintro rfl
        exact newline_notMem_line hescapes r hc
      rw [toList_logText_cons, List.splitOnP_append_cons_of_forall_mem hline _ rfl, ih]
      rfl

end Lines

/-- **What an emitter collects.** Behind any session the text is, in the order of the calls, the
lines of the records that were written, each with its end: the texts of objects with the trace id,
the event and the other fields of the records. No other end is in it, so that cutting at the ends
gives the lines back; and if the codec reads what it writes, each line is read as an object with the
fields of its record. A call that is given a trace id gets the number of such calls so far, itself
included, in three digits or as many as it takes; a record with an id of its own is written as it
is. Ids of any two emitters are the same only for the same run and number. -/
theorem performAll_collects (codec : Record.Codec) (hencodes : codec.EncodesFields)
    (hescapes : codec.EscapesControls) (runId : String) (operations : List Operation) :
    let e := ({ runId } : Emitter).performAll codec operations
    let records := written runId operations
    e.text = String.join (records.map fun r => codec.write (codec.encode r) ++ "\n") ∧
    (∀ r ∈ records, ∃ more, codec.encode r =
      .object
        (("timestamp", .string r.timestamp) :: ("trace_id", .string r.traceId) ::
          ("level", .string r.level.name) :: ("event", .string r.event) :: more)) ∧
    e.text.toList.count '\n' = records.length ∧
    e.text.toList.splitOnP (· == '\n') =
      records.map (fun r => (codec.write (codec.encode r)).toList) ++ [[]] ∧
    (codec.Inverse → ∀ r ∈ records, r.Representable → ∃ object,
      codec.read? (codec.write (codec.encode r)) = some object ∧ r.HeldBy object) ∧
    e.sequence = operations.countP Operation.takesId ∧
    (∀ timestamp level event,
      (e.emit timestamp level event codec).1 =
        { timestamp, level, event,
          traceId := traceId runId (operations.countP Operation.takesId + 1) }) ∧
    (∀ number, ∃ digits : List Char,
      traceId runId number = "bootfmt::" ++ runId ++ "::" ++ String.ofList digits ∧
      digits.length = max 3 (Nat.toDigits 10 number).length ∧ digits.all Char.isDigit ∧
      Nat.ofDigitChars 10 digits 0 = number) ∧
    (∀ runId' number number',
      traceId runId number = traceId runId' number' ↔ runId = runId' ∧ number = number') := by
  intro e records
  have hrun : e =
      { runId
        sequence := operations.countP Operation.takesId
        text := logText codec records } :=
    performAll_eq codec runId operations
  rw [hrun]
  refine ⟨rfl, ?_, count_newline_logText hescapes records, splitOnP_logText hescapes records, ?_,
    rfl, ?_, ?_, traceId_eq_iff runId⟩
  · intro r _
    exact ⟨_, hencodes r⟩
  · intro hinverse r _ hr
    obtain ⟨members, hread, hheld⟩ := hinverse.exists_heldBy hr
    rw [hencodes r]
    exact ⟨.object members, hread, hheld⟩
  · intro timestamp level event
    rfl
  · intro number
    refine ⟨padded 3 number, rfl, List.length_leftpad, ?_, Calendar.ofDigitChars_padded 3 number⟩
    rw [List.all_eq_true]
    intro c hc
    exact Calendar.isDigit_of_mem_padded hc

/-- A record with an id of its own leaves the count alone, and the line end in its event is
escaped. -/
theorem performAll_collects_own_id :
    let own : Record := { timestamp := "t", traceId := "own", level := .warn, event := "x\ny" }
    let operations : List Operation :=
      [.emit "t" .info "x", .emitRecord own, .flush, .emit "t" .debug ""]
    let e := ({ runId := "a::1" } : Emitter).performAll .standard operations
    (written "a::1" operations).map Record.traceId =
      ["bootfmt::a::1::001", "own", "bootfmt::a::1::002"] ∧
    e.text.toList.count '\n' = 3 ∧ e.sequence = 2 ∧
    ∃ object, Json.parse? (own.line) = some object ∧ own.HeldBy object := by
  intro own operations e
  obtain ⟨-, -, hcount, -, hread, hsequence, -⟩ :=
    performAll_collects .standard Record.Codec.faithful_standard.encodes
      Record.Codec.compact_standard.escapes "a::1" operations
  have hown : own ∈ written "a::1" operations := List.mem_of_getElem? (i := 1) rfl
  have hrepresentable : own.Representable := by
    constructor <;> exact fun _ hnone => by cases hnone
  refine ⟨by decide +kernel, hcount, hsequence, ?_⟩
  exact hread Record.Codec.faithful_standard.inverse own hown hrepresentable

end Emitter
end BoundedFormat
