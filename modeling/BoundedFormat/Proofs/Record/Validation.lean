import BoundedFormat.Proofs.Record.Emitter
import BoundedFormat.Proofs.Record.Line

/-!
# What validation finds in a log

The lines of a log that emitters wrote with a compact codec are not blank and have no blanks around
them, so each record is found at its own line. It is read back as it was, or it claims to have
passed with an output that did not fit, and then this is the only thing that is said of its line.
The report on a log of any number of sessions counts their records and has one complaint for each
such claim.
-/

namespace BoundedFormat

namespace Emitter

/-- The calls on an emitter from the time it is opened. -/
structure Session where
  runId : String
  operations : List Operation

/-- The text that a session leaves. -/
def Session.text (session : Session) (codec : Record.Codec) : String :=
  (({ runId := session.runId } : Emitter).performAll codec session.operations).text

/-- The records that a session writes. -/
def Session.records (session : Session) : List Record := written session.runId session.operations

/-- The record that a call brings can be read back. -/
def Operation.Representable : Operation → Prop
  | .emitRecord r => r.Representable
  | .emit .. | .flush => True

/-- All records that the calls of a session bring can be read back. -/
def Session.Representable (session : Session) : Prop :=
  ∀ operation ∈ session.operations, operation.Representable

theorem representable_of_record? {runId : String} {number : ℕ} {operation : Operation} {r : Record}
    (h : operation.Representable) (hr : r ∈ operation.record? runId number) :
    r.Representable := by
  cases operation with
  | emit timestamp level event =>
      cases hr
      constructor <;> exact fun _ hnone => by cases hnone
  | emitRecord brought =>
      simp only [Operation.record?, Option.mem_some] at hr
      subst hr
      by_cases hid : brought.traceId.isEmpty
      · rw [if_pos hid]
        exact { h with }
      · rw [if_neg hid]
        exact h
  | flush => cases hr

theorem Session.Representable.of_mem_records {session : Session} (h : session.Representable)
    {r : Record} (hr : r ∈ session.records) : r.Representable := by
  obtain ⟨⟨operation, k⟩, hmem, hrecord⟩ := List.mem_filterMap.mp hr
  exact representable_of_record? (h operation (List.fst_mem_of_mem_zipIdx hmem)) hrecord

/-- Sessions one after another write one log. -/
theorem join_text (codec : Record.Codec) (sessions : List Session) :
    String.join (sessions.map (·.text codec)) =
      logText codec (sessions.flatMap Session.records) := by
  induction sessions with
  | nil => rfl
  | cons session sessions ih =>
      rw [List.map_cons, String.join_cons, ih, List.flatMap_cons, logText_append, Session.text,
        performAll_eq, Session.records]

end Emitter

namespace Record

/-! ## Lines of a log -/

section Framed

variable {codec : Codec} (hfaithful : codec.Faithful) (hcompact : codec.Compact)
include hfaithful hcompact

/-- A line is an object: it begins and ends with a brace. -/
theorem toList_line (r : Record) :
    ∃ body, (r.line codec).toList = '\x7b' :: (body ++ ['\x7d']) := by
  rw [line, hfaithful.encodes r]
  exact hcompact.braces r.fields

theorem trimBlanks_line (r : Record) :
    trimBlanks (r.line codec).toList = (r.line codec).toList := by
  obtain ⟨body, hline⟩ := r.toList_line hfaithful hcompact
  have hopen : isBlankChar '\x7b' = false := by decide
  have hclose : isBlankChar '\x7d' = false := by decide
  rw [trimBlanks, hline, List.dropWhile_cons_of_neg (by rw [hopen]; decide), ← List.cons_append,
    List.reverse_concat, List.dropWhile_cons_of_neg (by rw [hclose]; decide), ← List.reverse_concat,
    List.reverse_reverse]

/-- Each record is found at its own line, and nothing behind the last. -/
theorem logLines_logText (records : List Record) :
    logLines (Emitter.logText codec records).toList =
      (records.map fun r => (r.line codec).toList).zipIdx 1 := by
  rw [logLines, Emitter.splitOnP_logText hcompact.escapes]
  generalize 1 = first
  induction records generalizing first with
  | nil => rfl
  | cons r records ih =>
      rw [List.map_cons, List.cons_append, List.zipIdx_cons, List.zipIdx_cons, ← ih (first + 1)]
      apply List.filterMap_cons_some
      simp only [r.trimBlanks_line hfaithful hcompact]
      obtain ⟨body, hline⟩ := r.toList_line hfaithful hcompact
      rw [hline]

omit hcompact in
theorem complaintsAbout_line {r : Record} (h : r.Representable) (lineNumber : ℕ) :
    complaintsAbout (r.line codec).toList lineNumber codec =
      (r.complaint? lineNumber).toList := by
  rw [complaintsAbout, String.ofList_toList, validateLine_line hfaithful h]
  cases r.complaint? lineNumber <;> rfl

theorem validateText_logText {records : List Record} (h : ∀ r ∈ records, r.Representable) :
    validateText (Emitter.logText codec records) codec =
      { lines := records.length
        complaints := (records.zipIdx 1).filterMap fun (r, lineNumber) =>
          r.complaint? lineNumber } := by
  have habout : ∀ m ∈ records.zipIdx 1,
      complaintsAbout (m.1.line codec).toList m.2 codec = (m.1.complaint? m.2).toList := by
    intro m hm
    exact complaintsAbout_line hfaithful (h m.1 (List.fst_mem_of_mem_zipIdx hm)) m.2
  rw [validateText, logLines_logText hfaithful hcompact]
  congr 1
  · rw [List.length_zipIdx, List.length_map]
  · rw [List.zipIdx_map, List.flatMap_map, List.filterMap_eq_flatMap_toList]
    exact List.flatMap_congr habout

end Framed

theorem validateBytes?_textBytes (text : String) (codec : Codec) :
    validateBytes? (textBytes text) codec = some (validateText text codec) := by
  have hbytes : (textBytes text).toByteArray = text.toByteArray := by
    rw [← String.utf8Encode_toList]
    rfl
  rw [validateBytes?, hbytes, String.fromUTF8?, dif_pos text.isValidUTF8]
  rfl

/-! ## Logs of several sessions -/

/-- **What validation says of emitted records.** With a codec that reads what it writes and writes it
compactly, the line of a record is read back as the record, its details, if they are null, as none.
The exception is a record that claims to have passed though
its length does not fit a capacity that is not zero: of that there is one complaint, at the line it
is on, and about the outcome. So the report on the log of any number of sessions counts the records
that they wrote, and complains once of each of these exceptions. -/
theorem emitted_records_validate (codec : Codec) (hfaithful : codec.Faithful)
    (hcompact : codec.Compact) :
    (∀ (r : Record) (lineNumber : ℕ) (c : Complaint),
      r.complaint? lineNumber = some c ↔
        ∃ length capacity, r.outcome = some .pass ∧ r.length = some length ∧
          r.capacity = some capacity ∧ 0 < capacity ∧ capacity ≤ length ∧
          c = { lineNumber, fault := .unfit length capacity }) ∧
    (∀ length capacity, (Fault.unfit length capacity).field = "outcome") ∧
    (∀ r : Record, r.Representable → ∀ lineNumber,
      validateLine (r.line codec) lineNumber codec =
        match r.complaint? lineNumber with
        | some complaint => .error [complaint]
        | none => .ok r.asRead) ∧
    (∀ sessions : List Emitter.Session, (∀ session ∈ sessions, session.Representable) →
      let content := String.join (sessions.map (·.text codec))
      let records := sessions.flatMap Emitter.Session.records
      validateBytes? (textBytes content) codec =
        some
          { lines := records.length
            complaints := (records.zipIdx 1).filterMap fun (r, lineNumber) =>
              r.complaint? lineNumber }) := by
  refine ⟨complaint?_eq_some_iff, fun _ _ => rfl,
    fun r hr => validateLine_line hfaithful hr, ?_⟩
  intro sessions hsessions content records
  have hrecords : ∀ r ∈ records, r.Representable := by
    intro r hr
    obtain ⟨session, hsession, hrecord⟩ := List.mem_flatMap.mp hr
    exact (hsessions session hsession).of_mem_records hrecord
  have hcontent : content = Emitter.logText codec records := Emitter.join_text codec sessions
  rw [validateBytes?_textBytes, hcontent, validateText_logText hfaithful hcompact hrecords]

theorem emitted_records_validate_misfit :
    let misfit : Record :=
      { timestamp := "t", traceId := "", level := .info, event := "x\ny", length := some 10,
        capacity := some 4, outcome := some .pass, details := some .null }
    let sessions : List Emitter.Session :=
      [{ runId := "a", operations := [.emit "t" .warn "\x7d", .flush] },
        { runId := "a", operations := [.emitRecord misfit, .emit "" .trace ""] }]
    misfit.Representable ∧
    validateLine misfit.line 7 = .error [{ lineNumber := 7, fault := .unfit 10 4 }] ∧
    (∀ session ∈ sessions, session.Representable) ∧
    validateBytes? (textBytes (String.join (sessions.map (·.text .standard)))) =
      some { lines := 3, complaints := [{ lineNumber := 2, fault := .unfit 10 4 }] } := by
  intro misfit sessions
  obtain ⟨-, -, hline, hlog⟩ :=
    emitted_records_validate .standard Codec.faithful_standard Codec.compact_standard
  have hmisfit : misfit.Representable := by
    constructor
    · intro n hn
      cases hn
      decide
    · intro n hn
      cases hn
      decide
    · intro n hn
      cases hn
    · intro v hv
      cases hv
      exact .null
  have hsessions : ∀ session ∈ sessions, session.Representable := by
    simpa [sessions, Emitter.Session.Representable, Emitter.Operation.Representable] using hmisfit
  refine ⟨hmisfit, ?_, hsessions, ?_⟩
  · rw [hline misfit hmisfit]
    rfl
  · rw [hlog sessions hsessions]
    decide +kernel

end Record
end BoundedFormat
