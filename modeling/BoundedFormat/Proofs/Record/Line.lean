import BoundedFormat.Proofs.Record.Codec
import BoundedFormat.Record.Validation

/-!
# The line of a record is read back

What validation says of an object depends on the fields that it holds. So it finds in the line of a
record, whichever faithful codec wrote it, what the record holds: a run that claims to have passed
though its output did not fit, or nothing to complain about.
-/

namespace BoundedFormat.Record

/-! ## Complaints -/

/-- The length and the capacity of a run that claims to have passed though it did not fit. -/
def unfit? (r : Record) : Option (ℕ × ℕ) :=
  match r.length, r.capacity with
  | some length, some capacity =>
    if r.outcome = some .pass ∧ 0 < capacity ∧ capacity ≤ length then some (length, capacity)
    else none
  | _, _ => none

/-- The complaint about a record at a line, if it is one to complain about. -/
def complaint? (r : Record) (lineNumber : ℕ) : Option Complaint :=
  r.unfit?.map fun (length, capacity) => { lineNumber, fault := .unfit length capacity }

theorem complaint?_eq_some_iff (r : Record) (lineNumber : ℕ) (c : Complaint) :
    r.complaint? lineNumber = some c ↔
      ∃ length capacity, r.outcome = some .pass ∧ r.length = some length ∧
        r.capacity = some capacity ∧ 0 < capacity ∧ capacity ≤ length ∧
        c = { lineNumber, fault := .unfit length capacity } := by
  unfold complaint? unfit?
  rcases r.length with _ | length
  · simp
  rcases r.capacity with _ | capacity
  · simp
  by_cases h : r.outcome = some .pass ∧ 0 < capacity ∧ capacity ≤ length
  · simp [h, eq_comm]
  · simp only [if_neg h, Option.map_none, reduceCtorEq, false_iff, Option.some.injEq]
    rintro ⟨_, _, hpass, rfl, rfl, hpos, hle, -⟩
    exact h ⟨hpass, hpos, hle⟩

/-! ## Faults -/

theorem contains_levelNames (level : Level) : levelNames.contains level.name := by
  cases level <;> decide

theorem contains_outcomeNames (outcome : Outcome) : outcomeNames.contains outcome.name := by
  cases outcome <;> decide

theorem map_name_eq_pass (outcome : Option Outcome) :
    outcome.map Outcome.name = some "pass" ↔ outcome = some .pass := by
  cases outcome with
  | none => decide
  | some outcome => cases outcome <;> decide

theorem bind_natural? (value : Option ℕ) : (value.map naturalJson).bind Json.natural? = value := by
  cases value <;> rfl

theorem bind_text? {α : Type} (name : α → String) (value : Option α) :
    (value.map fun a => Json.string (name a)).bind Json.text? = value.map name := by
  cases value <;> rfl

/-- The only fault that the fields of a record can show is that its output did not fit. -/
theorem HeldBy.fieldFaults {r : Record} {object : Json} (h : r.HeldBy object) :
    fieldFaults object =
      match r.unfit? with
      | some (length, capacity) => [.unfit length capacity]
      | none => [] := by
  have hmissing : (requiredFields.filter fun field => (object.get? field).isNone) = [] := by
    simp [requiredFields, h.timestamp, h.traceId, h.level, h.event]
  have hlevel : (object.get? "level").bind Json.text? = some r.level.name := by
    rw [h.level]
    rfl
  unfold Record.fieldFaults unfit?
  simp only [hmissing, hlevel, h.length, h.capacity, h.outcome, bind_natural?, bind_text?,
    contains_levelNames, map_name_eq_pass]
  -- Whatever the outcome is, its name is known. What is left is the comparison.
  cases r.outcome <;>
    simp only [Option.map_none, Option.map_some, contains_outcomeNames, if_true, List.map_nil,
      List.nil_append] <;>
    cases r.length <;> cases r.capacity <;> try rfl
  all_goals
    dsimp only
    split <;> rfl

/-! ## Reading it back -/

section ReadBack

variable {codec : Codec} {r : Record} (hcodec : codec.Faithful) (h : r.Representable)
include hcodec h

/-- The line of a record is read as an object that holds its fields. -/
theorem read?_line : ∃ members,
    codec.read? (r.line codec) = some (.object members) ∧ r.HeldBy (.object members) := by
  rw [line, hcodec.encodes r]
  exact hcodec.inverse.exists_heldBy h

theorem ofLine_line :
    ofLine (r.line codec) codec =
      match r.unfit? with
      | some (length, capacity) => .error [.unfit length capacity]
      | none => .ok r.asRead := by
  obtain ⟨members, hread, hheld⟩ := read?_line hcodec h
  rw [ofLine, hread]
  simp only [hheld.fieldFaults, hcodec.decodes r _ h hheld]
  rcases r.unfit? with _ | ⟨length, capacity⟩ <;> rfl

/-- Validating the line of a record gives the record back, or one complaint: that it claims to have
passed with an output that did not fit. -/
theorem validateLine_line (lineNumber : ℕ) :
    validateLine (r.line codec) lineNumber codec =
      match r.complaint? lineNumber with
      | some complaint => .error [complaint]
      | none => .ok r.asRead := by
  rw [validateLine, ofLine_line hcodec h, complaint?]
  rcases r.unfit? with _ | ⟨length, capacity⟩ <;> rfl

end ReadBack

end BoundedFormat.Record
