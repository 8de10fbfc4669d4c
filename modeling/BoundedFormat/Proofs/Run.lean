import BoundedFormat.Proofs.Agreement
import BoundedFormat.Proofs.Record.Line
import BoundedFormat.Run

/-!
# A run, its record and the validator agree on truncation

A run compares what reached its buffer with the length of the whole output; the validator compares
the length with the capacity. `FormatRun.ofOutput` says what a request gives for an output and a
capacity. On it the two comparisons come to the same. So the record of a run is never complained
about, and that of a truncated run always would be if it said that the run had passed. A capacity
of zero is the exception: the validator takes it for no buffer at all.
-/

namespace BoundedFormat.FormatRun

/-- The run that shows an output in a buffer of a size, or whole. -/
def ofOutput (output : Bytes) : Option ℕ → FormatRun
  | some size =>
    { output := output.take (min output.length (size - 1)), length := saturate output.length,
      capacity := some size }
  | none => { output, length := output.length, capacity := none }

section Truncated

variable {output : Bytes} {size : ℕ}

theorem capacity_ofOutput (capacity : Option ℕ) :
    (ofOutput output capacity).capacity = capacity := by
  cases capacity <;> rfl

/-- A buffer loses something exactly if the output leaves no room for the NUL, or, without room for
even that, if there is any output. -/
theorem truncated_ofOutput_some (hsize : size ≤ maxLength) :
    (ofOutput output (some size)).truncated ↔
      size = 0 ∧ 0 < output.length ∨ 1 ≤ size ∧ size ≤ output.length := by
  have hpos : 0 < maxLength := by decide
  simp only [truncated, ofOutput, List.length_take, saturate, decide_eq_true_eq]
  omega

theorem truncated_ofOutput_none : (ofOutput output none).truncated = false :=
  decide_eq_false (Nat.lt_irrefl _)

/-- A run lost something exactly if its length does not fit its buffer. -/
theorem truncated_iff_le_length (hsize : size ≤ maxLength) (hpos : 1 ≤ size) :
    (ofOutput output (some size)).truncated ↔ size ≤ (ofOutput output (some size)).length := by
  rw [truncated_ofOutput_some hsize]
  simp only [ofOutput, saturate]
  omega

end Truncated

/-! ## Requests -/

section Perform

variable (dialect : Dialect) (heap : Heap) (format : Bytes) (arguments : List Argument)

theorem perform_some {size : ℕ} (hsize : size ≤ maxLength) :
    perform dialect format arguments (some size) heap =
      .ok (ofOutput (formatOutput dialect heap format arguments).1.toBytes (some size)) := by
  have hstored : (formatInto dialect heap (List.replicate size 0) format arguments).1 =
      (formatOutput dialect heap format arguments).1.store (List.replicate size 0) := rfl
  have hpos : 0 < maxLength := by decide
  rw [perform]
  simp only [hstored, store_eq]
  generalize (formatOutput dialect heap format arguments).1.toBytes = output
  have hshown : min (saturate output.length) (size - 1) = min output.length (size - 1) := by
    rw [saturate]
    omega
  congr 2
  rw [hshown]
  rcases Nat.eq_zero_or_pos size with rfl | hroom
  · simp
  · apply take_terminated (Nat.min_le_left _ _)
    rw [List.length_replicate]
    omega

theorem perform_none :
    perform dialect format arguments none heap =
      let output := (formatOutput dialect heap format arguments).1.toBytes
      if (heap.afterSlots dialect (countArguments dialect format)).GrantsText output.length then
        .ok (ofOutput output none)
      else .error .outOfMemory := by
  rw [perform, formatAllocate_eq rfl (Heap.formatOutput_snd dialect heap format arguments)]
  dsimp only
  split <;> rfl

theorem perform?_some (size : ℕ) :
    perform? dialect format arguments (some size) heap =
      if size ≤ maxAllocation then
        some (.ok (ofOutput (formatOutput dialect heap format arguments).1.toBytes (some size)))
      else none := by
  have hbelow : maxAllocation ≤ maxLength := by decide
  rw [perform?, Option.all_some]
  by_cases hsize : size ≤ maxAllocation
  · rw [if_pos (decide_eq_true hsize), if_pos hsize, perform_some]
    omega
  · rw [decide_eq_false hsize, if_neg Bool.false_ne_true, if_neg hsize]

theorem perform?_none :
    perform? dialect format arguments none heap =
      let output := (formatOutput dialect heap format arguments).1.toBytes
      some
        (if (heap.afterSlots dialect (countArguments dialect format)).GrantsText output.length then
          .ok (ofOutput output none)
        else .error .outOfMemory) := by
  rw [perform?, Option.all_none, if_pos rfl, perform_none]

/-- A request that is granted shows the output of the call, and its sizes are machine numbers. -/
theorem eq_ofOutput_of_perform? {capacity : Option ℕ} {run : FormatRun}
    (h : perform? dialect format arguments capacity heap = some (.ok run)) :
    run = ofOutput (formatOutput dialect heap format arguments).1.toBytes capacity ∧
      run.length ≤ maxLength ∧ ∀ size ∈ capacity, size ≤ maxLength := by
  have hbelow : maxAllocation ≤ maxLength := by decide
  cases capacity with
  | some size =>
      rw [perform?_some] at h
      split at h
      · next hsize =>
          cases h
          refine ⟨rfl, saturate_le _, ?_⟩
          intro other hother
          cases hother
          omega
      · cases h
  | none =>
      rw [perform?_none] at h
      dsimp only at h
      split at h
      · next hroom =>
          cases h
          exact ⟨rfl, Nat.le_of_lt hroom.1, fun size hsize => by cases hsize⟩
      · cases h

end Perform

/-! ## Records of runs -/

section Recorded

variable {run : FormatRun} (timestamp traceId format : String) {latency : ℕ}

theorem outcome_record_iff :
    (run.record timestamp traceId format latency).outcome = some .truncated ↔ run.truncated := by
  simp only [record, outcome, Option.some.injEq]
  cases run.truncated <;> decide

/-- The record of a run is read back, whatever outcome it is given. -/
theorem representable_record (hlength : run.length ≤ maxLength)
    (hcapacity : ∀ size ∈ run.capacity, size ≤ maxLength) (hlatency : latency ≤ maxLength)
    (outcome : Option Outcome) :
    ({ run.record timestamp traceId format latency with outcome } : Record).Representable := by
  constructor
  · intro n hn
    cases hn
    exact hlength
  · exact hcapacity
  · intro n hn
    cases hn
    exact hlatency
  · intro v hv
    cases hv

/-- The record of a run that shows an output is never complained about. -/
theorem complaint?_record {output : Bytes} {capacity : Option ℕ}
    (hcapacity : ∀ size ∈ capacity, size ≤ maxLength) (hrun : run = ofOutput output capacity)
    (lineNumber : ℕ) :
    (run.record timestamp traceId format latency).complaint? lineNumber = none := by
  rw [Option.eq_none_iff_forall_ne_some]
  intro c hc
  obtain ⟨length, size, hpass, hlength, hsize, hpos, hle, -⟩ :=
    (Record.complaint?_eq_some_iff _ _ _).mp hc
  subst hrun
  obtain rfl : capacity = some size := (capacity_ofOutput capacity).symm.trans hsize
  cases hlength
  -- What does not fit is truncated, and its record says so.
  have htruncated := (truncated_iff_le_length (hcapacity size rfl) hpos).mpr hle
  rw [(outcome_record_iff timestamp traceId format).mpr htruncated] at hpass
  cases hpass

/-- A truncated run that is recorded as passed is complained about if it had a buffer. -/
theorem complaint?_record_pass {output : Bytes} {size : ℕ} (hsize : size ≤ maxLength)
    (hpos : 1 ≤ size) (hrun : run = ofOutput output (some size)) (htruncated : run.truncated)
    (lineNumber : ℕ) :
    ({ run.record timestamp traceId format latency with outcome := some .pass } :
      Record).complaint? lineNumber =
        some { lineNumber, fault := .unfit run.length size } := by
  rw [Record.complaint?_eq_some_iff]
  subst hrun
  exact ⟨_, size, rfl, rfl, rfl, hpos, (truncated_iff_le_length hsize hpos).mp htruncated, rfl⟩

end Recorded

/-- **A run, its record and the validator agree on truncation.** Into a buffer goes the front of the
output that leaves room for a NUL, and something is lost exactly when nothing at all fits and there
is some output, or when the output is not shorter than the buffer. Without a buffer of a size all of
the output comes back, unless the heap has no room for it and its NUL; a heap that never runs out
has room for whatever an allocation can hold. A run has a result unless it asks for a buffer that no
allocation is large enough for. With a codec that reads what it writes the record of every run is
accepted, and calls it truncated exactly when it is; the record of a truncated run that had a buffer
is refused when it says that the run has passed. -/
theorem truncation_agrees (codec : Record.Codec) (hfaithful : codec.Faithful) (dialect : Dialect)
    (heap : Heap) (format : Bytes) (arguments : List Argument) :
    let output := (formatOutput dialect heap format arguments).1.toBytes
    let rest := (formatOutput dialect heap format arguments).2
    let fits := output.length < maxLength ∧ (rest.request (output.length + 1) 1).1 = true
    (∀ size ≤ maxAllocation, ∃ run,
      perform? dialect format arguments (some size) heap = some (.ok run) ∧
      run.output = output.take (min output.length (size - 1)) ∧
      run.length = min output.length maxLength ∧
      (run.truncated ↔ size = 0 ∧ 0 < output.length ∨ 1 ≤ size ∧ size ≤ output.length)) ∧
    (∀ size > maxAllocation, perform? dialect format arguments (some size) heap = none) ∧
    (∀ run, perform? dialect format arguments none heap = some (.ok run) →
      run.output = output ∧ run.length = output.length ∧ run.truncated = false) ∧
    (perform? dialect format arguments none heap =
        some (.ok { output, length := output.length, capacity := none }) ↔ fits) ∧
    (perform? dialect format arguments none heap = some (.error .outOfMemory) ↔ ¬ fits) ∧
    (heap = .system → (fits ↔ output.length + 1 ≤ maxAllocation)) ∧
    (∀ capacity run, perform? dialect format arguments capacity heap = some (.ok run) →
      ∀ timestamp traceId text latency lineNumber, latency ≤ maxLength →
        let r := run.record timestamp traceId text latency
        Record.validateLine (r.line codec) lineNumber codec = .ok r ∧
        (r.outcome = some .truncated ↔ run.truncated) ∧
        (run.truncated → ∀ size ∈ capacity, 1 ≤ size →
          Record.validateLine (({ r with outcome := some .pass } : Record).line codec) lineNumber
              codec =
            .error [{ lineNumber, fault := .unfit run.length size }])) := by
  intro output rest fits
  have hbelow : maxAllocation ≤ maxLength := by decide
  have hrest : rest = heap.afterSlots dialect (countArguments dialect format) :=
    Heap.formatOutput_snd dialect heap format arguments
  have hnone := perform?_none dialect heap format arguments
  rw [← hrest] at hnone
  have hgranted (hfits : fits) : perform? dialect format arguments none heap =
      some (.ok { output, length := output.length, capacity := none }) :=
    hnone.trans (congrArg some (if_pos hfits))
  have hrefused (hfits : ¬ fits) : perform? dialect format arguments none heap =
      some (.error .outOfMemory) :=
    hnone.trans (congrArg some (if_neg hfits))
  refine ⟨?_, ?_, ?_, ⟨?_, hgranted⟩, ⟨?_, hrefused⟩, ?_, ?_⟩
  · intro size hsize
    have hrun := perform?_some dialect heap format arguments size
    rw [if_pos hsize] at hrun
    exact ⟨_, hrun, rfl, rfl, truncated_ofOutput_some (hsize.trans hbelow)⟩
  · intro size hsize
    rw [perform?_some, if_neg (Nat.not_le.mpr hsize)]
  · intro run hrun
    obtain ⟨rfl, -, -⟩ := eq_ofOutput_of_perform? dialect heap format arguments hrun
    exact ⟨rfl, rfl, truncated_ofOutput_none⟩
  · intro hrun
    by_contra hfits
    cases hrun.symm.trans (hrefused hfits)
  · intro hrun hfits
    cases hrun.symm.trans (hgranted hfits)
  · rintro rfl
    have hroom := Heap.grantsText_system output.length
    rwa [← Heap.afterSlots_system dialect (countArguments dialect format), ← hrest] at hroom
  · intro capacity run hperform timestamp traceId text latency lineNumber hlatency r
    obtain ⟨hrun, hlength, hcapacity⟩ :=
      eq_ofOutput_of_perform? dialect heap format arguments hperform
    have hsizes : ∀ size ∈ run.capacity, size ≤ maxLength := by
      rwa [hrun, capacity_ofOutput]
    have hrecord := representable_record timestamp traceId text hlength hsizes hlatency
    refine ⟨?_, outcome_record_iff timestamp traceId text, ?_⟩
    · rw [Record.validateLine_line hfaithful (hrecord r.outcome),
        complaint?_record timestamp traceId text hcapacity hrun]
      rfl
    · intro htruncated size hsize hpos
      obtain rfl : capacity = some size := hsize
      rw [Record.validateLine_line hfaithful (hrecord (some .pass)),
        complaint?_record_pass timestamp traceId text (hcapacity size rfl) hpos hrun htruncated]

theorem truncation_agrees_full :
    let run : FormatRun := { output := textBytes "ab", length := 3, capacity := some 3 }
    let r := run.record "t" "id" "ab%d" 5
    perform? .plain (textBytes "ab%d") [.int 7] (some 3) = some (.ok run) ∧ run.truncated ∧
    Record.validateLine r.line 1 = .ok r ∧
    Record.validateLine ({ r with outcome := some .pass } : Record).line 1 =
      .error [{ lineNumber := 1, fault := .unfit 3 3 }] ∧
    (∃ whole, perform? .plain (textBytes "ab%d") [.int 7] none = some (.ok whole) ∧
      whole.output = textBytes "ab7") ∧
    perform? .plain (textBytes "ab%d") [.int 7] (some maxLength) = none ∧
    perform? .plain (textBytes "ab%d") [.int 7] none (.answering [false]) =
      some (.error .outOfMemory) := by
  intro run r
  obtain ⟨-, habort, hwhole, -, -, -, hrecorded⟩ :=
    truncation_agrees .standard Record.Codec.faithful_standard .plain .system
      (textBytes "ab%d") [.int 7]
  obtain ⟨-, -, -, -, hrefusal, -⟩ :=
    truncation_agrees .standard Record.Codec.faithful_standard .plain (.answering [false])
      (textBytes "ab%d") [.int 7]
  have hperform : perform? .plain (textBytes "ab%d") [.int 7] (some 3) = some (.ok run) := by
    decide +kernel
  have htruncated : run.truncated := by decide
  obtain ⟨hvalid, -, hrefused⟩ :=
    hrecorded (some 3) run hperform "t" "id" "ab%d" 5 1 (by decide)
  refine ⟨hperform, htruncated, hvalid, hrefused htruncated 3 rfl (by decide), ?_,
    habort maxLength (by decide), hrefusal.mpr (by decide +kernel)⟩
  have hnone : perform? .plain (textBytes "ab%d") [.int 7] none =
      some (.ok { output := textBytes "ab7", length := 3, capacity := none }) := by
    decide +kernel
  exact ⟨_, hnone, (hwhole _ hnone).1.trans (by decide +kernel)⟩

end BoundedFormat.FormatRun
