import BoundedFormat.Proofs.Heap
import BoundedFormat.Proofs.Writer

/-!
# Measuring, storing and allocating agree

A call has one output, whatever is done with it. Measuring gives its length, as far as a counter
reaches; storing gives the same length and the front of the output that the buffer has room for;
allocating gives all of it or runs out of memory, and which of the two depends on its length alone.
-/

namespace BoundedFormat

theorem length_store_eq (o : Output) (buffer : Bytes) :
    (o.store buffer).length = saturate o.toBytes.length :=
  (Writer.holds_emit (Writer.holds_ofBuffer buffer) o).count

theorem buffer_store_eq (o : Output) (buffer : Bytes) :
    (o.store buffer).buffer = terminated o.toBytes buffer :=
  Writer.finish_eq (Writer.holds_emit (Writer.holds_ofBuffer buffer) o)

/-- A call that stores an output counts all of it and keeps the front. -/
theorem store_eq (o : Output) (buffer : Bytes) :
    o.store buffer =
      { length := saturate o.toBytes.length, buffer := terminated o.toBytes buffer } := by
  rw [← length_store_eq o buffer, ← buffer_store_eq o buffer]

theorem measure_eq (o : Output) : o.measure = saturate o.toBytes.length :=
  (Writer.holds_emit (Writer.holds_ofBuffer []) o).count

theorem formatLength_fst (dialect : Dialect) (heap : Heap) (format : Bytes)
    (arguments : List Argument) :
    (formatLength dialect heap format arguments).1 =
      saturate (formatOutput dialect heap format arguments).1.toBytes.length :=
  measure_eq _

/-- A buffer holds the front of a text, as far as there is room for a NUL behind it. -/
theorem take_terminated {text buffer : Bytes} {n : ℕ} (htext : n ≤ text.length)
    (hbuffer : n < buffer.length) : (terminated text buffer).take n = text.take n := by
  have hne : buffer ≠ [] := by rintro rfl; simp at hbuffer
  have hshown : n ≤ shownLength text buffer := by rw [shownLength]; omega
  have hkept : n ≤ (text.take (shownLength text buffer)).length := by
    rw [List.length_take]
    omega
  rw [terminated, if_neg hne, List.take_append_of_le_length hkept, List.take_take,
    Nat.min_eq_left hshown]

/-- A buffer with room for an output and its NUL holds the whole output. -/
theorem take_buffer_store {o : Output} {text buffer : Bytes} (htext : o.toBytes = text)
    (hroom : text.length < buffer.length) : (o.store buffer).buffer.take text.length = text := by
  rw [buffer_store_eq, htext, take_terminated (Nat.le_refl _) hroom, List.take_length]

theorem take_buffer_store_exact {o : Output} {text : Bytes} (htext : o.toBytes = text) :
    (o.store (List.replicate (text.length + 1) 0)).buffer.take text.length = text := by
  apply take_buffer_store htext
  rw [List.length_replicate]
  exact Nat.lt_succ_self _

/-! ## Allocating -/

/-- An allocation asks, behind the slots, for room for its output. With room it gives all of the
output; without, the error saved last is pending again. -/
theorem formatAllocate_eq {dialect : Dialect} {heap rest : Heap} {format output : Bytes}
    {arguments : List Argument}
    (houtput : (formatOutput dialect heap format arguments).1.toBytes = output)
    (hrest : (formatOutput dialect heap format arguments).2 = rest) (errors : ErrorState) :
    formatAllocate dialect heap errors format arguments =
      if rest.GrantsText output.length then
        { result := .ok output, heap := rest.afterText output.length, errors }
      else
        { result := .error .outOfMemory, heap := rest.afterText output.length,
          errors := errors.pop.2 } := by
  rw [formatAllocate]
  simp only [measure_eq, houtput, hrest, Heap.requestText_saturate]
  by_cases hroom : rest.GrantsText output.length
  · have hcount : saturate output.length = output.length := saturate_of_le (Nat.le_of_lt hroom.1)
    simp only [if_pos hroom, hcount, take_buffer_store_exact houtput]
  · simp only [if_neg hroom]
    rfl

theorem heap_formatOutput_system (dialect : Dialect) (format : Bytes)
    (arguments : List Argument) : (formatOutput dialect .system format arguments).2 = .system := by
  rw [Heap.formatOutput_snd, Heap.afterSlots_system]

theorem result_formatAllocate_system (dialect : Dialect) (errors : ErrorState) (format : Bytes)
    (arguments : List Argument) :
    let output := (formatOutput dialect .system format arguments).1.toBytes
    (formatAllocate dialect .system errors format arguments).result =
      if output.length + 1 ≤ maxAllocation then .ok output else .error .outOfMemory := by
  intro output
  have hroom := Heap.grantsText_system output.length
  rw [formatAllocate_eq rfl (heap_formatOutput_system dialect format arguments)]
  by_cases hfits : output.length + 1 ≤ maxAllocation
  · rw [if_pos (hroom.mpr hfits), if_pos hfits]
  · rw [if_neg (hroom.not.mpr hfits), if_neg hfits]

/-- **Measuring, storing and allocating agree.** All three have the same output, which may be longer
than any counter shows. A buffer of any size is left with the front of it, one NUL, and what it held
behind that; an allocation holds it whole, or is refused for its length. A buffer loses some of the
output exactly when the length that the call returns does not fit it. -/
theorem measure_store_allocate_agree (dialect : Dialect) (format : Bytes)
    (arguments : List Argument) :
    let output := (formatOutput dialect .system format arguments).1.toBytes
    formatLength dialect .system format arguments = (saturate output.length, .system) ∧
    (∀ buffer : Bytes,
      let stored := (formatInto dialect .system buffer format arguments).1
      let shown := min output.length (buffer.length - 1)
      stored.length = saturate output.length ∧
      stored.buffer =
        (if buffer = [] then [] else output.take shown ++ 0 :: buffer.drop (shown + 1)) ∧
      (buffer ≠ [] → buffer.length ≤ maxLength →
        (buffer.length ≤ stored.length ↔ shown < output.length))) ∧
    (∀ errors : ErrorState,
      (formatAllocate dialect .system errors format arguments).result =
        if output.length + 1 ≤ maxAllocation then .ok output else .error .outOfMemory) := by
  intro output
  refine ⟨?_, ?_, fun errors => result_formatAllocate_system dialect errors format arguments⟩
  · refine Prod.ext ?_ (heap_formatOutput_system dialect format arguments)
    exact measure_eq _
  · intro buffer stored shown
    have hlength : stored.length = saturate output.length := length_store_eq _ buffer
    refine ⟨hlength, buffer_store_eq _ buffer, ?_⟩
    intro hne hmachine
    have hpos := List.length_pos_iff.mpr hne
    rw [hlength, saturate]
    omega

theorem measure_store_allocate_agree_truncated :
    ([1, 2, 3] : Bytes) ≠ [] ∧ ([1, 2, 3] : Bytes).length ≤ maxLength ∧
    (formatInto .plain .system [1, 2, 3] (textBytes "ab%d") [.int 7]).1.buffer =
      textBytes "ab" ++ [0] ∧
    3 ≤ (formatInto .plain .system [1, 2, 3] (textBytes "ab%d") [.int 7]).1.length := by
  obtain ⟨-, hstored, hlost⟩ :=
    (measure_store_allocate_agree .plain (textBytes "ab%d") [.int 7]).2.1 [1, 2, 3]
  refine ⟨by decide, by decide, ?_, ?_⟩
  · rw [hstored]
    decide +kernel
  · apply (hlost (by decide) (by decide)).mpr
    decide +kernel

end BoundedFormat
