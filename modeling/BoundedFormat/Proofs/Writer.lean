import BoundedFormat.Writer
import Mathlib.Data.List.TakeDrop

/-!
# A bounded writer keeps the front of what is written

`Writer.Holds` compares a writer with all bytes that were asked for so far, however many: the place
in the buffer divides a prefix of these bytes from what the buffer held before, and the counter
shows their number as far as it reaches. Every operation keeps the comparison; ending the text then
changes one byte of the buffer.
-/

namespace BoundedFormat

/-- How much of a text a buffer shows: there must be room for a NUL behind it. -/
def shownLength (text buffer : Bytes) : ℕ := min text.length (buffer.length - 1)

/-- A buffer with the front of a text in it, and a NUL. -/
def terminated (text buffer : Bytes) : Bytes :=
  if buffer = [] then []
  else text.take (shownLength text buffer) ++ 0 :: buffer.drop (shownLength text buffer + 1)

namespace Writer

/-- After the bytes `written` were asked for, from the start of a buffer. -/
structure Holds (w : Writer) (initial written : Bytes) : Prop where
  stored : w.stored.reverse = written.take initial.length
  untouched : w.untouched = initial.drop written.length
  count : w.count = saturate written.length

variable {w : Writer} {initial written : Bytes}

theorem holds_ofBuffer (buffer : Bytes) : (ofBuffer buffer).Holds buffer [] :=
  ⟨List.take_nil.symm, rfl, rfl⟩

theorem holds_write (H : w.Holds initial written) (text : Bytes) :
    (w.write text).Holds initial (written ++ text) := by
  refine ⟨?_, ?_, ?_⟩
  · rw [write, List.reverse_append, List.reverse_reverse, H.stored, H.untouched, List.take_append,
      List.length_drop]
  · rw [write, H.untouched, List.drop_drop, List.length_append]
  · rw [write, H.count, saturate_saturate_add, List.length_append]

/-- Filling is writing the byte over and over, though only what fits is looked at. -/
theorem fill_eq_write (w : Writer) (byte : UInt8) (n : ℕ) :
    w.fill byte n = w.write (List.replicate n byte) := by
  rw [fill, write, List.take_replicate, List.reverse_replicate, List.length_replicate,
    Nat.min_comm]

theorem put_eq_write (w : Writer) (c : Chunk) : w.put c = w.write c.toBytes := by
  cases c with
  | bytes text => rfl
  | fill byte n => exact fill_eq_write w byte n

theorem holds_emit (H : w.Holds initial written) (o : Output) :
    (w.emit o).Holds initial (written ++ o.toBytes) := by
  induction o generalizing w written with
  | nil => rwa [Output.toBytes_nil, List.append_nil]
  | cons c o ih =>
      have hput := holds_write H c.toBytes
      rw [← put_eq_write] at hput
      rw [Output.toBytes_cons, ← List.append_assoc]
      exact ih hput

/-- The NUL goes behind the text, or over the last byte of a full buffer. -/
theorem finish_eq (H : w.Holds initial written) : w.finish = terminated written initial := by
  obtain ⟨hstored, huntouched, -⟩ := H
  rcases w with ⟨stored, untouched, count⟩
  simp only at hstored huntouched
  rw [terminated]
  by_cases hroom : written.length < initial.length
  · have hne : initial ≠ [] := by rintro rfl; simp at hroom
    have hshown : shownLength written initial = written.length := by rw [shownLength]; omega
    rw [List.take_of_length_le (by omega)] at hstored
    rw [List.drop_eq_getElem_cons hroom] at huntouched
    subst huntouched hstored
    rw [if_neg hne, hshown, List.take_length]
    rfl
  · have hfull : initial.drop written.length = [] := List.drop_eq_nil_of_le (by omega)
    have hlength := congrArg List.length hstored
    rw [List.length_reverse, List.length_take] at hlength
    rw [hfull] at huntouched
    subst huntouched
    cases stored with
    | nil =>
        rw [List.length_nil] at hlength
        rw [if_pos (List.eq_nil_of_length_eq_zero (by omega))]
        rfl
    | cons last stored =>
        rw [List.length_cons] at hlength
        have hne : initial ≠ [] := by rintro rfl; simp at hlength
        have hshown : shownLength written initial = initial.length - 1 := by
          rw [shownLength]; omega
        have hkept : stored.reverse = written.take (initial.length - 1) := by
          have hfront := congrArg List.dropLast hstored
          rw [List.reverse_cons, List.dropLast_concat, List.dropLast_eq_take, List.take_take,
            List.length_take] at hfront
          rw [hfront]
          congr 1
          omega
        rw [if_neg hne, hshown, ← hkept, List.drop_eq_nil_of_le (by omega)]
        exact List.reverse_cons

end Writer
end BoundedFormat
