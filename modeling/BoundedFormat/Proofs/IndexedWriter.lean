import BoundedFormat.Proofs.Writer

/-!
# A writer that stores by index

A `Writer` divides its buffer at the place that it has reached. An `IndexedWriter` has the buffer
whole, if it has one, and only its count says where it stands. Every call clips its block to the
room left and stores it by index; it fails where an index leaves the buffer, a block does not have
the size of its place, or a number leaves the range of a machine length. The main statement follows
both through any calls: the buffer shows the front of all that was asked for, the count shows how
much that was, as far as it reaches, and no call fails.
-/

namespace BoundedFormat

/-- A buffer with a text over the front of it, as far as both reach. -/
def overlay (text buffer : Bytes) : Bytes := text.take buffer.length ++ buffer.drop text.length

theorem length_overlay (text buffer : Bytes) : (overlay text buffer).length = buffer.length := by
  rw [overlay, List.length_append, List.length_take, List.length_drop]
  omega

theorem overlay_nil (buffer : Bytes) : overlay [] buffer = buffer := by
  rw [overlay, List.take_nil]
  rfl

theorem overlay_eq (text buffer : Bytes) :
    overlay text buffer =
      text.take (min text.length buffer.length) ++
        buffer.drop (min text.length buffer.length) := by
  rcases Nat.le_total text.length buffer.length with hle | hle
  · rw [overlay, Nat.min_eq_left hle, List.take_length, List.take_of_length_le hle]
  · rw [overlay, Nat.min_eq_right hle, List.drop_length, List.drop_eq_nil_of_le hle]

/-- A text that does not fill a buffer leaves the rest of it as it was. -/
theorem overlay_of_le {text buffer : Bytes} (h : text.length ≤ buffer.length) :
    overlay text buffer = text ++ buffer.drop text.length := by
  rw [overlay, List.take_of_length_le h]

/-- A block goes behind a text as far as there is room. -/
theorem overlay_append_of_lt {text buffer : Bytes} (h : text.length < buffer.length)
    (block : Bytes) :
    let n := min block.length (buffer.length - text.length)
    overlay (text ++ block) buffer = text ++ block.take n ++ buffer.drop (text.length + n) := by
  intro n
  have hshown : min (text ++ block).length buffer.length = text.length + n := by
    rw [List.length_append]
    omega
  rw [overlay_eq, hshown, List.take_length_add_append]

/-- A full buffer takes nothing more. -/
theorem overlay_append_of_le {text buffer : Bytes} (h : buffer.length ≤ text.length)
    (block : Bytes) : overlay (text ++ block) buffer = overlay text buffer := by
  rw [overlay, overlay, List.take_append_of_le_length h, List.drop_eq_nil_of_le h,
    List.drop_eq_nil_of_le]
  rw [List.length_append]
  exact Nat.le_add_right_of_le h

namespace Writer

/-! ## Calls -/

/-- What is asked of a writer. -/
inductive Call
  | push (byte : UInt8)
  | write (text : Bytes)
  | fill (byte : UInt8) (n : ℕ)

/-- The bytes asked for. -/
def Call.bytes : Call → Bytes
  | .push byte => [byte]
  | .write text => text
  | .fill byte n => List.replicate n byte

/-- How many they are. -/
def Call.length : Call → ℕ
  | .push _ => 1
  | .write text => text.length
  | .fill _ n => n

theorem Call.length_bytes (call : Call) : call.bytes.length = call.length := by
  cases call with
  | push byte | write text => rfl
  | fill byte n => exact List.length_replicate

/-- The writer behind a call. -/
def perform (w : Writer) : Call → Writer
  | .push byte => w.push byte
  | .write text => w.write text
  | .fill byte n => w.fill byte n

/-- The writer behind some calls, one after the other. -/
def performAll (w : Writer) (calls : List Call) : Writer := calls.foldl perform w

variable {w : Writer} {initial written : Bytes}

theorem push_eq_write (w : Writer) (byte : UInt8) : w.push byte = w.write [byte] := by
  rcases w with ⟨stored, _ | ⟨b, untouched⟩, count⟩
  · rfl
  · simp [push, write]

theorem perform_eq_write (w : Writer) (call : Call) : w.perform call = w.write call.bytes := by
  cases call with
  | push byte => exact push_eq_write w byte
  | write text => rfl
  | fill byte n => exact fill_eq_write w byte n

theorem holds_performAll (H : w.Holds initial written) (calls : List Call) :
    (w.performAll calls).Holds initial (written ++ calls.flatMap Call.bytes) := by
  induction calls generalizing w written with
  | nil => rwa [List.flatMap_nil, List.append_nil]
  | cons call calls ih =>
      have hcall := holds_write H call.bytes
      rw [← perform_eq_write] at hcall
      rw [List.flatMap_cons, ← List.append_assoc]
      exact ih hcall

theorem Holds.buffer_eq (H : w.Holds initial written) : w.buffer = overlay written initial := by
  rw [buffer, H.stored, H.untouched, overlay]

theorem Holds.capacity_eq (H : w.Holds initial written) : w.capacity = initial.length := by
  rw [← length_overlay written initial, ← H.buffer_eq, buffer, capacity, List.length_append,
    List.length_reverse]

theorem write_write (w : Writer) (text more : Bytes) :
    (w.write text).write more = w.write (text ++ more) := by
  simp only [write, List.length_drop, List.drop_drop, saturate_saturate_add, List.length_append,
    List.take_append, List.reverse_append, List.append_assoc, Nat.add_assoc]

/-- A block may be written byte by byte. -/
theorem foldl_push (hcount : w.count ≤ maxLength) (block : Bytes) :
    block.foldl push w = w.write block := by
  induction block generalizing w with
  | nil =>
      rw [List.foldl_nil, write, List.take_nil, List.length_nil, Nat.add_zero,
        saturate_of_le hcount]
      rfl
  | cons byte block ih =>
      have hpushed : (w.write [byte]).count ≤ maxLength := saturate_le _
      rw [List.foldl_cons, push_eq_write, ih hpushed, write_write]
      rfl

/-- Ending the text puts a NUL at the place reached, or at the end of a full buffer. -/
theorem finish_eq_set (w : Writer) :
    w.finish = w.buffer.set (min w.stored.length (w.capacity - 1)) 0 := by
  rcases w with ⟨stored, untouched, count⟩
  rcases untouched with _ | ⟨b, rest⟩
  · cases stored with
    | nil => rfl
    | cons last stored => simp [finish, buffer, capacity]
  · simp [finish, buffer, capacity]

/-- The place of the NUL can be told from the count. -/
theorem Holds.finish_eq_set (H : w.Holds initial written) (hmachine : initial.length ≤ maxLength) :
    w.finish = w.buffer.set (min w.count (initial.length - 1)) 0 := by
  have hstored := congrArg List.length H.stored
  rw [List.length_reverse, List.length_take] at hstored
  rw [Writer.finish_eq_set, H.capacity_eq, H.count, hstored, saturate]
  congr 1
  omega

end Writer

/-! ## Storing by index -/

/-- A buffer, if there is one, and the number of bytes asked for. -/
structure IndexedWriter where
  buffer : Option Bytes
  count : ℕ

namespace IndexedWriter

open Writer (Call)

/-- The sum of two machine lengths, unless it is none. -/
def add? (m n : ℕ) : Option ℕ := if m + n ≤ maxLength then some (m + n) else none

/-- The difference of two lengths, unless it is negative. -/
def sub? (m n : ℕ) : Option ℕ := if n ≤ m then some (m - n) else none

/-- The first `n` bytes of a text, unless it has fewer. -/
def front? (text : Bytes) (n : ℕ) : Option Bytes :=
  if n ≤ text.length then some (text.take n) else none

/-- Puts a block in the place from `start` to `stop`, unless the place leaves the buffer or has
another size. -/
def replace? (buffer : Bytes) (start stop : ℕ) (block : Bytes) : Option Bytes :=
  if start ≤ stop ∧ stop ≤ buffer.length ∧ block.length = stop - start then
    some (buffer.take start ++ block ++ buffer.drop stop)
  else none

/-- Puts a byte at an index, unless it is outside the buffer. -/
def set? (buffer : Bytes) (index : ℕ) (byte : UInt8) : Option Bytes :=
  if index < buffer.length then some (buffer.set index byte) else none

/-- Stores as much of a block as there is room for behind `count`, `part? n` being its first `n`
bytes. -/
def store? (buffer : Bytes) (count length : ℕ) (part? : ℕ → Option Bytes) : Option Bytes :=
  if count < buffer.length then do
    let room ← sub? buffer.length count
    let part ← part? (min length room)
    let stop ← add? count (min length room)
    replace? buffer count stop part
  else some buffer

/-- What a call makes of a buffer. A single byte goes to its index if there is one. -/
def storeCall? (buffer : Bytes) (count : ℕ) : Call → Option Bytes
  | .push byte => if count < buffer.length then set? buffer count byte else some buffer
  | .write text => store? buffer count text.length (front? text)
  | .fill byte n => store? buffer count n fun n => some (List.replicate n byte)

/-- The writer behind a call. -/
def perform? (w : IndexedWriter) (call : Call) : Option IndexedWriter :=
  let count := saturate (w.count + call.length)
  match w.buffer with
  | none => some { buffer := none, count }
  | some buffer =>
    (storeCall? buffer w.count call).map fun buffer => { buffer := some buffer, count }

/-- The writer behind some calls, one after the other. -/
def performAll? (w : IndexedWriter) (calls : List Call) : Option IndexedWriter :=
  calls.foldlM perform? w

/-- Ends the text in a buffer with a NUL, and gives the count back. A buffer of no size takes
none. -/
def finish? (w : IndexedWriter) : Option (ℕ × Option Bytes) :=
  match w.buffer with
  | none => some (w.count, none)
  | some buffer =>
    match sub? buffer.length 1 with
    | none => some (w.count, some buffer)
    | some last =>
      (set? buffer (min w.count last) 0).map fun buffer => (w.count, some buffer)

/-- A byte set at its index stands behind the text. -/
theorem set?_overlay {text buffer : Bytes} (hroom : text.length < buffer.length) (byte : UInt8) :
    set? (overlay text buffer) text.length byte = some (overlay (text ++ [byte]) buffer) := by
  have hone : min [byte].length (buffer.length - text.length) = 1 := by
    rw [List.length_singleton]
    omega
  rw [set?, length_overlay, if_pos hroom, overlay_append_of_lt hroom, hone,
    overlay_of_le (Nat.le_of_lt hroom), List.set_append_right _ _ (Nat.le_refl _), Nat.sub_self,
    List.drop_eq_getElem_cons hroom, List.set_cons_zero, List.append_assoc]
  rfl

section Overlay

variable {text buffer : Bytes} (hmachine : buffer.length ≤ maxLength)

include hmachine

/-- The count tells a buffer with room from a full one, although it stops. -/
theorem saturate_lt_iff (n : ℕ) : saturate n < buffer.length ↔ n < buffer.length := by
  rw [saturate]
  omega

theorem saturate_eq_of_lt {n : ℕ} (hroom : n < buffer.length) : saturate n = n :=
  saturate_of_le (Nat.le_of_lt (Nat.lt_of_lt_of_le hroom hmachine))

/-- A block stored by index stands behind the text. -/
theorem store?_overlay (text block : Bytes) {part? : ℕ → Option Bytes}
    (hpart : ∀ n ≤ block.length, part? n = some (block.take n)) :
    store? (overlay text buffer) (saturate text.length) block.length part? =
      some (overlay (text ++ block) buffer) := by
  rw [store?, length_overlay]
  by_cases hroom : text.length < buffer.length
  · let n := min block.length (buffer.length - text.length)
    have hsub : sub? buffer.length text.length = some (buffer.length - text.length) :=
      if_pos (Nat.le_of_lt hroom)
    have hadd : add? text.length n = some (text.length + n) := if_pos (by omega)
    have hplace : text.length ≤ text.length + n ∧
        text.length + n ≤ (overlay text buffer).length ∧
        (block.take n).length = text.length + n - text.length := by
      rw [length_overlay, List.length_take]
      omega
    have hreplace : replace? (overlay text buffer) text.length (text.length + n) (block.take n) =
        some (overlay (text ++ block) buffer) := by
      rw [replace?, if_pos hplace, overlay_append_of_lt hroom, overlay_of_le (Nat.le_of_lt hroom),
        List.take_left, List.drop_length_add_append, List.drop_drop]
    rw [saturate_eq_of_lt hmachine hroom, if_pos hroom, hsub, Option.bind_eq_bind,
      Option.bind_some, hpart n (Nat.min_le_left ..), Option.bind_eq_bind, Option.bind_some, hadd,
      Option.bind_some, hreplace]
  · rw [if_neg ((saturate_lt_iff hmachine _).not.mpr hroom),
      overlay_append_of_le (Nat.le_of_not_lt hroom)]

theorem storeCall?_overlay (call : Call) :
    storeCall? (overlay text buffer) (saturate text.length) call =
      some (overlay (text ++ call.bytes) buffer) := by
  cases call with
  | push byte =>
      rw [storeCall?, length_overlay]
      by_cases hroom : text.length < buffer.length
      · rw [saturate_eq_of_lt hmachine hroom, if_pos hroom, set?_overlay hroom]
        rfl
      · rw [if_neg ((saturate_lt_iff hmachine _).not.mpr hroom),
          overlay_append_of_le (Nat.le_of_not_lt hroom)]
  | write block =>
      apply store?_overlay hmachine text
      intro n hn
      exact if_pos hn
  | fill byte n =>
      have hlength : (List.replicate n byte).length = n := List.length_replicate
      have hfront : ∀ k ≤ (List.replicate n byte).length,
          some (List.replicate k byte) = some ((List.replicate n byte).take k) := by
        intro k hk
        rw [hlength] at hk
        rw [List.take_replicate, Nat.min_eq_left hk]
      have hstored := store?_overlay hmachine text (List.replicate n byte) hfront
      rwa [hlength] at hstored

end Overlay

/-- A writer that shows a text over what its buffer held. -/
def showing (buffer : Option Bytes) (text : Bytes) : IndexedWriter where
  buffer := buffer.map (overlay text)
  count := saturate text.length

variable {buffer : Option Bytes} (hmachine : ∀ b ∈ buffer, b.length ≤ maxLength)

include hmachine

theorem perform?_showing (text : Bytes) (call : Call) :
    (showing buffer text).perform? call = some (showing buffer (text ++ call.bytes)) := by
  have hcount : saturate (saturate text.length + call.length) =
      saturate (text ++ call.bytes).length := by
    rw [saturate_saturate_add, List.length_append, call.length_bytes]
  cases buffer with
  | none => simp only [showing, perform?, Option.map_none, hcount]
  | some buffer =>
      simp only [showing, perform?, Option.map_some, hcount,
        storeCall?_overlay (hmachine buffer rfl) call]

theorem performAll?_showing (text : Bytes) (calls : List Call) :
    (showing buffer text).performAll? calls =
      some (showing buffer (text ++ calls.flatMap Call.bytes)) := by
  induction calls generalizing text with
  | nil =>
      rw [List.flatMap_nil, List.append_nil]
      rfl
  | cons call calls ih =>
      rw [performAll?, List.foldlM_cons, perform?_showing hmachine, List.flatMap_cons,
        ← List.append_assoc]
      exact ih _

omit hmachine in
theorem finish?_showing (text : Bytes) :
    (showing buffer text).finish? =
      some (saturate text.length, buffer.map fun buffer =>
        (overlay text buffer).set (min (saturate text.length) (buffer.length - 1)) 0) := by
  cases buffer with
  | none => rfl
  | some buffer =>
      simp only [showing, finish?, Option.map_some, length_overlay]
      by_cases hpos : 1 ≤ buffer.length
      · have hindex : min (saturate text.length) (buffer.length - 1) <
            (overlay text buffer).length := by
          rw [length_overlay]
          omega
        simp only [sub?, if_pos hpos, set?, if_pos hindex, Option.map_some]
      · have hnil : buffer = [] := List.eq_nil_of_length_eq_zero (by omega)
        subst hnil
        have hnone : overlay text [] = [] := List.eq_nil_of_length_eq_zero (length_overlay text [])
        simp [sub?, hnone]

end IndexedWriter

namespace Writer

/-- **A bounded writer refines an unbounded one.** After any calls the count is the number of bytes
asked for, as far as it reaches; the buffer begins with the front of them and goes on as it was. A
NUL at the end of the text changes the one byte at the count, or the last one if the count is past
it. A block is written as its bytes are, one at a time. No index used on the way leaves the buffer,
also when the count has stopped. A writer without a buffer does the same to no bytes. -/
theorem calls_keep_front {buffer : Option Bytes}
    (hmachine : ∀ bytes ∈ buffer, bytes.length ≤ maxLength) (calls : List Call) :
    let initial := buffer.getD []
    let text := calls.flatMap Call.bytes
    let shown := min text.length initial.length
    let w := (ofBuffer initial).performAll calls
    w.count = min text.length maxLength ∧
    w.buffer = text.take shown ++ initial.drop shown ∧
    w.finish = w.buffer.set (min w.count (initial.length - 1)) 0 ∧
    (∀ block : Bytes, w.write block = block.foldl push w) ∧
    (∀ byte n, w.fill byte n = (List.replicate n byte).foldl push w) ∧
    ∃ indexed, IndexedWriter.performAll? { buffer, count := 0 } calls = some indexed ∧
      indexed.count = w.count ∧
      indexed.buffer = buffer.map (fun _ => w.buffer) ∧
      indexed.finish? = some (w.count, buffer.map fun _ => w.finish) := by
  intro initial text shown w
  have hinitial : initial.length ≤ maxLength := by
    cases buffer with
    | none => exact Nat.zero_le _
    | some bytes => exact hmachine bytes rfl
  have H : w.Holds initial text := holds_performAll (holds_ofBuffer initial) calls
  have hcount : w.count ≤ maxLength := by
    rw [H.count]
    exact saturate_le _
  have hfinish := H.finish_eq_set hinitial
  refine ⟨H.count, H.buffer_eq.trans (overlay_eq text initial), hfinish, ?_, ?_, ?_⟩
  · intro block
    exact (foldl_push hcount block).symm
  · intro byte n
    rw [fill_eq_write, foldl_push hcount]
  · have hstart : ({ buffer, count := 0 } : IndexedWriter) = .showing buffer [] := by
      rw [IndexedWriter.showing, funext overlay_nil, Option.map_id']
      rfl
    refine ⟨.showing buffer text, ?_, H.count.symm, ?_, ?_⟩
    · rw [hstart, IndexedWriter.performAll?_showing hmachine]
      rfl
    · rw [H.buffer_eq]
      cases buffer <;> rfl
    · rw [IndexedWriter.finish?_showing, hfinish, H.buffer_eq, H.count]
      cases buffer <;> rfl

theorem calls_keep_front_saturated :
    let buffer : Bytes := [1, 2, 3, 4]
    let calls : List Call :=
      [.write (textBytes "ab"), .fill (ascii ' ') 0xffffffffffffffff, .push (ascii 'x'),
        .write (textBytes "yz")]
    (∀ bytes ∈ some buffer, bytes.length ≤ maxLength) ∧
    ((ofBuffer buffer).performAll calls).finish = textBytes "ab " ++ [0] ∧
    ∃ indexed, IndexedWriter.performAll? { buffer := some buffer, count := 0 } calls =
        some indexed ∧
      indexed.count = maxLength ∧
      indexed.finish? = some (maxLength, some (textBytes "ab " ++ [0])) := by
  intro buffer calls
  have hmachine : ∀ bytes ∈ some buffer, bytes.length ≤ maxLength := by
    rintro bytes ⟨⟩
    decide
  obtain ⟨-, -, -, -, -, indexed, hperform, hcount, -, hfinish⟩ := calls_keep_front hmachine calls
  have hstopped : ((ofBuffer buffer).performAll calls).count = maxLength := by decide +kernel
  have hended : ((ofBuffer buffer).performAll calls).finish = textBytes "ab " ++ [0] := by
    decide +kernel
  refine ⟨hmachine, hended, indexed, hperform, hcount.trans hstopped, ?_⟩
  rw [hfinish]
  exact congrArg₂ (fun count bytes => some (count, some bytes)) hstopped hended

end Writer
end BoundedFormat
