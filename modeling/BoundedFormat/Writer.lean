import BoundedFormat.Output

/-!
# Writing into a bounded buffer

A `Writer` stands at a place in a buffer: the bytes before it have been written, those after it
are as they were. Every byte asked for is counted, and stored only while there is room. A buffer
with no bytes makes a writer that only measures. `finish` ends the text with a NUL, over the last
stored byte if the buffer is full.
-/

namespace BoundedFormat

/-- A place in a buffer, and a count of all bytes asked for. -/
structure Writer where
  /-- The bytes stored so far, the last of them first. -/
  stored : Bytes
  /-- The bytes of the buffer not yet overwritten. -/
  untouched : Bytes
  /-- The number of bytes asked for, stored or not. -/
  count : Nat
deriving DecidableEq, Repr

namespace Writer

/-- A writer at the start of a buffer. -/
def ofBuffer (buffer : Bytes) : Writer := { stored := [], untouched := buffer, count := 0 }

/-- A writer that only measures. -/
def measuring : Writer := ofBuffer []

/-- The buffer as it stands. -/
def buffer (w : Writer) : Bytes := w.stored.reverse ++ w.untouched

/-- The size of the buffer. -/
def capacity (w : Writer) : Nat := w.stored.length + w.untouched.length

/-- Writes one byte. -/
def push (w : Writer) (byte : UInt8) : Writer :=
  let count := saturate (w.count + 1)
  match w.untouched with
  | [] => { w with count }
  | _ :: rest => { stored := byte :: w.stored, untouched := rest, count }

/-- Writes a block of bytes. -/
def write (w : Writer) (text : Bytes) : Writer :=
  { stored := (text.take w.untouched.length).reverse ++ w.stored
    untouched := w.untouched.drop text.length
    count := saturate (w.count + text.length) }

/-- Writes a byte many times. Only what fits costs anything. -/
def fill (w : Writer) (byte : UInt8) (n : Nat) : Writer :=
  { stored := List.replicate (min n w.untouched.length) byte ++ w.stored
    untouched := w.untouched.drop n
    count := saturate (w.count + n) }

/-- Writes a chunk. -/
def put (w : Writer) : Chunk → Writer
  | .bytes text => w.write text
  | .fill byte n => w.fill byte n

/-- Writes an output. -/
def emit (w : Writer) (o : Output) : Writer := o.foldl put w

/-- Ends the text: a NUL goes behind the last byte, or over it in a full buffer. An empty buffer
takes none. -/
def finish (w : Writer) : Bytes :=
  match w.stored, w.untouched with
  | stored, _ :: rest => stored.reverse ++ 0 :: rest
  | _ :: stored, [] => (0 :: stored).reverse
  | [], [] => []

@[simp] theorem capacity_ofBuffer (b : Bytes) : (ofBuffer b).capacity = b.length := by
  simp [ofBuffer, capacity]

@[simp] theorem capacity_push (w : Writer) (byte : UInt8) :
    (w.push byte).capacity = w.capacity := by
  unfold push capacity
  split <;> simp_all; omega

@[simp] theorem capacity_put (w : Writer) (c : Chunk) : (w.put c).capacity = w.capacity := by
  cases c <;> simp [put, write, fill, capacity] <;> omega

@[simp] theorem capacity_emit (w : Writer) (o : Output) : (w.emit o).capacity = w.capacity := by
  induction o generalizing w with
  | nil => rfl
  | cons c o ih => exact (ih _).trans (capacity_put w c)

@[simp] theorem length_finish (w : Writer) : w.finish.length = w.capacity := by
  unfold finish capacity
  split <;> simp_all

end Writer
end BoundedFormat
