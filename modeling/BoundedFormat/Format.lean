import BoundedFormat.PendingError
import BoundedFormat.Render
import BoundedFormat.Writer

/-!
# Formatting: measure, store, allocate

A call scans the format, loads its arguments and renders. The output is then measured, stored in
a buffer of the caller as far as it fits, or stored in a buffer allocated to its exact size.
-/

namespace BoundedFormat

/-- A buffer after a call, and the length that the whole output has. -/
structure Stored where
  length : Nat
  buffer : Bytes
deriving DecidableEq, Repr

/-- Stores an output in a buffer as far as it fits, with a NUL behind it. -/
def Output.store (o : Output) (buffer : Bytes) : Stored :=
  let w := (Writer.ofBuffer buffer).emit o
  { length := w.count, buffer := w.finish }

/-- The length of an output, as a counter shows it. -/
def Output.measure (o : Output) : Nat := (Writer.measuring.emit o).count

/-- The output of a call, and the heap after the slots of its arguments were asked for. -/
def formatOutput (dialect : Dialect) (heap : Heap) (format : Bytes) (arguments : List Argument) :
    Output × Heap :=
  let (list, heap) := ArgumentList.collect dialect format arguments heap
  (render dialect format list, heap)

/-- Formats into a buffer. -/
def formatInto (dialect : Dialect) (heap : Heap) (buffer format : Bytes)
    (arguments : List Argument) : Stored × Heap :=
  let (output, heap) := formatOutput dialect heap format arguments
  (output.store buffer, heap)

/-- Measures without writing anything. -/
def formatLength (dialect : Dialect) (heap : Heap) (format : Bytes) (arguments : List Argument) :
    Nat × Heap :=
  let (output, heap) := formatOutput dialect heap format arguments
  (output.measure, heap)

/-- Asks for a buffer that holds text of a length and its NUL. A length at the end of the range
leaves no room for the NUL, and is refused without asking. -/
def requestText (heap : Heap) (length : Nat) : Option Bytes × Heap :=
  if length < maxLength then heap.allocate (length + 1) else (none, heap)

/-- The outcome of formatting into a buffer of its own. -/
structure Allocated where
  result : Except Error Bytes
  heap : Heap
  errors : ErrorState

/-- Formats into a buffer of the exact size, and gives the text without its NUL. Without memory
the error saved last is pending again and gone from the stack. -/
def formatAllocate (dialect : Dialect) (heap : Heap) (errors : ErrorState) (format : Bytes)
    (arguments : List Argument) : Allocated :=
  let (output, heap) := formatOutput dialect heap format arguments
  let length := output.measure
  match requestText heap length with
  | (some buffer, heap) =>
    { result := .ok ((output.store buffer).buffer.take length), heap, errors }
  | (none, heap) =>
    { result := .error .outOfMemory, heap, errors := (errors.set .outOfMemory).pop.2 }

end BoundedFormat
