import BoundedFormat.Environment
import BoundedFormat.Format

/-!
# Printing on a console

A printer formats into a scratch buffer of its own. Text that does not fit is formatted again
into a buffer of its exact size; without memory for that, the start of the text is printed with
dots behind it. What a printer does to the console is a list of events.
-/

namespace BoundedFormat.Console

/-- Something that a printer does to its console. -/
inductive Event
  /-- Writes bytes. -/
  | write (text : Bytes)
  /-- Brings everything written to the screen. -/
  | refresh
  /-- Waits for a key. -/
  | key
deriving DecidableEq, Repr

/-- The bytes that a list of events writes. -/
def writtenBytes (events : List Event) : Bytes :=
  events.flatMap fun
    | .write text => text
    | _ => []

/-- How often a list of events waits for a key. -/
def keysAwaited (events : List Event) : Nat := events.count .key

/-- The size of the scratch buffer. -/
def scratchSize : Nat := 256

/-- What takes the place of the text left out. -/
def dots : Bytes := textBytes "..."

/-- A printer: its heap, its pending error and its scratch buffer, which still holds what was
formatted last. -/
structure Printer where
  dialect : Dialect
  heap : Heap
  errors : ErrorState
  scratch : Bytes
  scratch_length : scratch.length = scratchSize

/-- The outcome of printing. -/
structure Printed where
  printer : Printer
  events : List Event
  /-- The length of the whole message. -/
  length : Nat

namespace Printer

/-- A printer that has not printed yet. -/
def fresh (dialect : Dialect) (heap : Heap) : Printer where
  dialect := dialect
  heap := heap
  errors := {}
  scratch := List.replicate scratchSize 0
  scratch_length := List.length_replicate

theorem length_store (output : Output) (buffer : Bytes) :
    (output.store buffer).buffer.length = buffer.length := by
  simp [Output.store]

/-- The scratch buffer after an output has been formatted into it. -/
def withScratch (p : Printer) (output : Output) : Printer :=
  { p with
    scratch := (output.store p.scratch).buffer
    scratch_length := (length_store output p.scratch).trans p.scratch_length }

/-- A full scratch buffer with dots in place of its last bytes, the NUL left out. -/
def shortened (scratch : Bytes) : Bytes := scratch.take (scratchSize - 1 - dots.length) ++ dots

theorem length_shortened {scratch : Bytes} (h : scratch.length = scratchSize) :
    (shortened scratch ++ scratch.drop (scratchSize - 1)).length = scratchSize := by
  have hd : dots.length = 3 := by decide
  simp only [shortened, List.length_append, List.length_take, List.length_drop, hd, h, scratchSize]
  omega

/-- Formats and prints. -/
def print (p : Printer) (format : Bytes) (arguments : List Argument) : Printed :=
  let (output, heap) := formatOutput p.dialect p.heap format arguments
  let first := output.store p.scratch
  let p := { p.withScratch output with heap }
  if first.length < scratchSize then
    { printer := p, events := [.write (first.buffer.take first.length)], length := first.length }
  else
    match requestText p.heap first.length with
    | (some buffer, heap) =>
      let whole := output.store buffer
      { printer := { p with heap }
        events := [.write (whole.buffer.take whole.length)]
        length := first.length }
    | (none, heap) =>
      { printer :=
          { p with
            heap
            errors := p.errors.clear
            scratch := shortened p.scratch ++ p.scratch.drop (scratchSize - 1)
            scratch_length := length_shortened p.scratch_length }
        events := [.write (shortened p.scratch)]
        length := first.length }

/-- The end of a line. -/
def lineEnd : Bytes := textBytes "\n"

/-- Prints a line as it stands. -/
def lineEvents (text : Bytes) : List Event := [.write text, .write lineEnd]

/-- Formats and prints a message about a condition, if it is wanted, and brings it to the
screen. -/
def debugPrint (p : Printer) (lookup : Lookup) (condition : String) (format : Bytes)
    (arguments : List Argument) : Printer × List Event :=
  if debugEnabled lookup condition then
    let message := p.print format arguments
    (message.printer, message.events ++ [.refresh])
  else (p, [])

/-- The format of the place that a message comes from. -/
def placeFormat : Bytes := textBytes "%s:%u: "

/-- Like `debugPrint`, with the place that the message comes from in front of it. -/
def debugPrintAt (p : Printer) (lookup : Lookup) (file : String) (line : BitVec 32)
    (condition : String) (format : Bytes) (arguments : List Argument) : Printer × List Event :=
  if debugEnabled lookup condition then
    let place := p.print placeFormat [.ofText file, .ofUnsigned line]
    let message := place.printer.print format arguments
    (message.printer, place.events ++ message.events ++ [.refresh])
  else (p, [])

/-- The notice of an abort. -/
def abortNotice : Bytes := textBytes "\nAborted."

/-- The request for a key. -/
def keyRequest : Bytes := textBytes " Press any key to exit."

/-- What happens on the console before the platform is left. Only a console with a keyboard waits
for a key. -/
def abortEvents (hasInput : Bool) : List Event :=
  .write abortNotice :: (if hasInput then [.write keyRequest, .refresh, .key] else []) ++ [.refresh]

/-- Formats and prints a last message and aborts. -/
def fatal (p : Printer) (hasInput : Bool) (format : Bytes) (arguments : List Argument) :
    Printer × List Event :=
  let message := p.print format arguments
  (message.printer, message.events ++ .refresh :: abortEvents hasInput)

end Printer
end BoundedFormat.Console
