import BoundedFormat.CommandLine.Performance
import Std.Time.DateTime.Timestamp

/-!
# The program

Reads the command line and the clocks, and writes what the command asks to be written.
-/

namespace BoundedFormat.Program

/-- Writes bytes to a stream. -/
def writeBytes (stream : IO.FS.Stream) (bytes : Bytes) : IO Unit := do
  stream.write bytes.toByteArray
  stream.flush

/-- Appends bytes to a file, which is created if need be. -/
def appendBytes (path : String) (bytes : Bytes) : IO Unit := do
  let file ← IO.FS.Handle.mk path .append
  file.write bytes.toByteArray
  file.flush

/-- The fault behind a failure to open a file, if it is a known one. -/
def openFault? : IO.Error → Option OpenFault
  | .noFileOrDirectory .. => some .notFound
  | .permissionDenied .. => some .denied
  | .inappropriateType _ code _ =>
    [OpenFault.notDirectory, .isDirectory].find? fun fault => fault.code = code.toNat
  | _ => none

/-- Writes what a command asks to be written. A log that cannot be written is a failure. -/
def carryOut (p : Performance) : IO UInt32 := do
  writeBytes (← IO.getStdout) p.stdout
  writeBytes (← IO.getStderr) p.stderr
  try
    match p.log with
    | none => pure ()
    | some (path, lines) => appendBytes path lines
    return p.exitCode.toUInt32
  catch e =>
    let text := ((openFault? e).map OpenFault.message).getD (toString e)
    writeBytes (← IO.getStderr) (Performance.failureLine text)
    return Performance.failureCode.toUInt32

/-- Formats, and measures how long it takes. -/
def runFormat (template : String) (capacity : Option Nat) (log : Option String)
    (arguments : List Argument) : IO Performance := do
  let start ← IO.monoNanosNow
  let result ← IO.lazyPure fun _ =>
    FormatRun.perform? .plain (textBytes template) arguments capacity
  let latency := (← IO.monoNanosNow) - start
  let now := (← Std.Time.Timestamp.now).toMillisecondsSinceUnixEpoch.val
  return .ofFormatRun result template log (Calendar.stamp now) latency

/-- Carries out the command of the command line. -/
def run (words : List String) : IO UInt32 := do
  match Command.ofWords words with
  | .error refusal => carryOut (.ofRefusal refusal)
  | .ok (.format template capacity log arguments) =>
    carryOut (← runFormat template capacity log arguments)
  | .ok command => carryOut (command.perform "" 0)

end BoundedFormat.Program

def main (words : List String) : IO UInt32 := BoundedFormat.Program.run words
