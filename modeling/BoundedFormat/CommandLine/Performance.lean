import BoundedFormat.CommandLine.Command
import BoundedFormat.Record.Emitter

/-!
# Carrying out commands

`Command.perform` says what a command writes and how it exits. Reading the clock, opening the log
and writing are left to the caller; `Performance.withoutLog` says what changes if the log cannot be
opened.
-/

namespace BoundedFormat

/-- What a command writes and how it exits. -/
structure Performance where
  exitCode : Nat := 0
  stdout : Bytes := []
  stderr : Bytes := []
  /-- A file and what is appended to it, after the rest has been written. -/
  log : Option (String × Bytes) := none
deriving DecidableEq, Repr

/-- Why a file cannot be opened for writing. -/
inductive OpenFault
  /-- A directory on the way to the file does not exist. -/
  | notFound
  /-- What should be a directory on the way is a file. -/
  | notDirectory
  /-- The path leads to a directory. -/
  | isDirectory
  | denied
deriving DecidableEq, Repr

namespace OpenFault

/-- The number of a fault. -/
def code : OpenFault → Nat
  | .notFound => 2
  | .denied => 13
  | .notDirectory => 20
  | .isDirectory => 21

/-- The name of a fault. -/
def name : OpenFault → String
  | .notFound => "NotFound"
  | .denied => "PermissionDenied"
  | .notDirectory => "NotADirectory"
  | .isDirectory => "IsADirectory"

/-- What a fault means. -/
def meaning : OpenFault → String
  | .notFound => "No such file or directory"
  | .denied => "Permission denied"
  | .notDirectory => "Not a directory"
  | .isDirectory => "Is a directory"

/-- The text of a fault. -/
def message (fault : OpenFault) : String :=
  "Os \x7b code: " ++ toString fault.code ++ ", kind: " ++ fault.name ++ ", message: \"" ++
    fault.meaning ++ "\" \x7d"

end OpenFault

namespace Performance

/-- The exit code of a command that failed. -/
def failureCode : Nat := 1

/-- The exit code of words that are no command. -/
def usageCode : Nat := 2

/-- The exit code of a program that was ended in the middle of a command. -/
def abortCode : Nat := 101

/-- How the program is used. -/
def usageText : String :=
  "usage: format --format TEXT [--capacity N] [--log FILE] [TAG:VALUE ...]\n" ++
  "       divmod DIVIDEND DIVISOR\n" ++
  "       parse TEXT [--base N]\n"

/-- The answer to words that are no command. -/
def ofRefusal : Refusal → Performance
  | .usage => { exitCode := usageCode, stderr := textBytes usageText }
  | .help => { stdout := textBytes usageText }

/-- A line of text. -/
def lineBytes (text : String) : Bytes := textBytes (text ++ "\n")

/-- The line that tells of a failure. -/
def failureLine (text : String) : Bytes := lineBytes ("Error: " ++ text)

/-- A command whose log cannot be opened: what was to be written elsewhere is written, and the
fault is told behind it. -/
def withoutLog (p : Performance) (fault : OpenFault) : Performance :=
  { exitCode := failureCode, stdout := p.stdout, stderr := p.stderr ++ failureLine fault.message }

/-- The notice that output was lost. -/
def truncationNotice (run : FormatRun) : String :=
  "truncated: " ++ toString run.output.length ++ " of " ++ toString run.length ++ " bytes stored"

/-- The name under which runs of the command line are logged. -/
def runId : String := "cli"

/-- The name of an error. -/
def errorName : Error → String
  | .outOfRange => "OutOfRange"
  | .badNumber => "BadNumber"
  | .outOfMemory => "OutOfMemory"

/-- What is written of a formatting run: its output, a notice if some of it was lost, and its
record, on standard output unless there is a log file. What is said of a run that has ended the
program is not kept. -/
def ofFormatRun (result : Option (Except Error FormatRun)) (format : String)
    (log : Option String) (timestamp : String) (latency : Nat) : Performance :=
  match result with
  | none => { exitCode := abortCode }
  | some (.error error) => { exitCode := failureCode, stderr := failureLine (errorName error) }
  | some (.ok run) =>
    let emitter : Emitter := { runId }
    let record := textBytes (emitter.emitRecord (run.record timestamp "" format latency)).text
    let stderr := if run.truncated then lineBytes (truncationNotice run) else []
    let stdout := run.output ++ [ascii '\n']
    match log with
    | some path => { stdout, stderr, log := some (path, record) }
    | none => { stdout := stdout ++ record, stderr }

/-- What is written of a division. -/
def ofDivision (dividend divisor : Word) : Performance :=
  match divisionReport? dividend divisor with
  | none => { exitCode := failureCode, stderr := lineBytes "divmod: divisor must be non-zero" }
  | some report => { stdout := lineBytes report.print }

end Performance

/-- What a command writes and how it exits, at the time of `timestamp` and with a formatting run
that takes `latency` nanoseconds. -/
def Command.perform (command : Command) (timestamp : String) (latency : Nat) : Performance :=
  match command with
  | .format template capacity log arguments =>
    .ofFormatRun (FormatRun.perform? .plain (textBytes template) arguments capacity) template log
      timestamp latency
  | .divmod dividend divisor => .ofDivision dividend divisor
  | .read text base => { stdout := Performance.lineBytes (readingReport text base).print }

end BoundedFormat
