import BoundedFormat.Argument
import BoundedFormat.ArgumentList
import BoundedFormat.ArgumentText
import BoundedFormat.Bytes
import BoundedFormat.Calendar
import BoundedFormat.CodePoint
import BoundedFormat.CommandLine.Command
import BoundedFormat.CommandLine.Grammar
import BoundedFormat.CommandLine.Performance
import BoundedFormat.Console.Device
import BoundedFormat.Console.Printer
import BoundedFormat.Decimal.Shortest
import BoundedFormat.Directive.Basic
import BoundedFormat.Directive.Parser
import BoundedFormat.Division
import BoundedFormat.Environment
import BoundedFormat.EventLog
import BoundedFormat.Firmware.Guid
import BoundedFormat.Firmware.Status
import BoundedFormat.Format
import BoundedFormat.Heap
import BoundedFormat.Json.Basic
import BoundedFormat.Json.Printer
import BoundedFormat.Json.Reader
import BoundedFormat.Json.Token
import BoundedFormat.Main
import BoundedFormat.Numeral.Printer
import BoundedFormat.Numeral.Reader
import BoundedFormat.Output
import BoundedFormat.PendingError
import BoundedFormat.Proofs.Accounting
import BoundedFormat.Proofs.Agreement
import BoundedFormat.Proofs.Allocation
import BoundedFormat.Proofs.ArgumentText
import BoundedFormat.Proofs.Bracketing
import BoundedFormat.Proofs.Calendar
import BoundedFormat.Proofs.CanonicalNumeral
import BoundedFormat.Proofs.CodePoint
import BoundedFormat.Proofs.Concatenation
import BoundedFormat.Proofs.Console.Printing
import BoundedFormat.Proofs.Dependence
import BoundedFormat.Proofs.Dialects
import BoundedFormat.Proofs.Directive.Grammar
import BoundedFormat.Proofs.Directive.Iteration
import BoundedFormat.Proofs.Directive.Joining
import BoundedFormat.Proofs.Directive.Locality
import BoundedFormat.Proofs.Directive.Plain
import BoundedFormat.Proofs.Directive.Splitting
import BoundedFormat.Proofs.Directive.Unfinished
import BoundedFormat.Proofs.Division
import BoundedFormat.Proofs.Environment
import BoundedFormat.Proofs.Escaping
import BoundedFormat.Proofs.EventLog
import BoundedFormat.Proofs.Extent
import BoundedFormat.Proofs.Firmware.Guid
import BoundedFormat.Proofs.Firmware.Status
import BoundedFormat.Proofs.FixedWidth
import BoundedFormat.Proofs.Gregorian
import BoundedFormat.Proofs.Heap
import BoundedFormat.Proofs.IndexedWriter
import BoundedFormat.Proofs.Json.Line
import BoundedFormat.Proofs.Json.RoundTrip
import BoundedFormat.Proofs.Json.Token
import BoundedFormat.Proofs.Meaning
import BoundedFormat.Proofs.Numbering
import BoundedFormat.Proofs.Numeral
import BoundedFormat.Proofs.PendingError
import BoundedFormat.Proofs.Reading
import BoundedFormat.Proofs.Record.Codec
import BoundedFormat.Proofs.Record.Emitter
import BoundedFormat.Proofs.Record.Line
import BoundedFormat.Proofs.Record.Validation
import BoundedFormat.Proofs.Refusal
import BoundedFormat.Proofs.Resolution
import BoundedFormat.Proofs.RoundTrip
import BoundedFormat.Proofs.Run
import BoundedFormat.Proofs.SlotStores
import BoundedFormat.Proofs.SlotVector
import BoundedFormat.Proofs.Slots
import BoundedFormat.Proofs.Spelling
import BoundedFormat.Proofs.Stamp
import BoundedFormat.Proofs.UniqueDecoding
import BoundedFormat.Proofs.WordSearch
import BoundedFormat.Proofs.Writer
import BoundedFormat.Record.Basic
import BoundedFormat.Record.Codec
import BoundedFormat.Record.Emitter
import BoundedFormat.Record.Validation
import BoundedFormat.Render
import BoundedFormat.Run
import BoundedFormat.WordSearch
import BoundedFormat.Writer
