import BoundedFormat.Bytes

/-!
# Firmware status codes

The top bit of a status word tells errors from warnings; the other bits are the code. Each kind
has a table of names. A code past the end of its table, or one whose entry is empty, has none.
-/

namespace BoundedFormat.Firmware

/-- The names of the warnings, by code. -/
def warningNames : List String :=
  ["Success", "Warning Unknown Glyph", "Warning Delete Failure", "Warning Write Failure",
   "Warning Buffer Too Small", "Warning Stale Data", "Warning File System",
   "Warning Reset Required"]

/-- The names of the errors, by code; an empty name is an unassigned code. -/
def errorNames : List String :=
  ["", "Load Error", "Invalid Parameter", "Unsupported", "Bad Buffer Size", "Buffer Too Small",
   "Not Ready", "Device Error", "Write Protected", "Out of Resources", "Volume Corrupt",
   "Volume Full", "No Media", "Media changed", "Not Found", "Access Denied", "No Response",
   "No mapping", "Time out", "Not started", "Already started", "Aborted", "ICMP Error",
   "TFTP Error", "Protocol Error", "Incompatible Version", "Security Violation", "CRC Error",
   "End of Media", "", "", "End of File", "Invalid Language", "Compromised Data"]

/-- True of the status words that are errors. -/
def isError (status : Word) : Bool := status.msb

/-- The code of a status word: all its bits but the top one. -/
def statusCode (status : Word) : Nat := (status.setWidth 63).toNat

/-- The name of a status word, if it has one. -/
def statusName? (status : Word) : Option String :=
  let names := if isError status then errorNames else warningNames
  names[statusCode status]?.filter (!·.isEmpty)

end BoundedFormat.Firmware
