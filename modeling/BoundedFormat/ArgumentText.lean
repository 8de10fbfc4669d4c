import BoundedFormat.Argument
import BoundedFormat.PendingError

/-!
# Arguments written as text

On a command line an argument is a tag, a colon and a value: `i` and `u` for integers, `p` for an
address, `c` for one character or the number of its code point, `s` for a string. Numbers are
read in base 0 and must be all of the value.
-/

namespace BoundedFormat.ArgumentText

/-- What can be wrong with the text of an argument. -/
inductive Fault
  /-- There is no tag. -/
  | missingTag (text : String)
  /-- The tag is not known. -/
  | unknownTag (tag : String)
  /-- The number cannot be read or does not fit. -/
  | number (text : String) (cause : Error)
  /-- Something stands behind the number. -/
  | trailing (text : String)
deriving DecidableEq, Repr

/-- The wording of a fault. -/
def Fault.message : Fault → String
  | .missingTag text => "argument '" ++ text ++ "' has no '<tag>:' prefix"
  | .unknownTag tag =>
    "unknown argument tag '" ++ tag ++ "' (expected one of i, u, s, c, p)"
  | .number text cause => "argument '" ++ text ++ "': " ++ cause.message
  | .trailing text => "argument '" ++ text ++ "': trailing characters after the number"

/-- The value that stands for the null string. -/
def nullValue : List Char := "(null)".toList

/-- The value of a reading that succeeded and used all of `value`. -/
def whole (text : String) (value : Bytes) (r : Numeral.Reading) : Except Fault Word :=
  match r.status.error? with
  | some cause => .error (.number text cause)
  | none => if r.consumed = value.length then .ok r.value else .error (.trailing text)

/-- Reads an unsigned number. -/
def readUnsigned (text : String) (value : List Char) : Except Fault Word :=
  whole text (charBytes value) (Numeral.read 0 (charBytes value))

/-- Reads a number as wide as an address. -/
def readAddress (text : String) (value : List Char) : Except Fault Word :=
  whole text (charBytes value) (Numeral.readAddress 0 (charBytes value))

/-- The first word whose top bit is set. -/
def signBound : Word := 0x8000000000000000

/-- The largest code value. -/
def maxCode : Word := 0xffffffff

/-- Reads a signed number: an optional minus sign and a magnitude. -/
def readSigned (text : String) (value : List Char) : Except Fault Word :=
  let (negative, digits) :=
    match value with
    | '-' :: digits => (true, digits)
    | digits => (false, digits)
  match readUnsigned text digits with
  | .error fault => .error fault
  | .ok magnitude =>
    if negative then
      if magnitude ≤ signBound then .ok (-magnitude) else .error (.number text .outOfRange)
    else
      if magnitude < signBound then .ok magnitude else .error (.number text .outOfRange)

/-- Reads a character, or the number of a code value. -/
def readChar (text : String) (value : List Char) : Except Fault (BitVec 32) :=
  match value with
  | [c] => .ok (BitVec.ofNat 32 c.toNat)
  | value =>
    match readUnsigned text value with
    | .error fault => .error fault
    | .ok code =>
      if code ≤ maxCode then .ok (code.setWidth 32) else .error (.number text .outOfRange)

/-- Reads a string. -/
def readString (value : List Char) : Argument :=
  if value = nullValue then .str none else .ofBytes (charBytes value)

/-- The argument that a text stands for. The first colon ends the tag. -/
def parse (text : String) : Except Fault Argument :=
  match text.toList.span (· ≠ ':') with
  | (_, []) => .error (.missingTag text)
  | (tag, _ :: value) =>
    match tag with
    | ['i'] => (readSigned text value).map .int
    | ['u'] => (readUnsigned text value).map .uint
    | ['p'] => (readAddress text value).map .ptr
    | ['s'] => .ok (readString value)
    | ['c'] => (readChar text value).map .char
    | tag => .error (.unknownTag (String.ofList tag))

end BoundedFormat.ArgumentText
