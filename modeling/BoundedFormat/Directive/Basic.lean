import BoundedFormat.Bytes

/-!
# Directives

A directive stands behind a `%` in a format and says how one argument is written:

    %[N$][-][0][width][.precision][h|hh|l|ll|z]conversion

The plain dialect knows the conversions `d u x X p s c C %`. The firmware dialect adds `pG` for
identifiers and `ur` for status codes. Any other letter stands for itself and takes no argument.
-/

namespace BoundedFormat

/-- Which conversions a format may use. -/
inductive Dialect
  | plain
  | firmware
deriving DecidableEq, Repr

/-- Length modifiers: nothing, `hh`, `h`, `l`, `ll`, `z`. -/
inductive LengthMod
  | none
  | hh
  | h
  | l
  | ll
  | z
deriving DecidableEq, Repr

/-- What a directive writes. -/
inductive Conversion
  /-- Conversion `d`. -/
  | signed
  /-- Conversion `u`. -/
  | unsigned
  /-- Conversion `x`. -/
  | lowerHex
  /-- Conversion `X`. -/
  | upperHex
  /-- Conversion `p`. -/
  | pointer
  /-- Conversion `s`. -/
  | str
  /-- Conversion `c`. -/
  | char
  /-- Conversion `C`. -/
  | codepoint
  /-- A percent sign. -/
  | percent
  /-- Conversion `pG`, firmware dialect only. -/
  | guid
  /-- Conversion `ur`, firmware dialect only. -/
  | status
  /-- A letter with no meaning, written as it stands. -/
  | literal (letter : UInt8)
deriving DecidableEq, Repr

/-- True if a directive with this conversion reads an argument. -/
def Conversion.takesArgument : Conversion → Bool
  | .percent | .literal _ => false
  | _ => true

/-- A directive as it was read. -/
structure FormatSpec where
  /-- The number before a `$`: the argument wanted, counted from one. -/
  position : Option Nat
  leftJustify : Bool
  /-- True if the digits of the width begin with `0`. -/
  zeroFill : Bool
  width : Nat
  precision : Option Nat
  length : LengthMod
  conversion : Conversion
deriving DecidableEq, Repr

namespace FormatSpec

/-- The byte that pads a numeric field. A left-justified field is padded with spaces. -/
def numericFill (spec : FormatSpec) : UInt8 :=
  if spec.zeroFill && !spec.leftJustify then ascii '0' else ascii ' '

/-- True if the directive reads an argument. -/
def takesArgument (spec : FormatSpec) : Bool := spec.conversion.takesArgument

/-- The index of the argument that a directive reads, `ordinal` being its place among the
directives that read one. Position zero names no argument. -/
def slotIndex? (spec : FormatSpec) (ordinal : Nat) : Option Nat :=
  match spec.position with
  | none => some ordinal
  | some 0 => none
  | some (n + 1) => some n

end FormatSpec

/-- A piece of a format, with the bytes that it was read from. -/
inductive Piece
  /-- Text to be written as it stands. -/
  | literal (raw : Bytes)
  /-- A directive. -/
  | directive (spec : FormatSpec) (raw : Bytes)
  /-- A directive that the end of the format cuts short; it is written as it stands. -/
  | incomplete (raw : Bytes)
deriving DecidableEq, Repr

/-- The bytes that a piece was read from. -/
def Piece.raw : Piece → Bytes
  | .literal raw | .directive _ raw | .incomplete raw => raw

/-- The directive of a piece that reads an argument. -/
def Piece.argumentSpec? : Piece → Option FormatSpec
  | .directive spec _ => if spec.takesArgument then some spec else none
  | _ => none

end BoundedFormat
