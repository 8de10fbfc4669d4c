/-!
# Byte strings and machine lengths

Formats, string arguments and output are byte strings, held as lists. A length is a natural
number; a 64-bit counter shows it cut off at `maxLength`, which is what `saturate` computes.
-/

namespace BoundedFormat

/-- A string of bytes. -/
abbrev Bytes := List UInt8

/-- A 64-bit machine word. -/
abbrev Word := BitVec 64

/-- The largest length that a 64-bit counter can hold. -/
def maxLength : Nat := 0xffffffffffffffff

/-- What a counter that stops at `maxLength` shows for `n`. -/
def saturate (n : Nat) : Nat := min n maxLength

theorem saturate_le (n : Nat) : saturate n ≤ maxLength := Nat.min_le_right ..

theorem saturate_of_le {n : Nat} (h : n ≤ maxLength) : saturate n = n := Nat.min_eq_left h

/-- Adding to a saturated counter is adding first and saturating last. -/
@[simp] theorem saturate_saturate_add (m n : Nat) :
    saturate (saturate m + n) = saturate (m + n) := by
  simp only [saturate]; omega

/-- The byte of an ASCII character. -/
def ascii (c : Char) : UInt8 := c.toUInt8

/-- Decimal digits, ASCII only. -/
def isDigit (b : UInt8) : Bool := ascii '0' ≤ b && b ≤ ascii '9'

/-- The value of a decimal digit. -/
def digitValue (b : UInt8) : Nat := b.toNat - (ascii '0').toNat

/-- Blanks: space, tab, line feed and carriage return. -/
def isSpace (b : UInt8) : Bool :=
  b == ascii '\n' || b == ascii '\r' || b == ascii ' ' || b == ascii '\t'

/-- The bytes of some characters in UTF-8. -/
def charBytes (chars : List Char) : Bytes := chars.flatMap String.utf8EncodeChar

/-- The bytes of a text in UTF-8. -/
def textBytes (s : String) : Bytes := charBytes s.toList

/-- A string of the machine ends before its first NUL byte. -/
def untilNul (s : Bytes) : Bytes := s.takeWhile (· ≠ 0)

end BoundedFormat
