import BoundedFormat.Division

/-!
# Reading unsigned numerals

`read` skips blanks, settles the base, and takes digits for as long as they are digits of that
base. It stops before the first digit that would carry the value past 64 bits. `decimalValue` is
the reader for digit strings inside a directive: it cannot fail and stops at `maxLength`.
-/

namespace BoundedFormat.Numeral

/-- How a reading ended. -/
inductive Status
  | success
  | overflow
  | badNumber
deriving DecidableEq, Repr

/-- What was read: the value, the number of bytes used and how it ended. -/
structure Reading where
  value : Word
  consumed : Nat
  status : Status
deriving DecidableEq, Repr

/-- Nothing that could be read as a number. -/
def Reading.bad : Reading := { value := 0, consumed := 0, status := .badNumber }

/-- The value of a digit or letter, `a` and `A` being ten. -/
def digitOf? (b : UInt8) : Option Nat :=
  if isDigit b then some (digitValue b)
  else if ascii 'a' ≤ b && b ≤ ascii 'z' then some (b.toNat - (ascii 'a').toNat + 10)
  else if ascii 'A' ≤ b && b ≤ ascii 'Z' then some (b.toNat - (ascii 'A').toNat + 10)
  else none

/-- The base in force and the text that its digits start at. In base 0 the text decides: `0x`
opens sixteen, `0` before an octal digit opens eight, all else is ten. Base 16 skips a `0x` too. -/
def chooseBase (base : Nat) : Bytes → Nat × Bytes
  | zero :: next :: rest =>
    if zero = ascii '0' ∧ next = ascii 'x' ∧ (base = 0 ∨ base = 16) then (16, rest)
    else if base = 0 then
      let octal := zero = ascii '0' ∧ ascii '0' ≤ next ∧ next ≤ ascii '7'
      (if octal then 8 else 10, zero :: next :: rest)
    else (base, zero :: next :: rest)
  | s => (if base = 0 then 10 else base, s)

/-- The largest value that a further digit may be added to without leaving 64 bits. -/
def lastSafe (base digit : Nat) : Word :=
  (Division.divMod (BitVec.allOnes 64 - BitVec.ofNat 64 digit) (BitVec.ofNat 64 base)).1

/-- Takes digits of `base`, having used `consumed` bytes to read `value`. -/
def readDigits (base : Nat) (found : Bool) (value : Word) (consumed : Nat) : Bytes → Reading
  | [] => finish
  | b :: rest =>
    match digitOf? b with
    | none => finish
    | some digit =>
      if base ≤ digit then finish
      else if lastSafe base digit < value then
        { value := BitVec.allOnes 64, consumed, status := .overflow }
      else
        readDigits base true (value * BitVec.ofNat 64 base + BitVec.ofNat 64 digit)
          (consumed + 1) rest
where
  /-- The reading when no further digit follows. -/
  finish : Reading := if found then { value, consumed, status := .success } else .bad

/-- Reads an unsigned 64-bit number in `base`, 0 leaving the base to the text. -/
def read (base : Nat) (s : Bytes) : Reading :=
  let text := s.dropWhile isSpace
  let (base, digits) := chooseBase base text
  if 36 < base then .bad else readDigits base false 0 (s.length - digits.length) digits

/-- The width of an address. -/
def addressBits : Nat := 64

/-- Cuts a reading down to words of `bits` bits: a larger value is an overflow. -/
def Reading.narrow (bits : Nat) (r : Reading) : Reading :=
  if (r.value.setWidth bits).setWidth 64 = r.value then r
  else { value := (BitVec.allOnes bits).setWidth 64, consumed := r.consumed, status := .overflow }

/-- Reads a number as wide as an address. -/
def readAddress (base : Nat) (s : Bytes) : Reading := (read base s).narrow addressBits

/-- The value of a string of decimal digits, stopping at `maxLength`. -/
def decimalValue (digits : Bytes) : Nat :=
  digits.foldl (fun n d => saturate (n * 10 + digitValue d)) 0

end BoundedFormat.Numeral
