import BoundedFormat.Decimal.Shortest
import BoundedFormat.Json.Basic

/-!
# Writing JSON

`Json.print` writes a value on one line with no blanks, members in the order in which they are
held. Strings escape quotes, backslashes and control characters, and nothing else. Floats show
their shortest digits, with a point as long as the point is near them.
-/

namespace BoundedFormat.Json

/-- A lower case hexadecimal digit. -/
def hexChar (digit : Nat) : Char := Nat.digitChar digit

/-- The short escapes of control characters. -/
def shortEscape? (c : Char) : Option Char :=
  if c = '\x08' then some 'b'
  else if c = '\t' then some 't'
  else if c = '\n' then some 'n'
  else if c = '\x0c' then some 'f'
  else if c = '\r' then some 'r'
  else none

/-- A character as it stands inside a string. -/
def escapeChar (c : Char) : List Char :=
  if c = '"' ∨ c = '\\' then ['\\', c]
  else
    match shortEscape? c with
    | some letter => ['\\', letter]
    | none =>
      if c.toNat < 0x20 then
        ['\\', 'u', '0', '0', hexChar (c.toNat / 16), hexChar (c.toNat % 16)]
      else [c]

/-- A string with its quotes. -/
def stringChars (s : String) : List Char := '"' :: s.toList.flatMap escapeChar ++ ['"']

/-- The digits of a natural number. -/
def naturalChars (n : Nat) : List Char := Nat.toDigits 10 n

/-- An integer, with a minus sign if it is below zero. -/
def integerChars (i : Int) : List Char :=
  if i < 0 then '-' :: naturalChars i.natAbs else naturalChars i.natAbs

/-- Up to this many digits before the point a float is written with a point. -/
def maxPointDigits : Int := 16

/-- Fewer than this many zeros before the first digit a small float is written with a point. -/
def maxLeadingZeros : Int := 5

/-- An exponent, always with its sign. -/
def exponentChars (i : Int) : List Char := if i < 0 then integerChars i else '+' :: integerChars i

/-- Decimal digits in float notation, `place` being the place of the last one. The point stands
inside the digits, behind zeros added to them or, for small numbers, in front; else an exponent is
written. -/
def decimalChars (digits : List Char) (place : Int) : List Char :=
  let point := digits.length + place
  if 0 ≤ place ∧ point ≤ maxPointDigits then
    digits ++ List.replicate place.toNat '0' ++ ['.', '0']
  else if 0 < point ∧ point ≤ maxPointDigits then
    digits.take point.toNat ++ '.' :: digits.drop point.toNat
  else if -maxLeadingZeros < point ∧ point ≤ 0 then
    '0' :: '.' :: List.replicate (-point).toNat '0' ++ digits
  else
    let mantissa :=
      match digits with
      | first :: second :: more => first :: '.' :: second :: more
      | single => single
    mantissa ++ 'e' :: exponentChars (point - 1)

/-- A finite float. -/
def floatChars (bits : UInt64) : List Char :=
  let sign := if Decimal.signBit bits then ['-'] else []
  if Decimal.exponentField bits = 0 ∧ Decimal.fractionField bits = 0 then sign ++ ['0', '.', '0']
  else
    let (digits, place) := (Decimal.Interval.ofBits bits).shortest
    sign ++ decimalChars (naturalChars digits) place

/-- A number. -/
def Number.chars : Number → List Char
  | .integer value => integerChars value
  | .float bits => floatChars bits

mutual

/-- The characters of a value. -/
def chars : Json → List Char
  | .null => ['n', 'u', 'l', 'l']
  | .bool true => ['t', 'r', 'u', 'e']
  | .bool false => ['f', 'a', 'l', 's', 'e']
  | .number value => value.chars
  | .string text => stringChars text
  | .array [] => ['[', ']']
  | .array (item :: rest) => '[' :: chars item ++ itemChars rest ++ [']']
  | .object [] => ['\x7b', '\x7d']
  | .object ((key, value) :: rest) =>
    '\x7b' :: stringChars key ++ ':' :: chars value ++ memberChars rest ++ ['\x7d']

/-- The characters of further items, a comma before each. -/
def itemChars : List Json → List Char
  | [] => []
  | item :: rest => ',' :: chars item ++ itemChars rest

/-- The characters of further members, a comma before each. -/
def memberChars : List (String × Json) → List Char
  | [] => []
  | (key, value) :: rest => ',' :: stringChars key ++ ':' :: chars value ++ memberChars rest

end

/-- The text of a value. -/
def print (v : Json) : String := String.ofList v.chars

end BoundedFormat.Json
