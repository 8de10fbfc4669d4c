import BoundedFormat.Division

/-!
# Writing integers

`print` writes a 64-bit word in one of four styles. Only the signed style reads the word as a
number below zero; its magnitude is taken among the unsigned words, so the least integer is
written exactly. Digits are produced lowest first and put in front of those already written.
-/

namespace BoundedFormat.Numeral

/-- How a word is written. -/
inductive Style
  | signed
  | unsigned
  | lowerHex
  | upperHex
deriving DecidableEq, Repr

/-- Room for a sign and every digit of a word. -/
def room : Nat := 24

/-- A decimal digit as a byte. -/
def decimalByte (digit : Nat) : UInt8 := ascii '0' + UInt8.ofNat digit

/-- A hexadecimal digit as a byte; `letterA` is the letter for ten. -/
def hexByte (letterA : UInt8) (digit : Nat) : UInt8 :=
  if 9 < digit then letterA + UInt8.ofNat (digit - 10) else decimalByte digit

/-- The decimal digits of `n`, at most `room` of them, in front of `tail`. -/
def decimalOnto : (room : Nat) → (n : Word) → (tail : Bytes) → Bytes
  | 0, _, tail => tail
  | room + 1, n, tail =>
    let (q, r) := Division.divMod n 10
    let digit := decimalByte r.toNat
    if q = 0 then digit :: tail else decimalOnto room q (digit :: tail)

/-- The hexadecimal digits of `n`, at most `room` of them, in front of `tail`. -/
def hexOnto (letterA : UInt8) : (room : Nat) → (n : Word) → (tail : Bytes) → Bytes
  | 0, _, tail => tail
  | room + 1, n, tail =>
    let digit := hexByte letterA (n &&& 0xf).toNat
    let rest := n >>> 4
    if rest = 0 then digit :: tail else hexOnto letterA room rest (digit :: tail)

/-- The numeral of a word. -/
def print (style : Style) (value : Word) : Bytes :=
  match style with
  | .signed =>
    if value.msb then ascii '-' :: decimalOnto (room - 1) (-value) []
    else decimalOnto room value []
  | .unsigned => decimalOnto room value []
  | .lowerHex => hexOnto (ascii 'a') room value []
  | .upperHex => hexOnto (ascii 'A') room value []

end BoundedFormat.Numeral
