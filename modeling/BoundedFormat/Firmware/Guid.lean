import BoundedFormat.Numeral.Printer

/-!
# Globally unique identifiers

An identifier has three integer fields and eight single bytes. Its text has five groups of lower
case hexadecimal digits, 8-4-4-4-12, with every leading zero kept.
-/

namespace BoundedFormat

/-- An identifier in its native layout. -/
structure Guid where
  data1 : BitVec 32
  data2 : BitVec 16
  data3 : BitVec 16
  data4 : Vector UInt8 8
deriving DecidableEq, Repr

namespace Guid

/-- The `digits` lowest hexadecimal digits of `value`, the highest of them first. -/
def fixedHex : (digits : Nat) → (value : Nat) → Bytes
  | 0, _ => []
  | digits + 1, value =>
    fixedHex digits (value / 16) ++ [Numeral.hexByte (ascii 'a') (value % 16)]

@[simp] theorem length_fixedHex (digits value : Nat) : (fixedHex digits value).length = digits := by
  induction digits generalizing value with
  | zero => rfl
  | succ digits ih => simp [fixedHex, ih]

/-- A run of single bytes, two digits each. -/
def hexBytes (bytes : Bytes) : Bytes := bytes.flatMap fun b => fixedHex 2 b.toNat

/-- The text of an identifier. -/
def print (g : Guid) : Bytes :=
  fixedHex 8 g.data1.toNat ++ ascii '-' ::
  fixedHex 4 g.data2.toNat ++ ascii '-' ::
  fixedHex 4 g.data3.toNat ++ ascii '-' ::
  hexBytes (g.data4.toList.take 2) ++ ascii '-' ::
  hexBytes (g.data4.toList.drop 2)

end Guid
end BoundedFormat
