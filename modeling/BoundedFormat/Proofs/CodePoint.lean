import BoundedFormat.CodePoint
import Mathlib.Tactic.NormNum

/-!
# Encoded code points as numbers

The encoder cuts a code value with shifts and puts markers on with bit operations. `sequence` says
the same with quotients and remainders: six bits to a continuation byte, from the low end, and
what is left on the lead byte. A value past the last code point is a question mark.
-/

namespace BoundedFormat.CodePoint

/-- The bytes of a code value, as numbers. -/
def sequenceValues (code : ℕ) : List ℕ :=
  if code ≤ 0x7f then [code]
  else if code ≤ 0x7ff then [0xc0 + code / 0x40, 0x80 + code % 0x40]
  else if code ≤ 0xffff then
    [0xe0 + code / 0x1000, 0x80 + code / 0x40 % 0x40, 0x80 + code % 0x40]
  else if code ≤ 0x10ffff then
    [0xf0 + code / 0x40000, 0x80 + code / 0x1000 % 0x40, 0x80 + code / 0x40 % 0x40,
      0x80 + code % 0x40]
  else [0x3f]

/-- The bytes of a code value. -/
def sequence (code : ℕ) : Bytes := (sequenceValues code).map UInt8.ofNat

theorem continuationMarker_or : ∀ bits < 0x40,
    0x80 ||| UInt8.ofNat bits = UInt8.ofNat (0x80 + bits) := by decide

theorem twoByteMarker_or : ∀ bits < 0x20,
    0xc0 ||| UInt8.ofNat bits = UInt8.ofNat (0xc0 + bits) := by decide

theorem threeByteMarker_or : ∀ bits < 0x10,
    0xe0 ||| UInt8.ofNat bits = UInt8.ofNat (0xe0 + bits) := by decide

theorem fourByteMarker_or : ∀ bits < 0x8,
    0xf0 ||| UInt8.ofNat bits = UInt8.ofNat (0xf0 + bits) := by decide

theorem continuation_eq (code shift : ℕ) :
    continuation code shift = UInt8.ofNat (0x80 + code / 2 ^ shift % 0x40) := by
  have hmask : code >>> shift &&& 0x3f = code / 2 ^ shift % 0x40 := by
    rw [Nat.shiftRight_eq_div_pow]
    exact Nat.and_two_pow_sub_one_eq_mod _ 6
  rw [continuation, hmask, continuationMarker_or _ (Nat.mod_lt _ (by decide))]

theorem lead_eq {marker : UInt8} {base room : ℕ}
    (hmarker : ∀ bits < room, marker ||| UInt8.ofNat bits = UInt8.ofNat (base + bits))
    {code shift : ℕ} (hcode : code / 2 ^ shift < room) :
    lead marker code shift = UInt8.ofNat (base + code / 2 ^ shift) := by
  rw [lead, Nat.shiftRight_eq_div_pow, hmarker _ hcode]

theorem encode_eq (code : ℕ) : encode code = sequence code := by
  simp only [encode, sequence, sequenceValues, continuation_eq, last]
  by_cases h1 : code ≤ 0x7f
  · rw [if_pos h1, if_pos h1]
    rfl
  rw [if_neg h1, if_neg h1]
  by_cases h2 : code ≤ 0x7ff
  · rw [if_pos h2, if_pos h2, lead_eq twoByteMarker_or (by omega)]
    simp
  rw [if_neg h2, if_neg h2]
  by_cases h3 : code ≤ 0xffff
  · rw [if_pos h3, if_pos h3, lead_eq threeByteMarker_or (by omega)]
    simp
  rw [if_neg h3, if_neg h3]
  by_cases h4 : code ≤ 0x10ffff
  · rw [if_pos h4, if_pos h4, lead_eq fourByteMarker_or (by omega)]
    simp
  · rw [if_neg h4, if_neg h4]
    rfl

end BoundedFormat.CodePoint
