import BoundedFormat.Bytes

/-!
# Encoding one code point

`encode` gives the one to four UTF-8 bytes of a code value. Values above the last code point are
written as a question mark. Surrogates are encoded like their neighbours: the value comes from an
argument word, and no other check is made on it.
-/

namespace BoundedFormat.CodePoint

/-- The last Unicode code point. -/
def last : Nat := 0x10ffff

/-- The continuation byte for the six bits of `code` that stand `shift` bits up. -/
def continuation (code shift : Nat) : UInt8 := 0x80 ||| UInt8.ofNat (code >>> shift &&& 0x3f)

/-- A lead byte: its marker and the bits of `code` from `shift` on. -/
def lead (marker : UInt8) (code shift : Nat) : UInt8 := marker ||| UInt8.ofNat (code >>> shift)

/-- The UTF-8 bytes of a code value. -/
def encode (code : Nat) : Bytes :=
  if code ≤ 0x7f then [UInt8.ofNat code]
  else if code ≤ 0x7ff then [lead 0xc0 code 6, continuation code 0]
  else if code ≤ 0xffff then [lead 0xe0 code 12, continuation code 6, continuation code 0]
  else if code ≤ last then
    [lead 0xf0 code 18, continuation code 12, continuation code 6, continuation code 0]
  else [ascii '?']

end BoundedFormat.CodePoint
