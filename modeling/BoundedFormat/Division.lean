import BoundedFormat.Bytes

/-!
# Division without a divide instruction

`divMod` gives quotient and remainder of two words. Operands that both fit 32 bits use narrow
division. All others go through binary long division: `restoring` brings one bit of the dividend
into the remainder at a time, the highest first, and subtracts the divisor whenever it fits.
-/

namespace BoundedFormat.Division

/-- The state of a long division: what is left of the dividend, the quotient so far and the
running remainder. -/
structure Progress where
  dividend : UInt64
  quotient : UInt64
  remainder : UInt64
deriving DecidableEq, Repr

/-- The bit that a shift to the left carries out. -/
def topBit (w : UInt64) : Bool := 0x8000000000000000 ≤ w

/-- Shifts a word to the left and a bit in on the right. -/
def shiftIn (w : UInt64) (bit : Bool) : UInt64 := w + w + bit.toUInt64

/-- Brings down one bit of the dividend. The running remainder is below the divisor, so only a
divisor with its top bit set lets the shift carry out; a carry means that the divisor fits, and
the subtraction then wraps to the true remainder. -/
def step (divisor : UInt64) (p : Progress) : Progress :=
  let carry := topBit p.remainder
  let shifted := shiftIn p.remainder (topBit p.dividend)
  let fits := carry || divisor ≤ shifted
  { dividend := shiftIn p.dividend false
    quotient := shiftIn p.quotient fits
    remainder := if fits then shifted - divisor else shifted }

/-- As many steps as there are bits to bring down. -/
def run (divisor : UInt64) : (bits : Nat) → Progress → Progress
  | 0, p => p
  | bits + 1, p => run divisor bits (step divisor p)

/-- Long division over all 64 bits. -/
def restoring (n d : UInt64) : UInt64 × UInt64 :=
  let p := run d 64 { dividend := n, quotient := 0, remainder := 0 }
  (p.quotient, p.remainder)

/-- The 32-bit division that every machine has. -/
def narrow (n d : UInt64) : UInt64 × UInt64 :=
  ((n.toUInt32 / d.toUInt32).toUInt64, (n.toUInt32 % d.toUInt32).toUInt64)

/-- True of a word that fits 32 bits. -/
def fitsHalf (w : UInt64) : Bool := w ≤ 0xffffffff

/-- Division of machine registers. -/
def divideRegisters (n d : UInt64) : UInt64 × UInt64 :=
  if fitsHalf n && fitsHalf d then narrow n d else restoring n d

/-- Quotient and remainder; the divisor is not zero. -/
def divMod (n d : Word) : Word × Word :=
  let (q, r) := divideRegisters (.ofBitVec n) (.ofBitVec d)
  (q.toBitVec, r.toBitVec)

/-- Quotient and remainder, refusing a zero divisor. -/
def divMod? (n d : Word) : Option (Word × Word) :=
  if d = 0 then none else some (divMod n d)

/-- The quotient alone. -/
def quotient? (n d : Word) : Option Word := (divMod? n d).map (·.1)

/-- The remainder alone. -/
def remainder? (n d : Word) : Option Word := (divMod? n d).map (·.2)

end BoundedFormat.Division
