/-!
# The shortest decimal of a binary float

A finite float stands for every real number that rounds to it, which is an interval around its
value. `shortest` finds the coarsest decimal grid with a point in that interval and takes the
point nearest to the value, the even one of two equally near. All arithmetic is exact.
-/

namespace BoundedFormat.Decimal

/-- The numbers that round to a positive float, in units of `2 ^ exponent`. -/
structure Interval where
  low : Nat
  value : Nat
  high : Nat
  /-- True if the ends round to the float too. -/
  closed : Bool
  exponent : Int
deriving DecidableEq, Repr

/-- The sign bit of a float. -/
def signBit (bits : UInt64) : Bool := bits >>> 63 == 1

/-- The exponent field of a float. -/
def exponentField (bits : UInt64) : Nat := (bits >>> 52 &&& 0x7ff).toNat

/-- The bit in front of the fraction, which is not stored. -/
def hiddenBit : Nat := 0x10000000000000

/-- The fraction field of a float. -/
def fractionField (bits : UInt64) : Nat := bits.toNat % hiddenBit

/-- The interval of a finite float other than zero, its sign left out. The unit is a quarter of
the last place. Below a power of two the floats lie twice as close. -/
def Interval.ofBits (bits : UInt64) : Interval :=
  let field := exponentField bits
  let fraction := fractionField bits
  let significand := if field = 0 then fraction else hiddenBit + fraction
  let below := if fraction = 0 ∧ 1 < field then 1 else 2
  { low := 4 * significand - below
    value := 4 * significand
    high := 4 * significand + 2
    closed := significand % 2 = 0
    exponent := (max field 1 : Nat) - 1077 }

/-- The quotient `2 ^ exponent / 10 ^ place`, as numerator and denominator. -/
def gridRatio (exponent place : Int) : Nat × Nat :=
  (Nat.pow 2 exponent.toNat * Nat.pow 10 (-place).toNat,
   Nat.pow 2 (-exponent).toNat * Nat.pow 10 place.toNat)

/-- True if `point * 10 ^ place` lies in the interval. -/
def Interval.contains (i : Interval) (point : Nat) (place : Int) : Bool :=
  let (num, den) := gridRatio i.exponent place
  if i.closed then i.low * num ≤ point * den && point * den ≤ i.high * num
  else i.low * num < point * den && point * den < i.high * num

/-- The point of the grid of `10 ^ place` in the interval that is nearest to its value. Only the
neighbours of the value can be nearest. -/
def Interval.nearest? (i : Interval) (place : Int) : Option Nat :=
  let (num, den) := gridRatio i.exponent place
  let below := i.value * num / den
  let above := below + 1
  let toBelow := i.value * num - below * den
  let toAbove := above * den - i.value * num
  match i.contains below place, i.contains above place with
  | true, true =>
    some (if toBelow < toAbove ∨ (toBelow = toAbove ∧ below % 2 = 0) then below else above)
  | true, false => some below
  | false, true => some above
  | false, false => none

/-- The first grid with a point in the interval, from `10 ^ place` down. -/
def Interval.search (i : Interval) : (fuel : Nat) → (place : Int) → Nat × Int
  | 0, place => (0, place)
  | fuel + 1, place =>
    match i.nearest? place with
    | some point => (point, place)
    | none => i.search fuel (place - 1)

/-- The shortest decimal in the interval: its digits as a number, and the place of the last one.
Floats lie between `10 ^ 309` and `10 ^ -325`, and a grid of a hundredth of the interval has a
point in it. -/
def Interval.shortest (i : Interval) : Nat × Int := i.search 660 309

end BoundedFormat.Decimal
