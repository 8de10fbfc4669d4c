import BoundedFormat.Directive.Basic
import BoundedFormat.Numeral.Reader

/-!
# Reading directives

Each reader takes the text from where its part may begin and gives back the part with the text
after it. No part but the conversion letter is required, so only the end of the text can make a
directive unreadable. `pieces` splits a whole format; every directive uses up at least its letter,
which is why the split ends.
-/

namespace BoundedFormat

open Numeral (decimalValue)

/-- Takes a minus sign off the front, if there is one. -/
def readMinus : Bytes → Bool × Bytes
  | [] => (false, [])
  | b :: rest => if b = ascii '-' then (true, rest) else (false, b :: rest)

/-- Takes the run of digits off the front. -/
def readDigitRun (s : Bytes) : Bytes × Bytes := (s.takeWhile isDigit, s.dropWhile isDigit)

/-- Reads a position: an optional minus sign, which counts for nothing, and digits directly
followed by `$`. -/
def readPosition? (s : Bytes) : Option (Nat × Bytes) :=
  match readDigitRun (readMinus s).2 with
  | (_ :: _, []) | ([], _) => none
  | (digit :: digits, b :: rest) =>
    if b = ascii '$' then some (decimalValue (digit :: digits), rest) else none

/-- Reads a precision: a point with digits. A point without digits sets no precision. -/
def readPrecision : Bytes → Option Nat × Bytes
  | [] => (none, [])
  | b :: rest =>
    if b = ascii '.' then
      let (digits, rest) := readDigitRun rest
      (if digits.isEmpty then none else some (decimalValue digits), rest)
    else (none, b :: rest)

/-- The part of a directive that lays out its field. -/
structure Field where
  leftJustify : Bool
  zeroFill : Bool
  width : Nat
  precision : Option Nat
deriving DecidableEq, Repr

/-- Reads the flags, the width and the precision. -/
def Field.read (s : Bytes) : Field × Bytes :=
  let (leftJustify, s) := readMinus s
  let (digits, s) := readDigitRun s
  let (precision, s) := readPrecision s
  ({ leftJustify, zeroFill := digits.head? = some (ascii '0'), width := decimalValue digits,
     precision }, s)

/-- The letters that `z` may stand before. -/
def isIntegerLetter (b : UInt8) : Bool :=
  b == ascii 'd' || b == ascii 'u' || b == ascii 'x' || b == ascii 'X'

/-- Reads a length modifier. A `z` that no integer letter follows is a conversion letter. -/
def LengthMod.read : Bytes → LengthMod × Bytes
  | [] => (.none, [])
  | [b] =>
    if b = ascii 'h' then (.h, []) else if b = ascii 'l' then (.l, []) else (.none, [b])
  | b :: c :: rest =>
    if b = ascii 'h' then if c = ascii 'h' then (.hh, rest) else (.h, c :: rest)
    else if b = ascii 'l' then if c = ascii 'l' then (.ll, rest) else (.l, c :: rest)
    else if b = ascii 'z' ∧ isIntegerLetter c then (.z, c :: rest)
    else (.none, b :: c :: rest)

/-- The conversion of a single letter. -/
def Conversion.ofLetter (b : UInt8) : Conversion :=
  if b = ascii 'd' then .signed
  else if b = ascii 'u' then .unsigned
  else if b = ascii 'x' then .lowerHex
  else if b = ascii 'X' then .upperHex
  else if b = ascii 'p' then .pointer
  else if b = ascii 's' then .str
  else if b = ascii 'c' then .char
  else if b = ascii 'C' then .codepoint
  else if b = ascii '%' then .percent
  else .literal b

/-- The conversion that the firmware dialect writes with a second letter. -/
def Conversion.extended? (conversion : Conversion) (second : UInt8) : Option Conversion :=
  match conversion with
  | .unsigned => if second = ascii 'r' then some .status else none
  | .pointer => if second = ascii 'G' then some .guid else none
  | _ => none

/-- Reads a conversion; there is none only at the end of the text. -/
def Conversion.read? (dialect : Dialect) : Bytes → Option (Conversion × Bytes)
  | [] => none
  | b :: rest =>
    let conversion := ofLetter b
    match dialect, rest with
    | .firmware, c :: rest' =>
      match conversion.extended? c with
      | some extended => some (extended, rest')
      | none => some (conversion, rest)
    | _, _ => some (conversion, rest)

/-- Takes an optional position off the front. -/
def takePosition (s : Bytes) : Option Nat × Bytes :=
  match readPosition? s with
  | some (n, rest) => (some n, rest)
  | none => (none, s)

/-- Reads a directive from the text after its `%`. There is none if the text ends first. -/
def FormatSpec.read? (dialect : Dialect) (s : Bytes) : Option (FormatSpec × Bytes) :=
  let (position, s) := takePosition s
  let (field, s) := Field.read s
  let (length, s) := LengthMod.read s
  match Conversion.read? dialect s with
  | none => none
  | some (conversion, rest) =>
    some ({ position, leftJustify := field.leftJustify, zeroFill := field.zeroFill,
            width := field.width, precision := field.precision, length, conversion }, rest)

/-! ### Every reader leaves a tail of its text -/

theorem length_readMinus_le (s : Bytes) : (readMinus s).2.length ≤ s.length := by
  cases s with
  | nil => exact Nat.le_refl _
  | cons b rest => simp only [readMinus]; split <;> simp

theorem length_readDigitRun_le (s : Bytes) : (readDigitRun s).2.length ≤ s.length :=
  (s.dropWhile_sublist isDigit).length_le

theorem length_readPrecision_le (s : Bytes) : (readPrecision s).2.length ≤ s.length := by
  cases s with
  | nil => exact Nat.le_refl _
  | cons b rest =>
    simp only [readPrecision]
    split
    · exact Nat.le_succ_of_le (length_readDigitRun_le rest)
    · exact Nat.le_refl _

theorem length_takePosition_le (s : Bytes) : (takePosition s).2.length ≤ s.length := by
  have digits := length_readDigitRun_le (readMinus s).2
  have minus := length_readMinus_le s
  simp only [takePosition, readPosition?]
  split
  · next n rest h =>
    split at h
    · cases h
    · cases h
    · next digit more b rest' run =>
      split at h
      · cases h
        simp only [run, List.length_cons] at digits ⊢
        omega
      · cases h
  · exact Nat.le_refl _

theorem Field.length_read_le (s : Bytes) : (Field.read s).2.length ≤ s.length :=
  Nat.le_trans (length_readPrecision_le _)
    (Nat.le_trans (length_readDigitRun_le _) (length_readMinus_le s))

theorem LengthMod.length_read_le (s : Bytes) : (LengthMod.read s).2.length ≤ s.length := by
  rcases s with _ | ⟨b, _ | ⟨c, rest⟩⟩ <;> simp only [LengthMod.read] <;> (repeat' split) <;>
    simp only [List.length_cons, List.length_nil] <;> omega

theorem Conversion.length_lt_of_read? {dialect : Dialect} {s rest : Bytes}
    {conversion : Conversion} (h : read? dialect s = some (conversion, rest)) :
    rest.length < s.length := by
  cases s with
  | nil => cases h
  | cons b tail =>
    simp only [read?] at h
    split at h
    · split at h <;> cases h <;> simp only [List.length_cons] <;> omega
    · cases h; simp

theorem FormatSpec.length_lt_of_read? {dialect : Dialect} {s rest : Bytes} {spec : FormatSpec}
    (h : read? dialect s = some (spec, rest)) : rest.length < s.length := by
  simp only [read?] at h
  split at h
  · cases h
  · next conversion tail hc =>
    cases h
    exact Nat.lt_of_lt_of_le (Conversion.length_lt_of_read? hc)
      (Nat.le_trans (LengthMod.length_read_le _)
        (Nat.le_trans (Field.length_read_le _) (length_takePosition_le s)))

/-! ### Splitting a format -/

/-- The pieces of a text that holds no NUL. -/
def splitPieces (dialect : Dialect) : Bytes → List Piece
  | [] => []
  | b :: rest =>
    if b = ascii '%' then
      match _h : FormatSpec.read? dialect rest with
      | none => [.incomplete (b :: rest)]
      | some (spec, tail) =>
        .directive spec (b :: rest.take (rest.length - tail.length)) :: splitPieces dialect tail
    else
      .literal (b :: rest.takeWhile (· ≠ ascii '%')) ::
        splitPieces dialect (rest.dropWhile (· ≠ ascii '%'))
termination_by s => s.length
decreasing_by
  · have := FormatSpec.length_lt_of_read? _h
    simp only [List.length_cons]; omega
  · have := (rest.dropWhile_sublist (· ≠ ascii '%')).length_le
    simp only [List.length_cons]; omega

/-- The pieces of a format, which ends before its first NUL. -/
def pieces (dialect : Dialect) (format : Bytes) : List Piece :=
  splitPieces dialect (untilNul format)

/-- The directives of a format that read an argument, in order. -/
def argumentSpecs (dialect : Dialect) (format : Bytes) : List FormatSpec :=
  (pieces dialect format).filterMap Piece.argumentSpec?

/-- The number of directives that read an argument. -/
def countArguments (dialect : Dialect) (format : Bytes) : Nat :=
  (argumentSpecs dialect format).length

end BoundedFormat
