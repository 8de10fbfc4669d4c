import BoundedFormat.ArgumentList
import BoundedFormat.CodePoint
import BoundedFormat.Firmware.Status
import BoundedFormat.Output

/-!
# Rendering directives

`render` walks a format and the slots of its arguments and gives the output. Text and cut-short
directives stand for themselves; a directive whose slot is not in use writes nothing. Padding
comes before the whole of a numeral, its sign included.
-/

namespace BoundedFormat

/-- What stands for a string or an identifier that is missing. -/
def nullText : Bytes := textBytes "(null)"

/-- What stands before the digits of an address. -/
def hexMarker : Bytes := textBytes "0x"

/-- Pads `body` to a field. A left-justified field is padded with spaces behind the body. -/
def padField (body : Bytes) (width : Nat) (leftJustify : Bool) (fill : UInt8) : Output :=
  let pad := width - body.length
  if leftJustify then [.bytes body, .fill (ascii ' ') pad] else [.fill fill pad, .bytes body]

/-- A numeral in its field. -/
def renderInteger (value : Word) (style : Numeral.Style) (spec : FormatSpec) : Output :=
  padField (Numeral.print style value) spec.width spec.leftJustify spec.numericFill

/-- The part of a string that a directive shows: up to its NUL, and no longer than the
precision. -/
def shownText (text : Bytes) (spec : FormatSpec) : Bytes :=
  match spec.precision with
  | none => untilNul text
  | some most => (untilNul text).take most

/-- A string in its field. -/
def renderText (text : Bytes) (spec : FormatSpec) : Output :=
  padField (shownText text spec) spec.width spec.leftJustify (ascii ' ')

/-- An identifier. Field width and flags do not apply. -/
def renderGuid (referent : Referent) : Output :=
  match referent with
  | .guid id => [.bytes id.print]
  | _ => [.bytes nullText]

/-- A status word: its name as a string, or its digits as an address if it has none. -/
def renderStatus (status : Word) (spec : FormatSpec) : Output :=
  match Firmware.statusName? status with
  | some name => renderText (textBytes name) spec
  | none => .bytes hexMarker :: renderInteger status .lowerHex spec

/-- The output of a directive that reads a slot. -/
def renderSlot (spec : FormatSpec) (slot : Slot) : Output :=
  match spec.conversion with
  | .signed => renderInteger slot.value .signed spec
  | .unsigned => renderInteger slot.value .unsigned spec
  | .lowerHex => renderInteger slot.value .lowerHex spec
  | .upperHex => renderInteger slot.value .upperHex spec
  | .pointer => .bytes hexMarker :: renderInteger slot.value .lowerHex spec
  | .str =>
    match slot.referent with
    | .bytes text => renderText text spec
    | _ => renderText nullText spec
  | .char => [.bytes [UInt8.ofBitVec (slot.value.setWidth 8)]]
  | .codepoint => [.bytes (CodePoint.encode (slot.value.setWidth 32).toNat)]
  | .guid => renderGuid slot.referent
  | .status => renderStatus slot.value spec
  | .percent | .literal _ => []

/-- The output of pieces of a format, `ordinal` being the number of argument-reading directives
before them. -/
def renderPieces (list : ArgumentList) : (ordinal : Nat) → List Piece → Output
  | _, [] => []
  | ordinal, .literal raw :: rest | ordinal, .incomplete raw :: rest =>
    .bytes raw :: renderPieces list ordinal rest
  | ordinal, .directive spec _ :: rest =>
    match spec.conversion with
    | .percent => .bytes [ascii '%'] :: renderPieces list ordinal rest
    | .literal letter => .bytes [letter] :: renderPieces list ordinal rest
    | _ =>
      match (spec.slotIndex? ordinal).bind list.get? with
      | none => renderPieces list (ordinal + 1) rest
      | some slot => renderSlot spec slot ++ renderPieces list (ordinal + 1) rest

/-- The output of a format over the slots of its arguments. -/
def render (dialect : Dialect) (format : Bytes) (list : ArgumentList) : Output :=
  renderPieces list 0 (pieces dialect format)

end BoundedFormat
