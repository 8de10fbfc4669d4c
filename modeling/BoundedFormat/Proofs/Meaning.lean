import BoundedFormat.Format
import BoundedFormat.Proofs.CodePoint
import BoundedFormat.Proofs.Numeral
import BoundedFormat.Proofs.Slots

/-!
# What a directive stands for

`FormatSpec.meaning` gives the bytes of a directive straight from its argument: numbers are reduced
modulo the width of the length modifier and written as numerals, strings are cut, code values are
encoded, and the body is put into its field. No slot, no machine word and no padding loop occurs in
it. The main statement is that a format without positions is the concatenation of what its pieces
stand for, the directives taking the arguments in order.
-/

namespace BoundedFormat

open Numeral (numeral upperNumeral signedNumeral)

/-- The width in bits that a length modifier selects. -/
def LengthMod.bits : LengthMod → ℕ
  | .hh => 8
  | .h => 16
  | .none => 32
  | .l | .ll | .z => 64

namespace Argument

/-- The low bits of an argument as a natural number. -/
def unsignedValue (argument : Argument) (bits : ℕ) : ℕ := argument.word.toNat % 2 ^ bits

/-- The low bits of an argument in two's complement. -/
def signedValue (argument : Argument) (bits : ℕ) : ℤ := Int.bmod argument.word.toNat (2 ^ bits)

/-- The text of an argument. A missing string has a text too, and so have arguments of all other
kinds. -/
def text : Argument → Bytes
  | .str (some text) => text.target
  | _ => nullText

/-- The text of an identifier, which a missing one and other arguments have too. -/
def guidText : Argument → Bytes
  | .guid (some id) => id.target.print
  | _ => nullText

end Argument

namespace FormatSpec

/-- A body in its field. -/
def inField (spec : FormatSpec) (fill : UInt8) (body : Bytes) : Bytes :=
  let padding := spec.width - body.length
  if spec.leftJustify then body ++ List.replicate padding (ascii ' ')
  else List.replicate padding fill ++ body

/-- A numeral in its field. Zeros stand before a sign. -/
def numeralField (spec : FormatSpec) (digits : Bytes) : Bytes :=
  spec.inField (if spec.zeroFill then ascii '0' else ascii ' ') digits

/-- The part of a text that a directive shows: up to a NUL, and no more than the precision. -/
def cut (spec : FormatSpec) (text : Bytes) : Bytes :=
  (untilNul text).take (spec.precision.getD text.length)

/-- The bytes that a directive stands for, given its argument. -/
def meaning (spec : FormatSpec) (argument : Argument) : Bytes :=
  match spec.conversion with
  | .signed => spec.numeralField (signedNumeral (argument.signedValue spec.length.bits))
  | .unsigned => spec.numeralField (numeral 10 (argument.unsignedValue spec.length.bits))
  | .lowerHex => spec.numeralField (numeral 16 (argument.unsignedValue spec.length.bits))
  | .upperHex => spec.numeralField (upperNumeral (argument.unsignedValue spec.length.bits))
  | .pointer => hexMarker ++ spec.numeralField (numeral 16 argument.word.toNat)
  | .str => spec.inField (ascii ' ') (spec.cut argument.text)
  | .char => [UInt8.ofNat argument.word.toNat]
  | .codepoint => CodePoint.sequence (argument.unsignedValue 32)
  | .guid => argument.guidText
  | .status =>
    match Firmware.statusName? argument.word with
    | some name => spec.inField (ascii ' ') (spec.cut (textBytes name))
    | none => hexMarker ++ spec.numeralField (numeral 16 argument.word.toNat)
  | .percent | .literal _ => []

end FormatSpec

/-! ## Fields and cuts -/

theorem toBytes_padField (spec : FormatSpec) (body : Bytes) (fill : UInt8) :
    (padField body spec.width spec.leftJustify fill).toBytes = spec.inField fill body := by
  rw [padField, FormatSpec.inField]
  by_cases h : spec.leftJustify <;> simp [h, Chunk.toBytes]

theorem toBytes_renderInteger (spec : FormatSpec) (style : Numeral.Style) (value : Word) :
    (renderInteger value style spec).toBytes = spec.numeralField (Numeral.print style value) := by
  rw [renderInteger, toBytes_padField, FormatSpec.numericFill, FormatSpec.numeralField,
    FormatSpec.inField, FormatSpec.inField]
  by_cases h : spec.leftJustify <;> simp [h]

/-- Without a precision a text is shown up to its NUL. -/
theorem FormatSpec.cut_of_precision {spec : FormatSpec} (h : spec.precision = none)
    (text : Bytes) : spec.cut text = untilNul text := by
  rw [cut, h, Option.getD_none]
  exact List.take_of_length_le (List.takeWhile_sublist _).length_le

theorem shownText_eq_cut (spec : FormatSpec) (text : Bytes) :
    shownText text spec = spec.cut text := by
  rw [shownText]
  cases hprecision : spec.precision with
  | none => exact (FormatSpec.cut_of_precision hprecision text).symm
  | some most => rw [FormatSpec.cut, hprecision, Option.getD_some]

theorem toBytes_renderText (spec : FormatSpec) (text : Bytes) :
    (renderText text spec).toBytes = spec.inField (ascii ' ') (spec.cut text) := by
  rw [renderText, toBytes_padField, shownText_eq_cut]

/-- Without a width there is nothing to fill. -/
theorem FormatSpec.inField_of_width {spec : FormatSpec} (h : spec.width = 0) (fill : UInt8)
    (body : Bytes) : spec.inField fill body = body := by
  rw [inField, h, Nat.zero_sub]
  split
  · exact List.append_nil body
  · rfl

/-! ## Narrowing -/

namespace SlotType

/-- A word narrowed to a signed type is the two's complement value of its low bits. -/
theorem toInt_narrow_signed (length : LengthMod) (word : Word) :
    ((signed length).narrow word).toInt = Int.bmod word.toNat (2 ^ length.bits) := by
  cases length with
  | none | hh | h =>
      rw [signed, narrow, BitVec.toInt_signExtend_of_le (by decide), BitVec.toInt_setWidth]
      rfl
  | l | ll | z => exact BitVec.toInt_eq_toNat_bmod word

/-- A word narrowed to an unsigned type is the value of its low bits. -/
theorem toNat_narrow_unsigned (length : LengthMod) (word : Word) :
    ((unsigned length).narrow word).toNat = word.toNat % 2 ^ length.bits := by
  cases length with
  | none | hh | h =>
      rw [unsigned, narrow, BitVec.toNat_setWidth_of_le (by decide), BitVec.toNat_setWidth]
      rfl
  | l | ll | z => exact (Nat.mod_eq_of_lt word.isLt).symm

/-- The low byte and the low half of a word survive being narrowed to the default type. -/
theorem setWidth_narrow_i32 (bits : ℕ) (h : bits ≤ 32) (word : Word) :
    (narrow .i32 word).setWidth bits = word.setWidth bits := by
  rw [narrow]
  ext i hi
  have hi32 : i < 32 := by omega
  simp [BitVec.getElem_setWidth, BitVec.getLsbD_signExtend, hi32]
  omega

end SlotType

/-! ## Directives -/

/-- **A slot in the directive's own type shows what the directive stands for.** -/
theorem toBytes_renderSlot_load {spec : FormatSpec} {type : SlotType}
    (htype : spec.slotType? = some type) (argument : Argument) :
    (renderSlot spec (Slot.load { type } argument)).toBytes = spec.meaning argument := by
  rw [FormatSpec.slotType?] at htype
  rw [renderSlot, FormatSpec.meaning]
  -- Conversions that read no argument have no type, and drop out here.
  cases hconversion : spec.conversion <;> rw [hconversion] at htype <;> cases htype
  case signed =>
    rw [toBytes_renderInteger, Numeral.print_signed, Slot.load, SlotType.toInt_narrow_signed,
      Argument.signedValue]
  case unsigned =>
    rw [toBytes_renderInteger, Numeral.print_unsigned, Slot.load, SlotType.toNat_narrow_unsigned,
      Argument.unsignedValue]
  case lowerHex =>
    rw [toBytes_renderInteger, Numeral.print_lowerHex, Slot.load, SlotType.toNat_narrow_unsigned,
      Argument.unsignedValue]
  case upperHex =>
    rw [toBytes_renderInteger, Numeral.print_upperHex, Slot.load, SlotType.toNat_narrow_unsigned,
      Argument.unsignedValue]
  case pointer =>
    rw [Output.toBytes_cons, toBytes_renderInteger, Numeral.print_lowerHex]
    rfl
  case str =>
    rcases argument with _ | _ | _ | (_ | text) | _ | (_ | id) <;> exact toBytes_renderText spec _
  case char =>
    have hbyte := SlotType.setWidth_narrow_i32 8 (by decide) argument.word
    rw [Slot.load, hbyte]
    rfl
  case codepoint =>
    have hcode := SlotType.setWidth_narrow_i32 32 (by decide) argument.word
    rw [Slot.load, hcode, CodePoint.encode_eq, BitVec.toNat_setWidth]
    exact List.append_nil _
  case guid =>
    rcases argument with _ | _ | _ | (_ | text) | _ | (_ | id) <;> exact List.append_nil _
  case status =>
    rw [Slot.load, SlotType.address, SlotType.narrow, renderStatus]
    cases Firmware.statusName? argument.word with
    | none =>
        rw [Output.toBytes_cons, toBytes_renderInteger, Numeral.print_lowerHex]
        rfl
    | some name => exact toBytes_renderText spec (textBytes name)

section Collected

variable {dialect : Dialect} {heap : Heap} {format : Bytes} {arguments : List Argument}

/-- A directive whose slot is typed as it asks stands for the argument with the slot's index. -/
theorem slotBytes_read?_collect {ordinal index : ℕ} {spec : FormatSpec}
    (hgranted : heap.GrantsSlots dialect (countArguments dialect format))
    (hindex : index < countArguments dialect format)
    (hspec : (argumentSpecs dialect format)[ordinal]? = some spec)
    (hnames : spec.Names ordinal index)
    (hagree : ∀ other ∈ namers (argumentSpecs dialect format) index,
      other.slotType? = spec.slotType?) :
    slotBytes spec ((ArgumentList.collect dialect format arguments heap).1.read? ordinal spec) =
      arguments[index]?.elim [] spec.meaning := by
  obtain ⟨type, htype⟩ := Option.isSome_iff_exists.mp
    (isSome_slotType?_of_mem (List.mem_of_getElem? hspec))
  have hlast : lastType (argumentSpecs dialect format) index = type :=
    lastType_eq_of_agree hspec hnames fun other hother => (hagree other hother).trans htype
  rw [ArgumentList.read?, (spec.slotIndex?_eq_some_iff ordinal index).mpr hnames, Option.bind_some,
    ArgumentList.get?_collect, Heap.slotRoom, if_pos hgranted, if_pos hindex, hlast]
  cases arguments[index]? with
  | none => rfl
  | some argument => exact toBytes_renderSlot_load htype argument

/-- When every directive names a slot, and directives that name the same slot agree on its type, the
output spells out what the directives stand for. -/
theorem toBytes_formatOutput_of_names (arguments : List Argument) (index : ℕ → ℕ)
    (hgranted : heap.GrantsSlots dialect (countArguments dialect format))
    (hnames : ∀ k spec, (argumentSpecs dialect format)[k]? = some spec →
      spec.Names k (index k) ∧ index k < countArguments dialect format)
    (hagree : TypesAgree (argumentSpecs dialect format) index) :
    (formatOutput dialect heap format arguments).1.toBytes =
      spell (fun ordinal spec => arguments[index ordinal]?.elim [] spec.meaning) 0
        (pieces dialect format) := by
  rw [toBytes_formatOutput]
  apply spell_congr
  intro k spec hspec
  rw [Nat.zero_add]
  obtain ⟨hname, hindex⟩ := hnames k spec hspec
  refine slotBytes_read?_collect hgranted hindex hspec hname ?_
  intro other hother
  obtain ⟨j, hj, hnamer⟩ := mem_namers.mp hother
  exact hagree.slotType?_eq hj hspec ((hnames j other hj).1.unique hnamer)

/-- A directive without a position names the slot with its number, and no other directive does. -/
theorem Sequential.names (hsequential : Sequential dialect format) {k : ℕ} {spec : FormatSpec}
    (hspec : (argumentSpecs dialect format)[k]? = some spec) :
    spec.Names k k ∧ k < countArguments dialect format :=
  ⟨FormatSpec.names_self (hsequential spec (List.mem_of_getElem? hspec)) k,
    (List.getElem?_eq_some_iff.mp hspec).1⟩

/-- A format with one directive that reads an argument, and no position in it, spells out what the
directive stands for. -/
theorem toBytes_formatOutput_single {spec : FormatSpec}
    (hspecs : argumentSpecs dialect format = [spec]) (hposition : spec.position = none)
    (argument : Argument) :
    (formatOutput dialect heap format [argument]).1.toBytes =
      spell (fun _ spec => spec.meaning argument) 0 (pieces dialect format) := by
  have hcount : countArguments dialect format = 1 := congrArg List.length hspecs
  have hgranted : heap.GrantsSlots dialect (countArguments dialect format) := by
    rw [hcount]
    exact .inl (by decide)
  have hsequential : Sequential dialect format := by
    intro other hmem
    rw [hspecs] at hmem
    rwa [List.mem_singleton.mp hmem]
  rw [toBytes_formatOutput_of_names [argument] id hgranted]
  · apply spell_congr
    intro k other hk
    have hfirst : k < 1 := hcount ▸ (List.getElem?_eq_some_iff.mp hk).1
    rw [Nat.lt_one_iff.mp hfirst]
    rfl
  · intro k other hk
    exact hsequential.names hk
  · apply TypesAgree.of_injOn
    intro j _ k _ hjk
    exact hjk

/-- **The meaning of a sequential format.** Its output is the concatenation of what its pieces stand
for: text and cut-short directives themselves, a percent sign or a letter with no meaning itself,
and the directive with a number the argument with this index, or nothing past the last argument. -/
theorem toBytes_formatOutput_of_sequential
    (hsequential : Sequential dialect format)
    (hgranted : heap.GrantsSlots dialect (countArguments dialect format)) :
    (formatOutput dialect heap format arguments).1.toBytes =
      spell (fun ordinal spec => arguments[ordinal]?.elim [] spec.meaning) 0
        (pieces dialect format) := by
  apply toBytes_formatOutput_of_names arguments id hgranted
  · intro k spec hspec
    exact hsequential.names hspec
  · apply TypesAgree.of_injOn
    intro j _ k _ hjk
    exact hjk

theorem toBytes_formatOutput_of_sequential_mixed :
    Sequential .plain (textBytes "%05hhd|%-6x|%%%q|%.2s|%C|%u%") ∧
    Heap.system.GrantsSlots .plain
      (countArguments .plain (textBytes "%05hhd|%-6x|%%%q|%.2s|%C|%u%")) ∧
    (formatOutput .plain .system (textBytes "%05hhd|%-6x|%%%q|%.2s|%C|%u%")
      [.int (-1), .uint 0xbeef, .ofText "abc", .char 0x20ac]).1.toBytes =
      textBytes "000-1|beef  |%q|ab|€|%" := by
  refine ⟨by decide +kernel, by decide +kernel, ?_⟩
  rw [toBytes_formatOutput_of_sequential (by decide +kernel) (by decide +kernel)]
  decide +kernel

end Collected
end BoundedFormat
