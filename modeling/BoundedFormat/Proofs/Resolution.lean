import BoundedFormat.Proofs.Meaning

/-!
# What a directive makes of the slot that it reads

A slot takes its number from its argument: as many low bits, and with or without a sign, as the last
directive to name it asks for. `FormatSpec.meaningOf` gives the bytes of a directive straight from
this number, which need not be the one that the directive itself asks for. The main statement puts
the two passes over a format together. The scan and the rendering resolve every directive to the
same index, the list holds at each index what was taken there, and what is shown follows from the
arguments alone.
-/

namespace BoundedFormat

open Numeral (numeral upperNumeral signedNumeral)

namespace FormatSpec

/-- The number that a directive takes from an argument: the low bits that its length modifier
selects, in two's complement or not as its conversion asks. References and addresses are taken
whole, code values as 32 bits. -/
def takes (spec : FormatSpec) (argument : Argument) : ℤ :=
  match spec.conversion with
  | .signed => argument.signedValue spec.length.bits
  | .unsigned | .lowerHex | .upperHex => argument.unsignedValue spec.length.bits
  | .char | .codepoint => argument.signedValue 32
  | _ => argument.unsignedValue 64

/-- The bytes that a directive stands for, given the number that was taken from its argument. The
number is shown as the word that carries it, whatever width the directive itself has. -/
def meaningOf (spec : FormatSpec) (number : ℤ) (argument : Argument) : Bytes :=
  let word := (number % 2 ^ 64).toNat
  match spec.conversion with
  | .signed => spec.numeralField (signedNumeral (Int.bmod number (2 ^ 64)))
  | .unsigned => spec.numeralField (numeral 10 word)
  | .lowerHex => spec.numeralField (numeral 16 word)
  | .upperHex => spec.numeralField (upperNumeral word)
  | .pointer => hexMarker ++ spec.numeralField (numeral 16 word)
  | .str => spec.inField (ascii ' ') (spec.cut argument.text)
  | .char => [UInt8.ofNat word]
  | .codepoint => CodePoint.sequence (word % 2 ^ 32)
  | .guid => argument.guidText
  | .status =>
    match Firmware.statusName? (BitVec.ofNat 64 word) with
    | some name => spec.inField (ascii ' ') (spec.cut (textBytes name))
    | none => hexMarker ++ spec.numeralField (numeral 16 word)
  | .percent | .literal _ => []

end FormatSpec

/-! ## One slot -/

/-- A word narrowed to the type that a directive asks for carries the number that it takes. -/
theorem SlotType.narrow_eq_ofInt {spec : FormatSpec} {type : SlotType}
    (htype : spec.slotType? = some type) (argument : Argument) :
    type.narrow argument.word = BitVec.ofInt 64 (spec.takes argument) := by
  have hsigned (length : LengthMod) : (signed length).narrow argument.word =
      BitVec.ofInt 64 (argument.signedValue length.bits) := by
    rw [Argument.signedValue, ← toInt_narrow_signed, BitVec.ofInt_toInt]
  have hunsigned (length : LengthMod) : (unsigned length).narrow argument.word =
      BitVec.ofInt 64 (argument.unsignedValue length.bits) := by
    rw [Argument.unsignedValue, ← toNat_narrow_unsigned, BitVec.ofInt_natCast, BitVec.ofNat_toNat,
      BitVec.setWidth_eq]
  rw [FormatSpec.slotType?] at htype
  rw [FormatSpec.takes]
  cases hconversion : spec.conversion <;> rw [hconversion] at htype <;> cases htype
  case signed => exact hsigned spec.length
  case unsigned | lowerHex | upperHex => exact hunsigned spec.length
  case char | codepoint => exact hsigned .none
  case pointer | str | guid | status => exact hunsigned .ll

/-- A slot that carries a number shows what the directive stands for, given the number. -/
theorem toBytes_renderSlot_of_value {spec : FormatSpec} {slot : Slot} {number : ℤ}
    {argument : Argument} (hvalue : slot.value = BitVec.ofInt 64 number)
    (hreferent : slot.referent = argument.referent) :
    (renderSlot spec slot).toBytes = spec.meaningOf number argument := by
  have hword : slot.value.toNat = (number % 2 ^ 64).toNat := by
    rw [hvalue, BitVec.toNat_ofInt]
    rfl
  have hnumber : slot.value.toInt = Int.bmod number (2 ^ 64) := by
    rw [hvalue, BitVec.toInt_ofInt]
  have hself : slot.value = BitVec.ofNat 64 (number % 2 ^ 64).toNat := by
    rw [← hword, BitVec.ofNat_toNat, BitVec.setWidth_eq]
  rw [renderSlot, FormatSpec.meaningOf]
  cases hconversion : spec.conversion with
  | signed => rw [toBytes_renderInteger, Numeral.print_signed, hnumber]
  | unsigned => rw [toBytes_renderInteger, Numeral.print_unsigned, hword]
  | lowerHex => rw [toBytes_renderInteger, Numeral.print_lowerHex, hword]
  | upperHex => rw [toBytes_renderInteger, Numeral.print_upperHex, hword]
  | pointer =>
      rw [Output.toBytes_cons, toBytes_renderInteger, Numeral.print_lowerHex, hword]
      rfl
  | str =>
      rw [hreferent]
      rcases argument with _ | _ | _ | (_ | text) | _ | (_ | id) <;> exact toBytes_renderText spec _
  | char =>
      rw [← hword]
      rfl
  | codepoint =>
      rw [← hword, CodePoint.encode_eq, BitVec.toNat_setWidth]
      exact List.append_nil _
  | guid =>
      rw [hreferent]
      rcases argument with _ | _ | _ | (_ | text) | _ | (_ | id) <;> exact List.append_nil _
  | status =>
      rw [← hself, ← hword, renderStatus]
      cases Firmware.statusName? slot.value with
      | none =>
          rw [Output.toBytes_cons, toBytes_renderInteger, Numeral.print_lowerHex]
          rfl
      | some name => exact toBytes_renderText spec (textBytes name)
  | percent | literal letter => rfl

/-- Given the number that it takes itself, a directive stands for what it always stands for. -/
theorem FormatSpec.meaningOf_takes {spec : FormatSpec} (htakes : spec.takesArgument)
    (argument : Argument) : spec.meaningOf (spec.takes argument) argument = spec.meaning argument := by
  rw [← isSome_slotType?] at htakes
  obtain ⟨type, htype⟩ := Option.isSome_iff_exists.mp htakes
  rw [← toBytes_renderSlot_load htype, ← toBytes_renderSlot_of_value]
  · exact SlotType.narrow_eq_ofInt htype argument
  · rfl

/-! ## Both passes over a format -/

/-- The number that the slot with an index takes from its argument: what the last directive to name
it takes, and 32 bits with a sign if none does. -/
def numberAt (specs : List FormatSpec) (index : ℕ) (argument : Argument) : ℤ :=
  ((namers specs index).getLast?).elim (argument.signedValue 32) (·.takes argument)

theorem narrow_lastType (dialect : Dialect) (format : Bytes) (index : ℕ) (argument : Argument) :
    (lastType (argumentSpecs dialect format) index).narrow argument.word =
      BitVec.ofInt 64 (numberAt (argumentSpecs dialect format) index argument) := by
  rw [lastType, numberAt]
  cases hlast : (namers (argumentSpecs dialect format) index).getLast? with
  | none =>
      change (SlotType.signed .none).narrow argument.word = _
      rw [Option.elim_none, Argument.signedValue, show 32 = LengthMod.none.bits from rfl,
        ← SlotType.toInt_narrow_signed, BitVec.ofInt_toInt]
  | some last =>
      obtain ⟨k, hk, -⟩ := mem_namers.mp (List.mem_of_getLast? hlast)
      obtain ⟨type, htype⟩ := Option.isSome_iff_exists.mp
        (isSome_slotType?_of_mem (List.mem_of_getElem? hk))
      rw [Option.bind_some, htype, Option.getD_some, Option.elim_some]
      exact SlotType.narrow_eq_ofInt htype argument

/-- What the directive with a number shows with a list of so many slots: nothing, unless it resolves
to the index of a slot, and then what it stands for, given the number that the slot took. -/
def resolvedBytes (specs : List FormatSpec) (arguments : List Argument) (size ordinal : ℕ)
    (spec : FormatSpec) : Bytes :=
  match resolved? specs ordinal with
  | none => []
  | some index =>
    if index < size then
      arguments[index]?.elim [] fun argument =>
        spec.meaningOf (numberAt specs index argument) argument
    else []

section Collected

variable (dialect : Dialect) (heap : Heap) (format : Bytes) (arguments : List Argument)

/-- Each slot of a collected list holds what the last directive to name it took from its argument. -/
theorem exists_slot_collect {index : ℕ}
    (hindex : index < (ArgumentList.collect dialect format arguments heap).1.size) :
    ∃ argument slot, arguments[index]? = some argument ∧
      (ArgumentList.collect dialect format arguments heap).1.get? index = some slot ∧
      slot.type = lastType (argumentSpecs dialect format) index ∧
      slot.value = BitVec.ofInt 64 (numberAt (argumentSpecs dialect format) index argument) ∧
      slot.referent = argument.referent := by
  rw [ArgumentList.size_collect, Nat.lt_min] at hindex
  let type := lastType (argumentSpecs dialect format) index
  have hargument : arguments[index]? = some arguments[index] := List.getElem?_eq_getElem hindex.2
  refine ⟨arguments[index], Slot.load { type } arguments[index], hargument, ?_, rfl,
    narrow_lastType dialect format index _, rfl⟩
  rw [ArgumentList.get?_collect, if_pos hindex.1, hargument]
  rfl

/-- What a directive shows of the slot that it reads follows from the arguments. -/
theorem slotBytes_read?_eq {ordinal : ℕ} {spec : FormatSpec}
    (hspec : (argumentSpecs dialect format)[ordinal]? = some spec) :
    let list := (ArgumentList.collect dialect format arguments heap).1
    slotBytes spec (list.read? ordinal spec) =
      resolvedBytes (argumentSpecs dialect format) arguments list.size ordinal spec := by
  intro list
  have hresolved : resolved? (argumentSpecs dialect format) ordinal = spec.slotIndex? ordinal := by
    rw [resolved?, hspec, Option.bind_some]
  rw [ArgumentList.read?, resolvedBytes, hresolved]
  cases spec.slotIndex? ordinal with
  | none => rfl
  | some index =>
      by_cases hindex : index < list.size
      · obtain ⟨argument, slot, hargument, hslot, -, hvalue, hreferent⟩ :=
          exists_slot_collect dialect heap format arguments hindex
        simp only [Option.bind_some, list, hslot, hargument, if_pos hindex, Option.elim_some]
        exact toBytes_renderSlot_of_value hvalue hreferent
      · have hnone : list.get? index = none :=
          (ArgumentList.get?_eq_none_iff (ArgumentList.fits_collect dialect format arguments heap)
            index).mpr (Nat.le_of_not_lt hindex)
        simp only [Option.bind_some, hnone, if_neg hindex]
        rfl

end Collected

/-- **The scan and the rendering agree on every slot.** A directive without a position resolves to
its number among the directives that read an argument, one with a position to the index before it,
and position zero to none; the cursor of the scan comes to the same. There is a slot for each such
directive, if there is room, and otherwise for 32; the list has these as far as there are arguments.
Each slot has the type that the last directive to resolve to it asks for, and holds what this
directive takes from the argument. The rendering reads for each directive the slot that it resolves
to. It shows nothing if there is no such slot, and otherwise what the directive stands for, given the
number in the slot. A directive that takes this number itself stands for what it always does. -/
theorem render_reads_resolved_slots (dialect : Dialect) (heap : Heap) (format : Bytes)
    (arguments : List Argument) :
    let specs := argumentSpecs dialect format
    let count := specs.length
    let room :=
      if count ≤ 32 ∨ (heap.request count dialect.slotBytes).1 = true then count else 32
    let list := (ArgumentList.collect dialect format arguments heap).1
    (∀ ordinal spec, specs[ordinal]? = some spec →
      (spec.position = none → resolved? specs ordinal = some ordinal) ∧
      (spec.position = some 0 → resolved? specs ordinal = none) ∧
      ∀ n, spec.position = some (n + 1) → resolved? specs ordinal = some n) ∧
    slotUses dialect format =
      (specs.zipIdx.filterMap fun (spec, ordinal) =>
        (resolved? specs ordinal).bind fun index => spec.slotType?.map fun type => (index, type)) ∧
    list.size = min room arguments.length ∧
    (∀ index < list.size, ∃ argument slot, arguments[index]? = some argument ∧
      list.get? index = some slot ∧
      let last := (namers specs index).getLast?
      slot.type = (last.bind (·.slotType?)).getD .i32 ∧
      slot.value =
        BitVec.ofInt 64 (last.elim (argument.signedValue 32) (·.takes argument)) ∧
      slot.referent = argument.referent) ∧
    (∀ ordinal spec, specs[ordinal]? = some spec →
      list.read? ordinal spec = (resolved? specs ordinal).bind list.get? ∧
      (list.read? ordinal spec = none ↔ ∀ index ∈ resolved? specs ordinal, list.size ≤ index)) ∧
    (render dialect format list).toBytes =
      spell (resolvedBytes specs arguments list.size) 0 (pieces dialect format) ∧
    ∀ spec ∈ specs, ∀ argument,
      spec.meaningOf (spec.takes argument) argument = spec.meaning argument := by
  intro specs count room list
  have hresolved {ordinal : ℕ} {spec : FormatSpec} (hspec : specs[ordinal]? = some spec) :
      resolved? specs ordinal = spec.slotIndex? ordinal := by
    rw [resolved?, hspec, Option.bind_some]
  refine ⟨?_, ?_, ArgumentList.size_collect dialect format arguments heap, ?_, ?_, ?_, ?_⟩
  · intro ordinal spec hspec
    rw [hresolved hspec, FormatSpec.slotIndex?]
    refine ⟨fun hposition => ?_, fun hposition => ?_, fun n hposition => ?_⟩ <;> rw [hposition]
  · rw [ArgumentList.slotUses_eq]
    apply List.filterMap_congr
    rintro ⟨spec, ordinal⟩ hmem
    rw [List.mem_zipIdx_iff_getElem?] at hmem
    simp only [hresolved hmem, ArgumentList.slotUse?]
    cases spec.slotIndex? ordinal <;> cases spec.slotType? <;> rfl
  · intro index hindex
    exact exists_slot_collect dialect heap format arguments hindex
  · intro ordinal spec hspec
    rw [hresolved hspec]
    refine ⟨rfl, ?_⟩
    rw [ArgumentList.read?, Option.bind_eq_none_iff]
    apply forall₂_congr
    intro index _
    exact ArgumentList.get?_eq_none_iff (ArgumentList.fits_collect dialect format arguments heap)
      index
  · rw [toBytes_render]
    apply spell_congr
    intro k spec hspec
    rw [Nat.zero_add]
    exact slotBytes_read?_eq dialect heap format arguments hspec
  · intro spec hmem argument
    apply FormatSpec.meaningOf_takes
    rw [← FormatSpec.isSome_slotType?]
    exact isSome_slotType?_of_mem hmem

/-- The first slot is named by two directives, and the last of them types it; one directive names no
slot, one a slot past all others, and one a slot for which there is no argument. -/
theorem render_reads_resolved_slots_conflicting :
    let format := textBytes "%1$x|%1$hhd|%2$u|%s|%0$d|%9$d|%d"
    let arguments := [.int 0x1ff, .int (-1), .uint 7, .ofText "ab"]
    let specs := argumentSpecs .plain format
    let list := (ArgumentList.collect .plain format arguments .system).1
    (List.range 7).map (resolved? specs) =
      [some 0, some 0, some 1, some 3, none, some 8, some 6] ∧
    list.size = 4 ∧
    (∀ slot ∈ list.get? 0, slot.type = .i8 ∧ slot.value = -1) ∧
    (render .plain format list).toBytes = textBytes "ffffffffffffffff|-1|4294967295|ab|||" := by
  intro format arguments specs list
  obtain ⟨-, -, hsize, hslots, -, hbytes, -⟩ :=
    render_reads_resolved_slots .plain .system format arguments
  have hfour : list.size = 4 := hsize.trans (by decide +kernel)
  refine ⟨by decide +kernel, hfour, ?_, ?_⟩
  · intro slot hslot
    obtain ⟨argument, found, hargument, hfound, htype, hvalue, -⟩ :=
      hslots 0 (by rw [hfour]; decide)
    cases hargument
    obtain rfl : found = slot := Option.some.inj (hfound.symm.trans hslot)
    exact ⟨htype.trans (by decide +kernel), hvalue.trans (by decide +kernel)⟩
  · rw [hbytes, hfour]
    decide +kernel

end BoundedFormat
