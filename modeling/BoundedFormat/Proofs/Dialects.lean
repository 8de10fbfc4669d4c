import BoundedFormat.Proofs.Directive.Joining
import BoundedFormat.Proofs.Refusal

/-!
# One format in both dialects

The firmware dialect adds two conversions to the plain one, and each of them goes on where the plain
dialect stops: `u` with an `r` behind it, `p` with a `G`. The plain dialect takes the second letter
for text. Behind that letter both read on at the same byte, so a format has the same directives in
both, numbered alike. The main statement says what the plain dialect makes of each piece, and that a
format without the two conversions cannot tell the dialects apart.
-/

namespace BoundedFormat

/-! ## What the plain dialect reads instead -/

/-- The conversion that the plain dialect reads at the first letter. -/
def Conversion.inPlain : Conversion → Conversion
  | .guid => .pointer
  | .status => .unsigned
  | conversion => conversion

/-- The second letter of a conversion, which the plain dialect leaves. -/
def Conversion.second? : Conversion → Option UInt8
  | .guid => some (ascii 'G')
  | .status => some (ascii 'r')
  | _ => none

/-- The directive that the plain dialect reads. -/
def FormatSpec.inPlain (spec : FormatSpec) : FormatSpec :=
  { spec with conversion := spec.conversion.inPlain }

/-- The pieces that the plain dialect reads where the firmware dialect reads one. -/
def Piece.inPlain : Piece → List Piece
  | .directive spec raw =>
    match spec.conversion.second? with
    | some letter => [.directive spec.inPlain raw.dropLast, .literal [letter]]
    | none => [.directive spec raw]
  | piece => [piece]

/-- Pieces in which every two runs of text that meet are one. -/
def mergeLiterals (pieces : List Piece) : List Piece := joinPieces pieces []

namespace Conversion

theorem extended?_eq_some_iff {conversion extended : Conversion} {letter : UInt8} :
    conversion.extended? letter = some extended ↔
      extended.inPlain = conversion ∧ extended.second? = some letter := by
  constructor
  · intro h
    cases conversion with
    | unsigned | pointer =>
        rw [extended?, Option.ite_none_right_eq_some] at h
        obtain ⟨rfl, ⟨⟩⟩ := h
        exact ⟨rfl, rfl⟩
    | _ => cases h
  · rintro ⟨rfl, hsecond⟩
    cases extended with
    | guid | status => cases hsecond; rfl
    | _ => cases hsecond

theorem second?_ofLetter (letter : UInt8) : (ofLetter letter).second? = none := by
  simp only [ofLetter]
  repeat' split
  all_goals rfl

theorem inPlain_of_second?_eq_none {conversion : Conversion} (h : conversion.second? = none) :
    conversion.inPlain = conversion := by
  cases conversion with
  | guid | status => cases h
  | _ => rfl

theorem ne_percent_of_second? {conversion : Conversion} {letter : UInt8}
    (h : conversion.second? = some letter) : letter ≠ ascii '%' := by
  cases conversion with
  | guid | status => cases h; decide
  | _ => cases h

theorem takesArgument_inPlain (conversion : Conversion) :
    conversion.inPlain.takesArgument = conversion.takesArgument := by
  cases conversion <;> rfl

theorem second?_eq_none_iff {conversion : Conversion} :
    conversion.second? = none ↔ conversion ≠ .guid ∧ conversion ≠ .status := by
  cases conversion <;> simp [second?]

end Conversion

theorem FormatSpec.inPlain_of_second?_eq_none {spec : FormatSpec}
    (h : spec.conversion.second? = none) : spec.inPlain = spec := by
  rw [inPlain, Conversion.inPlain_of_second?_eq_none h]

/-- Only the end of the text makes a directive unreadable, and it ends where it ends. -/
theorem FormatSpec.read?_eq_none_congr {s : Bytes} (dialect other : Dialect)
    (h : read? dialect s = none) : read? other s = none := by
  rw [read?] at h ⊢
  rcases hread : Conversion.read? dialect
      (LengthMod.read (Field.read (takePosition s).2).2).2 with _ | ⟨conversion, rest⟩
  · rw [Conversion.read?_eq_none_iff] at hread
    simp only [hread]
    rfl
  · simp only [hread] at h
    cases h

namespace DirectiveText

/-- The part of a directive that the plain dialect reads. -/
def inPlain (t : DirectiveText) : DirectiveText := { t with second := none }

theorem toBytes_inPlain_append (t : DirectiveText) :
    t.inPlain.toBytes ++ t.second.toList = t.toBytes := by
  simp [toBytes, inPlain]

variable {t : DirectiveText} {next : Option UInt8}

/-- The plain dialect reads up to the second letter. -/
theorem EndsBefore.inPlain (h : t.EndsBefore .firmware next) :
    t.inPlain.EndsBefore .plain (t.second.or next) where
  position_digits := h.position_digits
  not_position := h.not_position
  field_ends := h.field_ends
  length_ends := h.length_ends
  second_extends := by simp [DirectiveText.inPlain]
  not_extended := by simp [Conversion.ExtendedBy]

/-- The plain dialect leaves the second letter of a conversion, if it has one. -/
theorem EndsBefore.second?_eq (h : t.EndsBefore .firmware next) :
    t.spec.conversion.second? = t.second ∧ t.spec.inPlain = t.inPlain.spec := by
  have hconversion : t.spec.conversion = .ofLetters t.letter t.second := rfl
  have hplain : t.spec.conversion.inPlain = .ofLetter t.letter →
      t.spec.inPlain = t.inPlain.spec := by
    intro hletter
    rw [FormatSpec.inPlain, hletter]
    rfl
  cases hsecond : t.second with
  | none =>
      have hnone : t.spec.conversion.second? = none := by
        rw [hconversion, hsecond]
        exact Conversion.second?_ofLetter t.letter
      refine ⟨hnone, hplain ?_⟩
      rw [Conversion.inPlain_of_second?_eq_none hnone, hconversion, hsecond]
      rfl
  | some c =>
      obtain ⟨extended, hextended⟩ := Option.isSome_iff_exists.mp (h.second_extends c hsecond).2
      have hread : t.spec.conversion = extended := by
        rw [hconversion, hsecond, Conversion.ofLetters, hextended]
        rfl
      rw [← hread, Conversion.extended?_eq_some_iff] at hextended
      exact ⟨hextended.2, hplain hextended.1⟩

end DirectiveText

/-! ## The pieces of both dialects -/

theorem mergeLiterals_literal (run : Bytes) (pieces : List Piece) :
    mergeLiterals (.literal run :: pieces) = mergeLiteral run (mergeLiterals pieces) := rfl

theorem mergeLiterals_directive (spec : FormatSpec) (raw : Bytes) (pieces : List Piece) :
    mergeLiterals (.directive spec raw :: pieces) = .directive spec raw :: mergeLiterals pieces :=
  rfl

theorem filterMap_mergeLiterals (pieces : List Piece) :
    (mergeLiterals pieces).filterMap Piece.argumentSpec? =
      pieces.filterMap Piece.argumentSpec? := by
  rw [mergeLiterals, filterMap_joinPieces, List.filterMap_nil, List.append_nil]

namespace Piece

theorem inPlain_directive {t : DirectiveText} {next : Option UInt8}
    (h : t.EndsBefore .firmware next) :
    (directive t.spec (ascii '%' :: t.toBytes)).inPlain =
      directive t.inPlain.spec (ascii '%' :: t.inPlain.toBytes) ::
        t.second.toList.map fun letter => literal [letter] := by
  obtain ⟨hsecond, hspec⟩ := h.second?_eq
  rw [inPlain, hsecond, hspec, ← t.toBytes_inPlain_append]
  cases hletter : t.second with
  | none =>
      rw [hletter] at hsecond
      rw [← hspec, FormatSpec.inPlain_of_second?_eq_none hsecond]
      simp
  | some letter =>
      have hraw : (ascii '%' :: (t.inPlain.toBytes ++ [letter])).dropLast =
          ascii '%' :: t.inPlain.toBytes := by
        rw [← List.cons_append, List.dropLast_concat]
      simp only [Option.toList_some, hraw, List.map_cons, List.map_nil]

theorem filterMap_inPlain (piece : Piece) :
    piece.inPlain.filterMap argumentSpec? = piece.argumentSpec?.toList.map FormatSpec.inPlain := by
  cases piece with
  | literal raw | incomplete raw => rfl
  | directive spec raw =>
      have htakes : spec.inPlain.takesArgument = spec.takesArgument :=
        Conversion.takesArgument_inPlain spec.conversion
      rw [inPlain]
      cases hsecond : spec.conversion.second? with
      | none =>
          have hspec := FormatSpec.inPlain_of_second?_eq_none hsecond
          cases h : spec.takesArgument <;> simp [argumentSpec?, h, hspec]
      | some letter => cases h : spec.takesArgument <;> simp [argumentSpec?, h, htakes]

end Piece

namespace Splits

variable {s : Bytes} {pieces : List Piece}

/-- A text that the firmware dialect cuts into some pieces is cut by the plain dialect into what it
makes of each. -/
theorem inPlain (h : Splits .firmware s pieces) :
    Splits .plain s (mergeLiterals (pieces.flatMap Piece.inPlain)) := by
  induction h with
  | nil => exact .nil
  | literal hb hrun _ _ ih => exact ih.mergeLiteral hb hrun
  | incomplete hread => exact .incomplete (FormatSpec.read?_eq_none_congr _ _ hread)
  | @directive t rest pieces hends _ ih =>
      have hplain := hends.inPlain
      rw [← DirectiveText.head?_second_append] at hplain
      rw [List.flatMap_cons, Piece.inPlain_directive hends, ← t.toBytes_inPlain_append,
        List.append_assoc]
      refine .directive hplain ?_
      cases hsecond : t.second with
      | none => exact ih
      | some letter =>
          have hletter := Conversion.ne_percent_of_second? (hends.second?_eq.1.trans hsecond)
          have hrun : ∀ c ∈ ([] : Bytes), c ≠ ascii '%' := by simp
          exact ih.mergeLiteral hletter hrun

/-- In the pieces of a text no two runs meet. -/
theorem mergeLiterals_eq {dialect : Dialect} (h : Splits dialect s pieces) :
    mergeLiterals pieces = pieces := by
  induction h with
  | nil => rfl
  | @literal b run rest pieces _ _ hrest split ih =>
      rw [mergeLiterals_literal, ih]
      cases split with
      | literal hc => exact absurd (hrest _ rfl) hc
      | nil | incomplete | directive => rfl
  | incomplete => rfl
  | directive _ _ ih => rw [mergeLiterals_directive, ih]

end Splits

variable {format : Bytes}

theorem pieces_plain (format : Bytes) :
    pieces .plain format = mergeLiterals ((pieces .firmware format).flatMap Piece.inPlain) :=
  splitPieces_eq_iff.mpr (splits_splitPieces .firmware (untilNul format)).inPlain

example :
    mergeLiterals ((pieces .firmware (textBytes "%2$lurun%pG%")).flatMap Piece.inPlain) =
      [.directive ⟨some 2, false, false, 0, none, .l, .unsigned⟩ (textBytes "%2$lu"),
        .literal (textBytes "run"),
        .directive ⟨none, false, false, 0, none, .none, .pointer⟩ (textBytes "%p"),
        .literal (textBytes "G"), .incomplete (textBytes "%")] := by decide +kernel

theorem argumentSpecs_plain (format : Bytes) :
    argumentSpecs .plain format = (argumentSpecs .firmware format).map FormatSpec.inPlain := by
  rw [argumentSpecs, pieces_plain, filterMap_mergeLiterals, argumentSpecs]
  induction pieces .firmware format with
  | nil => rfl
  | cons piece pieces ih =>
      rw [List.flatMap_cons, List.filterMap_append, ih, Piece.filterMap_inPlain]
      cases hspec : piece.argumentSpec? with
      | none => rw [List.filterMap_cons_none hspec]; rfl
      | some spec => rw [List.filterMap_cons_some hspec]; rfl

/-- A format without the conversions of the firmware dialect. -/
def WithoutFirmware (format : Bytes) : Prop :=
  ∀ spec ∈ argumentSpecs .firmware format, spec.conversion ≠ .guid ∧ spec.conversion ≠ .status

instance (format : Bytes) : Decidable (WithoutFirmware format) :=
  inferInstanceAs (Decidable (∀ spec ∈ argumentSpecs .firmware format, _ ∧ _))

theorem WithoutFirmware.inPlain_eq (h : WithoutFirmware format) {piece : Piece}
    (hpiece : piece ∈ pieces .firmware format) : piece.inPlain = [piece] := by
  cases piece with
  | literal raw | incomplete raw => rfl
  | directive spec raw =>
      have hsecond : spec.conversion.second? = none := by
        rw [Conversion.second?_eq_none_iff]
        by_cases htakes : spec.takesArgument
        · apply h
          exact List.mem_filterMap.mpr ⟨_, hpiece, if_pos htakes⟩
        · constructor <;> intro hconversion <;>
            exact htakes (by rw [FormatSpec.takesArgument, hconversion]; rfl)
      rw [Piece.inPlain, hsecond]

theorem WithoutFirmware.pieces_eq (h : WithoutFirmware format) :
    pieces .plain format = pieces .firmware format := by
  have hflat : (pieces .firmware format).flatMap Piece.inPlain = pieces .firmware format := by
    rw [List.flatMap_congr (g := fun piece => [piece]) fun piece => h.inPlain_eq,
      List.flatMap_singleton']
  rw [pieces_plain, hflat]
  exact (splits_splitPieces .firmware (untilNul format)).mergeLiterals_eq

/-- **The firmware dialect extends the plain one.** The plain dialect reads a format as the firmware
dialect does, except that it cuts the two conversions of the latter behind their first letter, and
takes the second for text. The directives of both are as many, and name the same slots. A format
without these conversions has the same slots in both and shows the same of any arguments, whatever
heap each of the two runs is granted its slots by. -/
theorem firmware_extends_plain (format : Bytes) :
    pieces .plain format = mergeLiterals ((pieces .firmware format).flatMap Piece.inPlain) ∧
    countArguments .plain format = countArguments .firmware format ∧
    (∀ ordinal, resolved? (argumentSpecs .plain format) ordinal =
      resolved? (argumentSpecs .firmware format) ordinal) ∧
    (WithoutFirmware format → ∀ (plainHeap firmwareHeap : Heap) (arguments : List Argument),
      plainHeap.GrantsSlots .plain (countArguments .plain format) →
      firmwareHeap.GrantsSlots .firmware (countArguments .firmware format) →
      (∀ index, (ArgumentList.scan .plain format plainHeap).1.get? index =
        (ArgumentList.scan .firmware format firmwareHeap).1.get? index) ∧
      (formatOutput .plain plainHeap format arguments).1.toBytes =
        (formatOutput .firmware firmwareHeap format arguments).1.toBytes ∧
      (formatLength .plain plainHeap format arguments).1 =
        (formatLength .firmware firmwareHeap format arguments).1 ∧
      ∀ buffer : Bytes, (formatInto .plain plainHeap buffer format arguments).1 =
        (formatInto .firmware firmwareHeap buffer format arguments).1) := by
  have hcount : countArguments .plain format = countArguments .firmware format := by
    rw [countArguments, argumentSpecs_plain, List.length_map]
    rfl
  refine ⟨pieces_plain format, hcount, ?_, ?_⟩
  · intro ordinal
    rw [resolved?, argumentSpecs_plain, List.getElem?_map, resolved?, Option.bind_map]
    rfl
  · intro hwithout plainHeap firmwareHeap arguments hplain hfirmware
    have hpieces := hwithout.pieces_eq
    have hspecs : argumentSpecs .plain format = argumentSpecs .firmware format := by
      rw [argumentSpecs, hpieces]
      rfl
    have hroom : plainHeap.slotRoom .plain (countArguments .plain format) =
        firmwareHeap.slotRoom .firmware (countArguments .firmware format) := by
      rw [Heap.slotRoom, if_pos hplain, Heap.slotRoom, if_pos hfirmware, hcount]
    have hslots : (ArgumentList.collect .plain format arguments plainHeap).1.get? =
        (ArgumentList.collect .firmware format arguments firmwareHeap).1.get? := by
      funext index
      rw [ArgumentList.get?_collect, ArgumentList.get?_collect, hroom, hspecs]
    have hbytes : (formatOutput .plain plainHeap format arguments).1.toBytes =
        (formatOutput .firmware firmwareHeap format arguments).1.toBytes := by
      rw [toBytes_formatOutput, toBytes_formatOutput, hpieces]
      simp only [ArgumentList.read?, hslots]
    refine ⟨?_, hbytes, measure_congr hbytes, store_congr hbytes⟩
    intro index
    rw [ArgumentList.get?_scan, ArgumentList.get?_scan, hroom, hspecs]

theorem firmware_extends_plain_spilled :
    let format := (List.replicate 32 (textBytes "%hhd")).flatten ++ textBytes "%pg%1$zuR%zr%"
    let budget := Heap.budget { remaining := 1360 }
    let arguments := [Argument.uint 511, .int 2]
    WithoutFirmware format ∧
    Heap.system.GrantsSlots .plain (countArguments .plain format) ∧
    budget.GrantsSlots .firmware (countArguments .firmware format) ∧
    (formatOutput .firmware budget format arguments).1.toBytes = textBytes "5112g511Rzr%" := by
  intro format budget arguments
  have hwithout : WithoutFirmware format := by decide +kernel
  have hplain : Heap.system.GrantsSlots .plain (countArguments .plain format) := by
    decide +kernel
  have hfirmware : budget.GrantsSlots .firmware (countArguments .firmware format) := by
    decide +kernel
  refine ⟨hwithout, hplain, hfirmware, ?_⟩
  rw [← ((firmware_extends_plain format).2.2.2 hwithout .system budget arguments hplain
    hfirmware).2.1]
  decide +kernel

end BoundedFormat
