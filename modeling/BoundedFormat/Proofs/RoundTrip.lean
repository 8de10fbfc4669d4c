import BoundedFormat.Proofs.Directive.Plain
import BoundedFormat.Proofs.Directive.Splitting
import BoundedFormat.Proofs.Meaning
import BoundedFormat.Proofs.Reading

/-!
# Reading back what was formatted

A field puts blanks or zeros before a numeral, or blanks behind it. The reader passes over blanks,
zeros do not change a number, and a blank ends it, so a numeral is read back from any field. Where
a marker stands before the field this holds as long as no blank comes between the two: the reader
looks for digits right behind a marker. The main statement is about formats of one directive, and
about every width and both flags.
-/

namespace BoundedFormat

open Numeral (numeral upperNumeral value isDigitIn isAlphanumeric digitOf? Denotes Reading)

/-! ## Numerals in their fields -/

namespace FormatSpec

variable (spec : FormatSpec) (digits : Bytes)

/-- The blanks before a numeral in its field. -/
def blanksBefore : Bytes :=
  if spec.leftJustify ∨ spec.zeroFill then []
  else List.replicate (spec.width - digits.length) (ascii ' ')

/-- A numeral and the zeros that fill its field. -/
def filled : Bytes :=
  if spec.zeroFill ∧ ¬ spec.leftJustify then
    List.replicate (spec.width - digits.length) (ascii '0') ++ digits
  else digits

/-- The blanks behind a numeral in its field. -/
def blanksBehind : Bytes :=
  if spec.leftJustify then List.replicate (spec.width - digits.length) (ascii ' ') else []

theorem numeralField_eq :
    spec.numeralField digits =
      spec.blanksBefore digits ++ (spec.filled digits ++ spec.blanksBehind digits) := by
  rw [numeralField, inField, blanksBefore, filled, blanksBehind]
  cases spec.leftJustify <;> cases spec.zeroFill <;> simp

theorem isSpace_blanksBefore : ∀ b ∈ spec.blanksBefore digits, isSpace b := by
  intro b hb
  rw [blanksBefore] at hb
  split at hb
  · cases hb
  · rw [(List.mem_replicate.mp hb).2]
    rfl

theorem blanksBefore_eq_nil_iff :
    spec.blanksBefore digits = [] ↔
      spec.leftJustify ∨ spec.zeroFill ∨ spec.width ≤ digits.length := by
  rw [blanksBefore, ite_eq_left_iff, List.replicate_eq_nil_iff, Nat.sub_eq_zero_iff_le, ← or_assoc]
  exact or_iff_not_imp_left.symm

/-- The digits end the field, unless they stand to its left. -/
theorem length_before_filled :
    (spec.blanksBefore digits).length + (spec.filled digits).length =
      if spec.leftJustify then digits.length else (spec.numeralField digits).length := by
  rw [numeralField_eq, blanksBefore, filled, blanksBehind]
  cases spec.leftJustify <;> cases spec.zeroFill <;> simp

variable {spec digits} {base : ℕ} {w : Word} {text : Bytes}

theorem denotes_filled (h : Denotes base digits w) (hbase : 0 < base) :
    Denotes base (spec.filled digits) w := by
  rw [filled]
  split
  · exact h.replicate_zero_append hbase _
  · exact h

/-- Behind a numeral there are blanks of its field, or the field is over. -/
theorem digitOf?_behind (spec : FormatSpec) (digits : Bytes)
    (htext : ∀ b ∈ text.head?, isAlphanumeric b = false) :
    ∀ b ∈ (spec.blanksBehind digits ++ text).head?, digitOf? b = none := by
  intro b hb
  rw [Numeral.digitOf?_eq_none_iff]
  rw [Option.mem_def, List.head?_append, Option.or_eq_some_iff] at hb
  rcases hb with hblank | ⟨-, hnext⟩
  · have hmem : b ∈ spec.blanksBehind digits := List.mem_of_mem_head? hblank
    rw [blanksBehind] at hmem
    split at hmem
    · rw [(List.mem_replicate.mp hmem).2]
      rfl
    · cases hmem
  · exact htext b hnext

theorem isDigitIn_behind (spec : FormatSpec) (digits : Bytes) (base : ℕ)
    (htext : ∀ b ∈ text.head?, isAlphanumeric b = false) :
    ∀ b ∈ (spec.blanksBehind digits ++ text).head?, isDigitIn base b = false := by
  intro b hb
  exact Numeral.isDigitIn_eq_false_of_none (digitOf?_behind spec digits htext b hb) base

/-- **A numeral is read back from its field**, to the end of its digits. -/
theorem read_numeralField (h : Denotes base digits w) (hpos : 0 < base) (hbase : base ≤ 36)
    (htext : ∀ b ∈ text.head?, isAlphanumeric b = false) :
    Numeral.read base (spec.numeralField digits ++ text) =
      { value := w
        consumed := if spec.leftJustify then digits.length else (spec.numeralField digits).length
        status := .success } := by
  have hfilled : Denotes base (spec.filled digits) w := denotes_filled h hpos
  have hchosen := hfilled.chooseBase_eq hpos.ne' (digitOf?_behind spec digits htext)
  have hread : Numeral.read base (spec.blanksBefore digits ++ ([] ++ (spec.filled digits ++
      (spec.blanksBehind digits ++ text)))) = _ :=
    Numeral.read_eq (spec.isSpace_blanksBefore digits) hfilled.isSpace_head hchosen hpos hbase
      hfilled (isDigitIn_behind spec digits base htext)
  rw [List.length_nil, Nat.zero_add, length_before_filled, List.nil_append] at hread
  rw [← hread, numeralField_eq, List.append_assoc, List.append_assoc]

/-- **Behind a marker a numeral is read back from its field** if no blank comes between the two.
Otherwise there is nothing to read. -/
theorem read_marked_numeralField (h : Denotes 16 digits w) (hbase : base = 0 ∨ base = 16)
    (htext : ∀ b ∈ text.head?, isAlphanumeric b = false) :
    Numeral.read base (hexMarker ++ spec.numeralField digits ++ text) =
      if spec.leftJustify ∨ spec.zeroFill ∨ spec.width ≤ digits.length then
        { value := w
          consumed := if spec.leftJustify then (hexMarker ++ digits).length
            else (hexMarker ++ spec.numeralField digits).length
          status := .success }
      else .bad := by
  -- Right behind the marker stands a digit or a blank of the field.
  rcases hbefore : spec.blanksBefore digits with _ | ⟨blank, more⟩
  · have hfilled : Denotes 16 (spec.filled digits) w := denotes_filled h (by decide)
    have hlength := spec.length_before_filled digits
    have hread : Numeral.read base ([] ++ (hexMarker ++ (spec.filled digits ++
        (spec.blanksBehind digits ++ text)))) = _ :=
      Numeral.read_eq (by simp) (by rintro b ⟨⟩; rfl) (Numeral.chooseBase_marker hbase _)
        (by decide) (by decide) hfilled (isDigitIn_behind spec digits 16 htext)
    have hconsumed : hexMarker.length + (spec.filled digits).length =
        if spec.leftJustify then (hexMarker ++ digits).length
        else (hexMarker ++ spec.numeralField digits).length := by
      rw [hbefore, List.length_nil, Nat.zero_add] at hlength
      rw [hlength]
      split <;> rw [List.length_append]
    rw [List.length_nil, Nat.zero_add, List.nil_append, hconsumed] at hread
    rw [if_pos ((spec.blanksBefore_eq_nil_iff digits).mp hbefore), ← hread, spec.numeralField_eq,
      hbefore, List.nil_append, List.append_assoc, List.append_assoc]
  · have hblank : isSpace blank := by
      apply spec.isSpace_blanksBefore digits blank
      rw [hbefore]
      exact List.mem_cons_self
    have hne : spec.blanksBefore digits ≠ [] := by simp [hbefore]
    rw [if_neg (mt (spec.blanksBefore_eq_nil_iff digits).mpr hne), spec.numeralField_eq, hbefore,
      List.cons_append, List.append_assoc, List.cons_append]
    exact Numeral.read_marker_blank hbase hblank _

end FormatSpec

/-! ## Formats of one directive -/

section Formats

variable (dialect : Dialect) (heap : Heap) (argument : Argument)

/-- A format of one directive that reads an argument is what the directive stands for. -/
theorem toBytes_formatOutput_directive {t : DirectiveText} (hends : t.EndsBefore dialect none)
    (hnul : 0 ∉ t.toBytes) (hposition : t.position = none) (htakes : t.spec.takesArgument) :
    (formatOutput dialect heap (ascii '%' :: t.toBytes) [argument]).1.toBytes =
      t.spec.meaning argument := by
  have hpieces := pieces_directive hends hnul
  have hspec : (Piece.directive t.spec (ascii '%' :: t.toBytes)).argumentSpec? = some t.spec :=
    if_pos htakes
  have hspecs : argumentSpecs dialect (ascii '%' :: t.toBytes) = [t.spec] := by
    rw [argumentSpecs, hpieces, List.filterMap_cons_some hspec]
    rfl
  have hnone : t.spec.position = none := by
    rw [DirectiveText.spec, hposition]
    rfl
  rw [toBytes_formatOutput_single hspecs hnone, hpieces, spell_cons_some hspec]
  exact List.append_nil _

/-- The directive with a flag, a width and the letters of an integer. -/
def fieldDirective (minus : Bool) (width : Bytes) (length : LengthMod) (letter : UInt8) :
    DirectiveText where
  position := none
  field := { minus, width, precision := none }
  length := length
  letter := letter
  second := none

/-- The text of such a format. -/
def fieldFormat (minus : Bool) (width : Bytes) (letters : String) : Bytes :=
  ascii '%' :: (minusText minus ++ width ++ textBytes letters)

variable {width : Bytes} (hwidth : ∀ b ∈ width, isDigit b)

include hwidth

theorem plain_fieldDirective (minus : Bool) {length : LengthMod} {letter : UInt8}
    (hlength : length = .z → letter ∈ textBytes "duxX") (hletter : letter ∈ textBytes "duxXp") :
    (fieldDirective minus width length letter).Plain where
  position_digits := by rintro _ ⟨⟩
  width_digits := hwidth
  precision_digits := by rintro _ ⟨⟩
  before_z := hlength
  letter_digit := (by decide +kernel : ∀ b ∈ textBytes "duxXp", isDigit b = false) letter hletter
  letter_free :=
    (by decide +kernel : ∀ b ∈ textBytes "duxXp", b ∉ textBytes "-.$hlz") letter hletter
  no_second := rfl

theorem zero_not_mem_fieldDirective (minus : Bool) (length : LengthMod) {letter : UInt8}
    (hletter : letter ∈ textBytes "duxXp") :
    0 ∉ (fieldDirective minus width length letter).toBytes := by
  have hminus : 0 ∉ minusText minus := by cases minus <;> decide
  have hdigits : 0 ∉ width := by
    intro h
    have hzero := hwidth 0 h
    revert hzero
    decide
  have hlength : 0 ∉ length.text := by cases length <;> decide
  have hletter : 0 ≠ letter := by
    rintro rfl
    revert hletter
    decide
  simp [fieldDirective, DirectiveText.toBytes, positionText, FieldText.toBytes, precisionText,
    hminus, hdigits, hlength, hletter]

theorem toBytes_formatOutput_field (minus : Bool) (length : LengthMod) (letter : UInt8)
    (hlength : length ≠ .z) (hletter : letter ∈ textBytes "duxXp") {letters : String}
    (hletters : textBytes letters = length.text ++ [letter]) :
    (formatOutput dialect heap (fieldFormat minus width letters) [argument]).1.toBytes =
      (fieldDirective minus width length letter).spec.meaning argument := by
  have hformat : fieldFormat minus width letters =
      ascii '%' :: (fieldDirective minus width length letter).toBytes := by
    simp [fieldFormat, hletters, fieldDirective, DirectiveText.toBytes, positionText,
      FieldText.toBytes, precisionText]
  have hends : (fieldDirective minus width length letter).EndsBefore dialect none :=
    (plain_fieldDirective hwidth minus (fun h => absurd h hlength) hletter).endsBefore
      (by rintro _ ⟨⟩)
  rw [hformat]
  refine toBytes_formatOutput_directive dialect heap argument hends
    (zero_not_mem_fieldDirective hwidth minus length hletter) rfl ?_
  have htakes : ∀ letter ∈ textBytes "duxXp", (Conversion.ofLetter letter).takesArgument := by
    decide +kernel
  exact htakes letter hletter

/-- No numeral is as long as the widths that cannot be counted. -/
theorem width_fieldDirective_le_iff (minus : Bool) (length : LengthMod) (letter : UInt8)
    (w : Word) :
    (fieldDirective minus width length letter).spec.width ≤ (numeral 16 w.toNat).length ↔
      value 10 width ≤ (numeral 16 w.toNat).length := by
  have hlength : (numeral 16 w.toNat).length ≤ 16 := by
    rw [numeral, List.length_map, Nat.length_toDigits_le_iff (by decide) (by decide)]
    exact w.isLt
  have hcounted : (fieldDirective minus width length letter).spec.width =
      min (value 10 width) maxLength := Numeral.decimalValue_eq _ hwidth
  rw [hcounted, maxLength]
  omega

/-- An integer whose directive stands for digits in a field is read back in the base of these. -/
theorem read_formatOutput_digits (minus : Bool) (length : LengthMod) (letter : UInt8)
    (hlength : length ≠ .z) (hletter : letter ∈ textBytes "duxXp") {letters : String}
    (hletters : textBytes letters = length.text ++ [letter]) {base : ℕ} {digits text : Bytes}
    (hmeaning : (fieldDirective minus width length letter).spec.meaning argument =
      (fieldDirective minus width length letter).spec.numeralField digits)
    (hdigits : Denotes base digits argument.word) (hpos : 0 < base) (hbase : base ≤ 36)
    (htext : ∀ b ∈ text.head?, isAlphanumeric b = false) :
    let output := (formatOutput dialect heap (fieldFormat minus width letters) [argument]).1.toBytes
    Numeral.read base (output ++ text) =
      { value := argument.word
        consumed := if minus then digits.length else output.length
        status := .success } := by
  have houtput := toBytes_formatOutput_field dialect heap argument hwidth minus length letter hlength
    hletter hletters
  intro output
  have hfield : output = (fieldDirective minus width length letter).spec.numeralField digits :=
    houtput.trans hmeaning
  rw [hfield]
  exact FormatSpec.read_numeralField hdigits hpos hbase htext

/-- **Integers are read back as they were formatted.** In base ten after `%llu` and in base sixteen
after `%llx` and `%llX` this holds for every width and both flags, whatever follows that is no
letter or digit: the reading ends with the digits, which end the field unless they stand to its
left. After `%p` it holds, in base sixteen and with no base given, unless the field puts a blank
behind the marker; then there is nothing to read. -/
theorem read_formatOutput_fieldFormat (minus : Bool) {text : Bytes}
    (htext : ∀ b ∈ text.head?, isAlphanumeric b = false) :
    let output (letters : String) :=
      (formatOutput dialect heap (fieldFormat minus width letters) [argument]).1.toBytes
    let decimal := numeral 10 argument.word.toNat
    let lower := numeral 16 argument.word.toNat
    let upper := upperNumeral argument.word.toNat
    let success (letters : String) (digits : Bytes) : Reading :=
      { value := argument.word
        consumed := if minus then digits.length else (output letters).length
        status := .success }
    Numeral.read 10 (output "llu" ++ text) = success "llu" decimal ∧
    Numeral.read 16 (output "llx" ++ text) = success "llx" lower ∧
    Numeral.read 16 (output "llX" ++ text) = success "llX" upper ∧
    ∀ base, base = 0 ∨ base = 16 →
      Numeral.read base (output "p" ++ text) =
        if minus ∨ width.head? = some (ascii '0') ∨ value 10 width ≤ lower.length then
          success "p" (hexMarker ++ lower)
        else .bad := by
  intro output decimal lower upper success
  let spec (length : LengthMod) (letter : UInt8) : FormatSpec :=
    (fieldDirective minus width length letter).spec
  have hvalue : argument.unsignedValue 64 = argument.word.toNat :=
    Nat.mod_eq_of_lt argument.word.isLt
  have hdecimal : Denotes 10 decimal argument.word :=
    Numeral.denotes_numeral (by decide) (by decide) argument.word
  have hlower : Denotes 16 lower argument.word :=
    Numeral.denotes_numeral (by decide) (by decide) argument.word
  have hupper : Denotes 16 upper argument.word := Numeral.denotes_upperNumeral argument.word
  refine ⟨?_, ?_, ?_, ?_⟩
  · have hmeaning : (spec .ll (ascii 'u')).meaning argument =
        (spec .ll (ascii 'u')).numeralField decimal :=
      congrArg (fun n => (spec .ll (ascii 'u')).numeralField (numeral 10 n)) hvalue
    exact read_formatOutput_digits dialect heap argument hwidth minus .ll (ascii 'u') (by decide)
      (by decide) (by decide) hmeaning hdecimal (by decide) (by decide) htext
  · have hmeaning : (spec .ll (ascii 'x')).meaning argument =
        (spec .ll (ascii 'x')).numeralField lower :=
      congrArg (fun n => (spec .ll (ascii 'x')).numeralField (numeral 16 n)) hvalue
    exact read_formatOutput_digits dialect heap argument hwidth minus .ll (ascii 'x') (by decide)
      (by decide) (by decide) hmeaning hlower (by decide) (by decide) htext
  · have hmeaning : (spec .ll (ascii 'X')).meaning argument =
        (spec .ll (ascii 'X')).numeralField upper :=
      congrArg (fun n => (spec .ll (ascii 'X')).numeralField (upperNumeral n)) hvalue
    exact read_formatOutput_digits dialect heap argument hwidth minus .ll (ascii 'X') (by decide)
      (by decide) (by decide) hmeaning hupper (by decide) (by decide) htext
  · intro base hbase
    have houtput : output "p" = hexMarker ++ (spec .none (ascii 'p')).numeralField lower :=
      toBytes_formatOutput_field dialect heap argument hwidth minus .none (ascii 'p') (by decide)
        (by decide) (by decide)
    have hzero : (spec .none (ascii 'p')).zeroFill ↔ width.head? = some (ascii '0') :=
      decide_eq_true_iff
    have hfits : (spec .none (ascii 'p')).width ≤ lower.length ↔ value 10 width ≤ lower.length :=
      width_fieldDirective_le_iff hwidth minus .none (ascii 'p') argument.word
    simp only [success]
    rw [houtput, FormatSpec.read_marked_numeralField hlower hbase htext]
    exact if_congr (or_congr Iff.rfl (or_congr hzero hfits)) rfl rfl

end Formats

/-- The largest word fills the range of the reader, and a marker in a wide field stands alone. -/
theorem read_formatOutput_fieldFormat_widened :
    let argument : Argument := .uint (BitVec.allOnes 64)
    let output (letters : String) :=
      (formatOutput .plain .system (fieldFormat false (textBytes "24") letters)
        [argument]).1.toBytes
    (∀ b ∈ textBytes "24", isDigit b) ∧
    (∀ b ∈ (textBytes ", ").head?, isAlphanumeric b = false) ∧
    output "llu" = textBytes "    18446744073709551615" ∧
    output "p" = textBytes "0x        ffffffffffffffff" ∧
    Numeral.read 10 (output "llu" ++ textBytes ", ") =
      { value := BitVec.allOnes 64, consumed := 24, status := .success } ∧
    Numeral.read 0 (output "p" ++ textBytes ", ") = .bad := by
  intro argument output
  have hwidth : ∀ b ∈ textBytes "24", isDigit b := by decide +kernel
  have htext : ∀ b ∈ (textBytes ", ").head?, isAlphanumeric b = false := by decide +kernel
  have hdecimal : output "llu" = textBytes "    18446744073709551615" := by decide +kernel
  have hpointer : output "p" = textBytes "0x        ffffffffffffffff" := by decide +kernel
  obtain ⟨hread, -, -, hmarked⟩ :=
    read_formatOutput_fieldFormat .plain .system argument hwidth false htext
  refine ⟨hwidth, htext, hdecimal, hpointer, ?_, ?_⟩
  · have hconsumed : (output "llu").length = 24 := by
      rw [hdecimal]
      decide
    exact hread.trans (congrArg (fun n => Reading.mk (BitVec.allOnes 64) n .success) hconsumed)
  · exact (hmarked 0 (.inl rfl)).trans (if_neg (by decide +kernel))

end BoundedFormat
