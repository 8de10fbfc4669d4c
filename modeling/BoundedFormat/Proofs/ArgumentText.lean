import BoundedFormat.ArgumentText
import BoundedFormat.Proofs.CanonicalNumeral
import BoundedFormat.Proofs.Extent
import BoundedFormat.Proofs.RoundTrip

/-!
# Arguments written by the formatter

A number that the formatter shows, without flags or width, is a text that reads back as an argument
of that number: its digits have no zero in front that would change the base, and a minus is taken
off before they are read. The other way round a signed argument is read from an optional minus and
a number that is the whole of the text, and is exactly that number. The main statement has both, for
every tag.
-/

namespace BoundedFormat

open Numeral (numeral upperNumeral signedNumeral signText Denotes Reading)

/-! ## Numbers that say their base -/

namespace Numeral

/-- A canonical numeral with more than one digit does not begin with a zero. -/
theorem Alphabet.Canonical.ne_zero_cons {a : Alphabet} {text : Bytes} {n : ℕ}
    (h : a.Canonical text n) (b : UInt8) (rest : Bytes) : text ≠ ascii '0' :: b :: rest := by
  rintro rfl
  have halone := h.no_leading_zero rfl
  exact absurd (congrArg List.length halone) (by simp)

theorem read_numeral (w : Word) :
    read 0 (numeral 10 w.toNat) =
      { value := w, consumed := (numeral 10 w.toNat).length, status := .success } := by
  have hcanonical := Alphabet.decimal_canonical_iff.mpr (rfl : numeral 10 w.toNat = _)
  have hdigits : Denotes 10 (numeral 10 w.toNat) w := denotes_numeral (by decide) (by decide) w
  have hchosen : chooseBase 0 (numeral 10 w.toNat) = (10, numeral 10 w.toNat) :=
    chooseBase_decimal (fun rest => hcanonical.ne_zero_cons (ascii 'x') rest)
      fun b rest h => absurd h (hcanonical.ne_zero_cons b rest)
  have hfirst : ∀ b ∈ (numeral 10 w.toNat ++ []).head?, isSpace b = false := hdigits.isSpace_head
  rw [List.append_nil] at hfirst
  have hread : read 0 ([] ++ numeral 10 w.toNat) = _ :=
    read_whole hfirst hchosen (by decide) (by decide) hdigits
  exact hread

theorem read_marked {digits : Bytes} {w : Word} (h : Denotes 16 digits w) :
    read 0 (textBytes "0x" ++ digits) =
      { value := w, consumed := (textBytes "0x" ++ digits).length, status := .success } :=
  read_whole (by rintro b ⟨⟩; rfl) (chooseBase_marker (.inl rfl) digits) (by decide) (by decide) h

/-- Digits are ASCII. -/
theorem lt_of_digitOf?_ne_none {b : UInt8} (h : digitOf? b ≠ none) : b < 128 := by
  have hkind : isAlphanumeric b := by
    rw [← Bool.not_eq_false]
    exact fun hnone => h (digitOf?_eq_none_iff.mpr hnone)
  simp only [isAlphanumeric, isDigit, Bool.or_eq_true, Bool.and_eq_true, decide_eq_true_eq] at hkind
  rcases hkind with (hdigit | hlower) | hupper
  · exact UInt8.lt_of_le_of_lt hdigit.2 (by decide)
  · exact UInt8.lt_of_le_of_lt hlower.2 (by decide)
  · exact UInt8.lt_of_le_of_lt hupper.2 (by decide)

theorem lt_of_isDigit {b : UInt8} (h : isDigit b) : b < 128 := by
  apply lt_of_digitOf?_ne_none
  rw [digitOf?_of_isDigit h]
  exact Option.some_ne_none _

theorem Denotes.lt {base : ℕ} {digits : Bytes} {w : Word} (h : Denotes base digits w) :
    ∀ b ∈ digits, b < 128 := by
  intro b hb
  obtain ⟨digit, hdigit, -⟩ := isDigitIn_iff.mp (h.all_digits b hb)
  apply lt_of_digitOf?_ne_none
  rw [hdigit]
  exact Option.some_ne_none digit

end Numeral

/-! ## What is shown of an argument -/

/-- The character of an ASCII byte. -/
def asciiChar (b : UInt8) : Char := Char.ofNat b.toNat

/-- The text of ASCII bytes. -/
def asciiText (bytes : Bytes) : String := String.ofList (bytes.map asciiChar)

@[simp] theorem toList_asciiText (bytes : Bytes) :
    (asciiText bytes).toList = bytes.map asciiChar := String.toList_ofList

theorem utf8EncodeChar_asciiChar {b : UInt8} : b < 128 → String.utf8EncodeChar (asciiChar b) = [b] := by
  revert b
  apply Numeral.forall_byte
  decide +kernel

theorem charBytes_asciiChar {bytes : Bytes} (h : ∀ b ∈ bytes, b < 128) :
    charBytes (bytes.map asciiChar) = bytes := by
  have hone : ∀ b ∈ bytes, String.utf8EncodeChar (asciiChar b) = [b] :=
    fun b hb => utf8EncodeChar_asciiChar (h b hb)
  rw [charBytes, List.flatMap_map, List.flatMap_congr hone, List.flatMap_singleton']

theorem textBytes_asciiText {bytes : Bytes} (h : ∀ b ∈ bytes, b < 128) :
    textBytes (asciiText bytes) = bytes := by
  rw [textBytes, toList_asciiText, charBytes_asciiChar h]

section Shown

variable (dialect : Dialect) (heap : Heap) (argument : Argument)

/-- What a format shows of an argument. -/
def shown (format : String) : Bytes :=
  (formatOutput dialect heap (textBytes format) [argument]).1.toBytes

theorem FormatSpec.numeralField_of_width {spec : FormatSpec} (h : spec.width = 0)
    (digits : Bytes) : spec.numeralField digits = digits := by
  rw [numeralField, inField, h]
  simp

/-- Without flags and width a directive shows what it stands for. -/
theorem shown_eq_meaning (length : LengthMod) (letter : UInt8) {letters format : String}
    (hlength : length ≠ .z) (hletter : letter ∈ textBytes "duxXp")
    (hletters : textBytes letters = length.text ++ [letter])
    (hformat : textBytes format = fieldFormat false [] letters) :
    shown dialect heap argument format =
      (fieldDirective false [] length letter).spec.meaning argument := by
  rw [shown, hformat]
  exact toBytes_formatOutput_field dialect heap argument (by simp) false length letter hlength
    hletter hletters

theorem shown_lld :
    shown dialect heap argument "%lld" =
      signText argument.word ++ numeral 10 argument.word.toInt.natAbs := by
  have hvalue : argument.signedValue 64 = argument.word.toInt :=
    (BitVec.toInt_eq_toNat_bmod argument.word).symm
  have hmeaning : (fieldDirective false [] .ll (ascii 'd')).spec.meaning argument =
      (fieldDirective false [] .ll (ascii 'd')).spec.numeralField
        (signedNumeral (argument.signedValue 64)) := rfl
  have hletters : textBytes "lld" = LengthMod.ll.text ++ [ascii 'd'] := by decide
  rw [shown_eq_meaning dialect heap argument .ll (ascii 'd') (by decide) (by decide) hletters
    (by decide), hmeaning, FormatSpec.numeralField_of_width rfl, hvalue, ← Numeral.print_signed,
    Numeral.print_signed_eq]

theorem shown_llu :
    shown dialect heap argument "%llu" = numeral 10 argument.word.toNat := by
  have hvalue : argument.unsignedValue 64 = argument.word.toNat :=
    Nat.mod_eq_of_lt argument.word.isLt
  have hmeaning : (fieldDirective false [] .ll (ascii 'u')).spec.meaning argument =
      (fieldDirective false [] .ll (ascii 'u')).spec.numeralField
        (numeral 10 (argument.unsignedValue 64)) := rfl
  have hletters : textBytes "llu" = LengthMod.ll.text ++ [ascii 'u'] := by decide
  rw [shown_eq_meaning dialect heap argument .ll (ascii 'u') (by decide) (by decide) hletters
    (by decide), hmeaning, FormatSpec.numeralField_of_width rfl, hvalue]

theorem shown_p :
    shown dialect heap argument "%p" = textBytes "0x" ++ numeral 16 argument.word.toNat := by
  have hmeaning : (fieldDirective false [] .none (ascii 'p')).spec.meaning argument =
      hexMarker ++ (fieldDirective false [] .none (ascii 'p')).spec.numeralField
        (numeral 16 argument.word.toNat) := rfl
  have hletters : textBytes "p" = LengthMod.none.text ++ [ascii 'p'] := by decide
  rw [shown_eq_meaning dialect heap argument .none (ascii 'p') (by decide) (by decide) hletters
    (by decide), hmeaning, FormatSpec.numeralField_of_width rfl, hexMarker]

end Shown

/-! ## Tags -/

namespace ArgumentText

variable (t : String)

/-- Each tag has its reader. -/
theorem parse_tagged :
    parse ("i:" ++ t) = (readSigned ("i:" ++ t) t.toList).map .int ∧
      parse ("u:" ++ t) = (readUnsigned ("u:" ++ t) t.toList).map .uint ∧
      parse ("p:" ++ t) = (readAddress ("p:" ++ t) t.toList).map .ptr ∧
      parse ("s:" ++ t) = .ok (readString t.toList) ∧
      parse ("c:" ++ t) = (readChar ("c:" ++ t) t.toList).map .char := by
  refine ⟨?_, ?_, ?_, ?_, ?_⟩ <;> rw [parse, String.toList_append] <;> rfl

theorem parse_i : parse ("i:" ++ t) = (readSigned ("i:" ++ t) t.toList).map .int :=
  (parse_tagged t).1

theorem parse_u : parse ("u:" ++ t) = (readUnsigned ("u:" ++ t) t.toList).map .uint :=
  (parse_tagged t).2.1

theorem parse_p : parse ("p:" ++ t) = (readAddress ("p:" ++ t) t.toList).map .ptr :=
  (parse_tagged t).2.2.1

theorem parse_s : parse ("s:" ++ t) = .ok (readString t.toList) :=
  (parse_tagged t).2.2.2.1

theorem parse_c : parse ("c:" ++ t) = (readChar ("c:" ++ t) t.toList).map .char :=
  (parse_tagged t).2.2.2.2

/-! ## Whole numbers -/

section Whole

variable {text : String} {value : Bytes} {r : Reading}

theorem whole_of_error {cause : Error} (h : r.status.error? = some cause) :
    whole text value r = .error (.number text cause) := by
  rw [whole, h]

theorem whole_of_success (h : r.status = .success) :
    whole text value r =
      if r.consumed = value.length then .ok r.value else .error (.trailing text) := by
  rw [whole, h]
  rfl

end Whole

/-! ## Signed numbers -/

/-- A minus in front is a sign. -/
def isNegative (value : List Char) : Bool := value.head? = some '-'

/-- The text without its sign. -/
def magnitude (value : List Char) : List Char := if isNegative value then value.tail else value

/-- A magnitude with the sign of a text. -/
def signedNumber (value : List Char) (m : Word) : ℤ := if isNegative value then -m.toNat else m.toNat

/-- The integers that a word in two's complement can be. -/
def FitsSigned (z : ℤ) : Prop := -2 ^ 63 ≤ z ∧ z < 2 ^ 63

instance (z : ℤ) : Decidable (FitsSigned z) := inferInstanceAs (Decidable (_ ∧ _))

/-- A word is an integer that fits, and each of these is one word. -/
theorem toInt_eq_iff {v : Word} {z : ℤ} : v.toInt = z ↔ FitsSigned z ∧ v = BitVec.ofInt 64 z := by
  constructor
  · rintro rfl
    exact ⟨⟨BitVec.le_toInt v, BitVec.toInt_lt⟩, BitVec.ofInt_toInt.symm⟩
  · rintro ⟨⟨hlow, hhigh⟩, rfl⟩
    exact BitVec.toInt_ofInt_eq_self (by decide) hlow hhigh

/-- The sign is taken off before the number is read. -/
theorem readSigned_eq_magnitude (text : String) (value : List Char) :
    readSigned text value =
      match readUnsigned text (magnitude value) with
      | .error fault => .error fault
      | .ok m =>
        if isNegative value then
          if m ≤ signBound then .ok (-m) else .error (.number text .outOfRange)
        else
          if m < signBound then .ok m else .error (.number text .outOfRange) := by
  rcases value with _ | ⟨c, digits⟩
  · rfl
  · by_cases hc : c = '-'
    · subst hc
      rfl
    · have hpositive : isNegative (c :: digits) = false := by simp [isNegative, hc]
      have hunsigned : ∀ rest, c :: digits ≠ '-' :: rest :=
        fun rest hminus => hc (List.cons.inj hminus).1
      rw [magnitude, hpositive, if_neg Bool.false_ne_true]
      exact readSigned.eq_2 text (c :: digits) hunsigned

/-- The number with its sign is an integer that fits, or it is out of range. -/
theorem readSigned_eq (text : String) (value : List Char) :
    readSigned text value =
      match readUnsigned text (magnitude value) with
      | .error fault => .error fault
      | .ok m =>
        if FitsSigned (signedNumber value m) then .ok (BitVec.ofInt 64 (signedNumber value m))
        else .error (.number text .outOfRange) := by
  have hbound : signBound.toNat = 2 ^ 63 := rfl
  rw [readSigned_eq_magnitude]
  cases readUnsigned text (magnitude value) with
  | error fault => rfl
  | ok m =>
      simp only [signedNumber]
      by_cases hnegative : isNegative value
      · have hfits : FitsSigned (-m.toNat) ↔ m ≤ signBound := by
          rw [FitsSigned, BitVec.le_def, hbound]
          omega
        simp only [if_pos hnegative, hfits, BitVec.ofInt_neg, BitVec.ofInt_natCast,
          BitVec.ofNat_toNat, BitVec.setWidth_eq]
      · have hfits : FitsSigned m.toNat ↔ m < signBound := by
          rw [FitsSigned, BitVec.lt_def, hbound]
          omega
        simp only [if_neg hnegative, hfits, BitVec.ofInt_natCast, BitVec.ofNat_toNat,
          BitVec.setWidth_eq]

/-- What the number of a text is read as. -/
def reading (t : String) : Reading := Numeral.read 0 (charBytes (magnitude t.toList))

/-- The number of a text, with its sign. -/
def number (t : String) : ℤ := signedNumber t.toList (reading t).value

/-- All of a text behind its sign is a number. -/
def IsNumber (t : String) : Prop :=
  (reading t).status = .success ∧ (reading t).consumed = (charBytes (magnitude t.toList)).length

/-- What comes of a text as a signed argument: the number that it is, if it is one and fits, and
else what is wrong with it. -/
structure SignedOutcome (t : String) : Prop where
  ok_iff : ∀ argument, parse ("i:" ++ t) = .ok argument ↔
    IsNumber t ∧ ∃ v : Word, argument = .int v ∧ v.toInt = number t
  outOfRange_iff : parse ("i:" ++ t) = .error (.number ("i:" ++ t) .outOfRange) ↔
    (reading t).status = .overflow ∨ IsNumber t ∧ ¬ FitsSigned (number t)
  badNumber_iff : parse ("i:" ++ t) = .error (.number ("i:" ++ t) .badNumber) ↔
    (reading t).status = .badNumber
  trailing_iff : parse ("i:" ++ t) = .error (.trailing ("i:" ++ t)) ↔
    (reading t).status = .success ∧ ¬ IsNumber t

section Outcomes

variable {t}

theorem parse_of_error {cause : Error} (h : (reading t).status.error? = some cause) :
    parse ("i:" ++ t) = .error (.number ("i:" ++ t) cause) := by
  have hread : readUnsigned ("i:" ++ t) (magnitude t.toList) =
      .error (.number ("i:" ++ t) cause) := whole_of_error h
  rw [parse_i, readSigned_eq, hread]
  rfl

theorem parse_of_trailing (hstatus : (reading t).status = .success) (hrest : ¬ IsNumber t) :
    parse ("i:" ++ t) = .error (.trailing ("i:" ++ t)) := by
  have hread : readUnsigned ("i:" ++ t) (magnitude t.toList) = .error (.trailing ("i:" ++ t)) :=
    (whole_of_success hstatus).trans (if_neg fun hall => hrest ⟨hstatus, hall⟩)
  rw [parse_i, readSigned_eq, hread]
  rfl

theorem parse_of_isNumber (h : IsNumber t) :
    parse ("i:" ++ t) =
      if FitsSigned (number t) then .ok (.int (BitVec.ofInt 64 (number t)))
      else .error (.number ("i:" ++ t) .outOfRange) := by
  have hread : readUnsigned ("i:" ++ t) (magnitude t.toList) = .ok (reading t).value :=
    (whole_of_success h.1).trans (if_pos h.2)
  rw [parse_i, readSigned_eq, hread]
  simp only
  rw [← number]
  split <;> rfl

end Outcomes

theorem signedOutcome : SignedOutcome t := by
  cases hstatus : (reading t).status with
  | overflow =>
      have hparse : parse ("i:" ++ t) = .error (.number ("i:" ++ t) .outOfRange) :=
        parse_of_error (by rw [hstatus]; rfl)
      constructor <;> simp [hparse, IsNumber, hstatus]
  | badNumber =>
      have hparse : parse ("i:" ++ t) = .error (.number ("i:" ++ t) .badNumber) :=
        parse_of_error (by rw [hstatus]; rfl)
      constructor <;> simp [hparse, IsNumber, hstatus]
  | success =>
      by_cases hnumber : IsNumber t
      · have hparse := parse_of_isNumber hnumber
        by_cases hfits : FitsSigned (number t)
        · rw [if_pos hfits] at hparse
          constructor <;> simp [hparse, hnumber, hstatus, hfits, toInt_eq_iff, eq_comm]
        · rw [if_neg hfits] at hparse
          constructor <;> simp [hparse, hnumber, hstatus, hfits, toInt_eq_iff]
      · have hparse := parse_of_trailing hstatus hnumber
        constructor <;> simp [hparse, hnumber, hstatus]

/-! ## Numbers that were shown -/

/-- A number that is all of a text is read from it. -/
theorem readUnsigned_asciiText {out : Bytes} {w : Word} (hascii : ∀ b ∈ out, b < 128)
    (hread : Numeral.read 0 out = { value := w, consumed := out.length, status := .success })
    (text : String) : readUnsigned text (asciiText out).toList = .ok w := by
  rw [readUnsigned, toList_asciiText, charBytes_asciiChar hascii, hread,
    whole_of_success rfl, if_pos rfl]

theorem readAddress_eq_readUnsigned (text : String) (value : List Char) :
    readAddress text value = readUnsigned text value := by
  rw [readAddress, readUnsigned, Numeral.readAddress_eq]

/-- Marked digits are read as a number, and as an address. -/
theorem parse_asciiText {out : Bytes} {w : Word} (hascii : ∀ b ∈ out, b < 128)
    (hread : Numeral.read 0 out = { value := w, consumed := out.length, status := .success }) :
    parse ("u:" ++ asciiText out) = .ok (.uint w) ∧
      parse ("p:" ++ asciiText out) = .ok (.ptr w) := by
  rw [parse_u, parse_p, readAddress_eq_readUnsigned, readUnsigned_asciiText hascii hread,
    readUnsigned_asciiText hascii hread]
  exact ⟨rfl, rfl⟩

/-- No digit is a minus. -/
theorem asciiChar_ne_minus {b : UInt8} (h : isDigit b) : asciiChar b ≠ '-' := by
  intro hminus
  have hbytes := utf8EncodeChar_asciiChar (Numeral.lt_of_isDigit h)
  rw [hminus] at hbytes
  cases hbytes
  revert h
  decide

/-- The sign of a word is taken off its text. -/
theorem sign_asciiChar (w : Word) (n : ℕ) :
    isNegative ((signText w ++ numeral 10 n).map asciiChar) = decide (w.toInt < 0) ∧
      magnitude ((signText w ++ numeral 10 n).map asciiChar) = (numeral 10 n).map asciiChar := by
  by_cases h : w.toInt < 0
  · rw [signText, if_pos h]
    exact ⟨(decide_eq_true h).symm, rfl⟩
  · obtain ⟨b, rest, hnumeral⟩ := List.exists_cons_of_ne_nil (Numeral.numeral_ne_nil 10 n)
    have hdigit : isDigit b := by
      apply Numeral.isDigit_of_mem_numeral n
      rw [hnumeral]
      exact List.mem_cons_self
    have hpositive : isNegative ((numeral 10 n).map asciiChar) = false := by
      rw [hnumeral, List.map_cons, isNegative, List.head?_cons]
      exact decide_eq_false fun hb => asciiChar_ne_minus hdigit (Option.some.inj hb)
    rw [signText, if_neg h, List.nil_append, magnitude, hpositive]
    exact ⟨(decide_eq_false h).symm, rfl⟩

theorem lt_of_mem_signed (w : Word) :
    ∀ b ∈ signText w ++ numeral 10 w.toInt.natAbs, b < 128 := by
  intro b hb
  rcases List.mem_append.mp hb with hb | hb
  · rw [signText] at hb
    split at hb
    · rw [List.mem_singleton.mp hb]
      decide
    · cases hb
  · exact Numeral.lt_of_isDigit (Numeral.isDigit_of_mem_numeral _ b hb)

theorem parse_signText_append_numeral (w : Word) :
    parse ("i:" ++ asciiText (signText w ++ numeral 10 w.toInt.natAbs)) = .ok (.int w) := by
  have hle := Numeral.natAbs_toInt_le w
  have hword : (BitVec.ofNat 64 w.toInt.natAbs).toNat = w.toInt.natAbs := by
    rw [BitVec.toNat_ofNat]
    omega
  have hread := Numeral.read_numeral (BitVec.ofNat 64 w.toInt.natAbs)
  have hdenotes := Numeral.denotes_numeral (by decide : 1 < 10) (by decide)
    (BitVec.ofNat 64 w.toInt.natAbs)
  rw [hword] at hread hdenotes
  obtain ⟨hnegative, hmagnitude⟩ := sign_asciiChar w w.toInt.natAbs
  have hbytes : charBytes (magnitude (asciiText (signText w ++ numeral 10 w.toInt.natAbs)).toList) =
      numeral 10 w.toInt.natAbs := by
    rw [toList_asciiText, hmagnitude, charBytes_asciiChar hdenotes.lt]
  rw [(signedOutcome _).ok_iff, IsNumber, number, reading, hbytes, hread]
  refine ⟨⟨rfl, rfl⟩, w, rfl, ?_⟩
  rw [signedNumber, toList_asciiText, hnegative, hword]
  by_cases h : w.toInt < 0
  · rw [if_pos (decide_eq_true h)]
    omega
  · rw [if_neg (by simpa using h)]
    omega

/-- Anything but a single character is the number of a code value. -/
theorem readChar_of_ne_singleton {text : String} {value : List Char} {w : Word}
    (hvalue : ∀ c, value ≠ [c]) (hread : readUnsigned text value = .ok w) (hle : w ≤ maxCode) :
    readChar text value = .ok (w.setWidth 32) := by
  rw [readChar, hread]
  · exact if_pos hle
  · exact hvalue

theorem toList_marked (digits : Bytes) :
    (asciiText (textBytes "0x" ++ digits)).toList = '0' :: 'x' :: digits.map asciiChar := by
  rw [toList_asciiText]
  rfl

theorem lt_of_mem_marked {digits : Bytes} {w : Word} (h : Denotes 16 digits w) :
    ∀ b ∈ textBytes "0x" ++ digits, b < 128 := by
  have hmarker : textBytes "0x" = [ascii '0', ascii 'x'] := by decide
  rw [hmarker]
  exact List.forall_mem_cons.mpr ⟨by decide, List.forall_mem_cons.mpr ⟨by decide, h.lt⟩⟩

/-- The marked number of a code value is read as it, in digits of either case. -/
theorem parse_code {code : BitVec 32} {digits : Bytes} (h : Denotes 16 digits (code.setWidth 64)) :
    parse ("c:0x" ++ asciiText digits) = .ok (.char code) := by
  have htext : "c:0x" ++ asciiText digits = "c:" ++ asciiText (textBytes "0x" ++ digits) := by
    apply String.toList_injective
    rw [String.toList_append, String.toList_append, toList_marked, toList_asciiText]
    rfl
  have hsingleton : ∀ c, (asciiText (textBytes "0x" ++ digits)).toList ≠ [c] := by
    intro c
    rw [toList_marked]
    simp
  have hle : code.setWidth 64 ≤ maxCode := by
    rw [BitVec.le_def, BitVec.toNat_setWidth_of_le (by decide)]
    exact Nat.le_of_lt_succ code.isLt
  have hread := readUnsigned_asciiText (lt_of_mem_marked h) (Numeral.read_marked h)
    ("c:" ++ asciiText (textBytes "0x" ++ digits))
  rw [htext, parse_c, readChar_of_ne_singleton hsingleton hread hle,
    BitVec.setWidth_setWidth_of_le code (by decide), BitVec.setWidth_eq]
  rfl

/-- **Arguments are read exactly.** What a directive shows of a number, behind the tag of its kind, is
an argument of that number; so is the marked number of a code value, and a single character is its
own. Behind the tag of a string everything is the string, but for the one text that stands for none.
Of every other text `SignedOutcome` says what it is as a signed argument. -/
theorem parse_exact (dialect : Dialect) (heap : Heap) :
    (∀ argument, let out := shown dialect heap argument "%lld"
      textBytes (asciiText out) = out ∧
        parse ("i:" ++ asciiText out) = .ok (.int argument.word)) ∧
    (∀ argument, ∀ format ∈ ["%llu", "%p"], let out := shown dialect heap argument format
      textBytes (asciiText out) = out ∧
        parse ("u:" ++ asciiText out) = .ok (.uint argument.word) ∧
        parse ("p:" ++ asciiText out) = .ok (.ptr argument.word)) ∧
    (∀ code : BitVec 32, ∀ digits ∈ [numeral 16 code.toNat, upperNumeral code.toNat],
      textBytes (asciiText digits) = digits ∧
        parse ("c:0x" ++ asciiText digits) = .ok (.char code)) ∧
    (∀ c : Char, ∃ code : BitVec 32, code.toNat = c.toNat ∧
      parse ("c:" ++ String.singleton c) = .ok (.char code)) ∧
    (∀ t, parse ("s:" ++ t) =
      .ok (if t = "(null)" then .str none else .ofBytes (textBytes t))) ∧
    ∀ t, SignedOutcome t := by
  refine ⟨?_, ?_, ?_, ?_, ?_, signedOutcome⟩
  · intro argument out
    have hout : out = signText argument.word ++ numeral 10 argument.word.toInt.natAbs :=
      shown_lld dialect heap argument
    rw [hout]
    exact ⟨textBytes_asciiText (lt_of_mem_signed argument.word),
      parse_signText_append_numeral argument.word⟩
  · intro argument format hformat out
    obtain ⟨hascii, hread⟩ : (∀ b ∈ out, b < 128) ∧
        Numeral.read 0 out =
          { value := argument.word, consumed := out.length, status := .success } := by
      rcases List.mem_pair.mp hformat with rfl | rfl
      · have hout : out = numeral 10 argument.word.toNat := shown_llu dialect heap argument
        have hdenotes := Numeral.denotes_numeral (by decide : 1 < 10) (by decide) argument.word
        rw [hout]
        exact ⟨hdenotes.lt, Numeral.read_numeral argument.word⟩
      · have hout : out = textBytes "0x" ++ numeral 16 argument.word.toNat :=
          shown_p dialect heap argument
        have hdenotes := Numeral.denotes_numeral (by decide : 1 < 16) (by decide) argument.word
        rw [hout]
        exact ⟨lt_of_mem_marked hdenotes, Numeral.read_marked hdenotes⟩
    exact ⟨textBytes_asciiText hascii, parse_asciiText hascii hread⟩
  · intro code digits hdigits
    have hcode : (code.setWidth 64).toNat = code.toNat :=
      BitVec.toNat_setWidth_of_le (by decide)
    have hdenotes : Denotes 16 digits (code.setWidth 64) := by
      rw [← hcode] at hdigits
      rcases List.mem_pair.mp hdigits with rfl | rfl
      · exact Numeral.denotes_numeral (by decide) (by decide) _
      · exact Numeral.denotes_upperNumeral _
    exact ⟨textBytes_asciiText hdenotes.lt, parse_code hdenotes⟩
  · intro c
    have hcode : (BitVec.ofNat 32 c.toNat).toNat = c.toNat := by
      rw [BitVec.toNat_ofNat]
      exact Nat.mod_eq_of_lt c.val.toNat_lt
    refine ⟨BitVec.ofNat 32 c.toNat, hcode, ?_⟩
    rw [parse_c, String.toList_singleton]
    rfl
  · intro t
    have hnull : t.toList = nullValue ↔ t = "(null)" := String.toList_inj
    rw [parse_s, readString]
    simp only [hnull]
    rw [textBytes]

end ArgumentText

end BoundedFormat
