import BoundedFormat.Directive.Parser
import Mathlib.Data.List.TakeWhile

/-!
# The grammar of directives

A `DirectiveText` is the text of a directive cut into its parts; `toBytes` puts the parts together
and `spec` says what they mean. The main statement is that reading is the inverse of this: a
directive is read from a text exactly when the text begins with the parts of a directive with that
meaning, each of which ends where its reader stops. Of the text behind the directive only the first
byte matters, and it matters only to the conversion.
-/

namespace BoundedFormat

open Numeral (decimalValue)

/-! ## The parts of a directive -/

/-- An optional minus sign. -/
def minusText (minus : Bool) : Bytes := if minus then [ascii '-'] else []

/-- A precision: a point with digits, or nothing. -/
def precisionText : Option Bytes → Bytes
  | none => []
  | some digits => ascii '.' :: digits

/-- What a precision means. -/
def precisionValue : Option Bytes → Option ℕ
  | none => none
  | some digits => if digits.isEmpty then none else some (decimalValue digits)

/-- The text of flags, width and precision. -/
structure FieldText where
  minus : Bool
  width : Bytes
  /-- The digits behind a point, if there is one. -/
  precision : Option Bytes

namespace FieldText

def toBytes (t : FieldText) : Bytes := minusText t.minus ++ t.width ++ precisionText t.precision

/-- What the text means. -/
def field (t : FieldText) : Field where
  leftJustify := t.minus
  zeroFill := t.width.head? = some (ascii '0')
  width := decimalValue t.width
  precision := precisionValue t.precision

/-- The parts are made of digits, and a byte `next` goes on with none of them. -/
structure EndsBefore (t : FieldText) (next : Option UInt8) : Prop where
  width_digits : ∀ b ∈ t.width, isDigit b
  precision_digits : ∀ digits ∈ t.precision, ∀ b ∈ digits, isDigit b
  not_digit : ∀ b ∈ next, isDigit b = false
  not_point : t.precision = none → next ≠ some (ascii '.')
  not_minus : t.minus = false → t.width = [] → t.precision = none → next ≠ some (ascii '-')

end FieldText

/-- The letters of a length modifier. -/
def LengthMod.text : LengthMod → Bytes
  | .none => []
  | .hh => [ascii 'h', ascii 'h']
  | .h => [ascii 'h']
  | .l => [ascii 'l']
  | .ll => [ascii 'l', ascii 'l']
  | .z => [ascii 'z']

/-- A length modifier ends before a letter, `next` being the byte behind the letter. -/
def LengthMod.EndsBefore (length : LengthMod) (letter : UInt8) (next : Option UInt8) : Prop :=
  match length with
  | .none => letter ≠ ascii 'h' ∧ letter ≠ ascii 'l' ∧
      (letter = ascii 'z' → ∀ b ∈ next, isIntegerLetter b = false)
  | .h => letter ≠ ascii 'h'
  | .l => letter ≠ ascii 'l'
  | .z => isIntegerLetter letter
  | .hh | .ll => True

/-! ## Readers and parts -/

/-- A text is read as a part and a rest exactly when it is the part and the rest, and the part ends
where the rest begins. -/
theorem readMinus_eq_iff {s rest : Bytes} {minus : Bool} :
    readMinus s = (minus, rest) ↔
      s = minusText minus ++ rest ∧ (minus = false → rest.head? ≠ some (ascii '-')) := by
  cases s with
  | nil =>
      cases minus <;> simp [readMinus, minusText]
      rintro rfl
      simp
  | cons b s =>
      rw [readMinus]
      by_cases hb : b = ascii '-'
      · subst hb
        cases minus <;> simp [minusText]
        rintro rfl
        simp
      · cases minus <;> simp [minusText, hb]
        rintro rfl
        simpa using hb

/-- A text splits after its longest run of some bytes. -/
theorem takeWhile_dropWhile_eq_iff {p : UInt8 → Bool} {s run rest : Bytes} :
    (s.takeWhile p, s.dropWhile p) = (run, rest) ↔
      s = run ++ rest ∧ (∀ b ∈ run, p b) ∧ ∀ b ∈ rest.head?, p b = false := by
  rw [Prod.mk.injEq]
  constructor
  · rintro ⟨rfl, rfl⟩
    refine ⟨List.takeWhile_append_dropWhile.symm, fun b => List.mem_takeWhile_imp, ?_⟩
    intro b hb
    have hstop := List.head?_dropWhile_not p s
    rwa [Option.mem_def.mp hb] at hstop
  · rintro ⟨rfl, hrun, hrest⟩
    rw [List.takeWhile_append_of_pos hrun, List.dropWhile_append_of_pos hrun]
    cases rest with
    | nil => simp
    | cons b rest => simp [hrest b rfl]

theorem readDigitRun_eq_iff {s digits rest : Bytes} :
    readDigitRun s = (digits, rest) ↔
      s = digits ++ rest ∧ (∀ b ∈ digits, isDigit b) ∧ ∀ b ∈ rest.head?, isDigit b = false :=
  takeWhile_dropWhile_eq_iff

theorem isDigit_point : isDigit (ascii '.') = false := by decide

theorem isDigit_minus : isDigit (ascii '-') = false := by decide

theorem isDigit_dollar : isDigit (ascii '$') = false := by decide

/-- A minus sign at the front is in front of the digits. -/
theorem head?_append_ne_minus {digits rest : Bytes} (hdigits : ∀ b ∈ digits, isDigit b)
    (hrest : digits = [] → rest.head? ≠ some (ascii '-')) :
    (digits ++ rest).head? ≠ some (ascii '-') := by
  cases digits with
  | nil => exact hrest rfl
  | cons b digits =>
      have hb := hdigits b List.mem_cons_self
      rw [List.cons_append, List.head?_cons, ne_eq, Option.some.injEq]
      rintro rfl
      rw [isDigit_minus] at hb
      cases hb

/-- The byte that a precision, with what stands behind it, begins with is no digit. -/
theorem isDigit_head_precisionText {precision : Option Bytes} {rest : Bytes}
    (h : ∀ b ∈ rest.head?, isDigit b = false) :
    ∀ b ∈ (precisionText precision ++ rest).head?, isDigit b = false := by
  cases precision with
  | none => exact h
  | some digits =>
      intro b hb
      rw [Option.mem_def, precisionText, List.cons_append, List.head?_cons, Option.some.injEq] at hb
      rw [← hb, isDigit_point]

theorem readPrecision_eq_iff {s rest : Bytes} {value : Option ℕ} :
    readPrecision s = (value, rest) ↔
      ∃ precision : Option Bytes, s = precisionText precision ++ rest ∧
        value = precisionValue precision ∧
        (∀ digits ∈ precision, (∀ b ∈ digits, isDigit b) ∧ ∀ b ∈ rest.head?, isDigit b = false) ∧
        (precision = none → rest.head? ≠ some (ascii '.')) := by
  constructor
  · intro h
    cases s with
    | nil =>
        cases h
        exact ⟨none, rfl, rfl, by simp, by simp⟩
    | cons b s =>
        rw [readPrecision] at h
        by_cases hb : b = ascii '.'
        · rw [if_pos hb] at h
          rcases hrun : readDigitRun s with ⟨digits, tail⟩
          rw [hrun] at h
          obtain ⟨rfl, hdigits, htail⟩ := readDigitRun_eq_iff.mp hrun
          cases h
          refine ⟨some digits, by rw [hb]; rfl, rfl, ?_, by simp⟩
          rintro _ ⟨⟩
          exact ⟨hdigits, htail⟩
        · rw [if_neg hb] at h
          cases h
          exact ⟨none, rfl, rfl, by simp, by simpa using hb⟩
  · rintro ⟨_ | digits, rfl, rfl, hdigits, hpoint⟩
    · cases s with
      | nil => rfl
      | cons b s =>
          have hb : b ≠ ascii '.' := by simpa using hpoint rfl
          rw [readPrecision, if_neg hb]
          rfl
    · have hrun : readDigitRun (digits ++ rest) = (digits, rest) :=
        readDigitRun_eq_iff.mpr ⟨rfl, hdigits digits rfl⟩
      rw [precisionText, List.cons_append, readPrecision, if_pos rfl, hrun]
      rfl

namespace FieldText.EndsBefore

variable {t : FieldText} {rest : Bytes}

theorem readDigitRun_eq (hends : t.EndsBefore rest.head?) :
    readDigitRun (t.width ++ (precisionText t.precision ++ rest)) =
      (t.width, precisionText t.precision ++ rest) :=
  readDigitRun_eq_iff.mpr ⟨rfl, hends.width_digits, isDigit_head_precisionText hends.not_digit⟩

theorem readMinus_eq (hends : t.EndsBefore rest.head?) :
    readMinus (t.toBytes ++ rest) =
      (t.minus, t.width ++ (precisionText t.precision ++ rest)) := by
  rw [toBytes, List.append_assoc, List.append_assoc]
  rw [readMinus_eq_iff]
  refine ⟨rfl, ?_⟩
  intro hm
  apply head?_append_ne_minus hends.width_digits
  intro hw
  rcases hp : t.precision with _ | digits
  · exact hends.not_minus hm hw hp
  · rw [precisionText, List.cons_append, List.head?_cons]
    decide

/-- Digits of a width are taken for a position exactly when a dollar sign follows them. -/
theorem readPosition?_eq_none_iff (hends : t.EndsBefore rest.head?) :
    readPosition? (t.toBytes ++ rest) = none ↔
      (t.width ≠ [] → t.precision = none → rest.head? ≠ some (ascii '$')) := by
  rw [readPosition?, hends.readMinus_eq]
  simp only [hends.readDigitRun_eq]
  rcases t.width with _ | ⟨digit, digits⟩
  · simp
  · rcases t.precision with _ | more
    · rcases rest with _ | ⟨b, rest⟩
      · simp [precisionText]
      · by_cases hb : b = ascii '$' <;> simp [precisionText, hb]
    · have hpoint : ascii '.' ≠ ascii '$' := by decide
      simp [precisionText, hpoint]

end FieldText.EndsBefore

theorem Field.read_eq_iff {s rest : Bytes} {field : Field} :
    Field.read s = (field, rest) ↔
      ∃ t : FieldText, s = t.toBytes ++ rest ∧ field = t.field ∧ t.EndsBefore rest.head? := by
  constructor
  · intro h
    rcases hminus : readMinus s with ⟨minus, s₁⟩
    rcases hwidth : readDigitRun s₁ with ⟨width, s₂⟩
    rcases hprecision : readPrecision s₂ with ⟨value, s₃⟩
    rw [Field.read, hminus] at h
    simp only [hwidth, hprecision, Prod.mk.injEq] at h
    obtain ⟨rfl, rfl⟩ := h
    obtain ⟨rfl, hnotMinus⟩ := readMinus_eq_iff.mp hminus
    obtain ⟨rfl, hdigits, hnotDigit⟩ := readDigitRun_eq_iff.mp hwidth
    obtain ⟨precision, rfl, rfl, hprecisionDigits, hnotPoint⟩ := readPrecision_eq_iff.mp hprecision
    refine ⟨{ minus, width, precision }, ?_, rfl, ?_⟩
    · simp only [FieldText.toBytes, List.append_assoc]
    · refine ⟨hdigits, fun digits hd => (hprecisionDigits digits hd).1, ?_, hnotPoint, ?_⟩
      · cases precision with
        | none => exact hnotDigit
        | some digits => exact (hprecisionDigits digits rfl).2
      · intro hm hw hp
        simp only at hm hw hp
        subst hm hw hp
        exact hnotMinus rfl
  · rintro ⟨t, rfl, rfl, hends⟩
    have hprecision : readPrecision (precisionText t.precision ++ rest) =
        (precisionValue t.precision, rest) :=
      readPrecision_eq_iff.mpr ⟨t.precision, rfl, rfl,
        fun digits hd => ⟨hends.precision_digits digits hd, hends.not_digit⟩, hends.not_point⟩
    rw [Field.read, hends.readMinus_eq]
    simp only [hends.readDigitRun_eq, hprecision]
    rfl

/-- A length modifier that ends before a letter is read as such. -/
theorem LengthMod.EndsBefore.read_eq {length : LengthMod} {letter : UInt8} {rest : Bytes}
    (hends : length.EndsBefore letter rest.head?) :
    LengthMod.read (length.text ++ letter :: rest) = (length, letter :: rest) := by
  cases length with
  | none =>
      obtain ⟨hh, hl, hz⟩ := hends
      cases rest with
      | nil => simp [text, LengthMod.read, hh, hl]
      | cons c rest =>
          have hz' : ¬ (letter = ascii 'z' ∧ isIntegerLetter c) := by
            rintro ⟨hletter, hc⟩
            rw [hz hletter c rfl] at hc
            cases hc
          simp [text, LengthMod.read, hh, hl, hz']
  | hh => rfl
  | h => simp only [text, List.singleton_append, LengthMod.read, if_true, if_neg hends]
  | l =>
      have hne : ascii 'l' ≠ ascii 'h' := by decide
      simp only [text, List.singleton_append, LengthMod.read, if_true, if_neg hends, if_neg hne]
  | ll => rfl
  | z =>
      have hne : ascii 'z' ≠ ascii 'h' ∧ ascii 'z' ≠ ascii 'l' := by decide
      simp only [text, List.singleton_append, LengthMod.read, if_neg hne.1, if_neg hne.2]
      exact if_pos ⟨trivial, hends⟩

theorem LengthMod.endsBefore_of_read_eq {s rest : Bytes} {length : LengthMod} {letter : UInt8}
    (h : LengthMod.read s = (length, letter :: rest)) :
    s = length.text ++ letter :: rest ∧ length.EndsBefore letter rest.head? := by
  rcases s with _ | ⟨b, _ | ⟨c, s⟩⟩
  · cases h
  · rw [LengthMod.read] at h
    by_cases hh : b = ascii 'h'
    · rw [if_pos hh] at h; cases h
    by_cases hl : b = ascii 'l'
    · rw [if_neg hh, if_pos hl] at h; cases h
    rw [if_neg hh, if_neg hl] at h
    cases h
    exact ⟨rfl, hh, hl, by simp⟩
  · rw [LengthMod.read] at h
    by_cases hh : b = ascii 'h'
    · rw [if_pos hh] at h
      by_cases hc : c = ascii 'h'
      · rw [if_pos hc] at h; cases h
        exact ⟨by rw [hh, hc]; rfl, trivial⟩
      · rw [if_neg hc] at h; cases h
        exact ⟨by rw [hh]; rfl, hc⟩
    by_cases hl : b = ascii 'l'
    · rw [if_neg hh, if_pos hl] at h
      by_cases hc : c = ascii 'l'
      · rw [if_pos hc] at h; cases h
        exact ⟨by rw [hl, hc]; rfl, trivial⟩
      · rw [if_neg hc] at h; cases h
        exact ⟨by rw [hl]; rfl, hc⟩
    rw [if_neg hh, if_neg hl] at h
    by_cases hz : b = ascii 'z' ∧ isIntegerLetter c
    · rw [if_pos hz] at h; cases h
      exact ⟨by rw [hz.1]; rfl, hz.2⟩
    · rw [if_neg hz] at h; cases h
      refine ⟨rfl, hh, hl, ?_⟩
      intro hb
      simpa [hb] using hz

/-- A second letter makes another conversion of a first. -/
def Conversion.ExtendedBy (dialect : Dialect) (conversion : Conversion) (second : UInt8) : Prop :=
  dialect = .firmware ∧ (conversion.extended? second).isSome

/-- The conversion of one letter or two. -/
def Conversion.ofLetters (letter : UInt8) : Option UInt8 → Conversion
  | none => ofLetter letter
  | some second => ((ofLetter letter).extended? second).getD (ofLetter letter)

theorem Conversion.read?_eq_some_iff {dialect : Dialect} {s rest : Bytes}
    {conversion : Conversion} :
    read? dialect s = some (conversion, rest) ↔
      ∃ letter second, s = letter :: (Option.toList second ++ rest) ∧
        conversion = ofLetters letter second ∧
        (∀ c ∈ second, (ofLetter letter).ExtendedBy dialect c) ∧
        (second = none → ∀ c ∈ rest.head?, ¬ (ofLetter letter).ExtendedBy dialect c) := by
  constructor
  · intro h
    rcases s with _ | ⟨b, _ | ⟨c, s⟩⟩
    · cases h
    · cases dialect <;> cases h <;> exact ⟨b, none, rfl, rfl, by simp, by simp⟩
    · cases dialect with
      | plain =>
          cases h
          exact ⟨b, none, rfl, rfl, by simp, by simp [ExtendedBy]⟩
      | firmware =>
          rw [read?] at h
          cases hextended : (ofLetter b).extended? c with
          | none =>
              simp only [hextended] at h
              cases h
              exact ⟨b, none, rfl, rfl, by simp, by simp [ExtendedBy, hextended]⟩
          | some extended =>
              simp only [hextended] at h
              cases h
              exact ⟨b, some c, rfl, by simp [ofLetters, hextended],
                by simp [ExtendedBy, hextended], by simp⟩
  · rintro ⟨letter, _ | c, rfl, rfl, hsecond, hrest⟩
    · cases dialect with
      | plain => rfl
      | firmware =>
          cases rest with
          | nil => rfl
          | cons c rest =>
              have hnone : (ofLetter letter).extended? c = none := by
                simpa [ExtendedBy] using hrest rfl c rfl
              simp [read?, hnone, ofLetters]
    · obtain ⟨rfl, hsome⟩ := hsecond c rfl
      obtain ⟨extended, hextended⟩ := Option.isSome_iff_exists.mp hsome
      simp [read?, hextended, ofLetters]

theorem Conversion.read?_eq_none_iff {dialect : Dialect} {s : Bytes} :
    read? dialect s = none ↔ s = [] := by
  rcases s with _ | ⟨b, _ | ⟨c, s⟩⟩
  · simp [read?]
  · cases dialect <;> simp [read?]
  · cases dialect with
    | plain => simp [read?]
    | firmware =>
        simp only [read?]
        split <;> simp

/-- The text of a position: digits before a dollar sign, after a minus sign of no account. -/
def positionText : Option (Bool × Bytes) → Bytes
  | none => []
  | some (minus, digits) => minusText minus ++ (digits ++ [ascii '$'])

theorem readPosition?_eq_some_iff {s rest : Bytes} {position : ℕ} :
    readPosition? s = some (position, rest) ↔
      ∃ minus digits, s = positionText (some (minus, digits)) ++ rest ∧
        position = decimalValue digits ∧ digits ≠ [] ∧ ∀ b ∈ digits, isDigit b := by
  constructor
  · intro h
    rcases hminus : readMinus s with ⟨minus, s₁⟩
    rcases hrun : readDigitRun s₁ with ⟨digits, s₂⟩
    obtain ⟨rfl, -⟩ := readMinus_eq_iff.mp hminus
    obtain ⟨rfl, hdigits, -⟩ := readDigitRun_eq_iff.mp hrun
    rw [readPosition?, hminus] at h
    simp only [hrun] at h
    rcases digits with _ | ⟨digit, digits⟩ <;> rcases s₂ with _ | ⟨b, s₂⟩
    · cases h
    · cases h
    · cases h
    · by_cases hb : b = ascii '$'
      · simp only [hb, if_true] at h
        cases h
        exact ⟨minus, digit :: digits, by simp [positionText, hb], rfl, by simp, hdigits⟩
      · simp only [hb, if_false] at h
        cases h
  · rintro ⟨minus, digits, rfl, rfl, hne, hdigits⟩
    obtain ⟨digit, more, rfl⟩ := List.exists_cons_of_ne_nil hne
    have hrun : readDigitRun (digit :: more ++ ascii '$' :: rest) =
        (digit :: more, ascii '$' :: rest) := by
      refine readDigitRun_eq_iff.mpr ⟨rfl, hdigits, ?_⟩
      rintro b ⟨⟩
      exact isDigit_dollar
    have hminus : readMinus (minusText minus ++ (digit :: more ++ ascii '$' :: rest)) =
        (minus, digit :: more ++ ascii '$' :: rest) := by
      rw [readMinus_eq_iff]
      refine ⟨rfl, ?_⟩
      intro _
      apply head?_append_ne_minus hdigits
      intro h
      cases h
    rw [positionText, List.append_assoc, List.append_assoc, List.singleton_append, readPosition?,
      hminus]
    simp only [hrun, if_true]

theorem takePosition_eq_iff {s rest : Bytes} {value : Option ℕ} :
    takePosition s = (value, rest) ↔
      ∃ position : Option (Bool × Bytes), s = positionText position ++ rest ∧
        value = position.map (fun position => decimalValue position.2) ∧
        (∀ parts ∈ position, parts.2 ≠ [] ∧ ∀ b ∈ parts.2, isDigit b) ∧
        (position = none → readPosition? rest = none) := by
  constructor
  · intro h
    rw [takePosition] at h
    cases hread : readPosition? s with
    | none =>
        simp only [hread] at h
        cases h
        exact ⟨none, rfl, rfl, by simp, fun _ => hread⟩
    | some found =>
        simp only [hread] at h
        cases h
        obtain ⟨minus, digits, rfl, hvalue, hdigits⟩ := readPosition?_eq_some_iff.mp hread
        refine ⟨some (minus, digits), rfl, by rw [hvalue]; rfl, ?_, by simp⟩
        rintro _ ⟨⟩
        exact hdigits
  · rintro ⟨_ | ⟨minus, digits⟩, rfl, rfl, hdigits, hnone⟩
    · rw [takePosition, hnone rfl]
      rfl
    · have hread : readPosition? (positionText (some (minus, digits)) ++ rest) =
          some (decimalValue digits, rest) :=
        readPosition?_eq_some_iff.mpr ⟨minus, digits, rfl, rfl, hdigits (minus, digits) rfl⟩
      rw [takePosition, hread]
      rfl

/-! ## Whole directives -/

/-- The text of a directive, part by part, from the byte after its percent sign. -/
structure DirectiveText where
  /-- The digits of a position, and whether a minus sign stands before them. -/
  position : Option (Bool × Bytes)
  field : FieldText
  length : LengthMod
  letter : UInt8
  /-- The second letter of a conversion of the firmware dialect. -/
  second : Option UInt8

namespace DirectiveText

def toBytes (t : DirectiveText) : Bytes :=
  positionText t.position ++ t.field.toBytes ++ t.length.text ++ t.letter :: t.second.toList

/-- What the text means. -/
def spec (t : DirectiveText) : FormatSpec where
  position := t.position.map fun position => decimalValue position.2
  leftJustify := t.field.field.leftJustify
  zeroFill := t.field.field.zeroFill
  width := t.field.field.width
  precision := t.field.field.precision
  length := t.length
  conversion := .ofLetters t.letter t.second

/-- The byte after the field. -/
def afterField (t : DirectiveText) : UInt8 := t.length.text.headD t.letter

/-- Each part ends where the next begins, and the last before a byte `next`. -/
structure EndsBefore (dialect : Dialect) (t : DirectiveText) (next : Option UInt8) : Prop where
  position_digits : ∀ position ∈ t.position, position.2 ≠ [] ∧ ∀ b ∈ position.2, isDigit b
  not_position : t.position = none → t.field.width ≠ [] → t.field.precision = none →
    t.afterField ≠ ascii '$'
  field_ends : t.field.EndsBefore (some t.afterField)
  length_ends : t.length.EndsBefore t.letter (t.second.or next)
  second_extends : ∀ c ∈ t.second, (Conversion.ofLetter t.letter).ExtendedBy dialect c
  not_extended : t.second = none →
    ∀ c ∈ next, ¬ (Conversion.ofLetter t.letter).ExtendedBy dialect c

theorem toBytes_append (t : DirectiveText) (rest : Bytes) :
    t.toBytes ++ rest = positionText t.position ++ (t.field.toBytes ++ (t.length.text ++
      t.letter :: (t.second.toList ++ rest))) := by
  simp [toBytes]

theorem head?_letters_append (t : DirectiveText) (rest : Bytes) :
    (t.length.text ++ t.letter :: (t.second.toList ++ rest)).head? = some t.afterField := by
  rw [afterField]
  cases t.length <;> rfl

theorem head?_second_append (second : Option UInt8) (rest : Bytes) :
    (second.toList ++ rest).head? = second.or rest.head? := by
  cases second <;> rfl

/-- A directive whose parts end where they should is read as what it means. -/
theorem EndsBefore.read?_eq {dialect : Dialect} {t : DirectiveText} {rest : Bytes}
    (hends : t.EndsBefore dialect rest.head?) :
    FormatSpec.read? dialect (t.toBytes ++ rest) = some (t.spec, rest) := by
  have hhead := t.head?_letters_append rest
  have hfieldEnds := hhead ▸ hends.field_ends
  have hnone : t.position = none → readPosition? (t.field.toBytes ++ (t.length.text ++
      t.letter :: (t.second.toList ++ rest))) = none := by
    intro hp
    rw [hfieldEnds.readPosition?_eq_none_iff, hhead]
    intro hw hprecision
    simpa using hends.not_position hp hw hprecision
  have hposition := takePosition_eq_iff.mpr ⟨t.position, rfl, rfl, hends.position_digits, hnone⟩
  have hfield := Field.read_eq_iff.mpr ⟨t.field, rfl, rfl, hfieldEnds⟩
  have hlengthEnds : t.length.EndsBefore t.letter (t.second.toList ++ rest).head? := by
    rw [head?_second_append]
    exact hends.length_ends
  have hconversion := Conversion.read?_eq_some_iff.mpr
    ⟨t.letter, t.second, rfl, rfl, hends.second_extends, hends.not_extended⟩
  rw [FormatSpec.read?, t.toBytes_append, hposition]
  simp only [hfield, hlengthEnds.read_eq, hconversion]
  rfl

end DirectiveText

/-- What is read is a directive whose parts end where they should. -/
theorem FormatSpec.exists_text_of_read? {dialect : Dialect} {s rest : Bytes} {spec : FormatSpec}
    (h : read? dialect s = some (spec, rest)) :
    ∃ t : DirectiveText, s = t.toBytes ++ rest ∧ spec = t.spec ∧
      t.EndsBefore dialect rest.head? := by
  rcases hposition : takePosition s with ⟨position, s₁⟩
  rcases hfield : Field.read s₁ with ⟨field, s₂⟩
  rcases hlength : LengthMod.read s₂ with ⟨length, s₃⟩
  rw [read?, hposition] at h
  simp only [hfield, hlength] at h
  rcases hconversion : Conversion.read? dialect s₃ with _ | ⟨conversion, tail⟩
  · simp only [hconversion] at h
    cases h
  simp only [hconversion] at h
  cases h
  obtain ⟨letter, second, rfl, rfl, hsecond, hrest⟩ := Conversion.read?_eq_some_iff.mp hconversion
  obtain ⟨rfl, hlengthEnds⟩ := LengthMod.endsBefore_of_read_eq hlength
  obtain ⟨t, rfl, rfl, hfieldEnds⟩ := Field.read_eq_iff.mp hfield
  obtain ⟨parts, rfl, rfl, hdigits, hnone⟩ := takePosition_eq_iff.mp hposition
  let d : DirectiveText := { position := parts, field := t, length, letter, second }
  have hhead := d.head?_letters_append rest
  refine ⟨d, (d.toBytes_append rest).symm, rfl, hdigits, ?_, ?_, ?_, hsecond, hrest⟩
  · intro hp hw hprecision
    have hdollar := hfieldEnds.readPosition?_eq_none_iff.mp (hnone hp) hw hprecision
    rwa [hhead, ne_eq, Option.some.injEq] at hdollar
  · rwa [hhead] at hfieldEnds
  · rwa [DirectiveText.head?_second_append] at hlengthEnds

/-- **Reading inverts the grammar.** A directive is read from the front of a text exactly when the
text begins with the parts of a directive that means it, each of them ending where it does. -/
theorem FormatSpec.read?_eq_some_iff {dialect : Dialect} {s rest : Bytes} {spec : FormatSpec} :
    read? dialect s = some (spec, rest) ↔
      ∃ t : DirectiveText, s = t.toBytes ++ rest ∧ spec = t.spec ∧
        t.EndsBefore dialect rest.head? := by
  constructor
  · exact exists_text_of_read?
  · rintro ⟨t, rfl, rfl, hends⟩
    exact hends.read?_eq

end BoundedFormat
