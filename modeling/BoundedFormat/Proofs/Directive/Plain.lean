import BoundedFormat.Proofs.Directive.Grammar
import BoundedFormat.Proofs.Numeral

/-!
# What directives of the plain dialect mean

In the plain dialect a directive whose letter is none of the bytes that its other parts are made of
is read as it is written, whatever stands behind it. The main statement gives its meaning part by
part: numbers are the values of their digits, however many, as far as they can be counted, and a
letter that names no conversion stands for itself.
-/

namespace BoundedFormat

open Numeral (value)

/-- The letters that name a conversion in the plain dialect. -/
def namedConversions : List (UInt8 × Conversion) :=
  [(ascii 'd', .signed), (ascii 'u', .unsigned), (ascii 'x', .lowerHex), (ascii 'X', .upperHex),
    (ascii 'p', .pointer), (ascii 's', .str), (ascii 'c', .char), (ascii 'C', .codepoint),
    (ascii '%', .percent)]

theorem Conversion.ofLetter_eq_lookup (letter : UInt8) :
    ofLetter letter = (namedConversions.lookup letter).getD (.literal letter) := by
  by_cases hnamed : letter ∈ namedConversions.map (·.1)
  · revert letter
    decide +kernel
  · have hnone : namedConversions.lookup letter = none := by
      rw [List.lookup_eq_none_iff]
      rintro named hmem
      rw [bne_iff_ne]
      rintro rfl
      exact hnamed (List.mem_map_of_mem hmem)
    simp only [namedConversions, List.map_cons, List.map_nil, List.mem_cons, List.not_mem_nil,
      or_false, not_or] at hnamed
    simp only [hnone, ofLetter, hnamed, if_false, Option.getD_none]

namespace DirectiveText

/-- The parts are made of digits, and the letter is neither a digit nor one of the bytes that open
or close another part. A `z` is a length modifier before an integer letter only. -/
structure Plain (t : DirectiveText) : Prop where
  position_digits : ∀ position ∈ t.position, position.2 ≠ [] ∧ ∀ b ∈ position.2, isDigit b
  width_digits : ∀ b ∈ t.field.width, isDigit b
  precision_digits : ∀ digits ∈ t.field.precision, ∀ b ∈ digits, isDigit b
  before_z : t.length = .z → t.letter ∈ textBytes "duxX"
  letter_digit : isDigit t.letter = false
  letter_free : t.letter ∉ textBytes "-.$hlz"
  no_second : t.second = none

namespace Plain

variable {t : DirectiveText}

/-- The byte behind the field belongs to no field. -/
theorem afterField_free (h : t.Plain) :
    isDigit t.afterField = false ∧ t.afterField ∉ textBytes "-.$" := by
  rw [afterField]
  cases t.length with
  | none =>
      refine ⟨h.letter_digit, ?_⟩
      intro hletter
      apply h.letter_free
      have hsubset : textBytes "-.$" ⊆ textBytes "-.$hlz" := by decide
      exact hsubset hletter
  | hh | h | l | ll | z =>
      simp only [LengthMod.text, List.headD_cons]
      decide

theorem afterField_ne (h : t.Plain) {b : UInt8} (hb : b ∈ textBytes "-.$") : t.afterField ≠ b := by
  rintro rfl
  exact h.afterField_free.2 hb

theorem letter_ne (h : t.Plain) {b : UInt8} (hb : b ∈ textBytes "-.$hlz") : t.letter ≠ b := by
  rintro rfl
  exact h.letter_free hb

theorem length_endsBefore (h : t.Plain) (next : Option UInt8) :
    t.length.EndsBefore t.letter next := by
  cases hlength : t.length with
  | none =>
      refine ⟨h.letter_ne (by decide), h.letter_ne (by decide), ?_⟩
      intro hz
      exact absurd hz (h.letter_ne (by decide))
  | h => exact h.letter_ne (by decide)
  | l => exact h.letter_ne (by decide)
  | z =>
      have hinteger : ∀ b ∈ textBytes "duxX", isIntegerLetter b := by decide +kernel
      exact hinteger t.letter (h.before_z hlength)
  | hh | ll => trivial

/-- Such a directive is read to its letter, unless the byte behind it makes another conversion of
the letter. -/
theorem endsBefore (h : t.Plain) {dialect : Dialect} {next : Option UInt8}
    (hnext : ∀ c ∈ next, ¬ (Conversion.ofLetter t.letter).ExtendedBy dialect c) :
    t.EndsBefore dialect next where
  position_digits := h.position_digits
  not_position _ _ _ := h.afterField_ne (by decide)
  field_ends :=
    { width_digits := h.width_digits
      precision_digits := h.precision_digits
      not_digit := by
        rintro b ⟨⟩
        exact h.afterField_free.1
      not_point := by
        intro _ hpoint
        exact h.afterField_ne (by decide) (Option.some.inj hpoint)
      not_minus := by
        intro _ _ _ hminus
        exact h.afterField_ne (by decide) (Option.some.inj hminus) }
  length_ends := h.length_endsBefore _
  second_extends := by simp [h.no_second]
  not_extended _ := hnext

/-- Behind the letter of such a directive a second one is read with it, if the firmware dialect has
a conversion of the two. -/
theorem endsBefore_extended (h : t.Plain) {c : UInt8}
    (hc : ((Conversion.ofLetter t.letter).extended? c).isSome) (next : Option UInt8) :
    { t with second := some c }.EndsBefore .firmware next :=
  have hends : t.EndsBefore .plain none := h.endsBefore (by simp)
  { position_digits := hends.position_digits
    not_position := hends.not_position
    field_ends := hends.field_ends
    length_ends := h.length_endsBefore _
    second_extends := by
      rintro _ ⟨⟩
      exact ⟨rfl, hc⟩
    not_extended := by rintro ⟨⟩ }

theorem toBytes_extended (h : t.Plain) (c : UInt8) :
    { t with second := some c }.toBytes = t.toBytes ++ [c] := by
  simp [toBytes, h.no_second]

/-- A conversion of two letters may stand behind all that may stand before its first. -/
theorem read?_extended (h : t.Plain) {c : UInt8} {extended : Conversion}
    (hc : (Conversion.ofLetter t.letter).extended? c = some extended) (rest : Bytes) :
    FormatSpec.read? .firmware (t.toBytes ++ c :: rest) =
      some ({ t.spec with conversion := extended }, rest) := by
  have hends : { t with second := some c }.EndsBefore .firmware rest.head? :=
    h.endsBefore_extended (by rw [hc]; rfl) _
  have hspec : { t with second := some c }.spec = { t.spec with conversion := extended } := by
    simp only [spec, Conversion.ofLetters, hc, Option.getD_some]
  have hread := hends.read?_eq
  rwa [h.toBytes_extended, hspec, List.append_assoc, List.singleton_append] at hread

end Plain

/-- **Directives are read as they are written.** A directive whose letter cannot be taken for
another part is read to its letter and no further. What is written before a position counts for
nothing; a minus sign behind it justifies to the left. Digits of a width may be missing, and fill
with zeros if they begin with one; a point without digits sets no precision. -/
theorem read?_plain_directive {t : DirectiveText} (h : t.Plain) (rest : Bytes) :
    FormatSpec.read? .plain (t.toBytes ++ rest) =
      some
        ({ position := t.position.map fun position => min (value 10 position.2) maxLength
           leftJustify := t.field.minus
           zeroFill := t.field.width.head? = some (ascii '0')
           width := min (value 10 t.field.width) maxLength
           precision := t.field.precision.bind fun digits =>
             if digits = [] then none else some (min (value 10 digits) maxLength)
           length := t.length
           conversion := (namedConversions.lookup t.letter).getD (.literal t.letter) }, rest) := by
  have hposition : t.spec.position =
      t.position.map fun position => min (value 10 position.2) maxLength := by
    apply Option.map_congr
    intro position hmem
    exact Numeral.decimalValue_eq _ (h.position_digits position hmem).2
  have hprecision : t.spec.precision = t.field.precision.bind fun digits =>
      if digits = [] then none else some (min (value 10 digits) maxLength) := by
    change precisionValue t.field.precision = _
    cases hdigits : t.field.precision with
    | none => rfl
    | some digits =>
        simp only [precisionValue, Option.bind_some, List.isEmpty_iff,
          Numeral.decimalValue_eq digits (h.precision_digits digits hdigits)]
        rfl
  have hconversion : t.spec.conversion =
      (namedConversions.lookup t.letter).getD (.literal t.letter) := by
    rw [← Conversion.ofLetter_eq_lookup]
    change Conversion.ofLetters t.letter t.second = _
    rw [h.no_second]
    rfl
  have hends : t.EndsBefore .plain rest.head? := h.endsBefore (by simp [Conversion.ExtendedBy])
  rw [hends.read?_eq, ← hposition, ← hprecision, ← hconversion]
  have hwidth : t.spec.width = min (value 10 t.field.width) maxLength :=
    Numeral.decimalValue_eq _ h.width_digits
  rw [← hwidth]
  rfl

theorem read?_plain_directive_saturated :
    let t : DirectiveText :=
      { position := some (true, textBytes "018")
        field :=
          { minus := true, width := textBytes "018446744073709551616", precision := some [] }
        length := .z
        letter := ascii 'X'
        second := none }
    t.Plain ∧ t.toBytes = textBytes "-018$-018446744073709551616.zX" ∧
    FormatSpec.read? .plain (t.toBytes ++ textBytes "X%d") =
      some
        ({ position := some 18, leftJustify := true, zeroFill := true, width := maxLength,
           precision := none, length := .z, conversion := .upperHex }, textBytes "X%d") := by
  intro t
  have h : t.Plain :=
    { position_digits := by decide +kernel
      width_digits := by decide +kernel
      precision_digits := by decide +kernel
      before_z := fun _ => by decide
      letter_digit := by decide
      letter_free := by decide
      no_second := rfl }
  refine ⟨h, by decide +kernel, ?_⟩
  rw [read?_plain_directive h]
  decide +kernel

end DirectiveText
end BoundedFormat
