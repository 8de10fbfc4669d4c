import BoundedFormat.Proofs.Directive.Iteration
import BoundedFormat.Proofs.Numeral
import Mathlib.Computability.RegularExpressions

/-!
# Directives that the end of a format cuts short

A directive cannot be read when its text ends before the conversion, and then all of the text is
made of the other parts. `Pattern.unfinished` is the regular expression for such texts. The main
statement is that the texts without a directive are those that match it, in both dialects, and that
a format holds such a piece exactly if a walk through it comes to a percent sign with such a text
behind. The piece goes to the output as it stands.
-/

namespace BoundedFormat

/-! ## The pattern -/

namespace Pattern

open RegularExpression (char star)

/-- One byte of several. -/
def oneOf (bytes : Bytes) : RegularExpression UInt8 := (bytes.map char).sum

/-- A text as it stands. -/
def exactly (text : String) : RegularExpression UInt8 := ((textBytes text).map char).prod

/-- What may be missing. -/
def optional (e : RegularExpression UInt8) : RegularExpression UInt8 := 1 + e

/-- A minus sign that may be missing. -/
def minus : RegularExpression UInt8 := optional (exactly "-")

def digit : RegularExpression UInt8 := oneOf (textBytes "0123456789")

/-- A position: `(-?[0-9]+\$)?`. -/
def position : RegularExpression UInt8 := optional (minus * (digit * star digit) * exactly "$")

/-- A precision: `(\.[0-9]*)?`. -/
def precision : RegularExpression UInt8 := optional (exactly "." * star digit)

/-- A length modifier that needs no letter behind it: `(h|hh|l|ll)?`. -/
def length : RegularExpression UInt8 :=
  optional (exactly "h" + exactly "hh" + exactly "l" + exactly "ll")

/-- A directive without its conversion: `(-?[0-9]+\$)?-?[0-9]*(\.[0-9]*)?(h|hh|l|ll)?`. -/
def unfinished : RegularExpression UInt8 := position * minus * star digit * precision * length

variable {s : Bytes}

theorem mem_oneOf {bytes : Bytes} : s ∈ (oneOf bytes).matches' ↔ ∃ b ∈ bytes, s = [b] := by
  induction bytes with
  | nil => simp [oneOf]
  | cons b bytes ih =>
      have hcons : oneOf (b :: bytes) = char b + oneOf bytes := List.sum_cons
      rw [hcons, RegularExpression.matches'_add, Language.mem_add, ih, List.exists_mem_cons_iff]
      rfl

theorem mem_exactly {text : String} : s ∈ (exactly text).matches' ↔ s = textBytes text := by
  rw [exactly]
  induction textBytes text generalizing s with
  | nil => exact Language.mem_one s
  | cons b bytes ih =>
      rw [List.map_cons, List.prod_cons, RegularExpression.matches'_mul, Language.mem_mul]
      constructor
      · rintro ⟨_, rfl, more, hmore, rfl⟩
        rw [ih.mp hmore]
        rfl
      · rintro rfl
        exact ⟨[b], rfl, bytes, ih.mpr rfl, rfl⟩

theorem mem_optional {e : RegularExpression UInt8} :
    s ∈ (optional e).matches' ↔ s = [] ∨ s ∈ e.matches' := by
  rw [optional, RegularExpression.matches'_add, Language.mem_add]
  exact or_congr_left (Language.mem_one s)

theorem mem_digit : s ∈ digit.matches' ↔ ∃ b, isDigit b ∧ s = [b] := by
  have hdigits : ∀ b, b ∈ textBytes "0123456789" ↔ isDigit b := by
    apply Numeral.forall_byte
    decide +kernel
  rw [digit, mem_oneOf]
  simp only [hdigits]

theorem mem_digits : s ∈ (star digit).matches' ↔ ∀ b ∈ s, isDigit b := by
  rw [RegularExpression.matches'_star, Language.mem_kstar]
  constructor
  · rintro ⟨parts, rfl, hparts⟩ b hb
    obtain ⟨part, hpart, hb⟩ := List.mem_flatten.mp hb
    obtain ⟨c, hc, rfl⟩ := mem_digit.mp (hparts part hpart)
    rwa [List.mem_singleton.mp hb]
  · intro h
    refine ⟨s.map ([·]), ?_, ?_⟩
    · rw [← List.flatMap_def, List.flatMap_singleton']
    · intro part hpart
      obtain ⟨b, hb, rfl⟩ := List.mem_map.mp hpart
      exact mem_digit.mpr ⟨b, h b hb, rfl⟩

theorem mem_mul {e f : RegularExpression UInt8} :
    s ∈ (e * f).matches' ↔ ∃ t u, s = t ++ u ∧ t ∈ e.matches' ∧ u ∈ f.matches' := by
  rw [RegularExpression.matches'_mul, Language.mem_mul]
  constructor
  · rintro ⟨t, ht, u, hu, rfl⟩
    exact ⟨t, u, rfl, ht, hu⟩
  · rintro ⟨t, u, rfl, ht, hu⟩
    exact ⟨t, ht, u, hu, rfl⟩

/-! ### The parts of the pattern are the parts of a directive -/

theorem mem_minus : s ∈ minus.matches' ↔ ∃ sign, s = minusText sign := by
  have hminus : textBytes "-" = [ascii '-'] := by decide
  rw [minus, mem_optional, mem_exactly, hminus, Bool.exists_bool]
  rfl

theorem mem_position :
    s ∈ position.matches' ↔
      ∃ parts : Option (Bool × Bytes), s = positionText parts ∧
        ∀ part ∈ parts, part.2 ≠ [] ∧ ∀ b ∈ part.2, isDigit b := by
  have hdollar : textBytes "$" = [ascii '$'] := by decide
  rw [position, mem_optional]
  constructor
  · rintro (rfl | h)
    · exact ⟨none, rfl, by simp⟩
    · obtain ⟨_, _, rfl, h, hend⟩ := mem_mul.mp h
      obtain ⟨_, _, rfl, hsign, h⟩ := mem_mul.mp h
      obtain ⟨_, more, rfl, hone, hmore⟩ := mem_mul.mp h
      obtain ⟨sign, rfl⟩ := mem_minus.mp hsign
      obtain ⟨first, hfirst, rfl⟩ := mem_digit.mp hone
      refine ⟨some (sign, first :: more), ?_, ?_⟩
      · rw [mem_exactly.mp hend, hdollar, positionText, List.append_assoc]
        rfl
      · rintro _ ⟨⟩
        exact ⟨List.cons_ne_nil _ _, List.forall_mem_cons.mpr ⟨hfirst, mem_digits.mp hmore⟩⟩
  · rintro ⟨_ | ⟨sign, digits⟩, rfl, hdigits⟩
    · exact .inl rfl
    · obtain ⟨hne, hdigits⟩ := hdigits (sign, digits) rfl
      obtain ⟨first, more, rfl⟩ := List.exists_cons_of_ne_nil hne
      obtain ⟨hfirst, hmore⟩ := List.forall_mem_cons.mp hdigits
      refine .inr (mem_mul.mpr ⟨minusText sign ++ first :: more, [ascii '$'], ?_, ?_, ?_⟩)
      · rw [positionText, List.append_assoc]
      · exact mem_mul.mpr ⟨_, _, rfl, mem_minus.mpr ⟨sign, rfl⟩,
          mem_mul.mpr ⟨[first], more, rfl, mem_digit.mpr ⟨first, hfirst, rfl⟩,
            mem_digits.mpr hmore⟩⟩
      · rw [mem_exactly, hdollar]

theorem mem_precision :
    s ∈ precision.matches' ↔
      ∃ part : Option Bytes, s = precisionText part ∧ ∀ digits ∈ part, ∀ b ∈ digits, isDigit b := by
  have hpoint : textBytes "." = [ascii '.'] := by decide
  rw [precision, mem_optional, mem_mul]
  constructor
  · rintro (rfl | ⟨_, digits, rfl, hstart, hdigits⟩)
    · exact ⟨none, rfl, by simp⟩
    · refine ⟨some digits, ?_, ?_⟩
      · rw [mem_exactly.mp hstart, hpoint]
        rfl
      · rintro _ ⟨⟩
        exact mem_digits.mp hdigits
  · rintro ⟨_ | digits, rfl, hdigits⟩
    · exact .inl rfl
    · refine .inr ⟨[ascii '.'], digits, rfl, ?_, mem_digits.mpr (hdigits digits rfl)⟩
      rw [mem_exactly, hpoint]

theorem mem_length : s ∈ length.matches' ↔ ∃ part : LengthMod, s = part.text ∧ part ≠ .z := by
  have htexts : textBytes "h" = LengthMod.h.text ∧ textBytes "hh" = LengthMod.hh.text ∧
      textBytes "l" = LengthMod.l.text ∧ textBytes "ll" = LengthMod.ll.text := by decide
  rw [length, mem_optional]
  simp only [RegularExpression.matches'_add, Language.mem_add, mem_exactly, htexts]
  constructor
  · rintro (rfl | ((rfl | rfl) | rfl) | rfl)
    · exact ⟨.none, rfl, by decide⟩
    · exact ⟨.h, rfl, by decide⟩
    · exact ⟨.hh, rfl, by decide⟩
    · exact ⟨.l, rfl, by decide⟩
    · exact ⟨.ll, rfl, by decide⟩
  · rintro ⟨part, rfl, hz⟩
    cases part with
    | none => exact .inl rfl
    | z => exact absurd rfl hz
    | hh | h | l | ll => simp

end Pattern

/-! ## Directives without a conversion -/

/-- A text is used up by a length modifier if it is one, and a `z` is none without a letter. -/
theorem LengthMod.read_eq_nil_iff {s : Bytes} {length : LengthMod} :
    LengthMod.read s = (length, []) ↔ s = length.text ∧ length ≠ .z := by
  constructor
  · intro h
    rcases s with _ | ⟨b, _ | ⟨c, rest⟩⟩
    · cases h
      exact ⟨rfl, by decide⟩
    · rw [LengthMod.read] at h
      split_ifs at h with hh hl
      · cases h
        exact ⟨by rw [hh]; rfl, by decide⟩
      · cases h
        exact ⟨by rw [hl]; rfl, by decide⟩
      · cases h
    · rw [LengthMod.read] at h
      split_ifs at h with hh hhh hl hll hz
      · cases h
        exact ⟨by rw [hh, hhh]; rfl, by decide⟩
      · cases h
      · cases h
        exact ⟨by rw [hl, hll]; rfl, by decide⟩
      · cases h
      · cases h
      · cases h
  · rintro ⟨rfl, hz⟩
    cases length with
    | z => exact absurd rfl hz
    | none | hh | h | l | ll => rfl

/-- The text of a directive without its conversion. -/
structure UnfinishedText where
  position : Option (Bool × Bytes)
  field : FieldText
  length : LengthMod

namespace UnfinishedText

def toBytes (t : UnfinishedText) : Bytes :=
  positionText t.position ++ (t.field.toBytes ++ t.length.text)

/-- The parts are made of digits, and the length modifier needs no letter behind it. -/
structure WellFormed (t : UnfinishedText) : Prop where
  position_digits : ∀ part ∈ t.position, part.2 ≠ [] ∧ ∀ b ∈ part.2, isDigit b
  width_digits : ∀ b ∈ t.field.width, isDigit b
  precision_digits : ∀ digits ∈ t.field.precision, ∀ b ∈ digits, isDigit b
  length_ne_z : t.length ≠ .z

variable {t : UnfinishedText} {s : Bytes}

theorem mem_unfinished :
    s ∈ Pattern.unfinished.matches' ↔ ∃ t : UnfinishedText, s = t.toBytes ∧ t.WellFormed := by
  rw [Pattern.unfinished]
  constructor
  · intro h
    obtain ⟨_, _, rfl, h, hlength⟩ := Pattern.mem_mul.mp h
    obtain ⟨_, _, rfl, h, hprecision⟩ := Pattern.mem_mul.mp h
    obtain ⟨_, width, rfl, h, hwidth⟩ := Pattern.mem_mul.mp h
    obtain ⟨_, _, rfl, hposition, hminus⟩ := Pattern.mem_mul.mp h
    obtain ⟨position, rfl, hnumber⟩ := Pattern.mem_position.mp hposition
    obtain ⟨minus, rfl⟩ := Pattern.mem_minus.mp hminus
    obtain ⟨precision, rfl, hpart⟩ := Pattern.mem_precision.mp hprecision
    obtain ⟨length, rfl, hz⟩ := Pattern.mem_length.mp hlength
    refine ⟨{ position, field := { minus, width, precision }, length }, ?_, hnumber,
      Pattern.mem_digits.mp hwidth, hpart, hz⟩
    simp only [toBytes, FieldText.toBytes, List.append_assoc]
  · rintro ⟨t, rfl, h⟩
    have hposition := Pattern.mem_position.mpr ⟨t.position, rfl, h.position_digits⟩
    have hminus := Pattern.mem_minus.mpr ⟨t.field.minus, rfl⟩
    have hwidth := Pattern.mem_digits.mpr h.width_digits
    have hprecision := Pattern.mem_precision.mpr ⟨t.field.precision, rfl, h.precision_digits⟩
    have hlength := Pattern.mem_length.mpr ⟨t.length, rfl, h.length_ne_z⟩
    refine Pattern.mem_mul.mpr ⟨_, _, ?_, Pattern.mem_mul.mpr ⟨_, _, rfl, Pattern.mem_mul.mpr
      ⟨_, _, rfl, Pattern.mem_mul.mpr ⟨_, _, rfl, hposition, hminus⟩, hwidth⟩, hprecision⟩,
      hlength⟩
    simp only [toBytes, FieldText.toBytes, List.append_assoc]

/-- Nothing goes on with the field of such a text. -/
theorem WellFormed.endsBefore (h : t.WellFormed) : t.field.EndsBefore t.length.text.head? := by
  have hfree : ∀ b ∈ t.length.text.head?, isDigit b = false ∧ b ∉ textBytes ".-" := by
    cases t.length <;> decide +kernel
  refine ⟨h.width_digits, h.precision_digits, fun b hb => (hfree b hb).1, ?_, ?_⟩
  · intro _ hpoint
    exact (hfree _ hpoint).2 (by decide)
  · intro _ _ _ hminus
    exact (hfree _ hminus).2 (by decide)

/-- Such a text ends before a conversion is read. -/
theorem WellFormed.read?_eq_none (h : t.WellFormed) (dialect : Dialect) :
    FormatSpec.read? dialect t.toBytes = none := by
  have hends := h.endsBefore
  have hnone : readPosition? (t.field.toBytes ++ t.length.text) = none := by
    rw [hends.readPosition?_eq_none_iff]
    intro _ _
    cases t.length <;> decide
  have hposition := takePosition_eq_iff.mpr
    ⟨t.position, rfl, rfl, h.position_digits, fun _ => hnone⟩
  have hfield := Field.read_eq_iff.mpr ⟨t.field, rfl, rfl, hends⟩
  have hlength := LengthMod.read_eq_nil_iff.mpr ⟨rfl, h.length_ne_z⟩
  rw [FormatSpec.read?, toBytes, hposition]
  simp only [hfield, hlength]
  rfl

/-- Where no directive can be read, everything but a conversion is there at most. -/
theorem exists_of_read?_eq_none {dialect : Dialect} (h : FormatSpec.read? dialect s = none) :
    ∃ t : UnfinishedText, s = t.toBytes ∧ t.WellFormed := by
  rcases hposition : takePosition s with ⟨position, s₁⟩
  rcases hfield : Field.read s₁ with ⟨field, s₂⟩
  rcases hlength : LengthMod.read s₂ with ⟨length, s₃⟩
  rw [FormatSpec.read?, hposition] at h
  simp only [hfield, hlength] at h
  rcases hconversion : Conversion.read? dialect s₃ with _ | ⟨conversion, tail⟩
  · obtain rfl := Conversion.read?_eq_none_iff.mp hconversion
    obtain ⟨rfl, hz⟩ := LengthMod.read_eq_nil_iff.mp hlength
    obtain ⟨t, rfl, -, hends⟩ := Field.read_eq_iff.mp hfield
    obtain ⟨parts, rfl, -, hdigits, -⟩ := takePosition_eq_iff.mp hposition
    exact ⟨{ position := parts, field := t, length }, rfl, hdigits, hends.width_digits,
      hends.precision_digits, hz⟩
  · simp only [hconversion] at h
    cases h

end UnfinishedText

namespace FormatSpec

variable {dialect : Dialect} {s : Bytes}

theorem read?_eq_none_iff_mem : read? dialect s = none ↔ s ∈ Pattern.unfinished.matches' := by
  rw [UnfinishedText.mem_unfinished]
  constructor
  · exact UnfinishedText.exists_of_read?_eq_none
  · rintro ⟨t, rfl, h⟩
    exact h.read?_eq_none dialect

/-- A directive takes at least one byte of its text, and leaves the rest as it is. -/
theorem exists_drop_of_read? {spec : FormatSpec} {rest : Bytes}
    (h : read? dialect s = some (spec, rest)) : ∃ n, 1 ≤ n ∧ n ≤ s.length ∧ rest = s.drop n := by
  obtain ⟨t, rfl, -, -⟩ := exists_text_of_read? h
  have hpos : 1 ≤ t.toBytes.length := by
    rw [DirectiveText.toBytes, List.length_append, List.length_cons]
    omega
  refine ⟨t.toBytes.length, hpos, ?_, List.drop_left.symm⟩
  rw [List.length_append]
  exact Nat.le_add_right ..

end FormatSpec

/-! ## Formats -/

namespace Walk

variable {dialect : Dialect} {w behind : Walk} {raw : Bytes}

/-- A walk gives out such a piece at a percent sign with such a text behind, and nothing after. -/
theorem next?_eq_incomplete_iff :
    w.next? dialect = some (.incomplete raw, behind) ↔
      w.text[w.place]? = some (ascii '%') ∧
        FormatSpec.read? dialect (w.text.drop (w.place + 1)) = none ∧
        raw = w.text.drop w.place ∧ behind = { w with place := w.text.length } := by
  have hwhole : w.upTo w.text.length = w.text.drop w.place := by
    rw [upTo, ← List.length_drop, List.take_length]
  rw [next?]
  cases hb : w.text[w.place]? with
  | none => simp
  | some b =>
      simp only [Option.some.injEq]
      by_cases hpercent : b = ascii '%'
      · rw [if_pos hpercent]
        cases FormatSpec.read? dialect (w.text.drop (w.place + 1)) with
        | none => simp [hpercent, hwhole, eq_comm]
        | some found => simp
      · rw [if_neg hpercent]
        simp [hpercent]

end Walk

/-- A directive that is cut short goes to the output as it stands. -/
theorem toBytes_render_incomplete {dialect : Dialect} {format raw : Bytes} {whole : List Piece}
    (h : pieces dialect format = whole ++ [.incomplete raw]) (list : ArgumentList) :
    (render dialect format list).toBytes = (renderPieces list 0 whole).toBytes ++ raw := by
  have hlast (ordinal : ℕ) (shows : ℕ → FormatSpec → Bytes) :
      spell shows ordinal [.incomplete raw] = raw := by
    rw [spell_cons_none rfl]
    exact List.append_nil _
  rw [toBytes_render, h, spell_append, hlast, toBytes_renderPieces]

/-- **Exactly the unfinished directives cannot be read.** In both dialects there is no directive in
a text exactly if all of the text matches `(-?[0-9]+\$)?-?[0-9]*(\.[0-9]*)?(h|hh|l|ll)?`; otherwise
a directive takes at least one byte, and none but the text's. So a format holds a directive that is
cut short exactly if a walk comes to a percent sign behind which, up to the end of the format or its
NUL, there is such a text. It is the last piece, and goes to the output as it stands. -/
theorem read?_eq_none_iff_unfinished (dialect : Dialect) :
    (∀ s, FormatSpec.read? dialect s = none ↔ s ∈ Pattern.unfinished.matches') ∧
    (∀ s spec rest, FormatSpec.read? dialect s = some (spec, rest) →
      ∃ n, 1 ≤ n ∧ n ≤ s.length ∧ rest = s.drop n) ∧
    ∀ format raw,
      (.incomplete raw ∈ pieces dialect format ↔
        ∃ before place,
          let text := untilNul format
          (Walk.start format).Produces dialect before { text, place } ∧
          text[place]? = some (ascii '%') ∧
          text.drop (place + 1) ∈ Pattern.unfinished.matches' ∧ raw = text.drop place) ∧
      (.incomplete raw ∈ pieces dialect format →
        ∃ whole, pieces dialect format = whole ++ [.incomplete raw] ∧
          ∀ list, (render dialect format list).toBytes =
            (renderPieces list 0 whole).toBytes ++ raw) := by
  refine ⟨fun s => FormatSpec.read?_eq_none_iff_mem, fun s spec rest =>
    FormatSpec.exists_drop_of_read?, ?_⟩
  intro format raw
  obtain ⟨hall, hend⟩ := Walk.produces_pieces dialect format
  refine ⟨?_, ?_⟩
  · rw [hall.mem_iff hend]
    constructor
    · rintro ⟨before, ⟨text, place⟩, behind, hbefore, hnext⟩
      obtain rfl : text = untilNul format := hbefore.place_eq.1
      obtain ⟨hpercent, hread, hraw, -⟩ := Walk.next?_eq_incomplete_iff.mp hnext
      exact ⟨before, place, hbefore, hpercent, FormatSpec.read?_eq_none_iff_mem.mp hread, hraw⟩
    · rintro ⟨before, place, hbefore, hpercent, hunfinished, hraw⟩
      exact ⟨before, _, _, hbefore, Walk.next?_eq_incomplete_iff.mpr
        ⟨hpercent, FormatSpec.read?_eq_none_iff_mem.mpr hunfinished, hraw, rfl⟩⟩
  · intro hmem
    obtain ⟨whole, after, hcut⟩ := List.append_of_mem hmem
    have hsplits := splits_splitPieces dialect (untilNul format)
    have hcut' : splitPieces dialect (untilNul format) = whole ++ .incomplete raw :: after := hcut
    rw [hcut'] at hsplits
    obtain ⟨rfl, -⟩ := hsplits.standsBetween
    exact ⟨whole, hcut, toBytes_render_incomplete hcut⟩

theorem read?_eq_none_iff_unfinished_positioned :
    let cut := textBytes "-1$-08.7ll"
    let format := textBytes "%5$5$|%z%" ++ cut ++ 0 :: textBytes "d"
    cut ∈ Pattern.unfinished.matches' ∧ textBytes "5$5$" ∉ Pattern.unfinished.matches' ∧
    FormatSpec.read? .plain cut = none ∧
    .incomplete (ascii '%' :: cut) ∈ pieces .plain format ∧
    ∃ whole, pieces .plain format = whole ++ [.incomplete (ascii '%' :: cut)] ∧
      ∀ list, (render .plain format list).toBytes =
        (renderPieces list 0 whole).toBytes ++ ascii '%' :: cut := by
  intro cut format
  obtain ⟨hread, -, hformat⟩ := read?_eq_none_iff_unfinished .plain
  have hcut : FormatSpec.read? .plain cut = none := by decide +kernel
  have hwhole : FormatSpec.read? .plain (textBytes "5$5$") ≠ none := by decide +kernel
  have hmem : .incomplete (ascii '%' :: cut) ∈ pieces .plain format := by decide +kernel
  exact ⟨(hread cut).mp hcut, (hread _).not.mp hwhole, hcut, hmem, (hformat format _).2 hmem⟩

end BoundedFormat
