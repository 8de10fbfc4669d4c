import BoundedFormat.Proofs.Dialects

/-!
# How far a directive is read

`FormatSpec.consume?` reads a directive and counts the bytes that it takes up. The main statement is
that these bytes are the directive, whatever stands behind them, with a short list of exceptions: a
bare `z` goes on with an integer letter, and in the firmware dialect `u` goes on with `r` and `p`
with `G`. The exceptions are exactly the bytes that a directive runs into.
-/

namespace BoundedFormat

/-- Reads a directive off the front of a text, and counts the bytes that it takes up. -/
def FormatSpec.consume? (dialect : Dialect) (s : Bytes) : Option (FormatSpec × ℕ) :=
  (read? dialect s).map fun (spec, rest) => (spec, s.length - rest.length)

variable {dialect : Dialect}

/-- The bytes that are taken up are those of a directive whose parts end where they should. -/
theorem FormatSpec.consume?_eq_some_iff {s : Bytes} {spec : FormatSpec} {n : ℕ} :
    consume? dialect s = some (spec, n) ↔
      ∃ (t : DirectiveText) (rest : Bytes), s = t.toBytes ++ rest ∧ spec = t.spec ∧
        n = t.toBytes.length ∧ t.EndsBefore dialect rest.head? := by
  rw [consume?, Option.map_eq_some_iff]
  constructor
  · rintro ⟨⟨found, rest⟩, hread, heq⟩
    cases heq
    obtain ⟨t, rfl, rfl, hends⟩ := exists_text_of_read? hread
    exact ⟨t, rest, rfl, rfl, by rw [List.length_append, Nat.add_sub_cancel], hends⟩
  · rintro ⟨t, rest, rfl, rfl, rfl, hends⟩
    refine ⟨(t.spec, rest), hends.read?_eq, ?_⟩
    simp only [List.length_append, Nat.add_sub_cancel]

/-! ## What a directive that is over does not run into -/

theorem Conversion.second?_inPlain (conversion : Conversion) : conversion.inPlain.second? = none := by
  cases conversion <;> rfl

theorem Conversion.eq_of_ofLetter_eq_literal {letter b : UInt8} (h : ofLetter letter = .literal b) :
    letter = b := by
  simp only [ofLetter] at h
  repeat' split at h
  all_goals cases h
  rfl

namespace DirectiveText.EndsBefore

variable {t : DirectiveText} {next : Option UInt8}

/-- A conversion of one letter has no second. -/
theorem second_eq_none (h : t.EndsBefore dialect next) (hone : t.spec.conversion.second? = none) :
    t.second = none := by
  cases dialect with
  | plain =>
      cases hsecond : t.second with
      | none => rfl
      | some c => cases (h.second_extends c hsecond).1
  | firmware => exact h.second?_eq.1.symm.trans hone

theorem not_runsInto (h : t.EndsBefore dialect next) :
    ∀ b ∈ next, ¬ t.spec.RunsInto dialect b := by
  rintro b hb (⟨hlength, hconversion, hinteger⟩ | ⟨hdialect, hextended⟩)
  · have hsecond : t.second = none := h.second_eq_none (by rw [hconversion]; rfl)
    have hletter : t.letter = ascii 'z' := by
      apply Conversion.eq_of_ofLetter_eq_literal
      rw [← hconversion, spec, hsecond]
      rfl
    have hends := h.length_ends
    rw [hsecond, Option.none_or, show t.length = .none from hlength] at hends
    rw [hends.2.2 hletter b hb] at hinteger
    cases hinteger
  · obtain ⟨extended, hread⟩ := Option.isSome_iff_exists.mp hextended
    have hsecond : t.second = none := by
      apply h.second_eq_none
      rw [← (Conversion.extended?_eq_some_iff.mp hread).1, Conversion.second?_inPlain]
    apply h.not_extended hsecond b hb
    rw [spec, hsecond] at hextended
    exact ⟨hdialect, hextended⟩

end DirectiveText.EndsBefore

/-- Of the bytes behind a directive the first alone can make another directive of it. -/
theorem FormatSpec.consume?_take_append_iff {s : Bytes} {spec : FormatSpec} {n : ℕ}
    (h : consume? dialect s = some (spec, n)) (t : Bytes) :
    consume? dialect (s.take n ++ t) = some (spec, n) ↔
      ∀ b ∈ t.head?, ¬ spec.RunsInto dialect b := by
  obtain ⟨d, rest, rfl, rfl, rfl, hends⟩ := consume?_eq_some_iff.mp h
  rw [List.take_left, consume?_eq_some_iff]
  constructor
  · rintro ⟨d', rest', htext, hspec, hlength, hends'⟩
    obtain ⟨-, rfl⟩ := List.append_inj htext hlength
    rw [hspec]
    exact hends'.not_runsInto
  · intro hseam
    exact ⟨d, t, rfl, rfl, rfl, hends.of_not_runsInto hseam⟩

theorem isIntegerLetter_iff (b : UInt8) : isIntegerLetter b ↔ b ∈ textBytes "duxX" := by
  have hletters : textBytes "duxX" = [ascii 'd', ascii 'u', ascii 'x', ascii 'X'] := by decide
  simp [isIntegerLetter, hletters, or_assoc]

theorem Conversion.extendedBy_iff (conversion : Conversion) (b : UInt8) :
    conversion.ExtendedBy dialect b ↔
      dialect = .firmware ∧
        (conversion = .unsigned ∧ b = ascii 'r' ∨ conversion = .pointer ∧ b = ascii 'G') := by
  cases conversion <;> simp [ExtendedBy, extended?]

/-- **A directive is read locally.** The bytes that a directive takes up are read as the same
directive, and as far, whatever text is put behind them, except when the directive is a bare `z` and
the text begins with an integer letter. In the firmware dialect it must not be a `u` before an `r`
or a `p` before a `G` either. In all these cases what is read is not the same. -/
theorem FormatSpec.consume?_local {s : Bytes} {spec : FormatSpec} {n : ℕ}
    (h : consume? dialect s = some (spec, n)) (t : Bytes) :
    consume? dialect (s.take n ++ t) = some (spec, n) ↔
      ¬ (spec.length = .none ∧ spec.conversion = .literal (ascii 'z') ∧
        ∃ b ∈ t.head?, b ∈ textBytes "duxX") ∧
      (dialect = .firmware →
        ¬ (spec.conversion = .unsigned ∧ t.head? = some (ascii 'r')) ∧
        ¬ (spec.conversion = .pointer ∧ t.head? = some (ascii 'G'))) := by
  rw [consume?_take_append_iff h]
  simp only [RunsInto, isIntegerLetter_iff, Conversion.extendedBy_iff]
  cases t.head? with
  | none => simp
  | some b => simp

theorem FormatSpec.consume?_local_seams :
    let s := textBytes "2$-07.3z|"
    let z : FormatSpec := ⟨some 2, true, true, 7, some 3, .none, .literal (ascii 'z')⟩
    let u : FormatSpec := ⟨none, false, false, 0, none, .h, .unsigned⟩
    consume? .plain s = some (z, 8) ∧
    consume? .plain (s.take 8 ++ textBytes "$%") = some (z, 8) ∧
    consume? .plain (s.take 8 ++ textBytes "X%") ≠ some (z, 8) ∧
    consume? .firmware (textBytes "hu") = some (u, 2) ∧
    consume? .firmware ((textBytes "hu").take 2 ++ textBytes "R") = some (u, 2) ∧
    consume? .firmware ((textBytes "hu").take 2 ++ textBytes "r") ≠ some (u, 2) := by
  intro s z u
  have hz : consume? .plain s = some (z, 8) := by decide +kernel
  have hu : consume? .firmware (textBytes "hu") = some (u, 2) := by decide +kernel
  refine ⟨hz, ?_, ?_, hu, ?_, ?_⟩
  · exact (consume?_local hz (textBytes "$%")).mpr (by decide +kernel)
  · exact mt (consume?_local hz (textBytes "X%")).mp (by decide +kernel)
  · exact (consume?_local hu (textBytes "R")).mpr (by decide +kernel)
  · exact mt (consume?_local hu (textBytes "r")).mp (by decide +kernel)

end BoundedFormat
