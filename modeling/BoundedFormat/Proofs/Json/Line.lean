import BoundedFormat.Proofs.Json.Token

/-!
# Printed JSON is one line

Whatever a value holds, floats included, its text has no control characters: strings escape them,
and nothing else in it comes from outside. So a text that is cut at line ends is never cut inside a
printed value.
-/

namespace BoundedFormat.Json

theorem printable_exponentChars (i : Int) : Printable (exponentChars i) := by
  have hinteger := printable_integerChars i
  unfold exponentChars
  split
  · exact hinteger
  · simpa using hinteger

theorem printable_decimalChars {digits : List Char} (h : Printable digits) (place : Int) :
    Printable (decimalChars digits place) := by
  have hzeros : ∀ n, Printable (List.replicate n '0') := printable_replicate (by decide)
  unfold decimalChars
  simp only
  split
  · simpa using ⟨h, hzeros _⟩
  · split
    · have htake := fun c hc => h c (List.mem_of_mem_take (i := (digits.length + place).toNat) hc)
      have hdrop := fun c hc => h c (List.mem_of_mem_drop (i := (digits.length + place).toNat) hc)
      simpa using ⟨htake, hdrop⟩
    · split
      · simpa using ⟨hzeros _, h⟩
      · split
        · simpa [and_assoc, printable_exponentChars] using h
        · simpa [printable_exponentChars] using h

theorem printable_floatChars (bits : UInt64) : Printable (floatChars bits) := by
  have hsign : Printable (if Decimal.signBit bits then ['-'] else []) := by
    split <;> simp
  have hdigits : ∀ n, Printable (naturalChars n) :=
    fun n => Printable.of_digits isDigit_of_mem_naturalChars
  unfold floatChars
  simp only
  split
  · simpa using hsign
  · exact printable_append.mpr ⟨hsign, printable_decimalChars (hdigits _) _⟩

mutual

/-- The text of a value has no control characters. -/
theorem printable_chars : ∀ v : Json, Printable v.chars
  | .null | .bool true | .bool false | .array [] | .object [] => by simp [chars]
  | .number (.integer i) => printable_integerChars i
  | .number (.float bits) => printable_floatChars bits
  | .string text => printable_stringChars text
  | .array (item :: rest) => by
      simp [chars, printable_chars item, printable_itemChars rest]
  | .object ((key, value) :: rest) => by
      simp [chars, printable_stringChars key, printable_chars value, printable_memberChars rest]

theorem printable_itemChars : ∀ items : List Json, Printable (itemChars items)
  | [] => by simp [itemChars]
  | item :: rest => by simp [itemChars, printable_chars item, printable_itemChars rest]

theorem printable_memberChars : ∀ members : List (String × Json), Printable (memberChars members)
  | [] => by simp [memberChars]
  | (key, value) :: rest => by
      simp [memberChars, printable_stringChars key, printable_chars value,
        printable_memberChars rest]

end

end BoundedFormat.Json
