import BoundedFormat.Calendar
import Mathlib.Algebra.GroupWithZero.Nat
import Mathlib.Data.List.Basic
import Mathlib.Data.List.Forall2
import Mathlib.Data.Nat.Init

/-!
# Numbers in fields of a fixed width

A number with zeros in front is read back from its digits, and two such numbers of one width are in
the same order as their texts. A layout is a row of fields with a mark behind each of them. A text
that fills it with numbers that fit has one length for all of them, is read back field by field,
and comes before another exactly when its numbers do.
-/

namespace BoundedFormat.Calendar

/-! ## One number -/

theorem isDigit_of_mem_padded {width n : ℕ} {c : Char} (h : c ∈ padded width n) : c.isDigit := by
  rw [padded, List.leftpad, List.mem_append] at h
  rcases h with h | h
  · rw [List.eq_of_mem_replicate h]
    rfl
  · exact Nat.isDigit_of_mem_toDigits (by decide) (by decide) h

/-- A padded number is read back: the zeros in front of it count for nothing. -/
theorem ofDigitChars_padded (width n : ℕ) : Nat.ofDigitChars 10 (padded width n) 0 = n := by
  rw [padded, List.leftpad, Nat.ofDigitChars_append, Nat.ofDigitChars_replicate_zero]
  exact Nat.ofDigitChars_ten_toDigits

theorem length_padded {width n : ℕ} (hwidth : 0 < width) (h : n < 10 ^ width) :
    (padded width n).length = width := by
  rw [padded, List.length_leftpad]
  exact Nat.max_eq_left ((Nat.length_toDigits_le_iff (by decide) hwidth).mpr h)

/-- The last digit of a padded number stands behind the others. -/
theorem padded_succ {width : ℕ} (hwidth : 0 < width) (n : ℕ) :
    padded (width + 1) n = padded width (n / 10) ++ [(n % 10).digitChar] := by
  by_cases h : n < 10
  · obtain ⟨width, rfl⟩ := Nat.exists_eq_add_one_of_ne_zero (Nat.ne_of_gt hwidth)
    rw [Nat.div_eq_of_lt h, Nat.mod_eq_of_lt h, padded, padded, Nat.toDigits_of_lt_base h,
      Nat.toDigits_zero]
    simp only [List.leftpad, List.length_singleton, Nat.add_sub_cancel]
    rw [List.replicate_succ']
  · rw [padded, padded, Nat.toDigits_of_base_le (by decide) (Nat.le_of_not_lt h)]
    simp [List.leftpad]

/-- Where two texts start with parts of one length, these decide; if they agree, the rest does. -/
theorem append_lt_append_iff {α : Type} [LT α] {s s' t t' : List α} (h : s.length = s'.length) :
    s ++ t < s' ++ t' ↔ s < s' ∨ s = s' ∧ t < t' := by
  induction s generalizing s' with
  | nil =>
      rw [List.eq_nil_of_length_eq_zero h.symm]
      simp
  | cons a s ih =>
      obtain ⟨b, s', rfl⟩ := List.exists_cons_of_length_eq_add_one h.symm
      have hlength : s.length = s'.length := Nat.succ.inj h
      rw [List.cons_append, List.cons_append, List.cons_lt_cons_iff, List.cons_lt_cons_iff,
        ih hlength, List.cons.injEq]
      tauto

theorem digitChar_lt_iff : ∀ d < 10, ∀ e < 10, d.digitChar < e.digitChar ↔ d < e := by
  decide

theorem padded_inj {width m n : ℕ} : padded width m = padded width n ↔ m = n := by
  refine ⟨fun h => ?_, fun h => h ▸ rfl⟩
  rw [← ofDigitChars_padded width m, h, ofDigitChars_padded]

/-- Padded numbers of one width are in the order of the numbers. -/
theorem padded_lt_padded_iff {width m n : ℕ} (hwidth : 0 < width) (hm : m < 10 ^ width)
    (hn : n < 10 ^ width) : padded width m < padded width n ↔ m < n := by
  induction width, hwidth using Nat.le_induction generalizing m n with
  | base =>
      have hm : m < 10 := hm
      have hn : n < 10 := hn
      have hsingle : ∀ k < 10, padded 1 k = [k.digitChar] := by decide
      rw [hsingle m hm, hsingle n hn, List.cons_lt_cons_iff, digitChar_lt_iff m hm n hn]
      simp only [List.not_lt_nil, and_false, or_false]
  | succ width hwidth ih =>
      have hm' : m / 10 < 10 ^ width := Nat.div_lt_of_lt_mul (by rwa [← Nat.pow_succ'])
      have hn' : n / 10 < 10 ^ width := Nat.div_lt_of_lt_mul (by rwa [← Nat.pow_succ'])
      have hlength : (padded width (m / 10)).length = (padded width (n / 10)).length := by
        rw [length_padded hwidth hm', length_padded hwidth hn']
      have hlast := digitChar_lt_iff (m % 10) (Nat.mod_lt _ (by decide)) (n % 10)
        (Nat.mod_lt _ (by decide))
      rw [padded_succ hwidth, padded_succ hwidth, append_lt_append_iff hlength, ih hm' hn',
        padded_inj, List.cons_lt_cons_iff, hlast]
      simp only [List.not_lt_nil, and_false, or_false]
      omega

/-! ## Several numbers -/

/-- The width of each field, and the mark behind it. -/
abbrev Layout := List (ℕ × Char)

/-- Fills a layout with numbers. -/
def writeFields : Layout → List ℕ → List Char
  | (width, mark) :: layout, value :: values =>
    padded width value ++ mark :: writeFields layout values
  | _, _ => []

/-- Reads the numbers of a layout off a text, each from its place. -/
def readFields : Layout → List Char → List ℕ
  | [], _ => []
  | (width, _) :: layout, text =>
    Nat.ofDigitChars 10 (text.take width) 0 :: readFields layout (text.drop (width + 1))

/-- There is a number for each field, with no more digits than the field has. -/
def Fits : Layout → List ℕ → Prop :=
  List.Forall₂ fun field value => 0 < field.1 ∧ value < 10 ^ field.1

variable {layout : Layout} {values values' : List ℕ}

theorem length_writeFields (h : Fits layout values) :
    (writeFields layout values).length = (layout.map (·.1 + 1)).sum := by
  induction h with
  | nil => rfl
  | cons hfield _ ih =>
      rw [writeFields, List.length_append, length_padded hfield.1 hfield.2, List.length_cons, ih,
        List.map_cons, List.sum_cons]
      omega

theorem readFields_writeFields (h : Fits layout values) :
    readFields layout (writeFields layout values) = values := by
  induction h with
  | nil => rfl
  | @cons field value layout values hfield _ ih =>
      have hlength := length_padded hfield.1 hfield.2
      rw [writeFields, readFields, List.take_left' hlength, ofDigitChars_padded,
        List.append_cons, List.drop_left' (by rw [List.length_append, hlength]; rfl), ih]

/-- Texts that fill a layout are in the order of what they fill it with. -/
theorem writeFields_lt_iff (h : Fits layout values) (h' : Fits layout values') :
    writeFields layout values < writeFields layout values' ↔ values < values' := by
  induction h generalizing values' with
  | nil =>
      cases h'
      simp [writeFields]
  | @cons field value layout values hfield hrest ih =>
      cases h' with
      | @cons _ value' _ values' hfield' hrest' =>
          have hlength : (padded field.1 value).length = (padded field.1 value').length := by
            rw [length_padded hfield.1 hfield.2, length_padded hfield'.1 hfield'.2]
          rw [writeFields, writeFields, append_lt_append_iff hlength,
            padded_lt_padded_iff hfield.1 hfield.2 hfield'.2, padded_inj, List.cons_lt_cons_iff,
            List.cons_lt_cons_iff, ih hrest']
          simp only [Char.lt_irrefl, false_or, true_and]

end BoundedFormat.Calendar
