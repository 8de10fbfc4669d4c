import BoundedFormat.Proofs.Numeral
import Mathlib.Data.List.Basic

/-!
# Printed numerals are canonical

An `Alphabet` is a choice of digits. A text is a canonical numeral of a number when it is made of
these digits, stands for the number, and has no zero in front unless it is a zero alone. There is
exactly one such text for every number. The main statement is that the printer writes it in every
style, with a sign where there is one to write, and that twenty bytes are room enough for it.
-/

namespace BoundedFormat.Numeral

/-- No other byte than `0` reads as zero. -/
theorem eq_zero_of_digitOf? {b : UInt8} : digitOf? b = some 0 → b = ascii '0' := by
  revert b
  apply forall_byte
  decide +kernel

/-- The digits of a way of writing numbers, each at the place of its value. -/
structure Alphabet where
  digits : Bytes
  one_lt_length : 1 < digits.length
  digitOf?_getElem : ∀ k, (h : k < digits.length) → digitOf? digits[k] = some k

namespace Alphabet

/-- The digits of base ten. -/
def decimal : Alphabet where
  digits := textBytes "0123456789"
  one_lt_length := by decide +kernel
  digitOf?_getElem := by decide +kernel

/-- The digits of base sixteen, in lower case. -/
def lowerHex : Alphabet where
  digits := textBytes "0123456789abcdef"
  one_lt_length := by decide +kernel
  digitOf?_getElem := by decide +kernel

/-- The digits of base sixteen, in upper case. -/
def upperHex : Alphabet where
  digits := textBytes "0123456789ABCDEF"
  one_lt_length := by decide +kernel
  digitOf?_getElem := by decide +kernel

/-- The base that numbers are written in. -/
def base (a : Alphabet) : ℕ := a.digits.length

theorem one_lt_base (a : Alphabet) : 1 < a.base := a.one_lt_length

theorem digitOf?_getElem_base (a : Alphabet) {k : ℕ} (hk : k < a.base) :
    digitOf? a.digits[k] = some k := a.digitOf?_getElem k hk

/-- A numeral of `n` in the digits of an alphabet, without a zero in front. -/
structure Canonical (a : Alphabet) (text : Bytes) (n : ℕ) : Prop where
  ne_nil : text ≠ []
  mem_digits : ∀ b ∈ text, b ∈ a.digits
  value_eq : value a.base text = n
  no_leading_zero : text.head? = some (ascii '0') → text = [ascii '0']

variable {a : Alphabet} {text : Bytes} {m n k : ℕ}

theorem canonical_singleton (hk : k < a.base) : a.Canonical [a.digits[k]] k where
  ne_nil := List.cons_ne_nil _ _
  mem_digits b hb := by
    rw [List.mem_singleton.mp hb]
    exact List.getElem_mem hk
  value_eq := by
    rw [← List.nil_append [_], value_append_singleton (a.digitOf?_getElem_base hk), value_nil,
      Nat.zero_mul, Nat.zero_add]
  no_leading_zero h := by
    rw [Option.some.inj h]

namespace Canonical

theorem number_eq (h : a.Canonical text m) (h' : a.Canonical text n) : m = n :=
  h.value_eq.symm.trans h'.value_eq

theorem snoc (h : a.Canonical text n) (hn : n ≠ 0) (hk : k < a.base) :
    a.Canonical (text ++ [a.digits[k]]) (n * a.base + k) where
  ne_nil := List.append_ne_nil_of_left_ne_nil h.ne_nil _
  mem_digits b hb := by
    rcases List.mem_append.mp hb with hb | hb
    · exact h.mem_digits b hb
    · rw [List.mem_singleton.mp hb]
      exact List.getElem_mem hk
  value_eq := by rw [value_append_singleton (a.digitOf?_getElem_base hk), h.value_eq]
  no_leading_zero hzero := by
    rw [List.head?_append_of_ne_nil _ h.ne_nil] at hzero
    have hvalue := h.value_eq
    rw [h.no_leading_zero hzero] at hvalue
    exact absurd hvalue.symm hn

/-- The digits before the last are a numeral again. -/
theorem init {b : UInt8} (h : a.Canonical (text ++ [b]) n) (hne : text ≠ []) :
    a.Canonical text (value a.base text) where
  ne_nil := hne
  mem_digits c hc := h.mem_digits c (List.mem_append_left _ hc)
  value_eq := rfl
  no_leading_zero hzero := by
    have halone := h.no_leading_zero (by rw [List.head?_append_of_ne_nil _ hne, hzero])
    have hlength := congrArg List.length halone
    have hpos := List.length_pos_iff.mpr hne
    simp only [List.length_append, List.length_singleton] at hlength
    omega

end Canonical

section Digits

variable {write : Char → UInt8}
  (hwrite : ∀ k, (h : k < a.base) → write k.digitChar = a.digits[k])

include hwrite

theorem canonical_toDigits (n : ℕ) : a.Canonical ((Nat.toDigits a.base n).map write) n := by
  have hpos : 0 < a.base := Nat.zero_lt_of_lt a.one_lt_base
  induction n using Nat.strong_induction_on with
  | _ n ih =>
      by_cases h : n < a.base
      · rw [Nat.toDigits_of_lt_base h, List.map_singleton, hwrite n h]
        exact canonical_singleton h
      · have hle := Nat.le_of_not_lt h
        have hlast := Nat.mod_lt n hpos
        have hprevious := ih (n / a.base) (Nat.div_lt_self (by omega) a.one_lt_base)
        have hnumeral := hprevious.snoc (Nat.div_pos hle hpos).ne' hlast
        rw [Nat.div_add_mod' n a.base, ← hwrite _ hlast] at hnumeral
        rw [Nat.toDigits_of_base_le a.one_lt_base hle, List.map_append, List.map_singleton]
        exact hnumeral

/-- Digits without a zero in front are the numeral of their number. -/
theorem Canonical.eq_toDigits (h : a.Canonical text n) :
    text = (Nat.toDigits a.base n).map write := by
  have hpos : 0 < a.base := Nat.zero_lt_of_lt a.one_lt_base
  induction text using List.reverseRecOn generalizing n with
  | nil => exact absurd rfl h.ne_nil
  | append_singleton text b ih =>
      obtain ⟨k, hk, rfl⟩ : ∃ k, ∃ hk : k < a.base, a.digits[k] = b :=
        List.mem_iff_getElem.mp (h.mem_digits b (List.mem_append_right _ (List.mem_singleton_self b)))
      have hvalue := h.value_eq
      rw [value_append_singleton (a.digitOf?_getElem_base hk)] at hvalue
      by_cases hnil : text = []
      · subst hnil
        rw [value_nil, Nat.zero_mul, Nat.zero_add] at hvalue
        rw [← hvalue, Nat.toDigits_of_lt_base hk, List.map_singleton, hwrite k hk, List.nil_append]
      · have htext := ih (h.init hnil)
        have hne : value a.base text ≠ 0 := by
          intro hzero
          rw [hzero, Nat.toDigits_zero, List.map_singleton] at htext
          have hfirst : write '0' = ascii '0' := by
            apply eq_zero_of_digitOf?
            rw [show '0' = Nat.digitChar 0 from rfl, hwrite 0 hpos, a.digitOf?_getElem_base hpos]
          have halone := h.no_leading_zero (by rw [htext, hfirst]; rfl)
          rw [htext] at halone
          exact absurd (congrArg List.length halone) (by simp)
        rw [← hvalue, Nat.mul_comm, ← Nat.toDigits_append_toDigits a.one_lt_base
          (Nat.pos_of_ne_zero hne) hk, List.map_append, ← htext, Nat.toDigits_of_lt_base hk,
          List.map_singleton, hwrite k hk]

/-- **A number has one canonical numeral.** -/
theorem canonical_iff : a.Canonical text n ↔ text = (Nat.toDigits a.base n).map write :=
  ⟨fun h => h.eq_toDigits hwrite, fun h => h ▸ canonical_toDigits hwrite n⟩

end Digits

theorem decimal_canonical_iff : decimal.Canonical text n ↔ text = numeral 10 n :=
  canonical_iff (by decide +kernel)

theorem lowerHex_canonical_iff : lowerHex.Canonical text n ↔ text = numeral 16 n :=
  canonical_iff (by decide +kernel)

theorem upperHex_canonical_iff : upperHex.Canonical text n ↔ text = upperNumeral n :=
  canonical_iff (by decide +kernel)

end Alphabet

open Alphabet (decimal lowerHex upperHex decimal_canonical_iff lowerHex_canonical_iff
  upperHex_canonical_iff)

/-! ## The printer -/

/-- The sign of a word in two's complement: a minus for the numbers below zero. -/
def signText (w : Word) : Bytes := if w.toInt < 0 then [ascii '-'] else []

theorem print_signed_eq (w : Word) :
    print .signed w = signText w ++ numeral 10 w.toInt.natAbs := by
  rw [print_signed, signedNumeral, signText]
  split <;> rfl

/-- Printing with room for so many bytes. -/
def printWithin (space : ℕ) (style : Style) (value : Word) : Bytes :=
  match style with
  | .signed =>
    if value.msb then ascii '-' :: decimalOnto (space - 1) (-value) []
    else decimalOnto space value []
  | .unsigned => decimalOnto space value []
  | .lowerHex => hexOnto (ascii 'a') space value []
  | .upperHex => hexOnto (ascii 'A') space value []

/-- The least integer has the largest magnitude. -/
theorem natAbs_toInt_le (w : Word) : w.toInt.natAbs ≤ 2 ^ 63 := by
  have hlow := BitVec.le_toInt w
  have hhigh := BitVec.toInt_lt (x := w)
  omega

/-- Twenty bytes are room enough, and what is printed does not depend on there being more. -/
theorem printWithin_of_le {space : ℕ} (hspace : 20 ≤ space) (style : Style) (w : Word) :
    printWithin space style w = print style w := by
  cases style with
  | signed =>
      rw [printWithin, print]
      by_cases h : w.msb
      · -- The sign takes a byte, and a magnitude has one digit less than a word.
        have hge := BitVec.msb_eq_true_iff_two_mul_ge.mp h
        have hmagnitude : (-w).toNat < 10 ^ 19 := by
          rw [BitVec.toNat_neg]
          omega
        have hroom : 10 ^ 19 ≤ 10 ^ (space - 1) := Nat.pow_le_pow_right (by decide) (by omega)
        rw [if_pos h, if_pos h, decimalOnto_of_le (by decide : 20 ≤ room - 1),
          decimalOnto_of_lt (by omega) (Nat.lt_of_lt_of_le hmagnitude hroom)]
      · rw [if_neg h, if_neg h, decimalOnto_of_le hspace, decimalOnto_of_le (by decide)]
  | unsigned => exact (decimalOnto_of_le hspace w).trans (print_unsigned w).symm
  | lowerHex => exact (hexOnto_of_le hexByte_lower (by omega) w).trans (print_lowerHex w).symm
  | upperHex => exact (hexOnto_of_le hexByte_upper (by omega) w).trans (print_upperHex w).symm

theorem length_map_toDigits_le (write : Char → UInt8) {base n k : ℕ} (hbase : 1 < base)
    (hk : 0 < k) (h : n < base ^ k) : ((Nat.toDigits base n).map write).length ≤ k := by
  rw [List.length_map]
  exact (Nat.length_toDigits_le_iff hbase hk).mpr h

theorem length_print_le (style : Style) (w : Word) : (print style w).length ≤ 20 := by
  have hw := w.isLt
  cases style with
  | signed =>
      have habs := natAbs_toInt_le w
      have hdigits : (numeral 10 w.toInt.natAbs).length ≤ 19 :=
        length_map_toDigits_le ascii (by decide) (by decide) (by omega)
      have hsign : (signText w).length ≤ 1 := by
        rw [signText]
        split <;> decide
      rw [print_signed_eq, List.length_append]
      omega
  | unsigned =>
      rw [print_unsigned]
      exact length_map_toDigits_le ascii (by decide) (by decide) (by omega)
  | lowerHex =>
      rw [print_lowerHex]
      exact length_map_toDigits_le ascii (by decide) (by decide) (by omega)
  | upperHex =>
      rw [print_upperHex]
      exact length_map_toDigits_le _ (by decide) (by decide) (by omega)

/-- No numeral begins with a sign. -/
theorem minus_notMem_numeral (n : ℕ) : ascii '-' ∉ numeral 10 n := by
  intro h
  have hdigit := isDigit_of_mem_numeral n _ h
  revert hdigit
  decide

theorem numeral_inj {m n : ℕ} (h : numeral 10 m = numeral 10 n) : m = n :=
  (decimal_canonical_iff.mpr rfl).number_eq (decimal_canonical_iff.mpr h)

/-- Sign and digits of an integer can be told apart. -/
theorem signText_append_numeral_inj {v w : Word}
    (h : signText v ++ numeral 10 v.toInt.natAbs = signText w ++ numeral 10 w.toInt.natAbs) :
    v = w := by
  apply BitVec.eq_of_toInt_eq
  have hnotMem := minus_notMem_numeral
  simp only [signText] at h
  by_cases hv : v.toInt < 0 <;> by_cases hw : w.toInt < 0
  · rw [if_pos hv, if_pos hw] at h
    have habs := numeral_inj (List.append_cancel_left h)
    omega
  · rw [if_pos hv, if_neg hw, List.nil_append] at h
    exact absurd (h ▸ List.mem_cons_self) (hnotMem w.toInt.natAbs)
  · rw [if_neg hv, if_pos hw, List.nil_append] at h
    exact absurd (h ▸ List.mem_cons_self) (hnotMem v.toInt.natAbs)
  · rw [if_neg hv, if_neg hw] at h
    have habs := numeral_inj h
    omega

/-- Words that are printed alike are equal. -/
theorem print_inj (style : Style) {v w : Word} (h : print style v = print style w) : v = w := by
  cases style with
  | signed =>
      rw [print_signed_eq, print_signed_eq] at h
      exact signText_append_numeral_inj h
  | unsigned =>
      have hv := decimal_canonical_iff.mpr (print_unsigned v)
      have hw := decimal_canonical_iff.mpr (h.trans (print_unsigned w))
      exact BitVec.eq_of_toNat_eq (hv.number_eq hw)
  | lowerHex =>
      have hv := lowerHex_canonical_iff.mpr (print_lowerHex v)
      have hw := lowerHex_canonical_iff.mpr (h.trans (print_lowerHex w))
      exact BitVec.eq_of_toNat_eq (hv.number_eq hw)
  | upperHex =>
      have hv := upperHex_canonical_iff.mpr (print_upperHex v)
      have hw := upperHex_canonical_iff.mpr (h.trans (print_upperHex w))
      exact BitVec.eq_of_toNat_eq (hv.number_eq hw)

/-- **What is printed is the canonical numeral.** In the signed style it is that of the magnitude,
behind a minus for the words below zero, and in the others that of the word without a sign. It takes
twenty bytes at most, so it is the same however much more room there is, and no two words share
one. -/
theorem print_canonical (w : Word) :
    (∃ digits, print .signed w = signText w ++ digits ∧
      ∀ text, decimal.Canonical text w.toInt.natAbs ↔ text = digits) ∧
    (∀ text, decimal.Canonical text w.toNat ↔ text = print .unsigned w) ∧
    (∀ text, lowerHex.Canonical text w.toNat ↔ text = print .lowerHex w) ∧
    (∀ text, upperHex.Canonical text w.toNat ↔ text = print .upperHex w) ∧
    ∀ style, (print style w).length ≤ 20 ∧
      (∀ more, printWithin (20 + more) style w = print style w) ∧
      ∀ v, print style v = print style w ↔ v = w := by
  refine ⟨⟨_, print_signed_eq w, fun _ => decimal_canonical_iff⟩, ?_, ?_, ?_, ?_⟩
  · intro text
    rw [print_unsigned]
    exact decimal_canonical_iff
  · intro text
    rw [print_lowerHex]
    exact lowerHex_canonical_iff
  · intro text
    rw [print_upperHex]
    exact upperHex_canonical_iff
  · intro style
    refine ⟨length_print_le style w, ?_, ?_⟩
    · intro more
      exact printWithin_of_le (Nat.le_add_right 20 more) style w
    · intro v
      exact ⟨print_inj style, congrArg (print style)⟩

/-- The least integer is written exactly, and takes all twenty bytes. -/
example : print .signed (BitVec.intMin 64) = textBytes "-9223372036854775808" := by
  decide +kernel

end BoundedFormat.Numeral
