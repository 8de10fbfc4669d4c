import BoundedFormat.Numeral.Printer
import BoundedFormat.Numeral.Reader
import BoundedFormat.Proofs.Division
import Mathlib.Data.List.Induction
import Mathlib.Data.Nat.Digits.Defs
import Mathlib.Tactic.IntervalCases

/-!
# Numerals are positional notation

The printer takes digits off a word from the lowest, by long division or by shifts. What it writes
is the numeral of the word's number in the base, as `Nat.toDigits` has it. The room that it is
given is never used up: a word has at most twenty decimal digits.
-/

namespace BoundedFormat.Numeral

/-- What holds of 256 numbers holds of every byte. -/
theorem forall_byte {P : UInt8 → Prop} (h : ∀ n < 256, P (UInt8.ofNat n)) (b : UInt8) : P b := by
  have hb := h b.toNat b.toNat_lt
  rw [UInt8.ofNat_toNat] at hb
  exact hb

/-- The numeral of a number in a base, with lower case letters from ten on. -/
def numeral (base n : ℕ) : Bytes := (Nat.toDigits base n).map ascii

/-- The hexadecimal numeral of a number in upper case. -/
def upperNumeral (n : ℕ) : Bytes := (Nat.toDigits 16 n).map fun c => ascii c.toUpper

/-- The decimal numeral of an integer. -/
def signedNumeral (z : ℤ) : Bytes :=
  if z < 0 then ascii '-' :: numeral 10 z.natAbs else numeral 10 z.natAbs

/-- The lowest digit splits off a numeral, whatever the digits are written as. -/
theorem map_toDigits_append (write : Char → UInt8) {base : ℕ} (hbase : 1 < base) (n : ℕ)
    (tail : Bytes) :
    (Nat.toDigits base n).map write ++ tail =
      if n / base = 0 then write (n % base).digitChar :: tail
      else (Nat.toDigits base (n / base)).map write ++ write (n % base).digitChar :: tail := by
  rw [Nat.toDigits_eq_if hbase]
  by_cases h : n < base
  · rw [if_pos h, if_pos (Nat.div_eq_of_lt h), Nat.mod_eq_of_lt h]
    rfl
  · have hq : n / base ≠ 0 := (Nat.div_pos (Nat.le_of_not_lt h) (by omega)).ne'
    rw [if_neg h, if_neg hq]
    simp

theorem decimalByte_eq {digit : ℕ} (h : digit < 10) :
    decimalByte digit = ascii digit.digitChar := by
  interval_cases digit <;> rfl

theorem hexByte_lower {digit : ℕ} (h : digit < 16) :
    hexByte (ascii 'a') digit = ascii digit.digitChar := by
  interval_cases digit <;> rfl

theorem hexByte_upper {digit : ℕ} (h : digit < 16) :
    hexByte (ascii 'A') digit = ascii digit.digitChar.toUpper := by
  interval_cases digit <;> rfl

theorem divMod_ten (n : Word) : Division.divMod n 10 = (n / 10, n % 10) :=
  Division.divMod_eq n 10 (by decide)

/-- A quotient is zero as a word exactly when it is zero as a number. -/
theorem eq_zero_iff_toNat (w : Word) : w = 0 ↔ w.toNat = 0 := by
  rw [← BitVec.toNat_inj]
  rfl

theorem decimalOnto_eq (room : ℕ) (n : Word) (tail : Bytes) (hroom : n.toNat < 10 ^ (room + 1)) :
    decimalOnto (room + 1) n tail = numeral 10 n.toNat ++ tail := by
  induction room generalizing n tail with
  | zero =>
      have hn : n.toNat / 10 = 0 := by omega
      simp only [decimalOnto, divMod_ten, eq_zero_iff_toNat]
      rw [numeral, map_toDigits_append ascii (by decide), if_pos hn,
        ← decimalByte_eq (Nat.mod_lt _ (by decide))]
      simp [BitVec.toNat_udiv, hn]
  | succ room ih =>
      have hq : (n / 10).toNat = n.toNat / 10 := by simp [BitVec.toNat_udiv]
      have hr : (n % 10).toNat = n.toNat % 10 := by simp [BitVec.toNat_umod]
      have hroom' : (n / 10).toNat < 10 ^ (room + 1) := by
        rw [hq]
        exact Nat.div_lt_of_lt_mul (by rw [Nat.mul_comm, ← Nat.pow_succ]; exact hroom)
      rw [decimalOnto, divMod_ten]
      simp only [eq_zero_iff_toNat, hq, hr]
      rw [ih _ _ hroom', numeral, numeral, map_toDigits_append ascii (by decide) n.toNat,
        ← decimalByte_eq (Nat.mod_lt _ (by decide)), hq]

/-- Room for as many digits as a word has is room enough. -/
theorem decimalOnto_of_lt {room : ℕ} {n : Word} (hpos : 0 < room) (hroom : n.toNat < 10 ^ room) :
    decimalOnto room n [] = numeral 10 n.toNat := by
  obtain ⟨room, rfl⟩ := Nat.exists_eq_add_one_of_ne_zero hpos.ne'
  rw [decimalOnto_eq room n [] hroom, List.append_nil]

/-- A word has twenty decimal digits at most. -/
theorem decimalOnto_of_le {room : ℕ} (hroom : 20 ≤ room) (n : Word) :
    decimalOnto room n [] = numeral 10 n.toNat := by
  apply decimalOnto_of_lt (by omega)
  calc n.toNat < 2 ^ 64 := n.isLt
    _ ≤ 10 ^ 20 := by norm_num
    _ ≤ 10 ^ room := Nat.pow_le_pow_right (by decide) hroom

/-- A hexadecimal digit is a mask and a shift away. -/
theorem toNat_nibble (n : Word) : (n &&& 0xf).toNat = n.toNat % 16 := by
  rw [BitVec.toNat_and]
  exact Nat.and_two_pow_sub_one_eq_mod n.toNat 4

theorem toNat_ushiftRight_four (n : Word) : (n >>> 4).toNat = n.toNat / 16 := by
  rw [BitVec.toNat_ushiftRight, Nat.shiftRight_eq_div_pow]

theorem hexOnto_eq {write : Char → UInt8} {letterA : UInt8}
    (hdigit : ∀ {digit : ℕ}, digit < 16 → hexByte letterA digit = write digit.digitChar)
    (room : ℕ) (n : Word) (tail : Bytes) (hroom : n.toNat < 16 ^ (room + 1)) :
    hexOnto letterA (room + 1) n tail = (Nat.toDigits 16 n.toNat).map write ++ tail := by
  induction room generalizing n tail with
  | zero =>
      have hn : n.toNat / 16 = 0 := by omega
      simp only [hexOnto, eq_zero_iff_toNat, toNat_nibble, toNat_ushiftRight_four]
      rw [map_toDigits_append write (by decide), if_pos hn, if_pos hn,
        hdigit (Nat.mod_lt _ (by decide))]
  | succ room ih =>
      have hroom' : (n >>> 4).toNat < 16 ^ (room + 1) := by
        rw [toNat_ushiftRight_four]
        exact Nat.div_lt_of_lt_mul (by rw [Nat.mul_comm, ← Nat.pow_succ]; exact hroom)
      rw [hexOnto]
      simp only [eq_zero_iff_toNat, toNat_nibble, toNat_ushiftRight_four]
      rw [ih _ _ hroom', map_toDigits_append write (by decide) n.toNat,
        hdigit (Nat.mod_lt _ (by decide)), toNat_ushiftRight_four]

/-- A word has sixteen hexadecimal digits at most. -/
theorem hexOnto_of_le {write : Char → UInt8} {letterA : UInt8}
    (hdigit : ∀ {digit : ℕ}, digit < 16 → hexByte letterA digit = write digit.digitChar)
    {room : ℕ} (hroom : 16 ≤ room) (n : Word) :
    hexOnto letterA room n [] = (Nat.toDigits 16 n.toNat).map write := by
  obtain ⟨room, rfl⟩ := Nat.exists_eq_add_one_of_ne_zero (by omega : room ≠ 0)
  have hlt : n.toNat < 16 ^ (room + 1) :=
    calc n.toNat < 2 ^ 64 := n.isLt
      _ ≤ 16 ^ 16 := by norm_num
      _ ≤ 16 ^ (room + 1) := Nat.pow_le_pow_right (by decide) hroom
  rw [hexOnto_eq hdigit room n [] hlt, List.append_nil]

theorem print_unsigned (value : Word) : print .unsigned value = numeral 10 value.toNat :=
  decimalOnto_of_le (by decide) value

theorem print_lowerHex (value : Word) : print .lowerHex value = numeral 16 value.toNat :=
  hexOnto_of_le hexByte_lower (by decide) value

theorem print_upperHex (value : Word) : print .upperHex value = upperNumeral value.toNat :=
  hexOnto_of_le hexByte_upper (by decide) value

/-- The magnitude of a negative word is taken among the unsigned words, and is exact there. -/
theorem print_signed (value : Word) : print .signed value = signedNumeral value.toInt := by
  have hmagnitude := BitVec.toInt_eq_msb_cond value
  have hlt := value.isLt
  rw [print, signedNumeral]
  by_cases h : value.msb
  · rw [if_pos h] at hmagnitude
    have hge := BitVec.msb_eq_true_iff_two_mul_ge.mp h
    have hneg : value.toInt < 0 := by omega
    have habs : value.toInt.natAbs = (-value).toNat := by
      rw [BitVec.toNat_neg]
      omega
    rw [if_pos h, if_pos hneg, decimalOnto_of_le (by decide), habs]
  · rw [if_neg h] at hmagnitude
    have hneg : ¬ value.toInt < 0 := by omega
    have habs : value.toInt.natAbs = value.toNat := by omega
    rw [if_neg h, if_neg hneg, decimalOnto_of_le (by decide), habs]

/-! ## Reading numerals back -/

/-- A byte is a digit of a base, in either case. -/
def isDigitIn (base : ℕ) (b : UInt8) : Bool := (digitOf? b).any (· < base)

/-- The number that digits stand for in a base, the highest of them first. -/
def value (base : ℕ) (digits : Bytes) : ℕ :=
  Nat.ofDigits base (digits.filterMap digitOf?).reverse

theorem isDigitIn_iff {base : ℕ} {b : UInt8} :
    isDigitIn base b ↔ ∃ digit, digitOf? b = some digit ∧ digit < base := by
  rw [isDigitIn]
  cases digitOf? b <;> simp

theorem isDigitIn_eq_false_of_none {b : UInt8} (h : digitOf? b = none) (base : ℕ) :
    isDigitIn base b = false := by
  rw [isDigitIn, h, Option.any_none]

theorem digitOf?_of_isDigit {b : UInt8} (h : isDigit b) : digitOf? b = some (digitValue b) :=
  if_pos h

theorem digitValue_lt {b : UInt8} (h : isDigit b) : digitValue b < 10 := by
  rw [isDigit, Bool.and_eq_true, decide_eq_true_eq, decide_eq_true_eq] at h
  have hnine : b.toNat ≤ 57 := h.2
  have hzero : (ascii '0').toNat = 48 := rfl
  rw [digitValue, hzero]
  omega

/-- Of the digits of all bases, those below ten are the decimal ones. -/
theorem isDigitIn_ten (b : UInt8) : isDigitIn 10 b = isDigit b := by
  cases h : isDigit b with
  | true => rw [isDigitIn_iff.mpr ⟨_, digitOf?_of_isDigit h, digitValue_lt h⟩]
  | false =>
      rw [isDigitIn, digitOf?, h, if_neg Bool.false_ne_true]
      split
      · simp
      · split <;> simp

@[simp] theorem value_nil (base : ℕ) : value base [] = 0 := rfl

theorem value_append (base : ℕ) (high low : Bytes) :
    value base (high ++ low) =
      value base high * base ^ (low.filterMap digitOf?).length + value base low := by
  rw [value, List.filterMap_append, List.reverse_append, Nat.ofDigits_append, List.length_reverse,
    Nat.add_comm, Nat.mul_comm]
  rfl

theorem value_append_singleton {b : UInt8} {digit : ℕ} (h : digitOf? b = some digit) (base : ℕ)
    (digits : Bytes) : value base (digits ++ [b]) = value base digits * base + digit := by
  rw [value_append, value, value, List.filterMap_cons_some h, List.filterMap_nil,
    List.length_singleton, Nat.pow_one, List.reverse_singleton, Nat.ofDigits_singleton]

/-- More digits behind others do not make a number smaller. -/
theorem value_le_append {base : ℕ} (hbase : 0 < base) (high low : Bytes) :
    value base high ≤ value base (high ++ low) := by
  rw [value_append]
  exact Nat.le_add_right_of_le (Nat.le_mul_of_pos_right _ (Nat.pow_pos hbase))

/-- Zeros before digits do not count. -/
theorem value_replicate_zero_append (base n : ℕ) (digits : Bytes) :
    value base (List.replicate n (ascii '0') ++ digits) = value base digits := by
  have hread : (List.replicate n (ascii '0')).filterMap digitOf? = List.replicate n 0 :=
    List.filterMap_replicate_of_some rfl
  have hzeros : value base (List.replicate n (ascii '0')) = 0 := by
    rw [value, hread, List.reverse_replicate, Nat.ofDigits_replicate_zero]
  rw [value_append, hzeros, Nat.zero_mul, Nat.zero_add]

/-- What is written with digits that read as themselves is made of digits and reads back. -/
theorem value_map_toDigits (write : Char → UInt8) {base : ℕ} (hbase : 1 < base)
    (hwrite : ∀ digit < base, digitOf? (write digit.digitChar) = some digit) (n : ℕ) :
    value base ((Nat.toDigits base n).map write) = n ∧
      ∀ b ∈ (Nat.toDigits base n).map write, isDigitIn base b := by
  induction n using Nat.strong_induction_on with
  | _ n ih =>
      by_cases h : n < base
      · rw [Nat.toDigits_of_lt_base h, List.map_singleton, ← List.nil_append [_],
          value_append_singleton (hwrite n h)]
        refine ⟨by rw [value_nil, Nat.zero_mul, Nat.zero_add], ?_⟩
        intro b hb
        rw [List.mem_singleton.mp hb]
        exact isDigitIn_iff.mpr ⟨n, hwrite n h, h⟩
      · have hle := Nat.le_of_not_lt h
        have hlast := Nat.mod_lt n (Nat.zero_lt_of_lt hbase)
        obtain ⟨hvalue, hdigits⟩ := ih (n / base) (Nat.div_lt_self (by omega) hbase)
        rw [Nat.toDigits_of_base_le hbase hle, List.map_append, List.map_singleton,
          value_append_singleton (hwrite _ hlast), hvalue, Nat.mul_comm]
        refine ⟨Nat.div_add_mod n base, ?_⟩
        intro b hb
        rcases List.mem_append.mp hb with hb | hb
        · exact hdigits b hb
        · rw [List.mem_singleton.mp hb]
          exact isDigitIn_iff.mpr ⟨_, hwrite _ hlast, hlast⟩

theorem digitOf?_digitChar {digit : ℕ} (h : digit < 16) :
    digitOf? (ascii digit.digitChar) = some digit := by
  interval_cases digit <;> rfl

theorem digitOf?_digitChar_upper {digit : ℕ} (h : digit < 16) :
    digitOf? (ascii digit.digitChar.toUpper) = some digit := by
  interval_cases digit <;> rfl

theorem value_numeral {base : ℕ} (hbase : 1 < base) (hle : base ≤ 16) (n : ℕ) :
    value base (numeral base n) = n ∧ ∀ b ∈ numeral base n, isDigitIn base b :=
  value_map_toDigits ascii hbase (fun _ h => digitOf?_digitChar (Nat.lt_of_lt_of_le h hle)) n

theorem value_upperNumeral (n : ℕ) :
    value 16 (upperNumeral n) = n ∧ ∀ b ∈ upperNumeral n, isDigitIn 16 b :=
  value_map_toDigits (fun c => ascii c.toUpper) (by decide)
    (fun _ h => digitOf?_digitChar_upper h) n

theorem numeral_ne_nil (base n : ℕ) : numeral base n ≠ [] := by
  rw [numeral, ne_eq, List.map_eq_nil_iff]
  exact Nat.toDigits_ne_nil

theorem upperNumeral_ne_nil (n : ℕ) : upperNumeral n ≠ [] := by
  rw [upperNumeral, ne_eq, List.map_eq_nil_iff]
  exact Nat.toDigits_ne_nil

theorem isDigit_of_mem_numeral (n : ℕ) : ∀ b ∈ numeral 10 n, isDigit b := by
  intro b hb
  rw [← isDigitIn_ten]
  exact (value_numeral (by decide) (by decide) n).2 b hb

/-- The reader for digit strings gives their number, as far as it counts. -/
theorem decimalValue_eq (digits : Bytes) (hdigits : ∀ b ∈ digits, isDigit b) :
    decimalValue digits = saturate (value 10 digits) := by
  induction digits using List.reverseRecOn with
  | nil => rfl
  | append_singleton digits b ih =>
      have hb : isDigit b := hdigits b (List.mem_append_right _ (List.mem_singleton_self b))
      have hvalue : decimalValue (digits ++ [b]) =
          saturate (decimalValue digits * 10 + digitValue b) := by
        rw [decimalValue, List.foldl_append]
        rfl
      rw [hvalue, value_append_singleton (digitOf?_of_isDigit hb),
        ih fun c hc => hdigits c (List.mem_append_left _ hc)]
      simp only [saturate]
      omega

/-- **A numeral reads as its number**, as far as the reader counts. -/
theorem decimalValue_numeral (n : ℕ) : decimalValue (numeral 10 n) = saturate n := by
  rw [decimalValue_eq _ (isDigit_of_mem_numeral n), (value_numeral (by decide) (by decide) n).1]

end BoundedFormat.Numeral
