import BoundedFormat.Proofs.Reading
import Mathlib.Data.List.TakeWhile
import Mathlib.Data.Nat.Find

/-!
# How far a number is read

What a text reads as is a matter of three things: the base, the place where its digits start, and
the longest run of digits of that base from there on. They are stated here by positions in the text,
apart from the reader. The main statement is that the reader gives the number of the run, or
stops at the last place where that number still fits a word, and that no word operation on its way
wraps. `readChecked` is the reader with operations that refuse to.
-/

namespace BoundedFormat.Numeral

/-! ## The value of a digit -/

/-- All digits, each at the place of its value. -/
def allDigits : Bytes := textBytes "0123456789abcdefghijklmnopqrstuvwxyz"

/-- The small letter for a capital one. -/
def toLower (b : UInt8) : UInt8 := if ascii 'A' ≤ b && b ≤ ascii 'Z' then b + 32 else b

theorem digitOf?_eq_idxOf? (b : UInt8) : digitOf? b = allDigits.idxOf? (toLower b) := by
  cases hkind : isAlphanumeric b with
  | true =>
      revert b
      apply forall_byte
      decide +kernel
  | false =>
      have hsame : toLower b = b := by
        rw [toLower, if_neg]
        intro hupper
        rw [isAlphanumeric, hupper, Bool.or_true] at hkind
        cases hkind
      have hdigits : ∀ d ∈ allDigits, isAlphanumeric d := by decide +kernel
      have hnone : b ∉ allDigits := by
        intro hb
        rw [hdigits b hb] at hkind
        cases hkind
      rw [digitOf?_eq_none_iff.mpr hkind, hsame, List.idxOf?_eq_none_iff.mpr hnone]

/-! ## Where the digits are -/

section Places

variable (base : ℕ) (s : Bytes)

/-- The place behind the blanks that a text begins with. -/
def bodyStart : ℕ := (s.takeWhile isSpace).length

/-- A `0x` stands there, and is a marker in the base asked for. -/
def IsMarked : Prop :=
  s[bodyStart s]? = some (ascii '0') ∧ s[bodyStart s + 1]? = some (ascii 'x') ∧
    (base = 0 ∨ base = 16)

/-- A zero stands there, and an octal digit behind it. -/
def IsOctal : Prop :=
  s[bodyStart s]? = some (ascii '0') ∧
    s[bodyStart s + 1]?.any fun b => ascii '0' ≤ b && b ≤ ascii '7'

instance : Decidable (IsMarked base s) := by
  unfold IsMarked
  infer_instance

instance : Decidable (IsOctal s) := by
  unfold IsOctal
  infer_instance

/-- The base that the digits are read in. -/
def radix : ℕ :=
  if IsMarked base s then 16 else if base ≠ 0 then base else if IsOctal s then 8 else 10

/-- The place where the digits start. -/
def digitsStart : ℕ := if IsMarked base s then bodyStart s + 2 else bodyStart s

/-- The longest run of digits from there on. -/
def digitRun : Bytes := (s.drop (digitsStart base s)).takeWhile (isDigitIn (radix base s))

theorem drop_bodyStart : s.drop (bodyStart s) = s.dropWhile isSpace :=
  calc s.drop (bodyStart s)
      = (s.takeWhile isSpace ++ s.dropWhile isSpace).drop (bodyStart s) := by
        rw [List.takeWhile_append_dropWhile]
    _ = s.dropWhile isSpace := List.drop_left

theorem getElem?_bodyStart_add (k : ℕ) : s[bodyStart s + k]? = (s.dropWhile isSpace)[k]? := by
  rw [← drop_bodyStart, List.getElem?_drop]

theorem isMarked_iff :
    IsMarked base s ↔
      (∃ rest, s.dropWhile isSpace = textBytes "0x" ++ rest) ∧ (base = 0 ∨ base = 16) := by
  have hfirst := getElem?_bodyStart_add s 0
  have hmarker : textBytes "0x" = [ascii '0', ascii 'x'] := by decide
  rw [Nat.add_zero] at hfirst
  rw [IsMarked, hfirst, getElem?_bodyStart_add, ← and_assoc, hmarker]
  refine and_congr_left fun _ => ?_
  rcases s.dropWhile isSpace with _ | ⟨first, _ | ⟨second, rest⟩⟩ <;> simp

theorem isOctal_iff :
    IsOctal s ↔ ∃ b rest, s.dropWhile isSpace = ascii '0' :: b :: rest ∧
      ascii '0' ≤ b ∧ b ≤ ascii '7' := by
  have hfirst := getElem?_bodyStart_add s 0
  rw [Nat.add_zero] at hfirst
  rw [IsOctal, hfirst, getElem?_bodyStart_add]
  rcases s.dropWhile isSpace with _ | ⟨first, _ | ⟨second, rest⟩⟩ <;> simp

theorem radix_pos : 0 < radix base s := by
  rw [radix]
  split_ifs <;> omega

/-- The reader settles the base, and where the digits start, by these rules. -/
theorem chooseBase_eq_radix :
    chooseBase base (s.dropWhile isSpace) = (radix base s, s.drop (digitsStart base s)) := by
  by_cases hmarked : IsMarked base s
  · obtain ⟨⟨rest, hbody⟩, hbase⟩ := (isMarked_iff base s).mp hmarked
    rw [radix, digitsStart, if_pos hmarked, if_pos hmarked, ← List.drop_drop, drop_bodyStart, hbody,
      chooseBase_marker hbase]
    rfl
  · rw [radix, digitsStart, if_neg hmarked, if_neg hmarked, drop_bodyStart]
    have hmarker : base = 0 ∨ base = 16 → ∀ rest, s.dropWhile isSpace ≠ textBytes "0x" ++ rest :=
      fun hbase rest hbody => hmarked ((isMarked_iff base s).mpr ⟨⟨rest, hbody⟩, hbase⟩)
    by_cases hbase : base = 0
    · subst hbase
      rw [if_neg (not_not_intro rfl)]
      by_cases hoctal : IsOctal s
      · rw [if_pos hoctal]
        obtain ⟨b, rest, hbody, hlow, hhigh⟩ := (isOctal_iff s).mp hoctal
        rw [hbody]
        exact chooseBase_octal hlow hhigh rest
      · rw [if_neg hoctal]
        rw [isOctal_iff] at hoctal
        exact chooseBase_decimal (hmarker (.inl rfl))
          fun b rest hbody hrange => hoctal ⟨b, rest, hbody, hrange⟩
    · rw [if_pos hbase]
      exact chooseBase_given hbase fun hsixteen => hmarker (.inr hsixteen)

end Places

/-! ## The digits that fit -/

/-- How many digits of a run, from its first, have a number that fits a word. -/
def fitting (base : ℕ) (digits : Bytes) : ℕ :=
  Nat.findGreatest (fun n => value base (digits.take n) < 2 ^ 64) digits.length

theorem value_take_fitting (base : ℕ) (digits : Bytes) :
    value base (digits.take (fitting base digits)) < 2 ^ 64 :=
  Nat.findGreatest_spec (P := fun n => value base (digits.take n) < 2 ^ 64) (Nat.zero_le _)
    (Nat.two_pow_pos 64)

section Run

variable {base : ℕ} (hpos : 0 < base) (hbase : base ≤ 36) {run : Bytes}
  (hrun : ∀ b ∈ run, isDigitIn base b) (hover : 2 ^ 64 ≤ value base run)

include hover

theorem fitting_lt_length : fitting base run < run.length := by
  have hle : fitting base run ≤ run.length := Nat.findGreatest_le run.length
  have hfits := value_take_fitting base run
  apply Nat.lt_of_le_of_ne hle
  intro h
  rw [h, List.take_length] at hfits
  omega

theorem le_value_take_succ_fitting : 2 ^ 64 ≤ value base (run.take (fitting base run + 1)) := by
  have hnext := Nat.findGreatest_is_greatest (P := fun n => value base (run.take n) < 2 ^ 64)
    (Nat.lt_succ_self (fitting base run)) (fitting_lt_length hover)
  exact Nat.le_of_not_lt hnext

include hpos hbase hrun

/-- A run whose number is too large is read as far as it fits. -/
theorem readDigits_overflow (rest : Bytes) (consumed : ℕ) :
    readDigits base false 0 consumed (run ++ rest) =
      { value := BitVec.allOnes 64, consumed := consumed + fitting base run,
        status := .overflow } := by
  have hlt := fitting_lt_length hover
  have hnext := le_value_take_succ_fitting hover
  rw [List.take_add_one, List.getElem?_eq_getElem hlt, Option.toList_some] at hnext
  -- The run divides before its first digit that does not fit.
  let kept := run.take (fitting base run)
  let behind := run.drop (fitting base run + 1) ++ rest
  have hsplit : run ++ rest = kept ++ run[fitting base run] :: behind := by
    rw [← List.cons_append, ← List.drop_eq_getElem_cons hlt, ← List.append_assoc,
      List.take_append_drop]
  have htaken := readDigits_append hpos hbase []
    (fun b hb => hrun b (List.mem_of_mem_take hb)) (value_take_fitting base run)
    (run[fitting base run] :: behind) false consumed
  rw [List.nil_append, readDigits_refuse hpos hbase (hrun _ (List.getElem_mem hlt))
    (value_take_fitting base run) hnext, List.length_take, Nat.min_eq_left (Nat.le_of_lt hlt)]
    at htaken
  rw [hsplit]
  exact htaken

omit hover in
/-- The digits that a text begins with are what is read of it. -/
theorem readDigits_eq_run {rest : Bytes} (hstop : ∀ b ∈ rest.head?, isDigitIn base b = false)
    (consumed : ℕ) :
    readDigits base false 0 consumed (run ++ rest) =
      if run = [] then .bad
      else if value base run < 2 ^ 64 then
        { value := BitVec.ofNat 64 (value base run), consumed := consumed + run.length,
          status := .success }
      else
        { value := BitVec.allOnes 64, consumed := consumed + fitting base run,
          status := .overflow } := by
  by_cases hnil : run = []
  · rw [if_pos hnil, hnil, List.nil_append, readDigits_stop hstop]
    rfl
  · rw [if_neg hnil]
    by_cases hfits : value base run < 2 ^ 64
    · rw [if_pos hfits, readDigits_run hpos hbase hnil hrun hfits hstop]
    · rw [if_neg hfits, readDigits_overflow hpos hbase hrun (Nat.le_of_not_lt hfits)]

end Run

/-! ## Operations that do not wrap -/

/-- The sum of two words, unless it wraps. -/
def add? (x y : Word) : Option Word := if x.uaddOverflow y then none else some (x + y)

/-- The difference of two words, unless it wraps. -/
def sub? (x y : Word) : Option Word := if x.usubOverflow y then none else some (x - y)

/-- The product of two words, unless it wraps. -/
def mul? (x y : Word) : Option Word := if x.umulOverflow y then none else some (x * y)

/-- Takes digits as `readDigits` does, and fails if an operation on words would wrap or divide by
zero. -/
def readDigitsChecked (base : ℕ) (found : Bool) (value : Word) (consumed : ℕ) :
    Bytes → Option Reading
  | [] => some (readDigits.finish found value consumed)
  | b :: rest =>
    match digitOf? b with
    | none => some (readDigits.finish found value consumed)
    | some digit =>
      if base ≤ digit then some (readDigits.finish found value consumed)
      else do
        let reach ← sub? (BitVec.allOnes 64) (BitVec.ofNat 64 digit)
        let bound ← Division.quotient? reach (BitVec.ofNat 64 base)
        if bound < value then
          return { value := BitVec.allOnes 64, consumed, status := .overflow }
        else
          let product ← mul? value (BitVec.ofNat 64 base)
          let sum ← add? product (BitVec.ofNat 64 digit)
          readDigitsChecked base true sum (consumed + 1) rest

/-- Reads as `read` does, and fails if an operation on words would wrap or divide by zero. -/
def readChecked (base : ℕ) (s : Bytes) : Option Reading :=
  let text := s.dropWhile isSpace
  let (base, digits) := chooseBase base text
  if 36 < base then some .bad
  else readDigitsChecked base false 0 (s.length - digits.length) digits

/-- Nothing is larger than the largest word. -/
theorem sub?_allOnes (w : Word) : sub? (BitVec.allOnes 64) w = some (BitVec.allOnes 64 - w) := by
  have hw := w.isLt
  rw [sub?, if_neg]
  rw [BitVec.usubOverflow, decide_eq_true_eq, BitVec.toNat_allOnes]
  omega

section Checked

variable {base : ℕ} (hpos : 0 < base) (hbase : base ≤ 36)

include hpos hbase

theorem quotient?_eq_lastSafe (digit : ℕ) :
    Division.quotient? (BitVec.allOnes 64 - BitVec.ofNat 64 digit) (BitVec.ofNat 64 base) =
      some (lastSafe base digit) := by
  rw [Division.quotient?, Division.divMod?, if_neg (ofNat_base_ne_zero hpos hbase), Option.map_some,
    lastSafe_eq_fst]

/-- A digit that is not refused makes no larger number than a word. -/
theorem bind_mul?_add? {digit : ℕ} (hdigit : digit < base) {w : Word}
    (hsafe : ¬ lastSafe base digit < w) :
    ((mul? w (BitVec.ofNat 64 base)).bind fun product => add? product (BitVec.ofNat 64 digit)) =
      some (w * BitVec.ofNat 64 base + BitVec.ofNat 64 digit) := by
  rw [lastSafe_lt_iff hpos hbase hdigit, Nat.not_le] at hsafe
  have hbaseNat := toNat_ofNat_base hpos hbase
  have hdigitNat := toNat_ofNat_digit hbase hdigit
  have hproduct : (w * BitVec.ofNat 64 base).toNat = w.toNat * base := by
    rw [BitVec.toNat_mul, hbaseNat]
    omega
  have hmul : w.umulOverflow (BitVec.ofNat 64 base) = false := by
    rw [BitVec.umulOverflow, hbaseNat, decide_eq_false_iff_not]
    omega
  have hadd : (w * BitVec.ofNat 64 base).uaddOverflow (BitVec.ofNat 64 digit) = false := by
    rw [BitVec.uaddOverflow, hproduct, hdigitNat, decide_eq_false_iff_not]
    omega
  rw [mul?, hmul, if_neg Bool.false_ne_true, Option.bind_some, add?, hadd,
    if_neg Bool.false_ne_true]

theorem readDigitsChecked_eq (found : Bool) (w : Word) (consumed : ℕ) (s : Bytes) :
    readDigitsChecked base found w consumed s = some (readDigits base found w consumed s) := by
  induction s generalizing found w consumed with
  | nil => rfl
  | cons b rest ih =>
      rw [readDigitsChecked, readDigits]
      cases digitOf? b with
      | none => rfl
      | some digit =>
          dsimp only
          by_cases hle : base ≤ digit
          · rw [if_pos hle, if_pos hle]
          · rw [if_neg hle, if_neg hle, sub?_allOnes]
            rw [Option.bind_eq_bind, Option.bind_some, quotient?_eq_lastSafe hpos hbase,
              Option.bind_some]
            by_cases hsafe : lastSafe base digit < w
            · rw [if_pos hsafe, if_pos hsafe, Option.pure_def]
            · have hstep := bind_mul?_add? hpos hbase (Nat.lt_of_not_le hle) hsafe
              rw [if_neg hsafe, if_neg hsafe, ← Option.bind_assoc, hstep, Option.bind_some, ih]

end Checked

theorem readChecked_eq (base : ℕ) (s : Bytes) : readChecked base s = some (read base s) := by
  rw [readChecked, read, chooseBase_eq_radix]
  simp only
  by_cases hlarge : 36 < radix base s
  · rw [if_pos hlarge, if_pos hlarge]
  · rw [if_neg hlarge, if_neg hlarge]
    exact readDigitsChecked_eq (radix_pos base s) (Nat.le_of_not_lt hlarge) false 0 _ _

/-! ## The reading of a text -/

section Reading

variable (base : ℕ) (s : Bytes)

/-- An address is as wide as a word, so nothing is cut off it. -/
theorem readAddress_eq : readAddress base s = read base s := by
  rw [readAddress, Reading.narrow, if_pos]
  rw [addressBits, BitVec.setWidth_eq, BitVec.setWidth_eq]

theorem digitsStart_le_length : digitsStart base s ≤ s.length := by
  have hbody : bodyStart s ≤ s.length := (List.takeWhile_sublist _).length_le
  rw [digitsStart]
  split_ifs with hmarked
  · obtain ⟨hx, -⟩ := List.getElem?_eq_some_iff.mp hmarked.2.1
    omega
  · exact hbody

/-- What a text reads as, by its run of digits. -/
def extentReading : Reading :=
  let radix := radix base s
  let digits := digitRun base s
  let start := digitsStart base s
  if 36 < radix ∨ digits = [] then .bad
  else if value radix digits < 2 ^ 64 then
    { value := BitVec.ofNat 64 (value radix digits), consumed := start + digits.length,
      status := .success }
  else
    { value := BitVec.allOnes 64, consumed := start + fitting radix digits, status := .overflow }

/-- What stands behind the run of digits is no digit. -/
theorem exists_append_digitRun :
    ∃ rest, s.drop (digitsStart base s) = digitRun base s ++ rest ∧
      ∀ b ∈ rest.head?, isDigitIn (radix base s) b = false := by
  refine ⟨_, List.takeWhile_append_dropWhile.symm, ?_⟩
  intro b hb
  have hnot := List.head?_dropWhile_not (isDigitIn (radix base s)) (s.drop (digitsStart base s))
  rw [Option.mem_def.mp hb] at hnot
  exact hnot

theorem read_eq_extentReading : read base s = extentReading base s := by
  have hstart := digitsStart_le_length base s
  have hlength : s.length - (s.drop (digitsStart base s)).length = digitsStart base s := by
    rw [List.length_drop]
    omega
  obtain ⟨rest, hsplit, hstop⟩ := exists_append_digitRun base s
  have hdigits : ∀ b ∈ digitRun base s, isDigitIn (radix base s) b :=
    fun b hb => List.mem_takeWhile_imp hb
  rw [read, chooseBase_eq_radix, extentReading]
  simp only [hlength]
  by_cases hlarge : 36 < radix base s
  · rw [if_pos hlarge, if_pos (.inl hlarge)]
  · rw [if_neg hlarge, hsplit,
      readDigits_eq_run (radix_pos base s) (Nat.le_of_not_lt hlarge) hdigits hstop]
    simp only [hlarge, false_or]

theorem consumed_read_le : (read base s).consumed ≤ s.length := by
  have hstart := digitsStart_le_length base s
  have hrun : (digitRun base s).length ≤ (s.drop (digitsStart base s)).length :=
    (List.takeWhile_sublist _).length_le
  have hfitting : fitting (radix base s) (digitRun base s) ≤ (digitRun base s).length :=
    Nat.findGreatest_le _
  rw [List.length_drop] at hrun
  rw [read_eq_extentReading, extentReading]
  split_ifs
  · exact Nat.zero_le _
  · change digitsStart base s + (digitRun base s).length ≤ s.length
    omega
  · change digitsStart base s + fitting (radix base s) (digitRun base s) ≤ s.length
    omega

/-- **A number is read to the last digit that fits.** The base, the place where the digits start and
the run of digits decide what is read: the number of the run to its end, or the largest word to the
end of the longest part of the run whose number fits one, or nothing. On the way no operation on
words wraps and no divisor is zero. An address is read as any other word. -/
theorem read_complete :
    read base s = extentReading base s ∧
    (∀ b, digitOf? b = allDigits.idxOf? (toLower b)) ∧
    (read base s).consumed ≤ s.length ∧
    readChecked base s = some (read base s) ∧
    readAddress base s = read base s :=
  ⟨read_eq_extentReading base s, digitOf?_eq_idxOf?, consumed_read_le base s,
    readChecked_eq base s, readAddress_eq base s⟩

end Reading

end BoundedFormat.Numeral
