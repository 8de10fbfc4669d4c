import BoundedFormat.Proofs.Numeral
import Mathlib.Data.List.Basic

/-!
# Reading a numeral where it stands

The reader passes over blanks, settles the base, and takes digits while their number stays below
`2 ^ 64`. The main statement is about a run of digits that does stay below: its value is read, up to
the end of the run, whatever follows that is no digit of the base. What the base is settled to by a
marker or its absence is stated apart.
-/

namespace BoundedFormat.Numeral

/-! ## Bytes that are no digits -/

/-- Letters and digits, ASCII only. -/
def isAlphanumeric (b : UInt8) : Bool :=
  isDigit b || (ascii 'a' ≤ b && b ≤ ascii 'z') || (ascii 'A' ≤ b && b ≤ ascii 'Z')

/-- Letters and digits are digits of some base, and nothing else is. -/
theorem digitOf?_eq_none_iff {b : UInt8} : digitOf? b = none ↔ isAlphanumeric b = false := by
  rw [digitOf?, isAlphanumeric]
  cases isDigit b <;> cases ascii 'a' ≤ b && b ≤ ascii 'z' <;>
    cases ascii 'A' ≤ b && b ≤ ascii 'Z' <;> simp

theorem digitOf?_of_isSpace {b : UInt8} (h : isSpace b) : digitOf? b = none := by
  simp only [isSpace, Bool.or_eq_true, beq_iff_eq] at h
  rcases h with ((rfl | rfl) | rfl) | rfl <;> rfl

theorem isSpace_of_isDigitIn {base : ℕ} {b : UInt8} (h : isDigitIn base b) :
    isSpace b = false := by
  obtain ⟨digit, hdigit, -⟩ := isDigitIn_iff.mp h
  rw [Bool.eq_false_iff]
  intro hspace
  rw [digitOf?_of_isSpace hspace] at hdigit
  cases hdigit

/-! ## Taking digits -/

-- Stated of the function: at an argument, the comparison with its body would compute the division.
theorem lastSafe_eq_fst : lastSafe = fun base digit =>
    (Division.divMod (BitVec.allOnes 64 - BitVec.ofNat 64 digit) (BitVec.ofNat 64 base)).1 := rfl

theorem lastSafe_eq {base : ℕ} (hbase : BitVec.ofNat 64 base ≠ 0) (digit : ℕ) :
    lastSafe base digit = (BitVec.allOnes 64 - BitVec.ofNat 64 digit) / BitVec.ofNat 64 base := by
  rw [lastSafe_eq_fst]
  beta_reduce
  rw [Division.divMod_eq _ _ hbase]

section Digits

variable {base : ℕ} (hpos : 0 < base) (hbase : base ≤ 36)

include hpos hbase

theorem toNat_ofNat_base : (BitVec.ofNat 64 base).toNat = base := by
  rw [BitVec.toNat_ofNat]
  omega

theorem ofNat_base_ne_zero : BitVec.ofNat 64 base ≠ 0 := by
  rw [ne_eq, eq_zero_iff_toNat, toNat_ofNat_base hpos hbase]
  exact hpos.ne'

omit hpos in
theorem toNat_ofNat_digit {digit : ℕ} (hdigit : digit < base) :
    (BitVec.ofNat 64 digit).toNat = digit := by
  rw [BitVec.toNat_ofNat]
  omega

theorem toNat_lastSafe {digit : ℕ} (hdigit : digit < base) :
    (lastSafe base digit).toNat = (2 ^ 64 - 1 - digit) / base := by
  have hle : BitVec.ofNat 64 digit ≤ BitVec.allOnes 64 := by
    rw [BitVec.le_def, toNat_ofNat_digit hbase hdigit, BitVec.toNat_allOnes]
    omega
  rw [lastSafe_eq (ofNat_base_ne_zero hpos hbase), BitVec.toNat_udiv, BitVec.toNat_sub_of_le hle,
    toNat_ofNat_base hpos hbase, toNat_ofNat_digit hbase hdigit, BitVec.toNat_allOnes]

/-- A further digit is refused exactly when the number would leave 64 bits. -/
theorem lastSafe_lt_iff {digit : ℕ} (hdigit : digit < base) (w : Word) :
    lastSafe base digit < w ↔ 2 ^ 64 ≤ w.toNat * base + digit := by
  rw [BitVec.lt_def, toNat_lastSafe hpos hbase hdigit, Nat.div_lt_iff_lt_mul hpos]
  omega

theorem readDigits_cons {before rest : Bytes} {b : UInt8} (hb : isDigitIn base b)
    (hfits : value base (before ++ [b]) < 2 ^ 64) (found : Bool) (consumed : ℕ) :
    readDigits base found (BitVec.ofNat 64 (value base before)) consumed (b :: rest) =
      readDigits base true (BitVec.ofNat 64 (value base (before ++ [b]))) (consumed + 1) rest := by
  obtain ⟨digit, hdigit, hlt⟩ := isDigitIn_iff.mp hb
  rw [value_append_singleton hdigit] at hfits ⊢
  have hword : (BitVec.ofNat 64 (value base before)).toNat = value base before := by
    have hle : value base before ≤ value base before * base := Nat.le_mul_of_pos_right _ hpos
    rw [BitVec.toNat_ofNat, Nat.mod_eq_of_lt (by omega)]
  have hsafe : ¬ lastSafe base digit < BitVec.ofNat 64 (value base before) := by
    rw [lastSafe_lt_iff hpos hbase hlt, hword]
    omega
  rw [readDigits]
  simp only [hdigit, if_neg (Nat.not_le_of_lt hlt), if_neg hsafe]
  rw [BitVec.ofNat_add, BitVec.ofNat_mul]

/-- A digit that makes the number too large ends the reading. -/
theorem readDigits_refuse {before rest : Bytes} {b : UInt8} (hb : isDigitIn base b)
    (hbefore : value base before < 2 ^ 64) (hover : 2 ^ 64 ≤ value base (before ++ [b]))
    (found : Bool) (consumed : ℕ) :
    readDigits base found (BitVec.ofNat 64 (value base before)) consumed (b :: rest) =
      { value := BitVec.allOnes 64, consumed, status := .overflow } := by
  obtain ⟨digit, hdigit, hlt⟩ := isDigitIn_iff.mp hb
  rw [value_append_singleton hdigit] at hover
  have hrefused : lastSafe base digit < BitVec.ofNat 64 (value base before) := by
    rw [lastSafe_lt_iff hpos hbase hlt, BitVec.toNat_ofNat, Nat.mod_eq_of_lt hbefore]
    exact hover
  rw [readDigits]
  simp only [hdigit, if_neg (Nat.not_le_of_lt hlt), if_pos hrefused]

/-- Digits are taken one by one as long as their number fits, those read before counting with
them. -/
theorem readDigits_append (before : Bytes) {run : Bytes} (hrun : ∀ b ∈ run, isDigitIn base b)
    (hfits : value base (before ++ run) < 2 ^ 64) (rest : Bytes) (found : Bool) (consumed : ℕ) :
    readDigits base found (BitVec.ofNat 64 (value base before)) consumed (run ++ rest) =
      readDigits base (found || !run.isEmpty) (BitVec.ofNat 64 (value base (before ++ run)))
        (consumed + run.length) rest := by
  -- Each step takes a digit over from `run` to `before`. The whole number fits, so its beginning
  -- does, and no step refuses its digit.
  induction run generalizing before found consumed with
  | nil => simp
  | cons b run ih =>
      rw [List.append_cons] at hfits ⊢
      have hfirst : value base (before ++ [b]) < 2 ^ 64 :=
        Nat.lt_of_le_of_lt (value_le_append hpos _ run) hfits
      rw [List.cons_append, readDigits_cons hpos hbase (hrun b List.mem_cons_self) hfirst,
        ih _ (fun c hc => hrun c (List.mem_cons_of_mem b hc)) hfits, List.length_cons,
        Nat.add_assoc, Nat.add_comm 1]
      simp

omit hpos hbase in
/-- Behind the last digit the reading is over. -/
theorem readDigits_stop {rest : Bytes} (hstop : ∀ b ∈ rest.head?, isDigitIn base b = false)
    (found : Bool) (w : Word) (consumed : ℕ) :
    readDigits base found w consumed rest =
      if found then { value := w, consumed, status := .success } else .bad := by
  cases rest with
  | nil => rfl
  | cons b rest =>
      have hb := hstop b rfl
      rw [readDigits]
      cases hdigit : digitOf? b with
      | none => rfl
      | some digit =>
          rw [isDigitIn, hdigit, Option.any_some, decide_eq_false_iff_not] at hb
          simp only [if_pos (Nat.le_of_not_lt hb)]
          rfl

/-- A run of digits is read to its end. -/
theorem readDigits_run {run rest : Bytes} (hne : run ≠ []) (hrun : ∀ b ∈ run, isDigitIn base b)
    (hfits : value base run < 2 ^ 64) (hstop : ∀ b ∈ rest.head?, isDigitIn base b = false)
    (consumed : ℕ) :
    readDigits base false 0 consumed (run ++ rest) =
      { value := BitVec.ofNat 64 (value base run), consumed := consumed + run.length,
        status := .success } := by
  have htaken := readDigits_append hpos hbase [] hrun hfits rest false consumed
  have hfound : (false || !run.isEmpty) = true := by simp [hne]
  rw [List.nil_append, hfound, readDigits_stop hstop, if_pos rfl] at htaken
  exact htaken

end Digits

/-! ## The digits of a word -/

/-- Digits of a base that stand for a word. -/
structure Denotes (base : ℕ) (digits : Bytes) (w : Word) : Prop where
  ne_nil : digits ≠ []
  all_digits : ∀ b ∈ digits, isDigitIn base b
  value_eq : value base digits = w.toNat

theorem denotes_numeral {base : ℕ} (hbase : 1 < base) (hle : base ≤ 16) (w : Word) :
    Denotes base (numeral base w.toNat) w :=
  have hnumeral := value_numeral hbase hle w.toNat
  ⟨numeral_ne_nil base w.toNat, hnumeral.2, hnumeral.1⟩

theorem denotes_upperNumeral (w : Word) : Denotes 16 (upperNumeral w.toNat) w :=
  have hnumeral := value_upperNumeral w.toNat
  ⟨upperNumeral_ne_nil w.toNat, hnumeral.2, hnumeral.1⟩

namespace Denotes

variable {base : ℕ} {w : Word} {run rest : Bytes}

/-- Zeros may stand before the digits. -/
theorem replicate_zero_append (h : Denotes base run w) (hbase : 0 < base) (n : ℕ) :
    Denotes base (List.replicate n (ascii '0') ++ run) w where
  ne_nil := List.append_ne_nil_of_right_ne_nil _ h.ne_nil
  all_digits := by
    intro b hb
    rcases List.mem_append.mp hb with hb | hb
    · rw [(List.mem_replicate.mp hb).2]
      exact isDigitIn_iff.mpr ⟨0, rfl, hbase⟩
    · exact h.all_digits b hb
  value_eq := by rw [value_replicate_zero_append, h.value_eq]

theorem isSpace_head (h : Denotes base run w) :
    ∀ b ∈ (run ++ rest).head?, isSpace b = false := by
  intro b hb
  rw [List.head?_append_of_ne_nil _ h.ne_nil] at hb
  exact isSpace_of_isDigitIn (h.all_digits b (List.mem_of_mem_head? hb))

theorem readDigits_eq (h : Denotes base run w) (hpos : 0 < base) (hbase : base ≤ 36)
    (hstop : ∀ b ∈ rest.head?, isDigitIn base b = false) (consumed : ℕ) :
    readDigits base false 0 consumed (run ++ rest) =
      { value := w, consumed := consumed + run.length, status := .success } := by
  have hfits : value base run < 2 ^ 64 := by
    rw [h.value_eq]
    exact w.isLt
  rw [readDigits_run hpos hbase h.ne_nil h.all_digits hfits hstop, h.value_eq, BitVec.ofNat_toNat,
    BitVec.setWidth_eq]

end Denotes

/-! ## Settling the base -/

/-- A marker settles the base to sixteen, where it may. -/
theorem chooseBase_marker {base : ℕ} (hbase : base = 0 ∨ base = 16) (s : Bytes) :
    chooseBase base (textBytes "0x" ++ s) = (16, s) :=
  if_pos ⟨rfl, rfl, hbase⟩

/-- A base that is given is kept, and only `0x` may be passed over. -/
theorem chooseBase_given {base : ℕ} (hbase : base ≠ 0) {s : Bytes}
    (hmarker : base = 16 → ∀ rest, s ≠ textBytes "0x" ++ rest) :
    chooseBase base s = (base, s) := by
  rcases s with _ | ⟨first, _ | ⟨second, rest⟩⟩
  · rw [chooseBase, if_neg hbase]
    simp
  · rw [chooseBase, if_neg hbase]
    simp
  · rw [chooseBase, if_neg, if_neg hbase]
    rintro ⟨rfl, rfl, hsixteen⟩
    exact hmarker (hsixteen.resolve_left hbase) rest rfl

theorem chooseBase_octal {b : UInt8} (hlow : ascii '0' ≤ b) (hhigh : b ≤ ascii '7')
    (rest : Bytes) : chooseBase 0 (ascii '0' :: b :: rest) = (8, ascii '0' :: b :: rest) := by
  have hx : b ≠ ascii 'x' := by
    rintro rfl
    revert hhigh
    decide
  rw [chooseBase, if_neg (by simp [hx]), if_pos rfl]
  simp [hlow, hhigh]

/-- Without a marker of any kind numbers are decimal. -/
theorem chooseBase_decimal {s : Bytes} (hmarker : ∀ rest, s ≠ textBytes "0x" ++ rest)
    (hoctal : ∀ b rest, s = ascii '0' :: b :: rest → ¬ (ascii '0' ≤ b ∧ b ≤ ascii '7')) :
    chooseBase 0 s = (10, s) := by
  rcases s with _ | ⟨first, _ | ⟨second, rest⟩⟩
  · rfl
  · rfl
  · have hx : ¬ (first = ascii '0' ∧ second = ascii 'x' ∧ ((0 : ℕ) = 0 ∨ (0 : ℕ) = 16)) := by
      rintro ⟨rfl, rfl, -⟩
      exact hmarker rest rfl
    have hdigit : ¬ (first = ascii '0' ∧ ascii '0' ≤ second ∧ second ≤ ascii '7') := by
      rintro ⟨rfl, hrange⟩
      exact hoctal second rest rfl hrange
    rw [chooseBase, if_neg hx, if_pos rfl]
    simp only [if_neg hdigit]

/-- Digits of a base that is given are read in it. -/
theorem Denotes.chooseBase_eq {base : ℕ} {w : Word} {run rest : Bytes} (h : Denotes base run w)
    (hbase : base ≠ 0) (hrest : ∀ b ∈ rest.head?, digitOf? b = none) :
    chooseBase base (run ++ rest) = (base, run ++ rest) := by
  apply chooseBase_given hbase
  rintro rfl more htext
  obtain ⟨b, run, rfl⟩ := List.exists_cons_of_ne_nil h.ne_nil
  cases run with
  | nil =>
      have htail : rest = ascii 'x' :: more := (List.cons.inj htext).2
      have hx := hrest (ascii 'x') (by rw [htail]; rfl)
      cases hx
  | cons c run =>
      cases htext
      have hx := h.all_digits (ascii 'x') (List.mem_cons_of_mem _ List.mem_cons_self)
      revert hx
      decide

/-! ## A whole reading -/

/-- **A run of digits is read where it stands.** Blanks and a marker before it are passed over, and
the reading ends where the digits do. -/
theorem read_eq {base radix : ℕ} {blanks lead run rest : Bytes} {w : Word}
    (hblanks : ∀ b ∈ blanks, isSpace b)
    (hfirst : ∀ b ∈ (lead ++ (run ++ rest)).head?, isSpace b = false)
    (hchosen : chooseBase base (lead ++ (run ++ rest)) = (radix, run ++ rest))
    (hpos : 0 < radix) (hradix : radix ≤ 36) (hrun : Denotes radix run w)
    (hstop : ∀ b ∈ rest.head?, isDigitIn radix b = false) :
    read base (blanks ++ (lead ++ (run ++ rest))) =
      { value := w, consumed := blanks.length + (lead.length + run.length), status := .success } := by
  have hskipped : (blanks ++ (lead ++ (run ++ rest))).dropWhile isSpace =
      lead ++ (run ++ rest) := by
    rw [List.dropWhile_append_of_pos hblanks]
    rcases hbody : lead ++ (run ++ rest) with _ | ⟨b, body⟩
    · rfl
    · rw [hbody] at hfirst
      exact List.dropWhile_cons_of_neg (by rw [hfirst b rfl]; exact Bool.false_ne_true)
  have hused : (blanks ++ (lead ++ (run ++ rest))).length - (run ++ rest).length =
      blanks.length + lead.length := by
    simp only [List.length_append]
    omega
  rw [read, hskipped]
  simp only [hchosen, if_neg (Nat.not_lt_of_le hradix), hused]
  rw [hrun.readDigits_eq hpos hradix hstop, Nat.add_assoc]

/-- A text that is nothing but digits, and what settles their base, is read to its end. -/
theorem read_whole {base radix : ℕ} {lead run : Bytes} {w : Word}
    (hfirst : ∀ b ∈ (lead ++ run).head?, isSpace b = false)
    (hchosen : chooseBase base (lead ++ run) = (radix, run)) (hpos : 0 < radix)
    (hradix : radix ≤ 36) (hrun : Denotes radix run w) :
    read base (lead ++ run) =
      { value := w, consumed := (lead ++ run).length, status := .success } := by
  have hread : read base ([] ++ (lead ++ (run ++ []))) = _ :=
    read_eq (by simp) (by simpa using hfirst) (by simpa using hchosen) hpos hradix hrun (by simp)
  simpa using hread

/-- Nothing is passed over between a marker and the digits. -/
theorem read_marker_blank {base : ℕ} (hbase : base = 0 ∨ base = 16) {b : UInt8}
    (hb : isSpace b) (rest : Bytes) : read base (textBytes "0x" ++ b :: rest) = .bad := by
  have hskipped : (textBytes "0x" ++ b :: rest).dropWhile isSpace = textBytes "0x" ++ b :: rest :=
    rfl
  rw [read, hskipped]
  simp only [chooseBase_marker hbase]
  rw [if_neg (by decide), readDigits, digitOf?_of_isSpace hb]
  rfl

end BoundedFormat.Numeral
