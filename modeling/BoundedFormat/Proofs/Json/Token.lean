import BoundedFormat.Json.Printer
import BoundedFormat.Json.Token
import Mathlib.Data.List.TakeWhile

/-!
# Printed tokens are read back

A string is read back character by character, whatever its escapes; an integer of 64 bits is read
back if nothing behind it goes on with a number. Either way the text behind a token is left as it
is. Printed strings and numbers have no control characters.
-/

namespace BoundedFormat.Json

/-! ## Characters that are not control characters -/

/-- A text without control characters. -/
def Printable (s : List Char) : Prop := ∀ c ∈ s, 0x20 ≤ c.toNat

@[simp] theorem printable_nil : Printable [] := fun _ h => by cases h

@[simp] theorem printable_cons {c : Char} {s : List Char} :
    Printable (c :: s) ↔ 0x20 ≤ c.toNat ∧ Printable s := List.forall_mem_cons

@[simp] theorem printable_append {s t : List Char} :
    Printable (s ++ t) ↔ Printable s ∧ Printable t := List.forall_mem_append

theorem printable_replicate {c : Char} (h : 0x20 ≤ c.toNat) (n : ℕ) :
    Printable (List.replicate n c) := by
  intro b hb
  rwa [List.eq_of_mem_replicate hb]

theorem le_toNat_of_isDigit {c : Char} (h : c.isDigit) : 0x20 ≤ c.toNat := by
  simp [Char.isDigit, UInt32.le_iff_toNat_le] at h
  exact Nat.le_trans (by decide) h.1

theorem Printable.of_digits {s : List Char} (h : ∀ c ∈ s, c.isDigit) : Printable s :=
  fun c hc => le_toNat_of_isDigit (h c hc)

/-! ## Strings -/

theorem shortEscape?_eq_some {c letter : Char} (h : shortEscape? c = some letter) :
    unescape? letter = some c ∧ letter ≠ 'u' ∧ 0x20 ≤ letter.toNat := by
  unfold shortEscape? at h
  split at h
  · subst c; cases h; decide
  · split at h
    · subst c; cases h; decide
    · split at h
      · subst c; cases h; decide
      · split at h
        · subst c; cases h; decide
        · split at h
          · subst c; cases h; decide
          · cases h

theorem readCodePoint?_control {n : ℕ} (h : n < 0x20) (rest : List Char) :
    readCodePoint? ('0' :: '0' :: hexChar (n / 16) :: hexChar (n % 16) :: rest) =
      some (Char.ofNat n, rest) := by
  have hunit : hexUnit? '0' '0' (hexChar (n / 16)) (hexChar (n % 16)) = some n := by
    revert n
    decide
  have hhigh : isHighSurrogate n = false := by
    simp only [isHighSurrogate, Bool.and_eq_false_iff, decide_eq_false_iff_not]
    omega
  have hlow : isLowSurrogate n = false := by
    simp only [isLowSurrogate, Bool.and_eq_false_iff, decide_eq_false_iff_not]
    omega
  simp [readCodePoint?, readUnit?, hunit, hhigh, hlow]

/-- A character stands for itself, or behind a backslash for what is read there. -/
theorem escapeChar_cases (c : Char) :
    (escapeChar c = [c] ∧ c ≠ '"' ∧ c ≠ '\\' ∧ 0x20 ≤ c.toNat) ∨
    ∃ body, escapeChar c = '\\' :: body ∧ Printable body ∧
      ∀ rest, readEscape? (body ++ rest) = some (c, rest) := by
  unfold escapeChar
  by_cases hmark : c = '"' ∨ c = '\\'
  · rw [if_pos hmark]
    refine .inr ⟨[c], rfl, ?_, ?_⟩
    · rcases hmark with rfl | rfl <;> simp
    · intro rest
      rcases hmark with rfl | rfl <;> rfl
  · rw [if_neg hmark]
    cases hshort : shortEscape? c with
    | some letter =>
        obtain ⟨hletter, hu, hprintable⟩ := shortEscape?_eq_some hshort
        refine .inr ⟨[letter], rfl, by simpa using hprintable, ?_⟩
        intro rest
        rw [List.singleton_append, readEscape?, if_neg hu, hletter, Option.map_some]
    | none =>
        by_cases hcontrol : c.toNat < 0x20
        · refine .inr ⟨['u', '0', '0', hexChar (c.toNat / 16), hexChar (c.toNat % 16)], ?_, ?_, ?_⟩
          · exact if_pos hcontrol
          · have hdigit : ∀ n < 16, 0x20 ≤ (hexChar n).toNat := by decide
            simp [hdigit (c.toNat / 16) (by omega), hdigit (c.toNat % 16) (by omega)]
          · intro rest
            exact (readCodePoint?_control hcontrol rest).trans (by rw [Char.ofNat_toNat])
        · rw [not_or] at hmark
          exact .inl ⟨if_neg hcontrol, hmark.1, hmark.2, by omega⟩

theorem printable_escapeChar (c : Char) : Printable (escapeChar c) := by
  rcases escapeChar_cases c with ⟨hself, -, -, hprintable⟩ | ⟨body, hbody, hprintable, -⟩
  · simpa [hself] using hprintable
  · simpa [hbody] using hprintable

theorem printable_stringChars (s : String) : Printable (stringChars s) := by
  have hbody : Printable (s.toList.flatMap escapeChar) := by
    intro c hc
    obtain ⟨b, -, hb⟩ := List.mem_flatMap.mp hc
    exact printable_escapeChar b c hb
  simpa [stringChars] using hbody

theorem readString?_escapeChar (done : List Char) (c : Char) (rest : List Char) :
    readString? done (escapeChar c ++ rest) = readString? (c :: done) rest := by
  rcases escapeChar_cases c with ⟨hself, hquote, hslash, hprintable⟩ | ⟨body, hbody, -, hread⟩
  · rw [hself, List.singleton_append, readString?, if_neg hquote, if_neg hslash,
      if_neg (Nat.not_lt_of_le hprintable)]
  · rw [hbody, List.cons_append, readString?, if_neg (by decide), if_pos rfl]
    split
    · next h => exact absurd ((hread rest).symm.trans h) (by simp)
    · next char tail h =>
        cases (hread rest).symm.trans h
        rfl

theorem readString?_flatMap_escapeChar (done text rest : List Char) :
    readString? done (text.flatMap escapeChar ++ '"' :: rest) =
      some (String.ofList (done.reverse ++ text), rest) := by
  induction text generalizing done with
  | nil => rw [List.flatMap_nil, List.nil_append, readString?, if_pos rfl, List.append_nil]
  | cons c text ih =>
      rw [List.flatMap_cons, List.append_assoc, readString?_escapeChar, ih, List.reverse_cons,
        List.append_assoc, List.singleton_append]

/-- A printed string is read back. -/
theorem read?_stringChars (s : String) (rest : List Char) :
    Token.read? (stringChars s ++ rest) = some (.string s, rest) := by
  have hread := readString?_flatMap_escapeChar [] s.toList rest
  rw [List.reverse_nil, List.nil_append, String.ofList_toList] at hread
  simp [stringChars, Token.read?, hread]

/-! ## Integers -/

theorem isDigit_of_mem_naturalChars {n : ℕ} : ∀ c ∈ naturalChars n, c.isDigit :=
  fun _ hc => Nat.isDigit_of_mem_toDigits (by decide) (by decide) hc

theorem printable_integerChars (i : Int) : Printable (integerChars i) := by
  have hdigits := Printable.of_digits (isDigit_of_mem_naturalChars (n := i.natAbs))
  unfold integerChars
  split
  · simpa using hdigits
  · exact hdigits

theorem naturalChars_ne_nil (n : ℕ) : naturalChars n ≠ [] := Nat.toDigits_ne_nil

/-- A numeral does not begin with a zero, unless it is one. -/
theorem head?_naturalChars {n : ℕ} (h : 0 < n) : (naturalChars n).head? ≠ some '0' := by
  induction n using Nat.strongRecOn with
  | ind n ih =>
      rw [naturalChars, Nat.toDigits_eq_if (by decide)]
      split
      · next hsmall =>
          have hdigit : ∀ d < 10, 0 < d → [Nat.digitChar d].head? ≠ some '0' := by decide
          exact hdigit n hsmall h
      · next hlarge =>
          have hfront := ih (n / 10) (by omega) (by omega)
          rw [← naturalChars]
          cases hdigits : naturalChars (n / 10) with
          | nil => exact absurd hdigits (naturalChars_ne_nil _)
          | cons c digits => rwa [hdigits] at hfront

/-- Nothing that goes on with a number follows. -/
def EndsNumber (rest : List Char) : Prop :=
  ∀ c ∈ rest.head?, c.isDigit = false ∧ c ≠ '.' ∧ c ≠ 'e' ∧ c ≠ 'E'

variable {rest : List Char}

theorem readDigits?_append {digits : List Char} (hne : digits ≠ [])
    (hdigits : ∀ c ∈ digits, c.isDigit) (hrest : EndsNumber rest) :
    readDigits? (digits ++ rest) = some (digits, rest) := by
  have hstop : rest.takeWhile Char.isDigit = [] ∧ rest.dropWhile Char.isDigit = rest := by
    cases rest with
    | nil => exact ⟨rfl, rfl⟩
    | cons c rest => simp [(hrest c rfl).1]
  rw [readDigits?, List.takeWhile_append_of_pos hdigits, List.dropWhile_append_of_pos hdigits,
    hstop.1, hstop.2, List.append_nil]
  cases digits with
  | nil => exact absurd rfl hne
  | cons digit digits => rfl

theorem readWhole?_naturalChars (n : ℕ) (hrest : EndsNumber rest) :
    readWhole? (naturalChars n ++ rest) = some (naturalChars n, rest) := by
  rw [readWhole?, readDigits?_append (naturalChars_ne_nil n) isDigit_of_mem_naturalChars hrest]
  split
  · next hzero =>
      have hdigits := (Prod.mk.inj (Option.some.inj hzero)).1
      cases n with
      | zero => simp [naturalChars] at hdigits
      | succ n => exact absurd (congrArg List.head? hdigits) (head?_naturalChars (Nat.succ_pos n))
  · next h => cases h
  · next h => exact h.symm

theorem readFraction?_endsNumber (hrest : EndsNumber rest) :
    readFraction? rest = some (none, rest) := by
  unfold readFraction?
  split
  · exact absurd rfl (hrest _ rfl).2.1
  · rfl

theorem readExponent?_endsNumber (hrest : EndsNumber rest) :
    readExponent? rest = some (none, rest) := by
  cases rest with
  | nil => rfl
  | cons c rest =>
      obtain ⟨-, -, he, hE⟩ := hrest c rfl
      exact if_neg (not_or_intro he hE)

theorem le_ofDigitChars (digits : List Char) (value : ℕ) :
    value ≤ Nat.ofDigitChars 10 digits value := by
  induction digits generalizing value with
  | nil => simp
  | cons c digits ih =>
      rw [Nat.ofDigitChars_cons]
      exact Nat.le_trans (by omega) (ih _)

/-- Digits of a value that 64 bits hold are all taken. -/
theorem takeDigits_eq (digits : List Char) {value : ℕ} (taken : ℕ)
    (h : Nat.ofDigitChars 10 digits value ≤ maxSignificand) :
    takeDigits value taken digits =
      (Nat.ofDigitChars 10 digits value, taken + digits.length) := by
  induction digits generalizing value taken with
  | nil => simp [takeDigits]
  | cons c digits ih =>
      rw [Nat.ofDigitChars_cons, Nat.mul_comm] at h ⊢
      have hnext := Nat.le_trans (le_ofDigitChars digits _) h
      simp only [takeDigits]
      rw [if_neg (Nat.not_lt_of_le hnext), ih _ h, List.length_cons, Nat.add_assoc, Nat.add_comm 1]

/-- The integers that a number keeps as they are. -/
def InRange (i : Int) : Prop := -(maxNegative : Int) ≤ i ∧ i ≤ maxSignificand

theorem value?_naturalChars {n : ℕ} (h : n ≤ maxSignificand) (negative : Bool) :
    NumberText.value? { negative, whole := naturalChars n, fraction := none, exponent := none } =
      integerOfParts? negative n := by
  have hvalue : Nat.ofDigitChars 10 (naturalChars n) 0 = n := Nat.ofDigitChars_ten_toDigits
  have htaken := takeDigits_eq (naturalChars n) 0 (by rwa [hvalue])
  rw [NumberText.value?, htaken, hvalue]
  simp

/-- A numeral is read behind its sign. -/
theorem readNumber?_of_sign {n : ℕ} (h : n ≤ maxSignificand) (hrest : EndsNumber rest)
    {s : List Char} {negative : Bool} (hsign : readSign s = (negative, naturalChars n ++ rest)) :
    readNumber? s = (integerOfParts? negative n).map fun value => (value, rest) := by
  rw [readNumber?, hsign]
  simp only [readWhole?_naturalChars n hrest, readFraction?_endsNumber hrest,
    readExponent?_endsNumber hrest, value?_naturalChars h]

/-- A printed integer is read back. -/
theorem readNumber?_integerChars {i : Int} (h : InRange i) (hrest : EndsNumber rest) :
    readNumber? (integerChars i ++ rest) = some (.integer i, rest) := by
  have hroom : maxNegative ≤ maxSignificand := by decide
  obtain ⟨hlow, hhigh⟩ := h
  by_cases hnegative : i < 0
  · have hsign : readSign (integerChars i ++ rest) = (true, naturalChars i.natAbs ++ rest) := by
      rw [integerChars, if_pos hnegative]
      rfl
    rw [readNumber?_of_sign (by omega) hrest hsign, integerOfParts?, if_pos rfl,
      if_neg (by omega), Option.map_some]
    congr
    omega
  · have hsign : readSign (integerChars i ++ rest) = (false, naturalChars i.natAbs ++ rest) := by
      rw [integerChars, if_neg hnegative]
      obtain ⟨c, digits, hdigits⟩ := List.exists_cons_of_ne_nil (naturalChars_ne_nil i.natAbs)
      have hc : c.isDigit := isDigit_of_mem_naturalChars c (by rw [hdigits]; simp)
      rw [hdigits]
      unfold readSign
      split
      · next heq =>
          cases heq
          cases hc
      · rfl
    rw [readNumber?_of_sign (by omega) hrest hsign, integerOfParts?, if_neg (by decide),
      Option.map_some]
    congr
    omega

/-- A text that begins like a number is read as one. -/
theorem read?_of_number {c : Char} (h : c = '-' ∨ c.isDigit) (s : List Char) :
    Token.read? (c :: s) =
      (readNumber? (c :: s)).map fun (value, rest) => (.number value, rest) := by
  unfold Token.read?
  split
  case h_11 => rfl
  all_goals
    next heq =>
      cases heq
      exact absurd h (by decide)

theorem isBlank_of_isDigit {c : Char} (h : c.isDigit) : isBlank c = false := by
  simp only [isBlank, Bool.or_eq_false_iff, beq_eq_false_iff_ne]
  refine ⟨⟨⟨?_, ?_⟩, ?_⟩, ?_⟩ <;> rintro rfl <;> cases h

theorem integerChars_cons (i : Int) :
    ∃ c s, integerChars i = c :: s ∧ (c = '-' ∨ c.isDigit) := by
  rw [integerChars]
  split
  · exact ⟨_, _, rfl, .inl rfl⟩
  · obtain ⟨c, s, hdigits⟩ := List.exists_cons_of_ne_nil (naturalChars_ne_nil i.natAbs)
    refine ⟨c, s, hdigits, .inr (isDigit_of_mem_naturalChars (n := i.natAbs) c ?_)⟩
    rw [hdigits]
    exact List.mem_cons_self

/-- A printed integer is read back as a token. -/
theorem read?_integerChars {i : Int} (h : InRange i) (hrest : EndsNumber rest) :
    Token.read? (integerChars i ++ rest) = some (.number (.integer i), rest) := by
  have hread := readNumber?_integerChars h hrest
  obtain ⟨c, s, hchars, hhead⟩ := integerChars_cons i
  rw [hchars, List.cons_append] at hread ⊢
  rw [read?_of_number hhead, hread, Option.map_some]

end BoundedFormat.Json
