import BoundedFormat.Json.Basic

/-!
# The tokens of JSON

`Token.read?` takes one token off the front of a text. An integer that 64 bits hold stays an
integer; any other number becomes the float that its first nineteen or twenty digits give, scaled
by a power of ten, and is refused if that is infinite.
-/

namespace BoundedFormat.Json

/-- A token. -/
inductive Token
  | openArray
  | closeArray
  | openObject
  | closeObject
  | comma
  | colon
  | null
  | bool (value : Bool)
  | number (value : Number)
  | string (text : String)
deriving DecidableEq, Repr

/-- Blanks between tokens. -/
def isBlank (c : Char) : Bool := c == ' ' || c == '\n' || c == '\t' || c == '\r'

/-! ### Numbers -/

/-- The largest integer that a number can hold. -/
def maxSignificand : Nat := 0xffffffffffffffff

/-- Appends digits to `value` for as long as it stays within 64 bits; gives also how many were
taken. -/
def takeDigits (value taken : Nat) : List Char → Nat × Nat
  | [] => (value, taken)
  | c :: rest =>
    let next := value * 10 + (c.toNat - '0'.toNat)
    if maxSignificand < next then (value, taken) else takeDigits next (taken + 1) rest

/-- The largest power of ten that is a float. -/
def maxPower : Nat := 308

/-- A power of ten as a float. -/
def powerOfTen (n : Nat) : Float := Float.ofScientific 1 false n

/-- Scales a float by a power of ten, in steps that are floats; none if it becomes infinite. -/
def scaleByTen (f : Float) (exponent : Int) : Option Float :=
  if exponent.natAbs ≤ maxPower then
    if 0 ≤ exponent then
      let scaled := f * powerOfTen exponent.natAbs
      if scaled.isInf then none else some scaled
    else some (f / powerOfTen exponent.natAbs)
  else if f == 0 then some f
  else if 0 ≤ exponent then none
  else scaleByTen (f / powerOfTen maxPower) (exponent + maxPower)
termination_by exponent.natAbs
decreasing_by simp only [maxPower] at *; omega

/-- The float with a sign, a significand and a decimal exponent. -/
def floatOfParts? (negative : Bool) (significand : Nat) (exponent : Int) : Option Number :=
  (scaleByTen (UInt64.ofNat significand).toFloat exponent).map fun f =>
    .float (if negative then -f else f).toBits

/-- The parts of a number: its sign, the digits before and after the point, and the exponent. -/
structure NumberText where
  negative : Bool
  whole : List Char
  fraction : Option (List Char)
  exponent : Option Int
deriving DecidableEq, Repr

/-- The largest magnitude of an integer below zero. -/
def maxNegative : Nat := 0x8000000000000000

/-- The integer of a sign and a magnitude; minus zero and what leaves 64 bits are floats. -/
def integerOfParts? (negative : Bool) (magnitude : Nat) : Option Number :=
  if negative then
    if magnitude = 0 ∨ maxNegative < magnitude then floatOfParts? true magnitude 0
    else some (.integer (-magnitude))
  else some (.integer magnitude)

/-- The value of a number; none if it is out of range. Digits that 64 bits have no room for only
count towards the exponent, and only before the point. -/
def NumberText.value? (t : NumberText) : Option Number :=
  let (significand, taken) := takeDigits 0 0 t.whole
  let dropped := t.whole.length - taken
  match t.fraction, t.exponent with
  | none, none =>
    if dropped = 0 then integerOfParts? t.negative significand
    else floatOfParts? t.negative significand dropped
  | fraction, exponent =>
    let (significand, places) := takeDigits significand 0 (fraction.getD [])
    floatOfParts? t.negative significand (dropped - places + exponent.getD 0)

/-- Takes a run of digits, not empty, off the front. -/
def readDigits? (s : List Char) : Option (List Char × List Char) :=
  match s.takeWhile Char.isDigit with
  | [] => none
  | digit :: digits => some (digit :: digits, s.dropWhile Char.isDigit)

/-- Takes a minus sign off the front, if there is one. -/
def readSign : List Char → Bool × List Char
  | '-' :: rest => (true, rest)
  | s => (false, s)

/-- Reads the digits before the point: a zero alone, or digits that do not begin with one. -/
def readWhole? (s : List Char) : Option (List Char × List Char) :=
  match readDigits? s with
  | some ('0' :: _ :: _, _) | none => none
  | some read => some read

/-- Reads a fraction, which may be missing. -/
def readFraction? : List Char → Option (Option (List Char) × List Char)
  | '.' :: rest => (readDigits? rest).map fun (digits, rest) => (some digits, rest)
  | s => some (none, s)

/-- Reads the sign of an exponent, which may be missing. -/
def readExponentSign : List Char → Bool × List Char
  | '+' :: rest => (false, rest)
  | s => readSign s

/-- Reads an exponent, which may be missing. -/
def readExponent? : List Char → Option (Option Int × List Char)
  | [] => some (none, [])
  | c :: rest =>
    if c = 'e' ∨ c = 'E' then
      let (negative, rest) := readExponentSign rest
      (readDigits? rest).map fun (digits, rest) =>
        let magnitude : Int := Nat.ofDigitChars 10 digits 0
        (some (if negative then -magnitude else magnitude), rest)
    else some (none, c :: rest)

/-- Reads a number. -/
def readNumber? (s : List Char) : Option (Number × List Char) :=
  let (negative, s) := readSign s
  match readWhole? s with
  | none => none
  | some (whole, s) =>
    match readFraction? s with
    | none => none
    | some (fraction, s) =>
      match readExponent? s with
      | none => none
      | some (exponent, s) =>
        (NumberText.value? { negative, whole, fraction, exponent }).map fun value => (value, s)

theorem length_of_readDigits? {s rest digits : List Char}
    (h : readDigits? s = some (digits, rest)) : rest.length < s.length := by
  unfold readDigits? at h
  split at h
  · cases h
  · next digit more run =>
    have whole := congrArg List.length (s.takeWhile_append_dropWhile (p := Char.isDigit))
    rw [← (Prod.mk.inj (Option.some.inj h)).2]
    simp only [run, List.length_append, List.length_cons] at whole
    omega

theorem length_readSign_le (s : List Char) : (readSign s).2.length ≤ s.length := by
  unfold readSign
  split <;> simp

theorem length_readExponentSign_le (s : List Char) :
    (readExponentSign s).2.length ≤ s.length := by
  unfold readExponentSign
  split
  · simp
  · exact length_readSign_le s

theorem length_of_readWhole? {s rest digits : List Char}
    (h : readWhole? s = some (digits, rest)) : rest.length < s.length := by
  unfold readWhole? at h
  split at h
  · cases h
  · cases h
  · next read hr => exact length_of_readDigits? (hr.trans h)

theorem length_of_readFraction? {s rest : List Char} {fraction : Option (List Char)}
    (h : readFraction? s = some (fraction, rest)) : rest.length ≤ s.length := by
  unfold readFraction? at h
  split at h
  · obtain ⟨read, hr, he⟩ := Option.map_eq_some_iff.1 h
    have := length_of_readDigits? hr
    rw [← (Prod.mk.inj he).2, List.length_cons]
    omega
  · exact Nat.le_of_eq (congrArg List.length (Prod.mk.inj (Option.some.inj h)).2.symm)

theorem length_of_readExponent? {s rest : List Char} {exponent : Option Int}
    (h : readExponent? s = some (exponent, rest)) : rest.length ≤ s.length := by
  cases s with
  | nil => exact Nat.le_of_eq (congrArg List.length (Prod.mk.inj (Option.some.inj h)).2.symm)
  | cons c tail =>
    simp only [readExponent?] at h
    split at h
    · obtain ⟨read, hr, he⟩ := Option.map_eq_some_iff.1 h
      have digits := length_of_readDigits? hr
      have sign := length_readExponentSign_le tail
      rw [← (Prod.mk.inj he).2, List.length_cons]
      omega
    · exact Nat.le_of_eq (congrArg List.length (Prod.mk.inj (Option.some.inj h)).2.symm)

/-- Every number uses up at least one digit. -/
theorem length_of_readNumber? {s rest : List Char} {value : Number}
    (h : readNumber? s = some (value, rest)) : rest.length < s.length := by
  have sign := length_readSign_le s
  simp only [readNumber?] at h
  split at h
  · cases h
  · next whole afterWhole hw =>
    have := length_of_readWhole? hw
    split at h
    · cases h
    · next fraction afterFraction hf =>
      have := length_of_readFraction? hf
      split at h
      · cases h
      · next exponent afterExponent hx =>
        have := length_of_readExponent? hx
        obtain ⟨_, _, he⟩ := Option.map_eq_some_iff.1 h
        rw [← (Prod.mk.inj he).2]
        omega

/-! ### Strings -/

/-- The value of a hexadecimal digit in either case. -/
def hexDigit? (c : Char) : Option Nat :=
  if c.isDigit then some (c.toNat - '0'.toNat)
  else if 'a' ≤ c ∧ c ≤ 'f' then some (c.toNat - 'a'.toNat + 10)
  else if 'A' ≤ c ∧ c ≤ 'F' then some (c.toNat - 'A'.toNat + 10)
  else none

/-- The value of four hexadecimal digits. -/
def hexUnit? (a b c d : Char) : Option Nat := do
  return (((← hexDigit? a) * 16 + (← hexDigit? b)) * 16 + (← hexDigit? c)) * 16 + (← hexDigit? d)

/-- True of the first half of a surrogate pair. -/
def isHighSurrogate (unit : Nat) : Bool := 0xd800 ≤ unit && unit ≤ 0xdbff

/-- True of the second half of a surrogate pair. -/
def isLowSurrogate (unit : Nat) : Bool := 0xdc00 ≤ unit && unit ≤ 0xdfff

/-- The code point of a surrogate pair. -/
def pairValue (high low : Nat) : Nat := 0x10000 + (high - 0xd800) * 0x400 + (low - 0xdc00)

/-- The character that a single letter behind a backslash stands for. -/
def unescape? (letter : Char) : Option Char :=
  if letter = '"' ∨ letter = '\\' ∨ letter = '/' then some letter
  else if letter = 'b' then some '\x08'
  else if letter = 'f' then some '\x0c'
  else if letter = 'n' then some '\n'
  else if letter = 'r' then some '\r'
  else if letter = 't' then some '\t'
  else none

/-- Reads the four digits of an escaped unit. -/
def readUnit? : List Char → Option (Nat × List Char)
  | a :: b :: c :: d :: rest => (hexUnit? a b c d).map fun unit => (unit, rest)
  | _ => none

/-- Reads an escaped code point behind its `u`. A surrogate stands only in a pair. -/
def readCodePoint? (s : List Char) : Option (Char × List Char) :=
  match readUnit? s with
  | none => none
  | some (unit, rest) =>
    if isHighSurrogate unit then
      match rest with
      | '\\' :: 'u' :: rest =>
        match readUnit? rest with
        | none => none
        | some (low, rest) =>
          if isLowSurrogate low then some (Char.ofNat (pairValue unit low), rest) else none
      | _ => none
    else if isLowSurrogate unit then none
    else some (Char.ofNat unit, rest)

/-- Reads an escape behind its backslash. -/
def readEscape? : List Char → Option (Char × List Char)
  | [] => none
  | letter :: rest =>
    if letter = 'u' then readCodePoint? rest
    else (unescape? letter).map fun char => (char, rest)

theorem length_of_readUnit? {s rest : List Char} {unit : Nat}
    (h : readUnit? s = some (unit, rest)) : rest.length < s.length := by
  unfold readUnit? at h
  split at h
  · obtain ⟨_, _, hr⟩ := Option.map_eq_some_iff.1 h
    simp only [← (Prod.mk.inj hr).2, List.length_cons]; omega
  · cases h

theorem length_of_readCodePoint? {s rest : List Char} {c : Char}
    (h : readCodePoint? s = some (c, rest)) : rest.length < s.length := by
  unfold readCodePoint? at h
  split at h
  · cases h
  · next unit tail hu =>
    have first := length_of_readUnit? hu
    split at h
    · split at h
      · next after =>
        split at h
        · cases h
        · next low final hl =>
          have second := length_of_readUnit? hl
          split at h
          · simp only [← (Prod.mk.inj (Option.some.inj h)).2, List.length_cons] at first ⊢
            omega
          · cases h
      · cases h
    · split at h
      · cases h
      · simpa only [← (Prod.mk.inj (Option.some.inj h)).2] using first

theorem length_of_readEscape? {s rest : List Char} {c : Char}
    (h : readEscape? s = some (c, rest)) : rest.length < s.length := by
  cases s with
  | nil => cases h
  | cons letter tail =>
    simp only [readEscape?] at h
    split at h
    · exact Nat.lt_succ_of_lt (length_of_readCodePoint? h)
    · obtain ⟨_, _, hr⟩ := Option.map_eq_some_iff.1 h
      simp only [← (Prod.mk.inj hr).2, List.length_cons]; omega

/-- Reads the rest of a string behind its opening quote; `done` holds the characters read so far,
the last of them first. Control characters must be escaped. -/
def readString? (done : List Char) : List Char → Option (String × List Char)
  | [] => none
  | c :: rest =>
    if c = '"' then some (String.ofList done.reverse, rest)
    else if c = '\\' then
      match _h : readEscape? rest with
      | none => none
      | some (char, tail) => readString? (char :: done) tail
    else if c.toNat < 0x20 then none
    else readString? (c :: done) rest
termination_by s => s.length
decreasing_by
  · exact Nat.lt_succ_of_lt (length_of_readEscape? _h)
  · exact Nat.lt_succ_self _

theorem length_of_readString? {done s rest : List Char} {text : String}
    (h : readString? done s = some (text, rest)) : rest.length < s.length := by
  fun_induction readString? done s with
  | case1 => cases h
  | case2 => simp only [← (Prod.mk.inj (Option.some.inj h)).2, List.length_cons]; omega
  | case3 => cases h
  | case4 done tail char after escape _ ih =>
    have := length_of_readEscape? escape
    have := ih h
    simp only [List.length_cons]; omega
  | case5 => cases h
  | case6 done c tail _ _ _ ih => exact Nat.lt_succ_of_lt (ih h)

/-! ### Tokens -/

/-- Takes one token off the front; blanks are not skipped. -/
def Token.read? : List Char → Option (Token × List Char)
  | '[' :: rest => some (.openArray, rest)
  | ']' :: rest => some (.closeArray, rest)
  | '\x7b' :: rest => some (.openObject, rest)
  | '\x7d' :: rest => some (.closeObject, rest)
  | ',' :: rest => some (.comma, rest)
  | ':' :: rest => some (.colon, rest)
  | 'n' :: 'u' :: 'l' :: 'l' :: rest => some (.null, rest)
  | 't' :: 'r' :: 'u' :: 'e' :: rest => some (.bool true, rest)
  | 'f' :: 'a' :: 'l' :: 's' :: 'e' :: rest => some (.bool false, rest)
  | '"' :: rest => (readString? [] rest).map fun (text, rest) => (.string text, rest)
  | s => (readNumber? s).map fun (value, rest) => (.number value, rest)

theorem Token.length_of_read? {s rest : List Char} {token : Token}
    (h : Token.read? s = some (token, rest)) : rest.length < s.length := by
  unfold Token.read? at h
  split at h
  case h_10 =>
    obtain ⟨read, hr, he⟩ := Option.map_eq_some_iff.1 h
    have := length_of_readString? hr
    rw [← (Prod.mk.inj he).2, List.length_cons]
    omega
  case h_11 =>
    obtain ⟨read, hr, he⟩ := Option.map_eq_some_iff.1 h
    rw [← (Prod.mk.inj he).2]
    exact length_of_readNumber? hr
  all_goals
    rw [← (Prod.mk.inj (Option.some.inj h)).2]
    simp only [List.length_cons]
    omega

end BoundedFormat.Json
