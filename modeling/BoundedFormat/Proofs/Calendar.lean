import BoundedFormat.Proofs.Extent
import BoundedFormat.Proofs.Gregorian
import Mathlib.Tactic.IntervalCases

/-!
# The date of a day

The computation counts years and months from March, so that a leap day is the last of its year. The
beginnings of these years and months are compared with the ordinals of the calendar, and the year
and the month of a day are shown to be those that it falls in. The main statement is that the date
of a day is valid and has as many days before it as the first of January 1970 and the day together,
that the dates of two days in a row follow each other, and that no operation on 64-bit words on the
way wraps. `Date.ofDays?` is the computation with operations that refuse to.
-/

namespace BoundedFormat.Calendar

open Numeral (add? sub? mul?)

/-! ## Years that begin in March -/

/-- Days before the first of March of a year. -/
def marchStart (year : ℕ) : ℕ := yearStart year + monthStart year 3

/-- From March on, the months have the lengths that the formula for their beginnings has. -/
theorem monthLength_eq {march : ℕ} (h : march ≤ 9) (year : ℕ) :
    monthLength year (march + 3) = daysBeforeMonth (march + 1) - daysBeforeMonth march := by
  interval_cases march <;> rfl

theorem monthStart_eq {march : ℕ} (h : march ≤ 10) (year : ℕ) :
    monthStart year (march + 3) = monthStart year 3 + daysBeforeMonth march := by
  induction march with
  | zero => rfl
  | succ march ih =>
      have hmarch : march ≤ 9 := Nat.le_of_succ_le_succ h
      have hmono : daysBeforeMonth march ≤ daysBeforeMonth (march + 1) := by
        simp only [daysBeforeMonth]
        omega
      rw [Nat.add_right_comm, monthStart_succ (by omega), ih (by omega), monthLength_eq hmarch]
      omega

theorem yearStart_succ_eq (year : ℕ) :
    yearStart (year + 1) = marchStart year + daysBeforeMonth 10 := by
  rw [yearStart_succ, monthStart_eq (Nat.le_refl 10), marchStart, Nat.add_assoc]

theorem marchStart_eq (year : ℕ) :
    marchStart year = 365 * year + year / 4 - year / 100 + year / 400 + 60 := by
  induction year with
  | zero => decide
  | succ year ih =>
      have hten : daysBeforeMonth 10 = 306 := rfl
      rw [marchStart, yearStart_succ_eq, monthStart_march, leapDays, ih, hten]
      split_ifs with hleap <;> rw [IsLeapYear] at hleap <;> omega

theorem marchStart_era (era : ℕ) {year : ℕ} (h : year < 400) :
    marchStart (year + era * 400) = era * eraDays + daysBeforeYear year + 60 := by
  rw [marchStart_eq, eraDays, daysBeforeYear]
  omega

theorem leapDays_era (era year : ℕ) : leapDays (year + era * 400) = leapDays year := by
  have hiff : IsLeapYear (year + era * 400) ↔ IsLeapYear year := by
    simp only [IsLeapYear]
    omega
  simp only [leapDays, hiff]

/-- The date of a day of a month of a year, if the year and the months are counted from March. -/
def Date.ofMarch (year march day : ℕ) : Date :=
  let month := if march < 10 then march + 3 else march - 9
  { year := year + (if month ≤ 2 then 1 else 0), month, day := day + 1 }

section March

variable {year march day : ℕ}

theorem Date.ofMarch_of_lt (h : march < 10) :
    Date.ofMarch year march day = { year, month := march + 3, day := day + 1 } := by
  have hlate : ¬ march + 3 ≤ 2 := by omega
  simp only [Date.ofMarch, if_pos h, if_neg hlate, Nat.add_zero]

theorem Date.ofMarch_of_ge (h : 10 ≤ march) (hmarch : march ≤ 11) :
    Date.ofMarch year march day = { year := year + 1, month := march - 9, day := day + 1 } := by
  have hearly : march - 9 ≤ 2 := by omega
  simp only [Date.ofMarch, if_neg (Nat.not_lt.mpr h), if_pos hearly]

/-- A month reaches to the next month, and the last one to the end of the year. -/
theorem Date.isValid_ofMarch (hmarch : march ≤ 11)
    (hmonth : daysBeforeMonth march + day < daysBeforeMonth (march + 1))
    (hyear : daysBeforeMonth march + day < 365 + leapDays (year + 1)) :
    (Date.ofMarch year march day).IsValid := by
  by_cases h : march < 10
  · have hlength := monthLength_eq (Nat.le_of_lt_succ h) year
    rw [Date.ofMarch_of_lt h]
    exact ⟨Nat.le_add_left _ _, by dsimp only; omega, Nat.le_add_left _ _, by dsimp only; omega⟩
  · rw [Date.ofMarch_of_ge (by omega) hmarch]
    refine ⟨by dsimp only; omega, by dsimp only; omega, Nat.le_add_left _ _, ?_⟩
    -- January ends where the formula says, February with the year.
    obtain rfl | rfl : march = 10 ∨ march = 11 := by omega
    · simp only [daysBeforeMonth] at hmonth
      simp only [Nat.reduceSub, monthLength]
      omega
    · simp only [daysBeforeMonth] at hyear
      simp only [Nat.reduceSub, monthLength]
      omega

theorem Date.ordinal_ofMarch (hmarch : march ≤ 11) :
    (Date.ofMarch year march day).ordinal = marchStart year + daysBeforeMonth march + day := by
  by_cases h : march < 10
  · rw [Date.ofMarch_of_lt h, Date.ordinal, monthStart_eq (by omega), marchStart]
    dsimp only
    omega
  · rw [Date.ofMarch_of_ge (by omega) hmarch, Date.ordinal, yearStart_succ_eq]
    obtain rfl | rfl : march = 10 ∨ march = 11 := by omega
    · simp only [Nat.reduceSub, monthStart_january]
      omega
    · simp only [Nat.reduceSub, monthStart_february, daysBeforeMonth]
      omega

end March

/-! ## The year and the month of a day -/

/-- Days fall into cycles of one length, of which the last may be a day longer. -/
theorem exists_cycle {count : ℕ} (hcount : 0 < count) (length : ℕ) {day : ℕ}
    (h : day ≤ length * count) :
    ∃ k r, day = length * k + r ∧ k < count ∧ (r < length ∨ r = length ∧ k + 1 = count) := by
  by_cases hlast : day = length * count
  · obtain ⟨k, rfl⟩ := Nat.exists_eq_add_one_of_ne_zero hcount.ne'
    exact ⟨k, length, hlast, Nat.lt_succ_self k, .inr ⟨rfl, rfl⟩⟩
  · have hlt : day < length * count := Nat.lt_of_le_of_ne h hlast
    have hpos : 0 < length := Nat.pos_of_mul_pos_right (Nat.zero_lt_of_lt hlt)
    exact ⟨day / length, day % length, (Nat.div_add_mod _ _).symm, Nat.div_lt_of_lt_mul hlt,
      .inl (Nat.mod_lt _ hpos)⟩

/-- A day of an era by the centuries, leap cycles and years that are over. Only a leap year has a
366th day. -/
theorem exists_cycles {day : ℕ} (h : day < eraDays) :
    ∃ c q s t, day = 36524 * c + 1461 * q + 365 * s + t ∧ c ≤ 3 ∧ q ≤ 24 ∧ s ≤ 3 ∧
      (t < 365 ∨ t = 365 ∧ s = 3 ∧ (q = 24 → c = 3)) := by
  have hera : day ≤ 36524 * 4 := Nat.le_of_lt_succ h
  obtain ⟨c, r, hday, hc, hr⟩ := exists_cycle (by decide) 36524 hera
  have hq : r / 1461 ≤ 24 := by omega
  have hyear : r % 1461 ≤ 365 * 4 := Nat.le_of_lt_succ (Nat.mod_lt r (by decide))
  obtain ⟨s, t, hyears, hs, ht⟩ := exists_cycle (by decide) 365 hyear
  exact ⟨c, r / 1461, s, t, by omega, by omega, hq, by omega, by omega⟩

theorem yearOfEra_eq {c q s t : ℕ} (hc : c ≤ 3) (hq : q ≤ 24) (hs : s ≤ 3)
    (ht : t < 365 ∨ t = 365 ∧ s = 3 ∧ (q = 24 → c = 3)) :
    yearOfEra (36524 * c + 1461 * q + 365 * s + t) = 100 * c + 4 * q + s := by
  generalize hday : 36524 * c + 1461 * q + 365 * s + t = day
  -- Only on the last day of an era is a century counted too early, and the last term takes it back.
  have hcenturies : day / 36524 = c + day / 146096 := by
    have hinside : 1461 * q + 365 * s + t < 36524 ∨ c = 3 ∧ 1461 * q + 365 * s + t = 36524 := by
      omega
    rcases hinside with hinside | ⟨rfl, hlast⟩
    · have hzero : day / 146096 = 0 := by omega
      omega
    · have hday : day = 146096 := by omega
      rw [hday]
  -- A leap day may be counted before it comes, but not more of them than days of the year are over.
  have hleaps : day / 1460 = 25 * c + q + (24 * c + q + 365 * s + t) / 1460 := by
    have hsplit : day = 24 * c + q + 365 * s + t + 1460 * (25 * c + q) := by omega
    rw [hsplit, Nat.add_mul_div_left _ _ (by decide), Nat.add_comm]
  have hsmall : (24 * c + q + 365 * s + t) / 1460 ≤ t := by omega
  have hlarge : t < 365 + (24 * c + q + 365 * s + t) / 1460 := by omega
  have hlast : day / 146096 ≤ 1 := by omega
  have hdays : day - day / 1460 + day / 36524 - day / 146096 =
      365 * (100 * c + 4 * q + s) + (t - (24 * c + q + 365 * s + t) / 1460) := by
    rw [hcenturies, hleaps]
    clear hcenturies hleaps
    omega
  rw [yearOfEra, hdays, Nat.mul_add_div (by decide), Nat.div_eq_of_lt, Nat.add_zero]
  clear hdays hcenturies hleaps
  omega

theorem monthOfYear_spec {day : ℕ} (h : day ≤ 365) :
    monthOfYear day ≤ 11 ∧ daysBeforeMonth (monthOfYear day) ≤ day ∧
      day < daysBeforeMonth (monthOfYear day + 1) := by
  simp only [daysBeforeMonth, monthOfYear]
  omega

/-- The year of a day has begun, and is not over. -/
theorem yearOfEra_spec {day : ℕ} (h : day < eraDays) :
    yearOfEra day < 400 ∧ daysBeforeYear (yearOfEra day) ≤ day ∧
      day < daysBeforeYear (yearOfEra day) + 365 + leapDays (yearOfEra day + 1) := by
  obtain ⟨c, q, s, t, rfl, hc, hq, hs, ht⟩ := exists_cycles h
  have hstart : daysBeforeYear (100 * c + 4 * q + s) = 36524 * c + 1461 * q + 365 * s := by
    rw [daysBeforeYear]
    omega
  rw [yearOfEra_eq hc hq hs ht, hstart]
  refine ⟨by omega, by omega, ?_⟩
  rcases ht with ht | ⟨rfl, rfl, hlast⟩
  · omega
  · have hleap : IsLeapYear (100 * c + 4 * q + 3 + 1) := by
      rw [IsLeapYear]
      omega
    rw [leapDays, if_pos hleap]
    omega

theorem dayOfYear_le {day : ℕ} (h : day < eraDays) :
    day - daysBeforeYear (yearOfEra day) ≤ 365 := by
  obtain ⟨-, hbegun, hover⟩ := yearOfEra_spec h
  have hleap := leapDays_le_one (yearOfEra day + 1)
  omega

/-! ## The date of a day -/

/-- Days before a year that is not the year 0, from how many years and leap days are before it. -/
theorem ordinal_newYear (year : ℕ) :
    Date.ordinal { year := year + 1, month := 1, day := 1 } =
      365 * (year + 1) + year / 4 - year / 100 + year / 400 + 1 := by
  have hten : daysBeforeMonth 10 = 306 := rfl
  rw [Date.ordinal, yearStart_succ_eq, marchStart_eq, monthStart_january, hten]
  dsimp only
  omega

theorem ordinal_epoch : Date.epoch.ordinal = epochShift + 60 := by
  rw [Date.epoch, ordinal_newYear 1969, epochShift]

theorem ofDays_eq (days : ℕ) :
    Date.ofDays days =
      let era := (days + epochShift) / eraDays
      let dayOfEra := (days + epochShift) % eraDays
      let year := yearOfEra dayOfEra
      let dayOfYear := dayOfEra - daysBeforeYear year
      let march := monthOfYear dayOfYear
      Date.ofMarch (year + era * 400) march (dayOfYear - daysBeforeMonth march) := rfl

/-- The year, the month and the day that a day falls in, counted from March. -/
theorem exists_ofMarch (days : ℕ) :
    ∃ year march day, Date.ofDays days = Date.ofMarch year march day ∧ march ≤ 11 ∧
      daysBeforeMonth march + day < daysBeforeMonth (march + 1) ∧
      daysBeforeMonth march + day < 365 + leapDays (year + 1) ∧
      marchStart year + (daysBeforeMonth march + day) = days + epochShift + 60 := by
  let era := (days + epochShift) / eraDays
  let dayOfEra := (days + epochShift) % eraDays
  let year := yearOfEra dayOfEra
  let dayOfYear := dayOfEra - daysBeforeYear year
  let march := monthOfYear dayOfYear
  have hdayOfEra : dayOfEra < eraDays := Nat.mod_lt _ (by decide)
  have hera : eraDays * era + dayOfEra = days + epochShift := Nat.div_add_mod _ _
  obtain ⟨hyear, hbegun, hover⟩ : year < 400 ∧ daysBeforeYear year ≤ dayOfEra ∧
      dayOfEra < daysBeforeYear year + 365 + leapDays (year + 1) := yearOfEra_spec hdayOfEra
  have hdayOfYear : dayOfYear < 365 + leapDays (year + 1) := by omega
  obtain ⟨hmarch, hmonth, hlast⟩ : march ≤ 11 ∧ daysBeforeMonth march ≤ dayOfYear ∧
      dayOfYear < daysBeforeMonth (march + 1) := monthOfYear_spec (dayOfYear_le hdayOfEra)
  have hday : daysBeforeMonth march + (dayOfYear - daysBeforeMonth march) = dayOfYear := by omega
  refine ⟨year + era * 400, march, dayOfYear - daysBeforeMonth march, ofDays_eq days, hmarch, ?_,
    ?_, ?_⟩
  · rw [hday]
    exact hlast
  · rw [hday, Nat.add_right_comm, leapDays_era]
    exact hdayOfYear
  · rw [hday, marchStart_era era hyear, Nat.mul_comm era]
    omega

/-- The date of a day is a date of the calendar. -/
theorem isValid_ofDays (days : ℕ) : (Date.ofDays days).IsValid := by
  obtain ⟨year, march, day, hdate, hmarch, hmonth, hyear, -⟩ := exists_ofMarch days
  rw [hdate]
  exact Date.isValid_ofMarch hmarch hmonth hyear

/-- Counting the days before the date of a day gives the day. -/
theorem ordinal_ofDays (days : ℕ) :
    (Date.ofDays days).ordinal = Date.epoch.ordinal + days := by
  obtain ⟨year, march, day, hdate, hmarch, -, -, hdays⟩ := exists_ofMarch days
  rw [hdate, Date.ordinal_ofMarch hmarch, Nat.add_assoc, hdays, ordinal_epoch]
  omega

theorem ofDays_succ (days : ℕ) : Date.ofDays (days + 1) = (Date.ofDays days).next := by
  have hvalid := isValid_ofDays days
  apply (isValid_ofDays (days + 1)).eq_of_ordinal_eq (Date.isValid_next hvalid)
  rw [Date.ordinal_next hvalid, ordinal_ofDays, ordinal_ofDays, Nat.add_assoc]

/-! ## Operations that do not wrap -/

section Words

variable {m n : ℕ}

theorem toNat_word (h : n < 2 ^ 64) : (BitVec.ofNat 64 n).toNat = n := by
  rw [BitVec.toNat_ofNat, Nat.mod_eq_of_lt h]

theorem add?_ofNat (h : m + n < 2 ^ 64) :
    add? (BitVec.ofNat 64 m) (BitVec.ofNat 64 n) = some (BitVec.ofNat 64 (m + n)) := by
  rw [add?, if_neg, BitVec.ofNat_add]
  rw [BitVec.uaddOverflow, decide_eq_true_eq, toNat_word (by omega), toNat_word (by omega)]
  omega

theorem sub?_ofNat (hle : n ≤ m) (h : m < 2 ^ 64) :
    sub? (BitVec.ofNat 64 m) (BitVec.ofNat 64 n) = some (BitVec.ofNat 64 (m - n)) := by
  have hn : n < 2 ^ 64 := Nat.lt_of_le_of_lt hle h
  rw [sub?, if_neg, BitVec.ofNat_sub_ofNat_of_le _ _ hn hle]
  rw [BitVec.usubOverflow, decide_eq_true_eq, toNat_word h, toNat_word hn]
  exact Nat.not_lt.mpr hle

theorem mul?_ofNat (hm : m < 2 ^ 64) (hn : n < 2 ^ 64) (h : m * n < 2 ^ 64) :
    mul? (BitVec.ofNat 64 m) (BitVec.ofNat 64 n) = some (BitVec.ofNat 64 (m * n)) := by
  rw [mul?, if_neg, BitVec.ofNat_mul]
  rw [BitVec.umulOverflow, decide_eq_true_eq, toNat_word hm, toNat_word hn]
  exact Nat.not_le.mpr h

theorem ofNat_div_ofNat (hm : m < 2 ^ 64) (hn : n < 2 ^ 64) :
    BitVec.ofNat 64 m / BitVec.ofNat 64 n = BitVec.ofNat 64 (m / n) := by
  have hdiv : m / n < 2 ^ 64 := Nat.lt_of_le_of_lt (Nat.div_le_self _ _) hm
  apply BitVec.eq_of_toNat_eq
  rw [BitVec.toNat_udiv, toNat_word hm, toNat_word hn, toNat_word hdiv]

theorem ofNat_mod_ofNat (hm : m < 2 ^ 64) (hn : n < 2 ^ 64) :
    BitVec.ofNat 64 m % BitVec.ofNat 64 n = BitVec.ofNat 64 (m % n) := by
  have hmod : m % n < 2 ^ 64 := Nat.lt_of_le_of_lt (Nat.mod_le _ _) hm
  apply BitVec.eq_of_toNat_eq
  rw [BitVec.toNat_umod, toNat_word hm, toNat_word hn, toNat_word hmod]

end Words

/-- `yearOfEra` on words. -/
def yearOfEra? (day : Word) : Option Word := do
  let early ← sub? day (day / 1460#64)
  let late ← add? early (day / 36524#64)
  let whole ← sub? late (day / 146096#64)
  return whole / 365#64

/-- `daysBeforeYear` on words. -/
def daysBeforeYear? (year : Word) : Option Word := do
  let days ← mul? 365#64 year
  let days ← add? days (year / 4#64)
  sub? days (year / 100#64)

/-- `monthOfYear` on words. -/
def monthOfYear? (day : Word) : Option Word := do
  let scaled ← mul? 5#64 day
  let scaled ← add? scaled 2#64
  return scaled / 153#64

/-- `daysBeforeMonth` on words. -/
def daysBeforeMonth? (month : Word) : Option Word := do
  let scaled ← mul? 153#64 month
  let scaled ← add? scaled 2#64
  return scaled / 5#64

/-- The month of the calendar for a month counted from March, on words. -/
def monthNumber? (march : Word) : Option Word :=
  if march < 10#64 then add? march 3#64 else sub? march 9#64

/-- `Date.ofMarch` on words. -/
def Date.ofMarch? (year march day : Word) : Option Date := do
  let month ← monthNumber? march
  let year ← add? year (if month ≤ 2#64 then 1#64 else 0#64)
  let day ← add? day 1#64
  return { year := year.toNat, month := month.toNat, day := day.toNat }

/-- Finds the date as `Date.ofDays` does, and fails if an operation on words would wrap. -/
def Date.ofDays? (days : Word) : Option Date := do
  let shifted ← add? days (BitVec.ofNat 64 epochShift)
  let era := shifted / BitVec.ofNat 64 eraDays
  let dayOfEra := shifted % BitVec.ofNat 64 eraDays
  let year ← yearOfEra? dayOfEra
  let yearStart ← daysBeforeYear? year
  let dayOfYear ← sub? dayOfEra yearStart
  let march ← monthOfYear? dayOfYear
  let monthStart ← daysBeforeMonth? march
  let day ← sub? dayOfYear monthStart
  let years ← mul? era 400#64
  let year ← add? year years
  Date.ofMarch? year march day

theorem yearOfEra?_ofNat {day : ℕ} (h : day < eraDays) :
    yearOfEra? (BitVec.ofNat 64 day) = some (BitVec.ofNat 64 (yearOfEra day)) := by
  rw [eraDays] at h
  simp (disch := omega) only [yearOfEra?, ofNat_div_ofNat, sub?_ofNat, add?_ofNat,
    Option.bind_eq_bind, Option.bind_some, Option.pure_def, yearOfEra]

theorem daysBeforeYear?_ofNat {year : ℕ} (h : year < 400) :
    daysBeforeYear? (BitVec.ofNat 64 year) = some (BitVec.ofNat 64 (daysBeforeYear year)) := by
  simp (disch := omega) only [daysBeforeYear?, ofNat_div_ofNat, sub?_ofNat, add?_ofNat, mul?_ofNat,
    Option.bind_eq_bind, Option.bind_some, daysBeforeYear]

theorem monthOfYear?_ofNat {day : ℕ} (h : day ≤ 365) :
    monthOfYear? (BitVec.ofNat 64 day) = some (BitVec.ofNat 64 (monthOfYear day)) := by
  simp (disch := omega) only [monthOfYear?, ofNat_div_ofNat, add?_ofNat, mul?_ofNat,
    Option.bind_eq_bind, Option.bind_some, Option.pure_def, monthOfYear]

theorem daysBeforeMonth?_ofNat {month : ℕ} (h : month ≤ 11) :
    daysBeforeMonth? (BitVec.ofNat 64 month) = some (BitVec.ofNat 64 (daysBeforeMonth month)) := by
  simp (disch := omega) only [daysBeforeMonth?, ofNat_div_ofNat, add?_ofNat, mul?_ofNat,
    Option.bind_eq_bind, Option.bind_some, Option.pure_def, daysBeforeMonth]

theorem monthNumber?_ofNat {march : ℕ} (h : march ≤ 11) :
    monthNumber? (BitVec.ofNat 64 march) =
      some (BitVec.ofNat 64 (if march < 10 then march + 3 else march - 9)) := by
  have hlt : BitVec.ofNat 64 march < 10#64 ↔ march < 10 := by
    rw [BitVec.ofNat_lt_ofNat]
    omega
  simp only [monthNumber?, hlt]
  split_ifs
  · exact add?_ofNat (by omega)
  · exact sub?_ofNat (by omega) (by omega)

theorem Date.ofMarch?_ofNat {year march day : ℕ} (hyear : year + 1 < 2 ^ 64) (hmarch : march ≤ 11)
    (hday : day + 1 < 2 ^ 64) :
    Date.ofMarch? (BitVec.ofNat 64 year) (BitVec.ofNat 64 march) (BitVec.ofNat 64 day) =
      some (Date.ofMarch year march day) := by
  have hmonth : (if march < 10 then march + 3 else march - 9) ≤ 12 := by
    split_ifs <;> omega
  rw [Date.ofMarch?, Date.ofMarch, monthNumber?_ofNat hmarch, Option.bind_eq_bind, Option.bind_some]
  generalize (if march < 10 then march + 3 else march - 9) = month at *
  have hcarry : (if BitVec.ofNat 64 month ≤ 2#64 then 1#64 else 0#64) =
      BitVec.ofNat 64 (if month ≤ 2 then 1 else 0) := by
    have hle : BitVec.ofNat 64 month ≤ 2#64 ↔ month ≤ 2 := by
      rw [BitVec.ofNat_le_ofNat]
      omega
    simp only [hle]
    split_ifs <;> rfl
  have hsum : year + (if month ≤ 2 then 1 else 0) < 2 ^ 64 := by
    split_ifs <;> omega
  rw [hcarry, add?_ofNat hsum, Option.bind_some, add?_ofNat hday, Option.bind_some,
    Option.pure_def, toNat_word hsum, toNat_word (Nat.lt_of_le_of_lt hmonth (by omega)),
    toNat_word hday]

theorem Date.ofDays?_ofNat {days : ℕ} (h : days + epochShift < 2 ^ 64) :
    Date.ofDays? (BitVec.ofNat 64 days) = some (Date.ofDays days) := by
  have heraDays : eraDays < 2 ^ 63 := by
    rw [eraDays]
    omega
  have hdayOfEra : (days + epochShift) % eraDays < eraDays := Nat.mod_lt _ (by decide)
  have hyears : (days + epochShift) / eraDays * 400 < 2 ^ 63 := by
    rw [eraDays]
    omega
  rw [ofDays_eq, Date.ofDays?, add?_ofNat h, Option.bind_eq_bind, Option.bind_some,
    ofNat_div_ofNat h (by omega), ofNat_mod_ofNat h (by omega)]
  generalize (days + epochShift) % eraDays = dayOfEra at *
  generalize (days + epochShift) / eraDays = era at *
  obtain ⟨hyear, hbegun, -⟩ := yearOfEra_spec hdayOfEra
  have hle := dayOfYear_le hdayOfEra
  obtain ⟨hmarch, hmonth, -⟩ := monthOfYear_spec hle
  have hera : mul? (BitVec.ofNat 64 era) 400#64 = some (BitVec.ofNat 64 (era * 400)) :=
    mul?_ofNat (by omega) (by omega) (by omega)
  have hsum : yearOfEra dayOfEra + era * 400 < 2 ^ 64 := by omega
  dsimp only
  rw [yearOfEra?_ofNat hdayOfEra, Option.bind_some, daysBeforeYear?_ofNat hyear, Option.bind_some,
    sub?_ofNat hbegun (by omega), Option.bind_some, monthOfYear?_ofNat hle, Option.bind_some,
    daysBeforeMonth?_ofNat hmarch, Option.bind_some, sub?_ofNat hmonth (by omega), Option.bind_some,
    hera, Option.bind_some, add?_ofNat hsum, Option.bind_some]
  exact Date.ofMarch?_ofNat (by omega) hmarch (by omega)

/-- **The date of a day is the Gregorian date.** It is a date of the calendar, and counting the days
of the years and months before it gives the day again. The first day is the first of January 1970,
and the date of the next day is the next date. As long as there is room for the next day, no
operation on words on the way to either date wraps. -/
theorem ofDays_gregorian (days : ℕ) (h : days + (epochShift + 1) < 2 ^ 64) :
    (Date.ofDays days).IsValid ∧
    (Date.ofDays days).ordinal = Date.epoch.ordinal + days ∧
    Date.ofDays 0 = Date.epoch ∧
    Date.ofDays (days + 1) = (Date.ofDays days).next ∧
    Date.ofDays? (BitVec.ofNat 64 days) = some (Date.ofDays days) ∧
    Date.ofDays? (BitVec.ofNat 64 (days + 1)) = some (Date.ofDays (days + 1)) := by
  refine ⟨isValid_ofDays days, ordinal_ofDays days, by decide, ofDays_succ days, ?_, ?_⟩
  · exact Date.ofDays?_ofNat (by omega)
  · exact Date.ofDays?_ofNat (by omega)

theorem ofDays_gregorian_last :
    let days := 18446744073708832146
    let date : Date := { year := 50505469855533109, month := 4, day := 21 }
    days + (epochShift + 1) < 2 ^ 64 ∧ Date.ofDays days = date ∧ date.IsValid ∧
    date.ordinal = Date.epoch.ordinal + days ∧
    Date.ofDays (days + 1) = { date with day := 22 } ∧
    Date.ofDays? (BitVec.ofNat 64 days) = some date ∧
    Date.ofDays? (BitVec.ofNat 64 (days + 1)) = some { date with day := 22 } := by
  intro days date
  have hroom : days + (epochShift + 1) < 2 ^ 64 := by
    rw [epochShift]
    omega
  have hdate : Date.ofDays days = date := by decide +kernel
  have hnext : date.next = { date with day := 22 } := by decide +kernel
  obtain ⟨hvalid, hordinal, -, hsucc, hwords, hwords'⟩ := ofDays_gregorian days hroom
  rw [hdate] at hvalid hordinal hsucc hwords
  rw [hnext] at hsucc
  rw [hsucc] at hwords'
  exact ⟨hroom, hdate, hvalid, hordinal, hsucc, hwords, hwords'⟩

end BoundedFormat.Calendar
