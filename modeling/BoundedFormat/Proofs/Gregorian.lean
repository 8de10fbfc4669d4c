import BoundedFormat.Calendar
import Mathlib.Algebra.BigOperators.Intervals
import Mathlib.Algebra.Order.BigOperators.Group.Finset

/-!
# The Gregorian calendar

The calendar is given by the lengths of its months. A date has an ordinal, the number of days before
it since the beginning of the year 0, which adds up the months before it. Valid dates are in the
order of their ordinals, so a date is found again from its ordinal, and the ordinal goes up by one
from a date to the next. Nothing here depends on how the date of a day is computed.
-/

namespace BoundedFormat.Calendar

/-! ## Months and years -/

/-- One year in four has a leap day, but not the last of a century, yet the last of every fourth. -/
def IsLeapYear (year : ℕ) : Prop := year % 4 = 0 ∧ (year % 100 ≠ 0 ∨ year % 400 = 0)

instance : DecidablePred IsLeapYear := fun year =>
  inferInstanceAs (Decidable (year % 4 = 0 ∧ (year % 100 ≠ 0 ∨ year % 400 = 0)))

/-- How many leap days a year has. -/
def leapDays (year : ℕ) : ℕ := if IsLeapYear year then 1 else 0

theorem leapDays_le_one (year : ℕ) : leapDays year ≤ 1 := by
  rw [leapDays]
  split_ifs <;> decide

/-- The days of a month, January being month 1. -/
def monthLength (year : ℕ) : ℕ → ℕ
  | 2 => 28 + leapDays year
  | 4 | 6 | 9 | 11 => 30
  | _ => 31

/-- Days of a year before one of its months. The months of a year end before a thirteenth. -/
def monthStart (year month : ℕ) : ℕ := ∑ m ∈ Finset.Ico 1 month, monthLength year m

/-- Days before a year, since the beginning of the year 0. -/
def yearStart (year : ℕ) : ℕ := ∑ y ∈ Finset.range year, monthStart y 13

theorem monthStart_succ {month : ℕ} (h : 1 ≤ month) (year : ℕ) :
    monthStart year (month + 1) = monthStart year month + monthLength year month :=
  Finset.sum_Ico_succ_top h _

theorem yearStart_succ (year : ℕ) : yearStart (year + 1) = yearStart year + monthStart year 13 :=
  Finset.sum_range_succ _ _

theorem monthStart_mono (year : ℕ) {m n : ℕ} (h : m ≤ n) : monthStart year m ≤ monthStart year n :=
  Finset.sum_le_sum_of_subset (Finset.Ico_subset_Ico_right h)

theorem yearStart_mono {m n : ℕ} (h : m ≤ n) : yearStart m ≤ yearStart n :=
  Finset.sum_le_sum_of_subset (Finset.range_mono h)

theorem monthStart_january (year : ℕ) : monthStart year 1 = 0 := rfl

theorem monthStart_february (year : ℕ) : monthStart year 2 = 31 := rfl

theorem monthStart_march (year : ℕ) : monthStart year 3 = 59 + leapDays year := by
  rw [monthStart_succ (by decide), monthStart_february, monthLength]
  omega

/-! ## Dates -/

namespace Date

/-- A month of the year, and a day of this month. -/
structure IsValid (d : Date) : Prop where
  one_le_month : 1 ≤ d.month
  month_le : d.month ≤ 12
  one_le_day : 1 ≤ d.day
  day_le : d.day ≤ monthLength d.year d.month

/-- Days before a date, since the beginning of the year 0. -/
def ordinal (d : Date) : ℕ := yearStart d.year + monthStart d.year d.month + (d.day - 1)

/-- The first of January 1970. -/
def epoch : Date where
  year := 1970
  month := 1
  day := 1

/-- The date after a date. -/
def next (d : Date) : Date :=
  if d.day < monthLength d.year d.month then { d with day := d.day + 1 }
  else if d.month < 12 then { d with month := d.month + 1, day := 1 }
  else { year := d.year + 1, month := 1, day := 1 }

/-- One date comes before another. -/
def Precedes (d e : Date) : Prop :=
  d.year < e.year ∨ d.year = e.year ∧ (d.month < e.month ∨ d.month = e.month ∧ d.day < e.day)

variable {d e : Date}

theorem precedes_trichotomy (d e : Date) : d.Precedes e ∨ d = e ∨ e.Precedes d := by
  obtain ⟨y, m, n⟩ := d
  obtain ⟨y', m', n'⟩ := e
  simp only [Precedes, Date.mk.injEq]
  omega

namespace IsValid

/-- The days before a date are fewer than those before the month after it. -/
theorem ordinal_lt (h : d.IsValid) :
    d.ordinal < yearStart d.year + monthStart d.year (d.month + 1) := by
  have hone := h.one_le_day
  have hday := h.day_le
  rw [ordinal, monthStart_succ h.one_le_month]
  omega

theorem ordinal_lt_of_precedes (h : d.IsValid) (hlt : d.Precedes e) : d.ordinal < e.ordinal := by
  have hday := h.one_le_day
  rcases hlt with hyear | ⟨hyear, hmonth | ⟨hmonth, hlt⟩⟩
  · calc d.ordinal
        < yearStart d.year + monthStart d.year (d.month + 1) := h.ordinal_lt
      _ ≤ yearStart d.year + monthStart d.year 13 :=
          Nat.add_le_add_left (monthStart_mono _ (Nat.succ_le_succ h.month_le)) _
      _ = yearStart (d.year + 1) := (yearStart_succ _).symm
      _ ≤ yearStart e.year := yearStart_mono hyear
      _ ≤ e.ordinal := by rw [ordinal, Nat.add_assoc]; exact Nat.le_add_right _ _
  · calc d.ordinal
        < yearStart d.year + monthStart d.year (d.month + 1) := h.ordinal_lt
      _ ≤ yearStart e.year + monthStart e.year e.month := by
          rw [hyear]
          exact Nat.add_le_add_left (monthStart_mono _ hmonth) _
      _ ≤ e.ordinal := Nat.le_add_right _ _
  · rw [ordinal, ordinal, hyear, hmonth]
    omega

/-- Dates are in the order of their ordinals. -/
theorem ordinal_lt_iff (h : d.IsValid) (h' : e.IsValid) : d.ordinal < e.ordinal ↔ d.Precedes e := by
  refine ⟨fun hlt => ?_, h.ordinal_lt_of_precedes⟩
  rcases precedes_trichotomy d e with hbefore | rfl | hafter
  · exact hbefore
  · exact absurd hlt (Nat.lt_irrefl _)
  · exact absurd (h'.ordinal_lt_of_precedes hafter) (Nat.lt_asymm hlt)

theorem eq_of_ordinal_eq (h : d.IsValid) (h' : e.IsValid) (heq : d.ordinal = e.ordinal) :
    d = e := by
  rcases precedes_trichotomy d e with hbefore | hsame | hafter
  · exact absurd heq (Nat.ne_of_lt (h.ordinal_lt_of_precedes hbefore))
  · exact hsame
  · exact absurd heq.symm (Nat.ne_of_lt (h'.ordinal_lt_of_precedes hafter))

end IsValid

theorem one_le_monthLength (year month : ℕ) : 1 ≤ monthLength year month := by
  unfold monthLength
  split <;> omega

theorem monthLength_le (year month : ℕ) : monthLength year month ≤ 31 := by
  have hleap := leapDays_le_one year
  unfold monthLength
  split <;> omega

theorem isValid_next (h : d.IsValid) : d.next.IsValid := by
  obtain ⟨hone, hmonth, hday, hlast⟩ := h
  rw [next]
  split_ifs with hinside hfurther
  · exact ⟨hone, hmonth, Nat.le_add_left _ _, hinside⟩
  · exact ⟨Nat.le_add_left _ _, hfurther, Nat.le_refl _, one_le_monthLength _ _⟩
  · exact ⟨Nat.le_refl 1, Nat.le_add_left 1 11, Nat.le_refl 1, one_le_monthLength _ _⟩

theorem ordinal_next (h : d.IsValid) : d.next.ordinal = d.ordinal + 1 := by
  obtain ⟨hone, hmonth, hday, hlast⟩ := h
  rw [next]
  split_ifs with hinside hfurther
  · simp only [ordinal]
    omega
  · simp only [ordinal, monthStart_succ hone]
    omega
  · have hdecember : d.month = 12 := by omega
    rw [hdecember] at hlast hinside
    simp only [ordinal, hdecember, monthStart_january, yearStart_succ,
      monthStart_succ (by decide : 1 ≤ 12)]
    omega

end Date

end BoundedFormat.Calendar
