/-!
# Dates and time stamps

Days are counted from the first of January 1970. The calendar is the Gregorian one; a year is
taken to begin in March, so that the leap day is its last and the months before it have fixed
lengths. A stamp shows a reading of the clock in universal time, to the millisecond.
-/

namespace BoundedFormat.Calendar

/-- A day of the calendar. -/
structure Date where
  year : Nat
  month : Nat
  day : Nat
deriving DecidableEq, Repr

/-- Days from the first of March of the year 0 to the first of January 1970. -/
def epochShift : Nat := 719468

/-- Days in 400 years. -/
def eraDays : Nat := 146097

/-- The year of the era that a day of the era falls in. The terms take out the leap days before
it: one in four years, but not in a century, yet in four of them. -/
def yearOfEra (day : Nat) : Nat := (day - day / 1460 + day / 36524 - day / 146096) / 365

/-- Days from the beginning of an era to the beginning of one of its years. -/
def daysBeforeYear (year : Nat) : Nat := 365 * year + year / 4 - year / 100

/-- The month that a day of the year falls in, March being month 0. -/
def monthOfYear (day : Nat) : Nat := (5 * day + 2) / 153

/-- Days from the beginning of a year to the beginning of one of its months. -/
def daysBeforeMonth (month : Nat) : Nat := (153 * month + 2) / 5

/-- The date of a day. -/
def Date.ofDays (days : Nat) : Date :=
  let shifted := days + epochShift
  let era := shifted / eraDays
  let dayOfEra := shifted % eraDays
  let yearOfEra := yearOfEra dayOfEra
  let dayOfYear := dayOfEra - daysBeforeYear yearOfEra
  let march := monthOfYear dayOfYear
  let month := if march < 10 then march + 3 else march - 9
  { year := yearOfEra + era * 400 + (if month ≤ 2 then 1 else 0)
    month
    day := dayOfYear - daysBeforeMonth march + 1 }

/-- A number with zeros in front, at least `width` digits long. -/
def padded (width n : Nat) : List Char := (Nat.toDigits 10 n).leftpad width '0'

/-- The characters of a stamp. A reading before 1970 counts as its beginning. -/
def stampChars (milliseconds : Int) : List Char :=
  let milliseconds := milliseconds.toNat
  let seconds := milliseconds / 1000
  let date := Date.ofDays (seconds / 86400)
  padded 4 date.year ++ '-' :: padded 2 date.month ++ '-' :: padded 2 date.day ++
    'T' :: padded 2 (seconds % 86400 / 3600) ++ ':' :: padded 2 (seconds % 3600 / 60) ++
    ':' :: padded 2 (seconds % 60) ++ '.' :: padded 3 (milliseconds % 1000) ++ ['Z']

/-- The stamp of a reading of the clock, in milliseconds since 1970. -/
def stamp (milliseconds : Int) : String := String.ofList (stampChars milliseconds)

end BoundedFormat.Calendar
