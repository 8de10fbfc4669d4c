import BoundedFormat.Proofs.Calendar
import BoundedFormat.Proofs.FixedWidth

/-!
# Stamps sort like time

A stamp fills a layout of seven fields of fixed width. Its numbers are a reading of the clock taken
apart, first into days and the time of the day and then the days into a date, and each step keeps
the order, comparing the larger part first. So the numbers are in the order of the readings, and
the stamps in the order of the numbers. The main statement is this for all readings before the year
10000, where the year no longer fits, and that a stamp is read back as the reading that it shows.
-/

namespace BoundedFormat.Calendar

/-- The fields of a stamp, and what stands behind each. -/
def stampLayout : Layout :=
  [(4, '-'), (2, '-'), (2, 'T'), (2, ':'), (2, ':'), (2, '.'), (3, 'Z')]

/-- The year, the month and the day. -/
def Date.fields (d : Date) : List ℕ := [d.year, d.month, d.day]

@[simp] theorem Date.length_fields (d : Date) : d.fields.length = 3 := rfl

/-- Hours, minutes, seconds and milliseconds of a time of the day in milliseconds. -/
def clockFields (time : ℕ) : List ℕ :=
  [time / 3600000, time / 60000 % 60, time / 1000 % 60, time % 1000]

/-- Milliseconds in a day. -/
def dayLength : ℕ := 86400000

/-- The numbers that a stamp shows. -/
def stampFields (reading : ℕ) : List ℕ :=
  (Date.ofDays (reading / dayLength)).fields ++ clockFields (reading % dayLength)

/-- The reading of the clock when a date begins. -/
def Date.beginning (d : Date) : ℤ := (d.ordinal - Date.epoch.ordinal : ℤ) * dayLength

/-- The first date with a year that does not fit its field. -/
def stampEnd : Date where
  year := 10000
  month := 1
  day := 1

/-- The reading that a stamp shows. -/
def readStamp (text : String) : ℤ :=
  match readFields stampLayout text.toList with
  | [year, month, day, hour, minute, second, millisecond] =>
    Date.beginning { year, month, day } +
      (((hour * 60 + minute) * 60 + second) * 1000 + millisecond : ℕ)
  | _ => 0

theorem writeFields_stampLayout (year month day hour minute second millisecond : ℕ) :
    writeFields stampLayout [year, month, day, hour, minute, second, millisecond] =
      padded 4 year ++ '-' :: padded 2 month ++ '-' :: padded 2 day ++
        'T' :: padded 2 hour ++ ':' :: padded 2 minute ++ ':' :: padded 2 second ++
        '.' :: padded 3 millisecond ++ ['Z'] := by
  simp only [writeFields, stampLayout, List.append_assoc, List.cons_append]

/-- The time of the day from the seconds of a reading. -/
theorem clockFields_mod (r : ℕ) :
    clockFields (r % dayLength) =
      [r / 1000 % 86400 / 3600, r / 1000 % 3600 / 60, r / 1000 % 60, r % 1000] := by
  simp only [clockFields, dayLength, List.cons.injEq, and_true]
  omega

theorem stampChars_eq (reading : ℤ) :
    stampChars reading = writeFields stampLayout (stampFields reading.toNat) := by
  have hday : reading.toNat / dayLength = reading.toNat / 1000 / 86400 := by
    rw [dayLength]
    omega
  rw [stampChars, stampFields, Date.fields, clockFields_mod, List.cons_append, List.cons_append,
    List.cons_append, List.nil_append, writeFields_stampLayout, hday]

/-- A reading is before a date begins exactly when it falls on an earlier date. -/
theorem ofDays_precedes_iff {d : Date} (hd : d.IsValid) {r : ℕ} :
    (Date.ofDays (r / dayLength)).Precedes d ↔ r < d.beginning := by
  rw [← (isValid_ofDays _).ordinal_lt_iff hd, ordinal_ofDays, Date.beginning, dayLength]
  omega

theorem year_lt_of_lt_beginning {r : ℕ} (h : r < stampEnd.beginning) :
    (Date.ofDays (r / dayLength)).year < 10000 := by
  have hend : stampEnd.IsValid := by
    refine ⟨?_, ?_, ?_, ?_⟩ <;> decide
  obtain ⟨hmonth, -, hday, -⟩ := isValid_ofDays (r / dayLength)
  have hlt := (ofDays_precedes_iff hend).mpr h
  simp only [Date.Precedes, stampEnd] at hlt
  omega

theorem fits_stampFields {r : ℕ} (h : r < stampEnd.beginning) :
    Fits stampLayout (stampFields r) := by
  have hyear := year_lt_of_lt_beginning h
  obtain ⟨-, hmonth, -, hday⟩ := isValid_ofDays (r / dayLength)
  have hlength := Date.monthLength_le (Date.ofDays (r / dayLength)).year
    (Date.ofDays (r / dayLength)).month
  have htime : r % dayLength < 86400000 := Nat.mod_lt _ (by decide)
  simp only [Fits, stampLayout, stampFields, Date.fields, clockFields, List.cons_append,
    List.nil_append, List.forall₂_cons, List.forall₂_nil_left_iff, and_true]
  omega

/-! ## Reading a stamp -/

theorem toList_stamp (reading : ℤ) : (stamp reading).toList = stampChars reading :=
  String.toList_ofList

theorem readStamp_stamp {r : ℕ} (h : r < stampEnd.beginning) :
    readStamp (stamp r) = r := by
  have hordinal := ordinal_ofDays (r / dayLength)
  rw [readStamp, toList_stamp, stampChars_eq, Int.toNat_natCast,
    readFields_writeFields (fits_stampFields h), stampFields]
  generalize Date.ofDays (r / dayLength) = date at hordinal
  change date.beginning + _ = _
  rw [Date.beginning, hordinal, dayLength]
  push_cast
  omega

/-! ## Order -/

theorem Date.fields_lt_iff {d e : Date} : d.fields < e.fields ↔ d.Precedes e := by
  simp only [fields, List.cons_lt_cons_iff, List.not_lt_nil, and_false, or_false, Precedes]

theorem Date.fields_inj {d e : Date} : d.fields = e.fields ↔ d = e := by
  obtain ⟨y, m, n⟩ := d
  obtain ⟨y', m', n'⟩ := e
  simp [fields]

/-- Later days have later dates. -/
theorem precedes_ofDays_iff {m n : ℕ} : (Date.ofDays m).Precedes (Date.ofDays n) ↔ m < n := by
  rw [← (isValid_ofDays m).ordinal_lt_iff (isValid_ofDays n), ordinal_ofDays, ordinal_ofDays]
  exact Nat.add_lt_add_iff_left

theorem ofDays_inj {m n : ℕ} : Date.ofDays m = Date.ofDays n ↔ m = n := by
  refine ⟨fun h => ?_, fun h => h ▸ rfl⟩
  have hordinal := congrArg Date.ordinal h
  rw [ordinal_ofDays, ordinal_ofDays] at hordinal
  exact Nat.add_left_cancel hordinal

/-- Times of the day are in the order of their hours, minutes, seconds and milliseconds. -/
theorem clockFields_lt_iff {s t : ℕ} : clockFields s < clockFields t ↔ s < t := by
  simp only [clockFields, List.cons_lt_cons_iff, List.not_lt_nil, and_false, or_false]
  omega

theorem stampFields_lt_iff {m n : ℕ} : stampFields m < stampFields n ↔ m < n := by
  have hlength : (Date.ofDays (m / dayLength)).fields.length =
      (Date.ofDays (n / dayLength)).fields.length := by
    rw [Date.length_fields, Date.length_fields]
  rw [stampFields, stampFields, append_lt_append_iff hlength, Date.fields_lt_iff, Date.fields_inj,
    precedes_ofDays_iff, ofDays_inj, clockFields_lt_iff, dayLength]
  omega

/-- **Stamps sort like time.** Before the year 10000 the stamp of a reading that is not negative has
24 characters, and its year, month, day, hour, minute, second and millisecond give the reading back.
Of two such readings the earlier one has the stamp that comes first in the order of texts. A reading
before 1970 has the stamp of its beginning. -/
theorem stamp_sorts_like_time (a b : ℤ) (ha : a < stampEnd.beginning)
    (hb : b < stampEnd.beginning) :
    (0 ≤ a → (stamp a).length = 24 ∧ readStamp (stamp a) = a) ∧
    (0 ≤ a → 0 ≤ b → (a < b ↔ stamp a < stamp b)) ∧
    (a < 0 → stamp a = stamp 0) := by
  refine ⟨fun hpos => ?_, fun hapos hbpos => ?_, fun hneg => ?_⟩
  · obtain ⟨r, rfl⟩ := Int.eq_ofNat_of_zero_le hpos
    refine ⟨?_, readStamp_stamp ha⟩
    rw [← String.length_toList, toList_stamp, stampChars_eq, Int.toNat_natCast,
      length_writeFields (fits_stampFields ha)]
    rfl
  · obtain ⟨m, rfl⟩ := Int.eq_ofNat_of_zero_le hapos
    obtain ⟨n, rfl⟩ := Int.eq_ofNat_of_zero_le hbpos
    rw [String.lt_iff, toList_stamp, toList_stamp, stampChars_eq, stampChars_eq,
      Int.toNat_natCast, Int.toNat_natCast,
      writeFields_lt_iff (fits_stampFields ha) (fits_stampFields hb), stampFields_lt_iff]
    exact Int.ofNat_lt
  · rw [stamp, stamp, stampChars, stampChars, Int.toNat_of_nonpos hneg.le, Int.toNat_zero]

theorem beginning_stampEnd : stampEnd.beginning = 253402300800000 := by
  rw [Date.beginning, stampEnd, ordinal_newYear 9999, ordinal_epoch, epochShift, dayLength]
  norm_num

theorem stamp_sorts_like_time_leap :
    let a : ℤ := 951782399999
    let b : ℤ := 951782400000
    a < stampEnd.beginning ∧ b < stampEnd.beginning ∧ -1 < stampEnd.beginning ∧
    stamp a = "2000-02-28T23:59:59.999Z" ∧ stamp b = "2000-02-29T00:00:00.000Z" ∧
    readStamp "2000-02-28T23:59:59.999Z" = a ∧
    "2000-02-28T23:59:59.999Z" < "2000-02-29T00:00:00.000Z" ∧
    stamp (-1) = stamp 0 := by
  intro a b
  have ha : a < stampEnd.beginning := by
    rw [beginning_stampEnd]
    decide
  have hb : b < stampEnd.beginning := by
    rw [beginning_stampEnd]
    decide
  have hneg : -1 < stampEnd.beginning := by
    rw [beginning_stampEnd]
    decide
  have hstamp : stamp a = "2000-02-28T23:59:59.999Z" := by decide +kernel
  have hstamp' : stamp b = "2000-02-29T00:00:00.000Z" := by decide +kernel
  obtain ⟨hread, hsorts, -⟩ := stamp_sorts_like_time a b ha hb
  obtain ⟨-, -, hbefore⟩ := stamp_sorts_like_time (-1) 0 hneg (by rw [beginning_stampEnd]; decide)
  have hback := (hread (by decide)).2
  have hlt := (hsorts (by decide) (by decide)).mp (by decide)
  rw [hstamp] at hback hlt
  rw [hstamp'] at hlt
  exact ⟨ha, hb, hneg, hstamp, hstamp', hback, hlt, hbefore (by decide)⟩

end BoundedFormat.Calendar
