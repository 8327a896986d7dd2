import VaultKeeper.Conflict
import VaultKeeper.DigitOrder
import VaultKeeper.Schema

/-!
# Timestamps of Entries

`LedgerStore::record_entry` writes the time of an entry as the text `to_rfc3339` of `chrono`
gives, and `LedgerConflict::resolve_by_timestamp` compares two such texts as strings. The
fields of a text stand in fixed widths, the higher ones first, up to the seconds. The
fraction after them has the fewest of 0, 3, 6 and 9 digits that are exact, so that the end of
a text may meet a dot or a digit of the other; the plus sign of the offset comes before both.

A date and time is read as the nanoseconds since the year 0 began, by the lengths of the
years and months of the Gregorian calendar.

## Main results

* `UtcDateTime.nanos_lt_iff`: of two instants the later one has the later first different
  field.
* `UtcDateTime.toRfc3339_lt_iff`: the same holds of the texts.
* `UtcDateTime.count_colon_toRfc3339`: every text has three colons.
* `resolveByTimestamp_iff_later`: the remote entry is newer exactly when it was recorded at a
  later instant.
-/

namespace VaultKeeper

open DigitOrder

/-- Whether a year of the Gregorian calendar is a leap year. -/
def isLeapYear (year : ℕ) : Bool :=
  year % 4 == 0 && (year % 100 != 0 || year % 400 == 0)

/-- The number of days of a month. -/
def daysInMonth (year month : ℕ) : ℕ :=
  if month = 2 then (if isLeapYear year then 29 else 28)
  else if month = 4 ∨ month = 6 ∨ month = 9 ∨ month = 11 then 30
  else 31

/-- The number of days of a year. -/
def daysInYear (year : ℕ) : ℕ :=
  ∑ i ∈ Finset.range 12, daysInMonth year (i + 1)

example : daysInYear 2023 = 365 ∧ daysInYear 2024 = 366 := by decide

/-- A date and time in UTC (`chrono::DateTime<Utc>`) of the years 0 to 9999, without leap
seconds. -/
structure UtcDateTime where
  year : ℕ
  month : ℕ
  day : ℕ
  hour : ℕ
  minute : ℕ
  second : ℕ
  nanosecond : ℕ
  year_le : year ≤ 9999
  month_mem : 1 ≤ month ∧ month ≤ 12
  day_mem : 1 ≤ day ∧ day ≤ daysInMonth year month
  hour_lt : hour < 24
  minute_lt : minute < 60
  second_lt : second < 60
  nanosecond_lt : nanosecond < 10 ^ 9

namespace UtcDateTime

variable (t u : UtcDateTime)

/-! ### Instants -/

/-- The days of the year before the day. -/
def dayOfYear : ℕ :=
  ∑ i ∈ Finset.range (t.month - 1), daysInMonth t.year (i + 1) + (t.day - 1)

/-- The days since the year 0 began. -/
def dayNumber : ℕ :=
  ∑ i ∈ Finset.range t.year, daysInYear i + t.dayOfYear

/-- The seconds of the day. -/
def secondOfDay : ℕ :=
  60 * (60 * t.hour + t.minute) + t.second

/-- The instant: the nanoseconds since the year 0 began. -/
def nanos : ℕ :=
  10 ^ 9 * (86400 * t.dayNumber + t.secondOfDay) + t.nanosecond

theorem daysInMonth_le (year month : ℕ) : daysInMonth year month ≤ 31 := by
  rw [daysInMonth]
  split
  · split <;> omega
  · split <;> omega

theorem dayOfYear_lt : t.dayOfYear < daysInYear t.year := by
  obtain ⟨hmonth, hmonth'⟩ := t.month_mem
  have hsub : Finset.range (t.month - 1 + 1) ⊆ Finset.range 12 :=
    Finset.range_subset_range.mpr (by omega)
  have hle : ∑ i ∈ Finset.range (t.month - 1 + 1), daysInMonth t.year (i + 1) ≤
      daysInYear t.year := Finset.sum_le_sum_of_subset hsub
  rw [Finset.sum_range_succ, Nat.sub_add_cancel hmonth] at hle
  have hday := t.day_mem
  rw [dayOfYear]
  omega

theorem secondOfDay_lt : t.secondOfDay < 86400 := by
  have := t.hour_lt
  have := t.minute_lt
  have := t.second_lt
  rw [secondOfDay]
  omega

theorem dayOfYear_lt_iff (h : t.year = u.year) :
    t.dayOfYear < u.dayOfYear ↔ t.month < u.month ∨ t.month = u.month ∧ t.day < u.day := by
  obtain ⟨ht, ht'⟩ := t.month_mem
  obtain ⟨hu, hu'⟩ := u.month_mem
  have hday := t.day_mem
  have hday' := u.day_mem
  rw [dayOfYear, dayOfYear, ← h,
    sum_add_lt_iff (fun i => daysInMonth t.year (i + 1))
      (by simp only [Nat.sub_add_cancel ht]; omega)
      (by simp only [Nat.sub_add_cancel hu, h]; omega)]
  omega

theorem dayNumber_lt_iff :
    t.dayNumber < u.dayNumber ↔
      t.year < u.year ∨ t.year = u.year ∧
        (t.month < u.month ∨ t.month = u.month ∧ t.day < u.day) := by
  rw [dayNumber, dayNumber, sum_add_lt_iff daysInYear t.dayOfYear_lt u.dayOfYear_lt]
  exact or_congr_right (and_congr_right fun h => dayOfYear_lt_iff t u h)

/-- Two days have one number only when they are one day. -/
theorem dayNumber_eq_iff :
    t.dayNumber = u.dayNumber ↔ t.year = u.year ∧ t.month = u.month ∧ t.day = u.day := by
  have hlt := dayNumber_lt_iff t u
  have hgt := dayNumber_lt_iff u t
  omega

theorem secondOfDay_lt_iff :
    t.secondOfDay < u.secondOfDay ↔
      t.hour < u.hour ∨ t.hour = u.hour ∧
        (t.minute < u.minute ∨ t.minute = u.minute ∧ t.second < u.second) := by
  have := t.minute_lt
  have := t.second_lt
  have := u.minute_lt
  have := u.second_lt
  rw [secondOfDay, secondOfDay]
  omega

theorem secondOfDay_eq_iff :
    t.secondOfDay = u.secondOfDay ↔
      t.hour = u.hour ∧ t.minute = u.minute ∧ t.second = u.second := by
  have hlt := secondOfDay_lt_iff t u
  have hgt := secondOfDay_lt_iff u t
  omega

/-- **The order of instants**: of two dates and times the later one has the later first
different field. -/
theorem nanos_lt_iff :
    t.nanos < u.nanos ↔
      t.year < u.year ∨ t.year = u.year ∧ (t.month < u.month ∨ t.month = u.month ∧
        (t.day < u.day ∨ t.day = u.day ∧ (t.hour < u.hour ∨ t.hour = u.hour ∧
          (t.minute < u.minute ∨ t.minute = u.minute ∧ (t.second < u.second ∨
            t.second = u.second ∧ t.nanosecond < u.nanosecond))))) := by
  rw [nanos, nanos, mul_add_lt_iff t.nanosecond_lt u.nanosecond_lt,
    mul_add_lt_iff t.secondOfDay_lt u.secondOfDay_lt]
  have hsame : 86400 * t.dayNumber + t.secondOfDay = 86400 * u.dayNumber + u.secondOfDay ↔
      t.dayNumber = u.dayNumber ∧ t.secondOfDay = u.secondOfDay := by
    have := t.secondOfDay_lt
    have := u.secondOfDay_lt
    omega
  rw [hsame, dayNumber_lt_iff, dayNumber_eq_iff, secondOfDay_lt_iff, secondOfDay_eq_iff]
  omega

/-! ### Texts -/

/-- The number of digits of the fraction of a second: 3, 6 or 9, the fewest that are
exact. -/
def fractionWidth (nanosecond : ℕ) : ℕ :=
  if nanosecond % 10 ^ 6 = 0 then 3 else if nanosecond % 10 ^ 3 = 0 then 6 else 9

/-- The fraction of a second, omitted when it is zero. -/
def fraction (nanosecond : ℕ) : List Char :=
  if nanosecond = 0 then []
  else
    '.' :: fixedDigits (fractionWidth nanosecond)
      (nanosecond / 10 ^ (9 - fractionWidth nanosecond))

/-- The offset of UTC. -/
def utcOffset : List Char := ['+', '0', '0', ':', '0', '0']

/-- The text `to_rfc3339` gives. -/
def toRfc3339 : String :=
  String.ofList
    (fixedDigits 4 t.year ++ '-' :: (fixedDigits 2 t.month ++ '-' :: (fixedDigits 2 t.day ++
      'T' :: (fixedDigits 2 t.hour ++ ':' :: (fixedDigits 2 t.minute ++
        ':' :: (fixedDigits 2 t.second ++ (fraction t.nanosecond ++ utcOffset)))))))

example :
    toRfc3339 ⟨2024, 2, 29, 23, 5, 9, 120000000, by decide, by decide, by decide, by decide,
      by decide, by decide, by decide⟩ = "2024-02-29T23:05:09.120+00:00" := by decide

/-- The digits of a fraction stand for it exactly. -/
theorem fractionWidth_spec {n : ℕ} (h : n < 10 ^ 9) :
    0 < fractionWidth n ∧ fractionWidth n ≤ 9 ∧
      n / 10 ^ (9 - fractionWidth n) < 10 ^ fractionWidth n ∧
      n / 10 ^ (9 - fractionWidth n) * 10 ^ (9 - fractionWidth n) = n := by
  rw [fractionWidth]
  split
  · norm_num at h ⊢
    omega
  · split
    · norm_num at h ⊢
      omega
    · norm_num at h ⊢
      omega

/-- **The colons of a text**: the two between hours, minutes and seconds, and the one of the
offset. -/
theorem count_colon_toRfc3339 : t.toRfc3339.toList.count ':' = 3 := by
  have hdigits : ∀ {width n : ℕ}, n < 10 ^ width → (fixedDigits width n).count ':' = 0 :=
    fun hn => List.count_eq_zero_of_not_mem (notMem_fixedDigits (by decide) hn)
  have hfraction : (fraction t.nanosecond).count ':' = 0 := by
    rw [fraction]
    split
    · rfl
    · rw [List.count_cons_of_ne (by decide),
        hdigits (fractionWidth_spec t.nanosecond_lt).2.2.1]
  have hyear := t.year_le
  have hmonth := t.month_mem
  have hday := t.day_mem
  have hdays := daysInMonth_le t.year t.month
  have hhour := t.hour_lt
  have hminute := t.minute_lt
  have hsecond := t.second_lt
  rw [toRfc3339, String.toList_ofList]
  simp only [List.count_append, List.count_cons, hfraction]
  rw [hdigits (by omega), hdigits (by omega), hdigits (by omega), hdigits (by omega),
    hdigits (by omega), hdigits (by omega)]
  decide

/-- The digits of two fractions that are not zero compare like the fractions. With different
widths the shorter one meets the plus sign. -/
theorem fraction_digits_lt_iff {n m : ℕ} (hn : n < 10 ^ 9) (hm : m < 10 ^ 9) :
    fixedDigits (fractionWidth n) (n / 10 ^ (9 - fractionWidth n)) ++ utcOffset <
        fixedDigits (fractionWidth m) (m / 10 ^ (9 - fractionWidth m)) ++ utcOffset ↔
      n < m := by
  obtain ⟨hpos, hle, hlt, hexact⟩ := fractionWidth_spec hn
  obtain ⟨hpos', hle', hlt', hexact'⟩ := fractionWidth_spec hm
  have hplus : '+' < '0' := by decide
  have hpow : ∀ k : ℕ, 0 < 10 ^ k := fun k => by positivity
  rcases lt_trichotomy (fractionWidth n) (fractionWidth m) with h | h | h
  · have hne : n ≠ m := by
      rintro rfl
      exact lt_irrefl _ h
    obtain ⟨more, hmore, hwidth⟩ : ∃ k, 0 < k ∧ fractionWidth m = fractionWidth n + k :=
      ⟨fractionWidth m - fractionWidth n, by omega, by omega⟩
    rw [hwidth] at hlt' ⊢
    refine (fixedDigits_append_lt_of_width hplus hmore hlt hlt' _ _).trans ?_
    rw [Nat.div_div_eq_div_mul, ← pow_add, Nat.le_div_iff_mul_le (hpow _),
      show 9 - (fractionWidth n + more) + more = 9 - fractionWidth n by omega, hexact]
    omega
  · rw [← h] at hlt' hexact' ⊢
    rw [fixedDigits_append_lt_iff hlt hlt']
    simp only [lt_irrefl, and_false, or_false]
    rw [← Nat.mul_lt_mul_right (hpow (9 - fractionWidth n)), hexact, hexact']
  · obtain ⟨more, hmore, hwidth⟩ : ∃ k, 0 < k ∧ fractionWidth n = fractionWidth m + k :=
      ⟨fractionWidth n - fractionWidth m, by omega, by omega⟩
    rw [hwidth] at hlt ⊢
    refine (lt_fixedDigits_append_of_width hplus hmore hlt' hlt _ _).trans ?_
    rw [Nat.div_div_eq_div_mul, ← pow_add, Nat.div_lt_iff_lt_mul (hpow _),
      show 9 - (fractionWidth m + more) + more = 9 - fractionWidth m by omega, hexact']

/-- Fractions compare like their texts. -/
theorem fraction_append_lt_iff {n m : ℕ} (hn : n < 10 ^ 9) (hm : m < 10 ^ 9) :
    fraction n ++ utcOffset < fraction m ++ utcOffset ↔ n < m := by
  have hplus : ∀ l : List Char, utcOffset < '.' :: l := fun l =>
    List.cons_lt_cons_iff.mpr (Or.inl (by decide))
  rw [fraction, fraction]
  by_cases hn0 : n = 0
  · by_cases hm0 : m = 0
    · simp [hn0, hm0]
    · rw [if_pos hn0, if_neg hm0]
      exact iff_of_true (hplus _) (by omega)
  · by_cases hm0 : m = 0
    · rw [if_neg hn0, if_pos hm0]
      exact iff_of_false (hplus _).asymm (by omega)
    · rw [if_neg hn0, if_neg hm0, List.cons_append, List.cons_append, List.cons_lt_cons_iff,
        fraction_digits_lt_iff hn hm]
      simp

/-- **The order of texts**: the text of the later instant is the greater string. -/
theorem toRfc3339_lt_iff : t.toRfc3339 < u.toRfc3339 ↔ t.nanos < u.nanos := by
  have hsep : ∀ (c : Char) (r r' : List Char), c :: r < c :: r' ↔ r < r' := fun c r r' => by
    rw [List.cons_lt_cons_iff]
    simp
  have htwo : ∀ {k : ℕ}, k < 60 → k < 10 ^ 2 := fun h => by omega
  have hyear := t.year_le
  have hyear' := u.year_le
  have hmonth := t.month_mem
  have hmonth' := u.month_mem
  have hday := t.day_mem
  have hday' := u.day_mem
  have hdays := daysInMonth_le t.year t.month
  have hdays' := daysInMonth_le u.year u.month
  have hhour := t.hour_lt
  have hhour' := u.hour_lt
  rw [nanos_lt_iff, toRfc3339, toRfc3339, String.lt_iff_toList_lt, String.toList_ofList,
    String.toList_ofList, fixedDigits_append_lt_iff (by omega) (by omega), hsep,
    fixedDigits_append_lt_iff (by omega) (by omega), hsep,
    fixedDigits_append_lt_iff (by omega) (by omega), hsep,
    fixedDigits_append_lt_iff (by omega) (by omega), hsep,
    fixedDigits_append_lt_iff (htwo t.minute_lt) (htwo u.minute_lt), hsep,
    fixedDigits_append_lt_iff (htwo t.second_lt) (htwo u.second_lt),
    fraction_append_lt_iff t.nanosecond_lt u.nanosecond_lt]

end UtcDateTime

/-- **Newer is later**: of two entries with timestamps written by `to_rfc3339` the remote one
is newer exactly when its instant is strictly later. -/
theorem resolveByTimestamp_iff_later (l r : Row) (t u : UtcDateTime) :
    (LedgerConflict.new (Row.toValue { l with timestamp := t.toRfc3339 })
      (Row.toValue { r with timestamp := u.toRfc3339 })).resolveByTimestamp = true ↔
      t.nanos < u.nanos := by
  have htimestamp : ∀ (row : Row) (text : String),
      timestampOf (Row.toValue { row with timestamp := text }) = text := fun _ _ => rfl
  simp only [LedgerConflict.resolveByTimestamp, LedgerConflict.new, htimestamp,
    decide_eq_true_eq, UtcDateTime.toRfc3339_lt_iff]

end VaultKeeper
