import Mathlib.Data.Int.Notation
import Mathlib.Data.Nat.Notation

/-! # The Gregorian calendar

Dates as days since 1 January 1970, in the calendar extended to all years. A day
is split into its year by cutting off spans of 400, 100 and 4 years, and into its
month by cutting off months.
-/

namespace Ydbgo.Calendar

structure Date where
  year : ℤ
  month : ℕ
  day : ℕ
  deriving DecidableEq, Repr

def isLeap (year : ℤ) : Bool := year % 4 = 0 ∧ (year % 100 ≠ 0 ∨ year % 400 = 0)

def daysIn (month : ℕ) (year : ℤ) : ℕ :=
  if month = 2 then if isLeap year then 29 else 28
  else if month = 4 ∨ month = 6 ∨ month = 9 ∨ month = 11 then 30
  else 31

/-- A day that is on the calendar. -/
structure Date.Valid (d : Date) : Prop where
  month_pos : 1 ≤ d.month
  month_le : d.month ≤ 12
  day_pos : 1 ≤ d.day
  day_le : d.day ≤ daysIn d.month d.year

/-- The days of the year before a month. -/
def daysBefore (year : ℤ) : ℕ → ℕ
  | 0 => 0
  | 1 => 0
  | month + 1 => daysBefore year month + daysIn month year

/-- The days from 1 January of the year 1 to that of a year. -/
def daysBeforeYear (year : ℤ) : ℤ :=
  365 * (year - 1) + (year - 1) / 4 - (year - 1) / 100 + (year - 1) / 400

/-- The days from 1 January of the year 1 to that of 1970. -/
def epoch : ℤ := 719162

def dayNumber (d : Date) : ℤ :=
  daysBeforeYear d.year + daysBefore d.year d.month + (d.day - 1) - epoch

/-- The year of a day counted from 1 January of the year 1, and the day's place in it. -/
def yearDay (n : ℤ) : ℤ × ℤ :=
  let d := n % 146097
  let n100 := min (d / 36524) 3
  let d := d - 36524 * n100
  let n4 := d / 1461
  let d := d % 1461
  let n1 := min (d / 365) 3
  (400 * (n / 146097) + 100 * n100 + 4 * n4 + n1 + 1, d - 365 * n1)

/-- The month and day of a day in its year, from a month on. -/
def monthDay (year : ℤ) : ℕ → ℕ → ℕ → ℕ × ℕ
  | 0, month, yday => (month, yday + 1)
  | left + 1, month, yday =>
    if yday < daysIn month year then (month, yday + 1)
    else monthDay year left (month + 1) (yday - daysIn month year)

def dateOf (days : ℤ) : Date :=
  let (year, yday) := yearDay (days + epoch)
  let (month, day) := monthDay year 11 1 yday.toNat
  { year := year, month := month, day := day }

/-- How the years of a day are made up. -/
theorem yearDay_spec (n : ℤ) : ∃ a b c e yday : ℤ,
    yearDay n = (400 * a + 100 * b + 4 * c + e + 1, yday) ∧
    n = 146097 * a + 36524 * b + 1461 * c + 365 * e + yday ∧
    0 ≤ b ∧ b ≤ 3 ∧ 0 ≤ c ∧ c ≤ 24 ∧ 0 ≤ e ∧ e ≤ 3 ∧ 0 ≤ yday ∧ yday ≤ 365 ∧
    (yday = 365 → e = 3 ∧ (c = 24 → b = 3)) := by
  refine ⟨n / 146097, min (n % 146097 / 36524) 3,
    (n % 146097 - 36524 * min (n % 146097 / 36524) 3) / 1461,
    min ((n % 146097 - 36524 * min (n % 146097 / 36524) 3) % 1461 / 365) 3, _, rfl, ?_⟩
  have hb : min (n % 146097 / 36524) 3 = 3 ∧ 3 ≤ n % 146097 / 36524 ∨
      min (n % 146097 / 36524) 3 = n % 146097 / 36524 ∧ n % 146097 / 36524 < 3 := by omega
  generalize min (n % 146097 / 36524) 3 = b at hb ⊢
  generalize hd : n % 146097 - 36524 * b = d
  have he : min (d % 1461 / 365) 3 = 3 ∧ 3 ≤ d % 1461 / 365 ∨
      min (d % 1461 / 365) 3 = d % 1461 / 365 ∧ d % 1461 / 365 < 3 := by omega
  generalize min (d % 1461 / 365) 3 = e at he ⊢
  omega

theorem isLeap_of_spec {a b c e : ℤ} (hc : 0 ≤ c) (hc' : c ≤ 24) (he : e = 3)
    (hcb : c = 24 → b = 3) : isLeap (400 * a + 100 * b + 4 * c + e + 1) := by
  simp only [isLeap, decide_eq_true_eq]
  omega

theorem yearDay_bounds (n : ℤ) : 0 ≤ (yearDay n).2 ∧ (yearDay n).2 ≤ 365 ∧
    ((yearDay n).2 = 365 → isLeap (yearDay n).1) := by
  obtain ⟨a, b, c, e, yday, hy, -, -, -, hc, hc', -, -, h0, h1, hl⟩ := yearDay_spec n
  rw [hy]
  exact ⟨h0, h1, fun h => isLeap_of_spec hc hc' (hl h).1 (hl h).2⟩

theorem daysBeforeYear_yearDay (n : ℤ) :
    daysBeforeYear (yearDay n).1 + (yearDay n).2 = n := by
  obtain ⟨a, b, c, e, yday, hy, hn, hb, hb', hc, hc', he, he', -⟩ := yearDay_spec n
  rw [hy]
  simp only [daysBeforeYear]
  have h4 : (400 * a + 100 * b + 4 * c + e + 1 - 1) / 4 = 100 * a + 25 * b + c := by omega
  have h100 : (400 * a + 100 * b + 4 * c + e + 1 - 1) / 100 = 4 * a + b := by omega
  have h400 : (400 * a + 100 * b + 4 * c + e + 1 - 1) / 400 = a := by omega
  rw [h4, h100, h400, hn]
  omega

/-- The days of the year up to a month's end. -/
theorem daysBefore_succ (year : ℤ) {month : ℕ} (h : 1 ≤ month) :
    daysBefore year (month + 1) = daysBefore year month + daysIn month year := by
  obtain ⟨k, rfl⟩ : ∃ k, month = k + 1 := ⟨month - 1, by omega⟩
  rfl

theorem daysBefore_thirteen (year : ℤ) :
    daysBefore year 13 = if isLeap year then 366 else 365 := by
  cases h : isLeap year <;> simp [daysBefore, daysIn, h]

/-- Cutting off months keeps the day of the year, and ends in a month that has the day. -/
theorem monthDay_spec (year : ℤ) (left month yday : ℕ) (hm : 1 ≤ month)
    (hy : daysBefore year month + yday < daysBefore year (month + left + 1)) :
    month ≤ (monthDay year left month yday).1 ∧
    (monthDay year left month yday).1 ≤ month + left ∧
    1 ≤ (monthDay year left month yday).2 ∧
    (monthDay year left month yday).2 ≤ daysIn (monthDay year left month yday).1 year ∧
    daysBefore year (monthDay year left month yday).1 + ((monthDay year left month yday).2 - 1) =
      daysBefore year month + yday := by
  induction left generalizing month yday with
  | zero =>
    rw [Nat.add_zero, daysBefore_succ year hm] at hy
    simp only [monthDay]
    omega
  | succ left ih =>
    rw [monthDay]
    split
    · simp only
      omega
    · next hge =>
      have hsucc := daysBefore_succ year hm
      have hnext := ih (month + 1) (yday - daysIn month year) (by omega)
        (by rw [hsucc, show month + 1 + left + 1 = month + (left + 1) + 1 by omega]; omega)
      rw [hsucc] at hnext
      omega

theorem dateOf_spec (days : ℤ) : (dateOf days).Valid ∧ dayNumber (dateOf days) = days := by
  obtain ⟨h0, h1, hl⟩ := yearDay_bounds (days + epoch)
  have hn := daysBeforeYear_yearDay (days + epoch)
  have hlt : daysBefore (yearDay (days + epoch)).1 1 + (yearDay (days + epoch)).2.toNat <
      daysBefore (yearDay (days + epoch)).1 (1 + 11 + 1) := by
    rw [show 1 + 11 + 1 = 13 by rfl, daysBefore_thirteen]
    simp only [daysBefore]
    by_cases h365 : (yearDay (days + epoch)).2 = 365
    · rw [if_pos (hl h365)]
      omega
    · split <;> omega
  obtain ⟨hm, hm', hd, hd', he⟩ := monthDay_spec _ 11 1 _ (Nat.le_refl 1) hlt
  constructor
  · exact ⟨hm, hm', hd, hd'⟩
  · simp only [dayNumber, dateOf]
    simp only [daysBefore] at he
    omega

theorem valid_dateOf (days : ℤ) : (dateOf days).Valid := (dateOf_spec days).1

/-- A day is found again from its date. -/
theorem dayNumber_dateOf (days : ℤ) : dayNumber (dateOf days) = days := (dateOf_spec days).2

example : dateOf 0 = ⟨1970, 1, 1⟩ ∧ dateOf 11016 = ⟨2000, 2, 29⟩ ∧ dateOf (-1) = ⟨1969, 12, 31⟩ := by
  decide

end Ydbgo.Calendar
