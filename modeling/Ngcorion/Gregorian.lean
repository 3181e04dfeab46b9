import Mathlib.Tactic.Common

/-!
# The proleptic Gregorian calendar

Dates of any year, with the number of each day: day 1 is the first day of year 1.
-/
namespace Gregorian

def isLeap (y : Int) : Bool := y % 4 = 0 && (y % 100 ≠ 0 || y % 400 = 0)

/-- The day of February 29 in the year, or none -/
def leapDay (y : Int) : Int := if isLeap y then 1 else 0

/-- The days of a year before its month -/
def beforeMonth (y m : Int) : Int := if m ≤ 2 then 31 * (m - 1) else (153 * (m - 3) + 2) / 5 + 59 + leapDay y

def monthLength (y m : Int) : Int := beforeMonth y (m + 1) - beforeMonth y m

def yearLength (y : Int) : Int := 365 + leapDay y

/-- The days before a year, from year 1 -/
def beforeYear (y : Int) : Int := (y - 1) * 365 + (y - 1) / 4 - (y - 1) / 100 + (y - 1) / 400

structure Date where
  year : Int
  month : Int
  day : Int
  month_pos : 1 ≤ month
  month_le : month ≤ 12
  day_pos : 1 ≤ day
  day_le : day ≤ monthLength year month
  deriving DecidableEq

/-- The number of a day -/
def Date.ordinal (d : Date) : Int := beforeYear d.year + beforeMonth d.year d.month + d.day

/-- The days of a year before a date -/
def Date.dayOfYear (d : Date) : Int := beforeMonth d.year d.month + (d.day - 1)

theorem leapDay_cases (y : Int) : leapDay y = 1 ∨ leapDay y = 0 := by
  unfold leapDay
  split
  · exact .inl rfl
  · exact .inr rfl

theorem leapDay_eq (y : Int) : leapDay y = y / 4 - (y - 1) / 4 - (y / 100 - (y - 1) / 100) + (y / 400 - (y - 1) / 400) := by
  unfold leapDay isLeap
  by_cases h4 : y % 4 = 0
  · by_cases h100 : y % 100 = 0
    · by_cases h400 : y % 400 = 0
      · simp [h4, h400]
        omega
      · simp [h4, h100, h400]
        omega
    · simp [h4, h100]
      omega
  · simp [h4]
    omega

theorem leapDay_four {y : Int} (h : leapDay y = 1) : y % 4 = 0 := by
  unfold leapDay at h
  by_contra hno
  simp [isLeap, hno] at h

theorem leapDay_pred {y : Int} (h : leapDay y = 1) : leapDay (y - 1) = 0 := by
  have hfour := leapDay_four h
  rcases leapDay_cases (y - 1) with hprev | hprev
  · have hfour' := leapDay_four hprev
    omega
  · exact hprev

theorem beforeYear_succ (y : Int) : beforeYear (y + 1) = beforeYear y + yearLength y := by
  have hleap := leapDay_eq y
  unfold beforeYear yearLength
  have hsub : y + 1 - 1 = y := by omega
  rw [hsub]
  omega

/-- A year holds its days. -/
theorem beforeYear_lt {y z : Int} (h : y < z) : beforeYear y + yearLength y ≤ beforeYear z := by
  rw [← beforeYear_succ]
  unfold beforeYear
  omega

theorem beforeMonth_lt {y m k : Int} (hm : 1 ≤ m) (h : m < k) : beforeMonth y m + monthLength y m ≤ beforeMonth y k := by
  have hleap := leapDay_cases y
  unfold monthLength beforeMonth
  split_ifs <;> omega

theorem beforeMonth_end (y : Int) : beforeMonth y 13 = yearLength y := by
  unfold beforeMonth yearLength
  omega

theorem monthLength_bounds {y m : Int} (hm : 1 ≤ m) (h : m ≤ 12) : 28 ≤ monthLength y m ∧ monthLength y m ≤ 31 := by
  have hleap := leapDay_cases y
  unfold monthLength beforeMonth
  split_ifs <;> omega

namespace Date

theorem dayOfYear_bounds (d : Date) : 0 ≤ d.dayOfYear ∧ d.dayOfYear < yearLength d.year := by
  have hbefore := beforeMonth_lt d.month_pos (y := d.year) (k := 13) (by have := d.month_le; omega)
  rw [beforeMonth_end] at hbefore
  have hday := d.day_le
  have hpos := d.day_pos
  have hmonth := d.month_pos
  have hleap := leapDay_cases d.year
  have hfirst : 0 ≤ beforeMonth d.year d.month := by
    unfold beforeMonth
    split_ifs <;> omega
  unfold dayOfYear
  omega

theorem ordinal_eq (d : Date) : d.ordinal = beforeYear d.year + d.dayOfYear + 1 := by
  unfold ordinal dayOfYear
  omega

/-- Days are numbered in the order of year, month and day. -/
theorem ordinal_lt_of_year {d e : Date} (h : d.year < e.year) : d.ordinal < e.ordinal := by
  have hyear := beforeYear_lt h
  have hd := d.dayOfYear_bounds
  have he := e.dayOfYear_bounds
  rw [ordinal_eq, ordinal_eq]
  omega

theorem ordinal_lt_of_month {d e : Date} (hyear : d.year = e.year) (h : d.month < e.month) : d.ordinal < e.ordinal := by
  have hmonth := beforeMonth_lt (y := d.year) d.month_pos h
  have hday := d.day_le
  have hpos := e.day_pos
  unfold ordinal
  rw [← hyear]
  omega

theorem ordinal_injective : Function.Injective ordinal := by
  intro d e h
  rcases Int.lt_trichotomy d.year e.year with hyear | hyear | hyear
  · exact absurd h (Int.ne_of_lt (ordinal_lt_of_year hyear))
  · rcases Int.lt_trichotomy d.month e.month with hmonth | hmonth | hmonth
    · exact absurd h (Int.ne_of_lt (ordinal_lt_of_month hyear hmonth))
    · obtain ⟨year, month, day, _, _, _, _⟩ := d
      obtain ⟨year', month', day', _, _, _, _⟩ := e
      obtain rfl : year = year' := hyear
      obtain rfl : month = month' := hmonth
      obtain rfl : day = day' := by simpa [ordinal] using h
      rfl
    · exact absurd h.symm (Int.ne_of_lt (ordinal_lt_of_month hyear.symm hmonth))
  · exact absurd h.symm (Int.ne_of_lt (ordinal_lt_of_year hyear))

end Date

/-! ## The date of a day -/

/-- The year of a day: cycles of 400, 100, 4 and 1 years, of which the last one of four has a day more -/
def yearAt (n : Int) : Int :=
  let r := (n - 1) % 146097
  let c := min (r / 36524) 3
  let s := r - 36524 * c
  400 * ((n - 1) / 146097) + 100 * c + 4 * (s / 1461) + min (s % 1461 / 365) 3 + 1

/-- The first day of a year of a cycle of 400 years, from the first year of the cycle -/
theorem beforeYear_parts {a c q e : Int} (hc : 0 ≤ c) (hc' : c ≤ 3) (hq : 0 ≤ q) (hq' : q ≤ 24) (he : 0 ≤ e) (he' : e ≤ 3) :
    beforeYear (400 * a + 100 * c + 4 * q + e + 1) = 146097 * a + 36524 * c + 1461 * q + 365 * e := by
  have h4 : (400 * a + 100 * c + 4 * q + e) / 4 = 100 * a + 25 * c + q := by omega
  have h100 : (400 * a + 100 * c + 4 * q + e) / 100 = 4 * a + c := by omega
  have h400 : (400 * a + 100 * c + 4 * q + e) / 400 = a := by omega
  unfold beforeYear
  rw [Int.add_sub_cancel, h4, h100, h400]
  omega

/-- The cycles of a day: only the last year of one has a 366th day. -/
theorem yearAt_parts (n : Int) : ∃ a c q e d : Int, yearAt n = 400 * a + 100 * c + 4 * q + e + 1 ∧
    n = 146097 * a + 36524 * c + 1461 * q + 365 * e + d + 1 ∧ (0 ≤ c ∧ c ≤ 3) ∧ (0 ≤ q ∧ q ≤ 24) ∧ (0 ≤ e ∧ e ≤ 3) ∧
      0 ≤ d ∧ (d < 365 ∨ d = 365 ∧ e = 3 ∧ (q < 24 ∨ c = 3)) := by
  have hcycle : ∀ r : Int, 0 ≤ r → r < 146097 → (0 ≤ min (r / 36524) 3 ∧ min (r / 36524) 3 ≤ 3) ∧
      0 ≤ r - 36524 * min (r / 36524) 3 ∧
        (r - 36524 * min (r / 36524) 3 < 36524 ∨ r - 36524 * min (r / 36524) 3 = 36524 ∧ min (r / 36524) 3 = 3) := by
    intro r hr hr'
    omega
  have hyear : ∀ t : Int, 0 ≤ t → t < 1461 → (0 ≤ min (t / 365) 3 ∧ min (t / 365) 3 ≤ 3) ∧
      0 ≤ t - 365 * min (t / 365) 3 ∧
        (t - 365 * min (t / 365) 3 < 365 ∨ t - 365 * min (t / 365) 3 = 365 ∧ min (t / 365) 3 = 3) := by
    intro t ht ht'
    omega
  obtain ⟨hc, hs, hlast⟩ := hcycle ((n - 1) % 146097) (by omega) (by omega)
  unfold yearAt
  dsimp only
  have hn : n - 1 = 146097 * ((n - 1) / 146097) + (n - 1) % 146097 := (Int.mul_ediv_add_emod (n - 1) 146097).symm
  generalize (n - 1) % 146097 = r at *
  generalize min (r / 36524) 3 = c at *
  generalize hs' : r - 36524 * c = s at *
  have hr : r = 36524 * c + s := by omega
  clear hs'
  obtain ⟨he, hd, hleap⟩ := hyear (s % 1461) (by omega) (by omega)
  have hst : s = 1461 * (s / 1461) + s % 1461 := (Int.mul_ediv_add_emod s 1461).symm
  generalize min (s % 1461 / 365) 3 = e at *
  refine ⟨(n - 1) / 146097, c, s / 1461, e, s % 1461 - 365 * e, rfl, by omega, hc, by omega, he, hd, ?_⟩
  rcases hleap with hleap | ⟨hd, he⟩
  · exact .inl hleap
  · exact .inr ⟨hd, he, by omega⟩

theorem yearAt_spec (n : Int) : beforeYear (yearAt n) < n ∧ n ≤ beforeYear (yearAt n) + yearLength (yearAt n) := by
  obtain ⟨a, c, q, e, d, hyear, hn, hc, hq, he, hd, hlast⟩ := yearAt_parts n
  have hfirst := beforeYear_parts (a := a) hc.1 hc.2 hq.1 hq.2 he.1 he.2
  rw [← beforeYear_succ, hyear]
  refine ⟨by omega, ?_⟩
  rcases hlast with hd' | ⟨rfl, rfl, hlast⟩
  · have hnext := beforeYear_lt (Int.lt_succ (400 * a + 100 * c + 4 * q + e + 1))
    have hleap := leapDay_cases (400 * a + 100 * c + 4 * q + e + 1)
    unfold yearLength at hnext
    omega
  -- the first year of the next four, or of the next cycle
  · rcases hlast with hq' | rfl
    · have hnext := beforeYear_parts (a := a) (q := q + 1) (e := 0) hc.1 hc.2 (by omega) hq' (by omega) (by omega)
      rw [show 400 * a + 100 * c + 4 * q + 3 + 1 + 1 = 400 * a + 100 * c + 4 * (q + 1) + 0 + 1 by omega]
      omega
    · by_cases hq' : q = 24
      · have hnext := beforeYear_parts (a := a + 1) (c := 0) (q := 0) (e := 0) (by omega) (by omega) (by omega) (by omega)
          (by omega) (by omega)
        rw [show 400 * a + 100 * 3 + 4 * q + 3 + 1 + 1 = 400 * (a + 1) + 100 * 0 + 4 * 0 + 0 + 1 by omega]
        omega
      · have hnext := beforeYear_parts (a := a) (c := 3) (q := q + 1) (e := 0) (by omega) (by omega) (by omega) (by omega)
          (by omega) (by omega)
        rw [show 400 * a + 100 * 3 + 4 * q + 3 + 1 + 1 = 400 * a + 100 * 3 + 4 * (q + 1) + 0 + 1 by omega]
        omega

/-- The month of a day of a year -/
def monthAt (y r : Int) : Int := if r < 59 + leapDay y then r / 31 + 1 else (5 * (r - (59 + leapDay y)) + 2) / 153 + 3

theorem monthAt_spec {y r : Int} (h : 0 ≤ r) (hr : r < yearLength y) : 1 ≤ monthAt y r ∧ monthAt y r ≤ 12 ∧
    beforeMonth y (monthAt y r) ≤ r ∧ r < beforeMonth y (monthAt y r + 1) := by
  have hleap := leapDay_cases y
  unfold yearLength at hr
  unfold monthAt beforeMonth
  split_ifs <;> omega

theorem ofOrdinal_valid (n : Int) : 0 ≤ n - beforeYear (yearAt n) - 1 ∧ n - beforeYear (yearAt n) - 1 < yearLength (yearAt n) := by
  have hyear := yearAt_spec n
  omega

/-- The day of its year, from 0 -/
def yearDay (n : Int) : Int := n - beforeYear (yearAt n) - 1

theorem yearDay_month (n : Int) : 1 ≤ monthAt (yearAt n) (yearDay n) ∧ monthAt (yearAt n) (yearDay n) ≤ 12 ∧
    beforeMonth (yearAt n) (monthAt (yearAt n) (yearDay n)) ≤ yearDay n ∧
      yearDay n < beforeMonth (yearAt n) (monthAt (yearAt n) (yearDay n) + 1) :=
  monthAt_spec (ofOrdinal_valid n).1 (ofOrdinal_valid n).2

def ofOrdinal (n : Int) : Date where
  year := yearAt n
  month := monthAt (yearAt n) (yearDay n)
  day := yearDay n - beforeMonth (yearAt n) (monthAt (yearAt n) (yearDay n)) + 1
  month_pos := (yearDay_month n).1
  month_le := (yearDay_month n).2.1
  day_pos := by
    have hmonth := yearDay_month n
    omega
  day_le := by
    have hmonth := yearDay_month n
    unfold monthLength
    omega

@[simp] theorem ordinal_ofOrdinal (n : Int) : (ofOrdinal n).ordinal = n := by
  simp only [ofOrdinal, Date.ordinal, yearDay]
  omega

@[simp] theorem ofOrdinal_ordinal (d : Date) : ofOrdinal d.ordinal = d := Date.ordinal_injective (ordinal_ofOrdinal d.ordinal)

theorem Date.eq_of_ordinal {d e : Date} (h : d.ordinal = e.ordinal) : d = e := Date.ordinal_injective h

/-- Monday is 0. -/
def Date.weekday (d : Date) : Int := (d.ordinal + 6) % 7

/-- The Monday of the week of January 4 -/
def isoWeek1Monday (y : Int) : Int :=
  let firstday := beforeYear y + 1
  let firstweekday := (firstday + 6) % 7
  let week1monday := firstday - firstweekday
  if 3 < firstweekday then week1monday + 7 else week1monday

/-- The ISO year and week -/
def Date.isocalendar (d : Date) : Int × Int :=
  let week := (d.ordinal - isoWeek1Monday d.year) / 7
  if week < 0 then (d.year - 1, (d.ordinal - isoWeek1Monday (d.year - 1)) / 7 + 1)
  else if 52 ≤ week ∧ isoWeek1Monday (d.year + 1) ≤ d.ordinal then (d.year + 1, 1)
  else (d.year, week + 1)

end Gregorian
