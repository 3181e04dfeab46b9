import Ngcorion.Gregorian
import Ngcorion.Text

/-!
# The calendars of a report

Gregorian dates to Solar Hijri dates and back, and the first days of months, quarters and years in either calendar.
-/
namespace Calendar

open Gregorian Text

/-- A date of the years that `datetime.date` knows -/
structure CivilDate extends Gregorian.Date where
  minyear : 1 ≤ year
  maxyear : year ≤ 9999

instance : DecidableEq CivilDate := fun a b =>
  decidable_of_iff (a.toDate = b.toDate) ⟨fun h => by cases a; cases b; cases h; rfl, fun h => h ▸ rfl⟩

/-- `date(y, m, d)`, or a `ValueError` -/
def date (y m d : Int) : Option CivilDate :=
  if h : 1 ≤ y ∧ y ≤ 9999 ∧ 1 ≤ m ∧ m ≤ 12 ∧ 1 ≤ d ∧ d ≤ monthLength y m then
    some
      { year := y
        month := m
        day := d
        month_pos := h.2.2.1
        month_le := h.2.2.2.1
        day_pos := h.2.2.2.2.1
        day_le := h.2.2.2.2.2
        minyear := h.1
        maxyear := h.2.1 }
  else none

inductive Lang where
  | fa
  | en

/-! ## Solar Hijri and Gregorian dates -/

def g_d_m : List Int := [0, 31, 59, 90, 120, 151, 181, 212, 243, 273, 304, 334]

/-- The days of `to_jalali` up to a date -/
def gregorian_days (gy gm gd : Int) : Int :=
  let gy2 := if gm > 2 then gy + 1 else gy
  355666 + 365 * gy + (gy2 + 3) / 4 - (gy2 + 99) / 100 + (gy2 + 399) / 400 + gd + g_d_m.getD (gm - 1).toNat 0

/-- The year of a day, and the days of that year before it -/
def jalali_year (days : Int) : Int × Int :=
  let jy := -1595 + 33 * (days / 12053)
  let days := days % 12053
  let jy := jy + 4 * (days / 1461)
  let days := days % 1461
  if days > 365 then (jy + (days - 1) / 365, (days - 1) % 365) else (jy, days)

/-- The month and the day of the month -/
def jalali_month (days : Int) : Int × Int :=
  if days < 186 then (1 + days / 31, 1 + days % 31) else (7 + (days - 186) / 30, 1 + (days - 186) % 30)

def to_jalali (d : CivilDate) : Int × Int × Int :=
  let year := jalali_year (gregorian_days d.year d.month d.day)
  (year.1, jalali_month year.2)

/-- The days of `from_jalali` up to a date -/
def jalali_days (jy jm jd : Int) : Int :=
  let jy := jy + 1595
  365 * jy - 355668 + jy / 33 * 8 + (jy % 33 + 3) / 4 + jd + (if jm < 7 then (jm - 1) * 31 else (jm - 7) * 30 + 186)

def gregorian_year (days : Int) : Int × Int :=
  let gy := 400 * (days / 146097)
  let days := days % 146097
  let (gy, days) :=
    if days > 36524 then
      let days := days - 1
      (gy + 100 * (days / 36524), if days % 36524 ≥ 365 then days % 36524 + 1 else days % 36524)
    else (gy, days)
  let gy := gy + 4 * (days / 1461)
  let days := days % 1461
  if days > 365 then (gy + (days - 1) / 365, (days - 1) % 365) else (gy, days)

def month_days (leap : Bool) : List Int := [31, if leap then 29 else 28, 31, 30, 31, 30, 31, 31, 30, 31, 30, 31]

/-- The loop over the months: full months, and the day of the month after them -/
def pass_months : List Int → Int → Int → Int × Int
  | [], gm, gd => (gm, gd)
  | days :: rest, gm, gd => if gd > days then pass_months rest (gm + 1) (gd - days) else (gm, gd)

def from_jalali (jy jm jd : Int) : Option CivilDate :=
  let year := gregorian_year (jalali_days jy jm jd)
  let gy := year.1
  let leap := (gy % 4 = 0 && gy % 100 ≠ 0) || gy % 400 = 0
  let month := pass_months (month_days leap) 0 (year.2 + 1)
  date gy (month.1 + 1) month.2

/-! ## First days -/

def month_start (d : CivilDate) (lang : Lang) (offset : Int) : Option CivilDate :=
  match lang with
  | .fa =>
    let (y, m, _) := to_jalali d
    let m0 := (m - 1) + offset
    from_jalali (y + m0 / 12) (m0 % 12 + 1) 1
  | .en =>
    let m0 := (d.month - 1) + offset
    date (d.year + m0 / 12) (m0 % 12 + 1) 1

def quarter_start (d : CivilDate) (lang : Lang) (offset : Int) : Option CivilDate :=
  match lang with
  | .fa =>
    let (y, m, _) := to_jalali d
    let q0 := (m - 1) / 3 * 3 + offset * 3
    from_jalali (y + q0 / 12) (q0 % 12 + 1) 1
  | .en =>
    let q0 := (d.month - 1) / 3 * 3 + offset * 3
    date (d.year + q0 / 12) (q0 % 12 + 1) 1

def year_start (d : CivilDate) (lang : Lang) : Option CivilDate :=
  match lang with
  | .fa => from_jalali (to_jalali d).1 1 1
  | .en => date d.year 1 1

/-! ## Texts -/

def FA_DIGITS : List (Char × Char) := (lit "0123456789").zip (lit "۰۱۲۳۴۵۶۷۸۹")

def FA_MONTHS : List Str :=
  [lit "فروردین", lit "اردیبهشت", lit "خرداد", lit "تیر", lit "مرداد", lit "شهریور", lit "مهر", lit "آبان", lit "آذر", lit "دی",
   lit "بهمن", lit "اسفند"]

def EN_MONTHS : List Str :=
  [lit "Jan", lit "Feb", lit "Mar", lit "Apr", lit "May", lit "Jun", lit "Jul", lit "Aug", lit "Sep", lit "Oct", lit "Nov",
   lit "Dec"]

def EN_MONTHS_LONG : List Str :=
  [lit "January", lit "February", lit "March", lit "April", lit "May", lit "June", lit "July", lit "August", lit "September",
   lit "October", lit "November", lit "December"]

/-- `str(n)` -/
def intStr (n : Int) : Str := if n < 0 then '-' :: Nat.toDigits 10 n.natAbs else Nat.toDigits 10 n.natAbs

def fa_digits (value : Str) : Str := value.map fun c => (FA_DIGITS.lookup c).getD c

def fmt_date (d : CivilDate) (lang : Lang) : Str :=
  match lang with
  | .fa =>
    let (y, m, dd) := to_jalali d
    fa_digits (intStr dd ++ ' ' :: FA_MONTHS.getD (m - 1).toNat [] ++ ' ' :: intStr y)
  | .en => EN_MONTHS.getD (d.month - 1).toNat [] ++ ' ' :: intStr d.day ++ lit ", " ++ intStr d.year

def month_label (d : CivilDate) (lang : Lang) : Str :=
  match lang with
  | .fa =>
    let (y, m, _) := to_jalali d
    fa_digits (FA_MONTHS.getD (m - 1).toNat [] ++ ' ' :: intStr y)
  | .en => EN_MONTHS_LONG.getD (d.month - 1).toNat [] ++ ' ' :: intStr d.year

/-! ## Days -/

theorem date_eq_some {y m d : Int} {e : CivilDate} : date y m d = some e ↔ e.year = y ∧ e.month = m ∧ e.day = d := by
  unfold date
  constructor
  · intro h
    split at h
    · cases h
      exact ⟨rfl, rfl, rfl⟩
    · cases h
  · rintro ⟨rfl, rfl, rfl⟩
    rw [dif_pos ⟨e.minyear, e.maxyear, e.month_pos, e.month_le, e.day_pos, e.day_le⟩]

theorem CivilDate.eq_of_ordinal {d e : CivilDate} (h : d.ordinal = e.ordinal) : d = e := by
  have hdate : d.toDate = e.toDate := Date.ordinal_injective h
  cases d
  cases e
  cases hdate
  rfl

theorem g_d_m_eq {m : Int} (hpos : 1 ≤ m) (hle : m ≤ 12) :
    g_d_m.getD (m - 1).toNat 0 = if m ≤ 2 then 31 * (m - 1) else (153 * (m - 3) + 2) / 5 + 59 := by
  obtain ⟨k, rfl⟩ : ∃ k : Nat, m = k + 1 := ⟨(m - 1).toNat, by omega⟩
  have hk : k < 12 := by omega
  rw [Int.add_sub_cancel, Int.toNat_natCast]
  clear hpos hle
  revert k
  decide

/-- `to_jalali` counts the days up to a date. -/
theorem gregorian_days_eq (d : Date) : gregorian_days d.year d.month d.day = d.ordinal + 356032 := by
  unfold gregorian_days Date.ordinal beforeMonth
  dsimp only
  rw [g_d_m_eq d.month_pos d.month_le]
  generalize d.month = m
  by_cases hm : m ≤ 2
  · rw [if_neg (Int.not_lt.mpr hm), if_pos hm, if_pos hm]
    unfold beforeYear
    omega
  · rw [if_pos (Int.not_le.mp hm), if_neg hm, if_neg hm, leapDay_eq]
    unfold beforeYear
    omega

/-- The first day of a year of a cycle of 400 years; day 0 is the first day of year 0. -/
theorem beforeYear_cycle {a c q e : Int} (hc : 0 ≤ c) (hc' : c ≤ 3) (hq : 0 ≤ q) (hq' : q ≤ 24) (he : 0 ≤ e) (he' : e ≤ 3) :
    beforeYear (400 * a + 100 * c + 4 * q + e) + 366 = 146097 * a + 36524 * c + 1461 * q + 365 * e +
      (if e = 0 then 0 else 1) - (if q = 0 ∧ e = 0 then 0 else 1) + (if c = 0 ∧ q = 0 ∧ e = 0 then 0 else 1) := by
  generalize hy : 400 * a + 100 * c + 4 * q + e = y
  have h4 : (y - 1) / 4 = 100 * a + 25 * c + q - (if e = 0 then 1 else 0) := by
    split_ifs <;> omega
  have h100 : (y - 1) / 100 = 4 * a + c - (if q = 0 ∧ e = 0 then 1 else 0) := by
    split_ifs <;> omega
  have h400 : (y - 1) / 400 = a - (if c = 0 ∧ q = 0 ∧ e = 0 then 1 else 0) := by
    split_ifs <;> omega
  unfold beforeYear
  rw [h4, h100, h400]
  split_ifs <;> omega

theorem leapDay_cycle {a c q e : Int} (hc : 0 ≤ c) (hc' : c ≤ 3) (hq : 0 ≤ q) (hq' : q ≤ 24) (he : 0 ≤ e) (he' : e ≤ 3) :
    leapDay (400 * a + 100 * c + 4 * q + e) = if e = 0 ∧ (c = 0 ∨ q ≠ 0) then 1 else 0 := by
  unfold leapDay isLeap
  have h4 : (400 * a + 100 * c + 4 * q + e) % 4 = e := by omega
  have h100 : (400 * a + 100 * c + 4 * q + e) % 100 = 4 * q + e := by omega
  have h400 : (400 * a + 100 * c + 4 * q + e) % 400 = 100 * c + 4 * q + e := by omega
  simp only [h4, h100, h400, Bool.and_eq_true, Bool.or_eq_true, decide_eq_true_eq]
  split_ifs <;> omega

/-- The year and the day of the year that `from_jalali` finds -/
theorem gregorian_year_spec (n : Int) : beforeYear (gregorian_year n).1 + 366 + (gregorian_year n).2 = n ∧
    0 ≤ (gregorian_year n).2 ∧ (gregorian_year n).2 < yearLength (gregorian_year n).1 := by
  obtain ⟨a, c, d, hyear, hn, hc, hd, hfirst⟩ : ∃ a c d : Int,
      gregorian_year n = (if d % 1461 > 365 then
        (400 * a + 100 * c + 4 * (d / 1461) + (d % 1461 - 1) / 365, (d % 1461 - 1) % 365)
      else (400 * a + 100 * c + 4 * (d / 1461), d % 1461)) ∧
      n = 146097 * a + 36524 * c + d + (if c ≠ 0 ∧ d < 365 then 1 else 0) ∧ (0 ≤ c ∧ c ≤ 3) ∧ (0 ≤ d ∧ d ≤ 36524) ∧
      (c ≠ 0 → d ≠ 365) := by
    unfold gregorian_year
    dsimp only
    by_cases h : n % 146097 > 36524
    · by_cases h' : (n % 146097 - 1) % 36524 ≥ 365
      · refine ⟨n / 146097, (n % 146097 - 1) / 36524, (n % 146097 - 1) % 36524 + 1, ?_, ?_, ?_, ?_, ?_⟩
        · simp [h, h']
        · split_ifs <;> omega
        · omega
        · omega
        · omega
      · refine ⟨n / 146097, (n % 146097 - 1) / 36524, (n % 146097 - 1) % 36524, ?_, ?_, ?_, ?_, ?_⟩
        · simp [h, h']
        · split_ifs <;> omega
        · omega
        · omega
        · omega
    · refine ⟨n / 146097, 0, n % 146097, ?_, ?_, ?_, ?_, ?_⟩
      · simp [h]
      · split_ifs <;> omega
      · omega
      · omega
      · omega
  generalize hq : d / 1461 = q at hyear
  generalize ht : d % 1461 = t at hyear
  have hdt : d = 1461 * q + t := by omega
  have hqb : 0 ≤ q ∧ q ≤ 24 := by omega
  have htb : 0 ≤ t ∧ t < 1461 := by omega
  clear hq ht
  unfold yearLength
  split at hyear
  · generalize he : (t - 1) / 365 = e at hyear
    have heb : 1 ≤ e ∧ e ≤ 3 := by omega
    have hrest : (t - 1) % 365 = t - 1 - 365 * e ∧ t - 1 - 365 * e < 365 := by omega
    have hyears := beforeYear_cycle (a := a) hc.1 hc.2 hqb.1 hqb.2 (show 0 ≤ e by omega) heb.2
    have hleap := leapDay_cases (400 * a + 100 * c + 4 * q + e)
    have hne : e ≠ 0 := by omega
    rw [if_neg hne, if_neg (fun h => hne h.2), if_neg (fun h => hne h.2.2)] at hyears
    rw [if_neg (by omega)] at hn
    rw [hyear]
    dsimp only
    rw [hrest.1]
    clear hfirst
    omega
  · have hyears := beforeYear_cycle (a := a) hc.1 hc.2 hqb.1 hqb.2 (show (0 : Int) ≤ 0 by omega) (by omega)
    have hleap := leapDay_cycle (a := a) hc.1 hc.2 hqb.1 hqb.2 (show (0 : Int) ≤ 0 by omega) (by omega)
    rw [Int.add_zero] at hyears hleap
    rw [hyear]
    dsimp only
    rw [hleap]
    simp only [true_and, and_true, if_true] at hyears ⊢
    by_cases hq : q = 0
    · subst hq
      by_cases hc0 : c = 0
      · rw [if_neg (fun h => h.1 hc0)] at hn
        simp only [hc0, true_or, if_true, and_true] at hyears ⊢
        omega
      · simp only [hc0, ne_eq, not_true, or_self, false_and, if_true, if_false, true_and, not_false_eq_true] at hn hyears ⊢
        have hne := hfirst hc0
        split at hn <;> omega
    · rw [if_neg (by omega)] at hn
      rw [if_neg hq, if_neg (fun h => hq h.2)] at hyears
      rw [if_pos (.inr hq)]
      omega

/-- The lengths of so many months from a month on -/
def lengthsFrom (y : Int) : Nat → Int → List Int
  | 0, _ => []
  | n + 1, m => monthLength y m :: lengthsFrom y n (m + 1)

theorem month_days_eq (y : Int) : month_days (isLeap y) = lengthsFrom y 12 1 := by
  have hleap : leapDay y = if isLeap y then 1 else 0 := rfl
  cases hl : isLeap y <;> rw [hl] at hleap <;> simp [month_days, lengthsFrom, monthLength, beforeMonth, hleap]

/-- The loop over the months stops in the month of the day. -/
theorem pass_months_spec (y : Int) (n : Nat) (gm gd : Int) (hpos : 1 ≤ gd)
    (hfull : beforeMonth y (gm + 1) + gd ≤ beforeMonth y (gm + 1 + n)) :
    let month := pass_months (lengthsFrom y n (gm + 1)) gm gd
    gm ≤ month.1 ∧ month.1 < gm + n ∧ 1 ≤ month.2 ∧ month.2 ≤ monthLength y (month.1 + 1) ∧
      beforeMonth y (month.1 + 1) + month.2 = beforeMonth y (gm + 1) + gd := by
  induction n generalizing gm gd with
  | zero =>
    simp at hfull
    omega
  | succ n ih =>
    have hmonth : monthLength y (gm + 1) = beforeMonth y (gm + 1 + 1) - beforeMonth y (gm + 1) := rfl
    rw [lengthsFrom, pass_months]
    split
    · have hnext : gm + 1 + ((n + 1 : Nat) : Int) = gm + 1 + 1 + n := by omega
      rw [hnext] at hfull
      have := ih (gm + 1) (gd - monthLength y (gm + 1)) (by omega) (by omega)
      dsimp only at this ⊢
      omega
    · dsimp only
      omega

theorem leap_eq (y : Int) : ((y % 4 = 0 && y % 100 ≠ 0) || y % 400 = 0 : Bool) = isLeap y := by
  have h : y % 400 = 0 → y % 4 = 0 := by omega
  unfold isLeap
  by_cases h4 : y % 4 = 0
  · simp [h4]
  · simpa [h4] using fun h400 => h4 (h h400)

/-- `from_jalali` gives the date of the day that it counts, when that is a date. -/
theorem from_jalali_iff (jy jm jd : Int) (e : CivilDate) :
    from_jalali jy jm jd = some e ↔ e.ordinal + 365 = jalali_days jy jm jd := by
  have hyear := gregorian_year_spec (jalali_days jy jm jd)
  simp only [from_jalali, leap_eq, date_eq_some, month_days_eq]
  generalize jalali_days jy jm jd = n at *
  generalize gregorian_year n = year at *
  obtain ⟨y, r⟩ := year
  dsimp only at hyear ⊢
  have hfirst : beforeMonth y 1 = 0 := by simp [beforeMonth]
  have hmonth := pass_months_spec y 12 0 (r + 1) (by omega) (by
    rw [show (0 : Int) + 1 = 1 from rfl, show (1 : Int) + (12 : Nat) = 13 from rfl, hfirst, beforeMonth_end]
    omega)
  rw [show (0 : Int) + 1 = 1 from rfl, hfirst] at hmonth
  generalize pass_months (lengthsFrom y 12 1) 0 (r + 1) = month at *
  obtain ⟨m, d⟩ := month
  dsimp only at hmonth ⊢
  constructor
  · rintro ⟨rfl, hm, hd⟩
    rw [Date.ordinal, hm, hd]
    omega
  · intro h
    let there : Date :=
      { year := y
        month := m + 1
        day := d
        month_pos := by omega
        month_le := by omega
        day_pos := by omega
        day_le := by omega }
    have hthere : e.toDate = there := by
      apply Date.ordinal_injective
      have hordinal : there.ordinal = beforeYear y + beforeMonth y (m + 1) + d := rfl
      omega
    have hy : e.year = there.year := by rw [hthere]
    have hm : e.month = there.month := by rw [hthere]
    have hd : e.day = there.day := by rw [hthere]
    exact ⟨hy, hm, hd⟩

/-- The first day of a Solar Hijri year, and its length, as `from_jalali` counts days -/
def jalaliLength (y : Int) : Int := jalali_days (y + 1) 1 1 - jalali_days y 1 1

theorem jalaliLength_cases (y : Int) : jalaliLength y = 365 ∨ jalaliLength y = 366 := by
  unfold jalaliLength jalali_days
  dsimp only
  split_ifs <;> omega

/-- A year holds its days. -/
theorem jalali_years {y z : Int} (h : y < z) : jalali_days y 1 1 + jalaliLength y ≤ jalali_days z 1 1 := by
  unfold jalaliLength jalali_days
  dsimp only
  split_ifs <;> omega

/-- The first day of a year of a cycle of 33 years -/
theorem jalali_days_cycle {y q s : Int} (hy : y = 33 * q + s - 1595) (h : 0 ≤ s) (hs : s ≤ 32) :
    jalali_days y 1 1 = 12053 * q + 365 * s + (s + 3) / 4 - 355667 := by
  have hu : y + 1595 = 33 * q + s := by omega
  have hdiv : (33 * q + s) / 33 = q := by omega
  have hmod : (33 * q + s) % 33 = s := by omega
  unfold jalali_days
  dsimp only
  rw [hu, hdiv, hmod, if_pos (by decide)]
  omega

theorem jalaliLength_cycle {y q s : Int} (hy : y = 33 * q + s - 1595) (h : 0 ≤ s) (hs : s ≤ 32) :
    jalaliLength y = 365 + if s % 4 = 0 ∧ s < 32 then 1 else 0 := by
  unfold jalaliLength
  rw [jalali_days_cycle hy h hs]
  by_cases hlast : s = 32
  · rw [jalali_days_cycle (show y + 1 = 33 * (q + 1) + 0 - 1595 by omega) (by decide) (by decide)]
    split_ifs <;> omega
  · rw [jalali_days_cycle (show y + 1 = 33 * q + (s + 1) - 1595 by omega) (by omega) (by omega)]
    split_ifs <;> omega

theorem jalaliLength_four {y : Int} (h : jalaliLength y = 366) : (y + 1595) % 33 % 4 = 0 ∧ (y + 1595) % 33 < 32 := by
  have hlength := jalaliLength_cycle (y := y) (q := (y + 1595) / 33) (s := (y + 1595) % 33) (by omega) (by omega) (by omega)
  by_contra hno
  rw [if_neg hno] at hlength
  omega

theorem jalaliLength_pred {y : Int} (h : jalaliLength y = 366) : jalaliLength (y - 1) = 365 := by
  have hfour := jalaliLength_four h
  rcases jalaliLength_cases (y - 1) with hprev | hprev
  · exact hprev
  · have hfour' := jalaliLength_four hprev
    omega

theorem jalali_year_spec (n : Int) : jalali_days (jalali_year n).1 1 1 + (jalali_year n).2 + 355667 = n ∧
    0 ≤ (jalali_year n).2 ∧ (jalali_year n).2 < jalaliLength (jalali_year n).1 := by
  unfold jalali_year
  dsimp only
  generalize hq : n / 12053 = q
  generalize hr : n % 12053 = r
  have hn : n = 12053 * q + r := by omega
  have hrb : 0 ≤ r ∧ r < 12053 := by omega
  generalize hc : r / 1461 = c
  generalize ht : r % 1461 = t
  have hrt : r = 1461 * c + t := by omega
  have hcb : 0 ≤ c ∧ c ≤ 8 := by omega
  have htb : 0 ≤ t ∧ t < 1461 := by omega
  clear hq hr hc ht
  split
  · generalize hd : (t - 1) / 365 = d
    have hdb : 1 ≤ d ∧ d ≤ 3 ∧ c ≤ 7 := by omega
    have hy : -1595 + 33 * q + 4 * c + d = 33 * q + (4 * c + d) - 1595 := by omega
    rw [jalali_days_cycle hy (by omega) (by omega), jalaliLength_cycle hy (by omega) (by omega)]
    split_ifs <;> omega
  · have hy : -1595 + 33 * q + 4 * c = 33 * q + 4 * c - 1595 := by omega
    rw [jalali_days_cycle hy (by omega) (by omega), jalaliLength_cycle hy (by omega) (by omega)]
    split_ifs <;> omega

/-- A date of the Solar Hijri calendar: the last month has 30 days only in a year of 366 days. -/
structure Valid (date : Int × Int × Int) : Prop where
  month_pos : 1 ≤ date.2.1
  month_le : date.2.1 ≤ 12
  day_pos : 1 ≤ date.2.2
  day_le : date.2.2 ≤ if date.2.1 ≤ 6 then 31 else 30
  last_day : date.2.1 = 12 → date.2.2 = 30 → jalaliLength date.1 = 366

/-- The order of dates: year, month, day -/
def Before (a b : Int × Int × Int) : Prop := a.1 < b.1 ∨ a.1 = b.1 ∧ (a.2.1 < b.2.1 ∨ a.2.1 = b.2.1 ∧ a.2.2 < b.2.2)

theorem before_trichotomy (a b : Int × Int × Int) : Before a b ∨ a = b ∨ Before b a := by
  unfold Before
  rw [Prod.ext_iff, Prod.ext_iff]
  omega

theorem jalali_days_eq (y m d : Int) :
    jalali_days y m d = jalali_days y 1 1 + (d - 1) + if m < 7 then (m - 1) * 31 else (m - 7) * 30 + 186 := by
  unfold jalali_days
  dsimp only
  rw [if_pos (show (1 : Int) < 7 by decide)]
  omega

theorem day_in_year {a : Int × Int × Int} (h : Valid a) :
    jalali_days a.1 1 1 ≤ jalali_days a.1 a.2.1 a.2.2 ∧ jalali_days a.1 a.2.1 a.2.2 < jalali_days a.1 1 1 + jalaliLength a.1 := by
  obtain ⟨h₁, h₂, h₃, h₄, h₅⟩ := h
  have hlength := jalaliLength_cases a.1
  rw [jalali_days_eq a.1 a.2.1]
  by_cases hlast : a.2.1 = 12 ∧ a.2.2 = 30
  · have := h₅ hlast.1 hlast.2
    split_ifs <;> omega
  · split_ifs at h₄ ⊢ <;> omega

theorem jalali_days_lt {a b : Int × Int × Int} (ha : Valid a) (hb : Valid b) (h : Before a b) :
    jalali_days a.1 a.2.1 a.2.2 < jalali_days b.1 b.2.1 b.2.2 := by
  rcases h with hy | ⟨hy, h⟩
  · have hyears := jalali_years hy
    have hday := day_in_year ha
    have hday' := day_in_year hb
    omega
  · have hday := ha.day_le
    have hpos := hb.day_pos
    rw [jalali_days_eq a.1, jalali_days_eq b.1, hy]
    split_ifs at * <;> omega

theorem jalali_days_injective {a b : Int × Int × Int} (ha : Valid a) (hb : Valid b)
    (h : jalali_days a.1 a.2.1 a.2.2 = jalali_days b.1 b.2.1 b.2.2) : a = b := by
  rcases before_trichotomy a b with hlt | heq | hgt
  · exact absurd h (Int.ne_of_lt (jalali_days_lt ha hb hlt))
  · exact heq
  · exact absurd h.symm (Int.ne_of_lt (jalali_days_lt hb ha hgt))

/-- `to_jalali` gives a date of the calendar, which `from_jalali` counts as the same day. -/
theorem to_jalali_spec (d : CivilDate) : Valid (to_jalali d) ∧
    jalali_days (to_jalali d).1 (to_jalali d).2.1 (to_jalali d).2.2 = d.ordinal + 365 := by
  have hdays := gregorian_days_eq d.toDate
  have hyear := jalali_year_spec (gregorian_days d.year d.month d.day)
  unfold to_jalali
  dsimp only
  generalize gregorian_days d.year d.month d.day = n at *
  generalize jalali_year n = year at *
  obtain ⟨y, r⟩ := year
  dsimp only at *
  have hlength := jalaliLength_cases y
  unfold jalali_month
  refine ⟨⟨?_, ?_, ?_, ?_, ?_⟩, ?_⟩
  · split_ifs <;> dsimp only <;> omega
  · split_ifs <;> dsimp only <;> omega
  · split_ifs <;> dsimp only <;> omega
  · split_ifs <;> dsimp only at * <;> omega
  · split_ifs <;> dsimp only at * <;> omega
  · rw [jalali_days_eq]
    split_ifs <;> dsimp only at * <;> omega

theorem from_jalali_to_jalali (d : CivilDate) :
    from_jalali (to_jalali d).1 (to_jalali d).2.1 (to_jalali d).2.2 = some d :=
  (from_jalali_iff _ _ _ d).mpr (to_jalali_spec d).2.symm

/-- Solar Hijri dates whose day is a Gregorian date come back as they were; the others are refused. -/
theorem from_jalali_eq_some {a : Int × Int × Int} (ha : Valid a) (d : CivilDate) :
    from_jalali a.1 a.2.1 a.2.2 = some d ↔ to_jalali d = a := by
  rw [from_jalali_iff, ← (to_jalali_spec d).2]
  constructor
  · intro h
    exact jalali_days_injective (to_jalali_spec d).1 ha h
  · rintro rfl
    rfl

theorem to_jalali_lt {d e : CivilDate} : Before (to_jalali d) (to_jalali e) ↔ d.ordinal < e.ordinal := by
  have hd := to_jalali_spec d
  have he := to_jalali_spec e
  constructor
  · intro h
    have := jalali_days_lt hd.1 he.1 h
    omega
  · intro h
    rcases before_trichotomy (to_jalali d) (to_jalali e) with hlt | heq | hgt
    · exact hlt
    · rw [heq] at hd
      omega
    · have := jalali_days_lt he.1 hd.1 hgt
      omega

/-! ## Months -/

/-- A date as a calendar writes it -/
def fields (lang : Lang) (d : CivilDate) : Int × Int × Int :=
  match lang with
  | .fa => to_jalali d
  | .en => (d.year, d.month, d.day)

/-- Months are numbered from the first month of year 0. -/
def monthOf (lang : Lang) (d : CivilDate) : Int := 12 * (fields lang d).1 + (fields lang d).2.1 - 1

/-- The date of the first day of a month, or a `ValueError` -/
def first_of (lang : Lang) (k : Int) : Option CivilDate :=
  match lang with
  | .fa => from_jalali (k / 12) (k % 12 + 1) 1
  | .en => date (k / 12) (k % 12 + 1) 1

/-- The day on which a month begins -/
def firstDay (lang : Lang) (k : Int) : Int :=
  match lang with
  | .fa => jalali_days (k / 12) (k % 12 + 1) 1 - 365
  | .en => beforeYear (k / 12) + beforeMonth (k / 12) (k % 12 + 1) + 1

theorem fields_month (lang : Lang) (d : CivilDate) : 1 ≤ (fields lang d).2.1 ∧ (fields lang d).2.1 ≤ 12 := by
  cases lang with
  | fa => exact ⟨(to_jalali_spec d).1.month_pos, (to_jalali_spec d).1.month_le⟩
  | en => exact ⟨d.month_pos, d.month_le⟩

theorem month_start_eq (d : CivilDate) (lang : Lang) (k : Int) : month_start d lang k = first_of lang (monthOf lang d + k) := by
  have hmonth := fields_month lang d
  cases lang <;> simp only [month_start, first_of, monthOf, fields] at *
  · generalize to_jalali d = a at *
    obtain ⟨y, m, _⟩ := a
    dsimp only at hmonth ⊢
    congr 1 <;> omega
  · congr 1 <;> omega

theorem quarter_start_eq (d : CivilDate) (lang : Lang) (k : Int) :
    quarter_start d lang k = first_of lang (3 * (monthOf lang d / 3 + k)) := by
  have hmonth := fields_month lang d
  cases lang <;> simp only [quarter_start, first_of, monthOf, fields] at *
  · generalize to_jalali d = a at *
    obtain ⟨y, m, _⟩ := a
    dsimp only at hmonth ⊢
    congr 1 <;> omega
  · congr 1 <;> omega

theorem year_start_eq (d : CivilDate) (lang : Lang) : year_start d lang = first_of lang (12 * (monthOf lang d / 12)) := by
  have hmonth := fields_month lang d
  cases lang <;> simp only [year_start, first_of, monthOf, fields] at *
  · generalize to_jalali d = a at *
    obtain ⟨y, m, _⟩ := a
    dsimp only at hmonth ⊢
    congr 1 <;> omega
  · congr 1 <;> omega

theorem valid_first (k : Int) : Valid (k / 12, k % 12 + 1, 1) := by
  refine ⟨?_, ?_, ?_, ?_, ?_⟩ <;> dsimp only
  · omega
  · omega
  · omega
  · split_ifs <;> omega
  · omega

theorem first_of_iff (lang : Lang) (k : Int) (e : CivilDate) : first_of lang k = some e ↔ e.ordinal = firstDay lang k := by
  cases lang with
  | fa =>
    rw [first_of, from_jalali_iff, firstDay]
    omega
  | en =>
    rw [first_of, date_eq_some, firstDay]
    constructor
    · rintro ⟨hy, hm, hd⟩
      rw [Date.ordinal, hy, hm, hd]
    · intro h
      have hlength := monthLength_bounds (y := k / 12) (m := k % 12 + 1) (by omega) (by omega)
      let first : Date :=
        { year := k / 12
          month := k % 12 + 1
          day := 1
          month_pos := by omega
          month_le := by omega
          day_pos := by omega
          day_le := by omega }
      have hfirst : e.toDate = first := Date.ordinal_injective h
      have hy : e.year = first.year := by rw [hfirst]
      have hm : e.month = first.month := by rw [hfirst]
      have hd : e.day = first.day := by rw [hfirst]
      exact ⟨hy, hm, hd⟩

theorem firstDay_lt {lang : Lang} {k l : Int} (h : k < l) : firstDay lang k < firstDay lang l := by
  have hbefore : k / 12 < l / 12 ∨ k / 12 = l / 12 ∧ k % 12 + 1 < l % 12 + 1 := by omega
  cases lang with
  | fa =>
    have := jalali_days_lt (valid_first k) (valid_first l) (hbefore.imp_right (And.imp_right .inl))
    unfold firstDay
    dsimp only at this ⊢
    omega
  | en =>
    unfold firstDay
    dsimp only
    rcases hbefore with hy | ⟨hy, hm⟩
    · have hyears := beforeYear_lt hy
      have hk := beforeMonth_lt (show 1 ≤ k % 12 + 1 by omega) (show k % 12 + 1 < 13 by omega) (y := k / 12)
      have hl : 0 ≤ beforeMonth (l / 12) (l % 12 + 1) := by
        have := leapDay_cases (l / 12)
        unfold beforeMonth
        split_ifs <;> omega
      have hlength := monthLength_bounds (y := k / 12) (m := k % 12 + 1) (by omega) (by omega)
      rw [beforeMonth_end] at hk
      omega
    · have hmonth := beforeMonth_lt (show 1 ≤ k % 12 + 1 by omega) hm (y := k / 12)
      have hlength := monthLength_bounds (y := k / 12) (m := k % 12 + 1) (by omega) (by omega)
      rw [← hy]
      omega

/-- No month has more than 31 days. -/
theorem firstDay_next (lang : Lang) (k : Int) : firstDay lang (k + 1) ≤ firstDay lang k + 31 := by
  by_cases hlast : k % 12 = 11
  · have hy : (k + 1) / 12 = k / 12 + 1 := by omega
    have hm : (k + 1) % 12 + 1 = 1 := by omega
    cases lang with
    | fa =>
      have hlength := jalaliLength_cases (k / 12)
      unfold jalaliLength at hlength
      simp only [firstDay, hy, hm, hlast]
      rw [jalali_days_eq (k / 12) (11 + 1), if_neg (by decide)]
      omega
    | en =>
      have hyears := beforeYear_succ (k / 12)
      have hleap := leapDay_cases (k / 12)
      simp only [firstDay, hy, hm, hlast, beforeMonth]
      unfold yearLength at hyears
      split_ifs <;> omega
  · have hy : (k + 1) / 12 = k / 12 := by omega
    have hm : (k + 1) % 12 + 1 = k % 12 + 1 + 1 := by omega
    cases lang with
    | fa =>
      simp only [firstDay, hy, hm]
      rw [jalali_days_eq (k / 12) (k % 12 + 1), jalali_days_eq (k / 12) (k % 12 + 1 + 1)]
      split_ifs <;> omega
    | en =>
      have hlength := monthLength_bounds (y := k / 12) (m := k % 12 + 1) (by omega) (by omega)
      simp only [firstDay, hy, hm]
      unfold monthLength at hlength
      omega

theorem firstDay_le {lang : Lang} {k l : Int} (h : k ≤ l) : firstDay lang k ≤ firstDay lang l := by
  rcases Int.lt_or_eq_of_le h with hlt | rfl
  · exact Int.le_of_lt (firstDay_lt hlt)
  · exact Int.le_refl _

/-- A date is in its month. -/
theorem monthOf_spec (lang : Lang) (d : CivilDate) :
    firstDay lang (monthOf lang d) ≤ d.ordinal ∧ d.ordinal < firstDay lang (monthOf lang d + 1) := by
  cases lang with
  | fa =>
    obtain ⟨hvalid, hdays⟩ := to_jalali_spec d
    have hfirst := valid_first (monthOf .fa d)
    have hnext := valid_first (monthOf .fa d + 1)
    simp only [firstDay, monthOf, fields] at *
    generalize to_jalali d = a at *
    obtain ⟨y, m, j⟩ := a
    have hm := hvalid.month_pos
    have hm' := hvalid.month_le
    have hj := hvalid.day_pos
    dsimp only at *
    have hyear : (12 * y + m - 1) / 12 = y := by omega
    have hmonth : (12 * y + m - 1) % 12 + 1 = m := by omega
    constructor
    · rw [hyear, hmonth, jalali_days_eq]
      rw [jalali_days_eq] at hdays
      omega
    · have hlt := jalali_days_lt hvalid hnext (by
        unfold Before
        dsimp only
        omega)
      dsimp only at hlt
      omega
  | en =>
    have hm := d.month_pos
    have hm' := d.month_le
    have hday := d.day_le
    have hpos := d.day_pos
    simp only [firstDay, monthOf, fields]
    have hyear : (12 * d.year + d.month - 1) / 12 = d.year := by omega
    have hmonth : (12 * d.year + d.month - 1) % 12 + 1 = d.month := by omega
    unfold monthLength at hday
    constructor
    · rw [hyear, hmonth, Date.ordinal]
      omega
    · by_cases hlast : d.month = 12
      · have hnext : (12 * d.year + d.month - 1 + 1) / 12 = d.year + 1 := by omega
        have hfirst : (12 * d.year + d.month - 1 + 1) % 12 + 1 = 1 := by omega
        have hyears := beforeYear_succ d.year
        have hend := beforeMonth_end d.year
        rw [hnext, hfirst, Date.ordinal, show beforeMonth (d.year + 1) 1 = 0 from rfl]
        rw [hlast] at hday ⊢
        rw [show (12 : Int) + 1 = 13 from rfl] at hday
        omega
      · have hnext : (12 * d.year + d.month - 1 + 1) / 12 = d.year := by omega
        have hfirst : (12 * d.year + d.month - 1 + 1) % 12 + 1 = d.month + 1 := by omega
        rw [hnext, hfirst, Date.ordinal]
        omega

/-- A date is in no other month. -/
theorem monthOf_unique {lang : Lang} {d : CivilDate} {k : Int} (h : firstDay lang k ≤ d.ordinal)
    (h' : d.ordinal < firstDay lang (k + 1)) : monthOf lang d = k := by
  have hspec := monthOf_spec lang d
  rcases Int.lt_trichotomy (monthOf lang d) k with hlt | heq | hgt
  · have : firstDay lang (monthOf lang d + 1) ≤ firstDay lang k := firstDay_le (by omega)
    omega
  · exact heq
  · have : firstDay lang (k + 1) ≤ firstDay lang (monthOf lang d) := firstDay_le (by omega)
    omega

theorem fields_lt {d e : CivilDate} : Before (fields .en d) (fields .en e) ↔ d.ordinal < e.ordinal := by
  have hlt {d e : CivilDate} (h : Before (fields .en d) (fields .en e)) : d.ordinal < e.ordinal := by
    rcases h with hy | ⟨hy, hm | ⟨hm, hd⟩⟩
    · exact Date.ordinal_lt_of_year hy
    · exact Date.ordinal_lt_of_month hy hm
    · simp only [fields] at hy hm hd
      unfold Date.ordinal
      rw [hy, hm]
      omega
  constructor
  · exact hlt
  · intro h
    rcases before_trichotomy (fields .en d) (fields .en e) with hbefore | heq | hafter
    · exact hbefore
    · simp only [fields, Prod.mk.injEq] at heq
      unfold Date.ordinal at h
      rw [heq.1, heq.2.1, heq.2.2] at h
      omega
    · have := hlt hafter
      omega

/-- The number of `date.max` -/
def lastOrdinal : Int := 3652059

theorem exists_date {n : Int} (h : 1 ≤ n) (hn : n ≤ lastOrdinal) : ∃ d : CivilDate, d.ordinal = n := by
  have hyear := yearAt_spec n
  unfold lastOrdinal at hn
  have hmin : 1 ≤ yearAt n := by
    by_contra hlt
    have := beforeYear_lt (show yearAt n < 1 by omega)
    rw [show beforeYear 1 = 0 from rfl] at this
    omega
  have hmax : yearAt n ≤ 9999 := by
    by_contra hlt
    have : beforeYear 10000 ≤ beforeYear (yearAt n) := by
      unfold beforeYear
      omega
    rw [show beforeYear 10000 = 3652059 from rfl] at this
    omega
  exact ⟨{ toDate := ofOrdinal n, minyear := hmin, maxyear := hmax }, ordinal_ofOrdinal n⟩

theorem ordinal_bounds (d : CivilDate) : 1 ≤ d.ordinal ∧ d.ordinal ≤ lastOrdinal := by
  have hday := d.toDate.dayOfYear_bounds
  have heq := d.toDate.ordinal_eq
  have hmin := d.minyear
  have hlt := beforeYear_lt (show d.year < 10000 by have := d.maxyear; omega)
  have hfirst : 0 ≤ beforeYear d.year := by
    unfold beforeYear
    omega
  rw [show beforeYear 10000 = 3652059 from rfl] at hlt
  unfold lastOrdinal
  omega

/-- The conversion is a bijection between the dates and the Solar Hijri dates of their days, in the order of the days. A month
that begins on a date begins there, whatever the offset. -/
theorem solar_hijri :
    (∀ d, Valid (to_jalali d) ∧ from_jalali (to_jalali d).1 (to_jalali d).2.1 (to_jalali d).2.2 = some d) ∧
    (∀ a, Valid a → ∀ d, from_jalali a.1 a.2.1 a.2.2 = some d ↔ to_jalali d = a) ∧
    (∀ d e, Before (fields .en d) (fields .en e) ↔ Before (to_jalali d) (to_jalali e)) ∧
    (∀ d k e, month_start d .fa k = some e ↔ to_jalali e = ((monthOf .fa d + k) / 12, (monthOf .fa d + k) % 12 + 1, 1)) ∧
    (∀ d e, month_start d .fa 0 = some e → ¬ Before (fields .en d) (fields .en e)) ∧
    (∀ d e, month_start d .fa 1 = some e → Before (fields .en d) (fields .en e)) := by
  refine ⟨fun d => ⟨(to_jalali_spec d).1, from_jalali_to_jalali d⟩, fun a ha d => from_jalali_eq_some ha d, ?_, ?_, ?_, ?_⟩
  · intro d e
    rw [fields_lt, to_jalali_lt]
  · intro d k e
    rw [month_start_eq, first_of]
    exact from_jalali_eq_some (valid_first _) e
  · intro d e h
    rw [month_start_eq, first_of_iff, Int.add_zero] at h
    have := (monthOf_spec .fa d).1
    rw [fields_lt]
    omega
  · intro d e h
    rw [month_start_eq, first_of_iff] at h
    have := (monthOf_spec .fa d).2
    rw [fields_lt]
    omega

/-- 0001-01-01, of which the month began in no year that `date` knows -/
def firstDate : CivilDate := (date 1 1 1).get (by decide)

theorem month_before_first : month_start firstDate .fa 0 = none ∧ Valid (9378, 10, 11) ∧ from_jalali 9378 10 11 = none := by
  refine ⟨by decide, ⟨by decide, by decide, by decide, by decide, by decide⟩, by decide⟩

end Calendar
