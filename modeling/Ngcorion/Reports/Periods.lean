import Ngcorion.LocalTime
import Ngcorion.Refusal
import Ngcorion.Reports.Calendar

/-!
# Report periods

The period of a report and the one that it is compared with, from the name of the period, the calendar of the report, the zone
of the system and the current time.
-/
namespace Periods

open LocalTime Calendar Refusal Text

inductive Preset where
  | last_7_days | last_30_days | previous_month | previous_quarter | year_to_date | custom
  | other

inductive Failure where
  | period (message : Str)
  /-- Of a date in no year that `date` knows -/
  | value
  /-- Of a day or a time past the last or before the first one -/
  | overflow

/-- A `datetime` -/
structure Datetime where
  time : Int
  pos : 0 ≤ time
  before_end : time < lastOrdinal * day

/-- `timezone(offset)` -/
structure Zone where
  offset : Int
  after : -day < offset
  before : offset < day

variable (tr : Str → Str → Str) (tz : Option Zone) (lang : Lang)

def datetime (t : Int) : Except Failure Datetime :=
  if h : 0 ≤ t ∧ t < lastOrdinal * day then .ok ⟨t, h.1, h.2⟩ else .error .overflow

/-- The date with a number, or an `OverflowError` -/
def dateOfOrdinal (n : Int) : Except Failure CivilDate :=
  let d := Gregorian.ofOrdinal n
  match date d.year d.month d.day with
  | some e => .ok e
  | none => .error .overflow

/-- `d + timedelta(days=n)` -/
def add_days (d : CivilDate) (n : Int) : Except Failure CivilDate := dateOfOrdinal (d.ordinal + n)

/-- A date of the calendar, or its `ValueError` -/
def checked (d : Option CivilDate) : Except Failure CivilDate :=
  match d with
  | some e => .ok e
  | none => .error .value

def offsetOf : Option Int := tz.map (·.offset)

def _to_utc (d : CivilDate) : Except Failure Datetime := datetime (toUtc (offsetOf tz) (midnight d.ordinal))

def local_now (now_utc : Datetime) : Except Failure Datetime := datetime (toLocal (offsetOf tz) now_utc.time)

/-- `local_now(now_utc, tz).date()` -/
def today (now_utc : Datetime) : Except Failure CivilDate := do
  let now ← local_now tz now_utc
  dateOfOrdinal (dateOf now.time)

structure Period where
  start : Datetime
  stop : Datetime
  first_day : CivilDate
  last_day : CivilDate
  label : Str

def _label (first last : CivilDate) : Except Failure Str := do
  let this ← checked (month_start first lang 0)
  if first = this then
    let next ← add_days last 1
    let month ← checked (month_start first lang 1)
    if next = month then return month_label first lang
  return tr (fmt_date first lang) (fmt_date last lang)

def _make (first end_excl : CivilDate) (end_utc : Option Datetime) : Except Failure Period := do
  let start ← _to_utc tz first
  let stop ← end_utc.elim (_to_utc tz end_excl) .ok
  let last ← add_days end_excl (-1)
  let label ← _label tr lang first last
  return { start := start, stop := stop, first_day := first, last_day := last, label := label }

/-- The last days up to now -/
def rolling (n : Int) (today : CivilDate) (now_utc : Datetime) : Except Failure (Period × Period) := do
  let first ← add_days today (-(n - 1))
  let cur ← _make tr tz lang first (← add_days today 1) (some now_utc)
  let prev ← _make tr tz lang (← add_days first (-n)) first none
  return (cur, prev)

/-- The last full unit of the calendar, by the function that gives the first day of a unit -/
def previous (unit_start : CivilDate → Lang → Int → Option CivilDate) (today : CivilDate) :
    Except Failure (Period × Period) := do
  let this ← checked (unit_start today lang 0)
  let first ← checked (unit_start today lang (-1))
  let cur ← _make tr tz lang first this none
  let prev ← _make tr tz lang (← checked (unit_start today lang (-2))) first none
  return (cur, prev)

def year_to_date (today : CivilDate) (now_utc : Datetime) : Except Failure (Period × Period) := do
  let first ← checked (year_start today lang)
  let cur ← _make tr tz lang first (← add_days today 1) (some now_utc)
  let prev_first ← checked (year_start (← add_days first (-1)) lang)
  let span := today.ordinal - first.ordinal + 1
  let prev ← _make tr tz lang prev_first (← add_days prev_first span) none
  return (cur, prev)

def custom (today : CivilDate) (now_utc : Datetime) (date_from date_to : Option CivilDate) :
    Except Failure (Period × Period) :=
  match date_from, date_to with
  | some date_from, some date_to => do
    refuse (date_to.ordinal < date_from.ordinal) (.period (lit "The period ends before it starts"))
    refuse (today.ordinal < date_from.ordinal) (.period (lit "The period starts in the future"))
    let last := if today.ordinal < date_to.ordinal then today else date_to
    let span := last.ordinal - date_from.ordinal + 1
    let end_utc := if last = today then some now_utc else none
    let cur ← _make tr tz lang date_from (← add_days last 1) end_utc
    let prev ← _make tr tz lang (← add_days date_from (-span)) date_from none
    return (cur, prev)
  | _, _ => .error (.period (lit "Choose the start and end of the period"))

def resolve (preset : Preset) (now_utc : Datetime) (date_from date_to : Option CivilDate) :
    Except Failure (Period × Period) := do
  let today ← today tz now_utc
  match preset with
  | .last_7_days => rolling tr tz lang 7 today now_utc
  | .last_30_days => rolling tr tz lang 30 today now_utc
  | .previous_month => previous tr tz lang month_start today
  | .previous_quarter => previous tr tz lang quarter_start today
  | .year_to_date => year_to_date tr tz lang today now_utc
  | .custom => custom tr tz lang today now_utc date_from date_to
  | .other => .error (.period (lit "Unknown period"))

/-! ## What the functions return -/

theorem dateOfOrdinal_ok {n : Int} {e : CivilDate} : dateOfOrdinal n = .ok e ↔ e.ordinal = n := by
  have hdate : date (Gregorian.ofOrdinal n).year (Gregorian.ofOrdinal n).month (Gregorian.ofOrdinal n).day = some e ↔
      e.ordinal = n := by
    rw [date_eq_some]
    constructor
    · rintro ⟨hy, hm, hd⟩
      rw [Gregorian.Date.ordinal, hy, hm, hd]
      exact Gregorian.ordinal_ofOrdinal n
    · intro h
      have : e.toDate = Gregorian.ofOrdinal n := Gregorian.Date.ordinal_injective (by rw [h, Gregorian.ordinal_ofOrdinal])
      rw [← this]
      exact ⟨rfl, rfl, rfl⟩
  rw [← hdate, dateOfOrdinal]
  cases date (Gregorian.ofOrdinal n).year (Gregorian.ofOrdinal n).month (Gregorian.ofOrdinal n).day <;> simp

theorem add_days_ok {d e : CivilDate} {n : Int} : add_days d n = .ok e ↔ e.ordinal = d.ordinal + n := dateOfOrdinal_ok

theorem checked_ok {d : Option CivilDate} {e : CivilDate} : checked d = .ok e ↔ d = some e := by
  cases d <;> simp [checked]

theorem datetime_ok {t : Int} {r : Datetime} : datetime t = .ok r ↔ r.time = t := by
  unfold datetime
  split
  · rename_i h
    constructor
    · intro hr
      cases hr
      rfl
    · rintro rfl
      rfl
  · rename_i h
    constructor
    · intro hr
      cases hr
    · rintro rfl
      exact absurd ⟨r.pos, r.before_end⟩ h

/-- The start of a day in the zone -/
def startOf (d : CivilDate) : Int := toUtc (offsetOf tz) (midnight d.ordinal)

theorem startOf_le {d e : CivilDate} : startOf tz d ≤ startOf tz e ↔ d.ordinal ≤ e.ordinal := by
  unfold startOf toUtc midnight day hour minute
  omega

theorem startOf_lt {d e : CivilDate} : startOf tz d < startOf tz e ↔ d.ordinal < e.ordinal := by
  unfold startOf toUtc midnight day hour minute
  omega

theorem today_ok {now_utc : Datetime} {d : CivilDate} (h : today tz now_utc = .ok d) :
    d.ordinal = dateOf (toLocal (offsetOf tz) now_utc.time) := by
  simp only [today, bind_ok] at h
  obtain ⟨now, hnow, hd⟩ := h
  rw [dateOfOrdinal_ok] at hd
  rw [local_now, datetime_ok] at hnow
  rw [hd, hnow]

/-- A day that has begun starts before now. -/
theorem startOf_le_now {now_utc : Datetime} {d e : CivilDate} (h : today tz now_utc = .ok d) (he : e.ordinal ≤ d.ordinal) :
    startOf tz e ≤ now_utc.time := by
  rw [today_ok tz h, dateOf_le_iff] at he
  unfold startOf toUtc
  unfold toLocal at he
  omega

theorem make_ok {first end_excl : CivilDate} {end_utc : Option Datetime} {p : Period}
    (h : _make tr tz lang first end_excl end_utc = .ok p) :
    p.start.time = startOf tz first ∧ p.stop.time = end_utc.elim (startOf tz end_excl) (·.time) ∧
      p.first_day = first ∧ p.last_day.ordinal = end_excl.ordinal - 1 := by
  simp only [_make, bind_ok, pure_ok] at h
  obtain ⟨start, hstart, stop, hstop, last, hlast, label, _, rfl⟩ := h
  rw [add_days_ok] at hlast
  refine ⟨datetime_ok.mp hstart, ?_, rfl, by dsimp only; omega⟩
  cases end_utc with
  | some t =>
    cases hstop
    rfl
  | none => exact datetime_ok.mp hstop

/-! ## Periods that do not overlap -/

structure Apart (cur prev : Period) : Prop where
  prev_days : prev.first_day.ordinal ≤ prev.last_day.ordinal
  days_apart : prev.last_day.ordinal < cur.first_day.ordinal
  cur_days : cur.first_day.ordinal ≤ cur.last_day.ordinal
  prev_times : prev.start.time < prev.stop.time
  times_apart : prev.stop.time ≤ cur.start.time
  cur_times : cur.start.time ≤ cur.stop.time

/-- Two periods that a preset makes of four days are apart when the days are in order. -/
theorem made_apart_iff {first end_excl prev_first prev_end : CivilDate} {end_utc : Option Datetime} {cur prev : Period}
    (hcur : _make tr tz lang first end_excl end_utc = .ok cur) (hprev : _make tr tz lang prev_first prev_end none = .ok prev)
    (hdays : first.ordinal < end_excl.ordinal) (hprevious : prev_first.ordinal < prev_end.ordinal)
    (hnow : ∀ now ∈ end_utc, startOf tz first ≤ now.time) :
    Apart cur prev ↔ prev_end.ordinal ≤ first.ordinal := by
  obtain ⟨hstart, hstop, hfirst, hlast⟩ := make_ok tr tz lang hcur
  obtain ⟨hstart', hstop', hfirst', hlast'⟩ := make_ok tr tz lang hprev
  rw [Option.elim_none] at hstop'
  constructor
  · intro h
    have := h.days_apart
    rw [hfirst, hlast'] at this
    omega
  · intro h
    refine ⟨?_, ?_, ?_, ?_, ?_, ?_⟩
    · rw [hfirst', hlast']
      omega
    · rw [hfirst, hlast']
      omega
    · rw [hfirst, hlast]
      omega
    · rw [hstart', hstop', startOf_lt]
      exact hprevious
    · rw [hstart, hstop', startOf_le]
      exact h
    · rw [hstart, hstop]
      cases end_utc with
      | some now => exact hnow now rfl
      | none => exact (startOf_le tz).mpr (Int.le_of_lt hdays)

/-! ## Units of a calendar -/

/-- A period of so many months of the calendar, by its number among such periods -/
def IsUnit (months k : Int) (p : Period) : Prop :=
  p.first_day.ordinal = firstDay lang (months * k) ∧ p.last_day.ordinal + 1 = firstDay lang (months * (k + 1))

/-- For a preset of calendar units, the one before the unit of the report -/
def Preceding (preset : Preset) (cur prev : Period) : Prop :=
  match preset with
  | .previous_month => ∃ k, IsUnit lang 1 k cur ∧ IsUnit lang 1 (k - 1) prev
  | .previous_quarter => ∃ k, IsUnit lang 3 k cur ∧ IsUnit lang 3 (k - 1) prev
  | _ => True

theorem previous_units {unit_start : CivilDate → Lang → Int → Option CivilDate} (months k : Int) {d : CivilDate}
    (hmonths : 0 < months) (hunit : ∀ offset, unit_start d lang offset = first_of lang (months * (k + offset)))
    {cur prev : Period} (h : previous tr tz lang unit_start d = .ok (cur, prev)) :
    Apart cur prev ∧ IsUnit lang months (k - 1) cur ∧ IsUnit lang months (k - 2) prev := by
  simp only [previous, bind_ok, pure_ok, checked_ok, hunit, first_of_iff, Prod.mk.injEq] at h
  obtain ⟨this, hthis, first, hfirst, cur', hcur, before, hbefore, prev', hprev, rfl, rfl⟩ := h
  have hlt : ∀ i, firstDay lang (months * (k + i)) < firstDay lang (months * (k + i + 1)) := by
    intro i
    apply firstDay_lt
    exact Int.mul_lt_mul_of_pos_left (by omega) hmonths
  have h₁ := hlt (-1)
  have h₂ := hlt (-2)
  rw [show k + -1 + 1 = k + 0 by omega] at h₁
  rw [show k + -2 + 1 = k + -1 by omega] at h₂
  obtain ⟨_, _, hday, hlast⟩ := make_ok tr tz lang hcur
  obtain ⟨_, _, hday', hlast'⟩ := make_ok tr tz lang hprev
  refine ⟨(made_apart_iff tr tz lang hcur hprev (by omega) (by omega) (by simp)).mpr (by omega), ⟨?_, ?_⟩, ⟨?_, ?_⟩⟩
  · rw [hday, hfirst]
    rfl
  · rw [hlast, hthis, show k - 1 + 1 = k + 0 by omega]
    omega
  · rw [hday', hbefore]
    rfl
  · rw [hlast', hfirst, show k - 2 + 1 = k + -1 by omega]
    omega

theorem rolling_apart {n : Int} (hn : 0 < n) {d : CivilDate} {now_utc : Datetime} (hd : today tz now_utc = .ok d)
    {cur prev : Period} (h : rolling tr tz lang n d now_utc = .ok (cur, prev)) : Apart cur prev := by
  simp only [rolling, bind_ok, pure_ok, add_days_ok, Prod.mk.injEq] at h
  obtain ⟨first, hfirst, stop, hstop, cur', hcur, before, hbefore, prev', hprev, rfl, rfl⟩ := h
  refine (made_apart_iff tr tz lang hcur hprev (by omega) (by omega) ?_).mpr (by omega)
  intro now hnow
  cases hnow
  exact startOf_le_now tz hd (by omega)

theorem custom_apart {d : CivilDate} {now_utc : Datetime} (hd : today tz now_utc = .ok d) {date_from date_to : Option CivilDate}
    {cur prev : Period} (h : custom tr tz lang d now_utc date_from date_to = .ok (cur, prev)) : Apart cur prev := by
  unfold custom at h
  split at h
  · rename_i since until'
    simp only [bind_ok, pure_ok, refuse_ok, add_days_ok, Prod.mk.injEq] at h
    obtain ⟨_, horder, _, hbegun, stop, hstop, cur', hcur, before, hbefore, prev', hprev, rfl, rfl⟩ := h
    have hlast : since.ordinal ≤ (if d.ordinal < until'.ordinal then d else until').ordinal := by
      split <;> omega
    generalize (if d.ordinal < until'.ordinal then d else until') = last at *
    refine (made_apart_iff tr tz lang hcur hprev (by omega) (by omega) ?_).mpr (by omega)
    intro now hnow
    split at hnow
    · cases hnow
      exact startOf_le_now tz hd (by omega)
    · cases hnow
  · cases h

/-! ## The year to date -/

/-- The day of its year, from 1 -/
def dayOfYear (d : CivilDate) : Int := d.ordinal - firstDay lang (12 * (monthOf lang d / 12)) + 1

def yearLength (y : Int) : Int := firstDay lang (12 * (y + 1)) - firstDay lang (12 * y)

theorem firstDay_year (y : Int) :
    firstDay lang (12 * y) = match lang with
      | .fa => jalali_days y 1 1 - 365
      | .en => Gregorian.beforeYear y + 1 := by
  have hyear : 12 * y / 12 = y := by omega
  have hmonth : 12 * y % 12 + 1 = 1 := by omega
  cases lang with
  | fa => rw [firstDay, hyear, hmonth]
  | en =>
    rw [firstDay, hyear, hmonth, show Gregorian.beforeMonth y 1 = 0 from rfl]
    simp

theorem yearLength_fa (y : Int) : yearLength .fa y = jalaliLength y := by
  unfold yearLength jalaliLength
  rw [firstDay_year, firstDay_year]
  dsimp only
  omega

theorem yearLength_en (y : Int) : yearLength .en y = Gregorian.yearLength y := by
  unfold yearLength
  rw [firstDay_year, firstDay_year]
  dsimp only
  rw [Gregorian.beforeYear_succ]
  omega

theorem yearLength_cases (y : Int) : yearLength lang y = 365 ∨ yearLength lang y = 366 ∧ yearLength lang (y - 1) = 365 := by
  cases lang with
  | fa =>
    rw [yearLength_fa, yearLength_fa]
    rcases jalaliLength_cases y with h | h
    · exact .inl h
    · exact .inr ⟨h, jalaliLength_pred h⟩
  | en =>
    rw [yearLength_en, yearLength_en]
    unfold Gregorian.yearLength
    rcases Gregorian.leapDay_cases y with h | h
    · exact .inr ⟨by omega, by rw [Gregorian.leapDay_pred h]; rfl⟩
    · exact .inl (by omega)

theorem dayOfYear_bounds (d : CivilDate) :
    1 ≤ dayOfYear lang d ∧ dayOfYear lang d ≤ yearLength lang (monthOf lang d / 12) := by
  have hspec := monthOf_spec lang d
  have hfirst : firstDay lang (12 * (monthOf lang d / 12)) ≤ firstDay lang (monthOf lang d) := firstDay_le (by omega)
  have hlast : firstDay lang (monthOf lang d + 1) ≤ firstDay lang (12 * (monthOf lang d / 12 + 1)) := firstDay_le (by omega)
  unfold dayOfYear yearLength
  omega

/-- The days of the year before, as many as this year has so far, end in this year only on the 366th day. -/
theorem year_to_date_apart {d : CivilDate} {now_utc : Datetime} (hd : today tz now_utc = .ok d) {cur prev : Period}
    (h : year_to_date tr tz lang d now_utc = .ok (cur, prev)) : Apart cur prev ↔ dayOfYear lang d ≠ 366 := by
  simp only [year_to_date, bind_ok, pure_ok, checked_ok, add_days_ok, year_start_eq, first_of_iff, Prod.mk.injEq] at h
  obtain ⟨first, hfirst, stop, hstop, cur', hcur, eve, heve, before, hbefore, prev_end, hend, prev', hprev, rfl, rfl⟩ := h
  have hbounds := dayOfYear_bounds lang d
  have hlength := yearLength_cases lang (monthOf lang d / 12)
  have hlength' := yearLength_cases lang (monthOf lang d / 12 - 1)
  have hmonth : monthOf lang eve = 12 * (monthOf lang d / 12) - 1 := by
    have hlt : firstDay lang (12 * (monthOf lang d / 12) - 1) < firstDay lang (12 * (monthOf lang d / 12)) :=
      firstDay_lt (by omega)
    apply monthOf_unique
    · omega
    · rw [show 12 * (monthOf lang d / 12) - 1 + 1 = 12 * (monthOf lang d / 12) by omega]
      omega
  rw [hmonth, show (12 * (monthOf lang d / 12) - 1) / 12 = monthOf lang d / 12 - 1 by omega] at hbefore
  unfold dayOfYear at *
  unfold yearLength at *
  rw [show monthOf lang d / 12 - 1 + 1 = monthOf lang d / 12 by omega] at hlength hlength'
  rw [made_apart_iff tr tz lang hcur hprev (by omega) (by omega) (by
    intro now hnow
    cases hnow
    exact startOf_le_now tz hd (by omega))]
  omega

/-! ## Reports that can be built -/

theorem exists_first {k : Int} (h : 1 ≤ firstDay lang k) (hk : firstDay lang k ≤ lastOrdinal) :
    ∃ e, first_of lang k = some e ∧ e.ordinal = firstDay lang k := by
  obtain ⟨e, he⟩ := exists_date h hk
  exact ⟨e, (first_of_iff lang k e).mpr he, he⟩

theorem exists_day {d : CivilDate} {n : Int} (h : 1 ≤ d.ordinal + n) (hn : d.ordinal + n ≤ lastOrdinal) :
    ∃ e, add_days d n = .ok e ∧ e.ordinal = d.ordinal + n := by
  obtain ⟨e, he⟩ := exists_date h hn
  exact ⟨e, add_days_ok.mpr he, he⟩

theorem exists_start {d : CivilDate} (h : 2 ≤ d.ordinal) : ∃ t, _to_utc tz d = .ok t := by
  have hlast := (ordinal_bounds d).2
  have hrange : 0 ≤ toUtc (offsetOf tz) (midnight d.ordinal) ∧ toUtc (offsetOf tz) (midnight d.ordinal) < lastOrdinal * day := by
    unfold lastOrdinal at *
    unfold toUtc midnight offsetOf
    have hday : day = 86400000000 := rfl
    rw [hday]
    cases tz with
    | none =>
      simp only [Option.map_none, Option.getD_none]
      omega
    | some zone =>
      have hafter := zone.after
      have hbefore := zone.before
      rw [hday] at hafter hbefore
      simp only [Option.map_some, Option.getD_some]
      omega
  exact ⟨⟨_, hrange.1, hrange.2⟩, datetime_ok.mpr rfl⟩

theorem label_returns {first last : CivilDate} (h : 32 ≤ first.ordinal) (h' : first.ordinal ≤ lastOrdinal - 31)
    (hlast : last.ordinal < lastOrdinal) : ∃ label, _label tr lang first last = .ok label := by
  have hspec := monthOf_spec lang first
  have hnext := firstDay_next lang (monthOf lang first)
  have hpos := (ordinal_bounds last).1
  obtain ⟨this, hthis, _⟩ := exists_first lang (k := monthOf lang first) (by omega) (by omega)
  obtain ⟨month, hmonth, _⟩ := exists_first lang (k := monthOf lang first + 1) (by omega) (by omega)
  obtain ⟨next, hday, _⟩ := exists_day (d := last) (n := 1) (by omega) (by omega)
  have hlabel : _label tr lang first last = if first = this then
      if next = month then .ok (month_label first lang) else .ok (tr (fmt_date first lang) (fmt_date last lang))
    else .ok (tr (fmt_date first lang) (fmt_date last lang)) := by
    rw [_label, month_start_eq, month_start_eq, Int.add_zero, hthis, hmonth, hday]
    rfl
  rw [hlabel]
  split_ifs <;> exact ⟨_, rfl⟩

theorem make_returns {first end_excl : CivilDate} (end_utc : Option Datetime) (h : 32 ≤ first.ordinal)
    (h' : first.ordinal ≤ lastOrdinal - 31) (hend : 2 ≤ end_excl.ordinal) :
    ∃ p, _make tr tz lang first end_excl end_utc = .ok p := by
  have hbounds := (ordinal_bounds end_excl).2
  obtain ⟨start, hstart⟩ := exists_start tz (d := first) (by omega)
  obtain ⟨stop, hstop⟩ : ∃ stop, end_utc.elim (_to_utc tz end_excl) .ok = .ok stop := by
    cases end_utc with
    | some t => exact ⟨t, rfl⟩
    | none => exact exists_start tz hend
  obtain ⟨last, hlast, hday⟩ := exists_day (d := end_excl) (n := -1) (by omega) (by omega)
  obtain ⟨label, hlabel⟩ := label_returns tr lang h h' (show last.ordinal < lastOrdinal by omega)
  refine ⟨{ start := start, stop := stop, first_day := first, last_day := last, label := label }, ?_⟩
  simp only [_make, bind_ok, pure_ok]
  exact ⟨start, hstart, stop, hstop, last, hlast, label, hlabel, rfl⟩

theorem rolling_returns {n : Int} (hn : 0 < n) {d : CivilDate} (now_utc : Datetime) (h : 33 ≤ d.ordinal + 1 - 2 * n)
    (h' : d.ordinal < lastOrdinal - 31) : ∃ r, rolling tr tz lang n d now_utc = .ok r := by
  obtain ⟨first, hfirst, hday⟩ := exists_day (d := d) (n := -(n - 1)) (by omega) (by omega)
  obtain ⟨stop, hstop, hday'⟩ := exists_day (d := d) (n := 1) (by omega) (by omega)
  obtain ⟨before, hbefore, hday''⟩ := exists_day (d := first) (n := -n) (by omega) (by omega)
  obtain ⟨cur, hcur⟩ := make_returns tr tz lang (some now_utc) (show 32 ≤ first.ordinal by omega) (by omega)
    (show 2 ≤ stop.ordinal by omega)
  obtain ⟨prev, hprev⟩ := make_returns tr tz lang none (show 32 ≤ before.ordinal by omega) (by omega)
    (show 2 ≤ first.ordinal by omega)
  refine ⟨(cur, prev), ?_⟩
  simp only [rolling, bind_ok, pure_ok]
  exact ⟨first, hfirst, stop, hstop, cur, hcur, before, hbefore, prev, hprev, rfl⟩

theorem previous_returns {unit_start : CivilDate → Lang → Int → Option CivilDate} (months k : Int) {d : CivilDate}
    (hmonths : 0 < months) (hunit : ∀ offset, unit_start d lang offset = first_of lang (months * (k + offset)))
    (h : 32 ≤ firstDay lang (months * (k + -2))) (h' : firstDay lang (months * (k + 0)) ≤ lastOrdinal - 31) :
    ∃ r, previous tr tz lang unit_start d = .ok r := by
  have hlt : firstDay lang (months * (k + -2)) < firstDay lang (months * (k + -1)) :=
    firstDay_lt (Int.mul_lt_mul_of_pos_left (by omega) hmonths)
  have hlt' : firstDay lang (months * (k + -1)) < firstDay lang (months * (k + 0)) :=
    firstDay_lt (Int.mul_lt_mul_of_pos_left (by omega) hmonths)
  obtain ⟨this, hthis, hday⟩ := exists_first lang (k := months * (k + 0)) (by omega) (by omega)
  obtain ⟨first, hfirst, hday'⟩ := exists_first lang (k := months * (k + -1)) (by omega) (by omega)
  obtain ⟨before, hbefore, hday''⟩ := exists_first lang (k := months * (k + -2)) (by omega) (by omega)
  obtain ⟨cur, hcur⟩ := make_returns tr tz lang none (show 32 ≤ first.ordinal by omega) (by omega)
    (show 2 ≤ this.ordinal by omega)
  obtain ⟨prev, hprev⟩ := make_returns tr tz lang none (show 32 ≤ before.ordinal by omega) (by omega)
    (show 2 ≤ first.ordinal by omega)
  refine ⟨(cur, prev), ?_⟩
  simp only [previous, bind_ok, pure_ok, checked_ok, hunit]
  exact ⟨this, hthis, first, hfirst, cur, hcur, before, hbefore, prev, hprev, rfl⟩

theorem year_to_date_returns {d : CivilDate} (now_utc : Datetime) (h : 32 ≤ firstDay lang (12 * (monthOf lang d / 12 - 1)))
    (h' : firstDay lang (12 * (monthOf lang d / 12)) ≤ lastOrdinal - 31) (hd : d.ordinal < lastOrdinal) :
    ∃ r, year_to_date tr tz lang d now_utc = .ok r := by
  have hbounds := dayOfYear_bounds lang d
  unfold dayOfYear at hbounds
  have hlt : firstDay lang (12 * (monthOf lang d / 12 - 1)) < firstDay lang (12 * (monthOf lang d / 12) - 1) :=
    firstDay_lt (by omega)
  have hlt' : firstDay lang (12 * (monthOf lang d / 12) - 1) < firstDay lang (12 * (monthOf lang d / 12)) :=
    firstDay_lt (by omega)
  obtain ⟨first, hfirst, hday⟩ := exists_first lang (k := 12 * (monthOf lang d / 12)) (by omega) (by omega)
  obtain ⟨stop, hstop, hday'⟩ := exists_day (d := d) (n := 1) (by omega) (by omega)
  obtain ⟨eve, heve, hday''⟩ := exists_day (d := first) (n := -1) (by omega) (by omega)
  have hmonth : monthOf lang eve / 12 = monthOf lang d / 12 - 1 := by
    have : monthOf lang eve = 12 * (monthOf lang d / 12) - 1 := by
      apply monthOf_unique
      · omega
      · rw [show 12 * (monthOf lang d / 12) - 1 + 1 = 12 * (monthOf lang d / 12) by omega]
        omega
    omega
  obtain ⟨before, hbefore, hday₃⟩ := exists_first lang (k := 12 * (monthOf lang d / 12 - 1)) (by omega) (by omega)
  obtain ⟨stop', hstop', hday₄⟩ := exists_day (d := before) (n := d.ordinal - first.ordinal + 1) (by omega) (by omega)
  obtain ⟨cur, hcur⟩ := make_returns tr tz lang (some now_utc) (show 32 ≤ first.ordinal by omega) (by omega)
    (show 2 ≤ stop.ordinal by omega)
  obtain ⟨prev, hprev⟩ := make_returns tr tz lang none (show 32 ≤ before.ordinal by omega) (by omega)
    (show 2 ≤ stop'.ordinal by omega)
  refine ⟨(cur, prev), ?_⟩
  simp only [year_to_date, bind_ok, pure_ok, checked_ok, year_start_eq]
  exact ⟨first, hfirst, stop, hstop, cur, hcur, eve, heve, before, by rw [hmonth, hbefore], stop', hstop', prev, hprev, rfl⟩

theorem custom_returns {d since until' : CivilDate} (now_utc : Datetime) (h : since.ordinal ≤ until'.ordinal)
    (hbegun : since.ordinal ≤ d.ordinal) (hpast : 33 ≤ 2 * since.ordinal - d.ordinal) (hd : d.ordinal < lastOrdinal - 31) :
    ∃ r, custom tr tz lang d now_utc (some since) (some until') = .ok r := by
  generalize hlast : (if d.ordinal < until'.ordinal then d else until') = last
  have hbounds : since.ordinal ≤ last.ordinal ∧ last.ordinal ≤ d.ordinal := by
    rw [← hlast]
    split <;> omega
  obtain ⟨stop, hstop, hday⟩ := exists_day (d := last) (n := 1) (by omega) (by omega)
  obtain ⟨before, hbefore, hday'⟩ := exists_day (d := since) (n := -(last.ordinal - since.ordinal + 1)) (by omega) (by omega)
  obtain ⟨cur, hcur⟩ := make_returns tr tz lang (if last = d then some now_utc else none) (show 32 ≤ since.ordinal by omega)
    (by omega) (show 2 ≤ stop.ordinal by omega)
  obtain ⟨prev, hprev⟩ := make_returns tr tz lang none (show 32 ≤ before.ordinal by omega) (by omega)
    (show 2 ≤ since.ordinal by omega)
  refine ⟨(cur, prev), ?_⟩
  simp only [custom, bind_ok, pure_ok, refuse_ok, hlast]
  exact ⟨(), by omega, (), by omega, stop, hstop, cur, hcur, before, hbefore, prev, hprev, rfl⟩

/-- Years of 366 days are not the first ones nor the last one that `date` knows. -/
theorem leap_range {d : CivilDate} (h : dayOfYear lang d = 366) :
    32 ≤ firstDay lang (12 * (monthOf lang d / 12 - 1)) ∧ firstDay lang (12 * (monthOf lang d / 12)) ≤ lastOrdinal - 31 ∧
      d.ordinal < lastOrdinal := by
  have hbounds := dayOfYear_bounds lang d
  have hcases := yearLength_cases lang (monthOf lang d / 12)
  have hday := ordinal_bounds d
  have hlength : yearLength lang (monthOf lang d / 12) = 366 ∧ yearLength lang (monthOf lang d / 12 - 1) = 365 := by omega
  clear hbounds hcases
  unfold dayOfYear at h
  generalize monthOf lang d / 12 = y at *
  unfold lastOrdinal at *
  simp only [firstDay_year] at *
  cases lang with
  | en =>
    rw [yearLength_en] at hlength
    dsimp only at *
    have hleap : Gregorian.leapDay y = 1 := by
      have := hlength.1
      unfold Gregorian.yearLength at this
      omega
    have hfour := Gregorian.leapDay_four hleap
    clear hlength hleap
    -- the first leap year is 4, the last one is 9996
    have hfirst : 4 ≤ y := by
      by_contra hno
      have hyear := Gregorian.beforeYear_lt (show y < 1 by omega)
      unfold Gregorian.beforeYear at *
      omega
    have hlast : y ≤ 9996 := by
      by_contra hno
      have hyear := Gregorian.beforeYear_lt (show 9999 < y by omega)
      unfold Gregorian.beforeYear at *
      omega
    unfold Gregorian.beforeYear at *
    omega
  | fa =>
    rw [yearLength_fa, yearLength_fa] at hlength
    have hfour := jalaliLength_four hlength.1
    have hy : y = 33 * ((y + 1595) / 33) + (y + 1595) % 33 - 1595 := by omega
    generalize (y + 1595) / 33 = q at *
    obtain ⟨t, ht⟩ : ∃ t, (y + 1595) % 33 = 4 * t := ⟨(y + 1595) % 33 / 4, by omega⟩
    rw [ht] at hy hfour
    have hfirst := jalali_days_cycle hy (by omega) (by omega)
    have hprev := hlength.2
    unfold jalaliLength at hprev
    rw [show y - 1 + 1 = y by omega] at hprev
    dsimp only at *
    have htb : 0 ≤ t ∧ t ≤ 7 := by omega
    clear hlength hfour hy ht
    refine ⟨?_, by omega, by omega⟩
    by_contra hno
    have hq : q = 29 := by omega
    subst hq
    omega

/-- The presets that `resolve` accepts: a range ends after it begins and has begun, and the days before it are dates. -/
def Accepted (preset : Preset) (today : CivilDate) (date_from date_to : Option CivilDate) : Prop :=
  match preset with
  | .custom => ∃ since until', date_from = some since ∧ date_to = some until' ∧ since.ordinal ≤ until'.ordinal ∧
      since.ordinal ≤ today.ordinal ∧ 33 ≤ 2 * since.ordinal - today.ordinal
  | .other => False
  | _ => True

theorem firstDay_add (k : Int) (n : Nat) : firstDay lang (k + n) ≤ firstDay lang k + 31 * n := by
  induction n with
  | zero => simp
  | succ n ih =>
    have := firstDay_next lang (k + n)
    rw [show k + ((n + 1 : Nat) : Int) = k + n + 1 by omega]
    omega

/-- Away from the first and the last year of `date`, what is accepted has its periods. -/
theorem resolve_returns {preset : Preset} {now_utc : Datetime} {d : CivilDate} {date_from date_to : Option CivilDate}
    (hd : today tz now_utc = .ok d) (h : Accepted preset d date_from date_to) (hfirst : 1000 ≤ d.ordinal)
    (hlast : d.ordinal < lastOrdinal - 31) :
    ∃ r, resolve tr tz lang preset now_utc date_from date_to = .ok r := by
  have hspec := monthOf_spec lang d
  have hback (n : Nat) : firstDay lang (monthOf lang d + 1) ≤ firstDay lang (monthOf lang d + 1 - n) + 31 * n := by
    have := firstDay_add lang (monthOf lang d + 1 - n) n
    rwa [Int.sub_add_cancel] at this
  rw [resolve, hd]
  cases preset with
  | last_7_days => exact rolling_returns tr tz lang (by decide) now_utc (by omega) hlast
  | last_30_days => exact rolling_returns tr tz lang (by decide) now_utc (by omega) hlast
  | previous_month =>
    have h₂ := hback 3
    refine previous_returns tr tz lang 1 (monthOf lang d) (by decide) ?_ ?_ ?_
    · intro offset
      rw [month_start_eq, Int.one_mul]
    · rw [show 1 * (monthOf lang d + -2) = monthOf lang d + 1 - (3 : Nat) by omega]
      omega
    · rw [show 1 * (monthOf lang d + 0) = monthOf lang d by omega]
      omega
  | previous_quarter =>
    have h₉ := hback 9
    have hle : firstDay lang (3 * (monthOf lang d / 3 + 0)) ≤ firstDay lang (monthOf lang d) := firstDay_le (by omega)
    have hle' : firstDay lang (monthOf lang d + 1 - (9 : Nat)) ≤ firstDay lang (3 * (monthOf lang d / 3 + -2)) :=
      firstDay_le (by omega)
    exact previous_returns tr tz lang 3 (monthOf lang d / 3) (by decide) (quarter_start_eq d lang) (by omega) (by omega)
  | year_to_date =>
    have h₂₄ := hback 24
    have hle : firstDay lang (12 * (monthOf lang d / 12)) ≤ firstDay lang (monthOf lang d) := firstDay_le (by omega)
    have hle' : firstDay lang (monthOf lang d + 1 - (24 : Nat)) ≤ firstDay lang (12 * (monthOf lang d / 12 - 1)) :=
      firstDay_le (by omega)
    exact year_to_date_returns tr tz lang now_utc (by omega) (by omega) (by omega)
  | custom =>
    obtain ⟨since, until', rfl, rfl, horder, hbegun, hpast⟩ := h
    exact custom_returns tr tz lang now_utc horder hbegun hpast hlast
  | other => exact absurd h (by simp [Accepted])

theorem resolve_apart {preset : Preset} {now_utc : Datetime} {d : CivilDate} {date_from date_to : Option CivilDate}
    (hd : today tz now_utc = .ok d) (hday : ¬ (preset = .year_to_date ∧ dayOfYear lang d = 366)) {cur prev : Period}
    (h : resolve tr tz lang preset now_utc date_from date_to = .ok (cur, prev)) :
    Apart cur prev ∧ Preceding lang preset cur prev := by
  rw [resolve, hd] at h
  cases preset with
  | last_7_days => exact ⟨rolling_apart tr tz lang (by decide) hd h, trivial⟩
  | last_30_days => exact ⟨rolling_apart tr tz lang (by decide) hd h, trivial⟩
  | previous_month =>
    obtain ⟨hapart, hcur, hprev⟩ := previous_units tr tz lang 1 (monthOf lang d) (by decide) (by
      intro offset
      rw [month_start_eq, Int.one_mul]) h
    exact ⟨hapart, monthOf lang d - 1, hcur, by rwa [show monthOf lang d - 1 - 1 = monthOf lang d - 2 by omega]⟩
  | previous_quarter =>
    obtain ⟨hapart, hcur, hprev⟩ := previous_units tr tz lang 3 (monthOf lang d / 3) (by decide) (quarter_start_eq d lang) h
    exact ⟨hapart, monthOf lang d / 3 - 1, hcur, by rwa [show monthOf lang d / 3 - 1 - 1 = monthOf lang d / 3 - 2 by omega]⟩
  | year_to_date =>
    have hlength : dayOfYear lang d ≠ 366 := fun h366 => hday ⟨rfl, h366⟩
    exact ⟨(year_to_date_apart tr tz lang hd h).mpr hlength, trivial⟩
  | custom => exact ⟨custom_apart tr tz lang hd h, trivial⟩
  | other => cases h

/-- On the last day of a leap year the year to date is compared with a period that ends in it. -/
theorem leap_day_overlaps {now_utc : Datetime} {d : CivilDate} (date_from date_to : Option CivilDate)
    (hd : today tz now_utc = .ok d) (hday : dayOfYear lang d = 366) :
    ∃ cur prev, resolve tr tz lang .year_to_date now_utc date_from date_to = .ok (cur, prev) ∧ ¬ Apart cur prev := by
  obtain ⟨hprev, hfirst, hlast⟩ := leap_range lang hday
  obtain ⟨⟨cur, prev⟩, hr⟩ := year_to_date_returns tr tz lang now_utc hprev hfirst hlast
  refine ⟨cur, prev, ?_, ?_⟩
  · rw [resolve, hd]
    exact hr
  · rw [year_to_date_apart tr tz lang hd hr]
    simp [hday]

/-- What is accepted has its periods away from the first and the last year of `date`, and whatever periods there are, they do
not overlap, except those of a year to date on the 366th day. -/
theorem resolve_apart_iff (preset : Preset) (now_utc : Datetime) (date_from date_to : Option CivilDate) :
    (∀ d, today tz now_utc = .ok d → Accepted preset d date_from date_to → 1000 ≤ d.ordinal →
      d.ordinal < lastOrdinal - 31 → ∃ r, resolve tr tz lang preset now_utc date_from date_to = .ok r) ∧
    ((∀ cur prev, resolve tr tz lang preset now_utc date_from date_to = .ok (cur, prev) →
        Apart cur prev ∧ Preceding lang preset cur prev) ↔
      ¬ (preset = .year_to_date ∧ ∃ d, today tz now_utc = .ok d ∧ dayOfYear lang d = 366)) := by
  refine ⟨fun d hd h hfirst hlast => resolve_returns tr tz lang hd h hfirst hlast, ?_, ?_⟩
  · rintro hall ⟨rfl, d, hd, hday⟩
    obtain ⟨cur, prev, hr, hno⟩ := leap_day_overlaps tr tz lang date_from date_to hd hday
    exact hno (hall cur prev hr).1
  · intro hno cur prev h
    cases hd : today tz now_utc with
    | error e =>
      rw [resolve, hd] at h
      cases h
    | ok d => exact resolve_apart tr tz lang hd (fun hday => hno ⟨hday.1, d, hd, hday.2⟩) h

/-- 2024-12-31 -/
def leapDay : CivilDate := (date 2024 12 31).get (by decide)

/-- Noon of that day -/
def leapNoon : Datetime where
  time := midnight 739251 + 12 * hour
  pos := by decide
  before_end := by decide

theorem leap_noon_overlaps :
    ∃ cur prev, resolve (fun start stop => start ++ stop) none .en .year_to_date leapNoon none none = .ok (cur, prev) ∧
      ¬ Apart cur prev := by
  refine leap_day_overlaps _ none .en none none (d := leapDay) ?_ (by decide)
  simp only [today, bind_ok]
  exact ⟨leapNoon, datetime_ok.mpr (by decide), dateOfOrdinal_ok.mpr (by decide)⟩

end Periods
