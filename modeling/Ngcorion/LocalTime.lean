import Mathlib.Tactic.Common

/-!
# Times in a zone with a fixed offset

Times are microseconds from the first midnight of the calendar, a Monday; days are numbered from 1. A server without a zone
keeps UTC.
-/
namespace LocalTime

def minute : Int := 60000000

def hour : Int := 60 * minute

def day : Int := 24 * hour

def week : Int := 7 * day

def toLocal (tz : Option Int) (t : Int) : Int := t + tz.getD 0

def toUtc (tz : Option Int) (t : Int) : Int := t - tz.getD 0

@[simp] theorem toUtc_toLocal (tz : Option Int) (t : Int) : toUtc tz (toLocal tz t) = t := by
  unfold toUtc toLocal
  omega

@[simp] theorem toLocal_toUtc (tz : Option Int) (t : Int) : toLocal tz (toUtc tz t) = t := by
  unfold toUtc toLocal
  omega

/-- The number of the day of a time -/
def dateOf (t : Int) : Int := t / day + 1

/-- The first moment of a day -/
def midnight (n : Int) : Int := (n - 1) * day

/-- The same day at another time of it -/
def atTime (t : Int) (moment : Int) : Int := t / day * day + moment

/-- Monday is 0. -/
def weekdayOf (t : Int) : Int := t / day % 7

theorem dateOf_mono {s t : Int} (h : s ≤ t) : dateOf s ≤ dateOf t := by
  unfold dateOf day hour minute
  omega

theorem dateOf_le_iff {t n : Int} : n ≤ dateOf t ↔ midnight n ≤ t := by
  unfold dateOf midnight day hour minute
  omega

end LocalTime
