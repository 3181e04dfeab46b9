import Mathlib.Algebra.GroupWithZero.Nat
import Mathlib.Tactic.Common

/-!
# When a scheduled job runs next

Instants are microseconds since the beginning of the year 1, which was a Monday. The
next run of a job is the first instant after a given one that its schedule names.
-/
namespace Recurrence

def minuteLength : Nat := 60000000

def hourLength : Nat := 3600000000

def dayLength : Nat := 86400000000

def weekLength : Nat := 604800000000

/-- The values of `recurrence`. -/
inductive Kind where
  | once | hourly | daily | weekly
  deriving DecidableEq

instance neZero_hours : NeZero 24 := ⟨by decide⟩

instance neZero_minutes : NeZero 60 := ⟨by decide⟩

/-- The columns that say when a job runs; the bounds are those of the request. -/
structure Schedule where
  recurrence : Kind
  hour : Option (Fin 24)
  minute : Fin 60
  day_of_week : Option (Fin 7)

def Schedule.timeOfDay (s : Schedule) : Nat := (s.hour.getD 0).val * hourLength + s.minute.val * minuteLength

/-- `candidate.weekday()` -/
def weekday (t : Nat) : Nat := t / dayLength % 7

def compute_next_run_at (s : Schedule) (now : Nat) : Nat :=
  match s.recurrence with
  | .hourly =>
    let candidate := now / hourLength * hourLength + s.minute.val * minuteLength
    if candidate ≤ now then candidate + hourLength else candidate
  | .daily | .once =>
    let candidate := now / dayLength * dayLength + s.timeOfDay
    if candidate ≤ now then candidate + dayLength else candidate
  | .weekly =>
    let candidate := now / dayLength * dayLength + s.timeOfDay
    let days_ahead := ((s.day_of_week.getD 0).val + 7 - weekday candidate) % 7
    let candidate := candidate + days_ahead * dayLength
    if candidate ≤ now then candidate + 7 * dayLength else candidate

/-! ## The instants of a schedule -/

/-- How often a schedule names an instant, and where in each such period. -/
def Schedule.period (s : Schedule) : Nat :=
  match s.recurrence with
  | .hourly => hourLength
  | .daily | .once => dayLength
  | .weekly => weekLength

def Schedule.offset (s : Schedule) : Nat :=
  match s.recurrence with
  | .hourly => s.minute.val * minuteLength
  | .daily | .once => s.timeOfDay
  | .weekly => (s.day_of_week.getD 0).val * dayLength + s.timeOfDay

/-- The schedule names the instant. -/
def Schedule.Names (s : Schedule) (t : Nat) : Prop := t % s.period = s.offset

instance (s : Schedule) (t : Nat) : Decidable (s.Names t) := inferInstanceAs (Decidable (_ = _))

/-- The first instant after a given one at an offset in its period. -/
def nextAt (period offset now : Nat) : Nat :=
  if now / period * period + offset ≤ now then now / period * period + offset + period
  else now / period * period + offset

theorem lt_nextAt {period offset : Nat} (h : offset < period) (now : Nat) : now < nextAt period offset now := by
  have hdiv := Nat.div_add_mod' now period
  have hmod := Nat.mod_lt now (Nat.lt_of_le_of_lt (Nat.zero_le _) h)
  unfold nextAt
  split <;> omega

theorem nextAt_mod {period offset : Nat} (h : offset < period) (now : Nat) : nextAt period offset now % period = offset := by
  unfold nextAt
  split
  · rw [Nat.add_mod_right, Nat.mul_add_mod_self_right, Nat.mod_eq_of_lt h]
  · rw [Nat.mul_add_mod_self_right, Nat.mod_eq_of_lt h]

theorem nextAt_le {period offset now t : Nat} (hlt : now < t) (ht : t % period = offset) : nextAt period offset now ≤ t := by
  have hnow := Nat.div_add_mod' now period
  have hdiv := Nat.div_add_mod' t period
  have hle : now / period ≤ t / period := Nat.div_le_div_right (Nat.le_of_lt hlt)
  unfold nextAt
  split
  · -- the instant of this period has passed, so the other one is in a later period
    next hpassed =>
    have hne : now / period ≠ t / period := by
      intro heq
      rw [heq] at hpassed
      omega
    have hmul : (now / period + 1) * period ≤ t / period * period := Nat.mul_le_mul_right _ (by omega)
    rw [Nat.add_mul] at hmul
    omega
  · have hmul : now / period * period ≤ t / period * period := Nat.mul_le_mul_right _ hle
    omega

/-- There is one such instant within a period. -/
theorem eq_nextAt {period offset now t : Nat} (h : offset < period) (hlt : now < t) (hle : t ≤ now + period)
    (ht : t % period = offset) : t = nextAt period offset now := by
  have hfirst := nextAt_le hlt ht
  have hafter := lt_nextAt h now
  have hdvd := Nat.sub_mod_eq_zero_of_mod_eq (ht.trans (nextAt_mod h now).symm)
  have hzero := Nat.eq_zero_of_dvd_of_lt (Nat.dvd_of_mod_eq_zero hdvd) (by omega)
  omega

theorem Schedule.timeOfDay_lt (s : Schedule) : s.timeOfDay < dayLength := by
  have hhour := (s.hour.getD 0).isLt
  have hminute := s.minute.isLt
  simp only [timeOfDay, hourLength, minuteLength, dayLength]
  omega

theorem Schedule.offset_lt (s : Schedule) : s.offset < s.period := by
  have htime := s.timeOfDay_lt
  have hminute := s.minute.isLt
  have hday := (s.day_of_week.getD 0).isLt
  unfold offset period
  cases s.recurrence with
  | hourly =>
    simp only [hourLength, minuteLength]
    omega
  | daily => exact htime
  | once => exact htime
  | weekly =>
    simp only [dayLength, weekLength] at htime ⊢
    omega

/-- The day of the week that is next from today on, at the time of the day. -/
def weekdayAhead (now time dow : Nat) : Nat :=
  now / dayLength * dayLength + time + (dow + 7 - weekday (now / dayLength * dayLength + time)) % 7 * dayLength

theorem weekdayAhead_spec {now time dow : Nat} (htime : time < dayLength) (hdow : dow < 7) :
    weekdayAhead now time dow % weekLength = dow * dayLength + time ∧ weekdayAhead now time dow ≤ now + weekLength ∧
      now < weekdayAhead now time dow + weekLength := by
  simp only [weekdayAhead, weekday, dayLength, weekLength] at htime ⊢
  omega

theorem compute_weekly {s : Schedule} (h : s.recurrence = .weekly) (now : Nat) :
    compute_next_run_at s now =
      let candidate := weekdayAhead now s.timeOfDay (s.day_of_week.getD 0).val
      if candidate ≤ now then candidate + weekLength else candidate := by
  unfold compute_next_run_at
  rw [h]
  rfl

/-- The function computes the first instant of the schedule. -/
theorem compute_next_run_at_eq (s : Schedule) (now : Nat) :
    compute_next_run_at s now = nextAt s.period s.offset now := by
  have hoffset := s.offset_lt
  cases hr : s.recurrence with
  | weekly =>
    obtain ⟨hmod, hle, hlt⟩ := @weekdayAhead_spec now s.timeOfDay _ s.timeOfDay_lt (s.day_of_week.getD 0).isLt
    rw [compute_weekly hr]
    unfold Schedule.period Schedule.offset at hoffset ⊢
    rw [hr] at hoffset ⊢
    by_cases hpassed : weekdayAhead now s.timeOfDay (s.day_of_week.getD 0).val ≤ now
    · simp only [hpassed, if_true]
      exact eq_nextAt hoffset hlt (by omega) (by rw [Nat.add_mod_right, hmod])
    · simp only [hpassed, if_false]
      exact eq_nextAt hoffset (by omega) hle hmod
  | _ =>
    unfold compute_next_run_at Schedule.period Schedule.offset
    rw [hr]
    rfl

/-- It is after the given instant, -/
theorem lt_compute_next_run_at (s : Schedule) (now : Nat) : now < compute_next_run_at s now := by
  rw [compute_next_run_at_eq]
  exact lt_nextAt s.offset_lt now

/-- the schedule names it, -/
theorem names_compute_next_run_at (s : Schedule) (now : Nat) : s.Names (compute_next_run_at s now) := by
  rw [compute_next_run_at_eq]
  exact nextAt_mod s.offset_lt now

/-- and it is the first such one. -/
theorem compute_next_run_at_le (s : Schedule) {now t : Nat} (hlt : now < t) (ht : s.Names t) :
    compute_next_run_at s now ≤ t := by
  rw [compute_next_run_at_eq]
  exact nextAt_le hlt ht

/-- The next instant stays the same as long as the schedule names none in between. -/
theorem same_next_iff (s : Schedule) {now later : Nat} (h : now ≤ later) :
    compute_next_run_at s now = compute_next_run_at s later ↔ ∀ t, now < t → t ≤ later → ¬ s.Names t := by
  constructor
  · intro heq t hlt hle ht
    have hfirst := compute_next_run_at_le s hlt ht
    have hafter := lt_compute_next_run_at s later
    omega
  · intro hnone
    have hafter := lt_compute_next_run_at s now
    have hlater : later < compute_next_run_at s now := by
      by_contra hle
      exact hnone _ hafter (by omega) (names_compute_next_run_at s now)
    have hle := compute_next_run_at_le s hlater (names_compute_next_run_at s now)
    have hge := compute_next_run_at_le s (Nat.lt_of_le_of_lt h (lt_compute_next_run_at s later))
      (names_compute_next_run_at s later)
    omega

end Recurrence
