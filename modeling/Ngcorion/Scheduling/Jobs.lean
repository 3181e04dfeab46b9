import Ngcorion.Scheduling.Recurrence

/-!
# Scheduled jobs

What an update of a job and the end of a run do with its row. A session writes only the
columns that it has changed from the row as it loaded it.
-/
namespace Jobs

open Recurrence

/-- The columns of a job that concern when it runs. -/
structure ScheduledJob where
  recurrence : Kind
  hour : Option (Fin 24)
  minute : Fin 60
  day_of_week : Option (Fin 7)
  enabled : Bool
  next_run_at : Nat
  last_run_at : Option Nat

def ScheduledJob.schedule (job : ScheduledJob) : Schedule := ⟨job.recurrence, job.hour, job.minute, job.day_of_week⟩

/-- The instant at which a job runs next, seen from a given one. -/
def ScheduledJob.next (job : ScheduledJob) (now : Nat) : Nat := compute_next_run_at job.schedule now

/-! ## Changes -/

structure ScheduledJobUpdate where
  recurrence : Option Kind
  hour : Option (Fin 24)
  minute : Option (Fin 60)
  day_of_week : Option (Fin 7)
  enabled : Option Bool

def ScheduledJobUpdate.schedule_changed (data : ScheduledJobUpdate) : Bool :=
  data.recurrence.isSome || data.hour.isSome || data.minute.isSome || data.day_of_week.isSome

/-- The columns that are given in the request. -/
def ScheduledJob.edit (job : ScheduledJob) (data : ScheduledJobUpdate) : ScheduledJob :=
  { job with
    enabled := data.enabled.getD job.enabled
    recurrence := data.recurrence.getD job.recurrence
    hour := data.hour.or job.hour
    minute := data.minute.getD job.minute
    day_of_week := data.day_of_week.or job.day_of_week }

/-- `update_job`; nothing where it raises. -/
def update_job (job : ScheduledJob) (data : ScheduledJobUpdate) (now : Nat) : Option ScheduledJob :=
  let edited := job.edit data
  if edited.recurrence = .weekly ∧ edited.day_of_week = none then none
  else some (if data.schedule_changed then { edited with next_run_at := edited.next now } else edited)

/-- The end of `run_job_now`. -/
def endRun (job : ScheduledJob) (now : Nat) : ScheduledJob :=
  if job.recurrence = .once then { job with last_run_at := some now, enabled := false }
  else { job with last_run_at := some now, next_run_at := job.next now }

variable {job edited : ScheduledJob} {data : ScheduledJobUpdate} {now : Nat}

theorem update_job_some (h : update_job job data now = some edited) :
    edited = if data.schedule_changed then { job.edit data with next_run_at := (job.edit data).next now } else job.edit data := by
  simp only [update_job] at h
  by_cases hday : (job.edit data).recurrence = .weekly ∧ (job.edit data).day_of_week = none
  · simp [hday] at h
  · rw [if_neg hday] at h
    exact (Option.some.inj h).symm

/-- A change of the schedule stores its next instant. -/
theorem update_job_changed (h : update_job job data now = some edited) (hc : data.schedule_changed = true) :
    edited.next_run_at = edited.next now := by
  rw [update_job_some h, if_pos hc]
  rfl

/-- A change of anything else leaves the schedule and the next instant. -/
theorem update_job_unchanged (h : update_job job data now = some edited) (hc : data.schedule_changed = false) :
    edited.schedule = job.schedule ∧ edited.next_run_at = job.next_run_at := by
  have hnone : data.recurrence = none ∧ data.hour = none ∧ data.minute = none ∧ data.day_of_week = none := by
    simpa [ScheduledJobUpdate.schedule_changed, and_assoc] using hc
  obtain ⟨hr, hh, hm, hd⟩ := hnone
  rw [update_job_some h, if_neg (by simp [hc])]
  simp [ScheduledJob.edit, ScheduledJob.schedule, hr, hh, hm, hd]

theorem update_job_enabled (h : update_job job data now = some edited) :
    edited.enabled = data.enabled.getD job.enabled := by
  rw [update_job_some h]
  split <;> rfl

@[simp] theorem endRun_schedule (job : ScheduledJob) (now : Nat) : (endRun job now).schedule = job.schedule := by
  unfold endRun
  split <;> rfl

/-! ## Commits -/

/-- A column after a commit: the session's value where it differs from the loaded one. -/
def column {α : Type} [DecidableEq α] (loaded edited stored : α) : α := if edited = loaded then stored else edited

@[simp] theorem column_same {α : Type} [DecidableEq α] (loaded stored : α) : column loaded loaded stored = stored := by
  simp [column]

@[simp] theorem column_loaded {α : Type} [DecidableEq α] (loaded edited : α) : column loaded edited loaded = edited := by
  unfold column
  split
  · next h => exact h.symm
  · rfl

def flush (loaded edited stored : ScheduledJob) : ScheduledJob where
  recurrence := column loaded.recurrence edited.recurrence stored.recurrence
  hour := column loaded.hour edited.hour stored.hour
  minute := column loaded.minute edited.minute stored.minute
  day_of_week := column loaded.day_of_week edited.day_of_week stored.day_of_week
  enabled := column loaded.enabled edited.enabled stored.enabled
  next_run_at := column loaded.next_run_at edited.next_run_at stored.next_run_at
  last_run_at := column loaded.last_run_at edited.last_run_at stored.last_run_at

/-- What was loaded is still stored: the edited row is stored. -/
@[simp] theorem flush_loaded (loaded edited : ScheduledJob) : flush loaded edited loaded = edited := by
  simp [flush]

/-- The end of a run leaves the stored schedule. -/
theorem flush_endRun_schedule (loaded stored : ScheduledJob) (now : Nat) :
    (flush loaded (endRun loaded now) stored).schedule = stored.schedule := by
  unfold endRun
  split <;> simp [flush, ScheduledJob.schedule]

/-- A one-off job that was loaded is disabled and keeps its instant. -/
theorem flush_endRun_once {loaded : ScheduledJob} (h : loaded.recurrence = .once) (stored : ScheduledJob) (now : Nat) :
    (flush loaded (endRun loaded now) stored).next_run_at = stored.next_run_at ∧
      (flush loaded (endRun loaded now) stored).enabled = column loaded.enabled false stored.enabled := by
  simp [endRun, h, flush]

/-- Any other job gets the next instant of the schedule that was loaded. -/
theorem flush_endRun_next {loaded : ScheduledJob} (h : loaded.recurrence ≠ .once) (stored : ScheduledJob) (now : Nat) :
    (flush loaded (endRun loaded now) stored).next_run_at =
        column loaded.next_run_at (loaded.next now) stored.next_run_at ∧
      (flush loaded (endRun loaded now) stored).enabled = stored.enabled := by
  simp [endRun, h, flush]

end Jobs
