import Ngcorion.Scheduling.Jobs
import Ngcorion.Transition

/-!
# A change of a job during a run

One run of a job and one change of it. The run reads the row at any moments, and at its
end reads the clock, computes the next instant and commits, with other steps in between.
The change is one transaction.
-/
namespace Reschedule

open Recurrence Jobs Transition

/-- When the change comes: before the run, during it, or after its commit. -/
inductive Moment where
  | before | during | after
  deriving DecidableEq

/-- The clock, the row, the run (whether it has begun, the row as it last read it with whether
the change had been made then, its clock, when it committed), and the change. -/
structure State where
  clock : Nat
  job : ScheduledJob
  started : Bool
  loaded : Option (ScheduledJob × Bool)
  now : Option Nat
  finished : Option Nat
  updated : Option (Nat × Moment)

inductive Action where
  | tick (microseconds : Nat)
  | start
  | read
  | readClock
  | commit
  | update

def moment (s : State) : Moment := if s.finished.isSome then .after else if s.started then .during else .before

def step (data : ScheduledJobUpdate) (s : State) : Action → Option State
  | .tick microseconds => some { s with clock := s.clock + microseconds }
  | .start => if s.started then none else some { s with started := true }
  | .read =>
    if s.started ∧ s.finished = none then some { s with loaded := some (s.job, s.updated.isSome) } else none
  | .readClock => if s.started ∧ s.now = none then some { s with now := some s.clock } else none
  | .commit =>
    match s.loaded, s.now, s.finished with
    | some (loaded, _), some now, none =>
      some { s with job := flush loaded (endRun loaded now) s.job, finished := some s.clock }
    | _, _, _ => none
  | .update =>
    match s.updated with
    | some _ => none
    | none => (update_job s.job data s.clock).map (fun edited =>
        { s with job := flush s.job edited s.job, updated := some (s.clock, moment s) })

def begin (clock : Nat) (job : ScheduledJob) : State := ⟨clock, job, false, none, none, none, none⟩

/-! ## What the two leave -/

/-- The stored instant is the next one of the stored schedule, and a one-off job that was
rescheduled and enabled during the run is enabled. -/
def Kept (data : ScheduledJobUpdate) (s : State) (u m : Nat) (moment : Moment) : Prop :=
  s.job.next_run_at = s.job.next (max u m) ∧
    (moment = .during → data.schedule_changed = true → data.enabled = some true → s.job.recurrence = .once →
      s.job.enabled = true)

instance (data : ScheduledJobUpdate) (s : State) (u m : Nat) (moment : Moment) : Decidable (Kept data s u m moment) :=
  inferInstanceAs (Decidable (_ ∧ _))

/-- The instant that a change leaves. -/
def instant (job : ScheduledJob) (data : ScheduledJobUpdate) (u : Nat) : Nat :=
  if data.schedule_changed then (job.edit data).next u else job.next_run_at

/-- The change comes after the run: it changes the schedule, or the instant that the run left is
still the next one. -/
def fitsAfter (job : ScheduledJob) (data : ScheduledJobUpdate) (c u : Nat) : Bool :=
  data.schedule_changed || (if job.recurrence = .once then job.next_run_at else job.next c) = job.next u

/-- The run has read the changed row: no instant lies between its clock and its commit, or the
job is a one-off job with its instant still to come, and was not made one during the run. -/
def fitsFresh (job : ScheduledJob) (data : ScheduledJobUpdate) (u c m : Nat) (moment : Moment) : Bool :=
  if (job.edit data).recurrence = .once then
    instant job data u = (job.edit data).next m &&
      !(moment = .during && data.schedule_changed && data.enabled = some true)
  else (job.edit data).next c = (job.edit data).next m

/-- The run has read the row before the change: the next instant of the old schedule, or where
the run does not write it the stored one, is that of the new schedule; a one-off job that the run
disables was not changed into an enabled one-off job during the run. -/
def fitsStale (job : ScheduledJob) (data : ScheduledJobUpdate) (u c m : Nat) (moment : Moment) : Bool :=
  if job.recurrence = .once then
    instant job data u = (job.edit data).next m &&
      !(moment = .during && data.schedule_changed && data.enabled = some true && (job.edit data).recurrence = .once &&
        job.enabled)
  else (if job.next c = job.next_run_at then instant job data u else job.next c) = (job.edit data).next m

/-- The condition in the order of the steps that were taken. -/
def fits (job : ScheduledJob) (data : ScheduledJobUpdate) (s : State) (u m : Nat) (moment : Moment) : Bool :=
  match moment, s.loaded, s.now with
  | .after, _, some c => fitsAfter job data c u
  | _, some (_, true), some c => fitsFresh job data u c m moment
  | _, some (_, false), some c => fitsStale job data u c m moment
  | _, _, _ => false

/-! ## Every order of steps -/

/-- How the row and what the run has read came about. -/
def History (job : ScheduledJob) (data : ScheduledJobUpdate) (s : State) : Prop :=
  match s.finished, s.updated with
  | none, none => s.job = job ∧ ∀ loaded fresh, s.loaded = some (loaded, fresh) → loaded = job ∧ fresh = false
  | none, some (u, moment) => u ≤ s.clock ∧ moment ≠ .after ∧ update_job job data u = some s.job ∧
      ∀ loaded fresh, s.loaded = some (loaded, fresh) → loaded = if fresh then s.job else job
  | some m, none => m ≤ s.clock ∧ ∃ c, s.now = some c ∧ s.loaded = some (job, false) ∧ s.job = endRun job c
  | some m, some (u, .after) => m ≤ u ∧ ∃ c, s.now = some c ∧ update_job (endRun job c) data u = some s.job
  | some m, some (u, _) => u ≤ m ∧ ∃ c loaded fresh new, s.now = some c ∧ s.loaded = some (loaded, fresh) ∧
      update_job job data u = some new ∧ loaded = (if fresh then new else job) ∧
      s.job = flush loaded (endRun loaded c) new


section History

variable {clock : Nat} {job : ScheduledJob} {data : ScheduledJobUpdate} {s s' : State} {a : Action}

theorem History.commit (hh : History job data s) (h : step data s .commit = some s') : History job data s' := by
  simp only [step] at h
  split at h
  · next hloaded hnow hopen =>
    cases h
    unfold History at hh ⊢
    rw [hopen] at hh
    cases hu : s.updated with
    | none =>
      rw [hu] at hh
      obtain ⟨hjob, hread⟩ := hh
      obtain ⟨rfl, rfl⟩ := hread _ _ hloaded
      exact ⟨Nat.le_refl _, _, hnow, hloaded, by rw [hjob, flush_loaded]⟩
    | some change =>
      obtain ⟨u, moment⟩ := change
      rw [hu] at hh
      obtain ⟨hle, hmoment, hnew, hread⟩ := hh
      cases moment with
      | after => exact absurd rfl hmoment
      | before => exact ⟨hle, _, _, _, _, hnow, hloaded, hnew, hread _ _ hloaded, rfl⟩
      | during => exact ⟨hle, _, _, _, _, hnow, hloaded, hnew, hread _ _ hloaded, rfl⟩
  · simp at h

theorem History.update (hh : History job data s) (h : step data s .update = some s') : History job data s' := by
  simp only [step] at h
  split at h
  · simp at h
  · next hnone =>
    obtain ⟨edited, hedited, rfl⟩ := Option.map_eq_some_iff.mp h
    unfold History at hh ⊢
    rw [hnone] at hh
    cases hf : s.finished with
    | none =>
      rw [hf] at hh
      obtain ⟨hjob, hread⟩ := hh
      refine ⟨Nat.le_refl _, ?_, ?_, ?_⟩
      · unfold moment
        rw [hf]
        cases s.started <;> simp
      · rw [← hjob, flush_loaded]
        exact hedited
      · intro loaded fresh hl
        obtain ⟨rfl, rfl⟩ := hread loaded fresh hl
        rfl
    | some m =>
      rw [hf] at hh
      obtain ⟨hle, c, hc, _, hjob⟩ := hh
      have hafter : moment s = .after := by simp [moment, hf]
      simp only [hafter]
      refine ⟨hle, c, hc, ?_⟩
      rw [← hjob, flush_loaded]
      exact hedited

theorem history_step (hh : History job data s) (h : step data s a = some s') : History job data s' := by
  cases a with
  | tick microseconds =>
    cases h
    unfold History at hh ⊢
    grind
  | start =>
    simp only [step] at h
    split at h
    · simp at h
    · cases h
      exact hh
  | read =>
    simp only [step] at h
    split at h
    · next hread =>
      cases h
      unfold History at hh ⊢
      grind
    · simp at h
  | readClock =>
    simp only [step] at h
    split at h
    · next hread =>
      cases h
      unfold History at hh ⊢
      grind
    · simp at h
  | commit => exact hh.commit h
  | update => exact hh.update h

theorem history_begin (clock : Nat) (job : ScheduledJob) (data : ScheduledJobUpdate) :
    History job data (begin clock job) := by
  refine ⟨rfl, fun loaded fresh hl => ?_⟩
  cases hl

theorem history (h : Reach (step data) (fun _ _ => True) (begin clock job) s) : History job data s :=
  h.invariant (history_begin clock job data) (fun _ _ _ hh _ => history_step hh)

end History

/-! ## What the last of the two leaves -/

section Kept

variable {job : ScheduledJob} {data : ScheduledJobUpdate} {s : State} {u c m : Nat} {new : ScheduledJob}
  {moment : Moment}

theorem update_job_next (h : update_job job data u = some new) (now : Nat) :
    new.next now = (job.edit data).next now := by
  rw [update_job_some h]
  split <;> rfl

theorem update_job_recurrence (h : update_job job data u = some new) :
    new.recurrence = (job.edit data).recurrence := by
  rw [update_job_some h]
  split <;> rfl

theorem update_job_instant (h : update_job job data u = some new) : new.next_run_at = instant job data u := by
  rw [update_job_some h]
  unfold instant
  split <;> rfl

/-- The change comes last. -/
theorem kept_after (hle : m ≤ u) (hnew : update_job (endRun job c) data u = some s.job) :
    Kept data s u m .after ↔ fitsAfter job data c u = true := by
  unfold Kept fitsAfter
  rw [Nat.max_eq_left hle]
  cases hc : data.schedule_changed with
  | true =>
    have hnext := update_job_changed hnew hc
    simpa using hnext
  | false =>
    obtain ⟨hschedule, hinstant⟩ := update_job_unchanged hnew hc
    rw [endRun_schedule] at hschedule
    have hnext : s.job.next u = job.next u := by simp [ScheduledJob.next, hschedule]
    have hleft : (endRun job c).next_run_at = if job.recurrence = .once then job.next_run_at else job.next c := by
      unfold endRun
      split <;> rfl
    simp [hinstant, hnext, hleft]

/-- The run comes last and has read the changed row. -/
theorem kept_fresh (hle : u ≤ m)
    (hnew : update_job job data u = some new) (hjob : s.job = endRun new c) :
    Kept data s u m moment ↔ fitsFresh job data u c m moment = true := by
  have hnext : s.job.next m = (job.edit data).next m := by
    rw [← update_job_next hnew, hjob]
    simp [ScheduledJob.next]
  unfold Kept fitsFresh
  rw [Nat.max_eq_right hle, hnext, hjob, ← update_job_instant hnew, ← update_job_next hnew,
    ← update_job_recurrence hnew]
  by_cases honce : new.recurrence = .once
  · simp [endRun, honce]
    grind
  · simp [endRun, honce, ← update_job_next hnew]

/-- The run comes last and has read the row as it was before the change. -/
theorem kept_stale (hle : u ≤ m)
    (hnew : update_job job data u = some new) (hjob : s.job = flush job (endRun job c) new) :
    Kept data s u m moment ↔ fitsStale job data u c m moment = true := by
  have hschedule := flush_endRun_schedule job new c
  have hnext : s.job.next m = (job.edit data).next m := by
    rw [← update_job_next hnew, hjob]
    simp only [ScheduledJob.next, hschedule]
  have hrecurrence : s.job.recurrence = (job.edit data).recurrence := by
    rw [← update_job_recurrence hnew, hjob]
    exact congrArg Schedule.recurrence hschedule
  unfold Kept fitsStale
  rw [Nat.max_eq_right hle, hnext, hrecurrence, ← update_job_instant hnew]
  by_cases honce : job.recurrence = .once
  · obtain ⟨hinstant, henabled⟩ := flush_endRun_once honce new c
    rw [hjob, hinstant, henabled]
    have := update_job_enabled hnew
    simp [honce, column]
    grind
  · obtain ⟨hinstant, henabled⟩ := flush_endRun_next honce new c
    rw [hjob, hinstant, henabled, update_job_enabled hnew]
    simp [honce, column]
    grind

end Kept

/-- In every order of the steps, a run and a change that have both committed leave the next
instant of the stored schedule, and a one-off job enabled that was rescheduled and enabled during the
run, exactly when the condition holds of the order they came in. -/
theorem reschedule_kept (clock : Nat) (job : ScheduledJob) (data : ScheduledJobUpdate) {s : State} {u m : Nat}
    {moment : Moment} (h : Reach (step data) (fun _ _ => True) (begin clock job) s) (hf : s.finished = some m)
    (hu : s.updated = some (u, moment)) : Kept data s u m moment ↔ fits job data s u m moment = true := by
  have hh := history h
  unfold History at hh
  rw [hf, hu] at hh
  have hearly (hle : u ≤ m) {c : Nat} {loaded new : ScheduledJob} {fresh : Bool}
      (hnew : update_job job data u = some new) (hread : loaded = if fresh then new else job)
      (hjob : s.job = flush loaded (endRun loaded c) new) :
      Kept data s u m moment ↔
        (if fresh then fitsFresh job data u c m moment else fitsStale job data u c m moment) = true := by
    cases fresh with
    | true =>
      have hloaded : loaded = new := by simpa using hread
      rw [hloaded, flush_loaded] at hjob
      exact kept_fresh hle hnew hjob
    | false =>
      have hloaded : loaded = job := by simpa using hread
      rw [hloaded] at hjob
      exact kept_stale hle hnew hjob
  cases moment with
  | after =>
    obtain ⟨hle, c, hc, hnew⟩ := hh
    rw [kept_after hle hnew]
    simp only [fits, hc]
  | before =>
    obtain ⟨hle, c, loaded, fresh, new, hc, hl, hnew, hread, hjob⟩ := hh
    rw [hearly hle hnew hread hjob]
    cases fresh <;> simp [fits, hc, hl]
  | during =>
    obtain ⟨hle, c, loaded, fresh, new, hc, hl, hnew, hread, hjob⟩ := hh
    rw [hearly hle hnew hread hjob]
    cases fresh <;> simp [fits, hc, hl]

/-- A job of every day at ten. -/
def dailyJob : ScheduledJob := ⟨.daily, some 10, 0, none, true, 10 * hourLength, none⟩

/-- A one-off job at ten. -/
def onceJob : ScheduledJob := ⟨.once, some 10, 0, none, true, 10 * hourLength, none⟩

/-- Move the job to noon, enabled. -/
def toNoon : ScheduledJobUpdate := ⟨none, some 12, none, none, some true⟩

/-- A run from ten to eleven that reads the row after the change at half past ten keeps it. -/
theorem noon_kept :
    ∃ s, Reach (step toNoon) (fun _ _ => True) (begin (10 * hourLength) dailyJob) s ∧
      Kept toNoon s (10 * hourLength + 30 * minuteLength) (11 * hourLength) .during := by
  have hrun : (run (fun s a => if true then step toNoon s a else none)
      [.start, .tick (30 * minuteLength), .update, .read, .tick (30 * minuteLength), .readClock, .commit]
      (begin (10 * hourLength) dailyJob)).any
      (fun s => s.finished = some (11 * hourLength) &&
        s.updated = some (10 * hourLength + 30 * minuteLength, .during) &&
        fits dailyJob toNoon s (10 * hourLength + 30 * minuteLength) (11 * hourLength) .during) = true := by
    with_unfolding_all decide
  obtain ⟨s, hs, hall⟩ := (Option.any_eq_true _ _).mp hrun
  simp only [Bool.and_eq_true, decide_eq_true_eq] at hall
  obtain ⟨⟨hf, hu⟩, hfits⟩ := hall
  have hreach : Reach (step toNoon) (fun _ _ => True) (begin (10 * hourLength) dailyJob) s :=
    Reach.run (fun _ _ _ => trivial) _ .start hs
  exact ⟨s, hreach, (reschedule_kept _ _ _ hreach hf hu).mpr hfits⟩

/-- The run reads the row before the change, and the change is made, then the run ends. -/
def readEarly : List Action :=
  [.start, .read, .tick (30 * minuteLength), .update, .tick (30 * minuteLength), .readClock, .commit]

/-- A job whose interval is changed during its run, and is saved as the run left it. -/
def LostAtNoon (job : ScheduledJob) : Prop :=
  ∃ s, Reach (step toNoon) (fun _ _ => True) (begin (10 * hourLength) job) s ∧
    s.finished = some (11 * hourLength) ∧ s.updated = some (10 * hourLength + 30 * minuteLength, .during) ∧
    ¬ Kept toNoon s (10 * hourLength + 30 * minuteLength) (11 * hourLength) .during

theorem lostAtNoon_of_run {job : ScheduledJob}
    (hrun : (run (fun s a => if true then step toNoon s a else none) readEarly (begin (10 * hourLength) job)).any
      (fun s => s.finished = some (11 * hourLength) &&
        s.updated = some (10 * hourLength + 30 * minuteLength, .during) &&
        !decide (Kept toNoon s (10 * hourLength + 30 * minuteLength) (11 * hourLength) .during)) = true) :
    LostAtNoon job := by
  obtain ⟨s, hs, hall⟩ := (Option.any_eq_true _ _).mp hrun
  simp only [Bool.and_eq_true, decide_eq_true_eq, Bool.not_eq_true', decide_eq_false_iff_not] at hall
  obtain ⟨⟨hf, hu⟩, hlost⟩ := hall
  exact ⟨s, Reach.run (fun _ _ _ => trivial) _ .start hs, hf, hu, hlost⟩

/-- The daily job stays at ten, and the one-off job is disabled. -/
theorem noon_lost : LostAtNoon dailyJob ∧ LostAtNoon onceJob :=
  ⟨lostAtNoon_of_run (by with_unfolding_all decide), lostAtNoon_of_run (by with_unfolding_all decide)⟩

end Reschedule
