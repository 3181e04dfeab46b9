import Ngcorion.Scheduling.Jobs
import Ngcorion.Dict
import Ngcorion.Transition

/-!
# Claiming due jobs

Sweeps of several server processes claim due jobs; runs end and users change jobs in
between. A sweep reads the clock and then the due jobs, and claims each one by an update
that takes effect only if nobody has moved the job. A run and a change write the next
run without such a condition.
-/
namespace Claims

open Recurrence Jobs Transition

/-! ## Sweeps, runs and changes -/

inductive Process where
  /-- `claim_due_jobs` with its clock; the jobs it has read and not tried yet, once it has read them -/
  | sweep (now : Nat) (due : Option (List (Nat × ScheduledJob)))
  /-- `run_job_now`: the row as it was last read, and the clock read at the end -/
  | run (id : Nat) (loaded : Option ScheduledJob) (now : Option Nat)
  /-- `update_job`, with the row as it was read -/
  | update (id : Nat) (data : ScheduledJobUpdate) (loaded : Option ScheduledJob)
  /-- the end of a run or a change: all is computed and nothing is committed -/
  | commit (id : Nat) (loaded edited : ScheduledJob)

inductive Event where
  /-- a sweep returns a job, with the instant it was scheduled for; `once` as the row says then -/
  | claimed (id instant : Nat) (once : Bool)
  /-- a user enables a disabled job -/
  | enabled (id : Nat)

/-- The clock, the table, the processes and what happened, the last first. -/
structure State where
  clock : Nat
  jobs : List (Nat × ScheduledJob)
  processes : List Process
  log : List Event

inductive Action where
  | tick (microseconds : Nat)
  | startSweep
  | startRun (id : Nat)
  | startUpdate (id : Nat) (data : ScheduledJobUpdate)
  /-- a process reads the table -/
  | read (index : Nat)
  /-- a process takes its next step -/
  | advance (index : Nat)

/-- The filter of `due_jobs`. -/
def due (now : Nat) (job : ScheduledJob) : Bool := job.enabled && job.next_run_at ≤ now

/-- The condition of the update that claims a job. -/
def unmoved (stored seen : ScheduledJob) : Bool := stored.enabled && stored.next_run_at = seen.next_run_at

/-- The values of that update. -/
def claim (now : Nat) (seen stored : ScheduledJob) : ScheduledJob :=
  if seen.recurrence = .once then { stored with enabled := false } else { stored with next_run_at := seen.next now }

/-- What a process reads from the table. -/
def readTable (s : State) : Process → Option Process
  | .sweep now none => some (.sweep now (some (s.jobs.filter (fun e => due now e.2))))
  | .run id _ now => (Dict.get s.jobs id).map (fun job => .run id (some job) now)
  | .update id data none => (Dict.get s.jobs id).map (fun job => .update id data (some job))
  | _ => none

def setProcess (s : State) (i : Nat) (p : Process) : State := { s with processes := s.processes.set i p }

/-- The next step of a process. -/
def advance (s : State) (i : Nat) : Process → Option State
  | .sweep now (some ((id, seen) :: rest)) =>
    let s' := setProcess s i (.sweep now (some rest))
    match Dict.get s.jobs id with
    | none => some s'
    | some stored =>
      if unmoved stored seen then
        some { s' with
          jobs := Dict.set s.jobs id (claim now seen stored)
          log := .claimed id seen.next_run_at (stored.recurrence = .once) :: s.log }
      else some s'
  | .run id loaded none => some (setProcess s i (.run id loaded (some s.clock)))
  | .run id (some loaded) (some now) => some (setProcess s i (.commit id loaded (endRun loaded now)))
  | .update id data (some loaded) =>
    (update_job loaded data s.clock).map (fun edited => setProcess s i (.commit id loaded edited))
  | .commit id loaded edited =>
    (Dict.get s.jobs id).map (fun stored =>
      let job := flush loaded edited stored
      { s with
        jobs := Dict.set s.jobs id job
        processes := s.processes.eraseIdx i
        log := if !stored.enabled && job.enabled then .enabled id :: s.log else s.log })
  | _ => none

def step (s : State) : Action → Option State
  | .tick microseconds => some { s with clock := s.clock + microseconds }
  | .startSweep => some { s with processes := s.processes ++ [.sweep s.clock none] }
  | .startRun id => some { s with processes := s.processes ++ [.run id none none] }
  | .startUpdate id data => some { s with processes := s.processes ++ [.update id data none] }
  | .read i => (s.processes[i]?).bind (fun p => (readTable s p).map (setProcess s i))
  | .advance i => (s.processes[i]?).bind (advance s i)

def begin (clock : Nat) (jobs : List (Nat × ScheduledJob)) : State := ⟨clock, jobs, [], []⟩

/-! ## What was claimed -/

/-- The instants for which a job was claimed. -/
def instants (id : Nat) : List Event → List Nat
  | [] => []
  | .claimed j instant _ :: log => if j = id then instant :: instants id log else instants id log
  | .enabled _ :: log => instants id log

/-- The job was claimed as a one-off job, and no user has enabled it since. -/
def spent (id : Nat) : List Event → Bool
  | [] => false
  | .claimed j _ once :: log => (j = id && once) || spent id log
  | .enabled j :: log => j ≠ id && spent id log

/-- No job was claimed twice for one instant. -/
def ClaimedOnce (s : State) : Prop := ∀ id, (instants id s.log).Nodup

/-- No one-off job was claimed again unless a user enabled it. -/
def SpentOnce : List Event → Prop
  | [] => True
  | .claimed id _ _ :: log => spent id log = false ∧ SpentOnce log
  | .enabled _ :: log => SpentOnce log

/-- A commit that leaves a job enabled leaves it with a later instant than all for which it
was claimed; a sweep does not claim a job that became a one-off job after it was read. -/
def lawful (s : State) : Action → Bool
  | .advance i =>
    match s.processes[i]? with
    | some (.commit id loaded edited) =>
      (Dict.get s.jobs id).all (fun stored =>
        let job := flush loaded edited stored
        !job.enabled || (instants id s.log).all (· < job.next_run_at))
    | some (.sweep _ (some ((id, seen) :: _))) =>
      (Dict.get s.jobs id).all (fun stored =>
        !unmoved stored seen || stored.recurrence ≠ .once || seen.recurrence = .once)
    | _ => true
  | _ => true

/-! ## No second claim -/

/-- An enabled job is scheduled later than all for which it was claimed, a spent one is
disabled, and what a sweep has read was due. -/
structure Inv (s : State) : Prop where
  ahead : ∀ id job, Dict.get s.jobs id = some job → job.enabled = true → ∀ t ∈ instants id s.log, t < job.next_run_at
  disabled : ∀ id job, Dict.get s.jobs id = some job → spent id s.log = true → job.enabled = false
  due : ∀ now seen, .sweep now (some seen) ∈ s.processes → ∀ e ∈ seen, e.2.next_run_at ≤ now
  claimed : ClaimedOnce s
  once : SpentOnce s.log

variable {s s' : State}

/-- Only the processes change, and a sweep among the new ones has read due jobs. -/
theorem Inv.processes (h : Inv s) {ps : List Process}
    (hps : ∀ now seen, .sweep now (some seen) ∈ ps → ∀ e ∈ seen, e.2.next_run_at ≤ now) : Inv { s with processes := ps } :=
  ⟨h.ahead, h.disabled, hps, h.claimed, h.once⟩

theorem Inv.setProcess (h : Inv s) {i : Nat} {p : Process}
    (hp : ∀ now seen, p = .sweep now (some seen) → ∀ e ∈ seen, e.2.next_run_at ≤ now) : Inv (setProcess s i p) := by
  apply h.processes
  intro now seen hmem
  rcases List.mem_or_eq_of_mem_set hmem with hmem | heq
  · exact h.due now seen hmem
  · exact hp now seen heq.symm

theorem Inv.append (h : Inv s) {p : Process} (hp : ∀ now seen, p ≠ .sweep now (some seen)) :
    Inv { s with processes := s.processes ++ [p] } := by
  apply h.processes
  intro now seen hmem
  rcases List.mem_append.mp hmem with hmem | hmem
  · exact h.due now seen hmem
  · exact absurd (List.mem_singleton.mp hmem).symm (hp now seen)

theorem inv_read (h : Inv s) {i : Nat} {p p' : Process} (hread : readTable s p = some p') : Inv (setProcess s i p') := by
  apply h.setProcess
  rintro now seen rfl e he
  unfold readTable at hread
  split at hread
  · cases hread
    have hdue := (List.mem_filter.mp he).2
    simp only [Claims.due, Bool.and_eq_true, decide_eq_true_eq] at hdue
    exact hdue.2
  · obtain ⟨job, -, hp⟩ := Option.map_eq_some_iff.mp hread
    simp at hp
  · obtain ⟨job, -, hp⟩ := Option.map_eq_some_iff.mp hread
    simp at hp
  · simp at hread

/-- The row of a job after a write to one. -/
theorem get_set_cases {jobs : List (Nat × ScheduledJob)} {id j : Nat} {job job' : ScheduledJob}
    (h : Dict.get (Dict.set jobs id job) j = some job') : id = j ∧ job = job' ∨ id ≠ j ∧ Dict.get jobs j = some job' := by
  rw [Dict.get_set] at h
  split at h
  · next heq => exact Or.inl ⟨heq, Option.some.inj h⟩
  · next hne => exact Or.inr ⟨hne, h⟩

theorem inv_claim (h : Inv s) {id now : Nat} {seen stored : ScheduledJob} (hget : Dict.get s.jobs id = some stored)
    (hunmoved : unmoved stored seen = true) (hdue : seen.next_run_at ≤ now)
    (honce : stored.recurrence = .once → seen.recurrence = .once) :
    Inv { s with
      jobs := Dict.set s.jobs id (claim now seen stored)
      log := .claimed id seen.next_run_at (stored.recurrence = .once) :: s.log } := by
  simp only [unmoved, Bool.and_eq_true, decide_eq_true_eq] at hunmoved
  obtain ⟨henabled, hsame⟩ := hunmoved
  have hbefore := h.ahead id stored hget henabled
  rw [hsame] at hbefore
  have hspent : spent id s.log = false := by
    cases hs : spent id s.log with
    | false => rfl
    | true =>
      have hoff := h.disabled id stored hget hs
      simp [henabled] at hoff
  constructor
  · intro j job hj hon t ht
    rcases get_set_cases hj with ⟨rfl, rfl⟩ | ⟨hne, hj⟩
    · -- the claimed job is moved past the clock of the sweep, or disabled
      unfold claim at hon ⊢
      split at hon
      · simp at hon
      · next hrec =>
        have hafter := lt_compute_next_run_at seen.schedule now
        simp only [hrec, if_false, ScheduledJob.next]
        simp only [instants, if_true, List.mem_cons] at ht
        rcases ht with rfl | ht
        · omega
        · have := hbefore t ht
          omega
    · simp only [instants, hne, if_false] at ht
      exact h.ahead j job hj hon t ht
  · intro j job hj hs
    rcases get_set_cases hj with ⟨rfl, rfl⟩ | ⟨hne, hj⟩
    · simp only [spent, decide_true, Bool.true_and, hspent, Bool.or_false, decide_eq_true_eq] at hs
      simp [claim, honce hs]
    · simp only [spent, hne, decide_false, Bool.false_and, Bool.false_or] at hs
      exact h.disabled j job hj hs
  · exact h.due
  · intro j
    simp only [instants]
    split
    · next heq =>
      subst heq
      refine List.nodup_cons.mpr ⟨fun hmem => ?_, h.claimed id⟩
      exact absurd (hbefore _ hmem) (Nat.lt_irrefl _)
    · exact h.claimed j
  · exact ⟨hspent, h.once⟩

theorem inv_commit (h : Inv s) {id : Nat} {stored job : ScheduledJob} (hget : Dict.get s.jobs id = some stored)
    (hahead : job.enabled = true → ∀ t ∈ instants id s.log, t < job.next_run_at) :
    Inv { s with
      jobs := Dict.set s.jobs id job
      log := if !stored.enabled && job.enabled then .enabled id :: s.log else s.log } := by
  have hinstants : ∀ j, instants j (if !stored.enabled && job.enabled then .enabled id :: s.log else s.log) =
      instants j s.log := by
    intro j
    split <;> rfl
  have hspent : ∀ j, spent j (if !stored.enabled && job.enabled then .enabled id :: s.log else s.log) = true →
      spent j s.log = true := by
    intro j hs
    split at hs
    · simp only [spent, Bool.and_eq_true] at hs
      exact hs.2
    · exact hs
  constructor
  · intro j job' hj hon t ht
    rw [hinstants] at ht
    rcases get_set_cases hj with ⟨rfl, rfl⟩ | ⟨-, hj⟩
    · exact hahead hon t ht
    · exact h.ahead j job' hj hon t ht
  · intro j job' hj hs
    rcases get_set_cases hj with ⟨rfl, rfl⟩ | ⟨-, hj⟩
    · have hoff := h.disabled id stored hget (hspent id hs)
      cases hon : job.enabled with
      | false => rfl
      | true => simp [hoff, hon, spent] at hs
    · exact h.disabled j job' hj (hspent j hs)
  · exact h.due
  · intro j
    rw [hinstants]
    exact h.claimed j
  · split
    · exact h.once
    · exact h.once

theorem inv_advance (h : Inv s) {i : Nat} {p : Process} (hi : s.processes[i]? = some p)
    (hok : lawful s (.advance i) = true) (hstep : advance s i p = some s') : Inv s' := by
  have hp : p ∈ s.processes := List.mem_of_getElem? hi
  unfold advance at hstep
  split at hstep
  · next now id seen rest =>
    simp only [lawful, hi] at hok
    have hdue := h.due now _ hp
    have hrest : ∀ now' seen', Process.sweep now (some rest) = .sweep now' (some seen') →
        ∀ e ∈ seen', e.2.next_run_at ≤ now' := by
      intro now' seen' heq e he
      cases heq
      exact hdue e (List.mem_cons_of_mem _ he)
    split at hstep
    · cases hstep
      exact h.setProcess hrest
    · next stored hget =>
      split at hstep
      · next hunmoved =>
        cases hstep
        simp only [hget, Option.all_some, hunmoved, Bool.not_true, Bool.false_or, Bool.or_eq_true,
          decide_eq_true_eq] at hok
        have hclaim := inv_claim h hget hunmoved (hdue _ List.mem_cons_self) (fun hrec => hok.resolve_left (fun hne => hne hrec))
        exact hclaim.setProcess hrest
      · cases hstep
        exact h.setProcess hrest
  · cases hstep
    exact h.setProcess (by simp)
  · cases hstep
    exact h.setProcess (by simp)
  · obtain ⟨edited, -, rfl⟩ := Option.map_eq_some_iff.mp hstep
    exact h.setProcess (by simp)
  · next id loaded edited =>
    obtain ⟨stored, hget, rfl⟩ := Option.map_eq_some_iff.mp hstep
    simp only [lawful, hi, hget, Option.all_some, Bool.or_eq_true, Bool.not_eq_true', List.all_eq_true,
      decide_eq_true_eq] at hok
    have hcommit := inv_commit h hget (fun hon => hok.resolve_left (by simp [hon]))
    apply hcommit.processes
    intro now seen hmem
    exact h.due now seen (List.mem_of_mem_eraseIdx hmem)
  · simp at hstep

theorem inv_step (h : Inv s) {a : Action} (hok : lawful s a = true) (hstep : step s a = some s') : Inv s' := by
  cases a with
  | tick microseconds =>
    cases hstep
    exact ⟨h.ahead, h.disabled, h.due, h.claimed, h.once⟩
  | startSweep =>
    cases hstep
    exact h.append (by simp)
  | startRun id =>
    cases hstep
    exact h.append (by simp)
  | startUpdate id data =>
    cases hstep
    exact h.append (by simp)
  | read i =>
    obtain ⟨p, -, hp⟩ := Option.bind_eq_some_iff.mp hstep
    obtain ⟨p', hread, rfl⟩ := Option.map_eq_some_iff.mp hp
    exact inv_read h hread
  | advance i =>
    obtain ⟨p, hi, hadvance⟩ := Option.bind_eq_some_iff.mp hstep
    exact inv_advance h hi hok hadvance

/-- In lawful runs no job is claimed twice for one instant, and no one-off job twice
unless a user enabled it. -/
theorem claimed_once (clock : Nat) (jobs : List (Nat × ScheduledJob)) {s : State}
    (h : Reach step (fun s a => lawful s a = true) (begin clock jobs) s) : ClaimedOnce s ∧ SpentOnce s.log := by
  have hinv : Inv s := by
    apply h.invariant
    · constructor
      · intro id job _ _ t ht
        simp [begin, instants] at ht
      · intro id job _ hs
        simp [begin, spent] at hs
      · intro now seen hmem
        simp [begin] at hmem
      · intro id
        simp [begin, instants]
      · trivial
    · intro s a s' hs hok hstep
      exact inv_step hs hok hstep
  exact ⟨hinv.claimed, hinv.once⟩

def seconds (n : Nat) : Nat := n * 1000000

/-- A job at every full hour, next at nine. -/
def hourlyJob : ScheduledJob := ⟨.hourly, none, 0, none, true, seconds 32400, none⟩

/-- A run from half past eight that reads the clock one second before ten, while a sweep
claims the job at nine. -/
def longRun : List Action :=
  [.startRun 1, .read 0, .tick (seconds 1801), .startSweep, .read 1, .advance 1, .tick (seconds 3598), .advance 0,
   .advance 0]

/-- The run commits before ten, and the sweep after ten claims the job for ten. -/
theorem claimed_for_both_hours :
    ∃ s, Reach step (fun s a => lawful s a = true) (begin (seconds 30600) [(1, hourlyJob)]) s ∧
      instants 1 s.log = [seconds 36000, seconds 32400] ∧ ClaimedOnce s ∧ SpentOnce s.log := by
  have hrun : (run (fun s a => if lawful s a then step s a else none)
      (longRun ++ [Action.advance 0, .tick (seconds 2), .startSweep, .read 1, .advance 1])
      (begin (seconds 30600) [(1, hourlyJob)])).any
      (fun s => instants 1 s.log = [seconds 36000, seconds 32400]) = true := by with_unfolding_all decide
  obtain ⟨s, hs, hlog⟩ := (Option.any_eq_true _ _).mp hrun
  have hreach : Reach step (fun s a => lawful s a = true) (begin (seconds 30600) [(1, hourlyJob)]) s :=
    Reach.run (fun _ _ hok => hok) _ .start hs
  exact ⟨s, hreach, by simpa using hlog, claimed_once _ _ hreach⟩

/-- A sweep claims the job for ten before the run commits, which puts ten back. -/
theorem ten_claimed_twice :
    ∃ s, Reach step (fun _ _ => True) (begin (seconds 30600) [(1, hourlyJob)]) s ∧ ¬ ClaimedOnce s := by
  have hrun : (run (fun s a => if true then step s a else none)
      (longRun ++ [Action.tick (seconds 2), .startSweep, .read 2, .advance 2, .advance 0, .startSweep, .read 2, .advance 2])
      (begin (seconds 30600) [(1, hourlyJob)])).any
      (fun s => instants 1 s.log = [seconds 36000, seconds 36000, seconds 32400]) = true := by
        with_unfolding_all decide
  obtain ⟨s, hs, hlog⟩ := (Option.any_eq_true _ _).mp hrun
  refine ⟨s, Reach.run (fun _ _ _ => trivial) _ .start hs, fun honce => ?_⟩
  have hinstants : instants 1 s.log = [seconds 36000, seconds 36000, seconds 32400] := by simpa using hlog
  have hnodup := honce 1
  rw [hinstants] at hnodup
  simp at hnodup

end Claims
