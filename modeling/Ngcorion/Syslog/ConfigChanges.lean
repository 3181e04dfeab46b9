import Ngcorion.AssetGroups.GroupRuns
import Ngcorion.Text
import Mathlib.Data.List.Sort
import Mathlib.Logic.Function.Basic

/-!
# Reported configuration changes

A device reports over syslog that its configuration was changed, and one process has it backed up by a group run of
the one asset. The runs are those of the group run worker; the columns that the worker does not use stand beside
it. Times are in microseconds.
-/
namespace ConfigChanges

open Text

def second : Int := 1000000
def debounceSeconds : Int := 60 * second
def minGapSeconds : Int := 300 * second
def maxRunsPerPass : Nat := 20

def families : List Str := ["cisco", "fortinet", "linux", "apache", "mongodb"].map String.toList

/-- The statuses of `ConfigChangeEvent` -/
inductive Status where
  | pending
  | queued
  | done
  | unchanged
  | failed
  | no_schedule
  | off
  deriving DecidableEq

/-- A reported change. `moment` is not in the code: the step in which it was received. -/
structure ChangeEvent where
  id : Nat
  asset_id : Nat
  received_at : Int
  status : Status
  group_run_id : Option Nat
  backup_id : Option Nat
  moment : Nat

inductive Outcome where
  | first
  | changed
  | unchanged
  deriving DecidableEq

structure RunInfo where
  syslog : Bool
  created_at : Int
  technology : Str

structure ItemInfo where
  asset_id : Nat
  backup_id : Option Nat
  outcome : Option Outcome

structure Backup where
  id : Nat
  asset_id : Nat
  device_type : Str
  config_content : Str
  created_at : Int

/-- A configuration that the thread of an item has read from the device, and the step in which it did. -/
structure Reading where
  item : Nat
  asset_id : Nat
  text : Str
  moment : Nat

/-! ## Schedules and groups -/

structure Job where
  id : Nat
  backup : Bool
  enabled : Bool
  group_id : Option Nat
  credential_profile_id : Option Nat
  technology : Str

/-- What users set: the schedules, the members of each group, which credential profiles are of the kind ssh, and which
assets have an address. -/
structure World where
  jobs : List Job
  groups : Nat → Option (List Nat)
  profiles : Nat → Option Bool
  assets : Nat → Option Bool

/-- The group and the credential profile of a schedule that backs up a group -/
def Job.backs (job : Job) : Option (Nat × Nat) :=
  if job.backup ∧ job.enabled then job.group_id.bind fun group => job.credential_profile_id.map fun profile => (group, profile)
  else none

structure Found where
  group : Nat
  profile : Nat
  technology : Str

/-- The loop of `_backup_job_for` over the schedules, with the members that are looked up on the way -/
def jobFor (world : World) (asset_id : Nat) : List Job → List (Nat × List Nat) → Option Found × List (Nat × List Nat)
  | [], members => (none, members)
  | job :: jobs, members =>
    match job.backs with
    | none => jobFor world asset_id jobs members
    | some (group, profile) =>
      let members := if group ∈ Dict.keys members then members else Dict.set members group ((world.groups group).getD [])
      if asset_id ∈ (Dict.get members group).getD [] then (some ⟨group, profile, job.technology⟩, members)
      else jobFor world asset_id jobs members

def _backup_job_for (world : World) (asset_id : Nat) (members : List (Nat × List Nat)) : Option Found × List (Nat × List Nat) :=
  jobFor world asset_id (world.jobs.insertionSort fun a b => a.id ≤ b.id) members

/-! ## State -/

/-- Where a pass of `process` is: before `_finalize`, before it looks for assets, at the next asset, or before it starts
a run for an asset whose events it has read. -/
inductive Phase where
  | finalize
  | look
  | assets (ready : List Nat)
  | start (asset_id : Nat) (events : List Nat) (job : Found) (ready : List Nat)

structure Pass where
  now : Int
  backup_on_change : Bool
  started : Nat
  members : List (Nat × List Nat)
  phase : Phase

/-- A report in the memory of the intake -/
structure Report where
  asset_id : Nat
  received_at : Int
  moment : Nat

/-- `moment` counts the steps and `history` has the events that left `pending`, with the run they were queued in; both are
not in the code. -/
structure State where
  clock : Int
  moment : Nat
  world : World
  worker : GroupRuns.State
  runInfo : Nat → RunInfo
  itemInfo : Nat → ItemInfo
  captured : List Reading
  backups : List Backup
  reported : List Report
  events : List ChangeEvent
  pass : Option Pass
  history : List (Nat × Option Nat)

/-! ## Group runs -/

/-- `start_run` of assets that have an address or not -/
def startRun (kind : GroupRuns.Kind) (concurrency : Option Int) (assets : List (Nat × Bool)) (info : RunInfo) (s : State) : Option State :=
  (GroupRuns.start_run kind concurrency (assets.map Prod.snd) s.worker).map fun worker =>
    { s with
      worker := worker
      runInfo := Function.update s.runInfo s.worker.runs.length info
      itemInfo := fun id => match assets[id - s.worker.items.length]? with
        | some (asset_id, _) => if s.worker.items.length ≤ id then ⟨asset_id, none, none⟩ else s.itemInfo id
        | none => s.itemInfo id }

/-- The steps of the worker and its threads, except that a backup ends well -/
def workerStep (s : State) (a : GroupRuns.Action) : Option State :=
  match a with
  | .start _ _ _ | .stopRead _ | .stopCommit _ | .retryRead _ | .retryCommit _ => none
  | .finish id _ .done =>
    if s.worker.items.any fun item => item.id = id && s.worker.runs.any fun run => run.id = item.run && run.kind = .backup then none
    else (GroupRuns.step s.worker a).map fun worker => { s with worker := worker }
  | a => (GroupRuns.step s.worker a).map fun worker => { s with worker := worker }

/-- `take_backup`: the thread of an item reads the configuration. -/
def capture (id : Nat) (text : Str) (s : State) : Option State :=
  if id ∈ s.worker.threads.map Prod.fst ∧ id ∉ s.captured.map Reading.item then
    some { s with captured := s.captured ++ [⟨id, (s.itemInfo id).asset_id, text, s.moment⟩] }
  else none

/-- `latest`: the last by time and id -/
def latest (backups : List Backup) (asset_id : Nat) : Option Backup :=
  (backups.filter fun b => b.asset_id = asset_id).foldl
    (fun found b => match found with
      | some f => if f.created_at < b.created_at ∨ f.created_at = b.created_at ∧ f.id < b.id then some b else some f
      | none => some b) none

/-- The end of `_backup_item` with the configuration that the thread has read; `same` is that `compare` finds no line added
or removed. -/
def saveItem (same : Str → Str → Str → Bool) (id : Nat) (s : State) : Option State :=
  (s.captured.find? fun r => r.item = id).bind fun reading =>
    (s.worker.items.find? fun item => item.id = id).bind fun item =>
      if strip reading.text = [] then none
      else
        (GroupRuns.step s.worker (.finish id false .done)).map fun worker =>
          let s := { s with worker := worker }
          let info := s.itemInfo id
          let technology := (s.runInfo item.run).technology
          let backup : Backup := ⟨s.backups.length, info.asset_id, technology, reading.text, s.clock⟩
          match latest s.backups info.asset_id with
          | some previous =>
            if same technology previous.config_content reading.text then
              { s with itemInfo := Function.update s.itemInfo id { info with backup_id := some previous.id, outcome := some .unchanged } }
            else
              { s with
                backups := s.backups ++ [backup]
                itemInfo := Function.update s.itemInfo id { info with backup_id := some backup.id, outcome := some .changed } }
          | none =>
            { s with
              backups := s.backups ++ [backup]
              itemInfo := Function.update s.itemInfo id { info with backup_id := some backup.id, outcome := some .first } }

/-! ## The pass -/

def pendingOf (events : List ChangeEvent) (asset_id : Nat) : List ChangeEvent :=
  events.filter fun e => e.status = .pending ∧ e.asset_id = asset_id

/-- Events leave `pending`. -/
def State.leave (s : State) (ids : List Nat) (status : Status) (run : Option Nat) : State :=
  { s with
    events := s.events.map fun e => if e.id ∈ ids then { e with status := status, group_run_id := run <|> e.group_run_id } else e
    history := s.history ++ ids.map fun id => (id, run) }

/-- What `_finalize` does about an event -/
def finalize (s : State) (e : ChangeEvent) : ChangeEvent :=
  if e.status = .queued then
    match s.worker.items.find? fun item => e.group_run_id = some item.run ∧ (s.itemInfo item.id).asset_id = e.asset_id with
    | none => { e with status := .failed }
    | some item =>
      match item.status with
      | .done =>
        let info := s.itemInfo item.id
        { e with backup_id := info.backup_id, status := if info.outcome = some .unchanged then .unchanged else .done }
      | .failed | .skipped | .cancelled => { e with status := .failed }
      | .queued | .running => e
  else e

/-- The last time at which something was received that is still pending -/
def lastReceived (events : List ChangeEvent) (asset_id : Nat) : Option Int :=
  ((pendingOf events asset_id).map ChangeEvent.received_at).max?

/-- The assets whose device has been quiet long enough, the longest first -/
def ready (events : List ChangeEvent) (now : Int) : List Nat :=
  let assets := ((events.filter fun e => e.status = .pending).map ChangeEvent.asset_id).dedup
  let last := assets.filterMap fun asset_id => (lastReceived events asset_id).map fun last => (asset_id, last)
  ((last.insertionSort fun a b => a.2 ≤ b.2).filter fun e => e.2 ≤ now - debounceSeconds).map Prod.fst

/-- A run that was started for a reported change of the asset -/
def covers (s : State) (asset_id run : Nat) : Bool :=
  (s.runInfo run).syslog && s.worker.items.any fun item => item.run = run && (s.itemInfo item.id).asset_id = asset_id

/-- The last run that was started for a reported change of the asset -/
def recent (s : State) (asset_id : Nat) : Option GroupRuns.Run :=
  s.worker.runs.reverse.find? fun run => covers s asset_id run.id

/-- The run in progress, or the gap after it, is waited for. -/
def waits (s : State) (now : Int) (asset_id : Nat) : Bool :=
  (recent s asset_id).any fun run => run.status.active || now - minGapSeconds < (s.runInfo run.id).created_at

/-- One asset of the loop, up to the start of its run -/
def next (p : Pass) (asset_id : Nat) (rest : List Nat) (s : State) : State :=
  if maxRunsPerPass ≤ p.started then { s with pass := none }
  else if waits s p.now asset_id then { s with pass := some { p with phase := .assets rest } }
  else
    let events := (pendingOf s.events asset_id).map ChangeEvent.id
    let found := if s.world.assets asset_id = some true then _backup_job_for s.world asset_id p.members else (none, p.members)
    let p := { p with members := found.2 }
    match found.1 with
    | none => { s.leave events .no_schedule none with pass := some { p with phase := .assets rest } }
    | some job => { s with pass := some { p with phase := .start asset_id events job rest } }

/-- `start_run` of the one asset and the commit; where it cannot start, what is pending of the asset by then fails. -/
def begin (p : Pass) (asset_id : Nat) (events : List Nat) (job : Found) (rest : List Nat) (s : State) : Option State :=
  (s.world.groups job.group).bind fun members =>
    (s.world.profiles job.profile).bind fun ssh =>
      if job.technology ∉ families ∨ ssh = false ∨ asset_id ∉ members then
        some { s.leave ((pendingOf s.events asset_id).map ChangeEvent.id) .failed none with pass := some { p with phase := .assets rest } }
      else
        (s.world.assets asset_id).bind fun addressed =>
          if events = [] then none
          else
            (startRun .backup (some 1) [(asset_id, addressed)] ⟨true, s.clock, job.technology⟩ s).map fun s' =>
              { s'.leave events .queued (some s.worker.runs.length) with
                pass := some { p with started := p.started + 1, phase := .assets rest } }

def passStep (p : Pass) (s : State) : Option State :=
  match p.phase with
  | .finalize => some { s with events := s.events.map (finalize s), pass := some { p with phase := .look } }
  | .look =>
    if p.backup_on_change then some { s with pass := some { p with phase := .assets (ready s.events p.now) } }
    else
      let pending := (s.events.filter fun e => e.status = .pending).map ChangeEvent.id
      some { s.leave pending .off none with pass := none }
  | .assets [] => some { s with pass := none }
  | .assets (asset_id :: rest) => some (next p asset_id rest s)
  | .start asset_id events job rest => begin p asset_id events job rest s

/-! ## Steps -/

inductive Action where
  | tick (microseconds : Nat)
  | receive (asset_id : Nat)
  | record
  | change (world : World)
  | other (kind : GroupRuns.Kind) (concurrency : Option Int) (assets : List (Nat × Bool)) (technology : Str)
  | worker (a : GroupRuns.Action)
  | capture (item : Nat) (text : Str)
  | save (item : Nat)
  | backup (asset_id : Nat) (device_type text : Str)
  | process (backup_on_change : Bool)
  | pass
  | abort

/-- The events that a drain of the intake writes -/
def recorded (s : State) : List ChangeEvent := s.reported.mapIdx fun n r =>
  ⟨s.events.length + n, r.asset_id, r.received_at, .pending, none, none, r.moment⟩

def act (same : Str → Str → Str → Bool) (s : State) : Action → Option State
  | .tick microseconds => some { s with clock := s.clock + microseconds }
  | .receive asset_id => some { s with reported := s.reported ++ [⟨asset_id, s.clock, s.moment⟩] }
  | .record => some { s with reported := [], events := s.events ++ recorded s }
  | .change world => some { s with world := world }
  | .other kind concurrency assets technology => startRun kind concurrency assets ⟨false, s.clock, technology⟩ s
  | .worker a => workerStep s a
  | .capture item text => ConfigChanges.capture item text s
  | .save item => saveItem same item s
  | .backup asset_id device_type text =>
    some { s with backups := s.backups ++ [⟨s.backups.length, asset_id, device_type, text, s.clock⟩] }
  | .process backup_on_change =>
    if s.pass.isSome then none else some { s with pass := some ⟨s.clock, backup_on_change, 0, [], .finalize⟩ }
  | .pass => s.pass.bind fun p => passStep p s
  | .abort => if s.pass.isSome then some { s with pass := none } else none

def step (same : Str → Str → Str → Bool) (s : State) (a : Action) : Option State :=
  (act same s a).map fun s => { s with moment := s.moment + 1 }

def start (clock : Int) (world : World) : State where
  clock := clock
  moment := 0
  world := world
  worker := GroupRuns.start
  runInfo _ := ⟨false, clock, []⟩
  itemInfo _ := ⟨0, none, none⟩
  captured := []
  backups := []
  reported := []
  events := []
  pass := none
  history := []

end ConfigChanges
