import Ngcorion.Dict
import Ngcorion.Transition

/-!
# Group runs

A group run audits or backs up every asset of a group, a few at a time. One worker sweeps the runs and gives
the items it claims to threads; users stop runs and retry what failed. A transaction sees what is committed
and its own writes.
-/
namespace GroupRuns

def maxConcurrency : Int := 50
def maxAssets : Nat := 5000

inductive Kind where
  | audit
  | backup
  deriving DecidableEq

inductive RunStatus where
  | queued
  | running
  | stopping
  | stopped
  | done
  deriving DecidableEq

inductive ItemStatus where
  | queued
  | running
  | done
  | failed
  | skipped
  | cancelled
  deriving DecidableEq

/-- The statuses in `ACTIVE` -/
def RunStatus.active : RunStatus → Bool
  | .queued | .running | .stopping => true
  | .stopped | .done => false

def ItemStatus.ended : ItemStatus → Bool
  | .queued | .running => false
  | .done | .failed | .skipped | .cancelled => true

structure Run where
  id : Nat
  kind : Kind
  concurrency : Nat
  status : RunStatus

structure Item where
  id : Nat
  run : Nat
  status : ItemStatus

/-- A sweep: the runs it has still to deal with, as it read them (`none` after a commit in between, when a row is
read again), what it counted of the first (running and queued), and what it has written and not committed.
`pruning` is when a backup run has ended and the old backups are removed, which commits. -/
structure Sweep where
  todo : List (Nat × Option Run)
  counted : Option (Nat × Nat)
  claims : List Item
  cancels : List Item
  rows : List (Nat × RunStatus)
  pruning : Bool

/-- What happened: a stop has committed, a retry has queued items again, a commit has claimed an item, a thread
has begun with an item. -/
inductive Event where
  | stopping (run : Nat)
  | reopened (run : Nat)
  | claimed (run item : Nat)
  | executed (item : Nat)
  deriving DecidableEq

/-- The tables, the requests that have read their run, and the worker: `held` are the claims of the sweep in progress
that are committed, `waiting` the claims of earlier ones, `threads` the items in a thread with whether it has read
that the run is stopping. `history` is not in the code. -/
structure State where
  runs : List Run
  items : List Item
  stops : List Nat
  retries : List Nat
  sweep : Option Sweep
  held : List Nat
  waiting : List Nat
  threads : List (Nat × Bool)
  history : List Event

/-! ## Runs -/

/-- `max(1, min(int(concurrency or 10), MAX_CONCURRENCY))` -/
def bounded (concurrency : Option Int) : Nat :=
  let wanted := match concurrency with
    | none | some 0 => 10
    | some n => n
  (max 1 (min wanted maxConcurrency)).toNat

/-- `start_run` of assets that have an address or not -/
def start_run (kind : Kind) (concurrency : Option Int) (addresses : List Bool) (s : State) : Option State :=
  if addresses = [] ∨ maxAssets < addresses.length then none
  else
    some { s with
      runs := s.runs ++ [⟨s.runs.length, kind, bounded concurrency, .queued⟩]
      items := s.items ++ addresses.mapIdx fun n addressed =>
        ⟨s.items.length + n, s.runs.length, if addressed then .queued else .skipped⟩ }

def State.status (s : State) (run : Nat) : Option RunStatus := (s.runs.find? fun r => r.id = run).map Run.status

def setStatus (run : Nat) (status : RunStatus) (runs : List Run) : List Run :=
  runs.map fun r => if r.id = run then { r with status := status } else r

def count (items : List Item) (run : Nat) (status : ItemStatus) : Nat :=
  items.countP fun item => item.run = run ∧ item.status = status

def select (items : List Item) (run : Nat) (status : ItemStatus) : List Item :=
  items.filter fun item => item.run = run ∧ item.status = status

/-- The commit of `stop` -/
def stop (run : Nat) (s : State) : State :=
  { s with
    stops := s.stops.erase run
    runs := setStatus run .stopping s.runs
    history := s.history ++ [.stopping run] }

def requeue (run : Nat) (item : Item) : Item :=
  if item.run = run ∧ item.status = .failed then { item with status := .queued } else item

/-- The update and the commit of `retry_failed` -/
def retry_failed (run : Nat) (s : State) : State :=
  let s := { s with retries := s.retries.erase run }
  if count s.items run .failed = 0 then s
  else
    { s with
      items := s.items.map (requeue run)
      runs := setStatus run .running s.runs
      history := s.history ++ [.reopened run] }

/-- The update of `_finish` -/
def finish (id : Nat) (status : ItemStatus) (item : Item) : Item := if item.id = id then { item with status := status } else item

/-! ## The sweep -/

def Sweep.write (w : Sweep) (item : Item) : Item :=
  if item.id ∈ w.claims.map Item.id then { item with status := .running }
  else if item.id ∈ w.cancels.map Item.id then { item with status := .cancelled }
  else item

def Sweep.writeRow (w : Sweep) (run : Run) : Run :=
  match Dict.get w.rows run.id with
  | some status => { run with status := status }
  | none => run

/-- The read of the active runs -/
def begin (runs : List Run) : Sweep :=
  ⟨(runs.filter fun run => run.status.active).map fun run => (run.id, some run), none, [], [], [], false⟩

/-- A run ends, and `_finished` is called. -/
def Sweep.finished (w : Sweep) (run : Run) (status : RunStatus) : Sweep :=
  { w with rows := w.rows ++ [(run.id, status)], pruning := run.kind = .backup }

/-- What is done about a run, with its counts and the items as the sweep sees them -/
def Sweep.act (w : Sweep) (run : Run) (running queued : Nat) (items : List Item) : Sweep :=
  if run.status = .stopping then
    let w := { w with cancels := w.cancels ++ select items run.id .queued }
    if running = 0 then w.finished run .stopped else w
  else if queued = 0 ∧ running = 0 then w.finished run .done
  else
    let w := if run.status = .queued then { w with rows := w.rows ++ [(run.id, .running)] } else w
    let free := run.concurrency - running
    if free = 0 ∨ queued = 0 then w
    else { w with claims := w.claims ++ (select items run.id .queued).take free }

/-- What a sweep has written is committed. -/
def save (w : Sweep) (s : State) : State :=
  { s with
    items := s.items.map w.write
    runs := s.runs.map w.writeRow
    held := s.held ++ w.claims.map Item.id
    history := s.history ++ w.claims.map fun item => .claimed item.run item.id }

/-- A commit: of the removal of old backups, after which the rows are read again, or the last of the sweep. -/
def commit (w : Sweep) (s : State) : Option State :=
  let s := save w s
  if w.pruning then some { s with sweep := some ⟨w.todo.map fun e => (e.1, none), none, [], [], [], false⟩ }
  else if w.todo = [] then some { s with sweep := none, held := [], waiting := s.waiting ++ s.held }
  else none

/-! ## Steps -/

inductive Action where
  | start (kind : Kind) (concurrency : Option Int) (addresses : List Bool)
  | stopRead (run : Nat)
  | stopCommit (run : Nat)
  | retryRead (run : Nat)
  | retryCommit (run : Nat)
  | read
  | reread
  | count
  | act
  | commit
  | execute (item : Nat)
  | finish (item : Nat) (cancel : Bool) (status : ItemStatus)

/-- The steps of the sweep between its read and its commit -/
def sweepStep (s : State) (w : Sweep) : Action → Option Sweep
  | .reread => match w.todo with
    | (run, none) :: todo => (s.runs.find? fun r => r.id = run).map fun row => { w with todo := (run, some row) :: todo }
    | _ => none
  | .count => match w.todo, w.counted with
    | (_, some row) :: _, none =>
      let items := s.items.map w.write
      some { w with counted := some (GroupRuns.count items row.id .running, GroupRuns.count items row.id .queued) }
    | _, _ => none
  | .act => match w.todo, w.counted with
    | (_, some row) :: todo, some (running, queued) =>
      some ({ w with todo := todo, counted := none }.act row running queued (s.items.map w.write))
    | _, _ => none
  | _ => none

/-- A thread ends with the item cancelled when it has read that the run is stopping, else with any other outcome. -/
def outcome (cancel : Bool) (status : ItemStatus) : Bool :=
  if cancel then status = .cancelled else status = .done || status = .failed || status = .skipped

def step (s : State) : Action → Option State
  | .start kind concurrency addresses => start_run kind concurrency addresses s
  | .stopRead run =>
    if s.status run = some .queued ∨ s.status run = some .running then some { s with stops := run :: s.stops } else none
  | .stopCommit run => if run ∈ s.stops then some (stop run s) else none
  | .retryRead run =>
    if (s.status run).any fun status => !status.active then some { s with retries := run :: s.retries } else none
  | .retryCommit run => if run ∈ s.retries then some (retry_failed run s) else none
  | .read => if s.sweep.isSome then none else some { s with sweep := some (begin s.runs) }
  | .commit => s.sweep.bind fun w => GroupRuns.commit w s
  | .execute item =>
    if item ∈ s.waiting then
      (s.items.find? fun i => i.id = item).map fun i => { s with
        waiting := s.waiting.erase item
        threads := s.threads ++ [(item, decide (s.status i.run = some .stopping))]
        history := s.history ++ [.executed item] }
    else none
  | .finish item cancel status =>
    if (item, cancel) ∈ s.threads ∧ outcome cancel status then
      some { s with
        threads := s.threads.erase (item, cancel)
        items := s.items.map (finish item status) }
    else none
  | action => s.sweep.bind fun w => if w.pruning then none else
    (sweepStep s w action).map fun w => { s with sweep := some w }

def start : State := ⟨[], [], [], [], none, [], [], [], []⟩

end GroupRuns
