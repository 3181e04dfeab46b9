import Ngcorion.Program
import Ngcorion.Text

/-!
# The restore job

`run_restore` connects to the device, checks that nothing changed since the
review, saves the running configuration, applies the difference, reconnects,
compares, and only then lets the device keep the change. The device and the
network are an environment that may answer every call in any way, or raise;
the database takes every flush and commit. The calls the job makes are recorded
in order, with their answers.
-/
namespace RestoreJob

open Text Program

inductive Status where
  | queued | connecting | backing_up | applying | verifying | saving | reverting
  | succeeded | reverted | failed
  deriving DecidableEq

/-- `RESTORE_FINAL_STATUSES` -/
def Status.final : Status → Bool
  | .succeeded => true
  | .reverted => true
  | .failed => true
  | _ => false

def Status.name : Status → Str
  | .queued => lit "queued"
  | .connecting => lit "connecting"
  | .backing_up => lit "backing_up"
  | .applying => lit "applying"
  | .verifying => lit "verifying"
  | .saving => lit "saving"
  | .reverting => lit "reverting"
  | .succeeded => lit "succeeded"
  | .reverted => lit "reverted"
  | .failed => lit "failed"

/-- An exception: a rejected change, or any other with its type and message. -/
inductive Error where
  | apply (message : Str)
  | other (type message : Str)

/-- `f"{type(exc).__name__}: {exc}"` -/
def Error.text : Error → Str
  | .apply message => lit "RestoreApplyError: " ++ message
  | .other type message => type ++ lit ": " ++ message

structure Risk where
  severity : Str
  message : Str
  deriving DecidableEq

structure Plan where
  is_empty : Bool
  added : Nat
  removed : Nat
  sections : Nat
  risks : List Risk
  deriving DecidableEq

def Plan.lockouts (plan : Plan) : List Risk := plan.risks.filter (fun r => r.severity = lit "lockout")

/-- A call with its answer; none when it raised. -/
inductive Call where
  | make_driver (ok : Bool)
  | open_ (ok : Bool)
  | close (ok : Bool)
  | read_live (live : Option Str)
  | fingerprint (live : Str) (print : Option Str)
  | plan (plan : Option Plan)
  | auto_revert_available (available : Option Bool)
  | snapshot (text : Option Str)
  | commit_backup (text : Str)
  | apply (ok : Bool)
  | revert_now (ok : Bool)
  | configs_match (text live : Str) (ok : Option Bool)
  | confirm (ok : Bool)
  deriving DecidableEq

/-- The device, the network and the clock. Sleeping takes at least the time asked for. -/
structure Environment (σ : Type) where
  make_driver : σ → Except Error Unit × σ
  open_ : σ → Except Error Unit × σ
  close : σ → Except Error Unit × σ
  read_live : σ → Except Error Str × σ
  fingerprint : Str → σ → Except Error Str × σ
  plan : Str → Str → σ → Except Error Plan × σ
  auto_revert_available : σ → Except Error (Bool × Str) × σ
  snapshot : σ → Except Error Str × σ
  apply : Plan → Option Nat → σ → Except Error Unit × σ
  revert_now : σ → Except Error Unit × σ
  configs_match : Str → Str → σ → Except Error (Bool × Nat) × σ
  confirm : σ → Except Error Unit × σ
  monotonic : σ → Nat
  sleep : Nat → σ → σ
  sleep_le : ∀ seconds s, monotonic s + seconds ≤ monotonic (sleep seconds s)

inductive EventStatus where
  | done | info | failed

structure Event where
  step : Str
  status : EventStatus
  message : Str

structure Summary where
  added : Nat
  removed : Nat
  sections : Nat
  risks : List Risk

/-- The row of the job, with the text of the backup it restores. -/
structure Job where
  id : Nat
  backup_id : Nat
  backup : Option Str
  asset_name : Str
  device_ip : Str
  reason : Str
  status : Status
  revert_minutes : Nat
  auto_revert_armed : Bool
  pre_restore_backup_id : Option Nat
  diff_summary : Option Summary
  events : List Event
  error : Option Str

structure AuditEntry where
  success : Bool
  detail : Str

/-- The environment, the committed rows, and the calls made so far. -/
structure World (σ : Type) where
  env : σ
  job : Job
  backups : List Str
  calls : List Call
  audit : List AuditEntry

/-- What the operator sent with the job, where the driver connects to, and how
secrets are taken out of messages. -/
structure Request where
  host : Str
  port : Nat
  expected_fingerprint : Str
  acknowledged_lockout : Bool
  allow_without_auto_revert : Bool
  redact_text : Str → Str

def RECONNECT_ATTEMPTS : Nat := 6
def RECONNECT_DELAY_SECONDS : Nat := 10
def REVERT_GRACE_SECONDS : Nat := 120
def REVERT_POLL_SECONDS : Nat := 30

def num (n : Nat) : Str := (Nat.repr n).toList

section
variable {σ : Type} (env : Environment σ) (req : Request)

abbrev Step (σ α : Type) := Prog Error (World σ) α

/-- Make a call of the environment and record it. -/
def call {α : Type} (f : σ → Except Error α × σ) (note : Option α → Call) : Step σ α := fun w =>
  match f w.env with
  | (.ok a, env') => (.ok a, { w with env := env', calls := w.calls ++ [note (some a)] })
  | (.error e, env') => (.error e, { w with env := env', calls := w.calls ++ [note none] })

def setJob (f : Job → Job) : Step σ Unit := update (fun w => { w with job := f w.job })

def status (s : Status) : Step σ Unit := setJob (fun j => { j with status := s })

/-- `_clean`: every message is redacted before it is stored. -/
def clean (text : Str) : Str := if text = [] then text else req.redact_text text

def event (step : Str) (s : EventStatus) (message : Str) : Step σ Unit :=
  setJob (fun j => { j with events := j.events ++ [⟨step, s, clean req message⟩] })

def finish (s : Status) (error : Option Str) : Step σ Unit :=
  setJob (fun j => { j with status := s, error := error.map (clean req) })

def sleep (seconds : Nat) : Step σ Unit := update (fun w => { w with env := env.sleep seconds w.env })

def openDriver : Step σ Unit := call env.open_ (fun r => .open_ r.isSome)

def closeDriver : Step σ Unit := call env.close (fun r => .close r.isSome)

def readLive : Step σ Str := call env.read_live .read_live

def configsMatch (text live : Str) : Step σ (Bool × Nat) :=
  call (env.configs_match text live) (fun r => .configs_match text live (r.map Prod.fst))

def revertNow : Step σ Unit := call env.revert_now (fun r => .revert_now r.isSome)

/-- The attempts of `_reconnect` that are left. -/
def _reconnect : Nat → Step σ Bool
  | 0 => pure false
  | attempts + 1 => do
    match ← attempt (openDriver env) with
    | .ok () => pure true
    | .error _ =>
      if 0 < attempts then sleep env RECONNECT_DELAY_SECONDS
      _reconnect attempts

/-- `while time.monotonic() - applied_at < deadline: sleep(...)` -/
def waitUntil (applied_at deadline : Nat) (s : σ) : σ :=
  if env.monotonic s - applied_at < deadline then waitUntil applied_at deadline (env.sleep REVERT_POLL_SECONDS s)
  else s
termination_by applied_at + deadline - env.monotonic s
decreasing_by
  have hs := env.sleep_le REVERT_POLL_SECONDS s
  simp only [REVERT_POLL_SECONDS] at hs ⊢
  omega

/-- The loop that polls the device after its auto-revert window. -/
def pollOpen : Nat → Step σ Bool
  | 0 => pure false
  | attempts + 1 => do
    match ← attempt (openDriver env) with
    | .ok () => pure true
    | .error _ =>
      sleep env REVERT_POLL_SECONDS
      pollOpen attempts

def _await_self_revert (pre_text : Str) (armed : Bool) (minutes : Nat) (applied_at : Nat) : Step σ Unit := do
  if armed = false then
    event req (lit "verify") .failed (lit "NGCorion could not reconnect after applying the changes.")
    finish req .failed (some (lit "Access was lost after the restore and no auto-revert was available. " ++
      lit "Restore the 'before restore' backup from the device console."))
  else
    status .reverting
    event req (lit "verify") .failed (lit "Could not reconnect - waiting for the device to revert on its own (" ++
      num minutes ++ lit " min timer)")
    update (fun w => { w with env := waitUntil env applied_at (minutes * 60 + REVERT_GRACE_SECONDS) w.env })
    if ← pollOpen env (RECONNECT_ATTEMPTS * 2) then
      let live ← readLive env
      let (ok, _) ← configsMatch env pre_text live
      if ok then
        event req (lit "revert") .done (lit "Access confirmed again - the device reverted to its previous configuration")
        finish req .reverted (some (lit "Access was lost after applying; the device reverted automatically."))
      else
        finish req .failed (some (lit "The device is reachable again but matches neither the backup nor its previous configuration."))
    else
      finish req .failed (some (lit "The device is still unreachable after its auto-revert window. Check it from the console."))

/-- Step 5: let the device keep the change. -/
def keep (armed : Bool) : Step σ Unit := do
  status .saving
  call env.confirm (fun r => .confirm r.isSome)
  event req (lit "save") .done (lit "Saved on the device" ++ if armed then lit " - auto-revert cancelled" else [])
  finish req .succeeded none

def differing (remaining : Nat) : Str := num remaining ++ lit " differing line(s)"

/-- Step 4: reconnect and compare. -/
def verify (backup_text pre_text : Str) (pre_id : Nat) (armed : Bool) (minutes applied_at : Nat) : Step σ Unit := do
  status .verifying
  closeDriver env
  if ← _reconnect env RECONNECT_ATTEMPTS then
    event req (lit "verify") .done (lit "Reconnected over SSH - access survived the restore")
    let live_after ← readLive env
    let (ok, remaining) ← configsMatch env backup_text live_after
    if ok then
      event req (lit "verify") .done (lit "Live configuration matches the backup (0 differences)")
      keep env req armed
    else
      event req (lit "verify") .failed (num remaining ++ lit " line(s) still differ from the backup")
      if armed then
        status .reverting
        revertNow env
        event req (lit "revert") .done (lit "Changes reverted - the device is back on its previous configuration.")
        finish req .reverted (some (lit "Verification found " ++ differing remaining ++ lit "; the restore was reverted."))
      else
        finish req .failed (some (lit "Verification found " ++ differing remaining ++ lit ". Backup #" ++ num pre_id ++
          lit " holds the previous configuration."))
  else
    _await_self_revert env req pre_text armed minutes applied_at

/-- What follows a rejected change. -/
def rejected (message : Str) (pre_id : Nat) (armed : Bool) (minutes : Nat) : Step σ Unit := do
  event req (lit "apply") .failed message
  if armed then
    status .reverting
    match ← attempt (do revertNow env; event req (lit "revert") .done (lit "Unsaved changes reverted immediately.")) with
    | .ok () => pure ()
    | .error _ => event req (lit "revert") .info (lit "Immediate revert failed; the device reverts on its own within " ++
        num minutes ++ lit " minutes.")
    finish req .reverted (some message)
  else
    finish req .failed (some (message ++ lit " Earlier changes in this run may be applied; backup #" ++ num pre_id ++
      lit " holds the previous configuration."))

/-- Step 3: apply the plan, with the device's timer where it is armed. -/
def applyPlan (plan : Plan) (backup_text pre_text : Str) (pre_id : Nat) (armed : Bool) (minutes : Nat) : Step σ Unit := do
  status .applying
  match ← attempt (call (env.apply plan (if armed then some minutes else none)) (fun r => .apply r.isSome)) with
  | .error (.apply message) => rejected env req message pre_id armed minutes
  | .error e => raise e
  | .ok () =>
    event req (lit "apply") .done (num (plan.added + plan.removed) ++ lit " changed line(s) applied" ++
      if armed then lit " in revert mode - not saved yet" else [])
    let applied_at ← read (fun w => env.monotonic w.env)
    verify env req backup_text pre_text pre_id armed minutes applied_at

/-- Step 2: save the running configuration as a backup of its own. -/
def backUp (plan : Plan) (backup_text : Str) (armed : Bool) (minutes : Nat) : Step σ Unit := do
  status .backing_up
  let pre_text ← call env.snapshot .snapshot
  let pre_id ← read (fun w => w.backups.length)
  update (fun w => { w with
    backups := w.backups ++ [pre_text]
    job := { w.job with pre_restore_backup_id := some pre_id }
    calls := w.calls ++ [.commit_backup pre_text] })
  event req (lit "backup") .done (lit "Current configuration saved as backup #" ++ num pre_id ++ lit " (before restore)")
  applyPlan env req plan backup_text pre_text pre_id armed minutes

/-- The checks that decide whether the run may start. -/
def gate (plan : Plan) (backup_text : Str) : Step σ Unit := do
  setJob (fun j => { j with diff_summary := some ⟨plan.added, plan.removed, plan.sections, plan.risks⟩ })
  if plan.lockouts ≠ [] ∧ req.acknowledged_lockout = false then
    event req (lit "connect") .failed ((plan.lockouts.head?.map Risk.message).getD [])
    finish req .failed (some (lit "This restore may lock NGCorion out and that was not acknowledged. Nothing was changed."))
  else
    let (available, reason) ← call env.auto_revert_available (fun r => .auto_revert_available (r.map Prod.fst))
    setJob (fun j => { j with auto_revert_armed := available })
    if available = false ∧ req.allow_without_auto_revert = false then
      event req (lit "connect") .failed reason
      finish req .failed (some (lit "Auto-revert is not available on this device and running without it was not confirmed. Nothing was changed."))
    else
      let minutes ← read (fun w => w.job.revert_minutes)
      backUp env req plan backup_text available minutes

/-- Step 1: connect, read the device again and compare with what was reviewed. -/
def connect (backup_text : Str) : Step σ Unit := do
  status .connecting
  call env.make_driver (fun r => .make_driver r.isSome)
  openDriver env
  event req (lit "connect") .done (lit "Connected over SSH to " ++ req.host ++ lit ":" ++ num req.port)
  let live ← readLive env
  let print ← call (env.fingerprint live) (.fingerprint live)
  if print ≠ req.expected_fingerprint then
    event req (lit "connect") .failed (lit "The device's configuration changed after the changes were reviewed.")
    finish req .failed (some (lit "The device's configuration changed after you reviewed it. Nothing was changed - review the changes again."))
  else
    let plan ← call (env.plan backup_text live) .plan
    if plan.is_empty then
      event req (lit "verify") .done (lit "The device already matches the backup; nothing to change.")
      finish req .succeeded none
    else
      gate env req plan backup_text

/-- The body of the `try`; a job whose backup is gone has no text to restore. -/
def body : Step σ Unit := do
  match ← read (fun w => w.job.backup) with
  | none => raise (.other (lit "AttributeError") (lit "'NoneType' object has no attribute 'config_content'"))
  | some backup_text => connect env req backup_text

def auditDetail (j : Job) : Str :=
  lit "Restore #" ++ num j.id ++ lit " of backup #" ++ num j.backup_id ++ lit " on " ++ j.asset_name ++ lit " (" ++
    j.device_ip ++ lit "): " ++ j.status.name ++ lit ". Reason: " ++ j.reason

/-- The `finally` block: close the driver if there is one, and write the audit entry. -/
def finallyClose : Step σ Unit := do
  let made ← read (fun w => w.calls.any (fun c => c = .make_driver true))
  if made then
    match ← attempt (closeDriver env) with
    | _ => pure ()
  update (fun w => { w with audit := w.audit ++ [⟨w.job.status = .succeeded, auditDetail w.job⟩] })

/-- Run a restore job end to end. -/
def run_restore : Step σ Unit := do
  match ← attempt (body env req) with
  | .ok () => pure ()
  | .error e =>
    event req (lit "error") .failed e.text
    finish req .failed (some e.text)
  finallyClose env

end

end RestoreJob
