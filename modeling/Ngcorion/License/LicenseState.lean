import Ngcorion.Text

/-!
# The license state of a process

The globals of one worker process and the functions that write and read them. Times are
microseconds since 1970; the dates in an answer are seconds.
-/
namespace LicenseState

open Text

def second : Int := 1000000

def minute : Int := 60 * second

def hour : Int := 60 * minute

def day : Int := 24 * hour

/-- `CLOCK_ROLLBACK_TOLERANCE` -/
def rollbackTolerance : Int := 5 * minute

/-- `OFFLINE_GRACE` -/
def offlineGrace : Int := 48 * hour

/-- `PILOT_FALLBACK_DAYS` -/
def pilotFallback : Int := 30 * day

/-- `PILOT_FALLBACK_ASSETS` -/
def pilotFallbackAssets : Int := 5

/-! ## Answers -/

/-- `_utc_from_epoch`: nothing where there is no number, or none of the years 1 to 9999. -/
def utc_from_epoch : Option Int → Option Int
  | none => none
  | some value => if -62135596800 ≤ value ∧ value ≤ 253402300799 then some (value * second) else none

/-- `max_assets` of the signed limits: not there, null, a number, or something else. -/
inductive Limit where
  | missing | unlimited | number (value : Int) | malformed

/-- What a verified token says. The license server signs its own clock, which is a date. -/
structure Answer where
  valid : Bool
  plan_code : Option Str
  plan_name : Option Str
  is_pilot_mode : Bool
  limit : Limit
  addon_packs : Option Int
  expires_at : Option Int
  issued_at : Int
  offline_license : Bool
  offline_until : Option Int
  isDate : utc_from_epoch (some issued_at) = some (issued_at * second)

/-- The time at which an answer was signed. -/
def Answer.issued (a : Answer) : Int := a.issued_at * second

/-- `_max_assets` -/
def max_assets : Limit → Option Int
  | .missing => some pilotFallbackAssets
  | .unlimited => none
  | .number value => some (max value 0)
  | .malformed => some pilotFallbackAssets

/-! ## The globals -/

/-- `LicenseState`, without its message. -/
structure State where
  valid : Bool
  plan_code : Option Str
  plan_name : Option Str
  is_pilot_mode : Bool
  max_assets : Option Int
  addon_packs : Int
  expires_at : Option Int
  last_validated_at : Option Int
  offline : Bool
  issued_at : Option Int
  offline_pilot : Bool
  offline_pilot_until : Option Int
  offline_license : Bool
  offline_until : Option Int
  deriving DecidableEq

/-- A process that has just started. -/
def State.initial : State :=
  ⟨false, none, none, false, none, 0, none, none, false, none, false, none, false, none⟩

/-- `_license_state`, `_signed_token` and `_max_seen`; `T` are the tokens. -/
structure Proc (T : Type) where
  state : State
  signed_token : Option T
  max_seen : Option Int
  deriving DecidableEq

/-- The cache file. -/
structure Cached (T : Type) where
  signed_token : Option T
  last_seen : Option Int

variable {T : Type}

def Proc.initial : Proc T := ⟨.initial, none, none⟩

/-- `_apply` -/
def State.apply (a : Answer) (s : State) : State :=
  { s with
    valid := a.valid
    plan_code := a.plan_code
    plan_name := a.plan_name
    is_pilot_mode := a.is_pilot_mode
    max_assets := LicenseState.max_assets a.limit
    addon_packs := a.addon_packs.getD 0
    expires_at := utc_from_epoch a.expires_at
    offline_license := a.offline_license
    offline_until := utc_from_epoch a.offline_until }

/-- `_clear_entitlement` -/
def State.clear (s : State) : State :=
  { s with
    plan_code := none
    plan_name := none
    is_pilot_mode := false
    max_assets := none
    addon_packs := 0
    expires_at := none
    offline_license := false
    offline_until := none }

/-- A later time than the latest one so far. -/
def later (seen : Option Int) (now : Int) : Option Int :=
  if seen.all (fun latest => latest < now) then some now else seen

/-- `_seen_now` -/
def seen_now (now : Int) (p : Proc T) : Proc T := { p with max_seen := later p.max_seen now }

/-! ## Writers -/

/-- `_persist_state`: the process and what it writes, if the cache is attached and enabled. -/
def persist_state (enabled : Bool) (now : Int) (p : Proc T) : Proc T × Option (Cached T) :=
  if enabled then
    (seen_now now p, some ⟨if p.state.valid then p.signed_token else none, (seen_now now p).max_seen⟩)
  else (p, none)

/-- `set_license_state` before it writes the cache. -/
def take (claims : T → Answer) (t : T) (now : Int) (p : Proc T) : Proc T :=
  { p with
    state := { p.state.apply (claims t) with
      last_validated_at := some now
      issued_at := utc_from_epoch (some (claims t).issued_at)
      offline := false }
    signed_token := some t }

def set_license_state (enabled : Bool) (claims : T → Answer) (t : T) (now seen : Int) (p : Proc T) :
    Proc T × Option (Cached T) :=
  persist_state enabled seen (take claims t now p)

def mark_license_server_offline (enabled : Bool) (seen : Int) (p : Proc T) : Proc T × Option (Cached T) :=
  persist_state enabled seen { p with state := { p.state with offline := true } }

/-- `mark_license_rejected` before it writes the cache. -/
def reject (now : Int) (p : Proc T) : Proc T :=
  { p with
    state := { ({ p.state with valid := false, offline := false } : State).clear with
      last_validated_at := some now
      issued_at := none }
    signed_token := none }

def mark_license_rejected (enabled : Bool) (now seen : Int) (p : Proc T) : Proc T × Option (Cached T) :=
  persist_state enabled seen (reject now p)

/-- `_no_license` -/
def no_license (p : Proc T) : Proc T :=
  { p with
    state := { ({ p.state with valid := false, offline := false } : State).clear with issued_at := none }
    signed_token := none }

/-- `refresh_license_state` when no license is activated. -/
def not_activated (p : Proc T) : Proc T :=
  { p with state := ({ p.state with valid := false, offline := false } : State).clear }

/-- `refresh_license_state` when the request was refused otherwise. -/
def refused (p : Proc T) : Proc T := { p with state := { p.state with valid := false, offline := false } }

/-- The time after which an answer counts as news to a process. -/
def known (s : State) : Option Int :=
  match s.last_validated_at with
  | none => s.issued_at
  | some validated =>
    if s.valid then s.issued_at
    else match s.issued_at with
      | none => some validated
      | some issued => some (max issued validated)

/-- `_adopt_cached_answer`; `verifies` tells whether the verifier accepts the token. -/
def adopt_cached_answer [DecidableEq T] (enabled : Bool) (claims : T → Answer) (verifies : Bool) (cached : Option (Cached T))
    (p : Proc T) : Proc T :=
  if enabled then
    match cached.bind Cached.signed_token with
    | none => p
    | some t =>
      if p.signed_token = some t ∨ verifies = false then p
      else match utc_from_epoch (some (claims t).issued_at) with
        | none => p
        | some issued =>
          if (known p.state).any (fun time => issued ≤ time) then p
          else
            { p with
              state := { p.state.apply (claims t) with
                last_validated_at := some issued
                issued_at := some issued
                offline := false }
              signed_token := some t }
  else p

/-- The checks of `restore_cached_state` on a token that verifies. -/
def refusesRestore (a : Answer) (issued : Int) (last_seen : Option Int) (now : Int) : Bool :=
  now < issued - rollbackTolerance || last_seen.any (fun seen => now < seen - rollbackTolerance) ||
    match (if a.offline_license then utc_from_epoch a.offline_until else none) with
    | some ends => now > ends
    | none => now - issued > offlineGrace + pilotFallback

/-- The latest time seen of the cache counts as seen. -/
def catch_up (last_seen : Option Int) (p : Proc T) : Proc T :=
  match last_seen with
  | none => p
  | some seen => { p with max_seen := later p.max_seen seen }

/-- `restore_cached_state` -/
def restore_cached_state (enabled : Bool) (claims : T → Answer) (verifies : Bool) (cached : Option (Cached T)) (now : Int)
    (p : Proc T) : Proc T :=
  if enabled then
    match cached with
    | none => p
    | some c =>
      let p := catch_up c.last_seen p
      match c.signed_token with
      | none => p
      | some t =>
        if verifies = false then p
        else match utc_from_epoch (some (claims t).issued_at) with
          | none => p
          | some issued =>
            if refusesRestore (claims t) issued c.last_seen now then p
            else
              { p with
                state := { p.state.apply (claims t) with
                  last_validated_at := some issued
                  issued_at := some issued
                  offline := true }
                signed_token := some t }
  else p

/-! ## The reader -/

def State.invalid (s : State) : State := { s with valid := false }

/-- The pilot that holds without contact. -/
def State.pilot (s : State) (ends : Int) : State :=
  { s with
    offline_pilot := true
    offline_pilot_until := some ends
    is_pilot_mode := true
    max_assets := some (match s.max_assets with
      | none => pilotFallbackAssets
      | some assets => min assets pilotFallbackAssets) }

/-- The windows of `get_license_state`. -/
def windows (current : State) (reference previous_max : Option Int) (now : Int) : State :=
  if current.valid = false then current
  else if previous_max.any (fun latest => now < latest - rollbackTolerance) then current.invalid
  else if current.issued_at.any (fun issued => now < issued - rollbackTolerance) then current.invalid
  else if current.expires_at.any (fun expires => now > expires) then current.invalid
  else if current.offline_license then
    if current.offline_until.all (fun ends => now > ends) then current.invalid else current
  else match reference with
    | none => current
    | some time =>
      if now - time ≤ offlineGrace then current
      else if now > time + offlineGrace + pilotFallback then current.invalid
      else current.pilot (time + offlineGrace + pilotFallback)

/-- `get_license_state`: what it returns and the process afterwards. -/
def get_license_state (now : Int) (p : Proc T) : State × Proc T :=
  (windows { p.state with offline_pilot := false, offline_pilot_until := none }
    (p.state.issued_at.or p.state.last_validated_at) p.max_seen now, seen_now now p)

/-! ## Refreshing -/

/-- How `client.validate` ends. -/
inductive Outcome (T : Type) where
  | answered (t : T)
  | rejected
  | unreachable
  | notActivated
  | refused

/-- `refresh_license_state` before it reads the state. -/
def refresh (enabled : Bool) (claims : T → Answer) (outcome : Outcome T) (now seen : Int) (p : Proc T) :
    Proc T × Option (Cached T) :=
  match outcome with
  | .answered t => set_license_state enabled claims t now seen p
  | .rejected => mark_license_rejected enabled now seen p
  | .unreachable => mark_license_server_offline enabled seen p
  | .notActivated => (not_activated p, none)
  | .refused => (refused p, none)

/-- Whether `refresh_license_state` returns a state, and does not raise. -/
def Outcome.returns : Outcome T → Bool
  | .answered _ => true
  | .rejected => false
  | .unreachable => true
  | .notActivated => true
  | .refused => false

end LicenseState
