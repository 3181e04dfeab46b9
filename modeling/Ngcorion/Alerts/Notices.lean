import Ngcorion.Dict
import Ngcorion.Grouping
import Ngcorion.Serial
import Ngcorion.Text
import Ngcorion.Transition
import Mathlib.Data.List.Basic
import Mathlib.Data.List.Nodup
import Mathlib.Data.List.Sort

/-!
# Alerts and the notices about them

What the alert engine does in its cycles, and what users do in between. The texts of the messages
and what the delivery policy holds back are left out: a row that is skipped is a row.
-/
namespace AlertNotices

open Text Serial Transition

/-! ## Tables -/

inductive Severity where
  | critical | warning | info
  deriving DecidableEq

/-- `SEVERITY_RANK` -/
def Severity.rank : Severity → Nat
  | .critical => 0
  | .warning => 1
  | .info => 2

/-- `ALERT_ACTIVE`, `ALERT_ACKNOWLEDGED` and `ALERT_RESOLVED` -/
inductive Status where
  | active | acknowledged | resolved
  deriving DecidableEq

/-- A channel of a rule; that of a webhook has a text after `webhook:`. -/
inductive Channel where
  | email | sms | syslog
  | webhook (id : Str)
  deriving DecidableEq

structure Recipients where
  roles : List Str
  user_ids : List Nat
  emails : List Str
  phones : List Str
  owner : Bool

/-- The kind of an event type. -/
inductive EventKind where
  | state | event
  deriving DecidableEq

/-- The columns of a rule that the body of a request sets. `hold` is the parameter of `HOLD_PARAM`, for the event
type that has one. -/
structure RuleIn where
  enabled : Bool
  severity : Severity
  hold : Option Nat
  recipients : Recipients
  channels : List Channel
  repeat_minutes : Nat
  notify_resolved : Bool
  group_minutes : Nat

structure NotificationRule extends RuleIn where
  kind : EventKind
  builtin : Bool
  last_sent_at : Option Nat

structure Alert where
  rule_id : Option Nat
  severity : Severity
  fingerprint : Str
  owner_user_id : Option Nat
  status : Status
  notified_at : Option Nat
  last_notified_at : Option Nat
  reminders_sent : Nat
  resolved_notice_pending : Bool
  deriving DecidableEq

inductive MessageKind where
  | raised | reminder | resolved
  deriving DecidableEq

/-- Where a row goes: the column `channel`, and the webhook or the recipient. -/
inductive Place where
  | email (recipient : Str)
  | sms (recipient : Str)
  | syslog
  | webhook (id : Nat)
  deriving DecidableEq

/-- A row: the alerts it lists, and those its payload tells about, for the channels that send the payload. -/
structure NotificationDelivery where
  alert_ids : List Nat
  place : Place
  kind : MessageKind
  payload : List Nat
  deriving DecidableEq

structure User where
  id : Nat
  role : Str
  is_active : Bool
  /-- `auth_source` is `apikey` -/
  apikey : Bool
  email : Str
  phone : Str

structure Problem where
  key : Str
  owner_user_id : Option Nat

/-- `held_since` is of the worker that runs the engine. -/
structure State where
  rules : Table NotificationRule
  alerts : Table Alert
  deliveries : List NotificationDelivery
  held_since : List (Str × Nat)

/-- What depends on the tables of Unicode: `lower`, and the number of a text of digits. -/
structure Texts where
  lower : Str → Str
  number : Str → Option Nat

def minute : Nat := 60 * 1000000

/-- `ALERT_OPEN_STATUSES` -/
def Alert.isOpen (a : Alert) : Bool := a.status ≠ .resolved

def State.rule (s : State) (id : Option Nat) : Option NotificationRule :=
  id.bind fun id => (s.rules.rows.find? fun r => r.1 = id).map Prod.snd

/-! ## Evaluation -/

/-- The text of a rule's number. -/
def numeral (n : Nat) : Str := Nat.toDigits 10 n

/-- The problems by their fingerprints. -/
def seen (id : Nat) (problems : List Problem) : List (Str × Problem) :=
  problems.foldl (fun d p => Dict.set d (numeral id ++ ':' :: p.key) p) []

/-- A problem that is not held back raises an alert, unless the unique index has an open one. -/
def raise (id : Nat) (rule : NotificationRule) (fp : Str) (p : Problem) (s : State) : State :=
  if s.alerts.rows.any (fun a => a.2.isOpen && a.2.fingerprint = fp) then s
  else
    { s with
      alerts := s.alerts.insert ⟨some id, rule.severity, fp, p.owner_user_id, .active, none, none, 0, false⟩ }

/-- One problem in the loop of `_apply`. The alerts that the loop raised before have other fingerprints. -/
def meet (now id : Nat) (rule : NotificationRule) (s : State) (e : Str × Problem) : State :=
  if s.alerts.rows.any (fun a => a.2.rule_id = some id && a.2.isOpen && a.2.fingerprint = e.1) then
    { s with
      alerts := s.alerts.modify fun _ a =>
        if a.rule_id = some id ∧ a.isOpen ∧ a.fingerprint = e.1 then { a with severity := rule.severity } else a }
  else if rule.kind = .event ∧ s.alerts.rows.any (fun a => a.2.fingerprint = e.1) then s
  else
    match rule.hold with
    | none => raise id rule e.1 e.2 s
    | some minutes =>
      match Dict.get s.held_since e.1 with
      | none =>
        let s := { s with held_since := Dict.set s.held_since e.1 now }
        if 0 < minutes then s else raise id rule e.1 e.2 s
      | some first => if now < first + minutes * minute then s else raise id rule e.1 e.2 s

/-- An alert whose problem is gone -/
def recover (rule : NotificationRule) (a : Alert) : Alert :=
  { a with
    status := .resolved
    resolved_notice_pending :=
      a.resolved_notice_pending || rule.notify_resolved && a.notified_at.isSome && rule.channels ≠ [] }

/-- `_apply`, for a rule that is enabled -/
def apply (now id : Nat) (rule : NotificationRule) (problems : List Problem) (s : State) : State :=
  let seen := seen id problems
  let s := seen.foldl (meet now id rule) s
  let held := s.held_since.filter fun e => !(startsWith (numeral id ++ [':']) e.1 && e.1 ∉ Dict.keys seen)
  let s := { s with held_since := held }
  match rule.kind with
  | .event => s
  | .state =>
    { s with
      alerts := s.alerts.modify fun _ a =>
        if a.rule_id = some id ∧ a.isOpen ∧ a.fingerprint ∉ Dict.keys seen then recover rule a else a }

/-! ## Dispatch -/

section Dispatch

variable (texts : Texts) (users : List User)

/-- `_recipients`, as two sets -/
def recipients (r : Recipients) (alerts : List (Nat × Alert)) : List Str × List Str :=
  let ids := r.user_ids ++ if r.owner then alerts.filterMap (fun a => a.2.owner_user_id) else []
  let users := users.filter fun u => u.is_active && !u.apikey && (u.role ∈ r.roles || u.id ∈ ids)
  let emails := (users.map User.email).filter (· ≠ []) ++ r.emails.filter fun e => strip e ≠ []
  let phones := (users.map User.phone).filter (· ≠ []) ++ (r.phones.map strip).filter (· ≠ [])
  ((emails.map fun e => texts.lower (strip e)).dedup, phones.dedup)

/-- The webhook of a channel -/
def hook : Channel → Option Nat
  | .webhook id => texts.number id
  | _ => none

/-- The rows of one channel -/
def rowsOf (kind : MessageKind) (emails phones : List Str) (alerts : List (Nat × Alert)) :
    Channel → List NotificationDelivery
  | .email => emails.map fun email => ⟨alerts.map Prod.fst, .email email, kind, []⟩
  | .sms => phones.map fun phone => ⟨alerts.map Prod.fst, .sms phone, kind, []⟩
  -- one event for each alert
  | .syslog => alerts.map fun a => ⟨alerts.map Prod.fst, .syslog, kind, [a.1]⟩
  | .webhook id =>
    (texts.number id).toList.map fun id => ⟨alerts.map Prod.fst, .webhook id, kind, alerts.map Prod.fst⟩

def queue_message (rule : NotificationRule) (kind : MessageKind) (alerts : List (Nat × Alert)) :
    List NotificationDelivery :=
  if alerts = [] then []
  else
    let people := recipients texts users rule.recipients alerts
    rule.channels.flatMap (rowsOf texts kind people.1 people.2 alerts)

/-- The filter of the query for new alerts -/
def waiting (a : Alert) : Bool := a.notified_at.isNone && a.isOpen

def State.waiting (s : State) (id : Option Nat) : List (Nat × Alert) :=
  s.alerts.rows.filter fun a => AlertNotices.waiting a.2 && a.2.rule_id = id

/-- The key by which the alerts of a message are sorted -/
def before (a b : Nat × Alert) : Bool :=
  a.2.severity.rank < b.2.severity.rank || a.2.severity.rank = b.2.severity.rank && a.1 ≤ b.1

/-- The alerts that a message about new ones lists. -/
def State.active (s : State) (id : Option Nat) : List (Nat × Alert) :=
  ((s.waiting id).filter fun a => a.2.status = .active).insertionSort fun a b => before a b = true

/-- A rule that sends messages, and not only shows its alerts. -/
def NotificationRule.sends (rule : NotificationRule) : Bool := rule.enabled && rule.channels ≠ []

/-- A burst is collected into one message. -/
def NotificationRule.collects (now : Nat) (rule : NotificationRule) : Bool :=
  rule.group_minutes ≠ 0 && rule.last_sent_at.any fun sent => now < sent + rule.group_minutes * minute

/-- The new alerts of a rule are not handled yet. -/
def State.defers (s : State) (now : Nat) (id : Option Nat) : Bool :=
  (s.rule id).any fun rule => rule.sends && rule.collects now

def State.announce (s : State) (now : Nat) (id : Option Nat) : List NotificationDelivery :=
  match s.rule id with
  | some rule =>
    if rule.sends && !rule.collects now then queue_message texts users rule .raised (s.active id) else []
  | none => []

/-- The first loop of `dispatch`. What it does with the alerts of one rule depends on nothing that it did with
those of another. -/
def announceNew (now : Nat) (s : State) : State where
  rules := s.rules.modify fun id rule =>
    if rule.sends ∧ !rule.collects now ∧ s.active (some id) ≠ [] then { rule with last_sent_at := some now } else rule
  alerts := s.alerts.modify fun _ a =>
    if waiting a && !s.defers now a.rule_id then { a with notified_at := some now, last_notified_at := some now } else a
  deliveries := s.deliveries ++
    (((s.alerts.rows.filter fun a => waiting a.2).map fun a => a.2.rule_id).dedup.flatMap
      (s.announce texts users now))
  held_since := s.held_since

/-- The alerts of a rule that are due for a reminder -/
def State.due (s : State) (now id : Nat) (rule : NotificationRule) : List (Nat × Alert) :=
  if rule.sends && rule.repeat_minutes ≠ 0 then
    s.alerts.rows.filter fun a => a.2.rule_id = some id && a.2.status = .active && a.2.notified_at.isSome &&
      a.2.last_notified_at.any fun last => last + rule.repeat_minutes * minute ≤ now
  else []

/-- The loop of the reminders -/
def remind (now : Nat) (s : State) : State :=
  { s with
    alerts := s.alerts.modify fun i a =>
      if s.rules.rows.any (fun r => (i, a) ∈ s.due now r.1 r.2) then
        { a with last_notified_at := some now, reminders_sent := a.reminders_sent + 1 }
      else a
    deliveries := s.deliveries ++ s.rules.rows.flatMap fun r => queue_message texts users r.2 .reminder (s.due now r.1 r.2) }

/-- The notices about alerts that recovered -/
def announceResolved (s : State) : State :=
  { s with
    alerts := s.alerts.modify fun _ a => { a with resolved_notice_pending := false }
    deliveries := s.deliveries ++
      (Grouping.groupBy (fun a => a.2.rule_id)
        (fun id alerts => (s.rule id).elim [] fun rule => queue_message texts users rule .resolved alerts)
        (s.alerts.rows.filter fun a => a.2.resolved_notice_pending)).flatten }

def dispatch (now : Nat) (s : State) : State :=
  announceResolved texts users (remind texts users now (announceNew texts users now s))

end Dispatch

/-! ## Actions of users -/

def acknowledge (a : Alert) : Alert := if a.status = .active then { a with status := .acknowledged } else a

/-- `resolve` -/
def close (a : Alert) : Alert :=
  if a.status = .resolved then a else { a with status := .resolved, resolved_notice_pending := false }

/-- `_close_rule_alerts` -/
def closeRule (id : Nat) (s : State) : State :=
  { s with alerts := s.alerts.modify fun _ a => if a.rule_id = some id ∧ a.isOpen then close a else a }

/-- The channels that `_validate_rule` accepts, each once; `hooks` are the webhooks. -/
def validChannels (texts : Texts) (hooks : List Nat) (channels : List Channel) : Option (List Channel) :=
  if channels.all fun c => match c with
    | .webhook id => (texts.number id).any (· ∈ hooks)
    | _ => true
  then some channels.dedup else none

def validate (texts : Texts) (hooks : List Nat) (data : RuleIn) : Option RuleIn :=
  (validChannels texts hooks data.channels).map fun channels => { data with channels := channels }

inductive Action where
  | apply (rule : Nat) (problems : List Problem) (now : Nat)
  | dispatch (users : List User) (now : Nat)
  | acknowledge (alert : Nat)
  | resolve (alert : Nat)
  | create (kind : EventKind) (builtin : Bool) (data : RuleIn) (hooks : List Nat)
  | update (rule : Nat) (data : RuleIn) (hooks : List Nat)
  | enable (rule : Nat) (enabled : Bool)
  | delete (rule : Nat)

/-- A change of a rule; to turn it off closes its alerts. -/
def edit (id : Nat) (f : NotificationRule → NotificationRule) (s : State) : Option State :=
  (s.rule (some id)).map fun rule =>
    let s := if rule.enabled ∧ (f rule).enabled = false then closeRule id s else s
    { s with rules := s.rules.modify fun i r => if i = id then f r else r }

def step (texts : Texts) (s : State) : Action → Option State
  | .apply id problems now =>
    (s.rule (some id)).bind fun rule => if rule.enabled then some (apply now id rule problems s) else none
  | .dispatch users now => some (dispatch texts users now s)
  | .acknowledge alert => some { s with alerts := s.alerts.modify fun i a => if i = alert then acknowledge a else a }
  | .resolve alert => some { s with alerts := s.alerts.modify fun i a => if i = alert then close a else a }
  | .create kind builtin data hooks =>
    (validate texts hooks data).map fun data => { s with rules := s.rules.insert ⟨data, kind, builtin, none⟩ }
  | .update id data hooks =>
    (validate texts hooks data).bind fun data => edit id (fun rule => { rule with toRuleIn := data }) s
  | .enable id enabled => edit id (fun rule => { rule with enabled := enabled }) s
  | .delete id =>
    (s.rule (some id)).bind fun rule =>
      if rule.builtin then none
      else
        let s := closeRule id s
        some { s with
          rules := s.rules.keep fun i _ => i ≠ id
          alerts := s.alerts.modify fun _ a => if a.rule_id = some id then { a with rule_id := none } else a }

end AlertNotices
