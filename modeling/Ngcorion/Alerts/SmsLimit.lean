import Ngcorion.Alerts.Notices
import Ngcorion.ZoneInfo

/-!
# The daily limit of messages by SMS

What a message writes to the delivery log under the delivery policy, and how many messages by SMS a day of the server has.
-/
namespace SmsLimit

open Text LocalTime AlertNotices

/-! ## The policy -/

/-- `SEVERITY_ORDER` -/
def order : Severity → Nat
  | .info => 0
  | .warning => 1
  | .critical => 2

structure EmailPolicy where
  enabled : Bool
  min_severity : Severity

structure SmsPolicy where
  enabled : Bool
  min_severity : Severity
  quiet_start : Option Str
  quiet_end : Option Str
  critical_in_quiet_hours : Bool
  daily_limit : Nat

structure DeliveryPolicy where
  email : EmailPolicy
  sms : SmsPolicy

/-- Why the policy holds a message back -/
inductive Reason where
  | off (name : Str)
  | below (name : Str) (least : Severity)
  | quiet (start stop : Str)
  | limit (n : Nat)

/-- `least.capitalize()` -/
def capitalized : Severity → Str
  | .critical => lit "Critical"
  | .warning => lit "Warning"
  | .info => lit "Info"

def Reason.text : Reason → Str
  | .off name => name ++ lit " is turned off in the delivery policy"
  | .below name least => name ++ lit " is for " ++ capitalized least ++ lit " and above in the delivery policy"
  | .quiet start stop => lit "Quiet hours " ++ start ++ '-' :: stop
  | .limit n => lit "Daily SMS limit reached (" ++ numeral n ++ lit ")"

def channel_block (name : Str) (enabled : Bool) (min_severity severity : Severity) : Option Reason :=
  if !enabled then some (.off name)
  else if order severity < order min_severity then some (.below name min_severity)
  else none

def given (hours : Option Str) : Bool := hours.any (· ≠ [])

/-- The quiet hours of a rule, else those of the policy -/
def quiet_hours (pol : DeliveryPolicy) (rule_start rule_end : Option Str) : Option Str × Option Str :=
  if given rule_start && given rule_end then (rule_start, rule_end) else (pol.sms.quiet_start, pol.sms.quiet_end)

/-! ## The clock of the server -/

def local_time (tz : Option ZoneInfo.Zone) (u : Int) : Int := tz.elim u (·.read u)

/-- The local day of a moment -/
def localDay (tz : Option ZoneInfo.Zone) (u : Int) : Int := dateOf (local_time tz u)

def twoDigits (n : Nat) : Str := Nat.toDigits 10 (n / 10) ++ Nat.toDigits 10 (n % 10)

/-- `local.strftime("%H:%M")` -/
def hhmm (t : Int) : Str := twoDigits (t % day / hour).toNat ++ ':' :: twoDigits (t % hour / LocalTime.minute).toNat

def in_window (start stop : Option Str) (now : Int) (tz : Option ZoneInfo.Zone) : Bool :=
  if !given start || !given stop then false
  else
    let start := start.getD []
    let stop := stop.getD []
    let hm := hhmm (local_time tz now)
    if start ≤ stop then decide (start ≤ hm) && decide (hm < stop) else decide (start ≤ hm) || decide (hm < stop)

def day_start_utc (now : Int) (tz : Option ZoneInfo.Zone) : Int :=
  match tz with
  | none => atTime now 0
  | some z => z.toutc (atTime (z.read now) 0) (z.fold now)

/-! ## The delivery log -/

inductive Kind where
  | raised | reminder | resolved | test
  deriving DecidableEq

inductive DeliveryStatus where
  | pending | skipped
  deriving DecidableEq

structure Delivery where
  alert_ids : List Nat
  place : Place
  kind : Kind
  severity : Severity
  status : DeliveryStatus
  error : Option Reason
  created_at : Int

def Place.isSms : Place → Bool
  | .sms _ => true
  | _ => false

/-- A message by SMS that is neither held back nor a test -/
def Delivery.counts (d : Delivery) : Bool := Place.isSms d.place && d.status ≠ .skipped && d.kind ≠ .test

/-- The log, and the rows that the session has not sent to the database yet; it does not flush by itself. -/
structure Session where
  stored : List Delivery
  added : List Delivery

def Session.rows (s : Session) : List Delivery := s.stored ++ s.added

def Session.flush (s : Session) : Session := ⟨s.rows, []⟩

def Session.add (s : Session) (d : Delivery) : Session := ⟨s.stored, s.added ++ [d]⟩

/-- The query counts what the database has. -/
def sms_sent_today (s : Session) (now : Int) (tz : Option ZoneInfo.Zone) : Session × Nat :=
  let s := s.flush
  (s, s.stored.countP fun d => d.counts && day_start_utc now tz ≤ d.created_at)

/-! ## Messages -/

/-- `rule`, with the columns that the messages of a rule need -/
structure Rule where
  recipients : Recipients
  channels : List Channel
  quiet_start : Option Str
  quiet_end : Option Str

/-- The worst severity of some alerts, by `SEVERITY_RANK` -/
def worst (alerts : List (Nat × Alert)) : Severity :=
  alerts.foldl (fun s a => if a.2.severity.rank < s.rank then a.2.severity else s) .info

section

variable (texts : Texts) (users : List User) (pol : DeliveryPolicy) (tz : Option ZoneInfo.Zone)

/-- A row that is held back or not -/
def row (kind : Kind) (alerts : List (Nat × Alert)) (now : Int) (place : Place) (held : Option Reason) : Delivery :=
  ⟨alerts.map Prod.fst, place, kind, worst alerts, if held.isSome then .skipped else .pending, held, now⟩

/-- The loop over the phones, with the messages of the day so far -/
def add_phones (kind : Kind) (alerts : List (Nat × Alert)) (now : Int) (held : Option Reason) :
    Nat → List Str → Session → Session
  | _, [], s => s
  | sent_today, phone :: phones, s =>
    if held.isNone ∧ pol.sms.daily_limit ≠ 0 ∧ kind ≠ .test then
      if pol.sms.daily_limit ≤ sent_today then
        add_phones kind alerts now held sent_today phones
          (s.add (row kind alerts now (.sms phone) (some (.limit pol.sms.daily_limit))))
      else add_phones kind alerts now held (sent_today + 1) phones (s.add (row kind alerts now (.sms phone) none))
    else add_phones kind alerts now held sent_today phones (s.add (row kind alerts now (.sms phone) held))

/-- Why all messages by SMS of a rule are held back -/
def sms_held (rule : Rule) (kind : Kind) (severity : Severity) (now : Int) : Option Reason :=
  let held := if kind = .test then none else channel_block (lit "SMS") pol.sms.enabled pol.sms.min_severity severity
  let (start, stop) := quiet_hours pol rule.quiet_start rule.quiet_end
  let through := severity = .critical && pol.sms.critical_in_quiet_hours
  if held.isNone && kind ≠ .test && !through && in_window start stop now tz then
    some (.quiet (start.getD []) (stop.getD []))
  else held

def add_channel (rule : Rule) (kind : Kind) (alerts : List (Nat × Alert)) (now : Int) (emails phones : List Str)
    (s : Session) (channel : Channel) : Session :=
  match channel with
  | .email =>
    let held :=
      if kind = .test then none else channel_block (lit "Email") pol.email.enabled pol.email.min_severity (worst alerts)
    emails.foldl (fun s email => s.add (row kind alerts now (.email email) held)) s
  | .sms =>
    let held := sms_held pol tz rule kind (worst alerts) now
    let (s, sent_today) :=
      if pol.sms.daily_limit ≠ 0 ∧ held.isNone ∧ kind ≠ .test then sms_sent_today s now tz else (s, 0)
    add_phones pol kind alerts now held sent_today phones s
  | .syslog => alerts.foldl (fun s _ => s.add (row kind alerts now .syslog none)) s
  | .webhook id =>
    match texts.number id with
    | some hook => s.add (row kind alerts now (.webhook hook) none)
    | none => s

def queue_message (rule : Rule) (kind : Kind) (alerts : List (Nat × Alert)) (now : Int) (channels : Option (List Channel))
    (s : Session) : Session :=
  let channels := channels.getD rule.channels
  if channels = [] ∨ alerts = [] then s
  else
    let people := recipients texts users rule.recipients alerts
    channels.foldl
      (add_channel texts pol tz rule kind alerts now (people.1.insertionSort (· ≤ ·)) (people.2.insertionSort (· ≤ ·))) s

/-- The messages of a cycle, as `AlertNotices.dispatch` finds them: about new alerts, reminders, and about alerts that recovered.
`quiet` are the quiet hours of the rules. -/
def messages (quiet : Option Nat → Option Str × Option Str) (now : Nat) (s : AlertNotices.State) :
    List (Rule × Kind × List (Nat × Alert)) :=
  let ruleOf (id : Option Nat) (r : NotificationRule) : Rule := ⟨r.recipients, r.channels, (quiet id).1, (quiet id).2⟩
  let reminded := announceNew texts users now s
  let recovered := remind texts users now reminded
  (((s.alerts.rows.filter fun a => waiting a.2).map fun a => a.2.rule_id).dedup.filterMap fun id =>
    (s.rule id).bind fun r => if r.sends && !r.collects now then some (ruleOf id r, Kind.raised, s.active id) else none) ++
  (reminded.rules.rows.map fun r => (ruleOf (some r.1) r.2, Kind.reminder, reminded.due now r.1 r.2)) ++
  (Grouping.groupBy (fun a => a.2.rule_id) (fun id alerts => (recovered.rule id).map fun r => (ruleOf id r, Kind.resolved, alerts))
    (recovered.alerts.rows.filter fun a => a.2.resolved_notice_pending)).reduceOption

/-- What a cycle of the engine writes to the log, up to the commit -/
def dispatch (quiet : Option Nat → Option Str × Option Str) (now : Nat) (alerts : AlertNotices.State) (s : Session) :
    Session :=
  ((messages texts users quiet now alerts).foldl
    (fun s m => queue_message texts users pol tz m.1 m.2.1 m.2.2 now none s) s).flush

end

/-! ## Runs -/

/-- What one process does to the log; the alerts, the rules and the users of each step are those of its time. -/
inductive Step where
  | queue_message (users : List User) (rule : Rule) (kind : Kind) (alerts : List (Nat × Alert)) (now : Nat)
      (channels : Option (List Channel))
  | dispatch (users : List User) (quiet : Option Nat → Option Str × Option Str) (alerts : AlertNotices.State) (now : Nat)
  | flush

def Step.now : Step → Option Nat
  | .queue_message _ _ _ _ now _ => some now
  | .dispatch _ _ _ now => some now
  | .flush => none

section

variable (texts : Texts) (pol : DeliveryPolicy) (tz : Option ZoneInfo.Zone)

def exec (s : Session) : Step → Session
  | .queue_message users rule kind alerts now channels =>
    SmsLimit.queue_message texts users pol tz rule kind alerts now channels s
  | .dispatch users quiet alerts now => SmsLimit.dispatch texts users pol tz quiet now alerts s
  | .flush => s.flush

def run (s : Session) (steps : List Step) : Session := steps.foldl (exec texts pol tz) s

end

/-! ## The count of a day -/

section

variable (tz : Option ZoneInfo.Zone) (n : Int)

/-- The messages by SMS of a day that count -/
def sentOn (rows : List Delivery) : Nat := rows.countP fun d => d.counts && localDay tz d.created_at = n

/-- A row of the day is held back by the limit only where it comes after so many. -/
def OnlyAtLimit (limit : Nat) (rows : List Delivery) : Prop :=
  ∀ (before : List Delivery) (d : Delivery) (after : List Delivery), rows = before ++ d :: after →
    localDay tz d.created_at = n → ∀ l, d.error = some (.limit l) → limit ≤ sentOn tz n before

end

/-- The midnight with which the day of a moment begins passes once: the clock is not set back over it, the day begins at the
midnight or with a jump from it, and if the clock reads the midnight twice the moment is not in a second pass of the clock. -/
def Begins (tz : Option ZoneInfo.Zone) (now : Int) : Prop :=
  ∀ z ∈ tz, ∃ start, z.Starts (dateOf (z.read now)) start ∧
    (z.read start = midnight (dateOf (z.read now)) ∧
        (z.fold now = false ∨ ∀ v, z.read v = midnight (dateOf (z.read now)) → v = start) ∨
      (∀ v, z.read v ≠ midnight (dateOf (z.read now))) ∧
        start + z.utcoffset (start - 1) = midnight (dateOf (z.read now)) ∧ z.fold now = false)

theorem day_start_le {tz : Option ZoneInfo.Zone} {now : Int} (h : Begins tz now) (u : Int) :
    day_start_utc now tz ≤ u ↔ localDay tz now ≤ localDay tz u := by
  cases tz with
  | none =>
    unfold day_start_utc localDay local_time atTime
    simp only [Option.elim_none]
    rw [dateOf_le_iff]
    unfold midnight dateOf
    rw [Int.add_sub_cancel]
    omega
  | some z =>
    obtain ⟨start, hstarts, hbegin⟩ := h z rfl
    have hmidnight : atTime (z.read now) 0 = midnight (dateOf (z.read now)) := by
      unfold atTime midnight dateOf
      rw [Int.add_sub_cancel, Int.add_zero]
    have hstart : day_start_utc now (some z) = start := by
      rw [day_start_utc, hmidnight]
      rcases hbegin with ⟨hread, hfold | honce⟩ | ⟨hnever, hjump, hfold⟩
      · rw [hfold]
        exact ZoneInfo.toutc_first hstarts hread
      · exact ZoneInfo.toutc_once hread honce _
      · rw [hfold]
        exact ZoneInfo.toutc_skipped hstarts hnever hjump
    rw [hstart]
    exact hstarts u

/-! ## One row -/

@[simp] theorem rows_flush (s : Session) : s.flush.rows = s.rows := by simp [Session.flush, Session.rows]

@[simp] theorem rows_add (s : Session) (d : Delivery) : (s.add d).rows = s.rows ++ [d] := by
  simp [Session.add, Session.rows]

section

variable (tz : Option ZoneInfo.Zone) (n : Int) (limit : Nat)

theorem sentOn_add (s : Session) (d : Delivery) :
    sentOn tz n (s.add d).rows = sentOn tz n s.rows + if d.counts ∧ localDay tz d.created_at = n then 1 else 0 := by
  rw [rows_add, sentOn, List.countP_append, List.countP_singleton, sentOn]
  simp

structure Inv (s : Session) : Prop where
  past : ∀ d ∈ s.rows, localDay tz d.created_at ≤ n
  kept : sentOn tz n s.rows ≤ limit
  only : OnlyAtLimit tz n limit s.rows

variable {tz n limit}

theorem Inv.flush {s : Session} (h : Inv tz n limit s) : Inv tz n limit s.flush := by
  obtain ⟨hpast, hkept, honly⟩ := h
  exact ⟨by rwa [rows_flush], by rwa [rows_flush], by rwa [rows_flush]⟩

theorem Inv.add {s : Session} (h : Inv tz n limit s) {d : Delivery} (hday : localDay tz d.created_at = n)
    (hcounts : d.counts = true → sentOn tz n s.rows < limit)
    (hlimit : ∀ l, d.error = some (.limit l) → limit ≤ sentOn tz n s.rows) : Inv tz n limit (s.add d) := by
  refine ⟨?_, ?_, ?_⟩
  · intro e he
    rw [rows_add, List.mem_append, List.mem_singleton] at he
    rcases he with he | rfl
    · exact h.past e he
    · exact Int.le_of_eq hday
  · have hkept := h.kept
    rw [sentOn_add]
    split
    · rename_i hd
      have := hcounts hd.1
      omega
    · omega
  · intro before e after hrows he l hl
    rw [rows_add] at hrows
    rcases List.eq_nil_or_concat after with rfl | ⟨init, last, rfl⟩
    · obtain ⟨rfl, hlast⟩ := List.append_inj' hrows rfl
      cases hlast
      exact hlimit l hl
    · rw [List.concat_eq_append, ← List.cons_append, ← List.append_assoc] at hrows
      obtain ⟨hinit, _⟩ := List.append_inj' hrows rfl
      exact h.only before e init hinit he l hl

/-- A row that does not count and that the limit does not hold back -/
theorem Inv.add_other {s : Session} (h : Inv tz n limit s) {d : Delivery} (hday : localDay tz d.created_at = n)
    (hcounts : d.counts = false) (hlimit : ∀ l, d.error ≠ some (.limit l)) : Inv tz n limit (s.add d) :=
  h.add hday (fun hc => by rw [hcounts] at hc; cases hc) (fun l hl => absurd hl (hlimit l))

/-- What the query counts are the messages of the day. -/
theorem sms_sent_today_eq {s : Session} (h : Inv tz n limit s) {now : Int} (hnow : localDay tz now = n) (hbegins : Begins tz now) :
    (sms_sent_today s now tz).2 = sentOn tz n s.rows := by
  rw [sms_sent_today, sentOn]
  apply List.countP_congr
  intro d hd
  have hpast := h.past d hd
  have hstart := day_start_le hbegins d.created_at
  rw [hnow] at hstart
  simp only [Bool.and_eq_true, decide_eq_true_eq, hstart]
  constructor
  · rintro ⟨hc, hle⟩
    exact ⟨hc, by omega⟩
  · rintro ⟨hc, he⟩
    exact ⟨hc, by omega⟩

end

/-! ## Messages keep the limit -/

theorem channel_block_no_limit (name : Str) (enabled : Bool) (min_severity severity : Severity) (l : Nat) :
    channel_block name enabled min_severity severity ≠ some (.limit l) := by
  unfold channel_block
  split_ifs <;> simp

section

variable (texts : Texts) (users : List User) (pol : DeliveryPolicy) (tz : Option ZoneInfo.Zone)

theorem sms_held_no_limit (rule : Rule) (kind : Kind) (severity : Severity) (now : Int) (l : Nat) :
    sms_held pol tz rule kind severity now ≠ some (.limit l) := by
  unfold sms_held
  dsimp only
  split_ifs
  · simp
  · simp
  · simp
  · exact channel_block_no_limit _ _ _ _ l

theorem sms_held_test (rule : Rule) (severity : Severity) (now : Int) : sms_held pol tz rule .test severity now = none := by
  simp [sms_held]

variable {pol tz} {n : Int} {kind : Kind} {alerts : List (Nat × Alert)} {now : Int}

theorem row_counts (place : Place) (held : Option Reason) :
    (row kind alerts now place held).counts = (Place.isSms place && held.isNone && decide (kind ≠ .test)) := by
  cases held <;> simp [Delivery.counts, row]

/-- The loop over the phones knows how many messages the day has. -/
theorem add_phones_inv (hlimit : pol.sms.daily_limit ≠ 0) (hnow : localDay tz now = n) {held : Option Reason}
    (hheld : ∀ l, held ≠ some (.limit l)) {sent_today : Nat} {phones : List Str} {s : Session}
    (hsent : held = none → kind ≠ .test → sent_today = sentOn tz n s.rows) (h : Inv tz n pol.sms.daily_limit s) :
    Inv tz n pol.sms.daily_limit (add_phones pol kind alerts now held sent_today phones s) := by
  induction phones generalizing sent_today s with
  | nil => exact h
  | cons phone phones ih =>
    unfold add_phones
    split
    · rename_i hcase
      have hknown := hsent (by simpa using hcase.1) hcase.2.2
      split
      · rename_i hfull
        have hskipped : (row kind alerts now (.sms phone) (some (.limit pol.sms.daily_limit))).counts = false := by
          simp [row_counts]
        refine ih ?_ (h.add hnow (fun hc => by rw [hskipped] at hc; cases hc) fun l _ => by omega)
        intro _ _
        rw [sentOn_add, hskipped, hknown]
        simp
      · rename_i hroom
        have hcounted : (row kind alerts now (.sms phone) none).counts = true := by
          simp [row_counts, Place.isSms, hcase.2.2]
        refine ih ?_ (h.add hnow (fun _ => by omega) fun l hl => by cases hl)
        intro _ _
        rw [sentOn_add, hcounted, hknown, if_pos ⟨rfl, hnow⟩]
    · rename_i hcase
      have hother : (row kind alerts now (.sms phone) held).counts = false := by
        rw [row_counts]
        by_cases hnone : held = none
        · have : kind = .test := by
            by_contra hkind
            exact hcase ⟨by simp [hnone], hlimit, hkind⟩
          simp [this]
        · cases held <;> simp_all
      refine ih ?_ (h.add_other hnow hother hheld)
      intro hnone hkind
      rw [sentOn_add, hother, hsent hnone hkind]
      simp

theorem foldl_add_inv {α : Type} {f : α → Delivery} (hday : ∀ a, localDay tz (f a).created_at = n)
    (hcounts : ∀ a, (f a).counts = false) (hlimit : ∀ a l, (f a).error ≠ some (.limit l)) {as : List α} {s : Session}
    (h : Inv tz n pol.sms.daily_limit s) : Inv tz n pol.sms.daily_limit (as.foldl (fun s a => s.add (f a)) s) := by
  induction as generalizing s with
  | nil => exact h
  | cons a as ih => exact ih (h.add_other (hday a) (hcounts a) (hlimit a))

theorem add_channel_inv (hlimit : pol.sms.daily_limit ≠ 0) (hnow : localDay tz now = n) (hbegins : Begins tz now) (rule : Rule)
    (emails phones : List Str) (channel : Channel) {s : Session} (h : Inv tz n pol.sms.daily_limit s) :
    Inv tz n pol.sms.daily_limit (add_channel texts pol tz rule kind alerts now emails phones s channel) := by
  cases channel with
  | email =>
    refine foldl_add_inv (fun _ => hnow) (fun _ => by simp [row_counts, Place.isSms]) (fun _ l => ?_) h
    unfold row
    dsimp only
    split_ifs
    · simp
    · exact channel_block_no_limit _ _ _ _ l
  | sms =>
    have hheld := sms_held_no_limit pol tz rule kind (worst alerts) now
    unfold add_channel
    dsimp only
    split
    · refine add_phones_inv hlimit hnow hheld (fun _ _ => ?_) h.flush
      rw [sms_sent_today_eq h hnow hbegins]
      exact (congrArg (sentOn tz n) (rows_flush s)).symm
    · rename_i hcase
      refine add_phones_inv hlimit hnow hheld (fun hnone hkind => ?_) h
      exact absurd ⟨hlimit, by simp [hnone], hkind⟩ hcase
  | syslog => exact foldl_add_inv (fun _ => hnow) (fun _ => by simp [row_counts, Place.isSms]) (fun _ l => by simp [row]) h
  | webhook id =>
    unfold add_channel
    dsimp only
    split
    · exact h.add_other hnow (by simp [row_counts, Place.isSms]) (fun l => by simp [row])
    · exact h

theorem queue_message_inv (hlimit : pol.sms.daily_limit ≠ 0) (hnow : localDay tz now = n) (hbegins : Begins tz now) (rule : Rule)
    (kind : Kind) (alerts : List (Nat × Alert)) (channels : Option (List Channel)) {s : Session}
    (h : Inv tz n pol.sms.daily_limit s) :
    Inv tz n pol.sms.daily_limit (queue_message texts users pol tz rule kind alerts now channels s) := by
  unfold queue_message
  dsimp only
  split
  · exact h
  · generalize channels.getD rule.channels = channels
    induction channels generalizing s with
    | nil => exact h
    | cons channel channels ih => exact ih (add_channel_inv texts hlimit hnow hbegins rule _ _ channel h)

theorem dispatch_inv (hlimit : pol.sms.daily_limit ≠ 0) {now : Nat} (hnow : localDay tz now = n) (hbegins : Begins tz now)
    (quiet : Option Nat → Option Str × Option Str) (alerts : AlertNotices.State) {s : Session}
    (h : Inv tz n pol.sms.daily_limit s) :
    Inv tz n pol.sms.daily_limit (dispatch texts users pol tz quiet now alerts s) := by
  unfold dispatch
  apply Inv.flush
  generalize messages texts users quiet now alerts = sent
  induction sent generalizing s with
  | nil => exact h
  | cons m sent ih => exact ih (queue_message_inv texts users hlimit hnow hbegins m.1 m.2.1 m.2.2 none h)

theorem inv_start {s : Session} (h : ∀ d ∈ s.rows, localDay tz d.created_at < n) : Inv tz n pol.sms.daily_limit s := by
  refine ⟨fun d hd => Int.le_of_lt (h d hd), ?_, ?_⟩
  · have hnone : sentOn tz n s.rows = 0 := by
      rw [sentOn, List.countP_eq_zero]
      intro d hd
      have := h d hd
      simp only [Bool.and_eq_true, decide_eq_true_eq, not_and]
      intro _
      omega
    omega
  · intro before d after hrows hday
    have := h d (by simp [hrows])
    omega

theorem exec_inv (hlimit : pol.sms.daily_limit ≠ 0) {step : Step}
    (hstep : ∀ now ∈ step.now, localDay tz now = n ∧ Begins tz now) {s : Session} (h : Inv tz n pol.sms.daily_limit s) :
    Inv tz n pol.sms.daily_limit (exec texts pol tz s step) := by
  cases step with
  | queue_message users rule kind alerts now channels =>
    obtain ⟨hday, hbegins⟩ := hstep now rfl
    exact queue_message_inv texts users hlimit hday hbegins rule kind alerts channels h
  | dispatch users quiet alerts now =>
    obtain ⟨hday, hbegins⟩ := hstep now rfl
    exact dispatch_inv texts users hlimit hday hbegins quiet alerts h
  | flush => exact h.flush

variable (pol tz)

/-- In a run whose calls are all of one local day that begins once, the messages by SMS of that day stay within the limit, and
the limit holds back a message only once they have reached it. -/
theorem limit_kept (n : Int) (hlimit : 0 < pol.sms.daily_limit) {s : Session}
    (hstart : ∀ d ∈ s.rows, localDay tz d.created_at < n) {steps : List Step}
    (hsteps : ∀ step ∈ steps, ∀ now ∈ step.now, localDay tz now = n ∧ Begins tz now) :
    sentOn tz n (run texts pol tz s steps).rows ≤ pol.sms.daily_limit ∧
      OnlyAtLimit tz n pol.sms.daily_limit (run texts pol tz s steps).rows := by
  have hrun : ∀ s, Inv tz n pol.sms.daily_limit s → Inv tz n pol.sms.daily_limit (run texts pol tz s steps) := by
    induction steps with
    | nil => exact fun s h => h
    | cons step steps ih =>
      intro s h
      have hfirst := exec_inv texts (by omega) (hsteps step List.mem_cons_self) h
      exact ih (fun step' h' => hsteps step' (List.mem_cons_of_mem _ h')) _ hfirst
  exact ⟨(hrun s (inv_start hstart)).kept, (hrun s (inv_start hstart)).only⟩

end

/-- A zone with one offset begins its days once. -/
theorem begins_fixed (offset now : Int) : Begins (some ⟨offset, []⟩) now := by
  rintro z ⟨⟩
  have hread : ∀ u, ZoneInfo.Zone.read ⟨offset, []⟩ u = u + offset := fun u => rfl
  refine ⟨midnight (dateOf (ZoneInfo.Zone.read ⟨offset, []⟩ now)) - offset, ?_, .inl ⟨?_, .inr ?_⟩⟩
  · intro u
    rw [dateOf_le_iff, hread u]
    omega
  · rw [hread]
    omega
  · intro v hv
    rw [hread v] at hv
    omega

section

/-- A rule that sends SMS to one phone -/
def oneRule : Rule := ⟨⟨[], [], [], [lit "+989120000001"], false⟩, [.sms], none, none⟩

def oneAlert : List (Nat × Alert) := [(1, ⟨some 1, .critical, lit "1:fw", none, .active, none, none, 0, false⟩)]

def plainTexts : Texts := ⟨id, fun _ => none⟩

/-- One SMS a day -/
def onePolicy : DeliveryPolicy := ⟨⟨true, .info⟩, ⟨true, .info, none, none, true, 1⟩⟩

/-- A message about the alert, so many minutes after the first midnight of a day -/
def queueAt (n minutes : Nat) : Step :=
  .queue_message [] oneRule .raised oneAlert ((n - 1) * 86400000000 + minutes * 60000000) none

/-- Two messages in a day of Tehran, of which the limit holds back the second -/
theorem limit_kept_tehran :
    sentOn (some ⟨210 * LocalTime.minute, []⟩) 739557
      (run plainTexts onePolicy (some ⟨210 * LocalTime.minute, []⟩) ⟨[], []⟩ [queueAt 739557 270, queueAt 739557 330]).rows ≤ 1 ∧
    OnlyAtLimit (some ⟨210 * LocalTime.minute, []⟩) 739557 1
      (run plainTexts onePolicy (some ⟨210 * LocalTime.minute, []⟩) ⟨[], []⟩ [queueAt 739557 270, queueAt 739557 330]).rows := by
  refine limit_kept plainTexts onePolicy _ 739557 (by decide) (fun d hd => by cases hd) ?_
  intro step hstep now hnow
  refine ⟨?_, begins_fixed _ _⟩
  rcases List.mem_cons.mp hstep with rfl | hstep
  · cases hnow
    decide
  · rcases List.mem_cons.mp hstep with rfl | hstep
    · cases hnow
      decide
    · cases hstep

/-- Havana in November 2025, where the clock is set back from 01:00 to 00:00 at 05:00 UTC on the second -/
def havana : ZoneInfo.Zone where
  first := -4 * hour
  transitions := [(739556 * day + 5 * hour, -5 * hour)]

/-- In the second hour after midnight the messages of the first are not counted. -/
theorem midnight_twice :
    localDay (some havana) (739556 * day + 270 * LocalTime.minute) = 739557 ∧
    localDay (some havana) (739556 * day + 330 * LocalTime.minute) = 739557 ∧
      sentOn (some havana) 739557
        (run plainTexts onePolicy (some havana) ⟨[], []⟩ [queueAt 739557 270, queueAt 739557 330]).rows = 2 := by
  refine ⟨by decide, by decide, by with_unfolding_all decide⟩

end

end SmsLimit
