import Ngcorion.Dict
import Ngcorion.Text
import Ngcorion.TokenBucket
import Ngcorion.Transition

/-!
# The syslog intake

What happens to each received message apart from the sockets, and how the queue and the counters get into
the database. `M` are the messages as bytes, `C` the configuration changes they report, `K` the time of the
monotonic clock.
-/
namespace SyslogIntake

open Text

variable {M C K : Type}

def burst : Nat := 2000
def ratePerSecond : Nat := 200
def queueMax : Nat := 50000
def drainBatch : Nat := 5000
def maxUnknownPerDrain : Nat := 1000
def maxEventsPerDrain : Nat := 500

/-- What `parse` tells that is used further. -/
structure Parsed where
  severity : Nat
  hostname : Option Str

/-- What the intake works with: the inventory, the level of the settings, and the parsers. -/
structure Setup (M C : Type) where
  normalize_ip : Str → Option Str
  assets : Str → Option Nat
  store_max_severity : Nat
  parse : M → Parsed
  detect : M → Option C

/-- A message in the queue; `number` counts the messages that were accepted. -/
structure Row (M : Type) where
  number : Nat
  asset_id : Nat
  received_at : Nat
  source_ip : Str
  message : M

/-- The counters of an address, also those of the table of the sources. -/
structure Source where
  asset_id : Option Nat
  received : Nat
  dropped : Nat
  last_seen : Nat
  hostname : Option Str

/-- What happened: `accept` returned true, or a message was counted as dropped; the limiter let one through or
not; a row did not fit into the queue, at first or when it was put back. -/
inductive Event (K : Type) where
  | accepted (ip : Str)
  | dropped (ip : Str)
  | passed (ip : Str) (time : K)
  | limited (ip : Str) (time : K)
  | full
  | lost (number : Nat)

/-- A drain in progress -/
structure Drain (M C : Type) where
  rows : List (Row M)
  sources : List (Str × Source)
  changes : List C

/-- The intake with the database: `messages`, `stored` and `events` are tables. `history` is not in the code: what
happened, the oldest first. -/
structure State (M C K : Type) where
  clock : K
  queue : List (Row M)
  queue_dropped : Nat
  changes : List C
  buckets : List (Str × TokenBucket.Bucket K)
  sources : List (Str × Source)
  unknown : Nat
  drain : Option (Drain M C)
  messages : List (Row M)
  stored : List (Str × Source)
  events : List C
  history : List (Event K)

/-! ## Receiving -/

/-- `_source`, and what is then counted in it -/
def source (ip : Str) (asset_id : Option Nat) (now : Nat) (count : Source → Source) (s : State M C K) : State M C K :=
  match Dict.get s.sources ip with
  | some e => { s with sources := Dict.set s.sources ip (count { e with last_seen := now }) }
  | none =>
    if asset_id = none ∧ maxUnknownPerDrain ≤ s.unknown then s
    else
      { s with
        unknown := if asset_id = none then s.unknown + 1 else s.unknown
        sources := Dict.set s.sources ip (count ⟨asset_id, 0, 0, now, none⟩) }

def State.record (s : State M C K) (event : Event K) : State M C K := { s with history := s.history ++ [event] }

variable (setup : Setup M C)

/-- `normalize_ip(ip) or ip` -/
def Setup.address (ip : Str) : Str := (setup.normalize_ip ip).getD ip

def drop (ip : Str) (now : Nat) (s : State M C K) : State M C K :=
  let ip := setup.address ip
  (source ip (setup.assets ip) now (fun e => { e with dropped := e.dropped + 1 }) s).record (.dropped ip)

/-- The number of messages that were accepted. -/
def accepted (history : List (Event K)) : Nat := history.countP fun
  | .accepted _ => true
  | _ => false

/-- `accept`, after the limiter let the message of an asset through -/
def enqueue (message : M) (ip : Str) (asset_id now : Nat) (s : State M C K) : State M C K :=
  let p := setup.parse message
  let s := if s.changes.length < maxEventsPerDrain then
    { s with changes := s.changes ++ (setup.detect message).toList } else s
  if setup.store_max_severity < p.severity then s
  else if queueMax ≤ s.queue.length then { s with queue_dropped := s.queue_dropped + 1 }.record .full
  else
    let s := { s with queue := s.queue ++ [⟨accepted s.history, asset_id, now, ip, message⟩] }
    let count (e : Source) : Source := { e with
      received := e.received + 1
      hostname := if p.hostname.any (· ≠ []) then p.hostname else e.hostname }
    (source ip (some asset_id) now count s).record (.accepted ip)

section Limiter

variable [Field K] [LinearOrder K]

/-- `_Bucket.take` of the address's bucket, which is full when there was none -/
def limit (ip : Str) (s : State M C K) : Bool × State M C K :=
  let bucket := (Dict.get s.buckets ip).getD (TokenBucket.full (burst : K) s.clock)
  let took := TokenBucket.take (burst : K) (ratePerSecond : K) bucket s.clock
  let s := { s with buckets := Dict.set s.buckets ip took.2 }
  (took.1, s.record (if took.1 then .passed ip s.clock else .limited ip s.clock))

def accept (message : M) (source_ip : Str) (now : Nat) (s : State M C K) : State M C K :=
  let ip := setup.address source_ip
  match setup.assets ip with
  | none => drop setup ip now s
  | some asset_id =>
    let limited := limit ip s
    if limited.1 then enqueue setup message ip asset_id now limited.2 else drop setup ip now limited.2

end Limiter

/-! ## Storing -/

/-- `_take_sources` -/
def takeSources (s : State M C K) : List (Str × Source) × State M C K :=
  (s.sources, { s with
    sources := []
    unknown := 0
    buckets := if 10000 < s.buckets.length then [] else s.buckets })

/-- What `drain` takes before it writes. -/
def begin (s : State M C K) : State M C K :=
  let rows := s.queue.take drainBatch
  let s := { s with queue := s.queue.drop drainBatch }
  let taken := if s.queue = [] then takeSources s else ([], s)
  { taken.2 with changes := [], drain := some ⟨rows, taken.1, taken.2.changes⟩ }

/-- The row that an address gets or adds to. -/
def upsert (stored : List (Str × Source)) (e : Str × Source) : List (Str × Source) :=
  match Dict.get stored e.1 with
  | none => Dict.set stored e.1 e.2
  | some old => Dict.set stored e.1 {
      asset_id := e.2.asset_id
      received := old.received + e.2.received
      dropped := old.dropped + e.2.dropped
      last_seen := max old.last_seen e.2.last_seen
      hostname := e.2.hostname <|> old.hostname }

/-- The drain commits. -/
def commit (d : Drain M C) (s : State M C K) : State M C K :=
  { s with
    drain := none
    messages := s.messages ++ d.rows
    events := s.events ++ d.changes
    stored := d.sources.foldl upsert s.stored }

/-- A row is put back at the front of the queue, if it has room. -/
def putBack (s : State M C K) (row : Row M) : State M C K :=
  if s.queue.length < queueMax then { s with queue := row :: s.queue }
  else { s with queue_dropped := s.queue_dropped + 1 }.record (.lost row.number)

/-- The counters of an address are put back, if it has none since. -/
def restore (s : State M C K) (e : Str × Source) : State M C K :=
  if e.1 ∈ Dict.keys s.sources then s
  else
    { s with
      sources := Dict.set s.sources e.1 e.2
      unknown := if e.2.asset_id = none then s.unknown + 1 else s.unknown }

/-- The drain fails and is rolled back. -/
def fail (d : Drain M C) (s : State M C K) : State M C K :=
  let s := d.rows.reverse.foldl putBack { s with drain := none }
  let s := { s with changes := (d.changes ++ s.changes).take maxEventsPerDrain }
  d.sources.foldl restore s

/-! ## Runs -/

inductive Action (M K : Type) where
  | tick (seconds : K)
  | accept (message : M) (source_ip : Str) (now : Nat)
  | drop (ip : Str) (now : Nat)
  | begin
  | commit
  | fail

variable [Field K] [LinearOrder K]

def step (s : State M C K) : Action M K → Option (State M C K)
  | .tick seconds => if 0 ≤ seconds then some { s with clock := s.clock + seconds } else none
  | .accept message source_ip now => some (accept setup message source_ip now s)
  | .drop ip now => some (drop setup ip now s)
  | .begin => if s.drain.isSome then none else some (begin s)
  | .commit => s.drain.map fun d => commit d s
  | .fail => s.drain.map fun d => fail d s

def start (clock : K) : State M C K := ⟨clock, [], 0, [], [], [], 0, none, [], [], [], []⟩

end SyslogIntake
