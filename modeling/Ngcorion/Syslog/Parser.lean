import Ngcorion.Dict
import Ngcorion.IsoTime

/-!
# Parsing one syslog message

The text of a datagram or a frame, once it is decoded. The forms of RFC 5424, of FortiOS and of BSD are tried
in this order; a message that none of them understands is kept whole.
-/
namespace SyslogParser

open Text IsoTime LocalTime

def maxMessage : Nat := 8192
def maxHostname : Nat := 255
def maxApp : Nat := 128

/-- A time without a zone, as Python's `datetime` has it: its years begin at 1. -/
abbrev Datetime := {t : Stamp // 1 ≤ t.date.year}

/-- The Unicode tables behind `\d`, `isdigit` and `\w`, as far as ASCII fixes them, and `datetime.fromisoformat`
with the offset that a time may have. -/
structure Tables where
  digit : Char → Option Nat
  isdigit : Char → Bool
  word : Char → Bool
  fromisoformat : Str → Option (Datetime × Option Int)
  digit_ascii : ∀ c, c.toNat < 128 → digit c = digitValue c
  isdigit_ascii : ∀ c, c.toNat < 128 → isdigit c = c.isDigit
  word_ascii : ∀ c, c.toNat < 128 → word c = (c.isAlphanum || c = '_')

structure Parsed where
  facility : Option Nat
  severity : Nat
  device_time : Option Datetime
  hostname : Option Str
  app_name : Option Str
  message : Str

/-- What a form tells: time, host, program and text. -/
abbrev Form := Option Datetime × Option Str × Option Str × Str

/-- What can be raised, and is caught by `parse`. -/
inductive PyError where
  | valueError | overflowError

/-- A time of which the year is not known: the groups of `_BSD_TIME` -/
structure Clock where
  month : Str
  day : Nat
  hour : Nat
  minute : Nat
  second : Nat

/-! ## Times -/

def datetime (year month day time : Nat) : Option Datetime :=
  (stamp year month day time).bind (fun t => if h : 1 ≤ t.date.year then some ⟨t, h⟩ else none)

/-- `dt.replace(year=...)` -/
def replaceYear (dt : Datetime) (year : Int) : Option Datetime :=
  datetime year.toNat dt.1.date.month.toNat dt.1.date.day.toNat dt.1.time

/-- The time so many microseconds after the first midnight of the calendar. -/
def ofInstant (i : Int) : Option Datetime :=
  let date := Gregorian.ofOrdinal (dateOf i)
  datetime date.year.toNat date.month.toNat date.day.toNat (i % day).toNat

def months : List Str :=
  [lit "Jan", lit "Feb", lit "Mar", lit "Apr", lit "May", lit "Jun", lit "Jul", lit "Aug", lit "Sep", lit "Oct", lit "Nov",
    lit "Dec"]

/-- `_MONTHS[name]` -/
def monthOf (name : Str) : Option Nat := (months.idxOf? name).map (· + 1)

/-- The time of a clock in a year; there need not be one. -/
def Clock.inYear (m : Clock) (year : Nat) : Option Datetime := do
  let month ← monthOf m.month
  if m.hour < 24 ∧ m.minute < 60 ∧ m.second < 60 then
    datetime year month m.day (m.hour * 3600000000 + m.minute * 60000000 + m.second * 1000000)
  else none

def _bsd (m : Clock) (now : Datetime) : Except PyError (Option Datetime) :=
  match m.inYear now.1.date.year.toNat with
  | none => .ok none
  | some dt =>
    if dt.1.instant - now.1.instant > day then
      match replaceYear dt (now.1.date.year - 1) with
      | some dt => .ok (some dt)
      | none => .error .valueError
    else .ok (some dt)

section
variable (tb : Tables)

/-! ## Patterns -/

/-- `p{lo,hi}`: as many characters of a class as there are, and what follows them. -/
def run (p : Char → Bool) (lo hi : Nat) (s : Str) : Option (Str × Str) :=
  let w := (s.take hi).takeWhile p
  if lo ≤ w.length then some (w, s.drop w.length) else none

/-- `\d{lo,hi}` as a number. -/
def digits (lo hi : Nat) (s : Str) : Option (Nat × Str) := do
  let (w, rest) ← run (fun c => (tb.digit c).isSome) lo hi s
  return (w.foldl (fun n c => 10 * n + (tb.digit c).getD 0) 0, rest)

/-- `[*.]?` -/
def skipMark (s : Str) : Str := if s.head? = some '*' ∨ s.head? = some '.' then s.tail else s

/-- `[A-Z][a-z]{2}` -/
def monthName : Str → Option (Str × Str)
  | a :: b :: c :: rest => if a.isUpper && b.isLower && c.isLower then some ([a, b, c], rest) else none
  | _ => none

/-- ` +` -/
def blanks (s : Str) : Option Str := (expect ' ' s).map (fun s => s.dropWhile (· = ' '))

/-- `(?:\.\d{1,hi})?` -/
def skipFraction (hi : Nat) (s : Str) : Option Str :=
  match expect '.' s with
  | some rest => (digits tb 1 hi rest).map (·.2)
  | none => some s

/-- `:? ` -/
def closing (s : Str) : Option Str := expect ' ' ((expect ':' s).getD s)

/-- `(?: [A-Z]{2,5})?:? ` -/
def skipZone (s : Str) : Option Str :=
  match (expect ' ' s).bind (fun s => (run Char.isUpper 2 5 s).bind (fun w => closing w.2)) with
  | some rest => some rest
  | none => closing s

/-- `([A-Z][a-z]{2}) +(\d{1,2}) (\d{2}):(\d{2}):(\d{2})(?:\.\d{1,6})?(?: [A-Z]{2,5})?:? ` -/
def clock (s : Str) : Option (Clock × Str) := do
  let (month, s) ← monthName s
  let s ← blanks s
  let (day, s) ← digits tb 1 2 s
  let s ← expect ' ' s
  let (hour, s) ← digits tb 2 2 s
  let s ← expect ':' s
  let (minute, s) ← digits tb 2 2 s
  let s ← expect ':' s
  let (second, s) ← digits tb 2 2 s
  let s ← skipFraction tb 6 s
  let s ← skipZone s
  return ({ month, day, hour, minute, second }, s)

/-- `_BSD_TIME` -/
def bsdTime (s : Str) : Option (Clock × Str) := clock tb (skipMark s)

/-- `_YEAR_TIME` -/
def yearTime (s : Str) : Option ((Nat × Clock) × Str) := do
  let (year, s) ← digits tb 4 4 s
  let s ← expect ' ' s
  let (m, s) ← clock tb s
  return ((year, m), s)

/-- `\d{4}-\d{2}-\d{2}T` -/
def isoDate (s : Str) : Option Str := do
  let s ← expect '-' (← digits tb 4 4 s).2
  let s ← expect '-' (← digits tb 2 2 s).2
  expect 'T' (← digits tb 2 2 s).2

/-- `(?:Z|[+-]\d{2}:?\d{2})?` -/
def skipOffset (s : Str) : Str :=
  match expect 'Z' s with
  | some rest => rest
  | none =>
    if s.head? = some '+' ∨ s.head? = some '-' then
      ((digits tb 2 2 s.tail).bind (fun d => digits tb 2 2 ((expect ':' d.2).getD d.2))).elim s (·.2)
    else s

/-- `_ISO_TIME`: the text of its group, and what follows the match. -/
def isoTime (s : Str) : Option (Str × Str) := do
  let r ← isoDate tb s
  let r ← expect ':' (← digits tb 2 2 r).2
  let r ← expect ':' (← digits tb 2 2 r).2
  let r := (← digits tb 2 2 r).2
  let r := skipOffset tb ((skipFraction tb 9 r).getD r)
  let rest ← expect ' ' r
  return (s.take (s.length - r.length), rest)

/-- `_CISCO_SEQ.sub("", s, count=1)` -/
def dropSeq (s : Str) : Str :=
  ((digits tb 1 10 s).bind (fun d => (expect ':' d.2).bind (expect ' '))).getD s

/-- `(?=[*.]?[A-Z][a-z]{2} +\d)` -/
def stampAhead (s : Str) : Bool :=
  (((monthName (skipMark s)).bind (fun m => blanks m.2)).bind (digits tb 1 1)).isSome

/-- `_CISCO_HOST` -/
def ciscoHost (s : Str) : Option (Str × Str) := do
  let (host, s) ← run (fun c => tb.word c || c = '.' || c = '-') 1 255 s
  let s ← expect ':' s
  let s ← expect ' ' s
  if stampAhead tb s then some (host, s) else none

/-- `(?:\[[\w.-]{0,32}\])?` -/
def skipPid (s : Str) : Str :=
  ((expect '[' s).bind (fun s => (run (fun c => tb.word c || c = '.' || c = '-') 0 32 s).bind (fun w => expect ']' w.2))).getD s

/-- `_TAG` -/
def tag (s : Str) : Option (Str × Str) := do
  let (app, s) ← run (fun c => tb.word c || c ∈ ['.', '/', '%', '@', '-']) 1 64 s
  let s ← expect ':' (skipPid tb s)
  return (app, (expect ' ' s).getD s)

/-! ## Fields -/

/-- `_CONTROL` -/
def control (c : Char) : Bool := c.toNat ≤ 8 || (11 ≤ c.toNat && c.toNat ≤ 31) || c.toNat = 127

def _clean (text : Str) (limit : Nat) : Str := (strip (text.filter (fun c => !control c))).take limit

/-- A text of which nothing is left counts as missing. -/
def nonempty (s : Str) : Option Str := if s = [] then none else some s

def _opt (text : Option Str) (limit : Nat) : Option Str :=
  text.bind (fun text => if text = lit "-" then none else nonempty (_clean text limit))

/-- `value.replace("Z", "+00:00")` -/
def utcOffset (value : Str) : Str := value.flatMap (fun c => if c = 'Z' then lit "+00:00" else [c])

/-- `^(.*?\.\d{6})\d*(.*)$`: the text without the digits of a fraction after the sixth. -/
def sixDigits (done : Str) : Str → Option Str
  | [] => none
  | c :: s =>
    match (expect '.' (c :: s)).bind (digits tb 6 6) with
    | some (_, rest) =>
      let tail := rest.dropWhile (fun c => (tb.digit c).isSome)
      let text := if tail.getLast? = some '\n' then tail.dropLast else tail
      if '\n' ∈ text then none else some (done ++ c :: s.take 6 ++ text)
    | none => if c = '\n' then none else sixDigits (done ++ [c]) s

/-- `dt.astimezone(timezone.utc).replace(tzinfo=None) if dt.tzinfo else dt` -/
def naiveUtc : Datetime × Option Int → Except PyError (Option Datetime)
  | (dt, none) => .ok (some dt)
  | (dt, some offset) =>
    match ofInstant (dt.1.instant - offset) with
    | some dt => .ok (some dt)
    | none => .error .overflowError

def _iso (value : Str) : Except PyError (Option Datetime) :=
  match tb.fromisoformat (utcOffset value) with
  | some dt => naiveUtc dt
  | none =>
    match (sixDigits tb [] value).bind (fun v => tb.fromisoformat (utcOffset v)) with
    | some dt => naiveUtc dt
    | none => .ok none

/-- The device time at the start of a text and what follows it. -/
def _timestamp (rest : Str) (now : Datetime) : Except PyError (Option Datetime × Str) :=
  match bsdTime tb rest with
  | some (m, after) => (_bsd m now).map (·, after)
  | none =>
    match yearTime tb rest with
    | some ((year, m), after) => .ok (m.inYear year, after)
    | none =>
      match isoTime tb rest with
      | some (text, after) => (_iso tb text).map (·, after)
      | none => .ok (none, rest)

/-! ## RFC 5424 -/

/-- `s.split(" ", n)` -/
def splitBlank : Nat → Str → List Str
  | 0, s => [s]
  | n + 1, s =>
    if ' ' ∈ s then s.takeWhile (· ≠ ' ') :: splitBlank n (s.dropWhile (· ≠ ' ')).tail else [s]

/-- What follows the elements `[..]` of the structured data, in which "]" can be escaped; `inside` one of them. -/
def afterElements (inside : Bool) : Str → Str
  | [] => []
  | c :: s =>
    match inside, c, s with
    | false, '[', s => afterElements true s
    | false, c, s => c :: s
    | true, ']', s => afterElements false s
    | true, '\\', _ :: s => afterElements true s
    | true, _, s => afterElements true s

/-- `text[_structured_data_end(text):]` -/
def afterStructuredData (text : Str) : Str := if text.head? = some '-' then text.tail else afterElements false text

def _rfc5424 (rest : Str) : Except PyError (Option Form) :=
  match splitBlank 6 rest with
  | version :: ts :: host :: app :: _ :: _ :: tail =>
    if (version ≠ [] ∧ version.all tb.isdigit ∧ version.length ≤ 2) ∧ (ts = lit "-" ∨ (isoDate tb ts).isSome) then do
      let msg := afterStructuredData (tail.headD [])
      let msg := (expect ' ' msg).getD msg
      let msg := (expect (Char.ofNat 0xFEFF) msg).getD msg
      let time ← if ts = lit "-" then pure none else _iso tb ts
      return some (time, _opt (some host) maxHostname, _opt (some app) maxApp, msg)
    else .ok none
  | _ => .ok none

/-! ## FortiOS -/

/-- `"(?:[^"\\]|\\.)*"` after its first quote: the text up to the closing one, and what follows. -/
def quoted : Str → Option (Str × Str)
  | [] => none
  | '"' :: s => some (['"'], s)
  | '\\' :: c :: s => if c = '\n' then none else (quoted s).map (fun w => ('\\' :: c :: w.1, w.2))
  | ['\\'] => none
  | c :: s => (quoted s).map (fun w => (c :: w.1, w.2))

/-- `("(?:[^"\\]|\\.)*"|\S*)` -/
def kvValue (s : Str) : Str × Str :=
  match (expect '"' s).bind quoted with
  | some (v, rest) => ('"' :: v, rest)
  | none => s.span (fun c => !isSpace c)

/-- `_KV.findall`: a key that no "=" follows is passed over. -/
def findPairs : Nat → Str → List (Str × Str)
  | 0, _ => []
  | fuel + 1, s =>
    let s := s.dropWhile (fun c => !tb.word c)
    if s = [] then [] else
      let (key, after) := s.span tb.word
      match expect '=' after with
      | some rest => (key, (kvValue rest).1) :: findPairs fuel (kvValue rest).2
      | none => findPairs fuel after

/-- The fields that are shown elsewhere. -/
def fortiShown : List Str :=
  [lit "date", lit "time", lit "eventtime", lit "tz", lit "devname", lit "type", lit "subtype", lit "level", lit "logdesc",
    lit "msg"]

def unquote (v : Str) : Str := if v.head? = some '"' ∧ v.getLast? = some '"' then (v.drop 1).dropLast else v

/-- `kv.get(key)`, a value without characters being as good as none. -/
def field (kv : List (Str × Str)) (key : Str) : Option Str := (Dict.get kv key).bind nonempty

def _fortios (rest : Str) : Except PyError (Option Form) :=
  if [lit "date=", lit "logver=", lit "eventtime=", lit "itime=", lit "timestamp="].any (startsWith · rest) ∧
      contains (lit "devname=") rest then do
    let text := rest.take maxMessage
    let pairs := findPairs tb (text.length + 1) text
    let kv := pairs.foldl (fun kv p => Dict.set kv p.1 (unquote p.2)) []
    let time ← match field kv (lit "date"), field kv (lit "time") with
      | some date, some time => _iso tb (date ++ 'T' :: time)
      | _, _ => pure none
    let event := match field kv (lit "logdesc") with
      | some event => event
      | none =>
        (nonempty (join (lit "/") ([lit "type", lit "subtype"].filterMap (field kv)))).getD (lit "fortigate")
    let others := join (lit " ") ((pairs.filter (fun p => p.1 ∉ fortiShown)).map (fun p => p.1 ++ '=' :: p.2))
    let text := ((field kv (lit "msg")).orElse (fun _ => field kv (lit "logdesc"))).getD []
    let message := if text ≠ [] ∧ others ≠ [] then text ++ lit " · " ++ others
      else if text ≠ [] then text else if others ≠ [] then others else rest
    return some (time, _opt (Dict.get kv (lit "devname")) maxHostname, _opt (some event) maxApp, message)
  else .ok none

/-! ## BSD -/

/-- The first word is the host name unless it is already the tag. -/
def splitHost (rest : Str) : Option Str × Str :=
  let first := rest.takeWhile (· ≠ ' ')
  let after := (rest.dropWhile (· ≠ ' ')).tail
  if first ≠ [] ∧ after ≠ [] ∧ first.getLast? ≠ some ':' ∧ '[' ∉ first ∧ tag tb rest = none then (some first, after)
  else (none, rest)

/-- A relay's header in front of the device's own -/
def ownHeader (time : Option Datetime) (rest : Str) (now : Datetime) : Except PyError (Option Datetime × Str) := do
  let inner := dropSeq tb rest
  let (own, after) ← _timestamp tb inner now
  if own.isSome then return (own, after)
  else if inner ≠ rest ∧ inner.head? = some '%' then return (time, inner)
  else return (time, rest)

/-- The form of what is left, the program being its tag. -/
def tagged (time : Option Datetime) (host : Option Str) (rest : Str) : Form :=
  match tag tb rest with
  | some (app, rest) => (time, _opt host maxHostname, _opt (some app) maxApp, rest)
  | none => (time, _opt host maxHostname, none, rest)

def _bsd_form (rest : Str) (now : Datetime) : Except PyError Form := do
  let rest := if startsWith (lit ": ") rest then rest.drop 2 else rest
  let rest := dropSeq tb rest
  let (host, rest) := match ciscoHost tb rest with
    | some (host, rest) => (some host, rest)
    | none => (none, rest)
  let (time, rest) ← _timestamp tb rest now
  let (host, rest) := if time.isSome ∧ host = none then splitHost tb rest else (host, rest)
  let (time, rest) ← if time.isSome then ownHeader tb time rest now else pure (time, rest)
  return tagged tb time host rest

/-! ## Messages -/

/-- The characters that are cut off at the end of a message. -/
def trailing (c : Char) : Bool := c = '\r' || c = '\n' || c.toNat = 0 || c = ' '

/-- `raw.decode(...).rstrip("\r\n\0 ")`, of the decoded text. -/
def cut (text : Str) : Str := (text.reverse.dropWhile trailing).reverse

/-- `_PRI`, with the bound on its number. -/
def priority (text : Str) : Option (Nat × Str) := do
  let s ← expect '<' text
  let (n, s) ← digits tb 1 3 s
  let rest ← expect '>' s
  return (n, rest)

/-- The forms in the order in which they are tried; `header` tells whether there is a priority. -/
def forms (header : Bool) (rest : Str) (now : Datetime) : Except PyError Form := do
  let parsed ← if header then _rfc5424 tb rest else pure none
  match parsed with
  | some parsed => return parsed
  | none =>
    match ← _fortios tb rest with
    | some parsed => return parsed
    | none => _bsd_form tb rest now

def parse (raw : Str) (now : Datetime) : Parsed :=
  let text := cut raw
  let m := priority tb text
  let (facility, severity, rest) := match m with
    | some (pri, rest) => if pri ≤ 191 then (some (pri / 8), pri % 8, rest) else (none, 5, text)
    | none => (none, 5, text)
  let parsed := (forms tb m.isSome rest now).toOption
  let (time, host, app, msg) := parsed.getD (none, none, none, rest)
  { facility
    severity
    device_time := time
    hostname := host
    app_name := app
    message := ((nonempty (_clean msg maxMessage)).orElse (fun _ => nonempty (_clean rest maxMessage))).getD (lit "(empty)") }

end

end SyslogParser
