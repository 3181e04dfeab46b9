import Ngcorion.Text
import Ngcorion.Dict

/-!
# What network devices report of their neighbours

Every router and switch keeps a table of what is cabled to its ports. A sweep reads
these tables, keeps one row for each neighbour that a device reports, and works out
which asset the neighbour is.
-/
namespace Neighbors

open Text

/-- What the code takes from the library of its language. -/
structure Lib where
  lower : Str → Str
  isdigit : Char → Bool
  /-- The hexadecimal SHA-1 digest of a text. -/
  sha1 : Str → Str

/-- An empty text counts as none. -/
def given (s : Option Str) : Option Str := s.filter (fun s => s ≠ [])

variable (lib : Lib)

/-! ## Ports and names -/

/-- `_PORT_PREFIXES` -/
def portPrefixes : List (Str × Str) :=
  [(lit "hundredgigabitethernet", lit "hu"), (lit "hundredgige", lit "hu"), (lit "fortygigabitethernet", lit "fo"),
    (lit "twentyfivegigabitethernet", lit "twe"), (lit "twentyfivegige", lit "twe"),
    (lit "tengigabitethernet", lit "te"), (lit "gigabitethernet", lit "gi"), (lit "fastethernet", lit "fa"),
    (lit "ethernet", lit "eth"), (lit "port-channel", lit "po"), (lit "management", lit "mgmt")]

/-- One spelling for each port. -/
def portKey (name : Option Str) : Option Str :=
  (given name).map fun name =>
    let key := (lib.lower name).filter (fun c => !isSpace c)
    match portPrefixes.find? (fun p => startsWith p.1 key) with
    | some (long, short) => short ++ key.drop long.length
    | none =>
      if startsWith (lit "et") key && !startsWith (lit "eth") key && (key.drop 2).head?.any lib.isdigit then
        lit "eth" ++ key.drop 2
      else key

/-- `re.sub(r"\(.*\)$", "", s)`, for a text that does not end with a line end -/
def dropSerial : Str → Str
  | [] => []
  | c :: rest => if c = '(' && endsWith [')'] rest && !rest.contains '\n' then [] else c :: dropSerial rest

/-- A device name without its serial number and its domain. -/
def nameKey (name : Option Str) : Option Str :=
  (given name).bind fun name =>
    given ((strip (dropSerial (lib.lower (strip name)))).splitOn '.').head?

def isHex (c : Char) : Bool := c.isDigit || 'a' ≤ c && c ≤ 'f'

def pairs : Str → List Str
  | a :: b :: rest => [a, b] :: pairs rest
  | _ => []

/-- `oui.normalize_mac` of a text -/
def normalizeMac (value : Option Str) : Option Str :=
  value.bind fun value =>
    let digits := (lib.lower value).filter isHex
    if digits.length = 12 then some (join [':'] (pairs digits)) else none

structure Interface where
  asset : Nat
  index : Nat
  name : Option Str
  descr : Option Str
  speed : Option Nat

/-- `_Ports`: the interfaces of one device -/
structure Ports where
  byKey : List (Option Str × Nat × Str)
  byIndex : List (Nat × Str)
  speed : List (Nat × Nat)

def setDefault {κ α : Type} [DecidableEq κ] (d : List (κ × α)) (k : κ) (a : α) : List (κ × α) :=
  if (Dict.get d k).isSome then d else Dict.set d k a

def Interface.shown (i : Interface) : Str :=
  ((given i.name).or (given i.descr)).getD (lit "ifIndex " ++ Nat.toDigits 10 i.index)

def Ports.add (p : Ports) (i : Interface) : Ports where
  byKey := ([i.name, i.descr].filterMap given).foldl
    (fun d n => setDefault d (portKey lib (some n)) (i.index, i.shown)) p.byKey
  byIndex := Dict.set p.byIndex i.index i.shown
  speed := match i.speed with
    | some (s + 1) => Dict.set p.speed i.index (s + 1)
    | _ => p.speed

/-- `_ports` -/
def ports (interfaces : List Interface) (asset : Nat) : Ports :=
  (interfaces.filter (fun i => i.asset = asset)).foldl (Ports.add lib) ⟨[], [], []⟩

/-- The first of the names that is an interface of the device. -/
def Ports.find (p : Ports) (names : List (Option Str)) : Option (Nat × Str) :=
  names.findSome? (fun n => (given n).bind (fun n => Dict.get p.byKey (portKey lib (some n))))

/-! ## Reports -/

inductive Protocol where
  | lldp | cdp
  deriving DecidableEq

def Protocol.text : Protocol → Str
  | .lldp => lit "lldp"
  | .cdp => lit "cdp"

inductive ChassisKind where
  | mac | ip | name
  deriving DecidableEq

/-- One neighbour as one device reported it. -/
structure Neighbor where
  protocol : Protocol
  localPort : Str
  localIfIndex : Option Nat
  chassisId : Option Str
  chassisKind : ChassisKind
  remotePort : Option Str
  remotePortDesc : Option Str
  remoteName : Option Str
  remoteMgmtIp : Option Str
  deriving DecidableEq

structure NeighborReport where
  neighbors : List Neighbor
  localChassisId : Option Str
  lldp : Bool
  cdp : Bool

/-- `_ident` -/
def ident (n : Neighbor) : Str :=
  lib.sha1 (join ['|'] [n.protocol.text, n.localPort, ((given n.chassisId).or n.remoteName).getD [],
    n.remotePort.getD []])

/-- `TopologyNeighbor` -/
structure Row where
  asset : Nat
  ident : Str
  report : Neighbor
  firstSeen : Nat
  lastSeen : Nat
  matched : Option Nat
  link : Option Nat
  suppressed : Bool
  deriving DecidableEq

def Row.is (asset : Nat) (ident : Str) (r : Row) : Bool := r.asset = asset && r.ident = ident

/-- The report as the columns hold it. -/
def Neighbor.stored (n : Neighbor) : Neighbor :=
  { n with localPort := n.localPort.take 255, chassisId := given n.chassisId }

def Row.write (n : Neighbor) (now : Nat) (r : Row) : Row := { r with report := n.stored, lastSeen := now }

def newRow (asset : Nat) (now : Nat) (n : Neighbor) : Row :=
  ⟨asset, ident lib n, n.stored, now, now, none, none, false⟩

/-- One report of a sweep, into its row or into a new one. -/
def note (now : Nat) (rows : List Row) (n : Nat × Neighbor) : List Row :=
  if rows.any (Row.is n.1 (ident lib n.2)) then
    rows.map (fun r => if r.is n.1 (ident lib n.2) then r.write n.2 now else r)
  else rows ++ [newRow lib n.1 now n.2]

abbrev Reports := List (Nat × NeighborReport)

def neighborsOf (reports : Reports) : List (Nat × Neighbor) :=
  reports.flatMap (fun d => d.2.neighbors.map (fun n => (d.1, n)))

def noteAll (now : Nat) (reports : Reports) (rows : List Row) : List Row :=
  (neighborsOf reports).foldl (note lib now) rows

/-! ## The devices that are read -/

/-- `TopologyDiscoverySource` -/
structure Source where
  lastRead : Option Nat
  ok : Bool
  error : Option Str
  lldp : Bool
  cdp : Bool
  neighbors : Nat
  chassisId : Option Str

abbrev Sources := List (Nat × Source)

abbrev Errors := List (Nat × Str)

/-- The source after a sweep that read the device, or tried to. -/
def Source.read (now : Nat) (report : Option NeighborReport) (error : Option Str) (s : Source) : Source :=
  let s := { s with lastRead := some now, ok := error.isNone, error := error }
  match report with
  | none => s
  | some rep =>
    { s with lldp := rep.lldp, cdp := rep.cdp, neighbors := rep.neighbors.length,
             chassisId := (given rep.localChassisId).or s.chassisId }

def noteSource (now : Nat) (reports : Reports) (errors : Errors) (sources : Sources) (asset : Nat) : Sources :=
  let s := (Dict.get sources asset).getD ⟨none, false, none, false, false, 0, none⟩
  Dict.set sources asset (s.read now (Dict.get reports asset) (Dict.get errors asset))

def noteSources (now : Nat) (reports : Reports) (errors : Errors) (sources : Sources) : Sources :=
  (Dict.keys reports ++ Dict.keys errors).foldl (noteSource now reports errors) sources

/-- The devices whose tables were read in this sweep. -/
def readOk (now : Nat) (sources : Sources) : List Nat :=
  Dict.keys (sources.filter (fun s => s.2.lastRead = some now && s.2.ok && (s.2.lldp || s.2.cdp)))

/-! ## Which asset a neighbour is -/

structure Asset where
  id : Nat
  mac : Option Str
  ip : Option Str
  name : Option Str
  host : Option Str

/-- What the sweeps use and do not change. -/
structure Site where
  lib : Lib
  assets : List Asset
  /-- The names that the polled devices give themselves. -/
  sysNames : List (Nat × Option Str)
  /-- The addresses of `NetworkEndpoint` that belong to an asset. -/
  endpoints : List (Str × Nat)
  interfaces : List Interface
  autoLinks : Bool

structure Directory where
  chassis : List (Str × Nat)
  mac : List (Str × Nat)
  ip : List (Str × Nat)
  name : List (Str × Nat)

/-- A name of two assets matches nothing. -/
def addName (names : List (Str × Option Nat)) (name : Str) (asset : Nat) : List (Str × Option Nat) :=
  Dict.set names name (if (Dict.get names name).getD (some asset) = some asset then some asset else none)

/-- The chassis ids that the devices report of themselves. -/
def ownChassis (sources : Sources) : List (Str × Nat) :=
  sources.filterMap (fun s => (given s.2.chassisId).map (fun id => (lib.lower id, s.1)))

def names (site : Site) : List (Str × Option Nat) :=
  let assets := site.assets.flatMap (fun a =>
    ([nameKey site.lib a.name, nameKey site.lib a.host].filterMap id).map (fun n => (n, a.id)))
  let polled := site.sysNames.filterMap (fun s => (nameKey site.lib s.2).map (fun n => (n, s.1)))
  (assets ++ polled).foldl (fun names n => addName names n.1 n.2) []

def macs (site : Site) : List (Str × Nat) :=
  let assets := site.assets.filterMap (fun a => (normalizeMac site.lib a.mac).map (fun m => (m, a.id)))
  (assets ++ site.endpoints).foldl (fun macs m => setDefault macs m.1 m.2) []

def addresses (site : Site) : List (Str × Nat) :=
  (site.assets.filterMap (fun a => (given a.ip).map (fun ip => (strip ip, a.id)))).foldl
    (fun ips ip => setDefault ips ip.1 ip.2) []

def directory (site : Site) (sources : Sources) : Directory where
  chassis := (ownChassis site.lib sources).foldl (fun d c => Dict.set d c.1 c.2) []
  mac := macs site
  ip := addresses site
  name := (names site).filterMap (fun n => n.2.map (fun a => (n.1, a)))

def Directory.matchChassis (d : Directory) (n : Neighbor) : Option Nat :=
  (given n.chassisId).bind fun cid =>
    let key := lib.lower cid
    (Dict.get d.chassis key).or
      (match n.chassisKind with
        | .mac => Dict.get d.mac key
        | .ip => Dict.get d.ip key
        | .name => none)

/-- `Directory.match` -/
def Directory.find (d : Directory) (n : Neighbor) : Option Nat :=
  (d.matchChassis lib n).or (((given n.remoteMgmtIp).bind (Dict.get d.ip)).or
    ((nameKey lib n.remoteName).bind (Dict.get d.name)))

/-- `rematch` of one row: a device is not its own neighbour, and a row keeps its asset
when nothing else matches. -/
def Directory.rematch (d : Directory) (r : Row) : Row :=
  let found := d.find lib r.report
  if found = some r.asset then { r with matched := none } else { r with matched := found.or r.matched }

end Neighbors
