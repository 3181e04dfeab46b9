import Ngcorion.Noc.Neighbors
import Ngcorion.Noc.Snmp

/-!
# The neighbour tables of one device

A device is asked for the tables of two protocols, one walk for each table. What the
walks give is parsed into neighbours; a walk that fails is named in the errors, and the
neighbours of the other tables count all the same.
-/
namespace Lldp

open Text Neighbors Snmp

variable {V : Type} (lib : Lib) (reader : Reader V)

def lldpLocal : Oid := [1, 0, 8802, 1, 1, 2, 1, 3]
def lldpLocChassisSubtype : Oid := lldpLocal ++ [1]
def lldpLocChassisId : Oid := lldpLocal ++ [2]
def lldpLocPort : Oid := lldpLocal ++ [7, 1]
def lldpRem : Oid := [1, 0, 8802, 1, 1, 2, 1, 4, 1, 1]
def lldpRemManAddr : Oid := [1, 0, 8802, 1, 1, 2, 1, 4, 2, 1]
def cdpCache : Oid := [1, 3, 6, 1, 4, 1, 9, 9, 23, 1, 2, 1, 1]

/-- `chassis_value` -/
def chassisValue (subtype : Option Int) (raw : Option V) : Option Str × ChassisKind :=
  let mac := if subtype = some 4 then raw.bind reader.normalizeMac else none
  let ip := if subtype = some 5 then raw.bind reader.networkAddress else none
  match given mac, ip with
  | some mac, _ => (some mac, .mac)
  | none, some ip => (some ip, .ip)
  | none, none => (raw.bind reader.text, .name)

/-- `port_value` -/
def portValue (subtype : Option Int) (raw : Option V) : Option Str :=
  let mac := if subtype = some 3 then given (raw.bind reader.normalizeMac) else none
  let ip := if subtype = some 4 then raw.bind reader.networkAddress else none
  mac.or (ip.or (raw.bind reader.text))

abbrev LocalPorts := List (Nat × Option Str × Option Str)

/-- `parse_local_ports` -/
def parseLocalPorts (vbs : VarBinds V) : LocalPorts :=
  (columns vbs lldpLocPort 1).foldl (fun out row =>
    match row.1 with
    | [num] => Dict.set out num (portValue reader ((Dict.get row.2 2).bind reader.asInt) (Dict.get row.2 3),
        (Dict.get row.2 4).bind reader.text)
    | _ => out) []

def dotted (octets : List Nat) : Str := join ['.'] (octets.map (Nat.toDigits 10))

/-- `parse_man_addrs`: the first address of a neighbour counts. -/
def parseManAddrs (vbs : VarBinds V) : List (List Nat × Str) :=
  vbs.foldl (fun out vb =>
    match suffix vb.1 lldpRemManAddr with
    | some [_, mark, port, idx, 1, 4, a, b, c, d] =>
      if [a, b, c, d].all (· ≤ 255) then setDefault out [mark, port, idx] (dotted [a, b, c, d]) else out
    | _ => out) []

/-- The interfaces by name and description, in lower case. -/
def namesByPort (interfaces : List Interface) : List (Str × Nat) :=
  interfaces.foldl (fun out i =>
    ([i.name, i.descr].filterMap given).foldl (fun out n => setDefault out (lib.lower n) i.index) out) []

def namesByIndex (interfaces : List Interface) : List (Nat × Str) :=
  interfaces.foldl (fun out i =>
    match (given i.name).or (given i.descr) with
    | some n => Dict.set out i.index n
    | none => out) []

/-- One row of `lldpRemTable` -/
def lldpNeighbor (man : List (List Nat × Str)) (localPorts : LocalPorts) (ifNames : List (Str × Nat))
    (byIndex : List (Nat × Str)) (port : Nat) (index : List Nat) (cols : List (Nat × V)) : Neighbor :=
  let (chassis, kind) := chassisValue reader ((Dict.get cols 4).bind reader.asInt) (Dict.get cols 5)
  let known := (Dict.get localPorts port).getD (none, none)
  let plain := (given known.1).isNone && (given known.2).isNone
  let localId := if plain then (Dict.get byIndex port).or known.1 else known.1
  let ifIndex := if plain && (Dict.get byIndex port).isSome then some port else none
  let named := [localId, known.2].findSome? (fun n => (given n).bind (fun n => Dict.get ifNames (lib.lower n)))
  { protocol := .lldp
    localPort := ((given localId).or (given known.2)).getD (lit "port " ++ Nat.toDigits 10 port)
    localIfIndex := named.or ifIndex
    chassisId := chassis
    chassisKind := kind
    remotePort := portValue reader ((Dict.get cols 6).bind reader.asInt) (Dict.get cols 7)
    remotePortDesc := (Dict.get cols 8).bind reader.text
    remoteName := (Dict.get cols 9).bind reader.text
    remoteMgmtIp := Dict.get man index }

/-- `parse_lldp` -/
def parseLldp (rem man : VarBinds V) (localPorts : LocalPorts) (ifNames : List (Str × Nat))
    (byIndex : List (Nat × Str)) : List Neighbor :=
  (columns rem lldpRem 3).filterMap fun row =>
    match row.1 with
    | [mark, port, idx] =>
      some (lldpNeighbor lib reader (parseManAddrs man) localPorts ifNames byIndex port [mark, port, idx] row.2)
    | _ => none

/-- One row of `cdpCacheTable` -/
def cdpNeighbor (byIndex : List (Nat × Str)) (ifIndex : Nat) (cols : List (Nat × V)) : Neighbor :=
  let device := (Dict.get cols 6).bind reader.text
  let kind := (Dict.get cols 3).bind reader.asInt
  { protocol := .cdp
    localPort := (Dict.get byIndex ifIndex).getD (lit "ifIndex " ++ Nat.toDigits 10 ifIndex)
    localIfIndex := some ifIndex
    chassisId := device
    chassisKind := .name
    remotePort := (Dict.get cols 7).bind reader.text
    remotePortDesc := none
    remoteName := device
    remoteMgmtIp := if kind = some 1 ∨ kind = none then (Dict.get cols 4).bind reader.ipv4 else none }

/-- `parse_cdp` -/
def parseCdp (vbs : VarBinds V) (byIndex : List (Nat × Str)) : List Neighbor :=
  (columns vbs cdpCache 2).filterMap fun row =>
    match row.1 with
    | ifIndex :: _ => some (cdpNeighbor reader byIndex ifIndex row.2)
    | [] => none

/-! ## One device -/

/-- What the walks of the device's tables give. -/
structure Walks (V : Type) where
  localSystem : Walk V
  remote : Walk V
  management : Walk V
  cdp : Walk V

/-- The value of the last row with the identifier. -/
def scalar (vbs : VarBinds V) (oid : Oid) : Option V :=
  (vbs.reverse.find? (fun vb => vb.1 = oid ++ [0])).map Prod.snd

/-- What `collect` returns. -/
structure Reading where
  report : NeighborReport
  errors : List (Str × Str)

/-- The errors of the tables of LLDP. The management addresses are asked for when there are neighbours. -/
def lldpErrors (w : Walks V) : List (Str × Str) :=
  failure (lit "LLDP local") w.localSystem ++ failure (lit "LLDP neighbours") w.remote
    ++ (if (rows w.remote).isEmpty then [] else failure (lit "LLDP management addresses") w.management)

def cdpErrors (w : Walks V) : List (Str × Str) := failure (lit "CDP neighbours") w.cdp

/-- `collect` -/
def collect (interfaces : List Interface) (w : Walks V) : Reading where
  report :=
    { neighbors := parseLldp lib reader (rows w.remote)
          (if (rows w.remote).isEmpty then [] else rows w.management)
          (parseLocalPorts reader (rows w.localSystem)) (namesByPort lib interfaces) (namesByIndex interfaces)
        ++ parseCdp reader (rows w.cdp) (namesByIndex interfaces)
      localChassisId := (scalar (rows w.localSystem) lldpLocChassisId).bind fun raw =>
        (chassisValue reader ((scalar (rows w.localSystem) lldpLocChassisSubtype).bind reader.asInt) (some raw)).1
      lldp := !((rows w.localSystem).isEmpty && (rows w.remote).isEmpty)
      cdp := !(rows w.cdp).isEmpty }
  errors := kept (lldpErrors w ++ cdpErrors w)

/-- The tables of the protocol were read without an error. -/
def clean (w : Walks V) : Protocol → Bool
  | .lldp => (kept (lldpErrors w)).isEmpty
  | .cdp => (kept (cdpErrors w)).isEmpty

/-! ## All devices -/

/-- How a device answers: its walks, or an exception that ends the reading of it. -/
inductive Answer (V : Type) where
  | fails (error : Str)
  | walks (w : Walks V)

/-- The devices in the order in which they answer. -/
abbrev Answers (V : Type) := List (Nat × Answer V)

def interfacesOf (site : Site) (asset : Nat) : List Interface := site.interfaces.filter (fun i => i.asset = asset)

/-- `read` of one device -/
def readDevice (site : Site) (out : Reports × Errors) (d : Nat × Answer V) : Reports × Errors :=
  match d.2 with
  | .fails error => (out.1, Dict.set out.2 d.1 error)
  | .walks w =>
    let reading := collect site.lib reader (interfacesOf site d.1) w
    (Dict.set out.1 d.1 reading.report,
      if reading.errors ≠ [] ∧ reading.report.neighbors = [] then Dict.set out.2 d.1 (errorText reading.errors)
      else out.2)

/-- `read_reports` -/
def readReports (site : Site) (answers : Answers V) : Reports × Errors :=
  answers.foldl (readDevice reader site) ([], [])

end Lldp
