import Mathlib.Data.List.Sort
import Ngcorion.Noc.Lldp

/-!
# The ARP and MAC tables of one device

A device is asked for its own addresses, for its ARP table and for its MAC table. Some switches keep a MAC
table per VLAN, each of which is read in a context of its own. A walk that fails is named in the errors.
-/
namespace AddressTables

open Text Snmp
open Lldp (dotted)

variable {V : Type}

def arpPhys : Oid := [1, 3, 6, 1, 2, 1, 4, 22, 1, 2]
def arpType : Oid := [1, 3, 6, 1, 2, 1, 4, 22, 1, 4]
def netPhys : Oid := [1, 3, 6, 1, 2, 1, 4, 35, 1, 4]
def netType : Oid := [1, 3, 6, 1, 2, 1, 4, 35, 1, 6]
def qfdbPort : Oid := [1, 3, 6, 1, 2, 1, 17, 7, 1, 2, 2, 1, 2]
def qfdbStatus : Oid := [1, 3, 6, 1, 2, 1, 17, 7, 1, 2, 2, 1, 3]
def dfdbPort : Oid := [1, 3, 6, 1, 2, 1, 17, 4, 3, 1, 2]
def dfdbStatus : Oid := [1, 3, 6, 1, 2, 1, 17, 4, 3, 1, 3]
def basePortIfIndex : Oid := [1, 3, 6, 1, 2, 1, 17, 1, 4, 1, 2]
def ifPhys : Oid := [1, 3, 6, 1, 2, 1, 2, 2, 1, 6]
def vtpVlanState : Oid := [1, 3, 6, 1, 4, 1, 9, 9, 46, 1, 3, 1, 1, 2]

def maxRows : Nat := 50000
def maxVlans : Nat := 64

structure ArpEntry where
  ip : Str
  mac : Str
  ifIndex : Option Int

structure FdbEntry where
  mac : Str
  ifIndex : Option Int
  vlan : Option Nat

/-- What one device reported -/
structure NeighborTables where
  arp : List ArpEntry
  fdb : List FdbEntry
  /-- A set; nothing depends on its order. -/
  ownMacs : List Str
  errors : List (Str × Str)

/-! ## Rows -/

section
variable (reader : Reader V)

/-- The numbers of a column by their index. -/
def numbers (vbs : VarBinds V) (base : Oid) (ok : List Nat → Bool) : List (List Nat × Option Int) :=
  vbs.foldl (fun out vb =>
    match suffix vb.1 base with
    | some index => if ok index then Dict.set out index (reader.asInt vb.2) else out
    | none => out) []

def isOne (n : Option Int) (skip : List Int) : Bool :=
  match n with
  | some n => n ∈ skip
  | none => false

/-- `is_unicast`: the lowest bit of the first octet is that of its second digit. -/
def isUnicast (mac : Str) : Bool :=
  mac ≠ lit "00:00:00:00:00:00" && (mac.drop 1).head?.all (fun c => !decide (c ∈ lit "13579bdf"))

/-- An address of a row, if it is one of a device. -/
def unicast (mac : Option Str) : Option Str := mac.filter isUnicast

/-- `parse_arp` -/
def parseArp (phys types : VarBinds V) : List ArpEntry :=
  let kind := numbers reader types arpType (fun index => index.length = 5)
  phys.filterMap fun vb =>
    match suffix vb.1 arpPhys with
    | some (ifIndex :: octets) =>
      if octets.length ≠ 4 || isOne ((Dict.get kind (ifIndex :: octets)).join) [2, 5] then none
      else (unicast (reader.normalizeMac vb.2)).map fun mac => ⟨dotted octets, mac, some ifIndex⟩
    | _ => none

/-- `parse_net_to_physical` -/
def parseNetToPhysical (phys types : VarBinds V) : List ArpEntry :=
  let kind := numbers reader types netType (fun _ => true)
  phys.filterMap fun vb =>
    match suffix vb.1 netPhys with
    | some (ifIndex :: 1 :: 4 :: octets) =>
      if octets.length ≠ 4 || isOne ((Dict.get kind (ifIndex :: 1 :: 4 :: octets)).join) [2, 5] then none
      else (unicast (reader.normalizeMac vb.2)).map fun mac => ⟨dotted octets, mac, some ifIndex⟩
    | _ => none

/-- `f"{o:02x}"` -/
def hexOctet (o : Nat) : Str := [Nat.digitChar (o / 16), Nat.digitChar (o % 16)]

/-- `_mac_from_octets` -/
def macFromOctets (octets : List Nat) : Option Str :=
  if octets.length = 6 ∧ octets.all (· ≤ 255) then some (join [':'] (octets.map hexOctet)) else none

/-- `parse_port_ifindex` -/
def parsePortIfIndex (vbs : VarBinds V) : List (List Nat × Option Int) :=
  numbers reader vbs basePortIfIndex (fun index => index.length = 1)

/-- `port_ifindex.get(port)` -/
def interfaceOf (portIfIndex : List (List Nat × Option Int)) (port : Int) : Option Int :=
  (portIfIndex.find? (fun e => e.1.map Int.ofNat = [port])).bind Prod.snd

/-- `parse_fdb` -/
def parseFdb (ports statuses : VarBinds V) (portIfIndex : List (List Nat × Option Int)) (qbridge : Bool) :
    List FdbEntry :=
  let (basePort, baseStatus, width) := if qbridge then (qfdbPort, qfdbStatus, 7) else (dfdbPort, dfdbStatus, 6)
  let status := numbers reader statuses baseStatus (fun _ => true)
  ports.filterMap fun vb =>
    match suffix vb.1 basePort with
    | none => none
    | some index =>
      if index.length ≠ width || isOne ((Dict.get status index).join) [2, 4] then none
      else
        match unicast (macFromOctets (index.drop (width - 6))), reader.asInt vb.2 with
        | some mac, some port =>
          let vlan := index.head?.filter fun id => qbridge && 1 ≤ id && id ≤ 4094
          if port = 0 then none else some ⟨mac, interfaceOf portIfIndex port, vlan⟩
        | _, _ => none

/-- `parse_own_macs` -/
def parseOwnMacs (vbs : VarBinds V) : List Str := vbs.filterMap fun vb => unicast (reader.normalizeMac vb.2)

/-- `parse_vtp_vlans` -/
def parseVtpVlans (vbs : VarBinds V) : List Nat :=
  let found := vbs.filterMap fun vb =>
    match suffix vb.1 vtpVlanState with
    | some [_, vlan] =>
      if reader.asInt vb.2 = some 1 ∧ 1 ≤ vlan ∧ vlan ≤ 4094 ∧ ¬(1002 ≤ vlan ∧ vlan ≤ 1005) then some vlan else none
    | _ => none
  found.eraseDups.insertionSort (· ≤ ·)

end

/-- The octets of an IPv4 address -/
def octetsOf (ip : Str) : Option (List Nat) :=
  let parts := ip.splitOn '.'
  if parts.length = 4 ∧
      parts.all (fun p => p ≠ [] ∧ p.length ≤ 3 ∧ p.all Char.isDigit ∧ (p.head? = some '0' → p.length = 1)) then
    let octets := parts.map fun p => p.foldl (fun n c => 10 * n + (c.toNat - '0'.toNat)) 0
    if octets.all (· ≤ 255) then some octets else none
  else none

/-- `valid_ipv4` -/
def validIpv4 (ip : Str) : Bool :=
  match octetsOf ip with
  | some (first :: rest) =>
    !((224 ≤ first && first ≤ 239) || (first = 0 && rest.all (· = 0)) || first = 127 || endsWith (lit ".255") ip)
  | _ => false

/-! ## One device -/

/-- What a client answers to the walk of a table. -/
abbrev Client (V : Type) := Oid → Walk V

/-- A client for the context of a VLAN, or the exception of asking for one -/
abbrev VlanClient (V : Type) := Nat → Option (Client V)

section
variable (reader : Reader V) (client : Client V)

/-- The rows of `_walk`, at most so many. -/
def table (base : Oid) : VarBinds V := (rows (client base)).take maxRows

/-- The MAC table of one VLAN's context, if it answers -/
def vlanFdb (vlan_client : VlanClient V) (vlan : Nat) : Option (List FdbEntry) :=
  (vlan_client vlan).bind fun on =>
    if (failure [] (on basePortIfIndex)).isEmpty then
      some (parseFdb reader (table on dfdbPort) (table on dfdbStatus)
        (parsePortIfIndex reader (table on basePortIfIndex)) false)
    else none

/-- `_per_vlan_fdb` of the VLANs that the device lists, and the errors of it -/
def perVlanFdb (vlan_client : VlanClient V) (vlans : List Nat) (default : List FdbEntry) :
    List FdbEntry × List (Str × Str) :=
  let others := vlans.filter (· ≠ 1)
  let read := others.take maxVlans
  let failed := (read.filter fun vlan => (vlanFdb reader vlan_client vlan).isNone).length
  let number := fun n => Nat.toDigits 10 n
  ((if 1 ∈ vlans then default.map (fun e => { e with vlan := some 1 }) else []) ++
      read.flatMap (fun vlan => ((vlanFdb reader vlan_client vlan).getD []).map fun e => { e with vlan := some vlan }),
    (if maxVlans < others.length then
      [(lit "VLAN tables",
        lit "only the first " ++ number maxVlans ++ lit " of " ++ number others.length ++ lit " VLANs read")]
    else []) ++
      if failed = 0 then []
      else
        [(lit "VLAN tables",
          number failed ++ lit " of " ++ number (min others.length maxVlans) ++ lit " could not be read")])

/-- The ARP entries, from the newer table when the older one has none -/
def collectArp : List ArpEntry × List (Str × Str) :=
  let arp := parseArp reader (table client arpPhys) (table client arpType)
  let errors := failure (lit "ARP") (client arpPhys) ++ failure (lit "ARP type") (client arpType)
  if arp = [] then
    (parseNetToPhysical reader (table client netPhys) (table client netType),
      errors ++ failure (lit "ipNetToPhysical") (client netPhys) ++
        failure (lit "ipNetToPhysical type") (client netType))
  else (arp, errors)

/-- The MAC table: that of Q-BRIDGE, or else the one of BRIDGE, or those of the VLANs -/
def collectFdb (vlan_client : Option (VlanClient V)) : List FdbEntry × List (Str × Str) :=
  let portMap := parsePortIfIndex reader (table client basePortIfIndex)
  let fdb := parseFdb reader (table client qfdbPort) (table client qfdbStatus) portMap true
  let errors := failure (lit "bridge ports") (client basePortIfIndex) ++
    failure (lit "Q-BRIDGE MAC table") (client qfdbPort) ++ failure (lit "Q-BRIDGE status") (client qfdbStatus)
  if fdb ≠ [] then (fdb, errors)
  else
    let default := parseFdb reader (table client dfdbPort) (table client dfdbStatus) portMap false
    let errors := errors ++ failure (lit "BRIDGE MAC table") (client dfdbPort) ++
      failure (lit "BRIDGE status") (client dfdbStatus)
    match vlan_client with
    | none => (default, errors)
    | some vlan_client =>
      let errors := errors ++ failure (lit "VLAN list") (client vtpVlanState)
      match parseVtpVlans reader (table client vtpVlanState) with
      | [] => (default, errors)
      | vlans =>
        let read := perVlanFdb reader vlan_client vlans default
        (read.1, errors ++ read.2)

/-- `collect` -/
def collect (vlan_client : Option (VlanClient V)) : NeighborTables :=
  let arp := collectArp reader client
  let fdb := collectFdb reader client vlan_client
  { arp := arp.1.filter (fun e => validIpv4 e.ip)
    fdb := fdb.1
    ownMacs := parseOwnMacs reader (table client ifPhys)
    errors := kept (failure (lit "ifPhysAddress") (client ifPhys) ++ arp.2 ++ fdb.2) }

end

end AddressTables
