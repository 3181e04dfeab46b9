import Ngcorion.Noc.AddressTables
import Ngcorion.Reordering
import Ngcorion.StableSort

/-!
# Where the addresses of a network were seen

The tables of all devices are merged into one sighting for each MAC address, in the order in which the devices
answered, and the sightings are written to the endpoints. What a sighting is like depends on one address at a
time.
-/
namespace Endpoints

open Text AddressTables
open Neighbors (setDefault)

abbrev AssetId := Int

/-- A device and what it reported -/
abbrev Device := AssetId × NeighborTables

/-- The devices in the order in which they answered -/
abbrev Tables := List Device

abbrev Port := AssetId × Option Int × Option Nat

def maxOtherIps : Nat := 8

/-! ## Merging -/

/-- Everything one sweep learned about one MAC address -/
structure Sighting where
  ips : List Str := []
  arp_at : Option (AssetId × Option Int) := none
  ports : List Port := []
  own_of : Option AssetId := none

/-- A change to the sighting of an address, which is made first if there is none -/
def touch (out : List (Str × Sighting)) (mac : Str) (change : Sighting → Sighting) : List (Str × Sighting) :=
  Dict.set out mac (change ((Dict.get out mac).getD {}))

def addOwn (asset : AssetId) (s : Sighting) : Sighting := { s with own_of := some asset }

def addArp (asset : AssetId) (e : ArpEntry) (s : Sighting) : Sighting :=
  { s with
    ips := if e.ip ∈ s.ips then s.ips else s.ips ++ [e.ip]
    arp_at := s.arp_at.or (some (asset, e.ifIndex)) }

def addFdb (asset : AssetId) (e : FdbEntry) (s : Sighting) : Sighting :=
  { s with ports := s.ports ++ [(asset, e.ifIndex, e.vlan)] }

/-- What `merge` does with the tables of one device -/
def gather (out : List (Str × Sighting)) (d : Device) : List (Str × Sighting) :=
  let out := d.2.ownMacs.foldl (fun out mac => touch out mac (addOwn d.1)) out
  let out := d.2.arp.foldl (fun out e => touch out e.mac (addArp d.1 e)) out
  d.2.fdb.foldl (fun out e => touch out e.mac (addFdb d.1 e)) out

/-- `port_load`: the rows of each port -/
def portLoad (tables : Tables) : List ((AssetId × Option Int) × Nat) :=
  tables.foldl (fun load d =>
    d.2.fdb.foldl (fun load e =>
      Dict.set load (d.1, e.ifIndex) ((Dict.get load (d.1, e.ifIndex)).getD 0 + 1)) load) []

def loadOf (tables : Tables) (p : Port) : Nat := (Dict.get (portLoad tables) (p.1, p.2.1)).getD 0

/-- `merge`: the ports of an address are sorted by their load. -/
def merge (tables : Tables) : List (Str × Sighting) :=
  (tables.foldl gather []).map fun e =>
    (e.1, { e.2 with ports := e.2.ports.insertionSort fun p q => loadOf tables p ≤ loadOf tables q })

/-! ## Writing -/

inductive Via where
  | both | mac | arp

/-- `Sighting.via` -/
def Sighting.via (s : Sighting) : Via :=
  if s.ips ≠ [] ∧ s.ports ≠ [] then .both else if s.ports ≠ [] then .mac else .arp

/-- The fields of an endpoint that a sweep writes; a row without further addresses has an empty list of them. -/
structure NetworkEndpoint where
  ip : Option Str := none
  other_ips : List Str := []
  seen_by_asset_id : Option AssetId := none
  seen_if_index : Option Int := none
  seen_port : Option Str := none
  seen_vlan : Option Nat := none
  seen_via : Option Via := none
  matched_asset_id : Option AssetId := none

structure Asset where
  id : AssetId
  mac_address : Option Str
  ip_address : Option Str

structure AssetSnmpInterface where
  asset_id : AssetId
  if_index : Int
  if_name : Option Str
  if_descr : Option Str

structure Db where
  assets : List Asset
  interfaces : List AssetSnmpInterface
  /-- The endpoints by their MAC address -/
  endpoints : List (Str × NetworkEndpoint)

section
variable (normalizeMac : Str → Option Str) (db : Db)

/-- The first map of `_asset_maps` -/
def byMac : List (Str × AssetId) :=
  db.assets.foldl (fun out a =>
    match (a.mac_address.bind normalizeMac).filter (· ≠ []) with
    | some mac => setDefault out mac a.id
    | none => out) []

/-- The second map of `_asset_maps` -/
def byIp : List (Str × AssetId) :=
  db.assets.foldl (fun out a =>
    match a.ip_address.filter (· ≠ []) with
    | some ip => setDefault out (strip ip) a.id
    | none => out) []

/-- The asset that has an IP address -/
def assetAt (ip : Str) : Option AssetId := if ip = [] then none else Dict.get (byIp db) ip

/-- `match_asset` -/
def matchAsset (mac : Str) (row : NetworkEndpoint) (own_of : Option AssetId) : Option AssetId :=
  match Dict.get (byMac normalizeMac db) mac with
  | some asset => some asset
  | none => ((row.ip.toList ++ row.other_ips).findSome? (assetAt db)).or own_of

/-- `_port_names`: the names of the ports of some devices -/
def portName (assets : List AssetId) (asset : AssetId) (ifIndex : Option Int) : Option Str :=
  match ifIndex with
  | none => none
  | some index =>
    let rows := db.interfaces.filter fun r => r.asset_id ∈ assets && r.asset_id = asset && r.if_index = index
    rows.getLast?.map fun r =>
      ((r.if_name.filter (· ≠ [])).or (r.if_descr.filter (· ≠ []))).getD
        (lit "ifIndex " ++ (if index < 0 then ['-'] else []) ++ Nat.toDigits 10 index.natAbs)

/-- The addresses of a row that has been seen with some -/
def seenAt (ips : List Str) (row : NetworkEndpoint) : NetworkEndpoint :=
  match ips with
  | [] => row
  | ip :: rest =>
    { row with
      ip := some ip
      other_ips := (FirstBy.firstBy id [] ((rest ++ row.other_ips).filter (· ≠ ip))).take maxOtherIps }

/-- Where a sighting is: its first port, or else where its address was resolved -/
def Sighting.where' (s : Sighting) : Option Port :=
  match s.ports, s.arp_at with
  | port :: _, _ => some port
  | [], some at' => some (at'.1, at'.2, none)
  | [], none => none

/-- The location of a row that has been seen somewhere -/
def locate (assets : List AssetId) (place : Option Port) (row : NetworkEndpoint) : NetworkEndpoint :=
  match place with
  | none => row
  | some (asset, ifIndex, vlan) =>
    { row with
      seen_by_asset_id := some asset
      seen_if_index := ifIndex
      seen_vlan := vlan
      seen_port := portName db assets asset ifIndex }

/-- What `record` writes for one address -/
def written (assets : List AssetId) (mac : Str) (s : Sighting) (row : NetworkEndpoint) : NetworkEndpoint :=
  let row := seenAt s.ips row
  let row := locate db assets s.where' row
  let row := { row with seen_via := some s.via }
  { row with matched_asset_id := matchAsset normalizeMac db mac row s.own_of }

/-- The endpoints after `record`; one that was not seen may have become known meanwhile. -/
def record (tables : Tables) : List (Str × NetworkEndpoint) :=
  let sightings := merge tables
  let rows := sightings.foldl (fun rows e =>
    let row := (Dict.get rows e.1).getD {}
    Dict.set rows e.1 (written normalizeMac db (tables.map Prod.fst) e.1 e.2 row)) db.endpoints
  rows.map fun e =>
    if e.1 ∉ Dict.keys sightings ∧ e.2.matched_asset_id = none then
      (e.1, { e.2 with matched_asset_id := matchAsset normalizeMac db e.1 e.2 none })
    else e

end

/-! ## The sighting of one address -/

section
variable (mac : Str)

/-- The addresses that a device resolved to the MAC address -/
def ipsOf (d : Device) : List Str := (d.2.arp.filter fun e => e.mac = mac).map ArpEntry.ip

/-- Where a device resolved an address to it first -/
def arpOf (d : Device) : Option (AssetId × Option Int) :=
  (d.2.arp.find? fun e => e.mac = mac).map fun e => (d.1, e.ifIndex)

/-- The ports of a device on which it was learned -/
def portsOf (d : Device) : List Port :=
  (d.2.fdb.filter fun e => e.mac = mac).map fun e => (d.1, e.ifIndex, e.vlan)

/-- The device has it as its own. -/
def owns (d : Device) : Bool := mac ∈ d.2.ownMacs

/-- The device reports it. -/
def sees (d : Device) : Bool := owns mac d || (d.2.arp.any fun e => e.mac = mac) || d.2.fdb.any fun e => e.mac = mac

/-- A sighting after the tables of a device -/
def Sighting.with (s : Sighting) (d : Device) : Sighting where
  ips := s.ips ++ FirstBy.firstBy id s.ips (ipsOf mac d)
  arp_at := s.arp_at.or (arpOf mac d)
  ports := s.ports ++ portsOf mac d
  own_of := if owns mac d then some d.1 else s.own_of

end

theorem get_touch (out : List (Str × Sighting)) (mac other : Str) (change : Sighting → Sighting) :
    Dict.get (touch out mac change) other =
      if mac = other then some (change ((Dict.get out mac).getD {})) else Dict.get out other :=
  Dict.get_set _ _ _ _

section
variable {ε : Type} (key : ε → Str) (change : ε → Sighting → Sighting) (events : List ε)
  (out : List (Str × Sighting)) (mac : Str)

/-- What a run of changes does to the sighting of one address -/
theorem getD_foldl_touch :
    (Dict.get (events.foldl (fun out e => touch out (key e) (change e)) out) mac).getD {} =
      (events.filter fun e => key e = mac).foldl (fun s e => change e s) ((Dict.get out mac).getD {}) := by
  induction events generalizing out with
  | nil => rfl
  | cons e events ih =>
    rw [List.foldl_cons, ih, get_touch]
    by_cases he : key e = mac
    · simp [he]
    · simp [he]

theorem isSome_foldl_touch :
    (Dict.get (events.foldl (fun out e => touch out (key e) (change e)) out) mac).isSome =
      ((Dict.get out mac).isSome || events.any fun e => key e = mac) := by
  induction events generalizing out with
  | nil => simp
  | cons e events ih =>
    rw [List.foldl_cons, ih, get_touch]
    by_cases he : key e = mac
    · simp [he]
    · simp [he]

end

section
variable (mac : Str) (asset : AssetId) (s : Sighting)

theorem foldl_addOwn (macs : List Str) :
    (macs.filter fun m => m = mac).foldl (fun s _ => addOwn asset s) s =
      if mac ∈ macs then addOwn asset s else s := by
  have hmany (ms : List Str) : ∀ s, ms ≠ [] → ms.foldl (fun s _ => addOwn asset s) s = addOwn asset s := by
    induction ms with
    | nil => exact fun _ h => absurd rfl h
    | cons m ms ih =>
      intro s _
      rw [List.foldl_cons]
      by_cases hms : ms = []
      · rw [hms, List.foldl_nil]
      · rw [ih _ hms]
        rfl
  split
  · next hin =>
    exact hmany _ s (List.ne_nil_of_mem (List.mem_filter.mpr ⟨hin, by simp⟩))
  · next hout =>
    have hnone : macs.filter (fun m => m = mac) = [] := by
      rw [List.filter_eq_nil_iff]
      intro m hm hmac
      exact hout (of_decide_eq_true hmac ▸ hm)
    rw [hnone, List.foldl_nil]

theorem foldl_addArp (entries : List ArpEntry) : entries.foldl (fun s e => addArp asset e s) s =
    { s with
      ips := s.ips ++ FirstBy.firstBy id s.ips (entries.map ArpEntry.ip)
      arp_at := s.arp_at.or (entries.head?.map fun e => (asset, e.ifIndex)) } := by
  induction entries generalizing s with
  | nil => simp
  | cons e entries ih =>
    rw [List.foldl_cons, ih, List.map_cons, FirstBy.firstBy_cons]
    have hplace : (addArp asset e s).arp_at.or (entries.head?.map fun e => (asset, e.ifIndex)) =
        s.arp_at.or (some (asset, e.ifIndex)) := by
      cases h : s.arp_at <;> simp [addArp, h]
    rw [hplace]
    by_cases hin : e.ip ∈ s.ips
    · simp [addArp, hin]
    · have hseen : FirstBy.firstBy id (s.ips ++ [e.ip]) (entries.map ArpEntry.ip) =
          FirstBy.firstBy id (e.ip :: s.ips) (entries.map ArpEntry.ip) :=
        FirstBy.firstBy_congr fun a _ => by simp [or_comm]
      simp [addArp, hin, hseen]

theorem foldl_addFdb (entries : List FdbEntry) : entries.foldl (fun s e => addFdb asset e s) s =
    { s with ports := s.ports ++ entries.map fun e => (asset, e.ifIndex, e.vlan) } := by
  induction entries generalizing s with
  | nil => simp
  | cons e entries ih =>
    rw [List.foldl_cons, ih]
    simp [addFdb]

end

theorem getD_gather (out : List (Str × Sighting)) (d : Device) (mac : Str) :
    (Dict.get (gather out d) mac).getD {} = ((Dict.get out mac).getD {}).with mac d := by
  have hfdb := getD_foldl_touch FdbEntry.mac (addFdb d.1) d.2.fdb
  have harp := getD_foldl_touch ArpEntry.mac (addArp d.1) d.2.arp
  have hown := getD_foldl_touch id (fun _ => addOwn d.1) d.2.ownMacs
  simp only [id] at hown
  rw [gather, hfdb, harp, hown, foldl_addFdb, foldl_addArp, foldl_addOwn]
  unfold Sighting.with ipsOf arpOf portsOf owns
  rw [List.head?_filter]
  by_cases hin : mac ∈ d.2.ownMacs
  · simp [hin, addOwn]
  · simp [hin]

theorem isSome_gather (out : List (Str × Sighting)) (d : Device) (mac : Str) :
    (Dict.get (gather out d) mac).isSome = ((Dict.get out mac).isSome || sees mac d) := by
  have hfdb := isSome_foldl_touch FdbEntry.mac (addFdb d.1) d.2.fdb
  have harp := isSome_foldl_touch ArpEntry.mac (addArp d.1) d.2.arp
  have hown := isSome_foldl_touch id (fun _ => addOwn d.1) d.2.ownMacs
  simp only [id] at hown
  have hin : (d.2.ownMacs.any fun m => m = mac) = decide (mac ∈ d.2.ownMacs) := by
    rw [Bool.eq_iff_iff]
    simp
  rw [gather, hfdb, harp, hown, hin, sees, owns]
  simp only [Bool.or_assoc]

/-- The last device that has an address as its own -/
def lastOwner (mac : Str) (tables : Tables) : Option Device := (tables.filter (owns mac)).getLast?

/-- The sighting that the tables of all devices make -/
def sightingOf (mac : Str) (tables : Tables) : Sighting where
  ips := FirstBy.firstBy id [] (tables.flatMap (ipsOf mac))
  arp_at := tables.findSome? (arpOf mac)
  ports := tables.flatMap (portsOf mac)
  own_of := (lastOwner mac tables).map Prod.fst

theorem foldl_with (mac : Str) (tables : Tables) (s : Sighting) :
    tables.foldl (fun s d => s.with mac d) s =
      { ips := s.ips ++ FirstBy.firstBy id s.ips (tables.flatMap (ipsOf mac))
        arp_at := s.arp_at.or (tables.findSome? (arpOf mac))
        ports := s.ports ++ tables.flatMap (portsOf mac)
        own_of := ((lastOwner mac tables).map Prod.fst).or s.own_of } := by
  induction tables generalizing s with
  | nil => simp [lastOwner]
  | cons d tables ih =>
    have hips : FirstBy.firstBy id s.ips (ipsOf mac d ++ tables.flatMap (ipsOf mac)) =
        FirstBy.firstBy id s.ips (ipsOf mac d) ++
          FirstBy.firstBy id (s.ips ++ FirstBy.firstBy id s.ips (ipsOf mac d)) (tables.flatMap (ipsOf mac)) := by
      rw [FirstBy.firstBy_append, List.map_id]
    have harp : (d :: tables).findSome? (arpOf mac) = (arpOf mac d).or (tables.findSome? (arpOf mac)) := by
      rw [List.findSome?_cons]
      cases arpOf mac d <;> rfl
    have hown : (lastOwner mac (d :: tables)).map Prod.fst =
        ((lastOwner mac tables).map Prod.fst).or (if owns mac d then some d.1 else none) := by
      unfold lastOwner
      by_cases hd : owns mac d = true
      · rw [List.filter_cons_of_pos hd, List.getLast?_cons]
        cases (tables.filter (owns mac)).getLast? <;> simp [hd]
      · rw [List.filter_cons_of_neg hd]
        simp [hd]
    rw [List.foldl_cons, ih, List.flatMap_cons, List.flatMap_cons, hips, harp, hown]
    simp only [Sighting.with, List.append_assoc, Option.or_assoc]
    cases owns mac d <;> simp

theorem get_gathered (mac : Str) (tables : Tables) (out : List (Str × Sighting)) :
    (Dict.get (tables.foldl gather out) mac).getD {} =
        tables.foldl (fun s d => s.with mac d) ((Dict.get out mac).getD {}) ∧
      (Dict.get (tables.foldl gather out) mac).isSome = ((Dict.get out mac).isSome || tables.any (sees mac)) := by
  induction tables generalizing out with
  | nil => simp
  | cons d tables ih =>
    rw [List.foldl_cons, (ih _).1, (ih _).2, getD_gather, isSome_gather]
    simp [Bool.or_assoc]

/-- What `merge` does with a sighting in the end -/
def Sighting.sorted (tables : Tables) (s : Sighting) : Sighting :=
  { s with ports := s.ports.insertionSort fun p q => loadOf tables p ≤ loadOf tables q }

theorem get_merge (mac : Str) (tables : Tables) :
    Dict.get (merge tables) mac =
      if tables.any (sees mac) then some ((sightingOf mac tables).sorted tables) else none := by
  obtain ⟨hvalue, hsome⟩ := get_gathered mac tables []
  have hmap : Dict.get (merge tables) mac = (Dict.get (tables.foldl gather []) mac).map (Sighting.sorted tables) :=
    Dict.get_map (fun _ => Sighting.sorted tables) _ mac
  rw [hmap]
  rw [foldl_with] at hvalue
  cases hget : Dict.get (tables.foldl gather []) mac with
  | none =>
    have hnone : tables.any (sees mac) = false := by simpa [hget] using hsome.symm
    simp [hnone]
  | some s =>
    have hany : tables.any (sees mac) = true := by simpa [hget] using hsome.symm
    have hs : s = sightingOf mac tables := by
      rw [hget, Option.getD_some] at hvalue
      rw [hvalue]
      simp [sightingOf]
    simp [hany, hs]

theorem nodup_touch {ε : Type} (key : ε → Str) (change : ε → Sighting → Sighting) (events : List ε)
    {out : List (Str × Sighting)} (h : (Dict.keys out).Nodup) :
    (Dict.keys (events.foldl (fun out e => touch out (key e) (change e)) out)).Nodup := by
  induction events generalizing out with
  | nil => exact h
  | cons e events ih => exact ih (Dict.nodup_set _ _ _ h)

theorem nodup_merge (tables : Tables) : (Dict.keys (merge tables)).Nodup := by
  have hgather : ∀ out, (Dict.keys out).Nodup → (Dict.keys (tables.foldl gather out)).Nodup := by
    induction tables with
    | nil => exact fun _ h => h
    | cons d tables ih =>
      intro out h
      exact ih _ (nodup_touch FdbEntry.mac (addFdb d.1) _ (nodup_touch ArpEntry.mac (addArp d.1) _
        (nodup_touch id (fun _ => addOwn d.1) _ h)))
  have hkeys : Dict.keys (merge tables) = Dict.keys (tables.foldl gather []) := by simp [merge, Dict.keys]
  rw [hkeys]
  exact hgather [] (by simp)

/-! ## The endpoint of one address -/

theorem get_foldl_set {β : Type} (f : Str → Sighting → Option β → β) (sightings : List (Str × Sighting))
    (h : (Dict.keys sightings).Nodup) (rows : List (Str × β)) (mac : Str) :
    Dict.get (sightings.foldl (fun rows e => Dict.set rows e.1 (f e.1 e.2 (Dict.get rows e.1))) rows) mac =
      match Dict.get sightings mac with
      | some s => some (f mac s (Dict.get rows mac))
      | none => Dict.get rows mac := by
  induction sightings generalizing rows with
  | nil => rfl
  | cons e sightings ih =>
    obtain ⟨key, s⟩ := e
    rw [Dict.keys_cons, List.nodup_cons] at h
    rw [List.foldl_cons, ih h.2, Dict.get_set, Dict.get_cons]
    by_cases hkey : key = mac
    · have hnone : Dict.get sightings mac = none := (Dict.get_eq_none _ _).mpr (hkey ▸ h.1)
      simp [hkey, hnone]
    · simp [hkey]

section
variable (normalizeMac : Str → Option Str) (db : Db)

/-- What `record` does with the endpoint of an address that was not seen -/
def rematched (mac : Str) (row : NetworkEndpoint) : NetworkEndpoint :=
  if row.matched_asset_id = none then { row with matched_asset_id := matchAsset normalizeMac db mac row none } else row

/-- The endpoint of an address that is seen comes from its sighting, and another one stays where it is. -/
theorem get_record (tables : Tables) (mac : Str) :
    Dict.get (record normalizeMac db tables) mac =
      if tables.any (sees mac) then
        some (written normalizeMac db (tables.map Prod.fst) mac ((sightingOf mac tables).sorted tables)
          ((Dict.get db.endpoints mac).getD {}))
      else (Dict.get db.endpoints mac).map (rematched normalizeMac db mac) := by
  have hrows := get_foldl_set
    (fun mac s row => written normalizeMac db (tables.map Prod.fst) mac s (row.getD {})) (merge tables)
    (nodup_merge tables) db.endpoints mac
  have hseen : mac ∈ Dict.keys (merge tables) ↔ tables.any (sees mac) = true := by
    have hnone := Dict.get_eq_none (merge tables) mac
    rw [get_merge] at hnone
    cases hany : tables.any (sees mac) with
    | true => simpa [hany] using hnone
    | false => simpa [hany] using hnone
  have hmap : record normalizeMac db tables =
      ((merge tables).foldl (fun rows e =>
        let row := (Dict.get rows e.1).getD {}
        Dict.set rows e.1 (written normalizeMac db (tables.map Prod.fst) e.1 e.2 row)) db.endpoints).map fun e =>
        (e.1, if e.1 ∉ Dict.keys (merge tables) then rematched normalizeMac db e.1 e.2 else e.2) := by
    unfold record
    refine List.map_congr_left fun e _ => ?_
    unfold rematched
    by_cases hin : e.1 ∈ Dict.keys (merge tables)
    · simp [hin]
    · by_cases hnone : e.2.matched_asset_id = none
      · simp [hin, hnone]
      · simp [hin, hnone]
  rw [hmap, Dict.get_map fun mac row =>
    if mac ∉ Dict.keys (merge tables) then rematched normalizeMac db mac row else row, hrows, get_merge]
  cases hany : tables.any (sees mac) with
  | true =>
    have hin : mac ∈ Dict.keys (merge tables) := hseen.mpr hany
    simp [hin]
  | false =>
    have hout : mac ∉ Dict.keys (merge tables) := fun h => by simp [hseen.mp h] at hany
    simp [hout]

end

end Endpoints
