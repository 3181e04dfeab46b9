import Ngcorion.Noc.Endpoints

/-!
# Who answers first

Devices answer in any order, and the place, the address and the owner of a MAC address are taken from the first
or the last device that says something. They are the same in every order exactly when no two devices say
different things first, no two owners are possible, and the port with the fewest rows of a table is the one with the
fewest addresses.
-/
namespace Whereabouts

open Text AddressTables Endpoints Reordering

section
variable (normalizeMac : Str → Option Str) (db : Db)

/-! ## The property -/

/-- What is said of an address: its IP address, the device, the interface with its name, the VLAN and the asset -/
structure Spot where
  ip : Option Str
  device : Option AssetId
  ifIndex : Option Int
  port : Option Str
  vlan : Option Nat
  asset : Option AssetId

def spot (row : NetworkEndpoint) : Spot :=
  ⟨row.ip, row.seen_by_asset_id, row.seen_if_index, row.seen_port, row.seen_vlan, row.matched_asset_id⟩

/-- The addresses that the rows of a port list -/
def listed (tables : Tables) (port : AssetId × Option Int) : List Str :=
  tables.flatMap fun d => (d.2.fdb.filter fun e => (d.1, e.ifIndex) = port).map FdbEntry.mac

/-- The number of different addresses on a port -/
def macsOn (tables : Tables) (port : AssetId × Option Int) : Nat := (listed tables port).toFinset.card

/-- The endpoint is on a port with the fewest addresses of those that list its own. -/
def OnEdge (tables : Tables) (mac : Str) (row : NetworkEndpoint) : Prop :=
  ∃ device, row.seen_by_asset_id = some device ∧ mac ∈ listed tables (device, row.seen_if_index) ∧
    ∀ port, mac ∈ listed tables port → macsOn tables (device, row.seen_if_index) ≤ macsOn tables port

/-- Whoever answers first, the same is said of every address, and an address of a MAC table is on its edge port. -/
def Settled (tables : Tables) : Prop :=
  (∀ σ τ : Tables, σ.Perm tables → τ.Perm tables → ∀ mac,
    (Dict.get (record normalizeMac db σ) mac).map spot = (Dict.get (record normalizeMac db τ) mac).map spot) ∧
  ∀ σ : Tables, σ.Perm tables → ∀ mac, (∃ d ∈ tables, portsOf mac d ≠ []) →
    ∃ row, Dict.get (record normalizeMac db σ) mac = some row ∧ OnEdge tables mac row

/-! ## The condition -/

section
variable (tables : Tables) (mac : Str)

/-- The first port of a device with the address that has the fewest rows of all its ports -/
def edgePort (d : Device) : Option Port :=
  (portsOf mac d).find? fun p => (tables.flatMap (portsOf mac)).all fun q =>
    (listed tables (p.1, p.2.1)).length ≤ (listed tables (q.1, q.2.1)).length

/-- The asset of the first address that a device resolved and that is one of an asset -/
def knownBy (d : Device) : Option AssetId := (ipsOf mac d).findSome? (assetAt db)

/-- There is room for one more behind these addresses. -/
def Room (ips : List Str) : Prop := ips.toFinset.card ≤ maxOtherIps

instance (ips : List Str) : Decidable (Room ips) := Nat.decLe _ _

/-- The asset that a stored address gives when none that is seen is one of an asset -/
def storedOwner (row : NetworkEndpoint) : Option AssetId :=
  if tables.flatMap (ipsOf mac) = [] then (row.ip.toList ++ row.other_ips).findSome? (assetAt db)
  else if Room (tables.flatMap (ipsOf mac) ++ before (assetAt db) row.other_ips) then
    row.other_ips.findSome? (assetAt db)
  else none

/-- The assets to which an address can be matched by what the devices say -/
inductive Candidate (row : NetworkEndpoint) : Option AssetId → Prop where
  /-- The device answers first. -/
  | known {d : Device} {asset : AssetId} (hd : d ∈ tables) (hknown : knownBy db mac d = some asset)
      (hroom : Room (before (assetAt db) (ipsOf mac d))) : Candidate row (some asset)
  | stored {asset : AssetId} (hnone : ∀ d ∈ tables, knownBy db mac d = none)
      (hstored : storedOwner db tables mac row = some asset) : Candidate row (some asset)
  | unknown {d : Option Device} (hnone : ∀ d ∈ tables, knownBy db mac d = none)
      (hstored : storedOwner db tables mac row = none) (hlast : HeardLast (owns mac) [tables] d) :
      Candidate row (d.map Prod.fst)
  /-- The addresses of the devices before leave no room for the known one. -/
  | crowded {front rest : Tables} {d : Device} {last : Option Device} (hsplit : (front ++ d :: rest).Perm tables)
      (hfront : ∀ e ∈ front, knownBy db mac e = none) (hknown : knownBy db mac d ≠ none)
      (hcrowd : ¬ Room (front.flatMap (ipsOf mac) ++ before (assetAt db) (ipsOf mac d)))
      (hlast : HeardLast (owns mac) [rest, [d], front] last) : Candidate row (last.map Prod.fst)

/-- No two devices differ in what counts when they come first. -/
structure Fixed : Prop where
  address : ∀ d ∈ tables, ∀ e ∈ tables, ∀ x y, (ipsOf mac d).head? = some x → (ipsOf mac e).head? = some y → x = y
  place : if ∃ d ∈ tables, portsOf mac d ≠ []
    then ∀ d ∈ tables, ∀ e ∈ tables, ∀ x y, edgePort tables mac d = some x → edgePort tables mac e = some y → x = y
    else ∀ d ∈ tables, ∀ e ∈ tables, ∀ x y, arpOf mac d = some x → arpOf mac e = some y → x = y
  owner : mac ∈ Dict.keys (byMac normalizeMac db) ∨
    ∀ x y, Candidate db tables mac ((Dict.get db.endpoints mac).getD {}) x →
      Candidate db tables mac ((Dict.get db.endpoints mac).getD {}) y → x = y
  edge : ∀ d ∈ tables, ∀ p, edgePort tables mac d = some p → ∀ port, mac ∈ listed tables port →
    macsOn tables (p.1, p.2.1) ≤ macsOn tables port

end
end

/-! ## Tables in another order -/

section
variable {σ tables : Tables} (hσ : σ.Perm tables)
include hσ

theorem perm_any (mac : Str) : σ.any (sees mac) = tables.any (sees mac) := hσ.any_eq

theorem listed_perm (port : AssetId × Option Int) : (listed σ port).Perm (listed tables port) := hσ.flatMap_right _

theorem mem_assets_perm (asset : AssetId) : asset ∈ σ.map Prod.fst ↔ asset ∈ tables.map Prod.fst :=
  (hσ.map Prod.fst).mem_iff

theorem portName_perm (db : Db) (asset : AssetId) (ifIndex : Option Int) :
    portName db (σ.map Prod.fst) asset ifIndex = portName db (tables.map Prod.fst) asset ifIndex := by
  have hmem (r : AssetSnmpInterface) : (r.asset_id ∈ σ.map Prod.fst) = (r.asset_id ∈ tables.map Prod.fst) :=
    propext (mem_assets_perm hσ r.asset_id)
  cases ifIndex with
  | none => rfl
  | some index => simp only [portName, hmem]

end

/-- The load of a port is the number of its rows. -/
theorem loadOf_eq (tables : Tables) (p : Port) : loadOf tables p = (listed tables (p.1, p.2.1)).length := by
  have hdevice : ∀ (d : Device) (entries : List FdbEntry) (load : List ((AssetId × Option Int) × Nat))
      (port : AssetId × Option Int), (Dict.get (entries.foldl (fun load e =>
        Dict.set load (d.1, e.ifIndex) ((Dict.get load (d.1, e.ifIndex)).getD 0 + 1)) load) port).getD 0 =
        (Dict.get load port).getD 0 + (entries.filter fun e => (d.1, e.ifIndex) = port).length := by
    intro d entries
    induction entries with
    | nil => simp
    | cons e entries ih =>
      intro load port
      rw [List.foldl_cons, ih, Dict.get_set]
      by_cases he : (d.1, e.ifIndex) = port
      · simp [he]
        omega
      · simp [he]
  have hall : ∀ (load : List ((AssetId × Option Int) × Nat)) (port : AssetId × Option Int),
      (Dict.get (tables.foldl (fun load d => d.2.fdb.foldl (fun load e =>
        Dict.set load (d.1, e.ifIndex) ((Dict.get load (d.1, e.ifIndex)).getD 0 + 1)) load) load) port).getD 0 =
        (Dict.get load port).getD 0 + (listed tables port).length := by
    induction tables with
    | nil => simp [listed]
    | cons d tables ih =>
      intro load port
      rw [List.foldl_cons, ih, hdevice]
      simp [listed]
      omega
  have h := hall [] (p.1, p.2.1)
  simpa [loadOf, portLoad] using h

/-! ## What is said in one order -/

theorem where_eq (s : Sighting) : s.where' = s.ports.head?.or (s.arp_at.map fun at' => (at'.1, at'.2, none)) := by
  unfold Sighting.where'
  cases hports : s.ports with
  | cons port ports => simp
  | nil => cases s.arp_at <;> simp

/-- The place of an address in some order -/
def place (tables σ : Tables) (mac : Str) : Option Port :=
  (σ.findSome? (edgePort tables mac)).or ((σ.findSome? (arpOf mac)).map fun at' => (at'.1, at'.2, none))

theorem head_ports {σ tables : Tables} (hσ : σ.Perm tables) (mac : Str) :
    ((sightingOf mac σ).sorted σ).ports.head? = σ.findSome? (edgePort tables mac) := by
  have hload (p : Port) : loadOf σ p = (listed tables (p.1, p.2.1)).length := by
    rw [loadOf_eq, (listed_perm hσ _).length_eq]
  have hall (P : Port → Bool) : (σ.flatMap (portsOf mac)).all P = (tables.flatMap (portsOf mac)).all P :=
    (hσ.flatMap_right _).all_eq
  simp only [Sighting.sorted, sightingOf, StableSort.head_insertionSort, hload, hall]
  exact List.find?_flatMap

theorem place_eq {σ tables : Tables} (hσ : σ.Perm tables) (mac : Str) :
    ((sightingOf mac σ).sorted σ).where' = place tables σ mac := by
  rw [where_eq, head_ports hσ]
  rfl

/-- The IP address that is heard first -/
def firstIp (mac : Str) (σ : Tables) : Option Str := σ.findSome? fun d => (ipsOf mac d).head?

theorem head_firstBy (l : List Str) : (FirstBy.firstBy id [] l).head? = l.head? := by
  cases l <;> simp [FirstBy.firstBy_cons]

theorem seenAt_ip (l : List Str) (row : NetworkEndpoint) :
    (seenAt (FirstBy.firstBy id [] l) row).ip = l.head?.or row.ip := by
  rw [← head_firstBy]
  cases FirstBy.firstBy id [] l <;> simp [seenAt]

/-- Addresses leave the location as it is. -/
theorem seenAt_location (ips : List Str) (row : NetworkEndpoint) :
    (seenAt ips row).seen_by_asset_id = row.seen_by_asset_id ∧ (seenAt ips row).seen_if_index = row.seen_if_index ∧
      (seenAt ips row).seen_port = row.seen_port ∧ (seenAt ips row).seen_vlan = row.seen_vlan := by
  cases ips <;> simp [seenAt]

/-- The asset of the addresses that a row has after a sweep -/
def look (db : Db) (mac : Str) (σ : Tables) (row : NetworkEndpoint) : Option AssetId :=
  let row := seenAt (FirstBy.firstBy id [] (σ.flatMap (ipsOf mac))) row
  (row.ip.toList ++ row.other_ips).findSome? (assetAt db)

section
variable (normalizeMac : Str → Option Str) (db : Db)

/-- The asset to which an address is matched in some order -/
def match' (mac : Str) (σ : Tables) (row : NetworkEndpoint) : Option AssetId :=
  (Dict.get (byMac normalizeMac db) mac).or ((look db mac σ row).or ((lastOwner mac σ).map Prod.fst))

theorem matchAsset_locate (assets : List AssetId) (at' : Option Port) (mac : Str) (row : NetworkEndpoint)
    (via : Option Via) (own : Option AssetId) :
    matchAsset normalizeMac db mac { locate db assets at' row with seen_via := via } own =
      (Dict.get (byMac normalizeMac db) mac).or
        (((row.ip.toList ++ row.other_ips).findSome? (assetAt db)).or own) := by
  unfold matchAsset
  cases Dict.get (byMac normalizeMac db) mac <;> cases at' <;> simp [locate]

theorem spot_record {σ tables : Tables} (hσ : σ.Perm tables) {mac : Str} (hseen : tables.any (sees mac) = true) :
    (Dict.get (record normalizeMac db σ) mac).map spot =
      let row := (Dict.get db.endpoints mac).getD {}
      some
        { ip := (firstIp mac σ).or row.ip
          device := ((place tables σ mac).map fun p => some p.1).getD row.seen_by_asset_id
          ifIndex := ((place tables σ mac).map fun p => p.2.1).getD row.seen_if_index
          port := ((place tables σ mac).map fun p => portName db (tables.map Prod.fst) p.1 p.2.1).getD row.seen_port
          vlan := ((place tables σ mac).map fun p => p.2.2).getD row.seen_vlan
          asset := match' normalizeMac db mac σ row } := by
  have hany : σ.any (sees mac) = true := by rw [perm_any hσ, hseen]
  obtain ⟨hby, hif, hport, hvlan⟩ :=
    seenAt_location (FirstBy.firstBy id [] (σ.flatMap (ipsOf mac))) ((Dict.get db.endpoints mac).getD {})
  have hip := seenAt_ip (σ.flatMap (ipsOf mac)) ((Dict.get db.endpoints mac).getD {})
  rw [List.head?_flatMap] at hip
  rw [get_record, hany]
  simp only [if_true, Option.map_some, Option.some.injEq, written, place_eq hσ, spot, matchAsset_locate, match', look]
  cases place tables σ mac with
  | none => simp [locate, sightingOf, Sighting.sorted, hip, firstIp, hby, hif, hport, hvlan]
  | some p => simp [locate, sightingOf, Sighting.sorted, hip, firstIp, portName_perm hσ]

end

/-! ## The asset of the addresses -/

/-- The addresses of a row after a sweep are the first different ones, those of the devices before the stored ones. -/
theorem seenAt_window {l : List Str} (hl : l ≠ []) (row : NetworkEndpoint) :
    (seenAt (FirstBy.firstBy id [] l) row).ip.toList ++ (seenAt (FirstBy.firstBy id [] l) row).other_ips =
      (FirstBy.firstBy id [] (l ++ row.other_ips)).take (maxOtherIps + 1) := by
  obtain ⟨w, ws, rfl⟩ := List.exists_cons_of_ne_nil hl
  have hfirst (t : List Str) : FirstBy.firstBy id [] (w :: t) = w :: FirstBy.firstBy id [w] t := by
    simp [FirstBy.firstBy_cons]
  have hrest : FirstBy.firstBy id [] ((FirstBy.firstBy id [w] ws ++ row.other_ips).filter (· ≠ w)) =
      FirstBy.firstBy id [w] (ws ++ row.other_ips) := by
    have hseen := @FirstBy.firstBy_seen Str Str _ id w [] (FirstBy.firstBy id [w] ws ++ row.other_ips)
    simp only [id] at hseen
    rw [← hseen, FirstBy.firstBy_append, FirstBy.firstBy_append, FirstBy.firstBy_idem]
  simp only [hfirst, List.cons_append, seenAt, hrest, Option.toList_some, List.nil_append, List.take_succ_cons]

section
variable (db : Db) (mac : Str)

theorem look_eq (σ : Tables) (row : NetworkEndpoint) :
    look db mac σ row =
      if σ.flatMap (ipsOf mac) = [] then (row.ip.toList ++ row.other_ips).findSome? (assetAt db)
      else if Room (before (assetAt db) (σ.flatMap (ipsOf mac) ++ row.other_ips)) then
        (σ.flatMap (ipsOf mac) ++ row.other_ips).findSome? (assetAt db)
      else none := by
  unfold look
  by_cases hnone : σ.flatMap (ipsOf mac) = []
  · simp [hnone, seenAt]
  · simp only [if_neg hnone, seenAt_window hnone, findSome_take_firstBy, Room, Nat.lt_succ_iff]

theorem unknown_flatMap {tables : Tables} (h : ∀ d ∈ tables, knownBy db mac d = none) :
    ∀ ip ∈ tables.flatMap (ipsOf mac), assetAt db ip = none := by
  intro ip hip
  obtain ⟨d, hd, hip⟩ := List.mem_flatMap.mp hip
  exact List.findSome?_eq_none_iff.mp (h d hd) ip hip

/-- When no device lists an address of an asset, only the stored ones give one. -/
theorem look_unknown {σ tables : Tables} (hσ : σ.Perm tables) (row : NetworkEndpoint)
    (h : ∀ d ∈ tables, knownBy db mac d = none) : look db mac σ row = storedOwner db tables mac row := by
  have hunknown := unknown_flatMap db mac fun d hd => h d (hσ.subset hd)
  have hips := hσ.flatMap_right (ipsOf mac)
  have hnil : σ.flatMap (ipsOf mac) = [] ↔ tables.flatMap (ipsOf mac) = [] := by
    rw [← List.length_eq_zero_iff, ← List.length_eq_zero_iff, hips.length_eq]
  have hroom : Room (σ.flatMap (ipsOf mac) ++ before (assetAt db) row.other_ips) ↔
      Room (tables.flatMap (ipsOf mac) ++ before (assetAt db) row.other_ips) := by
    unfold Room
    rw [List.toFinset_eq_of_perm _ _ (hips.append_right _)]
  have hrest : (σ.flatMap (ipsOf mac) ++ row.other_ips).findSome? (assetAt db) =
      row.other_ips.findSome? (assetAt db) := by
    rw [List.findSome?_append, List.findSome?_eq_none_iff.mpr hunknown, Option.none_or]
  rw [look_eq, before_append_of_unknown _ hunknown, hrest, storedOwner]
  simp only [hnil, hroom]

/-- Otherwise the first device that lists one counts, if the devices before it leave room. -/
theorem look_known {front rest : Tables} {d : Device} {asset : AssetId} (row : NetworkEndpoint)
    (hfront : ∀ e ∈ front, knownBy db mac e = none) (hknown : knownBy db mac d = some asset) :
    look db mac (front ++ d :: rest) row =
      if Room (front.flatMap (ipsOf mac) ++ before (assetAt db) (ipsOf mac d)) then some asset else none := by
  have hunknown := unknown_flatMap db mac hfront
  have hsome : ((ipsOf mac d).findSome? (assetAt db)).isSome = true := by
    rw [← knownBy, hknown]
    rfl
  have hips : (front ++ d :: rest).flatMap (ipsOf mac) ++ row.other_ips =
      front.flatMap (ipsOf mac) ++ (ipsOf mac d ++ (rest.flatMap (ipsOf mac) ++ row.other_ips)) := by simp
  have hne : (front ++ d :: rest).flatMap (ipsOf mac) ≠ [] := by
    intro hnil
    have hd : ipsOf mac d = [] := List.flatMap_eq_nil_iff.mp hnil d (by simp)
    simp [hd] at hsome
  have hfound : (ipsOf mac d).findSome? (assetAt db) = some asset := hknown
  rw [look_eq, if_neg hne, hips, before_append_of_unknown _ hunknown, before_append_of_known _ hsome,
    List.findSome?_append, List.findSome?_eq_none_iff.mpr hunknown, List.findSome?_append, hfound]
  rfl

/-! ## The possible matches -/

theorem first_known {σ : Tables} (h : ¬ ∀ d ∈ σ, knownBy db mac d = none) :
    ∃ front d rest asset, σ = front ++ d :: rest ∧ (∀ e ∈ front, knownBy db mac e = none) ∧
      knownBy db mac d = some asset := by
  cases hfind : σ.findSome? (knownBy db mac) with
  | none => exact absurd (List.findSome?_eq_none_iff.mp hfind) h
  | some asset =>
    obtain ⟨front, d, rest, hsplit, hknown, hfront⟩ := List.findSome?_eq_some_iff.mp hfind
    exact ⟨front, d, rest, asset, hsplit, hfront, hknown⟩

theorem Room.of_subset {a b : List Str} (hb : Room b) (h : a ⊆ b) : Room a :=
  (Finset.card_le_card fun _ hx => List.mem_toFinset.mpr (h (List.mem_toFinset.mp hx))).trans hb

/-- The candidates are what an address is matched to in some order. -/
theorem candidate_iff (tables : Tables) (row : NetworkEndpoint) (x : Option AssetId) :
    Candidate db tables mac row x ↔
      ∃ σ : Tables, σ.Perm tables ∧ (look db mac σ row).or ((lastOwner mac σ).map Prod.fst) = x := by
  constructor
  · intro h
    cases h with
    | @known d asset hd hknown hroom =>
      obtain ⟨rest, hperm⟩ := perm_first hd
      refine ⟨d :: rest, hperm, ?_⟩
      have hlook := @look_known db mac [] rest d asset row (by simp) hknown
      simp only [List.nil_append, List.flatMap_nil] at hlook
      rw [hlook, if_pos hroom]
      rfl
    | @stored asset hnone hstored =>
      refine ⟨tables, .refl _, ?_⟩
      rw [look_unknown db mac (.refl _) row hnone, hstored]
      rfl
    | @unknown d hnone hstored hlast =>
      obtain ⟨groups, hperm, hlast⟩ := last_of_heardLast hlast
      obtain ⟨σ, hσ, rfl⟩ : ∃ σ : Tables, σ.Perm tables ∧ groups = [σ] := by
        cases hperm with
        | cons hσ hnil =>
          cases hnil
          exact ⟨_, hσ, rfl⟩
      refine ⟨σ, hσ, ?_⟩
      rw [look_unknown db mac hσ row hnone, hstored]
      have hown : lastOwner mac σ = d := by simpa [lastOwner] using hlast
      rw [hown]
      rfl
    | @crowded front rest d last hsplit hfront hknown hcrowd hlast =>
      obtain ⟨asset, hknown⟩ := Option.ne_none_iff_exists'.mp hknown
      obtain ⟨groups, hperm, hlast⟩ := last_of_heardLast hlast
      obtain ⟨rest', front', hrest, hfront', rfl⟩ : ∃ rest' front' : Tables, rest'.Perm rest ∧ front'.Perm front ∧
          groups = [rest', [d], front'] := by
        cases hperm with
        | cons hrest hperm =>
          cases hperm with
          | cons hd hperm =>
            cases hperm with
            | cons hfront hnil =>
              cases hnil
              exact ⟨_, _, hrest, hfront, by rw [List.perm_singleton.mp hd]⟩
      refine ⟨front' ++ d :: rest', (hfront'.append (hrest.cons d)).trans hsplit, ?_⟩
      have hcrowd' : ¬ Room (front'.flatMap (ipsOf mac) ++ before (assetAt db) (ipsOf mac d)) := fun hroom =>
        hcrowd (hroom.of_subset ((hfront'.flatMap_right _).append_right _).symm.subset)
      rw [look_known db mac row (fun e he => hfront e (hfront'.subset he)) hknown, if_neg hcrowd']
      have hown : lastOwner mac (front' ++ d :: rest') = last := by simpa [lastOwner] using hlast
      rw [hown]
      rfl
  · rintro ⟨σ, hσ, rfl⟩
    by_cases hnone : ∀ d ∈ tables, knownBy db mac d = none
    · rw [look_unknown db mac hσ row hnone]
      cases hstored : storedOwner db tables mac row with
      | some asset => exact .stored hnone hstored
      | none =>
        refine .unknown hnone hstored ?_
        have hlast := heardLast_of_last (owns mac) [σ]
        simpa only [HeardLast, hσ.mem_iff, List.reverse_singleton, List.flatten_singleton,
          lastOwner] using hlast
    · obtain ⟨front, d, rest, asset, rfl, hfront, hknown⟩ :=
        first_known db mac fun h => hnone fun d hd => h d (hσ.symm.subset hd)
      rw [look_known db mac row hfront hknown]
      split
      · next hroom =>
        exact .known (hσ.subset (by simp)) hknown (hroom.of_subset (List.subset_append_right _ _))
      · next hcrowd =>
        refine .crowded hσ hfront (by simp [hknown]) hcrowd ?_
        have hlast := heardLast_of_last (owns mac) [rest, [d], front]
        simpa [lastOwner] using hlast

end

/-! ## When nothing depends on the order -/

section
variable {tables : Tables} {mac : Str}

theorem isSome_edgePort {σ : Tables} (hσ : σ.Perm tables) (h : ∃ d ∈ tables, portsOf mac d ≠ []) :
    (σ.findSome? (edgePort tables mac)).isSome = true := by
  obtain ⟨d, hd, hports⟩ := h
  obtain ⟨p, hp⟩ := List.exists_mem_of_ne_nil _ hports
  have hin : p ∈ ((sightingOf mac σ).sorted σ).ports :=
    (List.perm_insertionSort _ _).symm.subset (List.mem_flatMap.mpr ⟨d, hσ.symm.subset hd, hp⟩)
  rw [← head_ports hσ]
  exact List.isSome_head?.mpr (List.ne_nil_of_mem hin)

/-- The place is where an address was learned, if it was learned anywhere. -/
theorem place_of_ports {σ : Tables} (hσ : σ.Perm tables) (h : ∃ d ∈ tables, portsOf mac d ≠ []) :
    place tables σ mac = σ.findSome? (edgePort tables mac) := by
  obtain ⟨p, hp⟩ := Option.isSome_iff_exists.mp (isSome_edgePort hσ h)
  rw [place, hp]
  rfl

theorem place_of_arp {σ : Tables} (hσ : σ.Perm tables) (h : ¬ ∃ d ∈ tables, portsOf mac d ≠ []) :
    place tables σ mac = (σ.findSome? (arpOf mac)).map fun at' => (at'.1, at'.2, none) := by
  have hnone : σ.findSome? (edgePort tables mac) = none := by
    rw [List.findSome?_eq_none_iff]
    intro d hd
    have hports : portsOf mac d = [] := by
      by_contra hne
      exact h ⟨d, hσ.subset hd, hne⟩
    rw [edgePort, hports, List.find?_nil]
  rw [place, hnone]
  rfl

theorem place_stable : (∀ σ τ : Tables, σ.Perm tables → τ.Perm tables → place tables σ mac = place tables τ mac) ↔
    if ∃ d ∈ tables, portsOf mac d ≠ []
    then ∀ d ∈ tables, ∀ e ∈ tables, ∀ x y, edgePort tables mac d = some x → edgePort tables mac e = some y → x = y
    else ∀ d ∈ tables, ∀ e ∈ tables, ∀ x y, arpOf mac d = some x → arpOf mac e = some y → x = y := by
  split
  · next hports =>
    rw [← findSome_stable]
    constructor
    · intro h σ τ hσ hτ
      rw [← place_of_ports hσ hports, ← place_of_ports hτ hports, h σ τ hσ hτ]
    · intro h σ τ hσ hτ
      rw [place_of_ports hσ hports, place_of_ports hτ hports, h σ τ hσ hτ]
  · next hports =>
    have hinj : Function.Injective fun at' : AssetId × Option Int => ((at'.1, at'.2, none) : Port) := by
      rintro ⟨a, b⟩ ⟨c, d⟩ heq
      simpa using heq
    rw [← findSome_stable]
    constructor
    · intro h σ τ hσ hτ
      have heq := h σ τ hσ hτ
      rw [place_of_arp hσ hports, place_of_arp hτ hports] at heq
      exact Option.map_injective hinj heq
    · intro h σ τ hσ hτ
      rw [place_of_arp hσ hports, place_of_arp hτ hports, h σ τ hσ hτ]

theorem isSome_place {σ τ : Tables} (hσ : σ.Perm tables) (hτ : τ.Perm tables) :
    (place tables σ mac).isSome = (place tables τ mac).isSome := by
  simp only [place, Option.isSome_or, Option.isSome_map, isSome_findSome_perm _ (hσ.trans hτ.symm)]

end

section
variable (normalizeMac : Str → Option Str) (db : Db) {tables : Tables} {mac : Str}

theorem owner_stable (row : NetworkEndpoint) :
    (∀ σ τ : Tables, σ.Perm tables → τ.Perm tables →
      match' normalizeMac db mac σ row = match' normalizeMac db mac τ row) ↔
      mac ∈ Dict.keys (byMac normalizeMac db) ∨
        ∀ x y, Candidate db tables mac row x → Candidate db tables mac row y → x = y := by
  have hkey := Dict.get_eq_none (byMac normalizeMac db) mac
  unfold match'
  cases hmac : Dict.get (byMac normalizeMac db) mac with
  | some asset =>
    rw [hmac] at hkey
    exact iff_of_true (fun _ _ _ _ => rfl) (Or.inl (by simpa using hkey))
  | none =>
    rw [hmac] at hkey
    have hout : mac ∉ Dict.keys (byMac normalizeMac db) := by simpa using hkey
    simp only [Option.none_or, hout, false_or]
    constructor
    · intro h x y hx hy
      obtain ⟨σ, hσ, rfl⟩ := (candidate_iff db mac tables row x).mp hx
      obtain ⟨τ, hτ, rfl⟩ := (candidate_iff db mac tables row y).mp hy
      exact h σ τ hσ hτ
    · intro h σ τ hσ hτ
      exact h _ _ ((candidate_iff db mac tables row _).mpr ⟨σ, hσ, rfl⟩)
        ((candidate_iff db mac tables row _).mpr ⟨τ, hτ, rfl⟩)

/-- The same is said of an address in every order when its IP address, its place and its asset are fixed. -/
theorem spot_stable (hseen : tables.any (sees mac) = true) :
    (∀ σ τ : Tables, σ.Perm tables → τ.Perm tables →
      (Dict.get (record normalizeMac db σ) mac).map spot = (Dict.get (record normalizeMac db τ) mac).map spot) ↔
    (∀ σ τ : Tables, σ.Perm tables → τ.Perm tables → firstIp mac σ = firstIp mac τ) ∧
    (∀ σ τ : Tables, σ.Perm tables → τ.Perm tables → place tables σ mac = place tables τ mac) ∧
    ∀ σ τ : Tables, σ.Perm tables → τ.Perm tables →
      match' normalizeMac db mac σ ((Dict.get db.endpoints mac).getD {}) =
        match' normalizeMac db mac τ ((Dict.get db.endpoints mac).getD {}) := by
  constructor
  · intro h
    have hspot : ∀ σ τ : Tables, σ.Perm tables → τ.Perm tables → _ := fun σ τ hσ hτ => by
      have heq := h σ τ hσ hτ
      rw [spot_record normalizeMac db hσ hseen, spot_record normalizeMac db hτ hseen] at heq
      exact Spot.mk.inj (Option.some.inj heq)
    refine ⟨fun σ τ hσ hτ => ?_, fun σ τ hσ hτ => ?_, fun σ τ hσ hτ => (hspot σ τ hσ hτ).2.2.2.2.2⟩
    · have hip := (hspot σ τ hσ hτ).1
      rcases none_or_some (isSome_findSome_perm (fun d => (ipsOf mac d).head?) (hσ.trans hτ.symm)) with
        ⟨hx, hy⟩ | ⟨x, y, hx, hy⟩
      · exact hx.trans hy.symm
      · simp only [firstIp, hx, hy, Option.some_or] at hip ⊢
        exact hip
    · obtain ⟨-, hdevice, hif, -, hvlan, -⟩ := hspot σ τ hσ hτ
      rcases none_or_some (@isSome_place _ mac _ _ hσ hτ) with ⟨hx, hy⟩ | ⟨x, y, hx, hy⟩
      · exact hx.trans hy.symm
      · simp only [hx, hy, Option.map_some, Option.getD_some, Option.some.injEq] at hdevice hif hvlan
        rw [hx, hy, Prod.ext_iff.mpr ⟨hdevice, Prod.ext_iff.mpr ⟨hif, hvlan⟩⟩]
  · rintro ⟨hip, hplace, howner⟩ σ τ hσ hτ
    rw [spot_record normalizeMac db hσ hseen, spot_record normalizeMac db hτ hseen]
    simp only [hip σ τ hσ hτ, hplace σ τ hσ hτ, howner σ τ hσ hτ]

end

/-! ## The theorem -/

theorem sees_of_ports {mac : Str} {d : Device} (h : portsOf mac d ≠ []) : sees mac d = true := by
  obtain ⟨p, hp⟩ := List.exists_mem_of_ne_nil _ h
  obtain ⟨e, he, -⟩ := List.mem_map.mp hp
  obtain ⟨hin, hmac⟩ := List.mem_filter.mp he
  have hany : (d.2.fdb.any fun e => e.mac = mac) = true := List.any_eq_true.mpr ⟨e, hin, hmac⟩
  rw [sees, hany, Bool.or_true]

theorem mem_listed {tables : Tables} {mac : Str} {p : Port} {d : Device} (hd : d ∈ tables) (hp : p ∈ portsOf mac d) :
    mac ∈ listed tables (p.1, p.2.1) := by
  obtain ⟨e, he, rfl⟩ := List.mem_map.mp hp
  obtain ⟨hin, hmac⟩ := List.mem_filter.mp he
  refine List.mem_flatMap.mpr ⟨d, hd, List.mem_map.mpr ⟨e, List.mem_filter.mpr ⟨hin, by simp⟩, by simpa using hmac⟩⟩

section
variable (normalizeMac : Str → Option Str) (db : Db)

theorem onEdge_iff {tables σ : Tables} (hσ : σ.Perm tables) {mac : Str} (h : ∃ d ∈ tables, portsOf mac d ≠ []) :
    (∃ row, Dict.get (record normalizeMac db σ) mac = some row ∧ OnEdge tables mac row) ↔
      ∀ p, σ.findSome? (edgePort tables mac) = some p → ∀ port, mac ∈ listed tables port →
        macsOn tables (p.1, p.2.1) ≤ macsOn tables port := by
  have hseen : tables.any (sees mac) = true := by
    obtain ⟨d, hd, hports⟩ := h
    exact List.any_eq_true.mpr ⟨d, hd, sees_of_ports hports⟩
  obtain ⟨p, hp⟩ := Option.isSome_iff_exists.mp (isSome_edgePort hσ h)
  have hspot := spot_record normalizeMac db hσ hseen
  rw [place_of_ports hσ h, hp] at hspot
  obtain ⟨row, hrow, hsays⟩ := Option.map_eq_some_iff.mp hspot
  have hdevice : row.seen_by_asset_id = some p.1 := congrArg Spot.device hsays
  have hif : row.seen_if_index = p.2.1 := congrArg Spot.ifIndex hsays
  have hlisted : mac ∈ listed tables (p.1, p.2.1) := by
    obtain ⟨d, hd, hd'⟩ := List.exists_of_findSome?_eq_some hp
    exact mem_listed (hσ.subset hd) (List.mem_of_find?_eq_some hd')
  simp only [hrow, Option.some.injEq, exists_eq_left', hp, forall_eq', OnEdge, hdevice, hif, hlisted, true_and]

theorem settled_iff_fixed (tables : Tables) :
    Settled normalizeMac db tables ↔
      ∀ mac, (∃ d ∈ tables, sees mac d = true) → Fixed normalizeMac db tables mac := by
  have hedge (mac : Str) : (∀ σ : Tables, σ.Perm tables → (∃ d ∈ tables, portsOf mac d ≠ []) →
      ∃ row, Dict.get (record normalizeMac db σ) mac = some row ∧ OnEdge tables mac row) ↔
        ∀ d ∈ tables, ∀ p, edgePort tables mac d = some p → ∀ port, mac ∈ listed tables port →
          macsOn tables (p.1, p.2.1) ≤ macsOn tables port := by
    rw [← findSome_every]
    by_cases hports : ∃ d ∈ tables, portsOf mac d ≠ []
    · exact ⟨fun h σ hσ => (onEdge_iff normalizeMac db hσ hports).mp (h σ hσ hports),
        fun h σ hσ _ => (onEdge_iff normalizeMac db hσ hports).mpr (h σ hσ)⟩
    · refine iff_of_true (fun _ _ h => absurd h hports) fun σ hσ p hp => ?_
      obtain ⟨d, hd, hp⟩ := List.exists_of_findSome?_eq_some hp
      exact absurd ⟨d, hσ.subset hd, List.ne_nil_of_mem (List.mem_of_find?_eq_some hp)⟩ hports
  constructor
  · rintro ⟨hsame, honEdge⟩ mac ⟨d, hd, hsees⟩
    have hseen : tables.any (sees mac) = true := List.any_eq_true.mpr ⟨d, hd, hsees⟩
    obtain ⟨hip, hplace, howner⟩ := (spot_stable normalizeMac db hseen).mp fun σ τ hσ hτ => hsame σ τ hσ hτ mac
    exact
      { address := (findSome_stable _ _).mp hip
        place := place_stable.mp hplace
        owner := (owner_stable normalizeMac db _).mp howner
        edge := (hedge mac).mp fun σ hσ => honEdge σ hσ mac }
  · intro h
    constructor
    · intro σ τ hσ hτ mac
      by_cases hsees : ∃ d ∈ tables, sees mac d = true
      · have hfixed := h mac hsees
        refine (spot_stable normalizeMac db (List.any_eq_true.mpr hsees)).mpr ⟨?_, ?_, ?_⟩ σ τ hσ hτ
        · exact (findSome_stable _ _).mpr hfixed.address
        · exact place_stable.mpr hfixed.place
        · exact (owner_stable normalizeMac db _).mpr hfixed.owner
      · have hunseen : ∀ {order : Tables}, order.Perm tables → order.any (sees mac) = false := by
          intro order horder
          rw [perm_any horder, Bool.eq_false_iff, ne_eq, List.any_eq_true]
          exact hsees
        rw [get_record, get_record, hunseen hσ, hunseen hτ]
        rfl
    · intro σ hσ mac hports
      obtain ⟨d, hd, hne⟩ := hports
      exact (hedge mac).mpr (h mac ⟨d, hd, sees_of_ports hne⟩).edge σ hσ ⟨d, hd, hne⟩

end

/-! ## The tables that devices answer with -/

section
variable {V : Type} (reader : Snmp.Reader V) (normalizeMac : Str → Option Str) (db : Db)

/-- The tables of devices, each read with a client and perhaps one for each VLAN -/
def answered (devices : List (AssetId × Client V × Option (VlanClient V))) : Tables :=
  devices.map fun d => (d.1, collect reader d.2.1 d.2.2)

/-- Where an endpoint is does not depend on who answers first, and is its edge port, exactly when no two devices
differ in what counts for any address. -/
theorem settled_iff (devices : List (AssetId × Client V × Option (VlanClient V))) :
    Settled normalizeMac db (answered reader devices) ↔
      ∀ mac, (∃ d ∈ answered reader devices, sees mac d = true) →
        Fixed normalizeMac db (answered reader devices) mac :=
  settled_iff_fixed normalizeMac db _

end

/-- Values that are numbers -/
def plainReader : Snmp.Reader Int where
  asInt := some
  text _ := none
  ipv4 _ := none
  normalizeMac _ := none
  networkAddress _ := none

/-- A switch with a Q-BRIDGE table whose bridge ports have the numbers of its interfaces -/
def switch (ports : List Nat) (entries : List (List Nat × Int)) : Client Int := fun base =>
  if base = basePortIfIndex then .ok (ports.map fun p : Nat => (base ++ [p], (p : Int)))
  else if base = qfdbPort then .ok (entries.map fun e => (base ++ e.1, e.2))
  else .ok []

/-- The core switch learned two addresses on its uplink 48; port 3 of the edge switch has one of them, in three
VLANs. -/
def coreAndEdge : List (AssetId × Client Int × Option (VlanClient Int)) :=
  [(1, switch [48] [([10, 0, 80, 86, 0, 0, 1], 48), ([10, 0, 80, 86, 0, 0, 2], 48)], none),
   (2, switch [3] [([10, 0, 80, 86, 0, 0, 1], 3), ([20, 0, 80, 86, 0, 0, 1], 3), ([30, 0, 80, 86, 0, 0, 1], 3)],
     none)]

/-- The address is recorded on the uplink, which has fewer rows and more addresses. -/
theorem uplink_recorded :
    ((Dict.get (record (fun _ => none) ⟨[], [], []⟩ (answered plainReader coreAndEdge)) (lit "00:50:56:00:00:01")).map
        fun row => (row.seen_by_asset_id, row.seen_if_index)) = some (some 1, some 48) ∧
      ¬ Settled (fun _ => none) ⟨[], [], []⟩ (answered plainReader coreAndEdge) := by
  refine ⟨by with_unfolding_all decide, fun h => ?_⟩
  have hfixed := (settled_iff_fixed _ _ _).mp h (lit "00:50:56:00:00:01") (by with_unfolding_all decide)
  exact absurd (hfixed.edge _ List.mem_cons_self (1, some 48, some 10) (by with_unfolding_all decide) (2, some 3)
    (by with_unfolding_all decide)) (by with_unfolding_all decide)

end Whereabouts
