import Mathlib.Data.List.Dedup
import Mathlib.Data.List.Sort
import Mathlib.Data.Prod.Lex
import Ngcorion.Search
import Ngcorion.Text

/-!
# The topology that the SAFE checks read

Assets and external networks are the nodes, the links that are up join them. A path between two places of the network
is unfiltered when no firewall stands on it. The search steps from node to node and never past a firewall, so what it
reaches is what an unfiltered path reaches, and it tells the shortest such path of each host.
-/
namespace SafeTopology

open Text

/-- The places in the network, `PLACES`. -/
inductive Place where
  | internet | edge | data_center | storage | campus | branch | wan | cloud | guest | management | lab
  deriving DecidableEq

inductive DeviceClass where
  | firewall | network | internet | wan | cloud | server | endpoint | other
  deriving DecidableEq

def FIREWALL : List Str := [lit "firewall"]

def NETWORK : List Str :=
  [lit "router", lit "switch", lit "wireless", lit "load_balancer", lit "waf", lit "ips", lit "vpn"]

def SERVER : List Str :=
  [lit "server", lit "hypervisor", lit "container", lit "cluster", lit "linux", lit "windows", lit "web",
    lit "database", lit "storage", lit "directory", lit "dns", lit "dhcp"]

def ENDPOINT : List Str :=
  [lit "workstation", lit "laptop", lit "ip_phone", lit "printer", lit "iot", lit "camera", lit "nvr", lit "ups",
    lit "plc"]

def OUTSIDE_KINDS : List Str := [lit "internet", lit "partner", lit "lte"]
def WAN_KINDS : List Str := [lit "mpls", lit "wan", lit "sdwan"]
def CLOUD_KINDS : List Str := [lit "public_cloud"]

def kind_class (kind : Str) : DeviceClass :=
  if kind ∈ FIREWALL then .firewall
  else if kind ∈ NETWORK then .network
  else if kind ∈ OUTSIDE_KINDS then .internet
  else if kind ∈ WAN_KINDS then .wan
  else if kind ∈ CLOUD_KINDS then .cloud
  else if kind ∈ SERVER then .server
  else if kind ∈ ENDPOINT then .endpoint
  else .other

def default_place : DeviceClass → Option Place
  | .internet => some .internet
  | .wan => some .wan
  | .cloud => some .cloud
  | _ => none

/-! ## The rows -/

/-- An asset; `icon` is what `resolve_icon` says of it. -/
structure Asset where
  id : Int
  asset_name : Str
  icon : Str

structure TopologyLink where
  source_asset_id : Int
  destination_asset_id : Int
  status : Str
  missing_since : Option Nat

structure TopologyCloud where
  id : Int
  label : Str
  kind : Str

structure TopologyCloudLink where
  cloud_id : Int
  asset_id : Int
  status : Str

/-! ## The graph -/

/-- `active` are the two ends of every link that counts. -/
structure Topology where
  assets : List Int
  name : List (Int × Str)
  kind : List (Int × Str)
  places : List (Int × Option Place)
  active : List (Int × Int)
  nodup : (Dict.keys name).Nodup
  known : ∀ e ∈ active, e.1 ∈ Dict.keys name ∧ e.2 ∈ Dict.keys name

def names (assets : List Asset) (clouds : List TopologyCloud) : List (Int × Str) :=
  clouds.foldl (fun d c => Dict.set d (-c.id) c.label) (assets.foldl (fun d a => Dict.set d a.id a.asset_name) [])

def kinds (assets : List Asset) (clouds : List TopologyCloud) : List (Int × Str) :=
  clouds.foldl (fun d c => Dict.set d (-c.id) c.kind) (assets.foldl (fun d a => Dict.set d a.id a.icon) [])

theorem nodup_foldl_set {ι κ β : Type*} [DecidableEq κ] (key : ι → κ) (value : ι → β) (l : List ι) (d : List (κ × β))
    (hd : (Dict.keys d).Nodup) : (Dict.keys (l.foldl (fun d i => Dict.set d (key i) (value i)) d)).Nodup := by
  induction l generalizing d with
  | nil => exact hd
  | cons i l ih => exact ih _ (Dict.nodup_set d _ _ hd)

/-- The ends, status and loss of every link, the drawn ones and those of the external networks. -/
def pairs (links : List TopologyLink) (cloud_links : List TopologyCloudLink) : List (Int × Int × Str × Option Nat) :=
  links.map (fun lk => (lk.source_asset_id, lk.destination_asset_id, lk.status, lk.missing_since)) ++
    cloud_links.map (fun cl => (-cl.cloud_id, cl.asset_id, cl.status, none))

/-- A link between two known nodes that is neither planned, down nor missing. -/
def up (nodes : List Int) (pair : Int × Int × Str × Option Nat) : Option (Int × Int) :=
  match pair with
  | (a, b, status, missing_since) =>
    if a ∉ nodes ∨ b ∉ nodes ∨ a = b ∨ status = lit "planned" then none
    else if status = lit "down" ∨ missing_since ≠ none then none
    else some (a, b)

theorem up_known {nodes : List Int} {pair : Int × Int × Str × Option Nat} {e : Int × Int}
    (h : up nodes pair = some e) : e.1 ∈ nodes ∧ e.2 ∈ nodes := by
  obtain ⟨a, b, status, missing⟩ := pair
  simp only [up] at h
  split at h
  · cases h
  · rename_i hcounts
    split at h
    · cases h
    · cases h
      simp only [not_or, not_not] at hcounts
      exact ⟨hcounts.1, hcounts.2.1⟩

/-- `Topology.__init__` -/
def Topology.of (assets : List Asset) (places : List (Int × Option Place)) (links : List TopologyLink)
    (clouds : List TopologyCloud) (cloud_links : List TopologyCloudLink) : Topology where
  assets := assets.map (·.id)
  name := names assets clouds
  kind := kinds assets clouds
  places := places
  active := (pairs links cloud_links).filterMap (up (Dict.keys (names assets clouds)))
  nodup := nodup_foldl_set _ _ _ _ (nodup_foldl_set _ _ _ _ List.nodup_nil)
  known e he := by
    obtain ⟨pair, -, hup⟩ := List.mem_filterMap.mp he
    exact up_known hup

variable (t : Topology)

def Topology.nodes : List Int := Dict.keys t.name

def Topology.cls (x : Int) : DeviceClass := kind_class ((Dict.get t.kind x).getD [])

def Topology.place (x : Int) : Option Place :=
  ((if x ∈ t.assets then (Dict.get t.places x).join else none)).or (default_place (t.cls x))

def Topology.Linked (x y : Int) : Prop := (x, y) ∈ t.active ∨ (y, x) ∈ t.active

instance (x y : Int) : Decidable (t.Linked x y) := inferInstanceAs (Decidable (_ ∨ _))

/-- The set `adj[x]`, in order. -/
def Topology.adj (x : Int) : List Int :=
  (t.active.flatMap (fun e => (if e.1 = x then [e.2] else []) ++ (if e.2 = x then [e.1] else []))).dedup.insertionSort
    (· ≤ ·)

theorem mem_adj {x y : Int} : y ∈ t.adj x ↔ t.Linked x y := by
  simp only [Topology.adj, List.mem_insertionSort, List.mem_dedup, List.mem_flatMap, List.mem_append, Topology.Linked]
  constructor
  · rintro ⟨⟨a, b⟩, he, h | h⟩
    · split at h
      · rename_i hx
        exact .inl (by simpa [← hx, List.mem_singleton.mp h] using he)
      · cases h
    · split at h
      · rename_i hx
        exact .inr (by simpa [← hx, List.mem_singleton.mp h] using he)
      · cases h
  · rintro (h | h)
    · exact ⟨_, h, .inl (by simp)⟩
    · exact ⟨_, h, .inr (by simp)⟩

theorem linked_nodes {x y : Int} (h : t.Linked x y) : x ∈ t.nodes ∧ y ∈ t.nodes := by
  rcases h with h | h
  · exact t.known _ h
  · exact (t.known _ h).symm

theorem linked_symm {x y : Int} (h : t.Linked x y) : t.Linked y x := h.symm

theorem graph : Search.Graph t.adj t.nodes where
  nodup _ := ((List.perm_insertionSort _ _).nodup_iff).mpr (List.nodup_dedup _)
  closed _ _ _ hy := (linked_nodes t ((mem_adj t).mp hy)).2

/-! ## Paths without a firewall -/

def Topology.is_storage (x : Int) : Bool :=
  Dict.get t.kind x = some (lit "storage") || t.place x = some .storage

def carriesOn (x : Int) : Bool := t.cls x ≠ .firewall

/-- The search of `unfiltered_paths` and `edge_firewalls` from `start`. -/
def Topology.search (start : List Int) : Search.State Int :=
  Search.run t.adj (carriesOn t) (t.nodes.length + start.length) (Search.begin [] start)

def start (sources : List Place) : List Int :=
  (t.nodes.filter (fun x => t.place x ∈ sources.map some ∧ t.cls x ≠ .firewall)).insertionSort (· ≤ ·)

def pathText (p : List Int) : Str := join (lit " -> ") (p.map (fun x => (Dict.get t.name x).getD []))

def hostClasses : List DeviceClass := [.server, .endpoint, .other]

/-- Whether a node is not of the targets: not a storage device, or in no target place. -/
def Topology.elsewhere (targets : List Place) (storage : Bool) (x : Int) : Bool :=
  if storage then !t.is_storage x else decide (t.place x ∉ targets.map some)

/-- What `unfiltered_paths` says of a node the search met. -/
def Topology.entry (came_from : List (Int × Option Int)) (targets : List Place) (storage : Bool)
    (e : Int × Option Int) : Option (Int × Str) :=
  if e.2 = none ∨ t.cls e.1 ∉ hostClasses then none
  else if t.elsewhere targets storage e.1 then none
  else some (e.1, pathText t (Search.hops came_from came_from.length e.1))

def Topology.unfiltered_paths (sources targets : List Place) (storage : Bool) : List (Int × Str) :=
  let s := t.search (start t sources)
  s.came_from.filterMap (t.entry s.came_from targets storage)

/-! ## The Internet edge -/

def Topology.outside (x : Int) : Bool := t.place x = some .internet || t.cls x = .internet

def outsideStart : List Int := t.nodes.filter (fun x => t.outside x ∧ t.cls x ≠ .firewall)

/-- Firewalls the Internet reaches first: those among the nodes the search has seen. -/
def Topology.edge_firewalls : List Int :=
  (Dict.keys (t.search (outsideStart t)).came_from).filter (fun x => t.cls x = .firewall)

/-! ## Single points of failure -/

/-- The network and firewall devices. -/
def Topology.isDevice (x : Int) : Bool := t.cls x = .network || t.cls x = .firewall

def Topology.parts_without (removed : Int) : List (List Int) :=
  ((t.adj removed).foldl (Search.partsFrom t.adj (t.nodes.length + 1)) ([], [removed])).1

/-- What the parts are ranked by: the Internet edge, the network devices, the size, the least node. -/
def Topology.weight (part : List Int) : Bool ×ₗ Nat ×ₗ Nat ×ₗ Int :=
  toLex (part.any t.outside, toLex (part.countP t.isDevice, toLex (part.length, -(part.min?.getD 0))))

/-- The parts that are left without a device, the heaviest first. -/
def Topology.rankedParts (x : Int) : List (List Int) :=
  (t.parts_without x).insertionSort (fun p q => t.weight q ≤ t.weight p)

def Topology.cut_off_by (x : Int) : List Int :=
  if ¬ t.isDevice x ∨ (t.adj x).length < 2 then []
  else ((t.rankedParts x).tail.filter (fun part => part.any t.isDevice)).flatten

end SafeTopology
