import Mathlib.Data.Sym.Sym2
import Ngcorion.FirstBy
import Ngcorion.Serial
import Ngcorion.Transition
import Ngcorion.Noc.Neighbors

/-!
# The links that sweeps draw

All reports of one cable make one link of the map: the one that has the ports of the
cable, a hand-drawn one without ports, or a new one. A found link that is removed from
the map suppresses the reports that refer to it.
-/
namespace Links

open Text FirstBy Serial Transition Neighbors

/-! ## Cables -/

/-- The two ends of a cable: the devices and the keys of the ports. -/
abbrev Key := Sym2 (Nat × Option Str)

/-- The devices at the two ends. -/
def Key.devices (k : Key) : Sym2 Nat := k.map Prod.fst

/-- `_pair_key` -/
def pairKey (lib : Lib) (a : Nat) (pa : Option Str) (b : Nat) (pb : Option Str) : Key :=
  s((a, portKey lib pa), (b, portKey lib pb))

inductive LinkStatus where
  | active | planned | down
  deriving DecidableEq

inductive Origin where
  | manual
  | found (protocol : Protocol)
  deriving DecidableEq

/-- `TopologyLink` -/
structure Link where
  source : Nat
  destination : Nat
  sourceInterface : Option Str
  destinationInterface : Option Str
  linkType : Str
  speedMbps : Option Nat
  status : LinkStatus
  origin : Origin
  lastSeen : Option Nat
  missingSince : Option Nat
  createdBy : Option Nat

/-- `_link_key` -/
def linkKey (lib : Lib) (l : Link) : Key :=
  pairKey lib l.source l.sourceInterface l.destination l.destinationInterface

/-- Drawn by hand, with no port given. -/
def Link.blank (l : Link) : Bool :=
  l.origin = .manual && (given l.sourceInterface).isNone && (given l.destinationInterface).isNone

variable (site : Site)

/-- A report whose neighbour is an asset. -/
structure Report where
  row : Row
  other : Nat

/-- `_ends` -/
structure Ends where
  local_ : Str
  localIdx : Option Nat
  remote : Option Str

def Report.ends (r : Report) : Ends :=
  let mine := ports site.lib site.interfaces r.row.asset
  let byIndex := (r.row.report.localIfIndex.filter (fun i => i ≠ 0)).bind fun i =>
    (Dict.get mine.byIndex i).map (fun name => (i, name))
  let here := byIndex.or (mine.find site.lib [some r.row.report.localPort])
  let there := (ports site.lib site.interfaces r.other).find site.lib
    [r.row.report.remotePort, r.row.report.remotePortDesc]
  ⟨(here.map Prod.snd).getD r.row.report.localPort, here.map Prod.fst,
    (there.map Prod.snd).or ((given r.row.report.remotePort).or r.row.report.remotePortDesc)⟩

/-- The cable of a report. -/
def Report.cable (r : Report) : Key :=
  pairKey site.lib r.row.asset (some (r.ends site).local_) r.other (r.ends site).remote

def Report.suppressed (r : Report) : Bool := r.row.suppressed

def reportOf (r : Row) : Option Report := r.matched.map (fun other => ⟨r, other⟩)

/-- The cable that a row describes. -/
def cable (r : Row) : Option Key := (reportOf r).map (Report.cable site)

/-- The reports of the sweep. -/
def seen (now : Nat) (rows : List Row) : List Report :=
  rows.filterMap (fun r => if r.lastSeen = now then reportOf r else none)

/-- `PORT_LEN` -/
def portLen : Nat := 100

/-- A name as the columns of a link hold it. -/
def shorten (name : Option Str) : Option Str := (given name).map (List.take portLen)

/-- The link that the report describes. -/
def Report.draw (r : Report) (lastSeen : Nat) (user : Option Nat) : Link where
  source := r.row.asset
  destination := r.other
  sourceInterface := shorten (some (r.ends site).local_)
  destinationInterface := shorten (r.ends site).remote
  linkType := lit "ethernet"
  speedMbps := ((r.ends site).localIdx.bind (Dict.get (ports site.lib site.interfaces r.row.asset).speed)).map (· / 1000000)
  status := .active
  origin := .found r.row.report.protocol
  lastSeen := some lastSeen
  missingSince := none
  createdBy := user

/-- The cable of that link, whose ports are the shortened ones. -/
def Report.shortCable (r : Report) : Key :=
  pairKey site.lib r.row.asset (shorten (some (r.ends site).local_)) r.other (shorten (r.ends site).remote)

/-! ## A sweep -/

/-- The reports of one cable. -/
structure Group where
  first : Report
  members : List Report

def Group.key (g : Group) : Key := g.first.cable site

/-- The two devices. -/
def Group.pair (g : Group) : Sym2 Nat := s(g.first.row.asset, g.first.other)

def Group.suppressed (g : Group) : Bool := g.members.any Report.suppressed

/-- The cables in the order of their first reports. -/
def groups (reports : List Report) : List Group :=
  (firstBy (Report.cable site) [] reports).map (fun r => ⟨r, reports.filter (fun r' => r'.cable site = r.cable site)⟩)

abbrev LinkTable := Table Link

/-- The links by their ports. The first one of a key counts. -/
def byKey (links : LinkTable) : List (Key × Nat) :=
  (links.rows.filter (fun e => e.2.status ≠ .planned && !e.2.blank)).map (fun e => (linkKey site.lib e.2, e.1))

/-- A link has the ports. -/
def linked (links : LinkTable) (key : Key) : Bool := (Dict.get (byKey site links) key).isSome

/-- The hand-drawn links without ports. -/
def blanks (links : LinkTable) : List (Sym2 Nat × Nat) :=
  (links.rows.filter (fun e => e.2.status ≠ .planned && e.2.blank)).map (fun e => (s(e.2.source, e.2.destination), e.1))

/-- The loop of `update_links` -/
structure Drawing where
  links : LinkTable
  byKey : List (Key × Nat)
  blank : List (Sym2 Nat × Nat)
  /-- The link that the reports of a cable refer to. -/
  assigned : List (Key × Option Nat)
  /-- `seen_links` -/
  confirmed : List Nat

def Drawing.refer (d : Drawing) (key : Key) (id : Nat) : Drawing :=
  { d with assigned := (key, some id) :: d.assigned, confirmed := id :: d.confirmed }

def Drawing.leave (d : Drawing) (key : Key) : Drawing := { d with assigned := (key, none) :: d.assigned }

def Drawing.create (d : Drawing) (key : Key) (l : Link) : Drawing :=
  { d with links := d.links.insert l, byKey := (key, d.links.next) :: d.byKey }.refer key d.links.next

def drawGroup (now : Nat) (d : Drawing) (g : Group) : Drawing :=
  if g.suppressed then d.leave (g.key site)
  else
    match Dict.get d.byKey (g.key site) with
    | some id => d.refer (g.key site) id
    | none =>
      match Dict.get d.blank g.pair with
      | some id => { d with blank := d.blank.eraseP (fun e => e.1 = g.pair) }.refer (g.key site) id
      | none =>
        if site.autoLinks then d.create (g.key site) (g.first.draw site now none)
        else d.leave (g.key site)

def draw (now : Nat) (links : LinkTable) (gs : List Group) : Drawing :=
  gs.foldl (drawGroup site now) ⟨links, byKey site links, blanks links, [], []⟩

def day : Nat := 24 * 3600 * 1000000

/-- `FORGET_LINK_DAYS` and `FORGET_NEIGHBOR_DAYS` -/
def forgetAfter : Nat := 30 * day

/-- A link that the sweep saw is there; a found link that a device which was read no longer
reports is missing. -/
def touch (now : Nat) (readOk confirmed : List Nat) (id : Nat) (l : Link) : Link :=
  if id ∈ confirmed then { l with lastSeen := some now, missingSince := none }
  else if l.origin ≠ .manual && (l.source ∈ readOk || l.destination ∈ readOk) && l.missingSince.isNone then
    { l with missingSince := some now }
  else l

def gone (now : Nat) (l : Link) : Bool := l.origin ≠ .manual && l.missingSince.any (fun t => t + forgetAfter < now)

/-- The tables of the topology discovery. -/
structure Db where
  sources : Sources
  neighbors : List Row
  links : LinkTable

/-- The key of the table lost its row: references to it are cleared. -/
def clear (links : LinkTable) (r : Row) : Row :=
  { r with link := r.link.filter (fun id => links.rows.any (fun e => e.1 = id)) }

/-- The links after the loop. -/
def settle (now : Nat) (read : List Nat) (d : Drawing) : LinkTable :=
  (d.links.modify (touch now read d.confirmed)).keep (fun _ l => !gone now l)

/-- A report of the sweep refers to the link of its cable. -/
def refer (now : Nat) (d : Drawing) (r : Row) : Row :=
  match if r.lastSeen = now then cable site r else none with
  | some key => { r with link := (Dict.get d.assigned key).join }
  | none => r

/-- `update_links` -/
def updateLinks (now : Nat) (read : List Nat) (neighbors : List Row) (links : LinkTable) : List Row × LinkTable :=
  let d := draw site now links (groups site (seen now neighbors))
  (neighbors.map (fun r => clear (settle now read d) (refer site now d r)), settle now read d)

/-- The rows as a sweep notes them, before it turns to the links. -/
def noted (db : Db) (reports : Reports) (errors : Errors) (now : Nat) : List Row :=
  (noteAll site.lib now reports db.neighbors).map
    ((directory site (noteSources now reports errors db.sources)).rematch site.lib)

/-- `record` -/
def record (db : Db) (reports : Reports) (errors : Errors) (now : Nat) : Db :=
  let sources := noteSources now reports errors db.sources
  let (neighbors, links) := updateLinks site now (readOk now sources) (noted site db reports errors now) db.links
  ⟨sources, neighbors.filter (fun r => !(r.lastSeen + forgetAfter < now)), links⟩

/-! ## Removing and bringing back -/

/-- `suppress_link` and the deletion -/
def removeLink (db : Db) (id : Nat) : Db where
  sources := db.sources
  neighbors := db.neighbors.map fun r => if r.link = some id then { r with suppressed := true, link := none } else r
  links := db.links.keep (fun i _ => i ≠ id)

/-- Both devices of the row are among the two. -/
def between (a b : Nat) (r : Row) : Bool :=
  (r.asset = a || r.asset = b) && r.matched.any (fun m => m = a || m = b)

/-- `link_from_neighbor` -/
def linkFromNeighbor (db : Db) (r : Report) (user : Option Nat) : Db :=
  let a := r.row.asset
  let b := r.other
  let here := fun d => d = a || d = b
  let found := db.links.rows.find? (fun e => here e.2.source && here e.2.destination &&
    linkKey site.lib e.2 = r.cable site)
  let id := (found.map Prod.fst).getD db.links.next
  let links := if found.isSome then db.links else db.links.insert (r.draw site r.row.lastSeen user)
  { sources := db.sources
    neighbors := db.neighbors.map fun m =>
      if m = r.row then { m with suppressed := false, link := some id }
      else if between a b m then { m with suppressed := false }
      else m
    links := links.modify (fun i l =>
      if i = id then { l with lastSeen := some r.row.lastSeen, missingSince := none } else l) }

inductive Action where
  | sweep (reports : Reports) (errors : Errors) (now : Nat)
  /-- Remove a link that was found. -/
  | remove (id : Nat)
  /-- "Add to map" on the row of a neighbour. -/
  | addToMap (asset : Nat) (ident : Str) (user : Option Nat)

end Links
