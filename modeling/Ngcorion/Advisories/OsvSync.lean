import Ngcorion.Dict
import Ngcorion.Transition
import Ngcorion.Advisories.OsvRecords

/-!
# Keeping the advisories of the releases in use up to date

A release is loaded in full from the archive of its distribution the first time;
after that a run takes the records changed since the watermark of the release.
Records are added and modified in the feed between the runs.
-/
namespace OsvSync

open Text FirstBy Transition OsvRecords

/-! ## The feed -/

/-- The records of one ecosystem, newest first, as `modified_id.csv` lists them. -/
structure Ecosystem where
  records : List Record
  newestFirst : records.Pairwise (fun a b => b.modified ≤ a.modified)
  ids : (records.map Record.id).Nodup

/-- A record is added, or replaces the one with its id. -/
def Ecosystem.publish (e : Ecosystem) (rec : Record) (h : ∀ r ∈ e.records, r.modified ≤ rec.modified) : Ecosystem where
  records := rec :: e.records.filter (fun r => r.id ≠ rec.id)
  newestFirst := by
    refine List.pairwise_cons.mpr ⟨?_, e.newestFirst.filter _⟩
    intro r hr
    exact h r (List.mem_of_mem_filter hr)
  ids := by
    refine List.nodup_cons.mpr ⟨?_, e.ids.sublist (List.filter_sublist.map _)⟩
    intro hmem
    obtain ⟨r, hr, hid⟩ := List.mem_map.mp hmem
    simpa [hid] using (List.mem_filter.mp hr).2

def maxRecordBytes : Nat := 8 * 1024 * 1024

/-- `OsvClient.record`: the record with an id, if the feed has it. -/
def Ecosystem.find (e : Ecosystem) (id : Str) : Option Record := e.records.find? (fun r => r.id = id)

/-- A single record that is larger than allowed fails the run. -/
def Ecosystem.oversized (e : Ecosystem) (id : Str) : Bool := (e.find id).any (fun r => maxRecordBytes < r.size)

/-- `iter_zip` leaves out the files that are larger than allowed. -/
def iterZip (archive : List Record) : List Record := archive.filter (fun r => r.size ≤ maxRecordBytes)

/-- `OsvClient.changed_since`: oldest first, nothing when there are more than the limit. -/
def changedSince (e : Ecosystem) (since limit : Nat) : Option (List (Nat × Str)) :=
  let out := (e.records.map (fun r => (dt r.modified, strip r.id))).takeWhile (fun x => since < x.1)
  if limit < out.length then none else some out.reverse

/-! ## The tables -/

/-- A row of `distro_feeds`. -/
structure Feed where
  rows : Nat
  records : Nat
  watermark : Option Nat
  lastChanges : Option Nat

structure Store where
  table : List Row
  feeds : List (Release × Feed)

/-- What the loader hashes to tell rows apart. -/
structure HashKey where
  release : Release
  stream : Str
  package : Str
  recordId : Str
  introduced : Option Str
  fixed : Option Str
  lastAffected : Option Str

/-- The tables of the texts, the hash of a key and `INCREMENTAL_LIMIT`. -/
structure Settings where
  tables : Tables Record
  hash : HashKey → Int
  incrementalLimit : Nat

def Settings.hashRow (cfg : Settings) (row : Row) : Int :=
  cfg.hash ⟨row.release, row.stream, row.package, row.recordId, row.introduced, row.fixed, row.lastAffected⟩

/-- `_Loader`: the table and the rows written so far. The hashes seen, the records
and the watermarks are those of the rows written. -/
structure Loader where
  table : List Row
  added : List Row

/-- `_Loader.add`; rows are written in batches, all before the next deletion. -/
def Loader.add (cfg : Settings) (l : Loader) (rows : List Row) : Loader :=
  let new := firstBy cfg.hashRow (l.added.map cfg.hashRow) rows
  ⟨l.table ++ new, l.added ++ new⟩

def Loader.watermark (l : Loader) (r : Release) : Option Nat :=
  ((l.added.filter (fun row => row.release = r)).map Row.modified).max?

def Loader.records (l : Loader) (r : Release) : List Str :=
  ((l.added.filter (fun row => row.release = r)).map Row.recordId).dedup

/-- `refresh_counts` -/
def refreshCounts (watermark : Option Nat) (full : Bool) (changes : Nat) (s : Store) (r : Release) : Store :=
  let old := ((Dict.get s.feeds r).map Feed.watermark).join
  let rows := s.table.filter (fun row => row.release = r)
  let new := match watermark with
    | none => old
    | some w => if full ∨ old.all (fun o => o < w) then some w else old
  { s with feeds := Dict.set s.feeds r ⟨rows.length, (rows.map Row.recordId).dedup.length, new, some changes⟩ }

/-- `l[0:size], l[size:2 * size], …` -/
def slices {α : Type} (size : Nat) (l : List α) : List (List α) :=
  (List.range ((l.length + size - 1) / size)).map (fun k => (l.drop (size * k)).take size)

/-- One chunk of changed records: their rows of the releases are deleted and the new ones written. -/
def loadChunk (cfg : Settings) (e : Ecosystem) (rels : List Release) (l : Loader) (chunk : List Str) : Option Loader :=
  if chunk.any e.oversized then none
  else
    let kept := l.table.filter (fun row => ¬ (row.recordId ∈ chunk ∧ row.release ∈ rels))
    some ((chunk.filterMap e.find).foldl (fun l rec => l.add cfg (rowsFrom cfg.tables rec (some rels))) ⟨kept, l.added⟩)

/-- `_incremental` -/
def incremental (cfg : Settings) (e : Ecosystem) (rels : List Release) (changed : List (Nat × Str)) (s : Store) :
    Option Store := do
  let l ← (slices 200 (changed.map Prod.snd)).foldlM (loadChunk cfg e rels) ⟨s.table, []⟩
  let newest := (changed.map Prod.fst).max?
  some (rels.foldl (refreshCounts newest false changed.length) ⟨l.table, s.feeds⟩)

/-- `_full`: all releases of a distribution come from its one archive. -/
def full (cfg : Settings) (archive : List Record) (rels : List Release) (s : Store) : Store :=
  let kept := s.table.filter (fun row => row.release ∉ rels)
  let l := (iterZip archive).foldl (fun l rec => l.add cfg (rowsFrom cfg.tables rec (some rels))) (⟨kept, []⟩ : Loader)
  rels.foldl (fun s r => refreshCounts (l.watermark r) true (l.records r).length s r) ⟨l.table, s.feeds⟩

def watermarkOf (s : Store) (r : Release) : Option Nat := ((Dict.get s.feeds r).map Feed.watermark).join

/-- The releases that were never loaded, and the cut-off for the others. -/
def unloaded (s : Store) (rels : List Release) : List Release := rels.filter (fun r => watermarkOf s r = none)

def loaded (s : Store) (rels : List Release) : List Release := rels.filter (fun r => watermarkOf s r ≠ none)

def cutOff (s : Store) (rels : List Release) : Option Nat := (rels.filterMap (watermarkOf s)).min?

/-- One distribution of `online`. -/
def onlineTop (cfg : Settings) (e : Ecosystem) (archive : List Record) (rels : List Release) (s : Store) : Option Store :=
  match cutOff s rels with
  | none => some (full cfg archive (unloaded s rels) s)
  | some since =>
    match changedSince e since cfg.incrementalLimit with
    | none => some (full cfg archive (unloaded s rels ++ loaded s rels) s)
    | some changed => do
      let s' ← incremental cfg e (loaded s rels) changed s
      some (if unloaded s rels = [] then s' else full cfg archive (unloaded s rels) s')

def relsOf (wanted : List Release) (d : Distro) : List Release := wanted.filter (fun r => r.distro = d)

/-- `by_top` -/
def tops (wanted : List Release) : List Distro := firstBy id [] (wanted.map Release.distro)

/-- `online`: a failed run leaves no trace, so only a successful one has a result. -/
def online (cfg : Settings) (wanted : List Release) (world : Distro → Ecosystem) (archives : Distro → List Record)
    (s : Store) : Option Store :=
  (tops wanted).foldlM (fun s d => onlineTop cfg (world d) (archives d) (relsOf wanted d) s) s

/-! ## Histories -/

/-- The feed and the tables, with the records of the feed at the last successful run. -/
structure State where
  world : Distro → Ecosystem
  store : Store
  synced : Distro → List Record

inductive Action where
  | publish (d : Distro) (rec : Record)
  | online (archives : Distro → List Record)

/-- Records are published at increasing times; an archive holds the records in some order. -/
def step (cfg : Settings) (wanted : List Release) (s : State) : Action → Option State
  | .publish d rec =>
    if h : ∀ r ∈ (s.world d).records, r.modified ≤ rec.modified then
      some { s with world := fun d' => if d' = d then (s.world d).publish rec h else s.world d' }
    else none
  | .online archives =>
    if ∀ d ∈ tops wanted, (archives d).Perm (s.world d).records then
      (online cfg wanted s.world archives s.store).map
        (fun store => ⟨s.world, store, fun d => (s.world d).records⟩)
    else none

/-- Nothing is loaded; the table may hold anything. -/
def begin (world : Distro → Ecosystem) (table : List Row) : State := ⟨world, ⟨table, []⟩, fun _ => []⟩

def ofRelease (r : Release) (table : List Row) : List Row := table.filter (fun row => row.release = r)

/-- The rows of a release are those of the records. -/
def Matches (t : Tables Record) (records : List Record) (r : Release) (table : List Row) : Prop :=
  (ofRelease r table).Nodup ∧
    ∀ row, row ∈ ofRelease r table ↔ row.release = r ∧ ∃ rec ∈ records, row ∈ rowsFrom t rec none

/-- The rows of every tracked release are those of the current records of its ecosystem. -/
def UpToDate (cfg : Settings) (wanted : List Release) (s : State) : Prop :=
  ∀ r ∈ wanted, Matches cfg.tables (s.world r.distro).records r s.store.table

end OsvSync
