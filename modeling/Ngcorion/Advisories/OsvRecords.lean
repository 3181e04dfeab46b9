import Ngcorion.Text
import Ngcorion.FirstBy
import Mathlib.Data.List.Sort

/-!
# OSV records and the rows made of them

A record of a distribution's advisories names packages of several releases; its
rows are the affected version intervals of the releases that are wanted.
-/
namespace OsvRecords

open Text FirstBy

/-! ## Releases -/

inductive Distro where
  | ubuntu | debian | rhel | rocky | alma
  deriving DecidableEq

inductive Family where
  | deb | rpm
  deriving DecidableEq

def Distro.family : Distro → Family
  | .ubuntu => .deb
  | .debian => .deb
  | .rhel => .rpm
  | .rocky => .rpm
  | .alma => .rpm

/-- A release key `<distro>:<version>`. -/
structure Release where
  distro : Distro
  version : Str
  deriving DecidableEq

/-- The tables of the character classes `\d` and `\w` and of `str.lower`, and the
severity of a record, which comes from a score in floating point. -/
structure Tables (Record : Type) where
  digit : Char → Bool
  word : Char → Bool
  lower : Str → Str
  recordSeverity : Record → Option Str

/-- `$`: the end of a text, or the line end that ends it. -/
def atEnd (s : Str) : Bool := s = [] || s = ['\n']

/-- What follows a literal text. -/
def after (p s : Str) : Option Str := if startsWith p s then some (s.drop p.length) else none

/-- `^<prefix>(\d+)$` -/
def numbered (digit : Char → Bool) (p s : Str) : Option Str :=
  (after p s).bind fun rest =>
    let number := rest.takeWhile digit
    if number ≠ [] ∧ atEnd (rest.dropWhile digit) then some number else none

/-- `(\d{2}\.\d{2})(?::LTS)?$` -/
def ubuntuVersion (digit : Char → Bool) (s : Str) : Option Str :=
  match s with
  | a :: b :: '.' :: c :: d :: rest =>
    if [a, b, c, d].all digit ∧ (atEnd rest || (after (lit ":LTS") rest).any atEnd) then some [a, b, '.', c, d] else none
  | _ => none

/-- `^Red Hat:enterprise_linux:(\d+)::[\w.-]+$` -/
def redHatVersion (digit word : Char → Bool) (s : Str) : Option Str :=
  (after (lit "Red Hat:enterprise_linux:") s).bind fun rest =>
    let number := rest.takeWhile digit
    (after (lit "::") (rest.dropWhile digit)).bind fun channel =>
      let inside (c : Char) : Bool := word c || c = '.' || c = '-'
      if number ≠ [] ∧ channel.takeWhile inside ≠ [] ∧ atEnd (channel.dropWhile inside) then some number else none

/-- `releases.from_ecosystem`: the release and whether it is Ubuntu Pro. -/
def fromEcosystem (digit word : Char → Bool) (ecosystem : Str) : Option (Release × Bool) :=
  match after (lit "Ubuntu:") ecosystem with
  | some rest =>
    match after (lit "Pro:") rest with
    | some version => (ubuntuVersion digit version).map (fun v => (⟨.ubuntu, v⟩, true))
    | none => (ubuntuVersion digit rest).map (fun v => (⟨.ubuntu, v⟩, false))
  | none =>
    (numbered digit (lit "Debian:") ecosystem).map (fun v => (⟨.debian, v⟩, false)) <|>
    (redHatVersion digit word ecosystem).map (fun v => (⟨.rhel, v⟩, false)) <|>
    (numbered digit (lit "Rocky Linux:") ecosystem).map (fun v => (⟨.rocky, v⟩, false)) <|>
    (numbered digit (lit "AlmaLinux:") ecosystem).map (fun v => (⟨.alma, v⟩, false))

/-! ## Records -/

structure Event where
  introduced : Option Str
  fixed : Option Str
  lastAffected : Option Str
  deriving DecidableEq

structure Range where
  type : Str
  events : List Event
  deriving DecidableEq

structure Affected where
  ecosystem : Str
  name : Str
  ubuntuPriority : Option Str
  ranges : List Range
  deriving DecidableEq

/-- A record as the feed has it. Times are counted in microseconds; `size` is the
number of bytes of its file. -/
structure Record where
  id : Str
  summary : Str
  details : Str
  withdrawn : Bool
  upstream : List Str
  aliases : List Str
  related : List Str
  severity : List (Str × Str)
  published : Option Nat
  modified : Nat
  affected : List Affected
  size : Nat
  deriving DecidableEq

inductive Kind where
  | cve | advisory
  deriving DecidableEq

inductive Availability where
  | standard | pro
  deriving DecidableEq

/-- A row of `distro_vulns`. -/
structure Row where
  release : Release
  stream : Str
  package : Str
  recordId : Str
  kind : Kind
  introduced : Option Str
  fixed : Option Str
  lastAffected : Option Str
  cves : List Str
  severity : Option Str
  availability : Availability
  title : Option Str
  published : Option Nat
  modified : Nat
  deriving DecidableEq

/-- `_dt`: a time without its fraction of a second. -/
def dt (time : Nat) : Nat := time - time % 1000000

theorem dt_mono {t t' : Nat} (h : t ≤ t') : dt t ≤ dt t' := by
  unfold dt
  omega

structure Interval where
  introduced : Option Str
  fixed : Option Str
  lastAffected : Option Str

/-- One event: where the open interval starts, if one is open, and the intervals so far. -/
def event (state : Option (Option Str) × List Interval) (e : Event) : Option (Option Str) × List Interval :=
  match e.introduced, state.1 with
  | some v, _ => (some (if v = lit "0" then none else some (v.take 160)), state.2)
  | none, none => state
  | none, some start =>
    match e.fixed, e.lastAffected with
    | some v, _ => (none, state.2 ++ [⟨start, some (v.take 160), none⟩])
    | none, some v => (none, state.2 ++ [⟨start, none, some (v.take 160)⟩])
    | none, none => state

/-- `_intervals` -/
def intervals (ranges : List Range) : List Interval :=
  ranges.flatMap fun r =>
    if r.type ≠ lit "ECOSYSTEM" then []
    else
      let (isOpen, out) := r.events.foldl event (none, [])
      match isOpen with
      | some start => out ++ [⟨start, none, none⟩]
      | none => out

/-- `CVE-\d{4}-\d{4,}` at the start of a text. -/
def cveAt (digit : Char → Bool) (s : Str) : Option Str :=
  (after (lit "CVE-") s).bind fun rest =>
    let number := (rest.drop 5).takeWhile digit
    if (rest.take 4).length = 4 ∧ (rest.take 4).all digit ∧ (rest.drop 4).head? = some '-' ∧ 4 ≤ number.length then
      some (s.take (9 + number.length)) else none

/-- `_CVE.match` -/
def isCve (digit : Char → Bool) (s : Str) : Bool := (cveAt digit s).any (fun m => atEnd (s.drop m.length))

/-- `re.search(r"CVE-\d{4}-\d{4,}", s)` -/
def searchCve (digit : Char → Bool) (s : Str) : Option Str := s.tails.findSome? (cveAt digit)

/-- `_ADVISORY.match` -/
def isAdvisory (id : Str) : Bool :=
  [lit "USN-", lit "DSA-", lit "DLA-", lit "DTSA-", lit "RHSA-", lit "RHBA-", lit "RHEA-", lit "RLSA-", lit "RLBA-",
    lit "RLEA-", lit "RXSA-", lit "ALSA-", lit "ALBA-", lit "ALEA-"].any (fun p => startsWith p id)

/-- `_NOT_SECURITY.match` -/
def notSecurity (id : Str) : Bool :=
  [lit "RHBA-", lit "RHEA-", lit "RLBA-", lit "RLEA-", lit "ALBA-", lit "ALEA-"].any (fun p => startsWith p id)

/-- What kind of record it is and the CVEs it is about; none for one that is left out. -/
def classify (digit : Char → Bool) (rec : Record) : Option (Kind × List Str) :=
  let rid := rec.id.take 80
  if rid = [] ∨ rec.withdrawn then none
  else if isAdvisory rid then
    let cves := ((rid :: rec.upstream ++ rec.aliases ++ rec.related).filter (isCve digit)).dedup.insertionSort (· ≤ ·)
    if notSecurity rid ∧ cves = [] then none else some (.advisory, cves)
  else (searchCve digit rid).map (fun cve => (.cve, [cve]))

def titleOf (rec : Record) : Option Str :=
  let text := if rec.summary ≠ [] then rec.summary else (lines (strip rec.details)).headD []
  if text.take 300 = [] then none else some (text.take 300)

/-- `_RPM_SKIP.search` -/
def rpmSkip (name : Str) : Bool :=
  [lit "-debuginfo", lit "-debugsource"].any (fun p => endsWith p name || endsWith (p ++ ['\n']) name)

/-- `_KERNEL_SOURCE.match` -/
def kernelSource (name : Str) : Bool := (after (lit "linux") name).any (fun rest => startsWith (lit "-") rest || atEnd rest)

/-- `_SEV_WORD.get` -/
def sevWord (word : Str) : Option Str :=
  if word = lit "critical" then some (lit "critical")
  else if word = lit "important" ∨ word = lit "high" then some (lit "high")
  else if word = lit "moderate" ∨ word = lit "medium" then some (lit "medium")
  else if word = lit "low" ∨ word = lit "negligible" then some (lit "low")
  else none

/-- The rows of one affected package, with its ecosystem as the record has it. -/
def affectedRows (t : Tables Record) (rec : Record) (kind : Kind) (cves : List Str) (a : Affected) : List (Str × Row) :=
  let name := a.name.take 200
  match fromEcosystem t.digit t.word a.ecosystem with
  | none => []
  | some (release, pro) =>
    if name = [] then []
    else if release.distro.family = .rpm ∧ rpmSkip name then []
    else
      let sev := (a.ubuntuPriority.bind (fun p => sevWord (t.lower p))) <|> t.recordSeverity rec
      let kernel := release.distro.family = .deb ∧ kernelSource name
      let kept := (intervals a.ranges).filter (fun i => ¬ (kernel ∧ i.fixed = none ∧ i.lastAffected = none))
      kept.map fun i => (a.ecosystem, ⟨release, a.ecosystem.take 80, name, rec.id.take 80, kind, i.introduced, i.fixed,
        i.lastAffected, cves, sev, if pro then .pro else .standard, titleOf rec, rec.published.map dt, dt rec.modified⟩)

/-- What tells the rows of one record apart. -/
structure RowKey where
  release : Release
  ecosystem : Str
  name : Str
  introduced : Option Str
  fixed : Option Str
  last : Option Str
  deriving DecidableEq

def rowKey (x : Str × Row) : RowKey :=
  ⟨x.2.release, x.1, x.2.package, x.2.introduced, x.2.fixed, x.2.lastAffected⟩

/-- `rows_from`; every supported release is wanted when `wanted` is `None`. -/
def rowsFrom (t : Tables Record) (rec : Record) (wanted : Option (List Release)) : List Row :=
  match classify t.digit rec with
  | none => []
  | some (kind, cves) =>
    let found := rec.affected.flatMap fun a =>
      (affectedRows t rec kind cves a).filter (fun x => wanted.all (fun w => x.2.release ∈ w))
    (firstBy rowKey [] found).map Prod.snd

/-! ## What the rows of a record are like -/

theorem rowsFrom_wanted (t : Tables Record) (rec : Record) (wanted : List Release) :
    rowsFrom t rec (some wanted) = (rowsFrom t rec none).filter (fun row => row.release ∈ wanted) := by
  unfold rowsFrom
  split
  · rfl
  · rename_i kind cves _
    have hfilter : (rec.affected.flatMap fun a => (affectedRows t rec kind cves a).filter
          (fun x => (some wanted).all (fun w => x.2.release ∈ w))) =
        (rec.affected.flatMap (affectedRows t rec kind cves)).filter (fun x => decide ((rowKey x).release ∈ wanted)) := by
      rw [List.filter_flatMap]
      rfl
    have hall : (rec.affected.flatMap fun a => (affectedRows t rec kind cves a).filter
          (fun x => (none : Option (List Release)).all (fun w => x.2.release ∈ w))) =
        rec.affected.flatMap (affectedRows t rec kind cves) := by simp
    have hfirst := firstBy_filter rowKey (fun k => decide (k.release ∈ wanted)) []
      (rec.affected.flatMap (affectedRows t rec kind cves))
    simp only [hfilter, hall, hfirst, List.filter_map]
    rfl

theorem mem_rowsFrom_wanted {t : Tables Record} {rec : Record} {wanted : List Release} {row : Row} :
    row ∈ rowsFrom t rec (some wanted) ↔ row ∈ rowsFrom t rec none ∧ row.release ∈ wanted := by
  simp [rowsFrom_wanted]

/-- A row carries the id and the time of its record. -/
theorem of_mem_rowsFrom {t : Tables Record} {rec : Record} {wanted : Option (List Release)} {row : Row}
    (h : row ∈ rowsFrom t rec wanted) : row.recordId = rec.id.take 80 ∧ row.modified = dt rec.modified := by
  unfold rowsFrom at h
  split at h
  · simp at h
  · obtain ⟨x, hx, rfl⟩ := List.mem_map.mp h
    obtain ⟨a, -, ha⟩ := List.mem_flatMap.mp (mem_of_mem_firstBy hx).1
    have hrow := List.mem_of_mem_filter ha
    unfold affectedRows at hrow
    split at hrow
    · simp at hrow
    · dsimp only at hrow
      split at hrow
      · simp at hrow
      · split at hrow
        · simp at hrow
        · obtain ⟨i, -, rfl⟩ := List.mem_map.mp hrow
          exact ⟨rfl, rfl⟩

end OsvRecords
