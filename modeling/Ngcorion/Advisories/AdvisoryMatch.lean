import Ngcorion.Advisories.OsvRanges
import Ngcorion.Advisories.PackageVersions
import Ngcorion.Dict

/-!
# Matching installed packages against advisories

The installed packages that count are looked up under the names that the distribution publishes, and each version is
compared with the rows of its package. A finding has the lowest of the open versions and the highest of the fixed ones,
where the standard updates are preferred to those of Ubuntu Pro.
-/
namespace AdvisoryMatch

open Text DebVersions KeyOrder OsvRecords OsvRanges

/-- A package of the distribution's repositories -/
structure SoftwareItem where
  name : Str
  version : Str
  source_package : Option Str
  source_version : Option Str
  deriving DecidableEq

/-- `a or b` of texts -/
def orText (a b : Option Str) : Option Str := (given a).or b

section

variable (dg : UnicodeDigits) (word : Char → Bool) (iterate : List Str → List Str)

/-! ## Package names -/

def isDecimal (c : Char) : Bool := (dg.value c).isSome

def digitsAt (s : Str) : Option (Str × Str) :=
  let ds := s.takeWhile (isDecimal dg)
  if ds = [] then none else some (ds, s.drop ds.length)

/-- `(\d+\.\d+\.\d+)-(\d+)` at the beginning of a text -/
def abiGroups (s : Str) : Option (Str × Str) := do
  let (a, s) ← digitsAt dg s
  let (b, s) ← digitsAt dg (← after ['.'] s)
  let (c, s) ← digitsAt dg (← after ['.'] s)
  let (d, _) ← digitsAt dg (← after ['-'] s)
  return (a ++ '.' :: b ++ '.' :: c, d)

def abiText (s : Str) : Option Str := (abiGroups dg s).map fun g => g.1 ++ '-' :: g.2

/-- `[\w.-]*-(\d+\.\d+\.\d+-\d+)` -/
def abiAfterName (s : Str) : Option Str :=
  let longest := (s.takeWhile fun c => word c || c = '.' || c = '-').length
  (List.range (longest + 1)).reverse.findSome? fun n => (after ['-'] (s.drop n)).bind (abiText dg)

def abiPackages : List Str :=
  [lit "image-unsigned", lit "image", lit "modules-extra", lit "modules", lit "headers", lit "tools", lit "cloud-tools",
   lit "buildinfo", lit "objects", lit "signatures"]

/-- `_DEB_KERNEL_ABI.match(name)` -/
def kernelAbi (name : Str) : Option Str :=
  (after (lit "linux-") name).bind fun rest =>
    (abiPackages.findSome? fun p => (after (p ++ ['-']) rest).bind (abiText dg)).or
      ((after (lit "modules-nvidia") rest).bind (abiAfterName dg word))

/-- `(-.+)?$` -/
def flavour (s : Str) : Option Str :=
  match s with
  | '-' :: t =>
    let u := t.takeWhile (· ≠ '\n')
    if u ≠ [] ∧ atEnd (t.drop u.length) then some ('-' :: u) else none
  | s => if atEnd s then some [] else none

def endsAfter (ps : List Str) (s : Str) : Bool := ps.any fun p => (after p s).any atEnd

def _deb_key (it : SoftwareItem) : Option Str :=
  let src := ((orText it.source_package (some it.name)).getD []).takeWhile (· ≠ ' ')
  if ((after (lit "linux-meta") src).bind flavour).isSome then none
  else if (after (lit "linux-signed-") src).any (endsAfter [lit "amd64", lit "arm64", lit "i386", lit "armhf", lit "ppc64el",
      lit "s390x"]) then some (lit "linux")
  else match (after (lit "linux-signed") src).bind flavour with
    | some g => some (lit "linux" ++ g)
    | none => some src

/-- `_DEB_KERNEL_HELPER.match(name)` -/
def isHelper (name : Str) : Bool :=
  (after (lit "linux-") name).any fun rest =>
    endsAfter [lit "libc-dev", lit "tools-common", lit "cloud-tools-common", lit "doc", lit "source", lit "tools-host",
      lit "bpf-dev", lit "perf"] rest ||
    (after (lit "source-") rest).any fun t =>
      let ds := t.takeWhile fun c => isDecimal dg c || c = '.'
      ds ≠ [] && atEnd (t.drop ds.length)

/-- `_RPM_KERNEL.match(name)` -/
def isRpmKernel (name : Str) : Bool :=
  (after (lit "kernel") name).any fun rest => atEnd rest ||
    endsAfter [lit "-core", lit "-modules", lit "-modules-core", lit "-modules-extra", lit "-devel", lit "-uek",
      lit "-uek-core", lit "-uek-modules", lit "-rt", lit "-rt-core", lit "-rt-modules", lit "-debug", lit "-debug-core",
      lit "-debug-modules"] rest

/-- What is left behind a match of `_ARCH` at the beginning of a text -/
def archAt (s : Str) : Option Str :=
  [lit ".x86_64", lit ".aarch64", lit ".ppc64le", lit ".s390x", lit ".i686", lit ".noarch"].findSome? fun arch =>
    (after arch s).bind fun rest =>
      let u := (rest.drop 1).takeWhile word
      if rest.head? = some '+' ∧ u ≠ [] ∧ atEnd (rest.drop (u.length + 1)) then some (rest.drop (u.length + 1))
      else if atEnd rest then some rest
      else none

/-- `_ARCH.sub("", running)` -/
def dropArch : Str → Str
  | [] => []
  | c :: s =>
    match archAt word (c :: s) with
    | some rest => rest
    | none => c :: dropArch s

/-- `re.sub(r"^0:", "", version)` -/
def dropZeroEpoch (version : Str) : Str := (after (lit "0:") version).getD version

/-! ## The kernels that count -/

/-- `max(versions, key=...)` of a set; `iterate` goes through it. -/
def latest (fam : Family) (versions : List Str) : Except PyError (Option Str) :=
  match iterate versions with
  | [] => .ok none
  | v :: vs => (greatest (fun f best => (PackageVersions.compare dg fam best f).map fun x => decide (x < 0)) v vs).map some

/-- The items that count, the newest kernel and the running one -/
structure Kernels where
  kept : List SoftwareItem
  newest : Option Str
  run : Option Str

def debKernels (items : List SoftwareItem) (running : Option Str) : Except PyError Kernels := do
  let abis := items.filterMap fun it => kernelAbi dg word it.name
  if abis = [] then return ⟨items, none, none⟩
  let newest ← latest dg iterate .deb abis
  let run := (given running).map fun r => (abiText dg r).getD (lit "foreign")
  let keep := match run with
    | none => newest
    | some r => if r ∈ abis then some r else none
  let kept := items.filter fun it => (kernelAbi dg word it.name).all fun abi => some abi = keep
  return ⟨kept, newest, if run = some (lit "foreign") then none else run⟩

def rpmKernels (items : List SoftwareItem) (running : Option Str) : Except PyError Kernels := do
  let kernels := items.filter fun it => isRpmKernel it.name
  if kernels = [] then return ⟨items, none, none⟩
  let versions := kernels.map fun it => dropZeroEpoch it.version
  let newest ← latest dg iterate .rpm versions
  let run := (given running).map (dropArch word)
  let keep := match run with
    | some r => if r ∈ versions then some r else if r = [] then newest else none
    | none => newest
  let kept := items.filter fun it => !isRpmKernel it.name || some (dropZeroEpoch it.version) = keep
  return ⟨kept, newest, run⟩

def _kernel_filter (fam : Family) (items : List SoftwareItem) (running : Option Str) : Except PyError Kernels :=
  match fam with
  | .deb => debKernels dg word iterate items running
  | .rpm => rpmKernels dg word iterate items running

/-- An item that counts, with the name and the version that are looked up -/
structure Counted where
  package : Str
  version : Str
  name : Str

def keyed (fam : Family) (it : SoftwareItem) : Option Counted :=
  match fam with
  | .deb =>
    if isHelper dg it.name then none
    else (given (_deb_key it)).map fun key => ⟨key, (orText it.source_version (some it.version)).getD [], it.name⟩
  | .rpm => (given (some it.name)).map fun key => ⟨key, it.version, it.name⟩

/-! ## Evaluation -/

/-- What `_evaluate` says of an item that counts, one row and one CVE of it -/
structure Hit where
  item : Counted
  cve : Str
  kind : Kind
  rid : Str
  fixed : Option Str
  avail : Availability
  sev : Option Str
  title : Option Str
  state : State

def interval (row : Row) : Interval := ⟨row.introduced, row.fixed, row.lastAffected⟩

def rowHits (fam : Family) (item : Counted) (row : Row) : Except PyError (List Hit) := do
  match ← OsvRanges.state (PackageVersions.compare dg fam) item.version (interval row) with
  | none => return []
  | some st =>
    return row.cves.map fun cve => ⟨item, cve, row.kind, row.recordId, row.fixed, row.availability, row.severity, row.title, st⟩

def _evaluate (release : Release) (rows : List Row) (item : Counted) : Except PyError (List Hit) := do
  let found ← (rows.filter fun r => r.release = release ∧ r.package = item.package).mapM (rowHits dg release.distro.family item)
  return found.flatten

/-! ## Merging -/

abbrev Key := Str × Str

structure Opened where
  cve_id : Str
  package : Str
  binaries : List Str
  installed : Str
  fixed : List (Availability × Str)
  advisories : List Str
  severity : Option Str
  title : Option Str

structure Unfixed where
  cve_id : Str
  package : Str
  binaries : List Str
  installed : Str
  severity : Option Str
  availability : Availability
  deriving DecidableEq

structure Merged where
  opened : List (Key × Opened)
  resolved : List Key
  unfixed : List (Key × Unfixed)

def Hit.key (h : Hit) : Key := (h.item.package, h.cve)

def Hit.opens (h : Hit) : Opened := ⟨h.cve, h.item.package, [], h.item.version, [], [], none, none⟩

def Hit.unfixes (h : Hit) : Unfixed := ⟨h.cve, h.item.package, [], h.item.version, none, h.avail⟩

/-- An open version and its fix -/
def Opened.add (fam : Family) (f : Opened) (h : Hit) : Except PyError Opened := do
  let lower := (← PackageVersions.compare dg fam h.item.version f.installed) < 0
  let fixed := h.fixed.getD []
  let later ← match Dict.get f.fixed h.avail with
    | none => pure true
    | some prev => (PackageVersions.compare dg fam fixed prev).map fun x => decide (0 < x)
  return { f with
    binaries := f.binaries ++ [h.item.name]
    installed := if lower then h.item.version else f.installed
    fixed := if later then Dict.set f.fixed h.avail fixed else f.fixed
    advisories := if h.kind = .advisory then f.advisories ++ [h.rid] else f.advisories
    title := if h.kind = .advisory then orText f.title h.title else f.title
    severity := orText f.severity h.sev }

def merge (fam : Family) (m : Merged) (h : Hit) : Except PyError Merged :=
  match h.state with
  | .fixed => .ok { m with resolved := m.resolved ++ [h.key] }
  | .unfixed =>
    let u := (Dict.get m.unfixed h.key).getD h.unfixes
    .ok { m with
      unfixed := Dict.set m.unfixed h.key
        { u with binaries := u.binaries ++ [h.item.name], severity := orText u.severity h.sev } }
  | .opened => do
    let f ← ((Dict.get m.opened h.key).getD h.opens).add dg fam h
    return { m with opened := Dict.set m.opened h.key f }

/-! ## Findings -/

structure Finding where
  cve_id : Str
  package : Str
  binaries : List Str
  installed : Str
  fixed_in : Str
  availability : Availability
  advisories : List Str
  vendor_severity : Option Str
  title : Option Str
  kernel : Bool
  reboot : Bool
  deriving DecidableEq

structure AssetAdvisories where
  newest_kernel : Option Str
  reboot_required : Bool
  findings : List Finding
  unfixed : List Unfixed
  deriving DecidableEq

/-- The fix of the standard updates, else the one of Ubuntu Pro -/
def Opened.fix (f : Opened) : Str × Availability :=
  match Dict.get f.fixed .standard with
  | some fixed => (fixed, .standard)
  | none => ((Dict.get f.fixed .pro).getD [], .pro)

def _abi_fixed (newest_abi fixed : Str) : Except PyError Bool :=
  match abiGroups dg fixed, abiGroups dg newest_abi with
  | some m, some n =>
    (PackageVersions.compare dg .deb (n.1 ++ '-' :: n.2) (m.1 ++ '-' :: m.2)).map fun x => decide (0 ≤ x)
  | _, _ => .ok false

/-- Whether one of the installed packages has the fix -/
def fixInstalled (fam : Family) (binaries : List Str) (fixed : Str) : List SoftwareItem → Except PyError Bool
  | [] => .ok false
  | it :: items => do
    if (it.name ∈ binaries ∨ isRpmKernel it.name) ∧ it.version ≠ [] then
      if 0 ≤ (← PackageVersions.compare dg fam it.version fixed) then return true
      else fixInstalled fam binaries fixed items
    else fixInstalled fam binaries fixed items

/-- Whether the fix is installed, but not running -/
def rebootNeeded (fam : Family) (items : List SoftwareItem) (newest : Option Str) (kernel : Bool) (binaries : List Str)
    (fixed : Str) : Except PyError Bool := do
  match given newest with
  | none => return false
  | some newest =>
    if !kernel then return false
    else if ← fixInstalled dg fam binaries fixed items then return true
    else if fam = .deb then _abi_fixed dg newest fixed
    else return false

def Opened.finding (fam : Family) (items : List SoftwareItem) (newest : Option Str) (f : Opened) : Except PyError Finding := do
  let fixed := f.fix.1
  let kernel := f.binaries.any fun b => (kernelAbi dg word b).isSome || isRpmKernel b
  let reboot ← rebootNeeded dg fam items newest kernel f.binaries fixed
  return ⟨f.cve_id, f.package, f.binaries.dedup.insertionSort (· ≤ ·), f.installed, fixed, f.fix.2,
    f.advisories.dedup.insertionSort (· ≤ ·), f.severity, f.title, kernel, reboot⟩

/-- The packages that count -/
def counted (fam : Family) (items : List SoftwareItem) (running : Option Str) : Except PyError (List Counted) := do
  let kernels ← _kernel_filter dg word iterate fam items running
  return kernels.kept.filterMap (keyed dg fam)

def hits (release : Release) (rows : List Row) (items : List SoftwareItem) (running : Option Str) : Except PyError (List Hit) := do
  let found ← (← counted dg word iterate release.distro.family items running).mapM (_evaluate dg release rows)
  return found.flatten

def byKey {α : Type} (package cve_id : α → Str) (a b : α) : Prop :=
  ((compareLex (compareOn package) (compareOn cve_id)) a b).isLE = true

instance {α : Type} (package cve_id : α → Str) : DecidableRel (byKey package cve_id) := fun _ _ =>
  inferInstanceAs (Decidable (_ = true))

/-- Whether the running kernel is older than the newest one -/
def runsBehind (fam : Family) (kernels : Kernels) : Except PyError Bool :=
  match given kernels.newest, given kernels.run with
  | some newest, some run => (PackageVersions.compare dg fam run newest).map fun x => decide (x < 0)
  | _, _ => .ok false

/-- `analyse` of one asset, whose release is loaded -/
def analyse (release : Release) (rows : List Row) (items : List SoftwareItem) (running : Option Str) (reboot_required : Bool) :
    Except PyError AssetAdvisories := do
  let fam := release.distro.family
  let kernels ← _kernel_filter dg word iterate fam items running
  let behind ← runsBehind dg fam kernels
  let merged ← (← hits dg word iterate release rows items running).foldlM (merge dg fam) ⟨[], [], []⟩
  let findings ← merged.opened.mapM fun e => e.2.finding dg word fam items kernels.newest
  let unfixed := (merged.unfixed.filter fun e => e.1 ∉ Dict.keys merged.opened ∧ e.1 ∉ merged.resolved).map fun e =>
    { e.2 with binaries := e.2.binaries.dedup.insertionSort (· ≤ ·) }
  return ⟨kernels.newest, reboot_required || behind, findings.insertionSort (byKey Finding.package Finding.cve_id),
    unfixed.insertionSort (byKey Unfixed.package Unfixed.cve_id)⟩

end

end AdvisoryMatch
