import Mathlib.Data.List.Dedup
import Mathlib.Data.List.Sort
import Ngcorion.Advisories.PackageVersions
import Ngcorion.Cve.CpeVersions
import Ngcorion.Dict

/-!
# The upgrade plan

Each finding has one recommended action. `plan` closes the findings of a product on an asset by one step, the action with
the latest target among them.
-/
namespace Recommend

open Text PaddedOrder DebVersions KeyOrder PackageVersions
open OsvRecords (Family)

/-! ## Findings and actions -/

structure Link where
  url : Str
  label : Str

structure Eol where
  title : Str
  until_ : Option Str
  latest : Option Str
  deriving DecidableEq

/-- What is read of a finding -/
structure Finding where
  asset_id : Nat
  asset_name : Option Str
  cve_id : Str
  source : Str
  product : Option Str
  product_key : Option Str
  vendor : Option Str
  fixed_in : Option Str
  availability : Option Str
  advisories : List Str
  reboot : Bool
  package : Option Str
  binaries : List Str
  release : Option Str
  kev : Bool
  kev_due : Option Str
  priority : Option Nat
  severity : Option Str
  deriving DecidableEq

inductive Kind where
  | advisory | reboot | package | windows | version | after
  deriving DecidableEq

structure Action where
  kind : Kind
  text : Str
  product : Str
  target : Option Str
  pro : Bool
  commands : List Str
  link : Option Link
  check_vendor : Bool
  kev_action : Option Str
  kev_due : Option Str
  eol : Option Eol

/-- A text that is there and not empty -/
def given (text : Option Str) : Option Str := text.filter fun s => s ≠ []

def ADVISORY_PAGES : List (Str × Str) :=
  [(lit "USN-", lit "https://ubuntu.com/security/notices/"), (lit "DSA-", lit "https://security-tracker.debian.org/tracker/"),
   (lit "DLA-", lit "https://security-tracker.debian.org/tracker/"), (lit "RHSA-", lit "https://access.redhat.com/errata/")]

def advisory_page (advisory_id : Str) : Str :=
  match ADVISORY_PAGES.find? fun page => startsWith page.1 advisory_id with
  | some page => page.2 ++ advisory_id
  | none => lit "https://osv.dev/vulnerability/" ++ advisory_id

def _is_kernel (f : Finding) : Bool :=
  let name := f.package.getD []
  (startsWith (lit "linux") name || startsWith (lit "kernel") name) && f.binaries.any fun b =>
    startsWith (lit "linux-image") b || startsWith (lit "linux-modules") b || startsWith (lit "kernel") b

def _commands (family : Option Family) (f : Finding) (pro : Bool) : List Str :=
  let binaries := if f.binaries = [] then f.package.toList else f.binaries.insertionSort (· ≤ ·)
  let kernel := _is_kernel f
  let attach := if pro then [lit "sudo pro attach <your-token>"] else []
  let reboot := if kernel then [lit "sudo reboot"] else []
  match family with
  | some .deb =>
    attach ++ [lit "sudo apt-get update", if kernel then lit "sudo apt-get full-upgrade"
      else lit "sudo apt-get install --only-upgrade " ++ join [' '] binaries] ++ reboot
  | some .rpm =>
    attach ++ [if kernel then lit "sudo dnf upgrade kernel" else lit "sudo dnf upgrade " ++ join [' '] binaries] ++ reboot
  | none => []

/-- `releases.family` -/
def family (release : Str) : Option Family :=
  let distro := release.takeWhile (· ≠ ':')
  if distro = lit "ubuntu" ∨ distro = lit "debian" then some .deb
  else if distro = lit "rhel" ∨ distro = lit "rocky" ∨ distro = lit "alma" then some .rpm
  else none

section

variable (dg : UnicodeDigits) (lower : Str → Str) (vendor_link : Str → Str → List Str → Link)

def action_for (f : Finding) (references : List Str) (kev_action : Option Str) (family : Option Family)
    (end_incl : Option Str) (eol : Option Eol) : Action :=
  let product := ((given f.product).or (given f.product_key)).getD []
  let vendor := lower (f.vendor.getD [])
  let out : Action := ⟨.advisory, lit "No fixed version is known here: follow the vendor's advisory", product, none, false, [],
    none, false, if f.kev then kev_action else none, if f.kev then f.kev_due else none, eol⟩
  if f.source = lit "advisory" then
    let pro := f.availability = some (lit "pro")
    let out := { out with link := f.advisories.head?.map fun id => ⟨advisory_page id, id⟩ }
    match given f.fixed_in with
    | none => out
    | some fixed =>
      if f.reboot && _is_kernel f then
        { out with
          kind := .reboot
          target := some fixed
          commands := [lit "sudo reboot"]
          text := lit "Restart the machine: the fixed kernel " ++ fixed ++ lit " is installed but not running" }
      else
        { out with
          kind := .package
          target := some fixed
          pro := pro
          commands := _commands family f pro
          text := lit "Upgrade " ++ product ++ lit " to " ++ fixed ++ lit " or later" }
  else
    let out := { out with link := some (vendor_link f.cve_id vendor references) }
    if vendor = lit "microsoft" ∧ startsWith (lit "windows") (f.product_key.getD []) then
      { out with
        kind := .windows
        target := f.fixed_in
        check_vendor := (given f.fixed_in).isSome
        text := lit "Install the latest cumulative update for " ++ product ++
          match given f.fixed_in with
          | some fixed => lit " (build " ++ fixed ++ lit " or later)"
          | none => [] }
    else
      match (given f.fixed_in).filter fun fixed => !startsWith (lit "after ") fixed, given end_incl with
      | some fixed, _ =>
        { out with
          kind := .version
          target := some fixed
          check_vendor := true
          text := lit "Upgrade " ++ product ++ lit " to " ++ fixed ++ lit " or later" }
      | none, some last =>
        { out with
          kind := .after
          target := some last
          check_vendor := true
          text := lit "Upgrade " ++ product ++ lit " to a version later than " ++ last }
      | none, none => out

/-- A finding with what `annotate` knows of its CVE and asset -/
structure Row where
  finding : Finding
  references : List Str
  kev_action : Option Str
  end_incl : Option Str
  eol : Option Eol
  deriving DecidableEq

def Row.family (r : Row) : Option Family := (given r.finding.release).bind Recommend.family

def Row.action (r : Row) : Action :=
  action_for lower vendor_link r.finding r.references r.kev_action r.family r.end_incl r.eol

/-! ## The plan -/

def _later (family : Option Family) (kind : Kind) (a b : Option Str) : Except PyError Bool :=
  match given b, given a with
  | none, a => .ok a.isSome
  | some _, none => .ok false
  | some b, some a =>
    match family with
    | some fam =>
      if kind = .package ∨ kind = .reboot then (PackageVersions.compare dg fam a b).map fun x => decide (0 < x)
      else (CpeVersions.compare dg lower a b).map fun x => decide (0 < x)
    | none => (CpeVersions.compare dg lower a b).map fun x => decide (0 < x)

/-- Findings of one class are in a group; those without a known fix are alone with their CVE. -/
inductive Class where
  | windows | advisory | upgrade
  deriving DecidableEq

def classOf : Kind → Class
  | .windows => .windows
  | .advisory => .advisory
  | _ => .upgrade

abbrev Key := Nat × Class × Option Str × Option Str

def Row.key (r : Row) : Key :=
  let kind := (r.action lower vendor_link).kind
  (r.finding.asset_id, classOf kind, (given r.finding.product_key).or r.finding.product,
    if kind = .advisory then some r.finding.cve_id else none)

/-- A group of findings. `best` is the finding whose action is the best one, and `counted`, which the code does not keep, the
findings that have been counted. -/
structure Group where
  asset_id : Nat
  asset_name : Option Str
  product : Option Str
  findings : Nat
  cves : List Str
  kev : Bool
  priority : Nat
  critical : Nat
  pro : Bool
  best : Row
  counted : List Row

def Group.new (r : Row) : Group where
  asset_id := r.finding.asset_id
  asset_name := r.finding.asset_name
  product := (given (r.action lower vendor_link).product).or r.finding.product
  findings := 0
  cves := []
  kev := false
  priority := 9
  critical := 0
  pro := false
  best := r
  counted := []

def Group.count (g : Group) (r : Row) : Group :=
  { g with
    pro := g.pro || (r.action lower vendor_link).pro
    findings := g.findings + 1
    cves := g.cves ++ [r.finding.cve_id]
    kev := g.kev || r.finding.kev
    priority := min g.priority (match r.finding.priority with
      | none | some 0 => 9
      | some p => p)
    critical := g.critical + if r.finding.severity = some (lit "critical") then 1 else 0
    counted := g.counted ++ [r] }

def laterRow (r s : Row) : Except PyError Bool :=
  _later dg lower r.family (r.action lower vendor_link).kind (r.action lower vendor_link).target (s.action lower vendor_link).target

/-- The body of the first loop -/
def add (groups : List (Key × Group)) (r : Row) : Except PyError (List (Key × Group)) := do
  let key := r.key lower vendor_link
  match Dict.get groups key with
  | none => return Dict.set groups key ((Group.new lower vendor_link r).count lower vendor_link r)
  | some g =>
    let g := if ← laterRow dg lower vendor_link r g.best then { g with best := r } else g
    return Dict.set groups key (g.count lower vendor_link r)

/-- A step of the plan; `best` and `counted` are those of its group. -/
structure Step where
  asset_id : Nat
  asset_name : Option Str
  product : Option Str
  findings : Nat
  cves : List Str
  kev : Bool
  priority : Nat
  critical : Nat
  pro : Bool
  kind : Kind
  text : Str
  target : Option Str
  commands : List Str
  link : Option Link
  check_vendor : Bool
  eol : Option Eol
  best : Row
  counted : List Row

def Group.step (g : Group) : Step :=
  let a := g.best.action lower vendor_link
  { asset_id := g.asset_id, asset_name := g.asset_name, product := g.product, findings := g.findings
    cves := g.cves.dedup.insertionSort (· ≤ ·), kev := g.kev, priority := g.priority, critical := g.critical, pro := g.pro
    kind := a.kind, text := a.text, target := a.target, commands := a.commands, link := a.link
    check_vendor := a.check_vendor, eol := a.eol, best := g.best, counted := g.counted }

/-- By priority, known exploited ones first, then by the number of findings and the product -/
def compareSteps : Step → Step → Ordering :=
  compareLex (compareOn Step.priority) (compareLex (compareOn fun s => !s.kev)
    (compareLex (compareOn fun s => -(s.findings : Int)) (compareOn fun s => s.product.getD [])))

def plan (rows : List Row) : Except PyError (List (Nat × List Step)) := do
  let groups ← rows.foldlM (add dg lower vendor_link) []
  let out := groups.foldl (fun out e =>
    Dict.set out e.2.asset_id ((Dict.get out e.2.asset_id).getD [] ++ [e.2.step lower vendor_link])) []
  return out.map fun e => (e.1, e.2.insertionSort fun a b => (compareSteps a b).isLE = true)

end

end Recommend
