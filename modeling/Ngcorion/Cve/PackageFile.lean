import Ngcorion.Cve.EpssCsv
import Ngcorion.Cve.OfflinePackage
import Ngcorion.Json
import Ngcorion.Octets

/-!
# Update package files

What `build` writes into a package, what `verify` checks of a file, and what `_import` reads from one. The hash, the signature,
the compression and the texts of numbers and times are the parameters of a `Platform`. Times are seconds.
-/
namespace PackageFile

open Text Octets CveStore OfflinePackage
open Json (Value)

inductive PyError where
  | package (message : Str)
  | json | recursion | key | attribute | type | io

/-- The UTF-8 bytes of a text -/
def utf8 (s : Str) : Bytes := encode (String.ofList s)

structure Platform (F : Type) where
  floats : Json.Floats F
  /-- The limit of recursion of `json.loads` -/
  nesting : Nat
  /-- `json.loads` finds the encoding of bytes; nothing for an `UnicodeDecodeError`. -/
  jsonText : Bytes → Option Str
  /-- `repr` and `float` -/
  repr : F → Str
  float : Str → Option F
  /-- `str` of a value -/
  str : Value F → Str
  /-- `isoformat` of a time and of a date, `fromisoformat`, and a time in a message -/
  isoformat : Nat → Str
  isodate : Nat → Str
  fromisoformat : Str → Option Nat
  strftime : Nat → Str
  /-- `hashlib.sha256(data).hexdigest()` -/
  sha256 : Bytes → Str
  /-- What `gzip` writes for several writes, and what it reads; nothing for a file that is damaged -/
  gzip : List Bytes → Bytes
  gunzip : Bytes → Option Bytes
  b64encode : Bytes → Str
  b64decode : Str → Option Bytes
  /-- Ed25519: the public key of a private one, and `sign` -/
  public_key : Bytes → Bytes
  sign : Bytes → Bytes → Bytes

section

variable {F : Type} (p : Platform F)

def FORMAT : Int := 1

def MEMBERS : List Str := [lit "manifest.json", lit "manifest.sig", lit "cves.jsonl.gz", lit "kev.json", lit "epss.csv.gz"]

def OPTIONAL : List Str := [lit "advisories.jsonl.gz"]

def MAX_MEMBER_BYTES : Nat := 6 * 1024 * 1024 * 1024

/-! ## Export -/

def optional (s : Option Str) : Value F := s.elim .null .str

def optionalTime (iso : Nat → Str) (t : Option Nat) : Value F := optional (t.map iso)

def partText : Part → Str
  | .application => ['a']
  | .os => ['o']
  | .hardware => ['h']

def cpeRecord (c : Cpe) : Value F :=
  .obj [(lit "part", optional (c.part.map partText)), (lit "vendor", .str c.vendor), (lit "product", .str c.product),
    (lit "version", optional c.version), (lit "start_incl", optional c.start_incl), (lit "start_excl", optional c.start_excl),
    (lit "end_incl", optional c.end_incl), (lit "end_excl", optional c.end_excl)]

def _record (id : CveId) (e : Nvd F) (cpes : List Cpe) : Value F :=
  .obj [(lit "id", .str id.text), (lit "published", optionalTime p.isoformat e.published),
    (lit "modified", optionalTime p.isoformat e.last_modified), (lit "status", optional e.status),
    (lit "description", .str e.description),
    (lit "cvss", .obj [(lit "score", e.cvss_score.elim .null .float), (lit "version", optional e.cvss_version),
      (lit "severity", optional e.severity), (lit "vector", optional e.cvss_vector)]),
    (lit "cwe", optional e.cwe), (lit "refs", .arr (e.references.map .str)), (lit "cpes", .arr (cpes.map cpeRecord))]

def kevRecord (id : CveId) (k : Kev) : Value F :=
  .obj [(lit "id", .str id.text), (lit "added", optionalTime p.isodate k.kev_added),
    (lit "due", optionalTime p.isodate k.kev_due), (lit "ransomware", optional k.kev_ransomware),
    (lit "action", optional k.kev_action)]

/-- A row of `distro_vulns` -/
structure DistroVuln where
  release : Str
  stream : Str
  package : Str
  record_id : Str
  kind : Str
  introduced : Option Str
  fixed : Option Str
  last_affected : Option Str
  cves : List Str
  severity : Option Str
  availability : Str
  title : Option Str
  published : Option Nat
  modified : Option Nat

def advisoryRecord (r : DistroVuln) : Value F :=
  .obj [(lit "release", .str r.release), (lit "stream", .str r.stream), (lit "package", .str r.package),
    (lit "record_id", .str r.record_id), (lit "kind", .str r.kind), (lit "introduced", optional r.introduced),
    (lit "fixed", optional r.fixed), (lit "last_affected", optional r.last_affected), (lit "cves", .arr (r.cves.map .str)),
    (lit "severity", optional r.severity), (lit "availability", .str r.availability), (lit "title", optional r.title),
    (lit "published", optionalTime p.isoformat r.published), (lit "modified", optionalTime p.isoformat r.modified)]

structure DistroFeed where
  release : Str
  watermark : Option Nat
  rows : Nat

/-- The database that is exported; its tables are in the order of the queries. -/
structure Source (F : Type) where
  watermark : Option Nat
  db : CveStore.Db F
  kev_version : Option Str
  kev_released : Option Str
  epss_date : Option Str
  instance_name : Option Str
  feeds : List DistroFeed
  releases_unique : (feeds.map DistroFeed.release).Nodup
  vulns : List DistroVuln

/-- The advisories that are exported: those of the releases that are loaded -/
def loadedFeeds (src : Source F) : List (Str × Nat × Nat) :=
  src.feeds.filterMap fun f => if f.rows = 0 then none else f.watermark.map fun watermark => (f.release, watermark, f.rows)

def advisoryRows (src : Source F) : List DistroVuln :=
  (loadedFeeds src).flatMap fun f => src.vulns.filter fun r => r.release = f.1

def advisoryInfo (src : Source F) : List (Str × Value F) :=
  (loadedFeeds src).map fun f =>
    (f.1, .obj [(lit "watermark", .str (p.isoformat f.2.1)), (lit "rows", .int f.2.2)])

def exported (kind : Kind) (since : Option Nat) (src : Source F) : List (CveId × CveEntry F) :=
  src.db.entries.filter fun e => selected kind since e.2.nvd

/-- What a package holds -/
structure Contents (F : Type) where
  cves : List (Value F)
  kev : List (Str × Value F)
  epss : List (Str × F × Option F)
  epss_date : Str
  info : List (Str × Value F)
  advisories : List (Value F)

def contents (kind : Kind) (since : Option Nat) (src : Source F) : Contents F where
  cves := (exported kind since src).map fun e => _record p e.1 e.2.nvd ((src.db.cpes e.1).map Prod.snd)
  kev := [(lit "version", optional src.kev_version), (lit "released", optional src.kev_released),
    (lit "items", .arr ((src.db.entries.filter fun e => e.2.kev.kev).map fun e => kevRecord p e.1 e.2.kev))]
  epss := src.db.entries.filterMap fun e => e.2.epss.epss.map fun score => (e.1.text, score, e.2.epss.epss_percentile)
  epss_date := src.epss_date.getD []
  info := advisoryInfo p src
  advisories := (advisoryRows src).map (advisoryRecord p)

def jsonLine (v : Value F) : Str := Json.dumps p.floats Json.compact v ++ ['\n']

/-- The members that the manifest lists -/
def members (c : Contents F) : List (Str × Bytes) :=
  [(lit "cves.jsonl.gz", p.gzip (c.cves.map fun v => utf8 (jsonLine p v))),
    (lit "kev.json", utf8 (Json.dumps p.floats Json.spaced (.obj c.kev))),
    (lit "epss.csv.gz", p.gzip (utf8 (lit "#score_date:" ++ c.epss_date ++ '\n' :: lit "cve,epss,percentile" ++ ['\n']) ::
      c.epss.map fun e => utf8 (EpssCsv.rowText p.repr e ++ ['\n'])))] ++
  if c.info = [] then [] else [(lit "advisories.jsonl.gz", p.gzip (c.advisories.map fun v => utf8 (jsonLine p v)))]

def kindText : Kind → Str
  | .full => lit "full"
  | .delta => lit "delta"

def fingerprint (public_b64 : Str) : Str := p.sha256 ((p.b64decode public_b64).getD [])

/-- The manifest of a package that the owner of a private key builds -/
def manifestFields (raw : Bytes) (created_at : Str) (kind : Kind) (since : Option Nat) (ends : Nat) (src : Source F) :
    List (Str × Value F) :=
  let c := contents p kind since src
  [(lit "format", .int FORMAT), (lit "kind", .str (kindText kind)), (lit "created_at", .str created_at),
    (lit "instance", .str ((src.instance_name.filter fun s => s ≠ []).getD (lit "NGCorion"))),
    (lit "since", optionalTime p.isoformat since), (lit "until", .str (p.isoformat ends)),
    (lit "counts", .obj [(lit "cves", .int c.cves.length),
      (lit "kev", .int (src.db.entries.filter fun e => e.2.kev.kev).length), (lit "epss", .int c.epss.length)]),
    (lit "kev", .obj [(lit "version", optional src.kev_version), (lit "released", optional src.kev_released)]),
    (lit "epss_date", optional src.epss_date),
    (lit "files", .obj ((members p c).map fun m =>
      (m.1, .obj [(lit "sha256", .str (p.sha256 m.2)), (lit "size", .int m.2.length)]))),
    (lit "key_fingerprint", .str (fingerprint p (p.b64encode (p.public_key raw))))] ++
  if c.info = [] then [] else [(lit "advisories", Value.obj c.info)]

structure Built (F : Type) where
  contents : Contents F
  manifest : List (Str × Value F)
  manifest_bytes : Bytes
  signature : Bytes
  members : List (Str × Bytes)

def build (raw : Bytes) (created_at : Str) (kind : Kind) (since : Option Nat) (src : Source F) : Except PyError (Built F) :=
  match src.watermark with
  | none => .error (.package (lit "The CVE database has not been loaded yet - there is nothing to export."))
  | some ends =>
    if kind = .delta ∧ since = none then .error (.package (lit "A delta package needs a start date."))
    else
      let manifest := manifestFields p raw created_at kind since ends src
      let manifest_bytes := utf8 (Json.dumps p.floats (Json.indented 2) (Json.sortKeys (.obj manifest)))
      .ok ⟨contents p kind since src, manifest, manifest_bytes, utf8 (p.b64encode (p.sign raw manifest_bytes)),
        members p (contents p kind since src)⟩

/-! ## Archives -/

/-- A ZIP file: its list of members, where a name may stand twice, and what reading a member by its name gives -/
structure Archive where
  infolist : List (Str × Nat)
  contents : Str → Except PyError Bytes

def Archive.namelist (zf : Archive) : List Str := zf.infolist.map Prod.fst

def Archive.read (zf : Archive) (name : Str) : Except PyError Bytes :=
  if name ∈ zf.namelist then zf.contents name else .error .key

/-- A file; one that is no archive is a `BadZipFile`. -/
structure File where
  size : Nat
  archive : Option Archive

def openFile (max_package : Nat) (file : File) : Except PyError Archive :=
  if max_package < file.size then .error (.package (lit "The file is larger than the allowed package size."))
  else match file.archive with
    | none => .error (.package (lit "Not an NGCorion update package (not a valid archive)."))
    | some zf =>
      if MEMBERS.any (· ∉ zf.namelist) ∨ zf.namelist.any (fun n => n ∉ MEMBERS ∧ n ∉ OPTIONAL) then
        .error (.package (lit "Not an NGCorion update package (unexpected contents)."))
      else if zf.infolist.any (fun i => MAX_MEMBER_BYTES < i.2) then
        .error (.package (lit "The package contents are larger than allowed."))
      else .ok zf

/-- `decode("ascii", "replace")` -/
def ascii (bytes : Bytes) : Str := bytes.map fun b => if b < 128 then Char.ofNat b.toNat else '\uFFFD'

/-- `json.loads` of bytes; it raises a `ValueError` for what it cannot read. -/
def loadsBytes (bytes : Bytes) : Except PyError (Value F) :=
  match p.jsonText bytes with
  | none => .error .json
  | some s => (Json.loads p.floats p.nesting s).mapError fun e => if e = .invalid then .json else .recursion

/-! ## Keys -/

/-- A key that packages may be signed with -/
structure TrustedKey where
  name : Str
  public_key : Str
  fingerprint : Str

/-- The database that imports; a signing key that cannot be read is none. -/
structure Db (S : Type) where
  signing_key : Option Bytes
  trusted_keys : List TrustedKey
  watermark : Option Str
  store : S

/-- `CVE_RELEASE_PUBLIC_KEY` without blanks around it, the private key that `generate` gives, which signatures of data
Ed25519 accepts for a public key, and the limit of packages -/
structure Environment where
  release_key : Str
  generated : Bytes
  verifies : Bytes → Bytes → Bytes → Bool
  max_package : Nat

variable (env : Environment)

def load_public (public_b64 : Str) : Option Bytes := (p.b64decode public_b64).filter fun raw => raw.length = 32

variable {S : Type}

/-- `_private`: the key of the instance is made on its first use, and committed. -/
def _private (db : Db S) : Db S × Bytes :=
  match db.signing_key with
  | some raw => (db, raw)
  | none => ({ db with signing_key := some env.generated }, env.generated)

def instance_public (raw : Bytes) : Str := p.b64encode (p.public_key raw)

def trusted (db : Db S) : Db S × List TrustedKey :=
  let (db, raw) := _private env db
  let own := instance_public p raw
  let release := if env.release_key ≠ [] ∧ (load_public p env.release_key).isSome then
    [⟨lit "NGCorion release", env.release_key, fingerprint p env.release_key⟩] else []
  (db, ⟨lit "This NGCorion", own, fingerprint p own⟩ :: release ++ db.trusted_keys)

/-- The name of the key that signed data: the first one with the fingerprint -/
def signerOf (keys : List TrustedKey) (signature data : Bytes) (key_fingerprint : Str) : Option Str :=
  (keys.find? fun k => k.fingerprint = key_fingerprint).bind fun k =>
    (load_public p k.public_key).bind fun raw => if env.verifies raw signature data then some k.name else none

def verify_signature (data : Bytes) (signature_b64 key_fingerprint : Str) (db : Db S) : Db S × Option Str :=
  match p.b64decode signature_b64 with
  | none => (db, none)
  | some signature =>
    let (db, keys) := trusted p env db
    (db, signerOf p env keys signature data key_fingerprint)

/-! ## Verification -/

inductive Status where
  | ok | warn | fail
  deriving DecidableEq

structure Check where
  name : Str
  status : Status
  detail : Str

structure Verified (F : Type) where
  manifest : List (Str × Value F)
  signer : Str
  checks : List Check

def Verified.failed (v : Verified F) : List Check := v.checks.filter fun c => c.status = .fail

def truthy : Value F → Bool
  | .null => false
  | .bool b => b
  | .int n => n ≠ 0
  | .float x => p.floats.dump x ≠ lit "0.0" ∧ p.floats.dump x ≠ lit "-0.0"
  | .str s => s ≠ []
  | .arr vs => !vs.isEmpty
  | .obj fs => !fs.isEmpty

/-- `(d.get(key) or {})` where a dictionary is needed -/
def getDict (d : List (Str × Value F)) (key : Str) : Except PyError (List (Str × Value F)) :=
  match Dict.get d key with
  | none => .ok []
  | some (.obj fs) => .ok fs
  | some v => if truthy p v then .error .attribute else .ok []

def isText (v : Option (Value F)) (s : Str) : Bool :=
  match v with
  | some (.str t) => t = s
  | _ => false

/-- `manifest.get("format") == FORMAT` -/
def isFormat : Option (Value F) → Bool
  | some (.int n) => n = FORMAT
  | some (.bool b) => b
  | some (.float x) => p.floats.dump x = lit "1.0"
  | _ => false

/-- `iso_to_dt` -/
def iso_to_dt : Option (Value F) → Except PyError (Option Nat)
  | none => .ok none
  | some (.str s) => .ok (if s = [] then none else p.fromisoformat s)
  | some v => if truthy p v then .error .type else .ok none

def textOf : Value F → Str
  | .str s => s
  | v => p.str v

/-- Whether every file that the manifest lists is a member of a package and has its digest -/
def intact (zf : Archive) : List (Str × Value F) → Except PyError Bool
  | [] => .ok true
  | (name, info) :: files => do
    if name ∉ MEMBERS ++ OPTIONAL then return false && (← intact zf files)
    let data ← zf.read name
    match info with
    | .obj fs => return isText (Dict.get fs (lit "sha256")) (p.sha256 data) && (← intact zf files)
    | _ => throw .attribute

def freshness (manifest : List (Str × Value F)) (current since ends : Option Nat) : Check :=
  let stale := current.any fun c => ends.any fun u => u ≤ c
  let old : Check := ⟨lit "freshness", .warn, lit "Not newer than this database - importing changes nothing new."⟩
  if isText (Dict.get manifest (lit "kind")) (lit "full") then
    if stale then old else ⟨lit "freshness", .ok, lit "Complete database"⟩
  else match current with
    | none => ⟨lit "freshness", .fail,
        lit "This is a partial update, but the database is empty. Load the full database first."⟩
    | some c =>
      match since.filter (c < ·) with
      | some begins => ⟨lit "freshness", .fail, lit "The package starts at " ++ p.strftime begins ++
          lit ", after this database ends (" ++ p.strftime c ++ lit ") - changes in between would be missed."⟩
      | none => if stale then old else ⟨lit "freshness", .ok, lit "Newer than this database (" ++ p.strftime c ++ [')']⟩

/-- The checks of a manifest that is read -/
def verified (zf : Archive) (manifest : List (Str × Value F)) (signer : Option Str) (watermark : Option Str) :
    Except PyError (Verified F) := do
  match signer.filter fun name => name ≠ [] with
  | none => return ⟨manifest, [], [⟨lit "signature", .fail, lit "Not signed by a trusted key. Add the exporting NGCorion's " ++
      lit "key under Trusted keys, or the package was changed after signing."⟩]⟩
  | some name =>
    let matching ← intact p zf (← getDict p manifest (lit "files"))
    let current ← iso_to_dt p (watermark.map .str)
    let ends ← iso_to_dt p (Dict.get manifest (lit "until"))
    let since ← iso_to_dt p (Dict.get manifest (lit "since"))
    return ⟨manifest, name, [⟨lit "signature", .ok, lit "Signed by a trusted key: " ++ name⟩,
      if matching then ⟨lit "integrity", .ok, lit "Every file matches the signed manifest"⟩
        else ⟨lit "integrity", .fail, lit "The contents do not match the signed manifest"⟩,
      ⟨lit "format", if isFormat p (Dict.get manifest (lit "format")) then .ok else .fail,
        lit "Package format v" ++ textOf p ((Dict.get manifest (lit "format")).getD .null)⟩,
      freshness p manifest current since ends]⟩

/-- The manifest's bytes, the signature and the manifest of a file -/
def readManifest (file : File) : Except PyError (Archive × Bytes × Str × List (Str × Value F)) := do
  let zf ← openFile env.max_package file
  let manifest_bytes ← zf.read (lit "manifest.json")
  let signature ← zf.read (lit "manifest.sig")
  match loadsBytes p manifest_bytes with
  | .ok (.obj manifest) => return (zf, manifest_bytes, strip (ascii signature), manifest)
  | .error .recursion => throw .recursion
  | _ => throw (.package (lit "The package manifest is unreadable."))

def verify (file : File) (db : Db S) : Db S × Except PyError (Verified F) :=
  match readManifest p env file with
  | .error e => (db, .error e)
  | .ok (zf, manifest_bytes, signature, manifest) =>
    let (db, signer) := verify_signature p env manifest_bytes signature
      (textOf p ((Dict.get manifest (lit "key_fingerprint")).getD (.str []))) db
    (db, verified p zf manifest signer db.watermark)

/-! ## Reading -/

/-- The lines of a text file, each with its line end -/
def linesFrom (line : Str) : Str → List Str
  | [] => if line = [] then [] else [line]
  | '\r' :: '\n' :: rest => (line ++ ['\n']) :: linesFrom [] rest
  | c :: rest => if c = '\n' ∨ c = '\r' then (line ++ ['\n']) :: linesFrom [] rest else linesFrom (line ++ [c]) rest

/-- The lines of a member that is opened as a text -/
def gzipLines (bytes : Bytes) : Except PyError (List Str) :=
  match (p.gunzip bytes).bind decode with
  | none => .error .io
  | some s => .ok (linesFrom [] s.toList)

def loadsText (s : Str) : Except PyError (Value F) :=
  (Json.loads p.floats p.nesting s).mapError fun e => if e = .invalid then .json else .recursion

/-- The record of a line, which has a key -/
def recordOf (key malformed : Str) (line : Str) : Except PyError (List (Str × Value F)) := do
  match ← loadsText p line with
  | .obj fs => if (Dict.get fs key).isSome then return fs else throw (.package malformed)
  | _ => throw (.package malformed)

def setdefault (d : List (Str × Value F)) (key : Str) (v : Value F) : List (Str × Value F) :=
  if (Dict.get d key).isSome then d else d ++ [(key, v)]

def read_cves (file : File) : Except PyError (List (Value F)) := do
  let zf ← openFile env.max_package file
  let lines ← gzipLines p (← zf.read (lit "cves.jsonl.gz"))
  (lines.filter fun line => strip line ≠ []).mapM fun line => do
    let fs ← recordOf p (lit "id") (lit "The package holds a malformed CVE record.") line
    return .obj (setdefault fs (lit "cvss") (.obj []))

def read_advisories (file : File) : Except PyError (List (Value F)) := do
  let zf ← openFile env.max_package file
  if lit "advisories.jsonl.gz" ∉ zf.namelist then return []
  else
    let lines ← gzipLines p (← zf.read (lit "advisories.jsonl.gz"))
    (lines.filter fun line => strip line ≠ []).mapM fun line => do
      let fs ← recordOf p (lit "release") (lit "The package holds a malformed advisory record.") line
      return .obj fs

def read_kev (file : File) : Except PyError (Value F) := do
  let zf ← openFile env.max_package file
  loadsBytes p (← zf.read (lit "kev.json"))

def read_epss (file : File) : Except PyError (EpssCsv.Scores F) := do
  let zf ← openFile env.max_package file
  match (p.gunzip (← zf.read (lit "epss.csv.gz"))).bind decode with
  | none => throw .io
  | some s => return EpssCsv.parse_epss_csv p.float s.toList

/-! ## Import -/

/-- What `_import` hands to the tables: the records, the catalogue, the scores with their date, and the advisories with the
releases that the manifest names -/
structure Applied (F : Type) where
  cves : List (Value F)
  kev : List (Str × Value F)
  epss_date : Value F
  epss : List (Option Str × F × F)
  info : List (Str × Value F)
  advisories : List (Value F)

/-- The advisories are read when the manifest names releases. -/
def advisoriesOf (file : File) (info : List (Str × Value F)) : Except PyError (List (Value F)) :=
  if info = [] then .ok [] else read_advisories p env file

/-- What is read of a file whose checks have passed -/
def readApplied (file : File) (manifest : List (Str × Value F)) : Except PyError (Applied F) := do
  match ← read_kev p env file with
  | .obj kev =>
    let released := (Dict.get (← getDict p manifest (lit "kev")) (lit "released")).getD .null
    let scores ← read_epss p env file
    let date := match scores.date.filter fun s => s ≠ [] with
      | some s => .str s
      | none => (Dict.get manifest (lit "epss_date")).getD .null
    let cves ← read_cves p env file
    let info ← getDict p manifest (lit "advisories")
    let advisories ← advisoriesOf p env file info
    return ⟨cves, setdefault kev (lit "released") released, date, scores.rows, info, advisories⟩
  | _ => throw .attribute

/-- What is committed at the end of an import: the tables that `apply` leaves, and the watermark -/
def commit (apply : Applied F → S → Except PyError S) (applied : Applied F) (manifest : List (Str × Value F)) (db : Db S) :
    Except PyError (Db S) := do
  let store ← apply applied db.store
  let ends ← iso_to_dt p (Dict.get manifest (lit "until"))
  let current ← iso_to_dt p (db.watermark.map Value.str)
  let watermark := match ends with
    | some e => if current.all (· < e) then some (p.isoformat e) else db.watermark
    | none => db.watermark
  return { db with store := store, watermark := watermark }

/-- A job that raises is rolled back. -/
def finish (db : Db S) : Except PyError (Db S) → Db S × Except PyError Unit
  | .error e => (db, .error e)
  | .ok db => (db, .ok ())

/-- `_import`; `apply` are the functions of the tables that it calls. -/
def _import (apply : Applied F → S → Except PyError S) (file : File) (db : Db S) : Db S × Except PyError Unit :=
  match verify p env file db with
  | (db, .error e) => (db, .error e)
  | (db, .ok v) =>
    match v.failed with
    | c :: _ => (db, .error (.package c.detail))
    | [] => finish db (readApplied p env file v.manifest >>= fun applied => commit p apply applied v.manifest db)

end

end PackageFile
