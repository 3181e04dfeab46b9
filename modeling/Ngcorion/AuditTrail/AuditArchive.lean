import Ngcorion.Csv
import Ngcorion.IsoTime
import Ngcorion.Json
import Ngcorion.Octets
import Ngcorion.Refusal

/-!
# Archives of the audit trail

What an archive of old audit events and sign-ins holds, and how `purge` removes from the database the rows that one holds. Times
are microseconds of UTC.
-/
namespace AuditArchive

open Text Octets IsoTime Refusal
open Json (Value)

/-! ## Rows -/

/-- A value of a row -/
inductive Cell where
  | null
  | time (t : Stamp)
  | bool (b : Bool)
  | int (n : Int)
  | text (s : Str)

def _cell : Cell → Str
  | .null => []
  | .time t => isoformat t
  | .bool b => if b then lit "true" else lit "false"
  | .int n => Json.intText n
  | .text s => s

structure AuditLog where
  id : Int
  timestamp : Stamp
  user_id : Option Int
  username : Option Str
  action : Str
  module' : Option Str
  target_id : Option Int
  ip_address : Option Str
  result : Str
  detail : Option Str

structure LoginLog where
  id : Int
  timestamp : Stamp
  username : Str
  success : Bool
  ip_address : Option Str
  user_agent : Option Str
  message : Option Str

/-- A column that may be NULL -/
def optional {α : Type} (cell : α → Cell) (value : Option α) : Cell := value.elim .null cell

/-- A table with its columns in the order of the CSV; `undo` reads the texts of `_cell` back, where no text is NULL in a column
that may be NULL. -/
structure Schema (R : Type) where
  name : Str
  columns : List Str
  id : R → Int
  timestamp : R → Stamp
  cells : R → List Cell
  undo : List Str → Option R

def undoOptional {α : Type} (read : Str → α) (s : Str) : Option α := if s = [] then none else some (read s)

def audit_logs : Schema AuditLog where
  name := lit "audit_logs"
  columns := [lit "id", lit "timestamp", lit "user_id", lit "username", lit "action", lit "module", lit "target_id",
    lit "ip_address", lit "result", lit "detail"]
  id r := r.id
  timestamp r := r.timestamp
  cells r := [.int r.id, .time r.timestamp, optional .int r.user_id, optional .text r.username, .text r.action,
    optional .text r.module', optional .int r.target_id, optional .text r.ip_address, .text r.result, optional .text r.detail]
  undo
    | [id, timestamp, user_id, username, action, module', target_id, ip_address, result, detail] => do
      let timestamp ← parse timestamp
      return ⟨Json.intValue id, timestamp, undoOptional Json.intValue user_id, undoOptional (fun s => s) username, action,
        undoOptional (fun s => s) module', undoOptional Json.intValue target_id, undoOptional (fun s => s) ip_address, result,
        undoOptional (fun s => s) detail⟩
    | _ => none

def login_logs : Schema LoginLog where
  name := lit "login_logs"
  columns := [lit "id", lit "timestamp", lit "username", lit "success", lit "ip_address", lit "user_agent", lit "message"]
  id r := r.id
  timestamp r := r.timestamp
  cells r := [.int r.id, .time r.timestamp, .text r.username, .bool r.success, optional .text r.ip_address,
    optional .text r.user_agent, optional .text r.message]
  undo
    | [id, timestamp, username, success, ip_address, user_agent, message] => do
      let timestamp ← parse timestamp
      return ⟨Json.intValue id, timestamp, username, success = lit "true", undoOptional (fun s => s) ip_address,
        undoOptional (fun s => s) user_agent, undoOptional (fun s => s) message⟩
    | _ => none

/-! ## Dumps -/

def FORMAT : Str := lit "ngcorion-audit-archive/1"

def CHUNK_ROWS : Nat := 5000

/-- The UTF-8 bytes of a text -/
def utf8 (s : Str) : Bytes := encode (String.ofList s)

/-- What the program uses of other code: the hash, times in texts (nothing for a `ValueError`; a time without a zone is of the
session's zone), the text of a time, and numbers of Python -/
structure Library (F : Type) where
  sha256 : Bytes → Str
  fromisoformat : Str → Option Int
  isoformat : Int → Str
  /-- An integer is below a float. -/
  lt : Int → F → Bool

section

variable {R : Type} (schema : Schema R)

/-- A row is older than a time. -/
def isOlder (cutoff : Int) (r : R) : Bool := (schema.timestamp r).instant < cutoff

/-- The rows of the query, in the order of their numbers -/
def older (rows : List R) (cutoff : Int) : List R :=
  (rows.filter (isOlder schema cutoff)).insertionSort fun a b => schema.id a ≤ schema.id b

/-- The loop of `dump`: the text that is not written yet, the bytes that went to the digest and the file, and the counts -/
structure Writer where
  buf : Str
  sent : List Bytes
  rows : Nat
  first : Option Int
  last : Option Int

def Writer.flush (w : Writer) : Writer := { w with buf := [], sent := w.sent ++ [utf8 w.buf] }

def rowText (r : R) : Str := Csv.recordText ((schema.cells r).map _cell)

def writeRow (w : Writer) (r : R) : Writer :=
  let w : Writer := ⟨w.buf ++ rowText schema r, w.sent, w.rows + 1, w.first <|> some (schema.id r), some (schema.id r)⟩
  if w.rows % CHUNK_ROWS = 0 then w.flush else w

/-- What `dump` writes of a table -/
def dumped (rows : List R) (cutoff : Int) : Writer :=
  ((older schema rows cutoff).foldl (writeRow schema) ⟨Csv.recordText schema.columns, [], 0, none, none⟩).flush

structure Dump where
  rows : Nat
  first_id : Option Int
  last_id : Option Int
  sha256 : Str

def dump {F : Type} (lib : Library F) (rows : List R) (cutoff : Int) : Dump :=
  let w := dumped schema rows cutoff
  ⟨w.rows, w.first, w.last, lib.sha256 w.sent.flatten⟩

/-- The rows of an archive's CSV -/
def recovered (bytes : Bytes) : Option (List R) := do
  let text ← decode bytes
  match Csv.read text.toList with
  | header :: records => if header = schema.columns then records.mapM schema.undo else none
  | [] => none

end

/-! ## Archives -/

inductive Failure where
  | archive (message : Str)
  /-- What `verify` reports of an exception that it expects -/
  | unreadable
  | badZip | key | value | attribute | type
  | database
  deriving DecidableEq

/-- A ZIP file: what `json.loads` makes of its manifest, and its members -/
structure Archive (F : Type) where
  manifest : Except Failure (Value F)
  contents : Str → Except Failure Bytes

/-- A file; one that is no ZIP file is a `BadZipFile`. -/
abbrev File (F : Type) := Option (Archive F)

section

variable {F : Type} (lib : Library F)

/-- The exceptions that `verify` expects are reported as one. -/
def caught {α : Type} (x : Except Failure α) : Except Failure α :=
  x.mapError fun e => if e = .badZip ∨ e = .key ∨ e = .value then .unreadable else e

/-- `value[key]`; a value that is no dictionary has no such item. -/
def item (v : Value F) (key : Str) : Except Failure (Value F) :=
  match v with
  | .obj fields => (Dict.get fields key).elim (.error .key) .ok
  | _ => .error .type

def isText (v : Value F) (s : Str) : Bool :=
  match v with
  | .str t => t = s
  | _ => false

/-- `n < value` -/
def below (n : Int) (v : Value F) : Except Failure Bool :=
  match v with
  | .int m => .ok (n < m)
  | .bool b => .ok (n < if b then 1 else 0)
  | .float x => .ok (lib.lt n x)
  | _ => .error .type

/-- The lines of a file -/
def lineCount (bytes : Bytes) : Int := bytes.count 10 + if bytes = [] ∨ bytes.getLast? = some 10 then 0 else 1

def csvName (table : Str) : Str := table ++ lit ".csv"

def tableInfo (manifest : Value F) (table : Str) : Except Failure (Value F) := do
  let tables ← item manifest (lit "tables")
  item tables table

/-- The CSV of a table matches the manifest. -/
def verifyTable (zf : Archive F) (manifest : Value F) (table : Str) : Except Failure Unit := do
  let expected ← tableInfo manifest table
  let bytes ← zf.contents (csvName table)
  let sha ← item expected (lit "sha256")
  refuse (isText sha (lib.sha256 bytes) = false) (.archive (csvName table ++ lit " does not match the manifest (SHA-256)"))
  let fewer ← below lib (lineCount bytes - 1) (← item expected (lit "rows"))
  refuse (fewer = true) (.archive (csvName table ++ lit " holds fewer rows than the manifest says"))

/-- `manifest.get("format")` -/
def formatOf (manifest : Value F) : Except Failure (Option (Value F)) :=
  match manifest with
  | .obj fields => .ok (Dict.get fields (lit "format"))
  | _ => .error .attribute

def verify (file : File F) : Except Failure (Value F) :=
  caught do
    let zf ← file.elim (.error .badZip) .ok
    let manifest ← zf.manifest
    let format ← formatOf manifest
    refuse (format.all (fun v => !isText v FORMAT) = true) (.archive (lit "not an NGCorion audit archive"))
    verifyTable lib zf manifest audit_logs.name
    verifyTable lib zf manifest login_logs.name
    return manifest

/-- `datetime.fromisoformat(v)` -/
def timeOf (v : Value F) : Except Failure Int :=
  match v with
  | .str s => (lib.fromisoformat s).elim (.error .value) .ok
  | _ => .error .type

def cutoffOf (manifest : Value F) : Except Failure Int := do timeOf lib (← item manifest (lit "cutoff"))

/-! ## Export -/

structure Database where
  audit : List AuditLog
  logins : List LoginLog
  /-- The trigger that refuses changes of `audit_logs` is on. -/
  trigger : Bool

def dumpInfo (d : Dump) : Value F :=
  .obj [(lit "rows", .int d.rows), (lit "first_id", d.first_id.elim .null .int), (lit "last_id", d.last_id.elim .null .int),
    (lit "sha256", .str d.sha256)]

/-- The manifest of `export`; `text` is `cutoff.isoformat()`. -/
def exportManifest (version created_at before text : Str) (cutoff : Int) (db : Database) : Value F :=
  .obj [(lit "format", .str FORMAT), (lit "product_version", .str version), (lit "created_at", .str created_at),
    (lit "before", .str before), (lit "cutoff", .str text),
    (lit "tables", .obj [(audit_logs.name, dumpInfo (dump audit_logs lib db.audit cutoff)),
      (login_logs.name, dumpInfo (dump login_logs lib db.logins cutoff))])]

/-- The archive that `export` writes -/
def export' (version created_at before text : Str) (cutoff : Int) (db : Database) : Archive F where
  manifest := .ok (exportManifest lib version created_at before text cutoff db)
  contents name :=
    if name = csvName audit_logs.name then .ok (dumped audit_logs db.audit cutoff).sent.flatten
    else if name = csvName login_logs.name then .ok (dumped login_logs db.logins cutoff).sent.flatten
    else .error .key

/-! ## Purge -/

/-- The statements of `purge` that the database may refuse, by their numbers -/
def statement (fails : Nat → Bool) (k : Nat) : Except Failure Unit := refuse (fails k = true) .database

/-- The table still has what the archive holds. -/
def unchanged {R : Type} (schema : Schema R) (manifest : Value F) (rows : List R) (cutoff : Int) : Except Failure Unit := do
  let sha ← item (← tableInfo manifest schema.name) (lit "sha256")
  refuse (isText sha (dump schema lib rows cutoff).sha256 = false)
    (.archive (schema.name ++ lit " older than " ++ lib.isoformat cutoff ++ lit " is not what the archive holds"))

/-- What the database is told of a removal -/
structure Notice where
  id : Int
  now : Stamp
  file_name : Str
  archive_sha : Str

/-- The row about a removal -/
def removal (notice : Notice) (events logins : Nat) (cutoff : Int) : AuditLog :=
  ⟨notice.id, notice.now, none, some (lit "system"), lit "audit.archive_purge", some (lit "logs"), none, none, lit "success",
    some (lit "Removed " ++ Nat.toDigits 10 events ++ lit " audit events and " ++ Nat.toDigits 10 logins ++
      lit " sign-ins older than " ++ lib.isoformat cutoff ++ lit ", archived in " ++ notice.file_name ++ lit " (SHA-256 " ++
      notice.archive_sha ++ lit ")")⟩

/-- `DELETE FROM audit_logs`, which the trigger refuses when it is on and there is a row to delete -/
def deleteEvents (cutoff : Int) (db : Database) : Except Failure (Database × Nat) := do
  refuse (db.trigger = true ∧ (db.audit.any (isOlder audit_logs cutoff)) = true) .database
  return ({ db with audit := db.audit.filter fun r => !isOlder audit_logs cutoff r },
    db.audit.countP (isOlder audit_logs cutoff))

/-- The transaction, up to the commit -/
def transaction (fails : Nat → Bool) (notice : Notice) (manifest : Value F) (cutoff : Int) (db : Database) :
    Except Failure (Database × Nat × Nat) := do
  statement fails 0
  statement fails 1
  unchanged lib audit_logs manifest db.audit cutoff
  statement fails 2
  unchanged lib login_logs manifest db.logins cutoff
  statement fails 3
  let work := { db with trigger := false }
  statement fails 4
  let (work, events) ← deleteEvents cutoff work
  statement fails 5
  let work := { work with trigger := true }
  statement fails 6
  let logins := work.logins.countP (isOlder login_logs cutoff)
  let work := { work with logins := work.logins.filter fun r => !isOlder login_logs cutoff r }
  statement fails 7
  return ({ work with audit := work.audit ++ [removal lib notice events logins cutoff] }, events, logins)

/-- `purge`: the database is as it was unless the transaction commits. -/
def purge (fails : Nat → Bool) (notice : Notice) (file : File F) (db : Database) :
    Database × Except Failure (Nat × Nat) :=
  match (do
    let manifest ← verify lib file
    let cutoff ← cutoffOf lib manifest
    transaction lib fails notice manifest cutoff db : Except Failure (Database × Nat × Nat)) with
  | .error e => (db, .error e)
  | .ok (work, events, logins) => (work, .ok (events, logins))

/-! ## What a purge must do -/

/-- The archive's cut-off -/
def hasCutoff (file : File F) (cutoff : Int) : Prop :=
  ∃ zf manifest, file = some zf ∧ zf.manifest = .ok manifest ∧ cutoffOf lib manifest = .ok cutoff

/-- A purge fails and leaves the database as it was, or it removes the rows older than the cut-off and the archive gives back
these rows. -/
def Exact (file : File F) (db : Database) (result : Database × Except Failure (Nat × Nat)) : Prop :=
  match result.2 with
  | .error _ => result.1 = db
  | .ok _ => ∃ zf cutoff record bytes bytes', file = some zf ∧ hasCutoff lib file cutoff ∧
      result.1.audit = (db.audit.filter fun r => !isOlder audit_logs cutoff r) ++ [record] ∧
      result.1.logins = (db.logins.filter fun r => !isOlder login_logs cutoff r) ∧
      zf.contents (csvName audit_logs.name) = .ok bytes ∧ recovered audit_logs bytes = some (older audit_logs db.audit cutoff) ∧
      zf.contents (csvName login_logs.name) = .ok bytes' ∧
        recovered login_logs bytes' = some (older login_logs db.logins cutoff)

/-- A row with an empty text where NULL is allowed -/
def AuditLog.blank (r : AuditLog) : Prop :=
  r.username = some [] ∨ r.module' = some [] ∨ r.ip_address = some [] ∨ r.detail = some []

def LoginLog.blank (r : LoginLog) : Prop := r.ip_address = some [] ∨ r.user_agent = some [] ∨ r.message = some []

/-- No row older than the cut-off has an empty text where NULL is allowed. -/
def NoBlank (cutoff : Int) (db : Database) : Prop :=
  (∀ r ∈ db.audit, isOlder audit_logs cutoff r = true → ¬ r.blank) ∧
    ∀ r ∈ db.logins, isOlder login_logs cutoff r = true → ¬ r.blank

end

/-! ## The CSV of a table -/

theorem utf8_append (s t : Str) : utf8 (s ++ t) = utf8 s ++ utf8 t := by
  rw [utf8, String.ofList_append, encode_append]
  rfl

section

variable {R : Type} (schema : Schema R)

def csvText (rows : List R) : Str := Csv.recordText schema.columns ++ rows.flatMap (rowText schema)

theorem flush_bytes (w : Writer) : w.flush.sent.flatten = w.sent.flatten ++ utf8 w.buf := by simp [Writer.flush]

/-- What is written so far and what is not yet -/
def Writer.bytes (w : Writer) : Bytes := w.sent.flatten ++ utf8 w.buf

theorem writeRow_bytes (w : Writer) (r : R) : (writeRow schema w r).bytes = w.bytes ++ utf8 (rowText schema r) := by
  unfold writeRow
  dsimp only
  split
  · simp [Writer.bytes, Writer.flush, utf8_append, show utf8 [] = [] from rfl]
  · simp [Writer.bytes, utf8_append]

/-- The pieces that are written make up one CSV, wherever the loop flushes. -/
theorem dumped_bytes (rows : List R) (cutoff : Int) :
    (dumped schema rows cutoff).sent.flatten = utf8 (csvText schema (older schema rows cutoff)) := by
  have hloop : ∀ (rs : List R) (w : Writer), (rs.foldl (writeRow schema) w).bytes = w.bytes ++ utf8 (rs.flatMap (rowText schema)) := by
    intro rs
    induction rs with
    | nil =>
      intro w
      simp [show utf8 [] = [] from rfl]
    | cons r rs ih =>
      intro w
      rw [List.foldl_cons, ih, writeRow_bytes, List.flatMap_cons, utf8_append, List.append_assoc]
  rw [dumped, flush_bytes, ← Writer.bytes, hloop, csvText, utf8_append]
  rfl

theorem recovered_csv (hcolumns : schema.columns ≠ []) (hcells : ∀ r, schema.cells r ≠ []) (rows : List R) :
    recovered schema (utf8 (csvText schema rows)) = some rows ↔
      ∀ r ∈ rows, schema.undo ((schema.cells r).map _cell) = some r := by
  have hread : Csv.read (csvText schema rows) = schema.columns :: rows.map fun r => (schema.cells r).map _cell := by
    have htext : csvText schema rows =
        (schema.columns :: rows.map fun r => (schema.cells r).map _cell).flatMap Csv.recordText := by
      rw [csvText, List.flatMap_cons, List.flatMap_map]
      rfl
    rw [htext]
    apply Csv.read_records
    intro fields hfields
    rcases List.mem_cons.mp hfields with rfl | hfields
    · exact hcolumns
    · obtain ⟨r, _, rfl⟩ := List.mem_map.mp hfields
      simpa using hcells r
  have hmap : ∀ rs : List R, (rs.map fun r => (schema.cells r).map _cell).mapM schema.undo = some rs ↔
      ∀ r ∈ rs, schema.undo ((schema.cells r).map _cell) = some r := by
    intro rs
    induction rs with
    | nil => simp
    | cons r rs ih =>
      rw [List.map_cons, List.mapM_cons, List.forall_mem_cons, ← ih]
      cases schema.undo ((schema.cells r).map _cell) with
      | none => simp
      | some a =>
        cases (rs.map fun r => (schema.cells r).map _cell).mapM schema.undo with
        | none => simp
        | some as => simp
  rw [recovered, utf8, decode_encode]
  simp only [Option.bind_eq_bind, Option.bind_some, String.toList_ofList, hread, if_true]
  exact hmap rows

end

/-! ## Rows from their texts -/

theorem intText_ne_nil (n : Int) : Json.intText n ≠ [] := by
  unfold Json.intText
  split
  · simp
  · exact Nat.toDigits_ne_nil

theorem undoOptional_int (value : Option Int) : undoOptional Json.intValue (_cell (optional .int value)) = value := by
  cases value with
  | none => rfl
  | some n =>
    have := intText_ne_nil n
    simp [undoOptional, optional, _cell, this, Json.intValue_intText]

theorem undoOptional_text (value : Option Str) :
    undoOptional (fun s => s) (_cell (optional .text value)) = value ↔ value ≠ some [] := by
  cases value with
  | none => simp [undoOptional, optional, _cell]
  | some s => cases s <;> simp [undoOptional, optional, _cell]


theorem undo_audit (r : AuditLog) : audit_logs.undo ((audit_logs.cells r).map _cell) = some r ↔ ¬ r.blank := by
  obtain ⟨id, timestamp, user_id, username, action, module', target_id, ip_address, result, detail⟩ := r
  have h₁ := undoOptional_text username
  have h₂ := undoOptional_text module'
  have h₃ := undoOptional_text ip_address
  have h₄ := undoOptional_text detail
  have hid : Json.intValue (_cell (.int id)) = id := Json.intValue_intText id
  have htime : parse (_cell (.time timestamp)) = some timestamp := parse_isoformat timestamp
  simp only [audit_logs, List.map_cons, List.map_nil, htime, hid, undoOptional_int, Option.bind_eq_bind, Option.bind_some,
    Option.pure_def, Option.some.injEq, AuditLog.mk.injEq, AuditLog.blank, h₁, h₂, h₃, h₄]
  simp only [_cell, true_and, not_or, ne_eq]

theorem undo_login (r : LoginLog) : login_logs.undo ((login_logs.cells r).map _cell) = some r ↔ ¬ r.blank := by
  obtain ⟨id, timestamp, username, success, ip_address, user_agent, message⟩ := r
  have h₁ := undoOptional_text ip_address
  have h₂ := undoOptional_text user_agent
  have h₃ := undoOptional_text message
  have hid : Json.intValue (_cell (.int id)) = id := Json.intValue_intText id
  have htime : parse (_cell (.time timestamp)) = some timestamp := parse_isoformat timestamp
  have hsuccess : decide (_cell (.bool success) = lit "true") = success := by
    cases success <;> with_unfolding_all decide
  simp only [login_logs, List.map_cons, List.map_nil, htime, hid, hsuccess, Option.bind_eq_bind, Option.bind_some,
    Option.pure_def, Option.some.injEq, LoginLog.mk.injEq, LoginLog.blank, h₁, h₂, h₃]
  simp only [_cell, true_and, not_or, ne_eq]

/-- The archive's CSV of a table gives the rows back exactly when none of them has an empty text where NULL is allowed. -/
theorem recovered_audit (rows : List AuditLog) :
    recovered audit_logs (utf8 (csvText audit_logs rows)) = some rows ↔ ∀ r ∈ rows, ¬ r.blank := by
  rw [recovered_csv audit_logs (by simp [audit_logs]) (fun r => by simp [audit_logs])]
  simp only [undo_audit]

theorem recovered_login (rows : List LoginLog) :
    recovered login_logs (utf8 (csvText login_logs rows)) = some rows ↔ ∀ r ∈ rows, ¬ r.blank := by
  rw [recovered_csv login_logs (by simp [login_logs]) (fun r => by simp [login_logs])]
  simp only [undo_login]

theorem mem_older {R : Type} {schema : Schema R} {rows : List R} {cutoff : Int} {r : R} :
    r ∈ older schema rows cutoff ↔ r ∈ rows ∧ isOlder schema cutoff r = true := by
  rw [older, List.mem_insertionSort, List.mem_filter]

/-! ## What a purge removes -/

section

variable {F : Type} {lib : Library F}

theorem caught_ok {α : Type} {x : Except Failure α} {a : α} : caught x = .ok a ↔ x = .ok a := by
  cases x <;> simp [caught, Except.mapError]

theorem isText_eq {v : Value F} {s t : Str} (hs : isText v s = true) (ht : isText v t = true) : s = t := by
  unfold isText at hs ht
  split at hs
  · rw [decide_eq_true_eq] at hs ht
    exact hs.symm.trans ht
  · cases hs

/-- The digest of a table in a manifest -/
def HasDigest (manifest : Value F) (table digest : Str) : Prop :=
  ∃ expected v, tableInfo manifest table = .ok expected ∧ item expected (lit "sha256") = .ok v ∧ isText v digest = true

theorem hasDigest_eq {manifest : Value F} {table s t : Str} (hs : HasDigest manifest table s) (ht : HasDigest manifest table t) :
    s = t := by
  obtain ⟨expected, v, he, hv, hs⟩ := hs
  obtain ⟨expected', v', he', hv', ht⟩ := ht
  rw [he] at he'
  cases he'
  rw [hv] at hv'
  cases hv'
  exact isText_eq hs ht

theorem verifyTable_ok {zf : Archive F} {manifest : Value F} {table : Str} {u : Unit}
    (h : verifyTable lib zf manifest table = .ok u) :
    ∃ bytes, zf.contents (csvName table) = .ok bytes ∧ HasDigest manifest table (lib.sha256 bytes) := by
  simp only [verifyTable, bind_ok, refuse_ok] at h
  obtain ⟨expected, he, bytes, hbytes, v, hv, _, hdigest, _⟩ := h
  exact ⟨bytes, hbytes, expected, v, he, hv, by simpa using hdigest⟩

theorem verify_ok {file : File F} {manifest : Value F} (h : verify lib file = .ok manifest) :
    ∃ zf, file = some zf ∧ zf.manifest = .ok manifest ∧
      (∃ u, verifyTable lib zf manifest audit_logs.name = .ok u) ∧ ∃ u, verifyTable lib zf manifest login_logs.name = .ok u := by
  simp only [verify, caught_ok, bind_ok, pure_ok] at h
  obtain ⟨zf, hzf, manifest', hmanifest, format, _, _, _, u, hu, u', hu', rfl⟩ := h
  cases file with
  | none => cases hzf
  | some _ =>
    cases hzf
    exact ⟨_, rfl, hmanifest, ⟨u, hu⟩, ⟨u', hu'⟩⟩

theorem unchanged_ok {R : Type} {schema : Schema R} {manifest : Value F} {rows : List R} {cutoff : Int} {u : Unit}
    (h : unchanged lib schema manifest rows cutoff = .ok u) :
    HasDigest manifest schema.name (lib.sha256 (utf8 (csvText schema (older schema rows cutoff)))) := by
  simp only [unchanged, bind_ok, refuse_ok] at h
  obtain ⟨expected, he, v, hv, hdigest⟩ := h
  refine ⟨expected, v, he, hv, ?_⟩
  rw [← dumped_bytes]
  simpa [dump] using hdigest

/-- A CSV that matches the manifest, as the table does, is that of the table. -/
theorem same_csv (hsha : Function.Injective lib.sha256) {R : Type} {schema : Schema R} {zf : Archive F} {manifest : Value F}
    {rows : List R} {cutoff : Int} {u u' : Unit} (hverify : verifyTable lib zf manifest schema.name = .ok u)
    (hsame : unchanged lib schema manifest rows cutoff = .ok u') :
    zf.contents (csvName schema.name) = .ok (utf8 (csvText schema (older schema rows cutoff))) := by
  obtain ⟨bytes, hbytes, hdigest⟩ := verifyTable_ok hverify
  rw [hbytes, hsha (hasDigest_eq hdigest (unchanged_ok hsame))]

theorem transaction_ok {fails : Nat → Bool} {notice : Notice} {manifest : Value F} {cutoff : Int} {db work : Database}
    {events logins : Nat} (h : transaction lib fails notice manifest cutoff db = .ok (work, events, logins)) :
    (∃ u, unchanged lib audit_logs manifest db.audit cutoff = .ok u) ∧
    (∃ u, unchanged lib login_logs manifest db.logins cutoff = .ok u) ∧
      work.audit = (db.audit.filter fun r => !isOlder audit_logs cutoff r) ++ [removal lib notice events logins cutoff] ∧
      work.logins = db.logins.filter fun r => !isOlder login_logs cutoff r := by
  simp only [transaction, deleteEvents, bind_ok, pure_ok] at h
  obtain ⟨_, _, _, _, u, hu, _, _, u', hu', _, _, _, _, ⟨work', events'⟩, ⟨_, _, hwork⟩, _, _, _, _, _, _, hend⟩ := h
  cases hwork
  cases hend
  exact ⟨⟨u, hu⟩, ⟨u', hu'⟩, rfl, rfl⟩

/-- Where the rows older than the cut-off have no empty text in a column that may be NULL, a purge removes what the archive
gives back. -/
theorem purge_exact (hsha : Function.Injective lib.sha256) (fails : Nat → Bool) (notice : Notice) (file : File F) (db : Database)
    (hblank : ∀ cutoff, hasCutoff lib file cutoff → NoBlank cutoff db) : Exact lib file db (purge lib fails notice file db) := by
  unfold purge
  split
  · rfl
  · rename_i work events logins h
    simp only [bind_ok] at h
    obtain ⟨manifest, hverify, cutoff, hcutoff, hrun⟩ := h
    obtain ⟨zf, rfl, hmanifest, ⟨u, hu⟩, ⟨u', hu'⟩⟩ := verify_ok hverify
    obtain ⟨⟨v, hv⟩, ⟨v', hv'⟩, haudit, hlogins⟩ := transaction_ok hrun
    have hhas : hasCutoff lib (some zf) cutoff := ⟨zf, manifest, rfl, hmanifest, hcutoff⟩
    obtain ⟨hblank₁, hblank₂⟩ := hblank cutoff hhas
    refine ⟨zf, cutoff, _, _, _, rfl, hhas, haudit, hlogins, same_csv hsha hu hv, ?_, same_csv hsha hu' hv', ?_⟩
    · rw [recovered_audit]
      intro r hr
      rw [mem_older] at hr
      exact hblank₁ r hr.1 hr.2
    · rw [recovered_login]
      intro r hr
      rw [mem_older] at hr
      exact hblank₂ r hr.1 hr.2

/-! ## What an export allows -/

theorem item_of_mem {fields : List (Str × Value F)} (hkeys : (Dict.keys fields).Nodup) {key : Str} {v : Value F}
    (h : (key, v) ∈ fields) : item (.obj fields) key = .ok v := by
  rw [item, Dict.get_of_mem fields hkeys key v h]
  rfl

theorem count_utf8 (s : Str) : s.count '\n' ≤ (utf8 s).count 10 := by
  induction s with
  | nil => simp
  | cons c s ih =>
    have hsplit : utf8 (c :: s) = utf8 [c] ++ utf8 s := utf8_append [c] s
    rw [hsplit, List.count_append]
    by_cases hc : c = '\n'
    · subst hc
      have hone : (utf8 ['\n']).count 10 = 1 := by with_unfolding_all decide
      rw [List.count_cons_self]
      omega
    · rw [List.count_cons_of_ne hc]
      omega

theorem count_record (fields : List Str) : 1 ≤ (Csv.recordText fields).count '\n' := by
  rw [Csv.recordText, List.count_append, List.count_singleton_self]
  omega

/-- A CSV has at least as many lines as rows, and the header. -/
theorem length_le_lines {R : Type} (schema : Schema R) (rows : List R) :
    ((rows.length : Nat) : Int) ≤ lineCount (utf8 (csvText schema rows)) - 1 := by
  have hheader := count_record schema.columns
  have hrows : ∀ rs : List R, rs.length ≤ (rs.flatMap (rowText schema)).count '\n' := by
    intro rs
    induction rs with
    | nil => simp
    | cons r rs ih =>
      have := count_record ((schema.cells r).map _cell)
      rw [List.flatMap_cons, List.count_append, List.length_cons, rowText]
      omega
  have htext := count_utf8 (csvText schema rows)
  rw [csvText, List.count_append] at htext
  have := hrows rows
  unfold lineCount
  rw [csvText]
  split <;> omega

theorem dump_rows {R : Type} (schema : Schema R) (rows : List R) (cutoff : Int) :
    (dump schema lib rows cutoff).rows = (older schema rows cutoff).length := by
  have hloop : ∀ (rs : List R) (w : Writer), (rs.foldl (writeRow schema) w).rows = w.rows + rs.length := by
    intro rs
    induction rs with
    | nil => simp
    | cons r rs ih =>
      intro w
      have hstep : (writeRow schema w r).rows = w.rows + 1 := by
        unfold writeRow
        dsimp only
        split <;> rfl
      rw [List.foldl_cons, ih, hstep, List.length_cons]
      omega
  have := hloop (older schema rows cutoff) ⟨Csv.recordText schema.columns, [], 0, none, none⟩
  simpa [dump, dumped, Writer.flush] using this

section

variable (version created_at before text : Str) (cutoff : Int) (db : Database)

theorem export_tables : item (exportManifest lib version created_at before text cutoff db) (lit "tables") =
    .ok (.obj [(audit_logs.name, dumpInfo (dump audit_logs lib db.audit cutoff)),
      (login_logs.name, dumpInfo (dump login_logs lib db.logins cutoff))]) :=
  item_of_mem (by simp only [Dict.keys, List.map]; with_unfolding_all decide) (by simp)

theorem export_audit : tableInfo (exportManifest lib version created_at before text cutoff db) audit_logs.name =
    .ok (dumpInfo (dump audit_logs lib db.audit cutoff)) := by
  rw [tableInfo, export_tables]
  exact item_of_mem (by simp only [Dict.keys, List.map]; with_unfolding_all decide) (by simp)

theorem export_logins : tableInfo (exportManifest lib version created_at before text cutoff db) login_logs.name =
    .ok (dumpInfo (dump login_logs lib db.logins cutoff)) := by
  rw [tableInfo, export_tables]
  exact item_of_mem (by simp only [Dict.keys, List.map]; with_unfolding_all decide) (by simp)

theorem export_cutoff (htext : lib.fromisoformat text = some cutoff) :
    cutoffOf lib (exportManifest lib version created_at before text cutoff db) = .ok cutoff := by
  have hitem : item (exportManifest lib version created_at before text cutoff db) (lit "cutoff") = .ok (.str text) :=
    item_of_mem (by simp only [Dict.keys, List.map]; with_unfolding_all decide) (by simp)
  rw [cutoffOf, hitem]
  change timeOf lib (.str text) = .ok cutoff
  rw [timeOf, htext]
  rfl

theorem info_sha256 (d : Dump) : item (dumpInfo d : Value F) (lit "sha256") = .ok (.str d.sha256) :=
  item_of_mem (by simp only [Dict.keys, List.map]; with_unfolding_all decide) (by simp)

theorem info_rows (d : Dump) : item (dumpInfo d : Value F) (lit "rows") = .ok (.int d.rows) :=
  item_of_mem (by simp only [Dict.keys, List.map]; with_unfolding_all decide) (by simp)

/-- A CSV as `dump` makes it passes the checks of `verify` and of `purge`. -/
theorem verifyTable_dump {R : Type} {schema : Schema R} {zf : Archive F} {manifest : Value F} {rows : List R}
    (hinfo : tableInfo manifest schema.name = .ok (dumpInfo (dump schema lib rows cutoff)))
    (hbytes : zf.contents (csvName schema.name) = .ok (dumped schema rows cutoff).sent.flatten) :
    verifyTable lib zf manifest schema.name = .ok () := by
  have hlines := length_le_lines schema (older schema rows cutoff)
  simp only [verifyTable, bind_ok, refuse_ok]
  refine ⟨_, hinfo, _, hbytes, _, info_sha256 _, (), ?_, _, info_rows _, false, ?_, by simp⟩
  · simp [isText, dump]
  · rw [below, dumped_bytes, dump_rows]
    simpa using hlines

theorem unchanged_dump {R : Type} {schema : Schema R} {manifest : Value F} {rows : List R}
    (hinfo : tableInfo manifest schema.name = .ok (dumpInfo (dump schema lib rows cutoff))) :
    unchanged lib schema manifest rows cutoff = .ok () := by
  simp only [unchanged, bind_ok, refuse_ok]
  exact ⟨_, hinfo, _, info_sha256 _, by simp [isText]⟩

theorem export_audit_csv : (export' lib version created_at before text cutoff db).contents (csvName audit_logs.name) =
    .ok (dumped audit_logs db.audit cutoff).sent.flatten := if_pos rfl

theorem export_login_csv : (export' lib version created_at before text cutoff db).contents (csvName login_logs.name) =
    .ok (dumped login_logs db.logins cutoff).sent.flatten := by
  have hnames : csvName login_logs.name ≠ csvName audit_logs.name := by with_unfolding_all decide
  rw [export']
  dsimp only
  rw [if_neg hnames, if_pos rfl]

/-- An archive of the rows as they are is accepted. -/
theorem purge_export (htext : lib.fromisoformat text = some cutoff) (notice : Notice) :
    ∃ work counts, purge lib (fun _ => false) notice (some (export' lib version created_at before text cutoff db)) db =
      (work, .ok counts) := by
  have hstatement : ∀ k, statement (fun _ => false) k = .ok () := fun k => by simp [statement, refuse]
  have haudit : tableInfo (exportManifest lib version created_at before text cutoff db) _ = _ :=
    export_audit version created_at before text cutoff db
  have hlogins : tableInfo (exportManifest lib version created_at before text cutoff db) _ = _ :=
    export_logins version created_at before text cutoff db
  have hbytes : (export' lib version created_at before text cutoff db).contents _ = _ :=
    export_audit_csv version created_at before text cutoff db
  have hbytes' : (export' lib version created_at before text cutoff db).contents _ = _ :=
    export_login_csv version created_at before text cutoff db
  have hformat : formatOf (exportManifest lib version created_at before text cutoff db) = .ok (some (.str FORMAT)) := by
    unfold exportManifest formatOf
    dsimp only
    rw [Dict.get_of_mem _ (by simp only [Dict.keys, List.map]; with_unfolding_all decide) (lit "format")
      (.str FORMAT) (by simp)]
  have hverify : verify lib (some (export' lib version created_at before text cutoff db)) =
      .ok (exportManifest lib version created_at before text cutoff db) := by
    simp only [verify, caught_ok, bind_ok, pure_ok, refuse_ok]
    exact ⟨_, rfl, _, rfl, _, hformat, (), by simp [isText], (), verifyTable_dump cutoff haudit hbytes, (),
      verifyTable_dump cutoff hlogins hbytes', rfl⟩
  have hrun : ∃ r, transaction lib (fun _ => false) notice (exportManifest lib version created_at before text cutoff db) cutoff db =
      .ok r := by
    simp only [transaction, deleteEvents, bind_ok, pure_ok, refuse_ok]
    exact ⟨_, (), hstatement 0, (), hstatement 1, (), unchanged_dump cutoff haudit, (), hstatement 2, (),
      unchanged_dump cutoff hlogins, (), hstatement 3, (), hstatement 4, _, ⟨(), by simp, rfl⟩, (), hstatement 5, (), hstatement 6,
      (), hstatement 7, rfl⟩
  obtain ⟨⟨work, events, logins⟩, hrun⟩ := hrun
  refine ⟨work, (events, logins), ?_⟩
  rw [purge, hverify]
  have hall : (do
      let manifest ← Except.ok (exportManifest lib version created_at before text cutoff db)
      let cutoff ← cutoffOf lib manifest
      transaction lib (fun _ => false) notice manifest cutoff db : Except Failure (Database × Nat × Nat)) =
        .ok (work, events, logins) := by
    simp only [bind_ok]
    exact ⟨_, rfl, cutoff, export_cutoff version created_at before text cutoff db htext, hrun⟩
  rw [hall]

/-- The first moment of year 1 -/
def firstStamp : Stamp where
  date := { year := 1, month := 1, day := 1, month_pos := by decide, month_le := by decide, day_pos := by decide, day_le := by decide }
  year_pos := by decide
  year_le := by decide
  time := 0
  time_lt := by decide

def anyNotice : Notice := ⟨1, firstStamp, [], []⟩

theorem export_hasCutoff (htext : lib.fromisoformat text = some cutoff) {c : Int}
    (h : hasCutoff lib (some (export' lib version created_at before text cutoff db)) c) : c = cutoff := by
  obtain ⟨zf, manifest, hzf, hmanifest, hc⟩ := h
  cases hzf
  cases hmanifest
  rw [export_cutoff version created_at before text cutoff db htext] at hc
  cases hc
  rfl

/-- The purge of an archive of the rows as they are is exact only where NULL and the empty text do not meet. -/
theorem noBlank_of_exact (htext : lib.fromisoformat text = some cutoff) {notice : Notice}
    (hexact : Exact lib (some (export' lib version created_at before text cutoff db)) db
      (purge lib (fun _ => false) notice (some (export' lib version created_at before text cutoff db)) db)) :
    NoBlank cutoff db := by
  obtain ⟨work, counts, hpurge⟩ := purge_export version created_at before text cutoff db htext notice
  rw [hpurge] at hexact
  obtain ⟨zf, c, record, bytes, bytes', hzf, hc, _, _, hbytes, hrecovered, hbytes', hrecovered'⟩ := hexact
  obtain rfl := export_hasCutoff version created_at before text cutoff db htext hc
  cases hzf
  have hcsv : bytes = utf8 (csvText audit_logs (older audit_logs db.audit c)) := by
    rw [export_audit_csv, dumped_bytes] at hbytes
    exact (Except.ok.inj hbytes).symm
  have hcsv' : bytes' = utf8 (csvText login_logs (older login_logs db.logins c)) := by
    rw [export_login_csv, dumped_bytes] at hbytes'
    exact (Except.ok.inj hbytes').symm
  rw [hcsv, recovered_audit] at hrecovered
  rw [hcsv', recovered_login] at hrecovered'
  exact ⟨fun r hr hold => hrecovered r (mem_older.mpr ⟨hr, hold⟩), fun r hr hold => hrecovered' r (mem_older.mpr ⟨hr, hold⟩)⟩

end

/-- Every purge with an archive of this cut-off is exact if and only if no row older than the cut-off has an empty text in a
column that may be NULL. -/
theorem purge_exact_iff (hsha : Function.Injective lib.sha256) {text : Str} {cutoff : Int}
    (htext : lib.fromisoformat text = some cutoff) (db : Database) :
    (∀ fails notice file, (∀ c, hasCutoff lib file c → c = cutoff) → Exact lib file db (purge lib fails notice file db)) ↔
      NoBlank cutoff db := by
  constructor
  · intro h
    exact noBlank_of_exact [] [] [] text cutoff db htext
      (h (fun _ => false) anyNotice _ fun c hc => export_hasCutoff [] [] [] text cutoff db htext hc)
  · intro h fails notice file hfile
    exact purge_exact hsha fails notice file db fun c hc => by rw [hfile c hc]; exact h

end

/-- Digests that are the bytes themselves, and times of UTC -/
def plain : Library Empty where
  sha256 bytes := bytes.map fun b => Char.ofNat b.toNat
  fromisoformat s := (parse s).map Stamp.instant
  isoformat _ := []
  lt _ x := x.elim

theorem plain_sha256 : Function.Injective plain.sha256 := by
  refine Function.LeftInverse.injective (g := fun s => s.map fun c => UInt8.ofNat c.toNat) fun bytes => ?_
  simp [plain, byte_of_char, Function.comp_def]

/-- The second day of year 1 -/
def secondStamp : Stamp where
  date := { year := 1, month := 1, day := 2, month_pos := by decide, month_le := by decide, day_pos := by decide, day_le := by decide }
  year_pos := by decide
  year_le := by decide
  time := 0
  time_lt := by decide

theorem plain_fromisoformat (t : Stamp) : plain.fromisoformat (isoformat t) = some t.instant := by
  change (parse (isoformat t)).map Stamp.instant = some t.instant
  rw [parse_isoformat]
  rfl

/-- One sign-in of the first day -/
def signIn (user_agent : Option Str) : Database :=
  ⟨[], [⟨1, firstStamp, lit "admin", true, none, user_agent, none⟩], true⟩

theorem purge_exact_iff_signIn :
    (∀ fails notice file, (∀ c, hasCutoff plain file c → c = secondStamp.instant) →
      Exact plain file (signIn none) (purge plain fails notice file (signIn none))) ↔
      NoBlank secondStamp.instant (signIn none) :=
  purge_exact_iff plain_sha256 (plain_fromisoformat secondStamp) (signIn none)

/-- A sign-in is archived without a User-Agent and then gets an empty one: the purge removes it, and the archive does not give it
back. -/
theorem null_changed_to_empty :
    ∃ notice work counts,
      purge plain (fun _ => false) notice
        (some (export' plain [] [] [] (isoformat secondStamp) secondStamp.instant (signIn none))) (signIn (some [])) =
          (work, .ok counts) ∧
      ¬ Exact plain (some (export' plain [] [] [] (isoformat secondStamp) secondStamp.instant (signIn none))) (signIn (some []))
        (work, .ok counts) := by
  have hsame : export' plain [] [] [] (isoformat secondStamp) secondStamp.instant (signIn none) =
      export' plain [] [] [] (isoformat secondStamp) secondStamp.instant (signIn (some [])) := by
    have hlogins : dumped login_logs (signIn none).logins secondStamp.instant =
        dumped login_logs (signIn (some [])).logins secondStamp.instant := by rfl
    have haudit : (signIn none).audit = (signIn (some [])).audit := rfl
    simp only [export', exportManifest, dump, hlogins, haudit]
  obtain ⟨work, counts, hpurge⟩ := purge_export [] [] [] (isoformat secondStamp) secondStamp.instant (signIn (some []))
    (plain_fromisoformat secondStamp) anyNotice
  refine ⟨anyNotice, work, counts, by rw [hsame]; exact hpurge, ?_⟩
  rw [hsame, ← hpurge]
  intro hexact
  have hblank := noBlank_of_exact [] [] [] (isoformat secondStamp) secondStamp.instant (signIn (some []))
    (plain_fromisoformat secondStamp) hexact
  exact hblank.2 _ (List.mem_singleton_self _) (by with_unfolding_all decide) (.inr (.inl rfl))

end AuditArchive
