import Ngcorion.Dict
import Ngcorion.Text

/-!
# The tables of the CVE database

What a batch of NVD records, the catalogue of exploited CVEs and the scores of EPSS write.
Times are seconds.
-/
namespace CveStore

open Text

/-! ## Records -/

/-- A CVE's name, which has no NUL character and fits its column. -/
structure CveId where
  text : Str
  clean : Char.ofNat 0 ∉ text
  fits : text.length ≤ 32
  deriving DecidableEq

/-- The name of one character after CVE. -/
def named (number : Char) (h : Char.ofNat 0 ≠ number) : CveId :=
  ⟨['C', 'V', 'E', '-', number], by simp [h], by simp⟩

theorem zero_ne_one : Char.ofNat 0 ≠ '1' := by decide

theorem zero_ne_two : Char.ofNat 0 ≠ '2' := by decide

/-- The values of `part`: a, o and h. -/
inductive Part where
  | application | os | hardware
  deriving DecidableEq

/-- A vulnerable CPE criterion. -/
structure Cpe where
  part : Option Part
  vendor : Str
  product : Str
  version : Option Str
  start_incl : Option Str
  start_excl : Option Str
  end_incl : Option Str
  end_excl : Option Str
  deriving DecidableEq

structure Cvss (F : Type) where
  score : Option F
  version : Option Str
  severity : Option Str
  vector : Option Str
  deriving DecidableEq

/-- A normalised record; the scores are floating-point numbers. -/
structure Record (F : Type) where
  id : CveId
  rejected : Bool
  modified : Option Nat
  published : Option Nat
  status : Option Str
  description : Option Str
  cvss : Cvss F
  cwe : Option Str
  refs : List Str
  cpes : List Cpe
  deriving DecidableEq

variable {F : Type}

/-! ## Texts as they are stored -/

/-- `_clean` of a text -/
def cleanText (s : Str) : Str := s.filter (fun c => c ≠ Char.ofNat 0)

def Cpe.clean (c : Cpe) : Cpe where
  part := c.part
  vendor := cleanText c.vendor
  product := cleanText c.product
  version := c.version.map cleanText
  start_incl := c.start_incl.map cleanText
  start_excl := c.start_excl.map cleanText
  end_incl := c.end_incl.map cleanText
  end_excl := c.end_excl.map cleanText

/-- `_clean` of a record; its name stays. -/
def Record.clean (r : Record F) : Record F where
  id := r.id
  rejected := r.rejected
  modified := r.modified
  published := r.published
  status := r.status.map cleanText
  description := r.description.map cleanText
  cvss := ⟨r.cvss.score, r.cvss.version.map cleanText, r.cvss.severity.map cleanText, r.cvss.vector.map cleanText⟩
  cwe := r.cwe.map cleanText
  refs := r.refs.map cleanText
  cpes := r.cpes.map Cpe.clean

/-- `_fit` -/
def fit (width : Nat) (value : Option Str) : Option Str := value.map (List.take width)

/-- `safe_url` -/
def safe_url (url : Str) : Bool :=
  url.length ≤ 2000 &&
    (startsWith (lit "https://") (url.map Char.toLower) || startsWith (lit "http://") (url.map Char.toLower))

/-! ## Rows -/

/-- The columns of an entry that come from NVD. -/
structure Nvd (F : Type) where
  published : Option Nat
  last_modified : Option Nat
  status : Option Str
  description : Str
  cvss_score : Option F
  cvss_version : Option Str
  severity : Option Str
  cvss_vector : Option Str
  cwe : Option Str
  references : List Str
  deriving DecidableEq

/-- The columns of the catalogue of exploited CVEs. -/
structure Kev where
  kev : Bool
  kev_added : Option Nat
  kev_due : Option Nat
  kev_ransomware : Option Str
  kev_action : Option Str

def Kev.unmarked : Kev := ⟨false, none, none, none, none⟩

/-- The columns of EPSS. -/
structure Epss (F : Type) where
  epss : Option F
  epss_percentile : Option F

structure CveEntry (F : Type) where
  nvd : Nvd F
  kev : Kev
  epss : Epss F
  updated_at : Nat

/-- The rows of `cve_entries` by name, and those of `cve_cpe_matches`. -/
structure Db (F : Type) where
  entries : List (CveId × CveEntry F)
  cpe_matches : List (CveId × Cpe)

def Db.empty : Db F := ⟨[], []⟩

/-- The values of a cleaned record. -/
def nvdOf (r : Record F) : Nvd F where
  published := r.published
  last_modified := r.modified
  status := fit 32 r.status
  description := r.description.getD []
  cvss_score := r.cvss.score
  cvss_version := fit 8 r.cvss.version
  severity := fit 16 r.cvss.severity
  cvss_vector := fit 200 r.cvss.vector
  cwe := fit 200 r.cwe
  references := (r.refs.filter safe_url).take 8

def cpeRows (r : Record F) : List (CveId × Cpe) := r.cpes.map (fun c => (r.id, c))

/-! ## A batch of records -/

/-- What an entry becomes; the columns of the other feeds are kept. -/
def written (now : Nat) (r : Record F) : Option (CveEntry F) → CveEntry F
  | none => ⟨nvdOf r, .unmarked, ⟨none, none⟩, now⟩
  | some e => { e with nvd := nvdOf r, updated_at := now }

/-- `on_conflict_do_update` -/
def upsert (now : Nat) (entries : List (CveId × CveEntry F)) (r : Record F) : List (CveId × CveEntry F) :=
  Dict.set entries r.id (written now r (Dict.get entries r.id))

/-- The entry of a record in the table is newer than the record. -/
def stale (entries : List (CveId × CveEntry F)) (r : Record F) : Bool :=
  match (Dict.get entries r.id).bind (fun e => e.nvd.last_modified), r.modified with
  | some stored, some modified => modified < stored
  | _, _ => false

def rejectedIds (records : List (Record F)) : List CveId := (records.filter Record.rejected).map Record.id

/-- The records of a batch that are written. -/
def live (entries : List (CveId × CveEntry F)) (records : List (Record F)) : List (Record F) :=
  records.filter (fun r => !r.rejected && !stale entries r)

/-- A batch of cleaned records; the insert fails when it names an entry twice. -/
def writeBatch (now : Nat) (records : List (Record F)) (db : Db F) : Option (Db F) :=
  let entries := db.entries.filter (fun e => e.1 ∉ rejectedIds records)
  let cpe_matches := db.cpe_matches.filter (fun c => c.1 ∉ rejectedIds records)
  let ids := (live db.entries records).map Record.id
  if ids.Nodup then
    some ⟨(live db.entries records).foldl (upsert now) entries,
      cpe_matches.filter (fun c => c.1 ∉ ids) ++ (live db.entries records).flatMap cpeRows⟩
  else none

def apply_cve_batch (now : Nat) (records : List (Record F)) (db : Db F) : Option (Db F) :=
  writeBatch now (records.map Record.clean) db

/-- `BATCH` -/
def batchSize : Nat := 1000

/-- `apply_cves`, after some batches and with a part of the next one; `now` tells the clock at each batch. -/
def applyFrom (now : Nat → Nat) : Nat → List (Record F) → List (Record F) → Db F → Option (Db F)
  | k, batch, [], db => apply_cve_batch (now k) batch db
  | k, batch, r :: records, db =>
    if batchSize ≤ batch.length + 1 then
      (apply_cve_batch (now k) (batch ++ [r]) db).bind (applyFrom now (k + 1) [] records)
    else applyFrom now k (batch ++ [r]) records db

def apply_cves (now : Nat → Nat) (records : List (Record F)) (db : Db F) : Option (Db F) :=
  applyFrom now 0 [] records db

/-- The records are written in batches, one after the other. -/
theorem applyFrom_batches (now : Nat → Nat) (k : Nat) (batch records : List (Record F)) :
    ∃ batches : List (Nat × List (Record F)), batches.flatMap Prod.snd = batch ++ records ∧
      ∀ db, applyFrom now k batch records db = batches.foldlM (fun db b => apply_cve_batch b.1 b.2 db) db := by
  induction records generalizing k batch with
  | nil =>
    refine ⟨[(now k, batch)], by simp, fun db => ?_⟩
    simp [applyFrom]
  | cons r records ih =>
    by_cases hfull : batchSize ≤ batch.length + 1
    · obtain ⟨batches, hrecords, hrun⟩ := ih (k + 1) []
      refine ⟨(now k, batch ++ [r]) :: batches, by simp [hrecords], fun db => ?_⟩
      simp only [applyFrom, hfull, if_true, List.foldlM_cons]
      congr 1
      funext db'
      exact hrun db'
    · obtain ⟨batches, hrecords, hrun⟩ := ih k (batch ++ [r])
      refine ⟨batches, by simp [hrecords], fun db => ?_⟩
      simp only [applyFrom, hfull, if_false]
      exact hrun db

/-! ## The other feeds -/

/-- A CVE of the catalogue. -/
structure KevItem where
  id : CveId
  added : Option Nat
  due : Option Nat
  ransomware : Option Str
  action : Option Str

/-- One row of `cve_entries` is updated. -/
def updateEntry (f : CveEntry F → CveEntry F) (entries : List (CveId × CveEntry F)) (id : CveId) :
    List (CveId × CveEntry F) :=
  entries.map (fun e => if e.1 = id then (e.1, f e.2) else e)

/-- The first update of `apply_kev`. -/
def CveEntry.unmark (now : Nat) (e : CveEntry F) : CveEntry F :=
  if e.kev.kev then { e with kev := .unmarked, updated_at := now } else e

def CveEntry.mark (now : Nat) (item : KevItem) (e : CveEntry F) : CveEntry F :=
  { e with
    kev := ⟨true, item.added, item.due, fit 16 (item.ransomware.map cleanText), item.action.map cleanText⟩
    updated_at := now }

def apply_kev (now : Nat) (items : List KevItem) (db : Db F) : Db F :=
  { db with
    entries := items.foldl (fun entries item => updateEntry (CveEntry.mark now item) entries item.id)
      (db.entries.map (fun e => (e.1, e.2.unmark now))) }

def CveEntry.score (row : CveId × F × F) (e : CveEntry F) : CveEntry F :=
  { e with epss := ⟨some row.2.1, some row.2.2⟩ }

def apply_epss (rows : List (CveId × F × F)) (db : Db F) : Db F :=
  { db with entries := rows.foldl (fun entries row => updateEntry (CveEntry.score row) entries row.1) db.entries }

/-! ## What a batch does with one name -/

def Db.entry (db : Db F) (id : CveId) : Option (CveEntry F) := Dict.get db.entries id

def Db.cpes (db : Db F) (id : CveId) : List (CveId × Cpe) := db.cpe_matches.filter (fun c => c.1 = id)

/-- The columns of NVD and the rows of the criteria are those of a record. -/
def Holds (db : Db F) (r : Record F) : Prop :=
  (db.entry r.id).map CveEntry.nvd = some (nvdOf r.clean) ∧ db.cpes r.id = cpeRows r.clean

def Absent (db : Db F) (id : CveId) : Prop := db.entry id = none ∧ db.cpes id = []

section Batch

variable {now : Nat} {records : List (Record F)} {db db' : Db F} {r : Record F} {id : CveId}

theorem get_upsert (entries : List (CveId × CveEntry F)) :
    Dict.get (upsert now entries r) id = if r.id = id then some (written now r (Dict.get entries id)) else Dict.get entries id := by
  unfold upsert
  rw [Dict.get_set]
  split
  · next h => rw [h]
  · rfl

theorem get_upserts_absent {rs : List (Record F)} (h : id ∉ rs.map Record.id) (entries : List (CveId × CveEntry F)) :
    Dict.get (rs.foldl (upsert now) entries) id = Dict.get entries id := by
  induction rs generalizing entries with
  | nil => rfl
  | cons s rs ih =>
    simp only [List.map_cons, List.mem_cons, not_or] at h
    rw [List.foldl_cons, ih h.2, get_upsert, if_neg (Ne.symm h.1)]

theorem get_upserts_mem {rs : List (Record F)} (hids : (rs.map Record.id).Nodup) (hr : r ∈ rs)
    (entries : List (CveId × CveEntry F)) :
    Dict.get (rs.foldl (upsert now) entries) r.id = some (written now r (Dict.get entries r.id)) := by
  induction rs generalizing entries with
  | nil => simp at hr
  | cons s rs ih =>
    rw [List.map_cons, List.nodup_cons] at hids
    rw [List.foldl_cons]
    cases List.mem_cons.mp hr with
    | inl heq =>
      rw [heq, get_upserts_absent hids.1, get_upsert, if_pos rfl]
    | inr hmem =>
      have hne : s.id ≠ r.id := fun heq => hids.1 (heq ▸ List.mem_map_of_mem hmem)
      rw [ih hids.2 hmem, get_upsert, if_neg hne]

theorem cpeRows_absent {rs : List (Record F)} (h : id ∉ rs.map Record.id) :
    (rs.flatMap cpeRows).filter (fun c => c.1 = id) = [] := by
  rw [List.filter_eq_nil_iff]
  intro c hc
  obtain ⟨s, hs, hcs⟩ := List.mem_flatMap.mp hc
  obtain ⟨cpe, -, rfl⟩ := List.mem_map.mp hcs
  have hne : s.id ≠ id := fun heq => h (heq ▸ List.mem_map_of_mem hs)
  simpa using hne

theorem cpeRows_mem {rs : List (Record F)} (hids : (rs.map Record.id).Nodup) (hr : r ∈ rs) :
    (rs.flatMap cpeRows).filter (fun c => c.1 = r.id) = cpeRows r := by
  induction rs with
  | nil => simp at hr
  | cons s rs ih =>
    rw [List.map_cons, List.nodup_cons] at hids
    rw [List.flatMap_cons, List.filter_append]
    cases List.mem_cons.mp hr with
    | inl heq =>
      rw [heq, cpeRows_absent hids.1, List.append_nil, List.filter_eq_self]
      intro c hc
      obtain ⟨cpe, -, rfl⟩ := List.mem_map.mp hc
      simp
    | inr hmem =>
      have hne : s.id ≠ r.id := fun heq => hids.1 (heq ▸ List.mem_map_of_mem hmem)
      have hnone : (cpeRows s).filter (fun c => c.1 = r.id) = [] := by
        have hnot : r.id ∉ [s].map Record.id := by simpa using Ne.symm hne
        simpa using cpeRows_absent hnot
      rw [hnone, List.nil_append, ih hids.2 hmem]

theorem writeBatch_some (h : writeBatch now records db = some db') :
    ((live db.entries records).map Record.id).Nodup ∧
      db' = ⟨(live db.entries records).foldl (upsert now) (db.entries.filter (fun e => e.1 ∉ rejectedIds records)),
        (db.cpe_matches.filter (fun c => c.1 ∉ rejectedIds records)).filter
          (fun c => c.1 ∉ (live db.entries records).map Record.id) ++ (live db.entries records).flatMap cpeRows⟩ := by
  simp only [writeBatch] at h
  split at h
  · next hids => exact ⟨hids, (Option.some.inj h).symm⟩
  · simp at h

/-- A name that no record of the batch writes or rejects keeps its rows. -/
theorem writeBatch_other (h : writeBatch now records db = some db') (hlive : id ∉ (live db.entries records).map Record.id)
    (hrejected : id ∉ rejectedIds records) : db'.entry id = db.entry id ∧ db'.cpes id = db.cpes id := by
  obtain ⟨-, rfl⟩ := writeBatch_some h
  constructor
  · unfold Db.entry
    rw [get_upserts_absent hlive, Dict.get_filter _ (fun k => decide (k ∉ rejectedIds records)), if_pos (by simpa using hrejected)]
  · unfold Db.cpes
    rw [List.filter_append, cpeRows_absent hlive, List.append_nil, List.filter_filter, List.filter_filter]
    apply List.filter_congr
    intro c _
    by_cases hc : c.1 = id
    · simp [hc, hlive, hrejected]
    · simp [hc]

/-- A written record has its rows. -/
theorem writeBatch_live (h : writeBatch now records db = some db') (hr : r ∈ live db.entries records)
    (hrejected : r.id ∉ rejectedIds records) :
    db'.entry r.id = some (written now r (db.entry r.id)) ∧ db'.cpes r.id = cpeRows r := by
  obtain ⟨hids, rfl⟩ := writeBatch_some h
  constructor
  · unfold Db.entry
    rw [get_upserts_mem hids hr, Dict.get_filter _ (fun k => decide (k ∉ rejectedIds records)), if_pos (by simpa using hrejected)]
  · unfold Db.cpes
    rw [List.filter_append, cpeRows_mem hids hr, List.filter_filter]
    have hnone : (db.cpe_matches.filter (fun c => c.1 ∉ rejectedIds records)).filter
        (fun c => decide (c.1 = r.id) && decide (c.1 ∉ (live db.entries records).map Record.id)) = [] := by
      rw [List.filter_eq_nil_iff]
      intro c _ hc
      rw [Bool.and_eq_true, decide_eq_true_eq, decide_eq_true_eq] at hc
      exact hc.2 (hc.1 ▸ List.mem_map_of_mem hr)
    rw [hnone, List.nil_append]

/-- A rejected name that the batch does not write has no rows. -/
theorem writeBatch_rejected (h : writeBatch now records db = some db') (hlive : id ∉ (live db.entries records).map Record.id)
    (hrejected : id ∈ rejectedIds records) : db'.entry id = none ∧ db'.cpes id = [] := by
  obtain ⟨-, rfl⟩ := writeBatch_some h
  constructor
  · unfold Db.entry
    rw [get_upserts_absent hlive, Dict.get_filter _ (fun k => decide (k ∉ rejectedIds records)), if_neg (by simpa using hrejected)]
  · unfold Db.cpes
    rw [List.filter_append, cpeRows_absent hlive, List.append_nil, List.filter_filter, List.filter_filter, List.filter_eq_nil_iff]
    intro c _ hc
    simp only [Bool.and_eq_true, decide_eq_true_eq] at hc
    exact hc.2 (hc.1.1 ▸ hrejected)

@[simp] theorem clean_id (r : Record F) : r.clean.id = r.id := rfl

@[simp] theorem clean_rejected (r : Record F) : r.clean.rejected = r.rejected := rfl

@[simp] theorem clean_modified (r : Record F) : r.clean.modified = r.modified := rfl

theorem clean_ids (records : List (Record F)) : (records.map Record.clean).map Record.id = records.map Record.id := by
  rw [List.map_map]
  rfl

theorem rejectedIds_nil (h : ∀ r ∈ records, r.rejected = false) : rejectedIds (records.map Record.clean) = [] := by
  unfold rejectedIds
  rw [List.map_eq_nil_iff, List.filter_eq_nil_iff]
  intro c hc
  obtain ⟨r, hr, rfl⟩ := List.mem_map.mp hc
  simp [h r hr]

/-- A batch in which each name stands once is written. -/
theorem batch_some (now : Nat) (db : Db F) (hids : (records.map Record.id).Nodup) :
    ∃ db', apply_cve_batch now records db = some db' := by
  have hlive : ((live db.entries (records.map Record.clean)).map Record.id).Nodup := by
    rw [← clean_ids] at hids
    exact hids.sublist (List.filter_sublist.map _)
  unfold apply_cve_batch writeBatch
  rw [if_pos hlive]
  exact ⟨_, rfl⟩

theorem mem_live {entries : List (CveId × CveEntry F)} {r : Record F} (hr : r ∈ records) (haccepted : r.rejected = false)
    (hstale : stale entries r.clean = false) : r.clean ∈ live entries (records.map Record.clean) := by
  unfold live
  rw [List.mem_filter]
  exact ⟨List.mem_map_of_mem hr, by simp [haccepted, hstale]⟩

/-- A name that no record has, or whose records are all stale, is not written. -/
theorem not_live {entries : List (CveId × CveEntry F)}
    (h : ∀ r ∈ records, r.id = id → stale entries r.clean = true) :
    id ∉ (live entries (records.map Record.clean)).map Record.id := by
  intro hmem
  obtain ⟨c, hc, hid⟩ := List.mem_map.mp hmem
  obtain ⟨hc, hlive⟩ := List.mem_filter.mp hc
  obtain ⟨r, hr, rfl⟩ := List.mem_map.mp hc
  simp [h r hr hid] at hlive

end Batch

/-! ## What the other feeds keep -/

section Feeds

theorem nvd_map {g : CveId × CveEntry F → CveId × CveEntry F} (hid : ∀ e, (g e).1 = e.1)
    (hnvd : ∀ e, (g e).2.nvd = e.2.nvd) (entries : List (CveId × CveEntry F)) (id : CveId) :
    (Dict.get (entries.map g) id).map CveEntry.nvd = (Dict.get entries id).map CveEntry.nvd := by
  induction entries with
  | nil => rfl
  | cons e entries ih =>
    have hg : g e = (e.1, (g e).2) := Prod.ext (hid e) rfl
    rw [List.map_cons, hg]
    by_cases heq : e.1 = id
    · simp [Dict.get, heq, hnvd]
    · simpa [Dict.get, heq] using ih

theorem nvd_updates {α : Type} (f : α → CveEntry F → CveEntry F) (hf : ∀ a e, (f a e).nvd = e.nvd) (name : α → CveId)
    (rows : List α) (entries : List (CveId × CveEntry F)) (id : CveId) :
    (Dict.get (rows.foldl (fun es a => updateEntry (f a) es (name a)) entries) id).map CveEntry.nvd =
      (Dict.get entries id).map CveEntry.nvd := by
  induction rows generalizing entries with
  | nil => rfl
  | cons a rows ih =>
    rw [List.foldl_cons, ih]
    apply nvd_map
    · intro e
      split <;> rfl
    · intro e
      split
      · exact hf a e.2
      · rfl

theorem nvd_kev (now : Nat) (items : List KevItem) (db : Db F) (id : CveId) :
    ((apply_kev now items db).entry id).map CveEntry.nvd = (db.entry id).map CveEntry.nvd := by
  refine (nvd_updates (CveEntry.mark now) (fun _ _ => rfl) KevItem.id items _ id).trans ?_
  apply nvd_map
  · intro e
    rfl
  · intro e
    simp only [CveEntry.unmark]
    split <;> rfl

theorem nvd_epss (rows : List (CveId × F × F)) (db : Db F) (id : CveId) :
    ((apply_epss rows db).entry id).map CveEntry.nvd = (db.entry id).map CveEntry.nvd :=
  nvd_updates CveEntry.score (fun _ _ => rfl) Prod.fst rows _ id

end Feeds

/-! ## One record of a name in many batches -/

/-- The tables are as a record says: its values, or nothing when it is rejected. -/
def Stored (db : Db F) (r : Record F) : Prop := if r.rejected then Absent db r.id else Holds db r

/-- What the table has of a record's name is not newer than the record. -/
def Fresh (db : Db F) (r : Record F) : Prop :=
  ∀ e, db.entry r.id = some e → ∀ m m', e.nvd.last_modified = some m → r.modified = some m' → m ≤ m'

instance [DecidableEq F] (db : Db F) (r : Record F) : Decidable (Stored db r) :=
  inferInstanceAs (Decidable (if r.rejected then _ ∧ _ else _ ∧ _))

section Single

variable {now : Nat} {records : List (Record F)} {db db' : Db F} {r : Record F} {id : CveId}

theorem Fresh.not_stale (h : Fresh db r) : stale db.entries r.clean = false := by
  unfold stale
  rw [clean_id, clean_modified]
  split
  · next stored modified hstored hmodified =>
    obtain ⟨e, he, hlast⟩ := Option.bind_eq_some_iff.mp hstored
    exact decide_eq_false (Nat.not_lt.mpr (h e he stored modified hlast hmodified))
  · rfl

theorem Stored.fresh (h : Stored db r) : Fresh db r := by
  intro e he m m' hm hm'
  unfold Stored at h
  split at h
  · rw [h.1] at he
    simp at he
  · obtain ⟨e', he', hnvd⟩ := Option.map_eq_some_iff.mp h.1
    rw [he'] at he
    cases he
    rw [hnvd] at hm
    change r.modified = some m at hm
    rw [hm] at hm'
    exact Nat.le_of_eq (Option.some.inj hm')

theorem Fresh.of_same (h : Fresh db r) (hentry : db'.entry r.id = db.entry r.id) : Fresh db' r := by
  intro e he
  rw [hentry] at he
  exact h e he

theorem mem_rejectedIds : id ∈ rejectedIds (records.map Record.clean) ↔ ∃ r ∈ records, r.rejected = true ∧ r.id = id := by
  unfold rejectedIds
  simp [and_assoc]

/-- A batch whose only record of a name is the given one, if it has any. -/
theorem batch_single (h : apply_cve_batch now records db = some db') (hone : ∀ s ∈ records, s.id = r.id → s = r)
    (hfresh : Fresh db r) :
    (r ∈ records → Stored db' r) ∧ (r ∉ records → db'.entry r.id = db.entry r.id ∧ db'.cpes r.id = db.cpes r.id) := by
  have hrejected : r.id ∈ rejectedIds (records.map Record.clean) ↔ r ∈ records ∧ r.rejected = true := by
    rw [mem_rejectedIds]
    constructor
    · rintro ⟨s, hs, hrej, hid⟩
      obtain rfl := hone s hs hid
      exact ⟨hs, hrej⟩
    · rintro ⟨hr, hrej⟩
      exact ⟨r, hr, hrej, rfl⟩
  have hlive : r.id ∈ (live db.entries (records.map Record.clean)).map Record.id → r ∈ records ∧ r.rejected = false := by
    intro hmem
    obtain ⟨c, hc, hid⟩ := List.mem_map.mp hmem
    obtain ⟨hc, hlive⟩ := List.mem_filter.mp hc
    obtain ⟨s, hs, rfl⟩ := List.mem_map.mp hc
    obtain rfl := hone s hs hid
    rw [Bool.and_eq_true, Bool.not_eq_true'] at hlive
    exact ⟨hs, hlive.1⟩
  constructor
  · intro hr
    unfold Stored
    cases hrej : r.rejected with
    | true =>
      rw [if_pos rfl]
      refine writeBatch_rejected h (fun hmem => ?_) (hrejected.mpr ⟨hr, hrej⟩)
      have hnot := (hlive hmem).2
      rw [hrej] at hnot
      cases hnot
    | false =>
      have hnot : r.clean.id ∉ rejectedIds (records.map Record.clean) := by simp [hrejected, hrej]
      obtain ⟨hentry, hcpes⟩ := writeBatch_live h (mem_live hr hrej hfresh.not_stale) hnot
      rw [if_neg (by simp)]
      refine ⟨?_, hcpes⟩
      rw [clean_id] at hentry
      rw [hentry]
      cases db.entry r.id <;> rfl
  · intro hr
    exact writeBatch_other h (fun hmem => hr (hlive hmem).1) (fun hmem => hr (hrejected.mp hmem).1)

/-- The same over many batches. -/
theorem batches_single {batches : List (Nat × List (Record F))}
    (h : batches.foldlM (fun db b => apply_cve_batch b.1 b.2 db) db = some db')
    (hone : ∀ s ∈ batches.flatMap Prod.snd, s.id = r.id → s = r) (hfresh : Fresh db r) :
    (r ∈ batches.flatMap Prod.snd → Stored db' r) ∧
      (r ∉ batches.flatMap Prod.snd → db'.entry r.id = db.entry r.id ∧ db'.cpes r.id = db.cpes r.id) := by
  induction batches generalizing db with
  | nil =>
    cases h
    simp
  | cons b batches ih =>
    obtain ⟨db₁, hbatch, hrest⟩ := Option.bind_eq_some_iff.mp (by simpa using h)
    obtain ⟨hmem₁, hother₁⟩ := batch_single hbatch (fun s hs => hone s (List.mem_append_left _ hs)) hfresh
    by_cases hr : r ∈ b.2
    · have hstored := hmem₁ hr
      obtain ⟨hmem, hother⟩ := ih hrest (fun s hs => hone s (List.mem_append_right _ hs)) hstored.fresh
      refine ⟨fun _ => ?_, fun hnot => absurd (List.mem_append_left _ hr) hnot⟩
      by_cases hlater : r ∈ batches.flatMap Prod.snd
      · exact hmem hlater
      · obtain ⟨hentry, hcpes⟩ := hother hlater
        unfold Stored Absent Holds at hstored ⊢
        rwa [hentry, hcpes]
    · obtain ⟨hentry₁, hcpes₁⟩ := hother₁ hr
      obtain ⟨hmem, hother⟩ := ih hrest (fun s hs => hone s (List.mem_append_right _ hs)) (hfresh.of_same hentry₁)
      constructor
      · intro hin
        exact hmem ((List.mem_append.mp hin).resolve_left hr)
      · intro hnot
        obtain ⟨hentry, hcpes⟩ := hother (fun hin => hnot (List.mem_append_right _ hin))
        exact ⟨hentry.trans hentry₁, hcpes.trans hcpes₁⟩

/-- The stamps in the table come from the records. -/
theorem batch_stamps (h : apply_cve_batch now records db = some db') {e : CveEntry F} (he : db'.entry id = some e) :
    (∃ e₀, db.entry id = some e₀ ∧ e.nvd.last_modified = e₀.nvd.last_modified) ∨
      ∃ r ∈ records, r.id = id ∧ e.nvd.last_modified = r.modified := by
  obtain ⟨hids, rfl⟩ := writeBatch_some h
  unfold Db.entry at he
  by_cases hlive : id ∈ (live db.entries (records.map Record.clean)).map Record.id
  · obtain ⟨c, hc, rfl⟩ := List.mem_map.mp hlive
    rw [get_upserts_mem hids hc] at he
    obtain ⟨r, hr, rfl⟩ := List.mem_map.mp (List.mem_filter.mp hc).1
    refine Or.inr ⟨r, hr, rfl, ?_⟩
    cases Option.some.inj he
    unfold written
    split <;> rfl
  · rw [get_upserts_absent hlive, Dict.get_filter _ (fun k => decide (k ∉ rejectedIds (records.map Record.clean)))] at he
    split at he
    · exact Or.inl ⟨e, he, rfl⟩
    · simp at he

theorem batches_stamps {batches : List (Nat × List (Record F))}
    (h : batches.foldlM (fun db b => apply_cve_batch b.1 b.2 db) db = some db') {e : CveEntry F}
    (he : db'.entry id = some e) :
    (∃ e₀, db.entry id = some e₀ ∧ e.nvd.last_modified = e₀.nvd.last_modified) ∨
      ∃ r ∈ batches.flatMap Prod.snd, r.id = id ∧ e.nvd.last_modified = r.modified := by
  induction batches generalizing db with
  | nil =>
    cases h
    exact Or.inl ⟨e, he, rfl⟩
  | cons b batches ih =>
    obtain ⟨db₁, hbatch, hrest⟩ := Option.bind_eq_some_iff.mp (by simpa using h)
    rcases ih hrest with ⟨e₁, he₁, hlast₁⟩ | ⟨r, hr, hid, hlast⟩
    · rcases batch_stamps hbatch he₁ with ⟨e₀, he₀, hlast₀⟩ | ⟨r, hr, hid, hlast⟩
      · exact Or.inl ⟨e₀, he₀, hlast₁.trans hlast₀⟩
      · exact Or.inr ⟨r, List.mem_append_left _ hr, hid, hlast₁.trans hlast⟩
    · exact Or.inr ⟨r, List.mem_append_right _ hr, hid, hlast⟩

end Single

end CveStore
