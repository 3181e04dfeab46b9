import Ngcorion.Cve.RepeatedIds
import Mathlib.Order.BoundedOrder.Basic
import Mathlib.Order.Lattice

/-!
# Offline update packages of the CVE database

What an instance writes into a package, and what another one does with it. The signature and the
files of a package are left to the checks before.
-/
namespace OfflinePackage

open CveStore Text

variable {F R : Type}

/-! ## Export -/

/-- An instance: its tables, and what its settings tell of the feeds. `R` are the dates of the
catalogue and of EPSS as texts. -/
structure Site (F R : Type) where
  db : Db F
  watermark : Option Nat
  released : R
  epss_date : R

inductive Kind where
  | full | delta
  deriving DecidableEq

structure Package (F R : Type) where
  kind : Kind
  since : Option Nat
  ends : Nat
  cves : List (Record F)
  kev : List KevItem
  released : R
  epss : List (CveId × F × F)
  epss_date : R

/-- `_record` -/
def record (id : CveId) (n : Nvd F) (cpes : List Cpe) : Record F where
  id := id
  rejected := false
  modified := n.last_modified
  published := n.published
  status := n.status
  description := some n.description
  cvss := ⟨n.cvss_score, n.cvss_version, n.severity, n.cvss_vector⟩
  cwe := n.cwe
  refs := n.references
  cpes := cpes

/-- An entry as an item of the catalogue -/
def kevItem (id : CveId) (k : Kev) : KevItem := ⟨id, k.kev_added, k.kev_due, k.kev_ransomware, k.kev_action⟩

def selected (kind : Kind) (since : Option Nat) (n : Nvd F) : Bool :=
  match kind, since with
  | .delta, some since => n.last_modified.any fun modified => since ≤ modified
  | _, _ => true

def epssRow (e : CveId × CveEntry F) : Option (CveId × F × F) :=
  match e.2.epss.epss, e.2.epss.epss_percentile with
  | some epss, some percentile => some (e.1, epss, percentile)
  | _, _ => none

/-- `build`; the rows are in the order of the table. -/
def build (kind : Kind) (since : Option Nat) (s : Site F R) : Option (Package F R) :=
  s.watermark.bind fun ends =>
    if kind = .delta ∧ since = none then none
    else some {
      kind := kind
      since := since
      ends := ends
      cves := (s.db.entries.filter fun e => selected kind since e.2.nvd).map
        fun e => record e.1 e.2.nvd ((s.db.cpes e.1).map Prod.snd)
      kev := (s.db.entries.filter fun e => e.2.kev.kev).map fun e => kevItem e.1 e.2.kev
      released := s.released
      epss := s.db.entries.filterMap epssRow
      epss_date := s.epss_date }

/-! ## Import -/

/-- The check `freshness` of `verify` -/
def fresh (p : Package F R) (s : Site F R) : Bool :=
  match p.kind with
  | .full => true
  | .delta =>
    match s.watermark with
    | none => false
    | some current => p.since.all fun since => since ≤ current

/-- `_apply` -/
def apply [LinearOrder R] (now : Nat → Nat) (p : Package F R) (s : Site F R) : Option (Site F R) :=
  (apply_cves now p.cves s.db).map fun db =>
    let s := { s with db := db }
    let s := if s.released ≤ p.released then { s with db := apply_kev (now 0) p.kev s.db, released := p.released } else s
    if p.epss ≠ [] ∧ s.epss_date ≤ p.epss_date then { s with db := apply_epss p.epss s.db, epss_date := p.epss_date } else s

/-- `_import` -/
def import_package [LinearOrder R] (now : Nat → Nat) (p : Package F R) (s : Site F R) : Option (Site F R) :=
  if fresh p s then
    (apply now p s).map fun s =>
      { s with watermark := if s.watermark.all (fun current => current < p.ends) then some p.ends else s.watermark }
  else none

/-! ## Values as they are stored -/

theorem cleanText_of_clean {s : Str} (h : Char.ofNat 0 ∉ s) : cleanText s = s := by
  unfold cleanText
  rw [List.filter_eq_self]
  intro c hc
  rw [decide_eq_true_eq]
  rintro rfl
  exact h hc

theorem cleanText_clean (s : Str) : Char.ofNat 0 ∉ cleanText s := by
  unfold cleanText
  simp

@[simp] theorem cleanText_cleanText (s : Str) : cleanText (cleanText s) = cleanText s :=
  cleanText_of_clean (cleanText_clean s)

/-- A text that was cleaned and cut stays as it is. -/
theorem fit_fit (width : Nat) (value : Option Str) :
    fit width ((fit width (value.map cleanText)).map cleanText) = fit width (value.map cleanText) := by
  unfold fit
  cases value with
  | none => rfl
  | some s =>
    have hclean : cleanText ((cleanText s).take width) = (cleanText s).take width :=
      cleanText_of_clean (fun hmem => cleanText_clean s (List.mem_of_mem_take hmem))
    simp [hclean, List.take_take]

theorem references_kept (refs : List Str) :
    (((((refs.map cleanText).filter safe_url).take 8).map cleanText).filter safe_url).take 8 =
      ((refs.map cleanText).filter safe_url).take 8 := by
  generalize hkept : ((refs.map cleanText).filter safe_url).take 8 = kept
  have hmem : ∀ u ∈ kept, u ∈ (refs.map cleanText).filter safe_url := by
    intro u hu
    rw [← hkept] at hu
    exact List.mem_of_mem_take hu
  have hclean : kept.map cleanText = kept := by
    conv_rhs => rw [← List.map_id kept]
    apply List.map_congr_left
    intro u hu
    obtain ⟨v, -, rfl⟩ := List.mem_map.mp (List.mem_filter.mp (hmem u hu)).1
    exact cleanText_cleanText v
  have hsafe : kept.filter safe_url = kept := by
    rw [List.filter_eq_self]
    exact fun u hu => (List.mem_filter.mp (hmem u hu)).2
  have hlength : kept.length ≤ 8 := by
    rw [← hkept]
    exact List.length_take_le 8 _
  rw [hclean, hsafe, List.take_of_length_le hlength]

/-- The columns are unchanged by a package. -/
def Canonical (n : Nvd F) : Prop := ∀ id cpes, nvdOf (record id n cpes).clean = n

theorem canonical_nvdOf (r : Record F) : Canonical (nvdOf r.clean) := by
  intro id cpes
  unfold nvdOf record Record.clean
  simp only [fit_fit, references_kept, Option.map_some, Option.getD_some]
  cases r.description with
  | none => rfl
  | some d => simp

/-- The columns of the catalogue are those of no item, or are unchanged by a package. -/
def KevProper (k : Kev) : Prop :=
  k = .unmarked ∨ k.kev = true ∧ fit 16 (k.kev_ransomware.map cleanText) = k.kev_ransomware ∧
    k.kev_action.map cleanText = k.kev_action

theorem clean_clean (c : Cpe) : c.clean.clean = c.clean := by
  have hmap (o : Option Str) : (o.map cleanText).map cleanText = o.map cleanText := by cases o <;> simp
  unfold Cpe.clean
  simp only [cleanText_cleanText, hmap]

/-! ## Tables that a package can carry -/

/-- Each name has one entry, with a stamp and with values that a package leaves as they are; the rows of the
criteria belong to an entry. -/
structure Proper (db : Db F) : Prop where
  keys : (Dict.keys db.entries).Nodup
  alone : ∀ id, db.entry id = none → db.cpes id = []
  stamped : ∀ id e, db.entry id = some e → e.nvd.last_modified.isSome = true
  nvd : ∀ id e, db.entry id = some e → Canonical e.nvd
  kev : ∀ id e, db.entry id = some e → KevProper e.kev
  rows : ∀ c ∈ db.cpe_matches, c.2.clean = c.2

section Batch

variable {now : Nat} {b : List (Record F)} {db db' : Db F} {r : Record F} {id : CveId}

theorem written_kev {e : Option (CveEntry F)} : (written now r e).kev = .unmarked ∨ ∃ e₀, e = some e₀ ∧ (written now r e).kev = e₀.kev := by
  cases e with
  | none => exact .inl rfl
  | some e => exact .inr ⟨e, rfl, rfl⟩

/-- A written record is in the tables. -/
theorem live_holds (h : apply_cve_batch now b db = some db') (hlive : r.clean ∈ live db.entries (b.map Record.clean)) :
    Holds db' r ∧ ∀ e, db'.entry r.id = some e →
      e.kev = .unmarked ∨ ∃ e₀, db.entry r.id = some e₀ ∧ e.kev = e₀.kev := by
  obtain ⟨hids, rfl⟩ := writeBatch_some h
  have hentry := @get_upserts_mem F now r.clean _ hids hlive
    (db.entries.filter (fun e => e.1 ∉ rejectedIds (b.map Record.clean)))
  rw [clean_id] at hentry
  refine ⟨⟨?_, ?_⟩, ?_⟩
  · unfold Db.entry
    rw [hentry]
    cases Dict.get (db.entries.filter (fun e => e.1 ∉ rejectedIds (b.map Record.clean))) r.id <;> rfl
  · unfold Db.cpes
    rw [List.filter_append, ← clean_id r, cpeRows_mem hids hlive, List.append_left_eq_self, List.filter_eq_nil_iff]
    intro c hc
    obtain ⟨-, hother⟩ := List.mem_filter.mp hc
    rw [decide_eq_true_eq] at hother ⊢
    intro heq
    rw [heq] at hother
    exact hother (List.mem_map_of_mem hlive)
  · intro e he
    unfold Db.entry at he ⊢
    rw [hentry, Dict.get_filter _ (fun k => decide (k ∉ rejectedIds (b.map Record.clean)))] at he
    cases he
    split
    · exact written_kev
    · exact .inl rfl

/-- What a batch does with a name: it writes a record that is not older, removes it, or leaves it. -/
theorem batch_row (h : apply_cve_batch now b db = some db') (id : CveId) :
    (∃ r ∈ b, r.id = id ∧ r.rejected = false ∧ stale db.entries r.clean = false ∧ Holds db' r ∧
      ∀ e, db'.entry id = some e → e.kev = .unmarked ∨ ∃ e₀, db.entry id = some e₀ ∧ e.kev = e₀.kev) ∨
    (∃ r ∈ b, r.id = id ∧ r.rejected = true) ∧ Absent db' id ∨
    db'.entry id = db.entry id ∧ db'.cpes id = db.cpes id := by
  by_cases hlive : id ∈ (live db.entries (b.map Record.clean)).map Record.id
  · left
    obtain ⟨c, hc, rfl⟩ := List.mem_map.mp hlive
    obtain ⟨hmem, hkept⟩ := List.mem_filter.mp hc
    obtain ⟨r, hr, rfl⟩ := List.mem_map.mp hmem
    rw [Bool.and_eq_true, Bool.not_eq_true', Bool.not_eq_true'] at hkept
    obtain ⟨hholds, hkev⟩ := live_holds h hc
    exact ⟨r, hr, rfl, hkept.1, hkept.2, hholds, hkev⟩
  · by_cases hrejected : id ∈ rejectedIds (b.map Record.clean)
    · obtain ⟨r, hr, hrej, hid⟩ := mem_rejectedIds.mp hrejected
      exact .inr (.inl ⟨⟨r, hr, hid, hrej⟩, writeBatch_rejected h hlive hrejected⟩)
    · exact .inr (.inr (writeBatch_other h hlive hrejected))

theorem upserts_keys (rs : List (Record F)) (entries : List (CveId × CveEntry F)) (h : (Dict.keys entries).Nodup) :
    (Dict.keys (rs.foldl (upsert now) entries)).Nodup := by
  induction rs generalizing entries with
  | nil => exact h
  | cons r rs ih => exact ih _ (Dict.nodup_set entries _ _ h)

/-- A batch keeps the tables proper. -/
theorem Proper.batch (hdb : Proper db) (h : apply_cve_batch now b db = some db')
    (hstamped : ∀ r ∈ b, r.rejected = false → r.modified.isSome = true) : Proper db' := by
  have hrow := batch_row h
  obtain ⟨hids, hdb'⟩ := writeBatch_some h
  constructor
  · rw [hdb']
    exact upserts_keys _ _ (hdb.keys.sublist (List.filter_sublist.map _))
  · intro id hnone
    obtain ⟨r, -, rfl, -, -, hholds, -⟩ | ⟨-, habsent⟩ | ⟨hentry, hcpes⟩ := hrow id
    · have hnvd := hholds.1
      rw [hnone] at hnvd
      cases hnvd
    · exact habsent.2
    · rw [hcpes]
      exact hdb.alone id (hentry ▸ hnone)
  · intro id e he
    obtain ⟨r, hr, rfl, hrejected, -, hholds, -⟩ | ⟨-, habsent⟩ | ⟨hentry, -⟩ := hrow id
    · have hnvd := hholds.1
      rw [he] at hnvd
      rw [Option.some.inj hnvd]
      exact hstamped r hr hrejected
    · rw [habsent.1] at he
      cases he
    · exact hdb.stamped id e (hentry ▸ he)
  · intro id e he
    obtain ⟨r, hr, rfl, -, -, hholds, -⟩ | ⟨-, habsent⟩ | ⟨hentry, -⟩ := hrow id
    · have hnvd := hholds.1
      rw [he] at hnvd
      rw [Option.some.inj hnvd]
      exact canonical_nvdOf r
    · rw [habsent.1] at he
      cases he
    · exact hdb.nvd id e (hentry ▸ he)
  · intro id e he
    obtain ⟨r, hr, rfl, -, -, -, hkev⟩ | ⟨-, habsent⟩ | ⟨hentry, -⟩ := hrow id
    · obtain hunmarked | ⟨e₀, he₀, hsame⟩ := hkev e he
      · exact .inl hunmarked
      · rw [hsame]
        exact hdb.kev _ e₀ he₀
    · rw [habsent.1] at he
      cases he
    · exact hdb.kev id e (hentry ▸ he)
  · rw [hdb']
    intro c hc
    cases List.mem_append.mp hc with
    | inl hold => exact hdb.rows c (List.mem_filter.mp (List.mem_filter.mp hold).1).1
    | inr hnew =>
      obtain ⟨d, hd, hcd⟩ := List.mem_flatMap.mp hnew
      obtain ⟨r, -, rfl⟩ := List.mem_map.mp (List.mem_filter.mp hd).1
      obtain ⟨cpe, hcpe, rfl⟩ := List.mem_map.mp hcd
      obtain ⟨raw, -, rfl⟩ := List.mem_map.mp hcpe
      exact clean_clean raw

end Batch

/-! ## The other feeds -/

section Feeds

variable {now : Nat} {db : Db F} {id : CveId}

theorem get_updateEntry (f : CveEntry F → CveEntry F) (entries : List (CveId × CveEntry F)) (name id : CveId) :
    Dict.get (updateEntry f entries name) id = (Dict.get entries id).map (fun e => if name = id then f e else e) := by
  induction entries with
  | nil => rfl
  | cons e entries ih =>
    unfold updateEntry at ih ⊢
    rw [List.map_cons]
    by_cases hid : e.1 = id
    · by_cases hname : e.1 = name
      · have hsame : name = id := hname.symm.trans hid
        simp [Dict.get, hname, hsame]
      · have hother : name ≠ id := fun heq => hname (hid.trans heq.symm)
        simp [Dict.get, hid, hother, hid ▸ hname]
    · by_cases hname : e.1 = name
      · simp [Dict.get, hname, ih, hname ▸ hid]
      · simp [Dict.get, hid, hname, ih]

/-- What a feed's rows do with an entry, one after the other. -/
theorem get_updates {α : Type} (f : α → CveEntry F → CveEntry F) (name : α → CveId) (rows : List α)
    (entries : List (CveId × CveEntry F)) (id : CveId) :
    Dict.get (rows.foldl (fun es a => updateEntry (f a) es (name a)) entries) id =
      (Dict.get entries id).map (fun e => (rows.filter (fun a => name a = id)).foldl (fun e a => f a e) e) := by
  induction rows generalizing entries with
  | nil => simp
  | cons a rows ih =>
    rw [List.foldl_cons, ih, get_updateEntry, Option.map_map]
    congr 1
    funext e
    by_cases hname : name a = id
    · simp [hname]
    · simp [hname]

theorem updates_keys {α : Type} (f : α → CveEntry F → CveEntry F) (name : α → CveId) (rows : List α)
    (entries : List (CveId × CveEntry F)) :
    Dict.keys (rows.foldl (fun es a => updateEntry (f a) es (name a)) entries) = Dict.keys entries := by
  induction rows generalizing entries with
  | nil => rfl
  | cons a rows ih =>
    rw [List.foldl_cons, ih]
    unfold updateEntry Dict.keys
    rw [List.map_map]
    apply List.map_congr_left
    intro e _
    rw [Function.comp_apply]
    split <;> rfl

/-- The columns that an item of the catalogue writes. -/
def KevItem.columns (item : KevItem) : Kev :=
  ⟨true, item.added, item.due, fit 16 (item.ransomware.map cleanText), item.action.map cleanText⟩

theorem columns_proper (item : KevItem) : KevProper (KevItem.columns item) := by
  refine .inr ⟨rfl, fit_fit 16 item.ransomware, ?_⟩
  unfold KevItem.columns
  cases item.action <;> simp

theorem unmark_kev {e : CveEntry F} (h : KevProper e.kev) : (e.unmark now).kev = .unmarked := by
  unfold CveEntry.unmark
  split
  · rfl
  · next hnot =>
    obtain heq | ⟨htrue, -⟩ := h
    · exact heq
    · exact absurd htrue hnot

theorem unmark_nvd (e : CveEntry F) : (e.unmark now).nvd = e.nvd := by
  unfold CveEntry.unmark
  split <;> rfl

/-- An entry after the catalogue was applied. -/
theorem kev_entry (items : List KevItem) : (apply_kev now items db).entry id =
    (db.entry id).map (fun e => (items.filter (fun item => item.id = id)).foldl (fun e item => e.mark now item)
      (e.unmark now)) := by
  have hunmark (entries : List (CveId × CveEntry F)) :
      Dict.get (entries.map (fun e => (e.1, e.2.unmark now))) id = (Dict.get entries id).map (CveEntry.unmark now) := by
    induction entries with
    | nil => rfl
    | cons e entries ih =>
      rw [List.map_cons]
      by_cases hid : e.1 = id
      · simp [Dict.get, hid]
      · simp [Dict.get, hid, ih]
  unfold Db.entry apply_kev
  dsimp only
  rw [get_updates, hunmark, Option.map_map]
  rfl

theorem marks_kev (items : List KevItem) (e : CveEntry F) :
    (items.foldl (fun e item => e.mark now item) e).nvd = e.nvd ∧
      (items.foldl (fun e item => e.mark now item) e).kev = (items.getLast?.map KevItem.columns).getD e.kev := by
  induction items generalizing e with
  | nil => exact ⟨rfl, rfl⟩
  | cons item items ih =>
    obtain ⟨hnvd, hkev⟩ := ih (e.mark now item)
    rw [List.foldl_cons]
    refine ⟨hnvd, hkev.trans ?_⟩
    cases items with
    | nil => rfl
    | cons item' items =>
      rw [List.getLast?_cons_cons, List.getLast?_cons]
      rfl

/-- The catalogue leaves what came from NVD, and the columns are those of the last item of the name. -/
theorem kev_applied {e : CveEntry F} (he : db.entry id = some e) (hkev : KevProper e.kev) (items : List KevItem) :
    ∃ e', (apply_kev now items db).entry id = some e' ∧ e'.nvd = e.nvd ∧
      e'.kev = ((items.filter (fun item => item.id = id)).getLast?.map KevItem.columns).getD .unmarked := by
  obtain ⟨hnvd, hcolumns⟩ := @marks_kev F now (items.filter (fun item => item.id = id)) (e.unmark now)
  refine ⟨_, by rw [kev_entry, he]; rfl, hnvd.trans (unmark_nvd e), ?_⟩
  rw [hcolumns, unmark_kev hkev]

theorem epss_entry (rows : List (CveId × F × F)) {e : CveEntry F} (he : db.entry id = some e) :
    ∃ e', (apply_epss rows db).entry id = some e' ∧ e'.nvd = e.nvd ∧ e'.kev = e.kev := by
  have hsame (rows : List (CveId × F × F)) (e : CveEntry F) :
      (rows.foldl (fun e row => e.score row) e).nvd = e.nvd ∧ (rows.foldl (fun e row => e.score row) e).kev = e.kev := by
    induction rows generalizing e with
    | nil => exact ⟨rfl, rfl⟩
    | cons row rows ih => exact ih (e.score row)
  refine ⟨_, ?_, hsame (rows.filter (fun row => row.1 = id)) e⟩
  unfold Db.entry apply_epss at *
  dsimp only
  rw [get_updates, he]
  rfl

/-- Tables whose entries come from those of proper ones with the columns of NVD. -/
theorem Proper.feeds {db' : Db F} (h : Proper db) (hkeys : Dict.keys db'.entries = Dict.keys db.entries)
    (hrows : db'.cpe_matches = db.cpe_matches)
    (hentry : ∀ id e, db.entry id = some e → ∃ e', db'.entry id = some e' ∧ e'.nvd = e.nvd ∧ KevProper e'.kev) :
    Proper db' := by
  have hback {id : CveId} {e' : CveEntry F} (he' : db'.entry id = some e') :
      ∃ e, db.entry id = some e ∧ e'.nvd = e.nvd ∧ KevProper e'.kev := by
    cases he : db.entry id with
    | none =>
      have hnot : id ∉ Dict.keys db'.entries := by
        rw [hkeys]
        exact (Dict.get_eq_none _ _).mp he
      have hnone : db'.entry id = none := (Dict.get_eq_none _ _).mpr hnot
      rw [hnone] at he'
      cases he'
    | some e =>
      obtain ⟨e'', he'', hnvd, hkev⟩ := hentry id e he
      rw [he'] at he''
      cases he''
      exact ⟨e, rfl, hnvd, hkev⟩
  constructor
  · rw [hkeys]
    exact h.keys
  · intro id hnone
    unfold Db.cpes
    rw [hrows]
    refine h.alone id ?_
    unfold Db.entry at hnone ⊢
    rw [Dict.get_eq_none, hkeys] at hnone
    rwa [Dict.get_eq_none]
  · intro id e' he'
    obtain ⟨e, he, hnvd, -⟩ := hback he'
    rw [hnvd]
    exact h.stamped id e he
  · intro id e' he'
    obtain ⟨e, he, hnvd, -⟩ := hback he'
    rw [hnvd]
    exact h.nvd id e he
  · intro id e' he'
    obtain ⟨e, -, -, hkev⟩ := hback he'
    exact hkev
  · rw [hrows]
    exact h.rows

theorem Proper.kev_feed (h : Proper db) (items : List KevItem) : Proper (apply_kev now items db) := by
  refine h.feeds ?_ rfl ?_
  · unfold apply_kev
    dsimp only
    rw [updates_keys]
    unfold Dict.keys
    rw [List.map_map]
    rfl
  · intro id e he
    obtain ⟨e', he', hnvd, hkev⟩ := @kev_applied F now db id e he (h.kev id e he) items
    refine ⟨e', he', hnvd, ?_⟩
    rw [hkev]
    cases (items.filter (fun item => item.id = id)).getLast? with
    | none => exact .inl rfl
    | some item => exact columns_proper item

theorem Proper.epss_feed (h : Proper db) (rows : List (CveId × F × F)) : Proper (apply_epss rows db) := by
  refine h.feeds (updates_keys _ _ _ _) rfl ?_
  intro id e he
  obtain ⟨e', he', hnvd, hkev⟩ := epss_entry rows he
  exact ⟨e', he', hnvd, hkev ▸ h.kev id e he⟩

end Feeds

/-! ## An import -/

section Cves

variable {now : Nat → Nat} {records : List (Record F)} {db db' : Db F} {id : CveId} {r : Record F}

theorem Proper.writeAll {k : Nat} {batches : List (List (Record F))} (hdb : Proper db)
    (h : RepeatedIds.writeAll now k batches db = some db')
    (hstamped : ∀ r ∈ batches.flatten, r.rejected = false → r.modified.isSome = true) : Proper db' := by
  induction batches generalizing db k with
  | nil =>
    cases h
    exact hdb
  | cons b batches ih =>
    obtain ⟨db₁, hbatch, hrest⟩ := Option.bind_eq_some_iff.mp h
    refine ih (hdb.batch hbatch (fun r hr => hstamped r ?_)) hrest (fun r hr => hstamped r ?_)
    · exact List.mem_append_left _ hr
    · exact List.mem_append_right _ hr

theorem Proper.cves (hdb : Proper db) (h : apply_cves now records db = some db')
    (hstamped : ∀ r ∈ records, r.rejected = false → r.modified.isSome = true) : Proper db' := by
  unfold apply_cves at h
  rw [RepeatedIds.applyFrom_cut] at h
  refine hdb.writeAll h ?_
  rw [RepeatedIds.cut_flatten]
  exact hstamped

/-- A name that no record has keeps its rows. -/
theorem cves_other (h : apply_cves now records db = some db') (hid : id ∉ records.map Record.id) :
    db'.entry id = db.entry id ∧ db'.cpes id = db.cpes id := by
  obtain ⟨batches, hrecords, hbatches⟩ := applyFrom_batches now 0 [] records
  rw [List.nil_append] at hrecords
  have hrun : batches.foldlM (fun db b => apply_cve_batch b.1 b.2 db) db = some db' := by
    rw [← hbatches]
    exact h
  let none : Record F := ⟨id, true, .none, .none, .none, .none, ⟨.none, .none, .none, .none⟩, .none, [], []⟩
  have hfresh : Fresh db none := by
    rintro e - m m' - hm'
    cases hm'
  have habsent {s : Record F} (hs : s ∈ batches.flatMap Prod.snd) : s.id ≠ id := by
    rw [hrecords] at hs
    exact fun heq => hid (List.mem_map.mpr ⟨s, hs, heq⟩)
  exact (batches_single hrun (fun s hs heq => absurd heq (habsent hs)) hfresh).2 (fun hmem => habsent hmem rfl)

/-- A record whose name comes once, and is not older than its entry, is stored. -/
theorem cves_stored (h : apply_cves now records db = some db') (hids : (records.map Record.id).Nodup) (hr : r ∈ records)
    (hfresh : Fresh db r) : Stored db' r := by
  obtain ⟨batches, hrecords, hbatches⟩ := applyFrom_batches now 0 [] records
  rw [List.nil_append] at hrecords
  have hrun : batches.foldlM (fun db b => apply_cve_batch b.1 b.2 db) db = some db' := by
    rw [← hbatches]
    exact h
  have hone : ∀ s ∈ batches.flatMap Prod.snd, s.id = r.id → s = r := by
    rw [hrecords]
    exact fun s hs heq => List.inj_on_of_nodup_map hids hs hr heq
  exact (batches_single hrun hone hfresh).1 (hrecords.symm ▸ hr)

end Cves

/-- Tables have the entries of others, with the same columns of NVD and of the catalogue and the same criteria. -/
def Covers (a b : Db F) : Prop :=
  ∀ id e, b.entry id = some e → ∃ e', a.entry id = some e' ∧ e'.nvd = e.nvd ∧ e'.kev = e.kev ∧ a.cpes id = b.cpes id

/-- An instance is behind tables: it has no newer entries, and what a package does not select is as in the tables. -/
structure Behind (a b : Db F) (kind : Kind) (since : Option Nat) : Prop where
  older : ∀ id e e', a.entry id = some e → b.entry id = some e' →
    ∀ m m', e.nvd.last_modified = some m → e'.nvd.last_modified = some m' → m ≤ m'
  kept : ∀ id e, b.entry id = some e → selected kind since e.nvd = false →
    (a.entry id).map CveEntry.nvd = some e.nvd ∧ a.cpes id = b.cpes id

section Import

variable {now : Nat → Nat} {p : Package F R} {s s' t : Site F R} {kind : Kind} {since : Option Nat} {id : CveId}

/-- What a package holds. -/
theorem build_some (h : build kind since t = some p) : ∃ ends, t.watermark = some ends ∧ p.ends = ends ∧ p.kind = kind ∧
    p.since = since ∧ p.released = t.released ∧
    p.cves = (t.db.entries.filter fun e => selected kind since e.2.nvd).map
      (fun e => record e.1 e.2.nvd ((t.db.cpes e.1).map Prod.snd)) ∧
    p.kev = (t.db.entries.filter fun e => e.2.kev.kev).map (fun e => kevItem e.1 e.2.kev) := by
  obtain ⟨ends, hends, hpackage⟩ := Option.bind_eq_some_iff.mp h
  split at hpackage
  · cases hpackage
  · cases hpackage
    exact ⟨ends, hends, rfl, rfl, rfl, rfl, rfl, rfl⟩

/-- The part that a partial package leaves out starts before the end of the instance that takes it. -/
theorem fresh_since (hbuilt : build kind since t = some p) (hfresh : fresh p s = true) :
    kind = .full ∨ ∃ start current, since = some start ∧ s.watermark = some current ∧ start ≤ current := by
  cases kind with
  | full => exact .inl rfl
  | delta =>
    right
    obtain ⟨ends, -, hpackage⟩ := Option.bind_eq_some_iff.mp hbuilt
    cases since with
    | none =>
      rw [if_pos ⟨rfl, rfl⟩] at hpackage
      cases hpackage
    | some start =>
      rw [if_neg (fun hnone => (Option.some_ne_none start hnone.2).elim)] at hpackage
      cases hpackage
      cases hwatermark : s.watermark with
      | none => simp [fresh, hwatermark] at hfresh
      | some current =>
        simp only [fresh, hwatermark, Option.all_some, decide_eq_true_eq] at hfresh
        exact ⟨start, current, rfl, rfl, hfresh⟩

theorem cves_ids (h : build kind since t = some p) (ht : Proper t.db) : (p.cves.map Record.id).Nodup := by
  obtain ⟨-, -, -, -, -, -, hcves, -⟩ := build_some h
  rw [hcves, List.map_map]
  exact ht.keys.sublist (List.filter_sublist.map _)

/-- The entries that a package selects are its records. -/
theorem mem_cves (h : build kind since t = some p) (ht : Proper t.db) {r : Record F} : r ∈ p.cves ↔
    ∃ e, t.db.entry r.id = some e ∧ selected kind since e.nvd = true ∧
      r = record r.id e.nvd ((t.db.cpes r.id).map Prod.snd) := by
  obtain ⟨-, -, -, -, -, -, hcves, -⟩ := build_some h
  rw [hcves]
  constructor
  · intro hr
    obtain ⟨⟨name, e⟩, he, rfl⟩ := List.mem_map.mp hr
    obtain ⟨hmem, hselected⟩ := List.mem_filter.mp he
    exact ⟨e, Dict.get_of_mem _ ht.keys _ _ hmem, hselected, rfl⟩
  · rintro ⟨e, he, hselected, heq⟩
    refine List.mem_map.mpr ⟨(r.id, e), List.mem_filter.mpr ⟨Dict.mem_of_get _ _ _ he, hselected⟩, heq.symm⟩

/-- A name has one entry. -/
theorem filter_key {entries : List (CveId × CveEntry F)} (hkeys : (Dict.keys entries).Nodup) {e : CveEntry F}
    (he : Dict.get entries id = some e) : entries.filter (fun x => x.1 = id) = [(id, e)] := by
  induction entries with
  | nil => cases he
  | cons x entries ih =>
    obtain ⟨name, e'⟩ := x
    rw [Dict.keys_cons, List.nodup_cons] at hkeys
    by_cases hname : name = id
    · have hsame : e' = e := by simpa [Dict.get, hname] using he
      have hnone : entries.filter (fun x => x.1 = id) = [] := by
        rw [List.filter_eq_nil_iff]
        intro x hx
        rw [decide_eq_true_eq]
        rintro rfl
        exact hkeys.1 (hname ▸ List.mem_map_of_mem hx)
      rw [List.filter_cons_of_pos (by simpa using hname), hnone, hname, hsame]
    · have hrest : Dict.get entries id = some e := by simpa [Dict.get, hname] using he
      rw [List.filter_cons_of_neg (by simpa using hname), ih hkeys.2 hrest]

/-- The item of a name in the catalogue of a package. -/
theorem kev_columns (h : build kind since t = some p) (ht : Proper t.db) {e : CveEntry F} (he : t.db.entry id = some e) :
    ((p.kev.filter (fun item => item.id = id)).getLast?.map KevItem.columns).getD .unmarked = e.kev := by
  obtain ⟨-, -, -, -, -, -, -, hkev⟩ := build_some h
  have hitems : p.kev.filter (fun item => item.id = id) =
      ([(id, e)].filter (fun x => x.2.kev.kev)).map (fun x => kevItem x.1 x.2.kev) := by
    rw [hkev, List.filter_map, List.filter_filter, ← filter_key ht.keys he, List.filter_filter]
    congr 1
    apply List.filter_congr
    intro x _
    exact Bool.and_comm _ _
  rw [hitems]
  obtain hunmarked | ⟨htrue, hransomware, haction⟩ := ht.kev id e he
  · rw [hunmarked]
    simp [hunmarked, Kev.unmarked]
  · have hmarked : [(id, e)].filter (fun x => x.2.kev.kev) = [(id, e)] := by simp [htrue]
    rw [hmarked]
    change KevItem.columns (kevItem id e.kev) = e.kev
    unfold KevItem.columns kevItem
    dsimp only
    rw [hransomware, haction, ← htrue]

/-- The columns of what a package carries. -/
theorem holds_of_cves {r : Record F} (h : build kind since t = some p) (ht : Proper t.db) (hr : r ∈ p.cves) :
    ∃ e, t.db.entry r.id = some e ∧ nvdOf r.clean = e.nvd ∧ cpeRows r.clean = t.db.cpes r.id := by
  obtain ⟨e, he, -, heq⟩ := (mem_cves h ht).mp hr
  refine ⟨e, he, ?_, ?_⟩
  · rw [heq]
    exact ht.nvd _ e he _ _
  · have hcpes : r.cpes = (t.db.cpes r.id).map Prod.snd := by rw [heq]; rfl
    unfold cpeRows Record.clean
    dsimp only
    rw [hcpes, List.map_map, List.map_map]
    conv_rhs => rw [← List.map_id (t.db.cpes r.id)]
    apply List.map_congr_left
    intro c hc
    obtain ⟨hmem, hid⟩ := List.mem_filter.mp hc
    rw [decide_eq_true_eq] at hid
    exact Prod.ext hid.symm (ht.rows c hmem)

/-- The records of a package bring what its time had, and leave the rest. -/
theorem cves_covered {db : Db F} (h : apply_cves now p.cves s.db = some db) (hbuilt : build kind since t = some p)
    (ht : Proper t.db) (hbehind : Behind s.db t.db kind since) (id : CveId) :
    (∀ e, t.db.entry id = some e → (db.entry id).map CveEntry.nvd = some e.nvd ∧ db.cpes id = t.db.cpes id) ∧
      (t.db.entry id = none → db.entry id = s.db.entry id) := by
  have hother (hid : id ∉ p.cves.map Record.id) := cves_other h hid
  constructor
  · intro e he
    cases hselected : selected kind since e.nvd with
    | true =>
      have hr : record id e.nvd ((t.db.cpes id).map Prod.snd) ∈ p.cves := (mem_cves hbuilt ht).mpr ⟨e, he, hselected, rfl⟩
      have hfresh : Fresh s.db (record id e.nvd ((t.db.cpes id).map Prod.snd)) :=
        fun e₀ he₀ => hbehind.older id e₀ e he₀ he
      have hstored : Holds db (record id e.nvd ((t.db.cpes id).map Prod.snd)) := cves_stored h (cves_ids hbuilt ht) hr hfresh
      obtain ⟨e', he', hnvd, hcpes⟩ := holds_of_cves hbuilt ht hr
      rw [show (record id e.nvd ((t.db.cpes id).map Prod.snd)).id = id from rfl, he] at he'
      cases he'
      exact ⟨hstored.1.trans (congrArg some hnvd), hstored.2.trans hcpes⟩
    | false =>
      have hnot : id ∉ p.cves.map Record.id := by
        intro hmem
        obtain ⟨r, hr, rfl⟩ := List.mem_map.mp hmem
        obtain ⟨e', he', hselected', -⟩ := (mem_cves hbuilt ht).mp hr
        rw [he] at he'
        cases he'
        rw [hselected] at hselected'
        cases hselected'
      obtain ⟨hentry, hcpes⟩ := hother hnot
      rw [hentry, hcpes]
      exact hbehind.kept id e he hselected
  · intro hnone
    refine (hother ?_).1
    intro hmem
    obtain ⟨r, hr, rfl⟩ := List.mem_map.mp hmem
    obtain ⟨e, he, -⟩ := (mem_cves hbuilt ht).mp hr
    rw [hnone] at he
    cases he

/-- What the catalogue of a package does with an entry of the package, and with another one. -/
theorem kev_covered {db : Db F} (hbuilt : build kind since t = some p) (ht : Proper t.db) (hdb : Proper db) (time : Nat)
    {e : CveEntry F} (he : db.entry id = some e) : ∃ e', (apply_kev time p.kev db).entry id = some e' ∧
      e'.nvd = e.nvd ∧ e'.kev = ((t.db.entry id).map CveEntry.kev).getD .unmarked := by
  obtain ⟨e', he', hnvd, hkev⟩ := @kev_applied F time db id e he (hdb.kev id e he) p.kev
  refine ⟨e', he', hnvd, hkev.trans ?_⟩
  cases he₀ : t.db.entry id with
  | some e₀ => exact kev_columns hbuilt ht he₀
  | none =>
    obtain ⟨-, -, -, -, -, -, -, hitems⟩ := build_some hbuilt
    have hnil : p.kev.filter (fun item => item.id = id) = [] := by
      rw [List.filter_eq_nil_iff, hitems]
      intro item hitem
      obtain ⟨⟨name, e₁⟩, hmem, rfl⟩ := List.mem_map.mp hitem
      rw [decide_eq_true_eq]
      intro (hname : name = id)
      have hget := Dict.get_of_mem _ ht.keys _ _ (List.mem_filter.mp hmem).1
      rw [hname] at hget
      unfold Db.entry at he₀
      rw [hget] at he₀
      cases he₀
    rw [hnil]
    rfl

/-- What the other feeds of a package do with an entry. -/
theorem feeds_covered {db : Db F} (hbuilt : build kind since t = some p) (ht : Proper t.db) (hdb : Proper db) (time : Nat)
    (rows : List (CveId × F × F)) {e' : CveEntry F} (he' : (apply_epss rows (apply_kev time p.kev db)).entry id = some e') :
    ∃ e, db.entry id = some e ∧ e'.nvd = e.nvd ∧ e'.kev = ((t.db.entry id).map CveEntry.kev).getD .unmarked := by
  cases he : db.entry id with
  | none =>
    exfalso
    have hkev : (apply_kev time p.kev db).entry id = none := by
      rw [kev_entry, he]
      rfl
    unfold Db.entry at he' hkev
    unfold apply_epss at he'
    dsimp only at he'
    rw [get_updates, hkev] at he'
    cases he'
  | some e =>
    obtain ⟨e₁, he₁, hnvd₁, hkev₁⟩ := kev_covered hbuilt ht hdb time he
    obtain ⟨e₂, he₂, hnvd₂, hkev₂⟩ := epss_entry rows he₁
    rw [he'] at he₂
    cases he₂
    exact ⟨e, rfl, hnvd₂.trans hnvd₁, hkev₂.trans hkev₁⟩

/-- After an import of what is not older than the instance, it has what the package's time had, and what it has
beyond that it had before. -/
theorem import_covers [LinearOrder R] (h : import_package now p s = some s') (hbuilt : build kind since t = some p)
    (ht : Proper t.db) (hs : Proper s.db) (hreleased : s.released ≤ p.released) (hbehind : Behind s.db t.db kind since) :
    Covers s'.db t.db ∧
      (∀ id e', s'.db.entry id = some e' → t.db.entry id = none →
        e'.kev = .unmarked ∧ ∃ e, s.db.entry id = some e ∧ e'.nvd = e.nvd) ∧
      Proper s'.db ∧ s'.released = p.released ∧
      s'.watermark = if s.watermark.all (fun current => current < p.ends) then some p.ends else s.watermark := by
  unfold import_package at h
  split at h
  · obtain ⟨s₁, happly, rfl⟩ := Option.map_eq_some_iff.mp h
    obtain ⟨db, hcves, hs₁⟩ := Option.map_eq_some_iff.mp happly
    dsimp only at hs₁
    rw [if_pos hreleased] at hs₁
    have hstamped : ∀ r ∈ p.cves, r.rejected = false → r.modified.isSome = true := by
      intro r hr _
      obtain ⟨e, he, -, heq⟩ := (mem_cves hbuilt ht).mp hr
      rw [heq]
      exact ht.stamped _ e he
    have hproper : Proper db := hs.cves hcves hstamped
    have hproper' := @Proper.kev_feed F (now 0) db hproper p.kev
    have hcovered := cves_covered hcves hbuilt ht hbehind
    -- where no rows of EPSS are applied, it is as if there were none
    obtain ⟨rows, hdb, hreleased', hwatermark⟩ : ∃ rows, s₁.db = apply_epss rows (apply_kev (now 0) p.kev db) ∧
        s₁.released = p.released ∧ s₁.watermark = s.watermark := by
      split at hs₁
      · exact ⟨p.epss, by rw [← hs₁], by rw [← hs₁], by rw [← hs₁]⟩
      · exact ⟨[], by rw [← hs₁]; rfl, by rw [← hs₁], by rw [← hs₁]⟩
    refine ⟨?_, ?_, ?_, hreleased', by rw [hwatermark]⟩
    · intro id e he
      obtain ⟨hnvd, hcpes⟩ := (hcovered id).1 e he
      obtain ⟨e₀, he₀, heq⟩ := Option.map_eq_some_iff.mp hnvd
      obtain ⟨e₁, he₁, hnvd₁, hkev₁⟩ := kev_covered hbuilt ht hproper (now 0) he₀
      obtain ⟨e₂, he₂, hnvd₂, hkev₂⟩ := epss_entry rows he₁
      rw [he] at hkev₁
      rw [hdb]
      exact ⟨e₂, he₂, hnvd₂.trans (hnvd₁.trans heq), hkev₂.trans hkev₁, hcpes⟩
    · intro id e' he' hnone
      rw [hdb] at he'
      obtain ⟨e, he, hnvd, hkev⟩ := feeds_covered hbuilt ht hproper (now 0) rows he'
      rw [hnone] at hkev
      exact ⟨hkev, e, (hcovered id).2 hnone ▸ he, hnvd⟩
    · rw [hdb]
      exact hproper'.epss_feed rows
  · cases h

end Import

end OfflinePackage
