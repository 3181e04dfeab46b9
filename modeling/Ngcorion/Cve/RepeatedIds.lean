import Ngcorion.Cve.NvdUpdate

/-!
# CVEs that come twice in one run

The pages of a run can have a CVE more than once, in the same or a newer version: windows share
an instant, and records move while the pages are read. The records are written in batches that
are cut where they happen to fall.
-/
namespace RepeatedIds

open CveStore Transition

variable {F : Type}

/-! ## Batches -/

/-- The batches of `apply_cves`, after a part of the first one. -/
def cut : List (Record F) → List (Record F) → List (List (Record F))
  | batch, [] => [batch]
  | batch, r :: records =>
    if batchSize ≤ batch.length + 1 then (batch ++ [r]) :: cut [] records else cut (batch ++ [r]) records

/-- The batches one after the other. -/
def writeAll (now : Nat → Nat) : Nat → List (List (Record F)) → Db F → Option (Db F)
  | _, [], db => some db
  | k, b :: batches, db => (apply_cve_batch (now k) b db).bind (writeAll now (k + 1) batches)

theorem applyFrom_cut (now : Nat → Nat) (k : Nat) (batch records : List (Record F)) (db : Db F) :
    applyFrom now k batch records db = writeAll now k (cut batch records) db := by
  induction records generalizing k batch db with
  | nil => simp [applyFrom, cut, writeAll]
  | cons r records ih =>
    unfold applyFrom cut
    split
    · rw [writeAll]
      congr 1
      funext db'
      exact ih (k + 1) [] db'
    · exact ih k (batch ++ [r]) db

theorem cut_flatten (batch records : List (Record F)) : (cut batch records).flatten = batch ++ records := by
  induction records generalizing batch with
  | nil => simp [cut]
  | cons r records ih =>
    unfold cut
    split
    · rw [List.flatten_cons, ih, List.nil_append, List.append_assoc, List.singleton_append]
    · rw [ih, List.append_assoc, List.singleton_append]

/-! ## What a run brings -/

/-- The last record of a name, which is its newest version. -/
def lastOf (id : CveId) (records : List (Record F)) : Option (Record F) :=
  records.reverse.find? fun r => r.id = id

/-- Records that the pages of a run can have: those that are not rejected have a stamp, a later record of a
name has no older stamp, and the tables have nothing newer. -/
structure Yielded (db : Db F) (records : List (Record F)) : Prop where
  stamped : ∀ r ∈ records, r.rejected = false → r.modified.isSome = true
  ordered : records.Pairwise fun r s => r.id = s.id → ∀ m m', r.modified = some m → s.modified = some m' → m ≤ m'
  fresh : ∀ r ∈ records, Fresh db r

/-- The tables have the newest version of each name. -/
def Newest (db : Db F) (records : List (Record F)) : Prop := ∀ id, ∀ r ∈ lastOf id records, Stored db r

/-- The records of a batch that are written. -/
def accepted (b : List (Record F)) : List (Record F) := b.filter fun r => !r.rejected

/-- No batch writes a name twice, and one that writes a name whose newest version is rejected is not the last
one that has the name. -/
def Separate : List (List (Record F)) → Prop
  | [] => True
  | b :: batches =>
    ((accepted b).map Record.id).Nodup ∧
      (∀ s ∈ accepted b, ∀ r ∈ lastOf s.id b, r.rejected = true → s.id ∈ batches.flatten.map Record.id) ∧
      Separate batches

instance decideSeparate : (batches : List (List (Record F))) → Decidable (Separate batches)
  | [] => .isTrue trivial
  | b :: batches =>
    have := decideSeparate batches
    inferInstanceAs (Decidable (_ ∧ (∀ s ∈ accepted b, ∀ r ∈ lastOf s.id b, r.rejected = true → _) ∧ Separate batches))

section Last

variable {records later : List (Record F)} {r : Record F} {id : CveId}

theorem lastOf_some (h : lastOf id records = some r) : r ∈ records ∧ r.id = id := by
  obtain ⟨hid, before, after, hsplit, -⟩ := List.find?_eq_some_iff_append.mp h
  refine ⟨List.mem_reverse.mp ?_, by simpa using hid⟩
  rw [hsplit]
  simp

theorem lastOf_none : lastOf id records = none ↔ id ∉ records.map Record.id := by
  unfold lastOf
  rw [List.find?_eq_none]
  simp

theorem lastOf_append : lastOf id (records ++ later) = (lastOf id later).or (lastOf id records) := by
  unfold lastOf
  rw [List.reverse_append, List.find?_append]

end Last

/-! ## One batch -/

section Batch

variable {now : Nat} {b later : List (Record F)} {db db' : Db F} {r s : Record F} {id : CveId}

/-- Nothing of a batch is stale where the tables have nothing newer. -/
theorem live_of_fresh (hfresh : ∀ r ∈ b, Fresh db r) :
    live db.entries (b.map Record.clean) = (accepted b).map Record.clean := by
  unfold live accepted
  rw [List.filter_map]
  congr 1
  apply List.filter_congr
  intro r hr
  simp [(hfresh r hr).not_stale]

theorem live_ids (hfresh : ∀ r ∈ b, Fresh db r) :
    (live db.entries (b.map Record.clean)).map Record.id = (accepted b).map Record.id := by
  rw [live_of_fresh hfresh, clean_ids]

/-- A batch is written exactly when it writes no name twice. -/
theorem batch_completes (hfresh : ∀ r ∈ b, Fresh db r) :
    (∃ db', apply_cve_batch now b db = some db') ↔ ((accepted b).map Record.id).Nodup := by
  unfold apply_cve_batch writeBatch
  dsimp only
  rw [live_ids hfresh]
  split
  · next h => exact ⟨fun _ => h, fun _ => ⟨_, rfl⟩⟩
  · next h => exact ⟨fun ⟨_, heq⟩ => (Option.some_ne_none _ heq.symm).elim, fun hids => absurd hids h⟩

/-- A written record is in the tables, whether its name was rejected in the batch or not. -/
theorem batch_holds (h : apply_cve_batch now b db = some db') (hfresh : ∀ r ∈ b, Fresh db r) (hr : r ∈ accepted b) :
    Holds db' r := by
  have hlive : r.clean ∈ live db.entries (b.map Record.clean) := by
    rw [live_of_fresh hfresh]
    exact List.mem_map_of_mem hr
  obtain ⟨hids, rfl⟩ := writeBatch_some h
  constructor
  · have hentry := @get_upserts_mem F now r.clean _ hids hlive
      (db.entries.filter (fun e => e.1 ∉ rejectedIds (b.map Record.clean)))
    unfold Db.entry
    rw [clean_id] at hentry
    rw [hentry]
    cases Dict.get (db.entries.filter (fun e => e.1 ∉ rejectedIds (b.map Record.clean))) r.id <;> rfl
  · unfold Db.cpes
    rw [List.filter_append, ← clean_id r, cpeRows_mem hids hlive, List.append_left_eq_self, List.filter_eq_nil_iff]
    intro c hc
    obtain ⟨-, hother⟩ := List.mem_filter.mp hc
    rw [decide_eq_true_eq] at hother ⊢
    intro heq
    rw [heq] at hother
    exact hother (List.mem_map_of_mem hlive)

/-- A name that is only rejected has no rows. -/
theorem batch_absent (h : apply_cve_batch now b db = some db') (hfresh : ∀ r ∈ b, Fresh db r)
    (hid : id ∉ (accepted b).map Record.id) (hr : r ∈ b) (hrid : r.id = id) : Absent db' id := by
  have hrejected : r.rejected = true := by
    by_contra hnot
    exact hid (List.mem_map.mpr ⟨r, List.mem_filter.mpr ⟨hr, by simpa using hnot⟩, hrid⟩)
  rw [← live_ids hfresh] at hid
  exact writeBatch_rejected h hid (mem_rejectedIds.mpr ⟨r, hr, hrejected, hrid⟩)

/-- A name that the batch does not have keeps its rows. -/
theorem batch_other (h : apply_cve_batch now b db = some db') (hfresh : ∀ r ∈ b, Fresh db r)
    (hid : id ∉ b.map Record.id) : db'.entry id = db.entry id ∧ db'.cpes id = db.cpes id := by
  refine writeBatch_other h ?_ ?_
  · rw [live_ids hfresh]
    exact fun hmem => hid (((List.filter_sublist).map _).subset hmem)
  · intro hmem
    obtain ⟨r, hr, -, hrid⟩ := mem_rejectedIds.mp hmem
    exact hid (List.mem_map.mpr ⟨r, hr, hrid⟩)

/-- After a batch the tables have nothing newer than what comes later. -/
theorem Yielded.after (hyield : Yielded db (b ++ later)) (h : apply_cve_batch now b db = some db') : Yielded db' later := by
  have hfresh : ∀ r ∈ b, Fresh db r := fun r hr => hyield.fresh r (List.mem_append_left _ hr)
  obtain ⟨-, hlater, hacross⟩ := List.pairwise_append.mp hyield.ordered
  constructor
  · exact fun r hr => hyield.stamped r (List.mem_append_right _ hr)
  · exact hlater
  · intro r hr e he m m' hm hm'
    by_cases hid : r.id ∈ (accepted b).map Record.id
    · obtain ⟨s, hs, hsid⟩ := List.mem_map.mp hid
      have hholds := (batch_holds h hfresh hs).1
      rw [hsid, he] at hholds
      have hstamp : e.nvd.last_modified = s.modified := by rw [Option.some.inj hholds]; rfl
      exact hacross s (List.mem_filter.mp hs).1 r hr hsid m m' (hstamp.symm.trans hm) hm'
    · by_cases hin : r.id ∈ b.map Record.id
      · obtain ⟨s, hs, hsid⟩ := List.mem_map.mp hin
        rw [(batch_absent h hfresh hid hs hsid).1] at he
        cases he
      · rw [(batch_other h hfresh hin).1] at he
        exact hyield.fresh r (List.mem_append_right _ hr) e he m m' hm hm'

/-- The newest version of a name in a batch is in the tables unless it is rejected and another one is written. -/
theorem batch_newest (h : apply_cve_batch now b db = some db') (hfresh : ∀ r ∈ b, Fresh db r)
    (hr : lastOf id b = some r) : Stored db' r ↔ (r.rejected = true → id ∉ (accepted b).map Record.id) := by
  obtain ⟨hmem, rfl⟩ := lastOf_some hr
  unfold Stored
  cases hrejected : r.rejected with
  | false =>
    rw [if_neg (by simp)]
    simp only [Bool.false_eq_true, false_implies, iff_true]
    exact batch_holds h hfresh (List.mem_filter.mpr ⟨hmem, by simp [hrejected]⟩)
  | true =>
    rw [if_pos rfl]
    simp only [true_implies]
    constructor
    · intro habsent hid
      obtain ⟨s, hs, hsid⟩ := List.mem_map.mp hid
      have hholds := (batch_holds h hfresh hs).1
      rw [hsid, habsent.1] at hholds
      cases hholds
    · intro hid
      exact batch_absent h hfresh hid hmem rfl

end Batch

/-! ## A run -/

section Run

variable {now : Nat → Nat} {k : Nat} {batches : List (List (Record F))} {b : List (Record F)} {db db' db'' : Db F} {r : Record F}
  {id : CveId}

theorem writeAll_other (h : writeAll now k batches db = some db') (hyield : Yielded db batches.flatten)
    (hid : id ∉ batches.flatten.map Record.id) : db'.entry id = db.entry id ∧ db'.cpes id = db.cpes id := by
  induction batches generalizing db k with
  | nil =>
    cases h
    exact ⟨rfl, rfl⟩
  | cons b batches ih =>
    obtain ⟨db₁, hbatch, hrest⟩ := Option.bind_eq_some_iff.mp h
    rw [List.flatten_cons] at hyield hid
    rw [List.map_append, List.mem_append, not_or] at hid
    obtain ⟨hentry, hcpes⟩ := ih hrest (hyield.after hbatch) hid.2
    obtain ⟨hentry₁, hcpes₁⟩ :=
      batch_other hbatch (fun r hr => hyield.fresh r (List.mem_append_left _ hr)) hid.1
    exact ⟨hentry.trans hentry₁, hcpes.trans hcpes₁⟩

/-- What is stored for a name that does not come again stays. -/
theorem stored_of_other (h : writeAll now k batches db = some db') (hyield : Yielded db batches.flatten)
    (hid : r.id ∉ batches.flatten.map Record.id) : Stored db' r ↔ Stored db r := by
  obtain ⟨hentry, hcpes⟩ := writeAll_other h hyield hid
  unfold Stored Absent Holds
  rw [hentry, hcpes]

/-- The newest versions of two parts of a run. -/
theorem newest_append {records later : List (Record F)} :
    Newest db (records ++ later) ↔ Newest db later ∧
      ∀ id, id ∉ later.map Record.id → ∀ r ∈ lastOf id records, Stored db r := by
  constructor
  · intro hnewest
    constructor
    · intro id r hr
      refine hnewest id r ?_
      rw [lastOf_append, Option.mem_def.mp hr]
      rfl
    · intro id hid r hr
      refine hnewest id r ?_
      rw [lastOf_append, lastOf_none.mpr hid]
      exact hr
  · rintro ⟨hlater, hearlier⟩ id r hr
    rw [lastOf_append] at hr
    cases hlast : lastOf id later with
    | none =>
      rw [hlast] at hr
      exact hearlier id (lastOf_none.mp hlast) r hr
    | some r' =>
      rw [hlast] at hr
      cases hr
      exact hlater id r hlast

/-- The batches are written and leave the newest versions exactly when they are separate. -/
theorem writeAll_newest (hyield : Yielded db batches.flatten) :
    (∃ db', writeAll now k batches db = some db' ∧ Newest db' batches.flatten) ↔ Separate batches := by
  induction batches generalizing db k with
  | nil => exact ⟨fun _ => trivial, fun _ => ⟨db, rfl, by simp [Newest, lastOf]⟩⟩
  | cons b batches ih =>
    rw [List.flatten_cons] at hyield ⊢
    have hfresh : ∀ r ∈ b, Fresh db r := fun r hr => hyield.fresh r (List.mem_append_left _ hr)
    have hearlier {db₁ db' : Db F} (hbatch : apply_cve_batch (now k) b db = some db₁)
        (hrest : writeAll now (k + 1) batches db₁ = some db') :
        (∀ id, id ∉ batches.flatten.map Record.id → ∀ r ∈ lastOf id b, Stored db' r) ↔
          ∀ s ∈ accepted b, ∀ r ∈ lastOf s.id b, r.rejected = true → s.id ∈ batches.flatten.map Record.id := by
      constructor
      · intro hstored s hs r hr hrejected
        by_contra hid
        have hr_stored := hstored s.id hid r hr
        rw [stored_of_other hrest (hyield.after hbatch) (by rwa [(lastOf_some hr).2]), batch_newest hbatch hfresh hr] at hr_stored
        exact hr_stored hrejected (List.mem_map_of_mem hs)
      · intro hseparate id hid r hr
        rw [stored_of_other hrest (hyield.after hbatch) (by rwa [(lastOf_some hr).2]), batch_newest hbatch hfresh hr]
        intro hrejected hmem
        obtain ⟨s, hs, rfl⟩ := List.mem_map.mp hmem
        exact hid (hseparate s hs r hr hrejected)
    constructor
    · rintro ⟨db', hwrite, hnewest⟩
      obtain ⟨db₁, hbatch, hrest⟩ := Option.bind_eq_some_iff.mp hwrite
      rw [newest_append] at hnewest
      exact ⟨(batch_completes hfresh).mp ⟨db₁, hbatch⟩, (hearlier hbatch hrest).mp hnewest.2,
        (ih (hyield.after hbatch)).mp ⟨db', hrest, hnewest.1⟩⟩
    · rintro ⟨hids, hlast, hseparate⟩
      obtain ⟨db₁, hbatch⟩ : ∃ db₁, apply_cve_batch (now k) b db = some db₁ := (batch_completes hfresh).mpr hids
      obtain ⟨db', hrest, hnewest⟩ := (ih (k := k + 1) (hyield.after hbatch)).mpr hseparate
      refine ⟨db', Option.bind_eq_some_iff.mpr ⟨db₁, hbatch, hrest⟩, newest_append.mpr ⟨hnewest, ?_⟩⟩
      exact (hearlier hbatch hrest).mpr hlast

/-- An update is written without an error and leaves the newest version of each name exactly when its batches
are separate. -/
theorem update_accepts {records : List (Record F)} (hyield : Yielded db records) :
    (∃ db', apply_cves now records db = some db' ∧ Newest db' records) ↔ Separate (cut [] records) := by
  have hflatten : (cut [] records).flatten = records := cut_flatten [] records
  unfold apply_cves
  rw [applyFrom_cut]
  have h := @writeAll_newest F now 0 (cut [] records) db (by rwa [hflatten])
  rwa [hflatten] at h

end Run

/-! ## The pages of a run -/

open NvdUpdate

/-- A stamp is not newer than NVD's record of a name. -/
def Known (feed : List (Cve F)) (id : CveId) (stamp : Option Nat) : Prop :=
  ∃ c ∈ feed, c.id = id ∧ ∀ m, stamp = some m → m ≤ c.lastModified / second

/-- What holds while NVD changes: stored and downloaded records are not newer than those of NVD. -/
structure PageInv (s : NvdUpdate.State F) : Prop where
  ids : (s.feed.map Cve.id).Nodup
  past : ∀ c ∈ s.feed, c.lastModified ≤ s.clock
  stored : ∀ id e, s.db.entry id = some e → Known s.feed id e.nvd.last_modified
  spool : ∀ j, s.job = some j → ∀ r ∈ j.spool, Known s.feed r.id r.modified
  yielded : ∀ j, s.job = some j → Yielded s.db j.spool

section Pages

variable {server : Server} {s s' : NvdUpdate.State F} {j j' : Job F} {feed' : List (Cve F)} {id : CveId} {stamp : Option Nat}

/-- A change at NVD makes no record older. -/
theorem PageInv.change (h : PageInv s) (hids : (feed'.map Cve.id).Nodup)
    (hpast : ∀ c ∈ feed', c ∈ s.feed ∨ c.lastModified = s.clock)
    (hnewer : ∀ c ∈ s.feed, ∃ d ∈ feed', d.id = c.id ∧ c.lastModified ≤ d.lastModified) :
    PageInv { s with feed := feed' } := by
  have hknown {id : CveId} {stamp : Option Nat} (hk : Known s.feed id stamp) : Known feed' id stamp := by
    obtain ⟨c, hc, hid, hstamp⟩ := hk
    obtain ⟨d, hd, hdid, hle⟩ := hnewer c hc
    exact ⟨d, hd, hdid.trans hid, fun m hm => Nat.le_trans (hstamp m hm) (Nat.div_le_div_right hle)⟩
  constructor
  · exact hids
  · intro c hc
    cases hpast c hc with
    | inl hin => exact h.past c hin
    | inr heq => exact Nat.le_of_eq heq
  · exact fun id e he => hknown (h.stored id e he)
  · exact fun j hj r hr => hknown (h.spool j hj r hr)
  · exact h.yielded

theorem normalize_known {c : Cve F} (hc : c ∈ s.feed) : Known s.feed c.normalize.id c.normalize.modified :=
  ⟨c, hc, (normalize_id c).symm, fun _ hm => Nat.le_of_eq (normalize_modified hm)⟩

/-- A record of NVD is at least as new as what is known of its name. -/
theorem Known.le (hk : Known s.feed id stamp) (hids : (s.feed.map Cve.id).Nodup) {c : Cve F} (hc : c ∈ s.feed)
    (hid : c.id = id) {m m' : Nat} (hm : stamp = some m) (hm' : c.normalize.modified = some m') : m ≤ m' := by
  obtain ⟨d, hd, hdid, hstamp⟩ := hk
  rw [eq_of_id hids hd hc (hdid.trans hid.symm)] at hstamp
  rw [normalize_modified hm']
  exact hstamp m hm

/-- A page adds records of NVD, each name once, to what was downloaded. -/
theorem PageInv.page (h : PageInv s) (hj : s.job = some j) {w : Window} {n k : Nat} {total : Option Nat} {index : Nat} :
    PageInv { s with job := some { j with
      index := index, total := total, spool := j.spool ++ (((matching w s.feed).drop n).take k).map Cve.normalize } } := by
  have hsub : (((matching w s.feed).drop n).take k).Sublist s.feed :=
    (List.take_sublist _ _).trans ((List.drop_sublist _ _).trans List.filter_sublist)
  have hold := h.yielded j hj
  constructor
  · exact h.ids
  · exact h.past
  · exact h.stored
  · intro j' hj' r hr
    cases hj'
    cases List.mem_append.mp hr with
    | inl hmem => exact h.spool j hj r hmem
    | inr hmem =>
      obtain ⟨c, hc, rfl⟩ := List.mem_map.mp hmem
      exact normalize_known (hsub.subset hc)
  · intro j' hj'
    cases hj'
    constructor
    · intro r hr hrejected
      cases List.mem_append.mp hr with
      | inl hmem => exact hold.stamped r hmem hrejected
      | inr hmem =>
        obtain ⟨c, -, rfl⟩ := List.mem_map.mp hmem
        unfold Cve.normalize at hrejected ⊢
        split
        · next heq => simp [heq] at hrejected
        · rfl
    · rw [List.pairwise_append]
      refine ⟨hold.ordered, ?_, ?_⟩
      · rw [List.pairwise_map]
        have hdistinct : (((matching w s.feed).drop n).take k).Pairwise (fun c d => c.id ≠ d.id) :=
          List.pairwise_map.mp (h.ids.sublist (hsub.map Cve.id))
        refine hdistinct.imp (fun hne heq => ?_)
        rw [normalize_id, normalize_id] at heq
        exact absurd heq hne
      · intro r hr t ht hid m m' hm hm'
        obtain ⟨c, hc, rfl⟩ := List.mem_map.mp ht
        rw [normalize_id] at hid
        exact (h.spool j hj r hr).le h.ids (hsub.subset hc) hid.symm hm hm'
    · intro r hr
      cases List.mem_append.mp hr with
      | inl hmem => exact hold.fresh r hmem
      | inr hmem =>
        obtain ⟨c, hc, rfl⟩ := List.mem_map.mp hmem
        intro e he m m' hm hm'
        rw [normalize_id] at he
        exact (h.stored c.id e he).le h.ids (hsub.subset hc) rfl hm hm'

/-- The stamps in the tables after a run come from those before and from what was downloaded. -/
theorem PageInv.commit (h : PageInv s) (hj : s.job = some j) {now : Nat → Nat} {kev : Option (List KevItem)}
    {epss : Option (List (CveId × F × F))} {db : Db F} (happly : applyAll now kev epss j.spool s.db = some db) :
    PageInv { s with db := db, watermark := some j.finish, job := none } := by
  obtain ⟨db₁, hcves, hsame⟩ := applyAll_some happly
  obtain ⟨batches, hrecords, hbatches⟩ := applyFrom_batches now 0 [] j.spool
  rw [List.nil_append] at hrecords
  have hrun : batches.foldlM (fun db b => apply_cve_batch b.1 b.2 db) s.db = some db₁ := by
    rw [← hbatches]
    exact hcves
  refine ⟨h.ids, h.past, ?_, fun j hj => (Option.some_ne_none j hj.symm).elim, fun j hj => (Option.some_ne_none j hj.symm).elim⟩
  intro id e he
  have hentry : (db.entry id).map CveEntry.nvd = (db₁.entry id).map CveEntry.nvd := (hsame id).1
  rw [he] at hentry
  obtain ⟨e₁, he₁, hnvd⟩ := Option.map_eq_some_iff.mp hentry.symm
  rw [← hnvd]
  obtain ⟨e₀, he₀, hlast⟩ | ⟨r, hr, rfl, hlast⟩ := batches_stamps hrun he₁
  · rw [hlast]
    exact h.stored id e₀ he₀
  · rw [hlast]
    exact h.spool j hj r (hrecords ▸ hr)

theorem pageInv_step {a : NvdUpdate.Action F} (h : PageInv s) (hstep : NvdUpdate.step server s a = some s') : PageInv s' := by
  cases a with
  | tick microseconds =>
    cases hstep
    exact ⟨h.ids, fun c hc => Nat.le_add_right_of_le (h.past c hc), h.stored, h.spool, h.yielded⟩
  | revise id rejected data =>
    simp only [NvdUpdate.step] at hstep
    split at hstep
    · cases hstep
      refine h.change ?_ ?_ ?_
      · rw [revise_ids]
        exact h.ids
      · intro c hc
        cases mem_revise hc with
        | inl heq => exact .inr (congrArg Cve.lastModified heq)
        | inr hold => exact .inl hold.1
      · intro c hc
        obtain ⟨d, hd, hid, heq | heq⟩ := revise_mem (c := ⟨id, s.clock, rejected, data⟩) hc
        · exact ⟨d, hd, hid, by rw [heq]; exact h.past c hc⟩
        · exact ⟨d, hd, hid, Nat.le_of_eq (congrArg Cve.lastModified heq.symm)⟩
    · cases hstep
  | publish k id rejected data =>
    simp only [NvdUpdate.step] at hstep
    split at hstep
    · cases hstep
    · next hnew =>
      cases hstep
      refine h.change (publish_ids h.ids hnew) ?_ ?_
      · intro c hc
        cases mem_publish.mp hc with
        | inl heq => exact .inr (congrArg Cve.lastModified heq)
        | inr hold => exact .inl hold
      · exact fun c hc => ⟨c, mem_publish.mpr (.inr hc), rfl, Nat.le_refl _⟩
  | start full =>
    simp only [NvdUpdate.step] at hstep
    split at hstep
    · cases hstep
    · cases hstep
      refine ⟨h.ids, h.past, h.stored, ?_, ?_⟩
      · intro j' hj' r hr
        cases hj'
        cases hr
      · intro j' hj'
        cases hj'
        exact ⟨by simp, List.Pairwise.nil, by simp⟩
  | page =>
    obtain ⟨j, hj, hnext⟩ := Option.bind_eq_some_iff.mp hstep
    obtain ⟨j', hpage, rfl⟩ := Option.map_eq_some_iff.mp hnext
    unfold nextPage at hpage
    split at hpage
    · cases hpage
    · split at hpage
      · cases hpage
        exact h.page hj
      · cases hpage
  | window =>
    obtain ⟨j, hj, hnext⟩ := Option.bind_eq_some_iff.mp hstep
    obtain ⟨j', hwindow, rfl⟩ := Option.map_eq_some_iff.mp hnext
    unfold nextWindow at hwindow
    split at hwindow
    · cases hwindow
    · split at hwindow
      · cases hwindow
      · cases hwindow
        refine ⟨h.ids, h.past, h.stored, ?_, ?_⟩
        · intro j' hj'
          cases hj'
          exact h.spool j hj
        · intro j' hj'
          cases hj'
          exact h.yielded j hj
  | commit now kev epss =>
    obtain ⟨j, hj, hcommit⟩ := Option.bind_eq_some_iff.mp hstep
    split at hcommit
    · obtain ⟨db, happly, rfl⟩ := Option.map_eq_some_iff.mp hcommit
      exact h.commit hj happly
    · cases hcommit
  | fail =>
    cases hstep
    exact ⟨h.ids, h.past, h.stored, fun j hj => (Option.some_ne_none j hj.symm).elim,
      fun j hj => (Option.some_ne_none j hj.symm).elim⟩

theorem pageInv_begin {clock : Nat} {feed : List (Cve F)} (hids : (feed.map Cve.id).Nodup)
    (hpast : ∀ c ∈ feed, c.lastModified ≤ clock) : PageInv (begin clock feed) := by
  refine ⟨hids, hpast, ?_, ?_, ?_⟩
  · intro id e he
    cases he
  · intro j hj
    cases hj
  · intro j hj
    cases hj

/-- However NVD changes between the requests, a run downloads such records. -/
theorem yielded_of_run {clock : Nat} {feed : List (Cve F)} (hids : (feed.map Cve.id).Nodup)
    (hpast : ∀ c ∈ feed, c.lastModified ≤ clock) (h : Reach (NvdUpdate.step server) (fun _ _ => True) (begin clock feed) s)
    (hj : s.job = some j) : Yielded s.db j.spool :=
  (h.invariant (pageInv_begin hids hpast) (fun _ _ _ hinv _ hstep => pageInv_step hinv hstep)).yielded j hj

end Pages

/-! ## Two runs -/

/-- A full run that reads one record on a page, while a record comes to the front of NVD's list. -/
def shifted : List (NvdUpdate.Action Nat) :=
  [.start true, .page, .publish 0 (named '3' (by decide)) false (dataOf cveOne ['a']), .page, .page, .window]

/-- A full run while a record that was read is rejected, and another one comes to the front. -/
def rejectedAgain : List (NvdUpdate.Action Nat) :=
  [.start true, .page, .revise cveOne true (dataOf cveOne ['a']),
    .publish 0 (named '3' (by decide)) false (dataOf cveOne ['a']), .page, .page, .window]

/-- In the first run the same record is on two pages, and the update fails; in the second one a record is on two
pages, the second time rejected, and the rejected record stays. -/
theorem repeated_id_refused :
    (∃ s ∈ run (NvdUpdate.step oneByOne) shifted twoCves, ∃ j ∈ s.job, j.windows = [] ∧
      apply_cves (fun _ => 0) j.spool s.db = none) ∧
    (∃ s ∈ run (NvdUpdate.step oneByOne) rejectedAgain twoCves, ∃ j ∈ s.job, j.windows = [] ∧
      ∃ db ∈ apply_cves (fun _ => 0) j.spool s.db, ∃ r ∈ lastOf cveOne j.spool, ¬ Stored db r) := by
  with_unfolding_all decide

/-- A record that was rejected and is published again. -/
def republished : List (Record Nat) :=
  [⟨cveOne, true, none, none, none, none, ⟨none, none, none, none⟩, none, [], []⟩,
    { dataOf cveOne ['a'] with modified := some 5 }]

theorem update_accepts_republished :
    ∃ db, apply_cves (fun _ => 0) republished Db.empty = some db ∧ Newest db republished :=
  have hyield : Yielded Db.empty republished := by
    constructor
    · decide
    · refine List.Pairwise.cons ?_ (List.pairwise_singleton _ _)
      rintro s - - m m' hm
      cases hm
    · rintro r - e he
      cases he
  (update_accepts hyield).mpr (by with_unfolding_all decide)

end RepeatedIds
