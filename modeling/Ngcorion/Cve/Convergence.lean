import Mathlib.Data.List.Nodup
import Ngcorion.Cve.CveStore
import Ngcorion.Transition

/-!
# The CVE tables converge

Batches of records in any order, with runs of the other feeds between them, leave of each name
the newest record.
-/
namespace Convergence

open CveStore Transition

variable {F : Type}

/-! ## Runs -/

inductive Action (F : Type) where
  | batch (now : Nat) (records : List (Record F))
  | kev (now : Nat) (items : List KevItem)
  | epss (rows : List (CveId × F × F))

def step (db : Db F) : Action F → Option (Db F)
  | .batch now records => apply_cve_batch now records db
  | .kev now items => some (apply_kev now items db)
  | .epss rows => some (apply_epss rows db)

/-- The records that an action brings. -/
def Action.records : Action F → List (Record F)
  | .batch _ records => records
  | .kev _ _ => []
  | .epss _ => []

def seen (actions : List (Action F)) : List (Record F) := actions.flatMap Action.records

/-- No record is rejected and each has a stamp, name and stamp tell the record, and a batch has
no name twice. -/
structure Admissible (actions : List (Action F)) : Prop where
  accepted : ∀ r ∈ seen actions, r.rejected = false
  stamped : ∀ r ∈ seen actions, r.modified.isSome = true
  told : ∀ r ∈ seen actions, ∀ r' ∈ seen actions, r.id = r'.id → r.modified = r'.modified → r = r'
  distinct : ∀ a ∈ actions, (a.records.map Record.id).Nodup

/-- A record with the greatest stamp among those of its name. -/
def Newest (r : Record F) (records : List (Record F)) : Prop :=
  r ∈ records ∧ ∀ r' ∈ records, r'.id = r.id → r'.modified.getD 0 ≤ r.modified.getD 0

/-! ## A batch -/

section Batch

variable {now : Nat} {records : List (Record F)} {db db' : Db F} {id : CveId}

/-- A batch keeps the columns of the other feeds. -/
theorem batch_keeps_feeds (haccepted : ∀ r ∈ records, r.rejected = false)
    (h : apply_cve_batch now records db = some db') {e : CveEntry F} (he : db.entry id = some e) :
    ∃ e', db'.entry id = some e' ∧ e'.kev = e.kev ∧ e'.epss = e.epss := by
  have hrejected : id ∉ rejectedIds (records.map Record.clean) := by simp [rejectedIds_nil haccepted]
  by_cases hlive : id ∈ (live db.entries (records.map Record.clean)).map Record.id
  · obtain ⟨c, hc, rfl⟩ := List.mem_map.mp hlive
    rw [(writeBatch_live h hc hrejected).1, he]
    exact ⟨_, rfl, rfl, rfl⟩
  · rw [(writeBatch_other h hlive hrejected).1]
    exact ⟨e, he, rfl, rfl⟩

end Batch

/-! ## Every run -/

/-- The tables have the newest record of a name, or nothing where no record has the name. -/
def Settled (db : Db F) (records : List (Record F)) (id : CveId) : Prop :=
  (∃ r, Newest r records ∧ r.id = id ∧ Holds db r) ∨ (∀ r ∈ records, r.id ≠ id) ∧ Absent db id

section Run

variable {now : Nat} {old records : List (Record F)} {db db' : Db F} {id : CveId} {r : Record F}

theorem Settled.of_same (h : Settled db old id) (hnvd : (db'.entry id).map CveEntry.nvd = (db.entry id).map CveEntry.nvd)
    (hcpes : db'.cpes id = db.cpes id) : Settled db' old id := by
  rcases h with ⟨r, hnewest, rfl, hholds⟩ | ⟨hnone, habsent⟩
  · exact Or.inl ⟨r, hnewest, rfl, hnvd.trans hholds.1, hcpes.trans hholds.2⟩
  · refine Or.inr ⟨hnone, ?_, hcpes.trans habsent.2⟩
    rw [habsent.1] at hnvd
    simpa using hnvd

/-- A record of the batch is newest when it is the only one of its name there and not older than
the newest one before. -/
theorem newest_append (hr : r ∈ records) (hone : ∀ r' ∈ records, r'.id = r.id → r' = r)
    (hold : ∀ r' ∈ old, r'.id = r.id → r'.modified.getD 0 ≤ r.modified.getD 0) : Newest r (old ++ records) := by
  refine ⟨List.mem_append_right old hr, ?_⟩
  intro r' hr' hid
  cases List.mem_append.mp hr' with
  | inl h => exact hold r' h hid
  | inr h => exact Nat.le_of_eq (by rw [hone r' h hid])

theorem newest_stays (h : Newest r old) (hnew : ∀ r' ∈ records, r'.id = r.id → r'.modified.getD 0 ≤ r.modified.getD 0) :
    Newest r (old ++ records) := by
  refine ⟨List.mem_append_left records h.1, ?_⟩
  intro r' hr' hid
  cases List.mem_append.mp hr' with
  | inl hmem => exact h.2 r' hmem hid
  | inr hmem => exact hnew r' hmem hid

/-- The stamp in the table is that of the record it has. -/
theorem stale_of_holds (h : Holds db r) {s : Record F} (hid : s.id = r.id) {m m' : Nat} (hr : r.modified = some m)
    (hs : s.modified = some m') : stale db.entries s.clean = decide (m' < m) := by
  obtain ⟨e, he, hnvd⟩ := Option.map_eq_some_iff.mp h.1
  have hget : Dict.get db.entries s.clean.id = some e := by
    rw [clean_id, hid]
    exact he
  have hstored : e.nvd.last_modified = some m := by
    rw [hnvd]
    exact hr
  unfold stale
  rw [hget, clean_modified, hs, Option.bind_some, hstored]

theorem stale_of_absent (h : Absent db r.id) : stale db.entries r.clean = false := by
  have hget : Dict.get db.entries r.clean.id = none := h.1
  unfold stale
  rw [hget, Option.bind_none]

/-- After a batch the tables have the newest record of each name. -/
theorem Settled.batch (h : Settled db old id) (hold : ∀ r ∈ old, r.modified.isSome = true)
    (haccepted : ∀ r ∈ records, r.rejected = false) (hstamped : ∀ r ∈ records, r.modified.isSome = true)
    (hids : (records.map Record.id).Nodup) (hwrite : apply_cve_batch now records db = some db') :
    Settled db' (old ++ records) id := by
  have hrejected (id : CveId) : id ∉ rejectedIds (records.map Record.clean) := by simp [rejectedIds_nil haccepted]
  by_cases hmem : id ∈ records.map Record.id
  · obtain ⟨r, hr, rfl⟩ := List.mem_map.mp hmem
    have hone : ∀ r' ∈ records, r'.id = r.id → r' = r := fun r' hr' heq => List.inj_on_of_nodup_map hids hr' hr heq
    obtain ⟨m', hm'⟩ := Option.isSome_iff_exists.mp (hstamped r hr)
    have hwritten (hstale : stale db.entries r.clean = false) : Holds db' r := by
      obtain ⟨hentry, hcpes⟩ := writeBatch_live hwrite (mem_live hr (haccepted r hr) hstale) (hrejected _)
      refine ⟨?_, hcpes⟩
      rw [clean_id] at hentry
      rw [hentry]
      cases db.entry r.id <;> rfl
    rcases h with ⟨r₀, hnewest, hid, hholds⟩ | ⟨hnone, habsent⟩
    · obtain ⟨m, hm⟩ := Option.isSome_iff_exists.mp (hold r₀ hnewest.1)
      have hstale := stale_of_holds hholds hid.symm hm hm'
      by_cases hlt : m' < m
      · -- the stored record is newer, and the batch leaves it
        have hlive : r.id ∉ (live db.entries (records.map Record.clean)).map Record.id := by
          apply not_live
          intro s hs hsid
          rw [hone s hs hsid, hstale]
          exact decide_eq_true hlt
        obtain ⟨hentry, hcpes⟩ := writeBatch_other hwrite hlive (hrejected _)
        refine Or.inl ⟨r₀, newest_stays hnewest ?_, hid, ?_, ?_⟩
        · intro s hs hsid
          rw [hone s hs (hsid.trans hid), hm, hm']
          exact Nat.le_of_lt hlt
        · rw [hid, hentry, ← hid]
          exact hholds.1
        · rw [hid, hcpes, ← hid]
          exact hholds.2
      · refine Or.inl ⟨r, newest_append hr hone ?_, rfl, hwritten (by rw [hstale]; exact decide_eq_false hlt)⟩
        intro s hs hsid
        have hle := hnewest.2 s hs (hsid.trans hid.symm)
        rw [hm] at hle
        rw [hm']
        exact Nat.le_trans hle (Nat.le_of_not_lt hlt)
    · refine Or.inl ⟨r, newest_append hr hone ?_, rfl, hwritten (stale_of_absent habsent)⟩
      intro s hs hsid
      exact absurd hsid (hnone s hs)
  · have hne : ∀ r ∈ records, r.id ≠ id := fun r hr heq => hmem (heq ▸ List.mem_map_of_mem hr)
    have hlive : id ∉ (live db.entries (records.map Record.clean)).map Record.id :=
      not_live (fun r hr heq => absurd heq (hne r hr))
    obtain ⟨hentry, hcpes⟩ := writeBatch_other hwrite hlive (hrejected _)
    have hsame : Settled db' old id := h.of_same (by rw [hentry]) hcpes
    rcases hsame with ⟨r, hnewest, rfl, hholds⟩ | ⟨hnone, habsent⟩
    · exact Or.inl ⟨r, newest_stays hnewest (fun s hs heq => absurd heq (hne s hs)), rfl, hholds⟩
    · refine Or.inr ⟨?_, habsent⟩
      intro s hs
      cases List.mem_append.mp hs with
      | inl h => exact hnone s h
      | inr h => exact hne s h

theorem seen_cons (a : Action F) (actions : List (Action F)) : seen (a :: actions) = a.records ++ seen actions := rfl

/-- A run keeps the newest record of each name. -/
theorem run_settled {actions : List (Action F)} (hacc : ∀ r ∈ seen actions, r.rejected = false)
    (hst : ∀ r ∈ seen actions, r.modified.isSome = true) (hids : ∀ a ∈ actions, (a.records.map Record.id).Nodup)
    (hold : ∀ r ∈ old, r.modified.isSome = true) (h : ∀ id, Settled db old id) :
    ∃ db', run step actions db = some db' ∧ ∀ id, Settled db' (old ++ seen actions) id := by
  induction actions generalizing db old with
  | nil => exact ⟨db, rfl, by simpa [seen] using h⟩
  | cons a actions ih =>
    have htail (db₁ : Db F) (hstep : step db a = some db₁) (h₁ : ∀ id, Settled db₁ (old ++ a.records) id) :
        ∃ db', run step (a :: actions) db = some db' ∧ ∀ id, Settled db' (old ++ seen (a :: actions)) id := by
      have hold₁ : ∀ r ∈ old ++ a.records, r.modified.isSome = true := by
        intro r hr
        cases List.mem_append.mp hr with
        | inl hr => exact hold r hr
        | inr hr => exact hst r (List.mem_append_left _ hr)
      obtain ⟨db', hrun, hsettled⟩ := ih (fun r hr => hacc r (List.mem_append_right _ hr))
        (fun r hr => hst r (List.mem_append_right _ hr)) (fun b hb => hids b (List.mem_cons_of_mem _ hb)) hold₁ h₁
      refine ⟨db', ?_, ?_⟩
      · simpa [run, hstep] using hrun
      · rw [seen_cons, ← List.append_assoc]
        exact hsettled
    cases a with
    | batch now records =>
      have hnodup := hids _ List.mem_cons_self
      obtain ⟨db₁, hwrite⟩ := batch_some now db hnodup
      refine htail db₁ hwrite (fun id => (h id).batch hold ?_ ?_ hnodup hwrite)
      · exact fun r hr => hacc r (List.mem_append_left _ hr)
      · exact fun r hr => hst r (List.mem_append_left _ hr)
    | kev now items =>
      refine htail _ rfl (fun id => ?_)
      simpa [Action.records] using (h id).of_same (nvd_kev now items db id) rfl
    | epss rows =>
      refine htail _ rfl (fun id => ?_)
      simpa [Action.records] using (h id).of_same (nvd_epss rows db id) rfl

/-- Name and stamp tell the newest record. -/
theorem newest_unique (hst : ∀ r ∈ records, r.modified.isSome = true)
    (htold : ∀ r ∈ records, ∀ r' ∈ records, r.id = r'.id → r.modified = r'.modified → r = r') {r' : Record F}
    (hr : Newest r records) (hr' : Newest r' records) (hid : r.id = r'.id) : r = r' := by
  apply htold r hr.1 r' hr'.1 hid
  obtain ⟨m, hm⟩ := Option.isSome_iff_exists.mp (hst r hr.1)
  obtain ⟨m', hm'⟩ := Option.isSome_iff_exists.mp (hst r' hr'.1)
  have hle := hr.2 r' hr'.1 hid.symm
  have hge := hr'.2 r hr.1 hid
  rw [hm, hm'] at hle hge
  have heq : m = m' := Nat.le_antisymm hge hle
  rw [hm, hm', heq]

end Run

/-- Batches of records in any order and in any division, with runs of the other feeds between them,
leave of each name the columns and criteria of its newest record, and nothing of other names; and a
batch keeps the columns of the other feeds of each entry. -/
theorem store_converges (actions : List (Action F)) (h : Admissible actions) :
    ∃ db, run step actions Db.empty = some db ∧ (∀ r, Newest r (seen actions) → Holds db r) ∧
      (∀ id, (∀ r ∈ seen actions, r.id ≠ id) → Absent db id) ∧
      ∀ now records db₁ db₂, (∀ r ∈ records, r.rejected = false) → apply_cve_batch now records db₁ = some db₂ →
        ∀ (id : CveId) (e : CveEntry F), db₁.entry id = some e →
          ∃ e', db₂.entry id = some e' ∧ e'.kev = e.kev ∧ e'.epss = e.epss := by
  have hempty : ∀ id, Settled (Db.empty : Db F) [] id := fun id => Or.inr ⟨by simp, rfl, rfl⟩
  obtain ⟨db, hrun, hsettled⟩ := run_settled h.accepted h.stamped h.distinct (by simp) hempty
  rw [List.nil_append] at hsettled
  refine ⟨db, hrun, ?_, ?_, fun now records db₁ db₂ hacc hwrite id e he => batch_keeps_feeds hacc hwrite he⟩
  · intro r hr
    rcases hsettled r.id with ⟨r', hnewest, hid, hholds⟩ | ⟨hnone, -⟩
    · rwa [newest_unique h.stamped h.told hr hnewest hid.symm]
    · exact absurd rfl (hnone r hr.1)
  · intro id hnone
    rcases hsettled id with ⟨r', hnewest, hid, -⟩ | ⟨-, habsent⟩
    · exact absurd hid (hnone r' hnewest.1)
    · exact habsent

/-- A record with one criterion. -/
def recordOf (id : CveId) (modified : Nat) (product : Text.Str) : Record Nat :=
  ⟨id, false, some modified, none, none, none, ⟨none, none, none, none⟩, none, [],
    [⟨some .os, ['v'], product, none, none, none, none, none⟩]⟩

/-- The newer record of one name comes first, with another name beside the older one. -/
def newerFirst : List (Action Nat) :=
  [.batch 1 [recordOf (named '1' (by decide)) 20 ['b']], .kev 2 [⟨named '1' (by decide), none, none, none, none⟩],
    .batch 3 [recordOf (named '1' (by decide)) 10 ['a'], recordOf (named '2' (by decide)) 10 ['c']]]

theorem newer_first_kept :
    ∃ db, run step newerFirst Db.empty = some db ∧ Holds db (recordOf (named '1' (by decide)) 20 ['b']) := by
  have hadmissible : Admissible newerFirst := by
    constructor
    · decide
    · decide
    · decide
    · unfold newerFirst
      decide
  obtain ⟨db, hrun, hnewest, -⟩ := store_converges newerFirst hadmissible
  refine ⟨db, hrun, hnewest _ ⟨?_, ?_⟩⟩
  · decide
  · decide

end Convergence
