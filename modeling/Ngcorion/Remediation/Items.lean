import Ngcorion.Text
import Ngcorion.FirstBy
import Ngcorion.Users.Accounts

/-!
# Remediation items and their synchronisation

One item is kept for every problem that a module reports. The synchronisation
collects what the modules report now, then creates, updates, resolves and reopens
items to match, and applies the risk acceptances to them.
-/
namespace Items

open Text FirstBy

/-! ## Settings -/

inductive Severity where
  | critical | high | medium | low
  deriving DecidableEq

/-- The keys of the deadlines and of the limits; known-exploited problems have one of their own. -/
inductive Band where
  | kev | critical | high | medium | low

/-- `_band` -/
def band (severity : Severity) (kev : Bool) : Band :=
  if kev then .kev else
    match severity with
    | .critical => .critical
    | .high => .high
    | .medium => .medium
    | .low => .low

/-- Days to fix a problem, and the most days that its risk may be accepted for. -/
structure Settings where
  sla : Band → Nat
  acceptMax : Band → Nat

/-- `DEFAULT_SLA` and `DEFAULT_ACCEPT_MAX` -/
def Settings.default : Settings where
  sla
    | .kev => 7
    | .critical => 15
    | .high => 30
    | .medium => 90
    | .low => 180
  acceptMax
    | .kev => 30
    | .critical => 30
    | .high => 90
    | .medium => 180
    | .low => 365

/-- Times are counted in microseconds. -/
def hour : Nat := 3600 * 1000000

def day : Nat := 24 * hour

def slaDue (settings : Settings) (firstSeen : Nat) (severity : Severity) (kev : Bool) : Nat :=
  firstSeen + settings.sla (band severity kev) * day

def acceptMaxDays (settings : Settings) (severity : Severity) (kev : Bool) : Nat :=
  settings.acceptMax (band severity kev)

/-! ## What the modules report -/

inductive Source where
  | cve | audit | arch | eol | tls
  deriving DecidableEq

/-- The text `<source>:<asset>:<rest>`. Neither a source nor a number has a colon, so
that the text has these parts in one way only. -/
structure Key where
  source : Source
  assetId : Nat
  rest : Str
  deriving DecidableEq

structure Found where
  key : Key
  source : Source
  ref : Str
  assetId : Nat
  severity : Severity
  kev : Bool
  /-- A successful hardening ran for it. -/
  hardened : Bool
  /-- Accepted or ignored on its own page. -/
  sourceAccepted : Bool
  deriving DecidableEq

/-- What a synchronisation reads of the other modules. -/
structure Report where
  /-- None when the CVE database is not loaded. -/
  cve : Option (List Found)
  audit : List Found
  auditedAssets : List Nat
  byPolicy : List Key
  arch : List Found
  archRuleCodes : List Str
  eol : List Found
  tls : List Found
  assetIds : List Nat

def Report.found (r : Report) : List Found := r.cve.getD [] ++ r.audit ++ r.arch ++ r.eol ++ r.tls

def Report.checked (r : Report) (source : Source) : Bool := source ≠ .cve || r.cve.isSome

/-! ## The tables -/

inductive Status where
  | isOpen | inProgress | pendingVerification | resolved | accepted
  deriving DecidableEq

inductive Reason where
  | fixed | assetDeleted | noData | byPolicy | ruleRetired
  deriving DecidableEq

structure Item where
  id : Nat
  key : Key
  source : Source
  ref : Str
  assetId : Option Nat
  severity : Severity
  kev : Bool
  status : Status
  dueAt : Nat
  dueCustom : Bool
  acceptanceId : Option Nat
  firstSeenAt : Nat
  lastSeenAt : Nat
  resolvedAt : Option Nat
  closedReason : Option Reason
  reopened : Nat
  deriving DecidableEq

inductive Scope where
  | item | ref
  deriving DecidableEq

inductive AcceptStatus where
  | pending | approved | rejected | expired | revoked
  deriving DecidableEq

/-- A user with the role of the moment. -/
structure User where
  id : Nat
  role : Accounts.Role

structure Acceptance where
  id : Nat
  scope : Scope
  source : Source
  ref : Str
  itemId : Option Nat
  severity : Severity
  kev : Bool
  expiresAt : Nat
  status : AcceptStatus
  requestedBy : Nat
  requestedAt : Nat
  /-- The role is the one of the decision; the row has only the id. -/
  decidedBy : Option User

structure Database where
  items : List Item
  acceptances : List Acceptance
  nextItem : Nat
  nextAcceptance : Nat

def Database.empty : Database := ⟨[], [], 1, 1⟩

/-! ## Acceptances in force -/

/-- `_expire_acceptances` -/
def expireAcceptances (now : Nat) (acceptances : List Acceptance) : List Acceptance :=
  acceptances.map (fun a => if a.status = .approved ∧ a.expiresAt ≤ now then { a with status := .expired } else a)

def Acceptance.active (a : Acceptance) (now : Nat) : Bool := a.status = .approved && now < a.expiresAt

/-- `by_item`: of several acceptances the last one is kept. -/
def byItem (acceptances : List Acceptance) (now id : Nat) : Option Acceptance :=
  acceptances.reverse.find? (fun a => a.active now && a.scope = .item && a.itemId = some id)

/-- `by_ref` -/
def byRef (acceptances : List Acceptance) (now : Nat) (source : Source) (ref : Str) : Option Acceptance :=
  acceptances.reverse.find? (fun a => a.active now && a.scope = .ref && a.source = source && a.ref = ref)

/-- The acceptance that is applied to an item. -/
def covering (acceptances : List Acceptance) (now : Nat) (item : Item) : Option Acceptance :=
  byItem acceptances now item.id <|> byRef acceptances now item.source item.ref

/-! ## Synchronisation -/

def create (settings : Settings) (now id : Nat) (f : Found) : Item where
  id := id
  key := f.key
  source := f.source
  ref := f.ref
  assetId := some f.assetId
  severity := f.severity
  kev := f.kev
  status := .isOpen
  dueAt := slaDue settings now f.severity f.kev
  dueCustom := false
  acceptanceId := none
  firstSeenAt := now
  lastSeenAt := now
  resolvedAt := none
  closedReason := none
  reopened := 0

/-- A problem that came back opens its item again. -/
def reopen (settings : Settings) (now : Nat) (f : Found) (item : Item) : Item :=
  if item.status = .resolved then
    { item with
      status := .isOpen, resolvedAt := none, closedReason := none, reopened := item.reopened + 1
      dueAt := if item.dueCustom then item.dueAt else slaDue settings now f.severity f.kev }
  else item

/-- The item takes over what is reported now. -/
def refresh (settings : Settings) (now : Nat) (f : Found) (item : Item) : Item :=
  { item with
    dueAt :=
      if (item.severity, item.kev) ≠ (f.severity, f.kev) ∧ ¬ item.dueCustom then
        slaDue settings item.firstSeenAt f.severity f.kev
      else item.dueAt
    severity := f.severity, kev := f.kev, lastSeenAt := now }

/-- The part of a synchronisation that applies risk acceptances and hardenings. -/
def applyAcceptance (settings : Settings) (acceptances : List Acceptance) (now : Nat) (f : Found) (item : Item) : Item :=
  match covering acceptances now item with
  | some acc => { item with status := .accepted, acceptanceId := some acc.id }
  | none =>
    if f.sourceAccepted then { item with status := .accepted, acceptanceId := none }
    else if item.status = .accepted then
      { item with
        status := .isOpen, acceptanceId := none
        dueAt := if item.dueCustom then item.dueAt
          else max (slaDue settings item.firstSeenAt item.severity item.kev) now }
    else if f.hardened ∧ (item.status = .isOpen ∨ item.status = .inProgress) then
      { item with status := .pendingVerification }
    else item

/-- What is done for one finding. -/
def record (settings : Settings) (now : Nat) (db : Database) (f : Found) : Database :=
  if db.items.any (fun i => i.key = f.key) then
    { db with items := db.items.map (fun i =>
        if i.key = f.key then
          applyAcceptance settings db.acceptances now f (refresh settings now f (reopen settings now f i))
        else i) }
  else
    { db with
      items := db.items ++ [applyAcceptance settings db.acceptances now f (create settings now db.nextItem f)]
      nextItem := db.nextItem + 1 }

/-- Why an item that is no longer reported is closed; none when it is left as it is. -/
def closeReason (r : Report) (item : Item) : Option Reason :=
  if ¬ item.assetId.any (r.assetIds.contains ·) then some .assetDeleted
  else if ¬ r.checked item.source then none
  else if item.source = .audit ∧ ¬ item.assetId.any (r.auditedAssets.contains ·) then some .noData
  else if item.key ∈ r.byPolicy then some .byPolicy
  else if item.source = .arch ∧ item.ref ∉ r.archRuleCodes then some .ruleRetired
  else some .fixed

/-- Close an item that is not among the keys seen. -/
def settle (r : Report) (now : Nat) (seen : List Key) (item : Item) : Item :=
  if item.key ∈ seen ∨ item.status = .resolved then item else
    match closeReason r item with
    | none => item
    | some reason =>
      { item with status := .resolved, resolvedAt := some now, closedReason := some reason, acceptanceId := none }

/-- The findings of a report; of several with one key the first counts. -/
def Report.distinct (r : Report) : List Found := firstBy Found.key [] r.found

def sync (settings : Settings) (r : Report) (now : Nat) (db : Database) : Database :=
  let recorded := r.distinct.foldl (record settings now)
    { db with acceptances := expireAcceptances now db.acceptances }
  { recorded with items := recorded.items.map (settle r now (r.distinct.map Found.key)) }

/-! ## What a synchronisation can do to an item -/

/-- Two versions of an item: what says which problem it is does not change. -/
structure SameProblem (i j : Item) : Prop where
  id : j.id = i.id
  key : j.key = i.key
  source : j.source = i.source
  ref : j.ref = i.ref
  asset : j.assetId = i.assetId

theorem SameProblem.trans {i j k : Item} (h : SameProblem i j) (h' : SameProblem j k) : SameProblem i k :=
  ⟨h'.id.trans h.id, h'.key.trans h.key, h'.source.trans h.source, h'.ref.trans h.ref, h'.asset.trans h.asset⟩

section Same

variable (settings : Settings) (acceptances : List Acceptance) (now : Nat) (f : Found) (item : Item)

theorem reopen_same : SameProblem item (reopen settings now f item) := by
  unfold reopen
  split <;> exact ⟨rfl, rfl, rfl, rfl, rfl⟩

theorem refresh_same : SameProblem item (refresh settings now f item) := ⟨rfl, rfl, rfl, rfl, rfl⟩

theorem applyAcceptance_same : SameProblem item (applyAcceptance settings acceptances now f item) := by
  unfold applyAcceptance
  split
  · exact ⟨rfl, rfl, rfl, rfl, rfl⟩
  · split
    · exact ⟨rfl, rfl, rfl, rfl, rfl⟩
    · split
      · exact ⟨rfl, rfl, rfl, rfl, rfl⟩
      · split <;> exact ⟨rfl, rfl, rfl, rfl, rfl⟩

theorem applyAcceptance_grade : (applyAcceptance settings acceptances now f item).severity = item.severity ∧
    (applyAcceptance settings acceptances now f item).kev = item.kev := by
  unfold applyAcceptance
  split
  · exact ⟨rfl, rfl⟩
  · split
    · exact ⟨rfl, rfl⟩
    · split
      · exact ⟨rfl, rfl⟩
      · split <;> exact ⟨rfl, rfl⟩

/-- An item is accepted under an acceptance only when that one covers it. -/
theorem applyAcceptance_accepted {id : Nat}
    (hid : (applyAcceptance settings acceptances now f item).acceptanceId = some id)
    (hstatus : (applyAcceptance settings acceptances now f item).status = .accepted) :
    ∃ acc, covering acceptances now item = some acc ∧ acc.id = id := by
  unfold applyAcceptance at hid hstatus
  split at hid
  · rename_i acc hacc
    exact ⟨acc, hacc, by simpa using hid⟩
  · rename_i hnone
    simp only [hnone] at hstatus
    split at hid
    · simp at hid
    · rename_i hsource
      rw [if_neg hsource] at hstatus
      split at hid
      · simp at hid
      · rename_i hplain
        rw [if_neg hplain] at hstatus
        split at hstatus
        · simp at hstatus
        · exact absurd hstatus hplain

theorem applyAcceptance_unresolved (h : item.status ≠ .resolved) :
    (applyAcceptance settings acceptances now f item).status ≠ .resolved := by
  unfold applyAcceptance
  split
  · simp
  · split
    · simp
    · split
      · simp
      · split
        · simp
        · exact h

theorem reopen_unresolved : (reopen settings now f item).status ≠ .resolved := by
  unfold reopen
  split
  · simp
  · assumption

theorem settle_same (r : Report) (seen : List Key) : SameProblem item (settle r now seen item) := by
  unfold settle
  split
  · exact ⟨rfl, rfl, rfl, rfl, rfl⟩
  · split <;> exact ⟨rfl, rfl, rfl, rfl, rfl⟩

end Same

/-- An item that a finding is about has come out of the item before it, or is new. -/
def Treated (settings : Settings) (now : Nat) (db : Database) (f : Found) (item : Item) : Prop :=
  ∃ base, item = applyAcceptance settings db.acceptances now f base ∧
    ((∃ i ∈ db.items, i.key = f.key ∧ base = refresh settings now f (reopen settings now f i)) ∨
      ((∀ i ∈ db.items, i.key ≠ f.key) ∧ ∃ id, db.nextItem ≤ id ∧ base = create settings now id f))

section Loop

variable {settings : Settings} {now : Nat} {db : Database} {f : Found} {item : Item}

theorem Treated.key (h : Treated settings now db f item) : item.key = f.key := by
  obtain ⟨base, rfl, ⟨i, -, hkey, rfl⟩ | ⟨-, id, -, rfl⟩⟩ := h
  · rw [← hkey]
    exact (((reopen_same settings now f i).trans (refresh_same settings now f _)).trans
      (applyAcceptance_same settings db.acceptances now f _)).key
  · exact (applyAcceptance_same settings db.acceptances now f _).key

/-- A problem that is reported is not resolved. -/
theorem Treated.unresolved (h : Treated settings now db f item) : item.status ≠ .resolved := by
  obtain ⟨base, rfl, ⟨i, -, -, rfl⟩ | ⟨-, id, -, rfl⟩⟩ := h
  · exact applyAcceptance_unresolved settings _ now f _ (reopen_unresolved settings now f i)
  · exact applyAcceptance_unresolved settings _ now f _ (by simp [create])

@[simp] theorem record_acceptances : (record settings now db f).acceptances = db.acceptances := by
  unfold record
  split <;> rfl

theorem nextItem_le_record : db.nextItem ≤ (record settings now db f).nextItem := by
  unfold record
  split
  · exact Nat.le_refl _
  · exact Nat.le_succ _

theorem mem_record (h : item ∈ (record settings now db f).items) :
    item ∈ db.items ∧ item.key ≠ f.key ∨ Treated settings now db f item := by
  unfold record at h
  split at h
  · obtain ⟨i, hi, rfl⟩ := List.mem_map.mp h
    split
    · rename_i hkey
      exact Or.inr ⟨_, rfl, Or.inl ⟨i, hi, hkey, rfl⟩⟩
    · rename_i hkey
      exact Or.inl ⟨hi, hkey⟩
  · rename_i hnone
    have hnew : ∀ i ∈ db.items, i.key ≠ f.key := by simpa using hnone
    rcases List.mem_append.mp h with h | h
    · exact Or.inl ⟨h, hnew item h⟩
    · exact Or.inr ⟨_, List.mem_singleton.mp h, Or.inr ⟨hnew, db.nextItem, Nat.le_refl _, rfl⟩⟩

/-- A finding with another key treats the item as it was before. -/
theorem Treated.of_record {g : Found} (hne : g.key ≠ f.key) (h : Treated settings now (record settings now db f) g item) :
    Treated settings now db g item := by
  obtain ⟨base, rfl, ⟨i, hi, hkey, rfl⟩ | ⟨hnew, id, hid, rfl⟩⟩ := h
  · rw [record_acceptances]
    rcases mem_record hi with ⟨hi, -⟩ | htreated
    · exact ⟨_, rfl, Or.inl ⟨i, hi, hkey, rfl⟩⟩
    · exact absurd (hkey.symm.trans htreated.key) hne
  · rw [record_acceptances]
    refine ⟨_, rfl, Or.inr ⟨fun i hi hkey => ?_, id, Nat.le_trans nextItem_le_record hid, rfl⟩⟩
    have hkept : i ∈ (record settings now db f).items := by
      unfold record
      split
      · exact List.mem_map.mpr ⟨i, hi, if_neg (fun heq => hne (hkey.symm.trans heq))⟩
      · exact List.mem_append_left _ hi
    exact hnew i hkept hkey

/-- After all findings an item is as it was, and none of them is about it, or one of them has treated it. -/
theorem mem_records (fs : List Found) (hfs : (fs.map Found.key).Nodup)
    (h : item ∈ (fs.foldl (record settings now) db).items) :
    item ∈ db.items ∧ item.key ∉ fs.map Found.key ∨ ∃ f ∈ fs, Treated settings now db f item := by
  induction fs generalizing db with
  | nil => exact Or.inl ⟨h, by simp⟩
  | cons f fs ih =>
    rw [List.map_cons, List.nodup_cons] at hfs
    rcases ih hfs.2 h with ⟨hmem, hkey⟩ | ⟨g, hg, htreated⟩
    · rcases mem_record hmem with ⟨hmem, hne⟩ | htreated
      · exact Or.inl ⟨hmem, by simp [hne, hkey]⟩
      · exact Or.inr ⟨f, List.mem_cons_self, htreated⟩
    · have hne : g.key ≠ f.key := by
        intro heq
        exact hfs.1 (heq ▸ List.mem_map_of_mem hg)
      exact Or.inr ⟨g, List.mem_cons_of_mem _ hg, htreated.of_record hne⟩

theorem records_acceptances (fs : List Found) :
    (fs.foldl (record settings now) db).acceptances = db.acceptances := by
  induction fs generalizing db with
  | nil => rfl
  | cons f fs ih => exact ih.trans record_acceptances

theorem records_nextAcceptance (fs : List Found) :
    (fs.foldl (record settings now) db).nextAcceptance = db.nextAcceptance := by
  induction fs generalizing db with
  | nil => rfl
  | cons f fs ih =>
    refine ih.trans ?_
    unfold record
    split <;> rfl

/-- The items have ids that were given out. -/
theorem record_ids (h : ∀ i ∈ db.items, i.id < db.nextItem) :
    ∀ i ∈ (record settings now db f).items, i.id < (record settings now db f).nextItem := by
  intro item hitem
  unfold record at hitem ⊢
  split at hitem
  · rename_i hany
    rw [if_pos hany]
    obtain ⟨i, hi, rfl⟩ := List.mem_map.mp hitem
    split
    · rw [(((reopen_same settings now f i).trans (refresh_same settings now f _)).trans
        (applyAcceptance_same settings db.acceptances now f _)).id]
      exact h i hi
    · exact h i hi
  · rename_i hany
    rw [if_neg hany]
    rcases List.mem_append.mp hitem with hi | hi
    · exact Nat.lt_succ_of_lt (h item hi)
    · rw [List.mem_singleton.mp hi, (applyAcceptance_same settings db.acceptances now f _).id]
      exact Nat.lt_succ_self _

theorem records_ids (fs : List Found) (h : ∀ i ∈ db.items, i.id < db.nextItem) :
    (∀ i ∈ (fs.foldl (record settings now) db).items, i.id < (fs.foldl (record settings now) db).nextItem) ∧
      db.nextItem ≤ (fs.foldl (record settings now) db).nextItem := by
  induction fs generalizing db with
  | nil => exact ⟨h, Nat.le_refl _⟩
  | cons f fs ih =>
    obtain ⟨hids, hnext⟩ := ih (record_ids h)
    exact ⟨hids, Nat.le_trans nextItem_le_record hnext⟩

end Loop

/-- The tables in which the findings of a report are recorded. -/
def Database.expired (db : Database) (now : Nat) : Database :=
  { db with acceptances := expireAcceptances now db.acceptances }

variable {settings : Settings} {r : Report} {now : Nat} {db : Database} {item : Item}

theorem sync_acceptances : (sync settings r now db).acceptances = expireAcceptances now db.acceptances :=
  records_acceptances _

theorem sync_nextAcceptance : (sync settings r now db).nextAcceptance = db.nextAcceptance :=
  records_nextAcceptance _

theorem sync_ids (h : ∀ i ∈ db.items, i.id < db.nextItem) :
    (∀ i ∈ (sync settings r now db).items, i.id < (sync settings r now db).nextItem) ∧
      db.nextItem ≤ (sync settings r now db).nextItem := by
  obtain ⟨hids, hnext⟩ := @records_ids settings now (db.expired now) r.distinct h
  refine ⟨fun item hitem => ?_, hnext⟩
  obtain ⟨i, hi, rfl⟩ := List.mem_map.mp hitem
  rw [(settle_same now i r _).id]
  exact hids i hi

/-- After a synchronisation an item was treated by a finding, or it was settled as none is about it. -/
theorem mem_sync (h : item ∈ (sync settings r now db).items) :
    (∃ f ∈ r.distinct, Treated settings now (db.expired now) f item) ∨
      ∃ i ∈ db.items, i.key ∉ r.distinct.map Found.key ∧ item = settle r now (r.distinct.map Found.key) i := by
  obtain ⟨i, hi, rfl⟩ := List.mem_map.mp h
  rcases mem_records r.distinct (nodup_firstBy [] _) hi with ⟨hmem, hkey⟩ | ⟨f, hf, htreated⟩
  · exact Or.inr ⟨i, hmem, hkey, rfl⟩
  · have hseen : i.key ∈ r.distinct.map Found.key := htreated.key ▸ List.mem_map_of_mem hf
    rw [settle, if_pos (Or.inl hseen)]
    exact Or.inl ⟨f, hf, htreated⟩

end Items
