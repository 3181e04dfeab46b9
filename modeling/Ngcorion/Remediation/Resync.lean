import Ngcorion.Remediation.Acceptances

/-!
# A second synchronisation

The synchronisation writes an event for what it does to an item. Run again over the
same reports it should find nothing to do, and a problem that came back should have
its whole deadline ahead.
-/
namespace Resync

open Text FirstBy Items Acceptances

/-! ## The history -/

inductive Kind where
  | created (dueAt : Nat)
  | assigned (ownerId : Nat)
  | reopened
  | accepted (acceptanceId expiresAt : Nat)
  | acceptedInSource
  | acceptanceEnded (acceptanceId : Option Nat)
  | hardened
  | resolved (reason : Reason)
  deriving DecidableEq

/-- `_event` -/
structure Event where
  itemId : Nat
  kind : Kind
  date : Nat
  deriving DecidableEq

/-- What is written when acceptances and hardenings are applied to an item. -/
def acceptanceEvents (acceptances : List Acceptance) (now : Nat) (f : Found) (item : Item) : List Event :=
  match covering acceptances now item with
  | some acc =>
    if item.status ≠ .accepted ∨ item.acceptanceId ≠ some acc.id then
      [⟨item.id, .accepted acc.id acc.expiresAt, now⟩]
    else []
  | none =>
    if f.sourceAccepted then
      if item.status ≠ .accepted ∨ item.acceptanceId ≠ none then [⟨item.id, .acceptedInSource, now⟩] else []
    else if item.status = .accepted then [⟨item.id, .acceptanceEnded item.acceptanceId, now⟩]
    else if f.hardened ∧ (item.status = .isOpen ∨ item.status = .inProgress) then [⟨item.id, .hardened, now⟩]
    else []

/-- What an item is before acceptances are applied to it. -/
def update (settings : Settings) (now : Nat) (f : Found) (item : Item) : Item :=
  refresh settings now f (reopen settings now f item)

/-- What is written for one finding. -/
def recordEvents (settings : Settings) (owners : Nat → Option Nat) (now : Nat) (db : Database) (f : Found) : List Event :=
  match db.items.find? (fun i => i.key = f.key) with
  | none =>
    let item := create settings now db.nextItem f
    ⟨item.id, .created item.dueAt, now⟩ :: ((owners f.assetId).toList.map (fun o => ⟨item.id, .assigned o, now⟩)
      ++ acceptanceEvents db.acceptances now f item)
  | some item =>
    (if item.status = .resolved then [⟨item.id, .reopened, now⟩] else [])
      ++ acceptanceEvents db.acceptances now f (update settings now f item)

/-- The events of the findings, each written to the tables as the ones before it left them. -/
def recordsEvents (settings : Settings) (owners : Nat → Option Nat) (now : Nat) : Database → List Found → List Event
  | _, [] => []
  | db, f :: fs =>
    recordEvents settings owners now db f ++ recordsEvents settings owners now (record settings now db f) fs

/-- What is written when an item that is not among the keys seen is closed. -/
def settleEvents (r : Report) (now : Nat) (seen : List Key) (item : Item) : List Event :=
  if item.key ∈ seen ∨ item.status = .resolved then [] else
    match closeReason r item with
    | none => []
    | some reason => [⟨item.id, .resolved reason, now⟩]

/-- All events of a synchronisation. -/
def syncEvents (settings : Settings) (owners : Nat → Option Nat) (r : Report) (now : Nat) (db : Database) : List Event :=
  recordsEvents settings owners now (db.expired now) r.distinct
    ++ (r.distinct.foldl (record settings now) (db.expired now)).items.flatMap
      (settleEvents r now (r.distinct.map Found.key))

/-! ## What is expected -/

/-- The part of an item that a second synchronisation has to leave. -/
def decision (item : Item) : Status × Option Reason × Option Nat × Nat :=
  (item.status, item.closedReason, item.acceptanceId, item.dueAt)

/-- No acceptance ends after the first moment and up to the second. -/
def Quiet (db : Database) (now later : Nat) : Prop :=
  ∀ a ∈ db.acceptances, a.status = .approved → ¬ (now < a.expiresAt ∧ a.expiresAt ≤ later)

/-- A second synchronisation changes no decision and writes no event. -/
def Settled (settings : Settings) (owners : Nat → Option Nat) (r : Report) (now later : Nat) (db : Database) : Prop :=
  let first := sync settings r now db
  (sync settings r later first).items.map decision = first.items.map decision ∧
    syncEvents settings owners r later first = []

/-- A new item, or one that was resolved and is not any more. -/
def Begun (db : Database) (item : Item) : Prop :=
  (∀ i ∈ db.items, i.key ≠ item.key) ∨
    ∃ i ∈ db.items, i.key = item.key ∧ i.status = .resolved ∧ item.status ≠ .resolved

/-- What is new or came back has its whole deadline ahead. -/
def FullTime (settings : Settings) (r : Report) (now : Nat) (db : Database) : Prop :=
  ∀ item ∈ (sync settings r now db).items, Begun db item → item.dueCustom = false →
    item.dueAt = slaDue settings now item.severity item.kev

/-- An acceptance that is over hides that the problem was hardened. -/
def Hidden (acceptances : List Acceptance) (now : Nat) (f : Found) (item : Item) : Prop :=
  item.status = .accepted ∧ covering acceptances now item = none ∧ f.sourceAccepted = false ∧ f.hardened = true

/-- A problem came back with another severity than it had, and counts from when it was seen first. -/
def Shortened (now : Nat) (f : Found) (item : Item) : Prop :=
  item.status = .resolved ∧ item.dueCustom = false ∧ (item.severity, item.kev) ≠ (f.severity, f.kev) ∧
    item.firstSeenAt ≠ now

/-! ## One item -/

section Item

variable {settings : Settings} {acceptances : List Acceptance} {now later : Nat} {f : Found} {item : Item}

/-- All that is done to an item for one finding. -/
def treat (settings : Settings) (acceptances : List Acceptance) (now : Nat) (f : Found) (item : Item) : Item :=
  applyAcceptance settings acceptances now f (update settings now f item)

theorem update_same : SameProblem item (update settings now f item) :=
  (reopen_same settings now f item).trans (refresh_same settings now f _)

theorem treat_same : SameProblem item (treat settings acceptances now f item) :=
  update_same.trans (applyAcceptance_same settings acceptances now f _)

/-- What was applied once is not applied again, except that an item set open again may be found hardened. -/
theorem applied_again {others : List Acceptance} (hlater : covering others later item = covering acceptances now item) :
    acceptanceEvents others later f (applyAcceptance settings acceptances now f item) = [] ↔
      ¬ Hidden acceptances now f item := by
  have hcover : covering others later (applyAcceptance settings acceptances now f item)
      = covering acceptances now item := (covering_same (applyAcceptance_same settings acceptances now f item)).trans hlater
  unfold acceptanceEvents Hidden
  rw [hcover]
  unfold applyAcceptance
  cases hc : covering acceptances now item with
  | some acc => simp
  | none =>
    by_cases hsource : f.sourceAccepted = true
    · simp [hsource]
    · by_cases hacc : item.status = .accepted
      · simp [hsource, hacc]
      · by_cases hhard : f.hardened = true ∧ (item.status = .isOpen ∨ item.status = .inProgress)
        · simp [hsource, hacc, hhard]
        · simp [hsource, hacc, hhard]

/-- Nothing is done without an event. -/
theorem applyAcceptance_quiet (h : acceptanceEvents acceptances now f item = []) :
    applyAcceptance settings acceptances now f item = item := by
  unfold acceptanceEvents at h
  unfold applyAcceptance
  cases hc : covering acceptances now item with
  | some acc =>
    rw [hc] at h
    have hsame : item.status = .accepted ∧ item.acceptanceId = some acc.id := by
      by_contra hne
      simp [not_and_or.mp hne] at h
    simp [← hsame.1, ← hsame.2]
  | none =>
    rw [hc] at h
    by_cases hsource : f.sourceAccepted = true
    · have hsame : item.status = .accepted ∧ item.acceptanceId = none := by
        by_contra hne
        simp [hsource, not_and_or.mp hne] at h
      simp [hsource, ← hsame.1, ← hsame.2]
    · by_cases hacc : item.status = .accepted
      · simp [hsource, hacc] at h
      · by_cases hhard : f.hardened = true ∧ (item.status = .isOpen ∨ item.status = .inProgress)
        · simp [hsource, hacc, hhard] at h
        · simp [hsource, hacc, hhard]

/-- An item that is not resolved and has the severity reported keeps its decision when it is taken over. -/
theorem decision_update (hres : item.status ≠ .resolved) (hsame : (item.severity, item.kev) = (f.severity, f.kev)) :
    decision (update settings now f item) = decision item := by
  simp [update, reopen, hres, refresh, hsame, decision]

theorem treat_grade : ((treat settings acceptances now f item).severity, (treat settings acceptances now f item).kev)
    = (f.severity, f.kev) := by
  obtain ⟨hseverity, hkev⟩ := applyAcceptance_grade settings acceptances now f (update settings now f item)
  exact Prod.ext hseverity hkev

/-- The status after the update is the one before, unless the item was resolved. -/
theorem update_accepted : (update settings now f item).status = .accepted ↔ item.status = .accepted := by
  unfold update refresh reopen
  by_cases hres : item.status = .resolved <;> simp [hres]

theorem hidden_update : Hidden acceptances now f (update settings now f item) ↔ Hidden acceptances now f item := by
  unfold Hidden
  rw [update_accepted, covering_same update_same]

/-- The deadline of a problem that came back. -/
theorem treat_reopened (hres : item.status = .resolved) (hcustom : item.dueCustom = false) :
    (treat settings acceptances now f item).dueAt =
      slaDue settings (if (item.severity, item.kev) ≠ (f.severity, f.kev) then item.firstSeenAt else now)
        f.severity f.kev := by
  have hopen : (update settings now f item).status = .isOpen := by simp [update, reopen, refresh, hres]
  have hkept : (treat settings acceptances now f item).dueAt = (update settings now f item).dueAt := by
    unfold treat applyAcceptance
    cases covering acceptances now (update settings now f item) with
    | some acc => rfl
    | none =>
      simp only [hopen, reduceCtorEq, if_false]
      split_ifs <;> rfl
  rw [hkept]
  by_cases hsame : (item.severity, item.kev) = (f.severity, f.kev)
  · simp only [update, reopen, refresh, hres, if_true, hcustom, hsame]
    simp
  · simp only [update, reopen, refresh, hres, if_true, hcustom]
    simp [hsame]

theorem treat_dueCustom : (treat settings acceptances now f item).dueCustom = item.dueCustom := by
  unfold treat applyAcceptance update refresh reopen
  cases covering acceptances now _ with
  | some acc => simp only; split <;> rfl
  | none => simp only; split_ifs <;> rfl

end Item

/-! ## All findings -/

section Loop

variable {settings : Settings} {owners : Nat → Option Nat} {now : Nat} {db : Database} {f : Found} {item : Item}

/-- Among findings with keys of their own, the one with a given key is found. -/
theorem find_key {fs : List Found} (hfs : (fs.map Found.key).Nodup) (hf : f ∈ fs) {k : Key} (hkey : f.key = k) :
    fs.find? (fun g => g.key = k) = some f := by
  cases hfind : fs.find? (fun g => g.key = k) with
  | none => exact absurd hkey (by simpa using List.find?_eq_none.mp hfind f hf)
  | some g =>
    have hg : g.key = k := by simpa using List.find?_some hfind
    rw [List.inj_on_of_nodup_map hfs (List.mem_of_find?_eq_some hfind) hf (hg.trans hkey.symm)]

/-- What the findings do to an item: the one with its key, when there is one, treats it. -/
def treatBy (settings : Settings) (acceptances : List Acceptance) (now : Nat) (fs : List Found) (item : Item) : Item :=
  match fs.find? (fun f => f.key = item.key) with
  | some f => treat settings acceptances now f item
  | none => item

theorem record_known (h : ∃ i ∈ db.items, i.key = f.key) :
    record settings now db f = { db with items := db.items.map (fun i =>
      if i.key = f.key then treat settings db.acceptances now f i else i) } := by
  have hany : db.items.any (fun i => i.key = f.key) = true := by simpa using h
  rw [record, if_pos hany]
  rfl

theorem key_kept (acceptances : List Acceptance) (i : Item) :
    (if i.key = f.key then treat settings acceptances now f i else i).key = i.key := by
  split
  · exact treat_same.key
  · rfl

theorem treatBy_same (acceptances : List Acceptance) (fs : List Found) :
    SameProblem item (treatBy settings acceptances now fs item) := by
  unfold treatBy
  split
  · exact treat_same
  · exact ⟨rfl, rfl, rfl, rfl, rfl⟩

/-- The first finding does its part, then the others do theirs. -/
theorem treatBy_cons {fs : List Found} (hf : f.key ∉ fs.map Found.key) (acceptances : List Acceptance) (i : Item) :
    treatBy settings acceptances now fs (if i.key = f.key then treat settings acceptances now f i else i)
      = treatBy settings acceptances now (f :: fs) i := by
  by_cases hkey : i.key = f.key
  · have hnone : fs.find? (fun g => g.key = (treat settings acceptances now f i).key) = none := by
      rw [treat_same.key, hkey]
      refine List.find?_eq_none.mpr fun g hg => ?_
      simpa using fun heq : g.key = f.key => hf (heq ▸ List.mem_map_of_mem hg)
    simp [treatBy, hkey, hnone]
  · simp [treatBy, hkey, Ne.symm hkey]

/-- Over items that are all there, the findings treat each with the one that has its key. -/
theorem records_items {fs : List Found} (hfs : (fs.map Found.key).Nodup)
    (h : ∀ f ∈ fs, ∃ i ∈ db.items, i.key = f.key) :
    (fs.foldl (record settings now) db).items = db.items.map (treatBy settings db.acceptances now fs) := by
  induction fs generalizing db with
  | nil => exact (List.map_id db.items).symm
  | cons f fs ih =>
    rw [List.map_cons, List.nodup_cons] at hfs
    have hrecord := @record_known settings now db f (h f List.mem_cons_self)
    rw [List.foldl_cons, ih hfs.2, record_acceptances, hrecord, List.map_map]
    · exact List.map_congr_left fun i _ => treatBy_cons hfs.1 db.acceptances i
    · intro g hg
      obtain ⟨i, hi, hkey⟩ := h g (List.mem_cons_of_mem f hg)
      rw [hrecord]
      exact ⟨_, List.mem_map_of_mem hi, (key_kept db.acceptances i).trans hkey⟩

/-- An item that was there is treated also when findings make new ones. -/
theorem treatBy_mem {fs : List Found} (hfs : (fs.map Found.key).Nodup) (hitem : item ∈ db.items) :
    treatBy settings db.acceptances now fs item ∈ (fs.foldl (record settings now) db).items := by
  induction fs generalizing db item with
  | nil => exact hitem
  | cons f fs ih =>
    rw [List.map_cons, List.nodup_cons] at hfs
    rw [← treatBy_cons hfs.1 db.acceptances item, List.foldl_cons, ← @record_acceptances settings now db f]
    refine ih hfs.2 ?_
    rw [record_acceptances]
    by_cases hknown : ∃ i ∈ db.items, i.key = f.key
    · rw [record_known hknown]
      exact List.mem_map_of_mem hitem
    · have hany : ¬ (db.items.any (fun i => i.key = f.key) = true) := by simpa using hknown
      rw [record, if_neg hany, if_neg (fun hkey => hknown ⟨item, hitem, hkey⟩)]
      exact List.mem_append_left _ hitem

theorem treat_mem {fs : List Found} (hfs : (fs.map Found.key).Nodup) (hf : f ∈ fs) (hitem : item ∈ db.items)
    (hkey : item.key = f.key) :
    treat settings db.acceptances now f item ∈ (fs.foldl (record settings now) db).items := by
  have hfind : fs.find? (fun g => g.key = item.key) = some f := find_key hfs hf hkey.symm
  have hmem := @treatBy_mem settings now db item fs hfs hitem
  rwa [treatBy, hfind] at hmem

/-- A finding with another key finds its item as it was. -/
theorem find_record (g : Found) (hne : g.key ≠ f.key) :
    (record settings now db f).items.find? (fun i => i.key = g.key) = db.items.find? (fun i => i.key = g.key) := by
  by_cases hknown : ∃ i ∈ db.items, i.key = f.key
  · rw [record_known hknown, List.find?_map]
    have hsame : ((fun i : Item => decide (i.key = g.key)) ∘ fun i =>
        if i.key = f.key then treat settings db.acceptances now f i else i) = fun i => decide (i.key = g.key) := by
      funext i
      simp only [Function.comp_apply, key_kept]
    rw [hsame]
    cases hfind : db.items.find? (fun i => i.key = g.key) with
    | none => rfl
    | some i =>
      have hkey : i.key = g.key := by simpa using List.find?_some hfind
      simp [hkey, hne]
  · have hany : ¬ (db.items.any (fun i => i.key = f.key) = true) := by simpa using hknown
    have hkey : (applyAcceptance settings db.acceptances now f (create settings now db.nextItem f)).key = f.key :=
      (applyAcceptance_same settings db.acceptances now f _).key
    rw [record, if_neg hany, List.find?_append]
    simp [hkey, Ne.symm hne]

/-- A finding whose item is there writes what it would have written before the others. -/
theorem recordEvents_record {g : Found} (hne : g.key ≠ f.key) (hknown : ∃ i ∈ db.items, i.key = g.key) :
    recordEvents settings owners now (record settings now db f) g = recordEvents settings owners now db g := by
  rw [recordEvents, recordEvents, find_record g hne, record_acceptances]
  cases hfind : db.items.find? (fun i => i.key = g.key) with
  | some i => rfl
  | none =>
    obtain ⟨i, hi, hkey⟩ := hknown
    exact absurd hkey (by simpa using List.find?_eq_none.mp hfind i hi)

theorem known_record {g : Found} (h : ∃ i ∈ db.items, i.key = g.key) :
    ∃ i ∈ (record settings now db f).items, i.key = g.key := by
  obtain ⟨i, hi, hkey⟩ := h
  by_cases hknown : ∃ i ∈ db.items, i.key = f.key
  · rw [record_known hknown]
    exact ⟨_, List.mem_map_of_mem hi, (key_kept db.acceptances i).trans hkey⟩
  · have hany : ¬ (db.items.any (fun i => i.key = f.key) = true) := by simpa using hknown
    rw [record, if_neg hany]
    exact ⟨i, List.mem_append_left _ hi, hkey⟩

theorem recordsEvents_known {fs : List Found} (hfs : (fs.map Found.key).Nodup)
    (h : ∀ f ∈ fs, ∃ i ∈ db.items, i.key = f.key) :
    recordsEvents settings owners now db fs = fs.flatMap (recordEvents settings owners now db) := by
  induction fs generalizing db with
  | nil => rfl
  | cons f fs ih =>
    rw [List.map_cons, List.nodup_cons] at hfs
    rw [recordsEvents, List.flatMap_cons, ih hfs.2 (fun g hg => known_record (h g (List.mem_cons_of_mem f hg)))]
    congr 1
    refine List.flatMap_congr fun g hg => recordEvents_record ?_ (h g (List.mem_cons_of_mem f hg))
    intro heq
    exact hfs.1 (heq ▸ List.mem_map_of_mem hg)

/-- Every finding has an item after it was recorded. -/
theorem has_item {fs : List Found} (hfs : (fs.map Found.key).Nodup) (hf : f ∈ fs) :
    ∃ i ∈ (fs.foldl (record settings now) db).items, i.key = f.key := by
  induction fs generalizing db with
  | nil => simp at hf
  | cons g fs ih =>
    rw [List.map_cons, List.nodup_cons] at hfs
    rcases List.mem_cons.mp hf with rfl | hf
    · obtain ⟨i, hi, hkey⟩ : ∃ i ∈ (record settings now db f).items, i.key = f.key := by
        unfold record
        split
        · rename_i hany
          obtain ⟨i, hi, hkey⟩ := List.any_eq_true.mp hany
          exact ⟨_, List.mem_map_of_mem hi, (key_kept db.acceptances i).trans (by simpa using hkey)⟩
        · exact ⟨_, List.mem_append_right _ (List.mem_singleton_self _),
            (applyAcceptance_same settings db.acceptances now f _).key⟩
      exact ⟨_, @treatBy_mem settings now _ i fs hfs.2 hi, (treatBy_same _ fs).key.trans hkey⟩
    · exact ih hfs.2 hf

theorem record_keys (h : (db.items.map Item.key).Nodup) : ((record settings now db f).items.map Item.key).Nodup := by
  by_cases hknown : ∃ i ∈ db.items, i.key = f.key
  · have hsame : (Item.key ∘ fun i => if i.key = f.key then treat settings db.acceptances now f i else i) = Item.key := by
      funext i
      exact key_kept db.acceptances i
    rw [record_known hknown, List.map_map, hsame]
    exact h
  · have hany : ¬ (db.items.any (fun i => i.key = f.key) = true) := by simpa using hknown
    rw [record, if_neg hany, List.map_append, List.nodup_append]
    refine ⟨h, List.nodup_singleton _, fun k hk k' hk' heq => ?_⟩
    obtain ⟨i, hi, rfl⟩ := List.mem_map.mp hk
    rw [List.mem_singleton.mp hk', (applyAcceptance_same settings db.acceptances now f _).key] at heq
    exact hknown ⟨i, hi, heq⟩

theorem records_keys (fs : List Found) (h : (db.items.map Item.key).Nodup) :
    ((fs.foldl (record settings now) db).items.map Item.key).Nodup := by
  induction fs generalizing db with
  | nil => exact h
  | cons f fs ih => exact ih (record_keys h)

end Loop

/-! ## Acceptances at two moments -/

section Acceptances

variable {db : Database} {acceptances : List Acceptance} {now later : Nat} {item : Item}

/-- Rows that are looked for are found after a change of the others. -/
theorem find_map {p q : Acceptance → Bool} {e : Acceptance → Acceptance} {l : List Acceptance}
    (hp : ∀ a ∈ l, q (e a) = p a) (hkeep : ∀ a ∈ l, p a = true → e a = a) : (l.map e).find? q = l.find? p := by
  induction l with
  | nil => rfl
  | cons a l ih =>
    have hrest := ih (fun a h => hp a (List.mem_cons_of_mem _ h)) (fun a h => hkeep a (List.mem_cons_of_mem _ h))
    rw [List.map_cons, List.find?_cons, List.find?_cons, hp a List.mem_cons_self, hrest]
    cases hpa : p a with
    | true => rw [hkeep a List.mem_cons_self hpa]
    | false => rfl

/-- What covers an item is the same under a change that leaves the acceptances in force. -/
theorem covering_map {e : Acceptance → Acceptance} (hactive : ∀ a ∈ acceptances, (e a).active later = a.active now)
    (hkeep : ∀ a ∈ acceptances, a.active now = true → e a = a) :
    covering (acceptances.map e) later item = covering acceptances now item := by
  have hfind : ∀ p : Acceptance → Bool, ((acceptances.map e).reverse.find? fun a => a.active later && p a)
      = acceptances.reverse.find? fun a => a.active now && p a := by
    intro p
    rw [← List.map_reverse]
    refine find_map (fun a ha => ?_) (fun a ha hp => hkeep a (List.mem_reverse.mp ha) (Bool.and_eq_true _ _ ▸ hp).1)
    have hsame := hactive a (List.mem_reverse.mp ha)
    cases hnow : a.active now with
    | true =>
      rw [hkeep a (List.mem_reverse.mp ha) hnow] at hsame ⊢
      rw [hsame, hnow]
    | false => rw [hsame, hnow, Bool.false_and, Bool.false_and]
  simp only [covering, byItem, byRef, Bool.and_assoc] at hfind ⊢
  rw [hfind, hfind]

theorem covering_expired : covering (db.expired now).acceptances now item = covering db.acceptances now item := by
  refine covering_map (fun a _ => ?_) (fun a _ hactive => ?_)
  · split
    · rename_i hend
      simp [Acceptance.active, hend.1, Nat.not_lt.mpr hend.2]
    · rfl
  · exact if_neg fun hend => Nat.not_lt.mpr hend.2 (active_iff.mp hactive).2

/-- Where no acceptance ends in between, the same ones are in force at the later moment. -/
theorem covering_later (hle : now ≤ later) (hquiet : Quiet db now later) :
    covering (expireAcceptances later (db.expired now).acceptances) later item = covering db.acceptances now item := by
  rw [← covering_expired]
  refine covering_map (fun a ha => ?_) (fun a ha hactive => ?_)
  all_goals obtain ⟨b, hb, rfl⟩ := List.mem_map.mp ha
  · by_cases happroved : b.status = .approved
    · have hbetween := hquiet b hb happroved
      by_cases hend : b.expiresAt ≤ now
      · simp [Acceptance.active, happroved, hend]
      · have hlater : later < b.expiresAt ↔ now < b.expiresAt :=
          ⟨Nat.lt_of_le_of_lt hle, fun h => Nat.not_le.mp fun hend => hbetween ⟨h, hend⟩⟩
        have hkept : ¬ b.expiresAt ≤ later := Nat.not_le.mpr (hlater.mpr (Nat.not_le.mp hend))
        simp [Acceptance.active, happroved, hend, hkept, hlater]
    · simp [Acceptance.active, happroved]
  · refine if_neg fun hend => ?_
    by_cases hover : b.status = .approved ∧ b.expiresAt ≤ now
    · simp [hover] at hend
    · rw [if_neg hover] at hactive hend
      obtain ⟨happroved, hlive⟩ := active_iff.mp hactive
      exact hquiet b hb happroved ⟨hlive, hend.2⟩

end Acceptances

/-! ## The second synchronisation -/

section Second

variable {settings : Settings} {owners : Nat → Option Nat} {r : Report} {now later : Nat} {db : Database} {f : Found}
  {item : Item}

/-- What is closed once is not closed again. -/
theorem settle_again {seen : List Key} : settle r later seen (settle r now seen item) = settle r now seen item ∧
    settleEvents r later seen (settle r now seen item) = [] := by
  by_cases hstays : item.key ∈ seen ∨ item.status = .resolved
  · simp [settle, settleEvents, hstays]
  · cases hreason : closeReason r item with
    | none => simp [settle, settleEvents, hstays, hreason]
    | some reason => simp [settle, settleEvents, hstays, hreason]

/-- The events for an item do not depend on what it takes over. -/
theorem acceptanceEvents_update {acceptances : List Acceptance} (hres : item.status ≠ .resolved) :
    acceptanceEvents acceptances now f (update settings now f item) = acceptanceEvents acceptances now f item := by
  have hcover : covering acceptances now (update settings now f item) = covering acceptances now item :=
    covering_same update_same
  simp only [acceptanceEvents, hcover]
  simp [update, reopen, hres, refresh]

theorem treated_grade (h : Treated settings now db f item) : (item.severity, item.kev) = (f.severity, f.kev) := by
  obtain ⟨base, rfl, hbase⟩ := h
  obtain ⟨hseverity, hkev⟩ := applyAcceptance_grade settings db.acceptances now f base
  rw [hseverity, hkev]
  rcases hbase with ⟨i, -, -, rfl⟩ | ⟨-, id, -, rfl⟩ <;> rfl

/-- The second time a finding writes nothing about the item it treated, unless a hardening was hidden. -/
theorem treated_again (hle : now ≤ later) (hquiet : Quiet db now later) (h : Treated settings now (db.expired now) f item)
    (hnone : ∀ i ∈ db.items, i.key = f.key → ¬ Hidden db.acceptances now f i) :
    acceptanceEvents (expireAcceptances later (db.expired now).acceptances) later f item = [] := by
  obtain ⟨base, rfl, hbase⟩ := h
  rw [applied_again ((covering_later hle hquiet).trans covering_expired.symm)]
  rcases hbase with ⟨i, hi, hkey, rfl⟩ | ⟨-, id, -, rfl⟩
  · intro hhidden
    have hitem := hidden_update.mp hhidden
    rw [Hidden, covering_expired] at hitem
    exact hnone i hi hkey hitem
  · exact fun hhidden => by simp [Hidden, create] at hhidden

/-- Where a hardening was hidden, it is found the second time. -/
theorem hidden_again (hle : now ≤ later) (hquiet : Quiet db now later) (h : Hidden db.acceptances now f item) :
    acceptanceEvents (expireAcceptances later (db.expired now).acceptances) later f
      (treat settings (db.expired now).acceptances now f item) ≠ [] := by
  rw [treat, Ne, applied_again ((covering_later hle hquiet).trans covering_expired.symm), not_not, hidden_update, Hidden,
    covering_expired]
  exact h

theorem first_known (hf : f ∈ r.distinct) : ∃ i ∈ (sync settings r now db).items, i.key = f.key := by
  obtain ⟨i, hi, hkey⟩ := @has_item settings now (db.expired now) f r.distinct (nodup_firstBy [] _) hf
  exact ⟨_, List.mem_map_of_mem hi, (settle_same now i r _).key.trans hkey⟩

theorem first_keys (h : (db.items.map Item.key).Nodup) : ((sync settings r now db).items.map Item.key).Nodup := by
  have hsame : (Item.key ∘ settle r now (r.distinct.map Found.key)) = Item.key := by
    funext i
    exact (settle_same now i r _).key
  rw [sync, List.map_map, hsame]
  exact records_keys _ h

theorem first_treat (hf : f ∈ r.distinct) (hitem : item ∈ db.items) (hkey : item.key = f.key) :
    treat settings (db.expired now).acceptances now f item ∈ (sync settings r now db).items := by
  have hmem := @treat_mem settings now (db.expired now) f item r.distinct (nodup_firstBy [] _) hf hitem hkey
  have hseen : (treat settings (db.expired now).acceptances now f item).key ∈ r.distinct.map Found.key := by
    rw [treat_same.key, hkey]
    exact List.mem_map_of_mem hf
  refine List.mem_map.mpr ⟨_, hmem, ?_⟩
  rw [settle, if_pos (Or.inl hseen)]

/-- The item that a finding is about after the first synchronisation. -/
theorem first_find (hkeys : (db.items.map Item.key).Nodup) {i : Item}
    (hi : i ∈ (sync settings r now db).items) (hkey : i.key = f.key) :
    ((sync settings r now db).expired later).items.find? (fun i => i.key = f.key) = some i := by
  cases hfind : (sync settings r now db).items.find? (fun i => i.key = f.key) with
  | none => exact absurd hkey (by simpa using List.find?_eq_none.mp hfind i hi)
  | some j =>
    have hj : j.key = f.key := by simpa using List.find?_some hfind
    have hsame := List.inj_on_of_nodup_map (first_keys hkeys) (List.mem_of_find?_eq_some hfind) hi (hj.trans hkey.symm)
    exact hsame ▸ hfind

/-- What the findings write the second time, each about the item it treated before. -/
theorem second_events (hkeys : (db.items.map Item.key).Nodup) {i : Item}
    (hi : i ∈ (sync settings r now db).items) (hkey : i.key = f.key) (hres : i.status ≠ .resolved) :
    recordEvents settings owners later ((sync settings r now db).expired later) f =
      acceptanceEvents (expireAcceptances later (db.expired now).acceptances) later f i := by
  rw [recordEvents, first_find hkeys hi hkey]
  simp only [hres, if_false, List.nil_append]
  rw [acceptanceEvents_update hres]
  simp only [Database.expired, sync_acceptances]

/-- The items after the findings of the second synchronisation, one for each of the first. -/
theorem second_records (hknown : ∀ f ∈ r.distinct, ∃ i ∈ (sync settings r now db).items, i.key = f.key) :
    (r.distinct.foldl (record settings later) ((sync settings r now db).expired later)).items =
      (sync settings r now db).items.map
        (treatBy settings (expireAcceptances later (db.expired now).acceptances) later r.distinct) := by
  have hacceptances : ((sync settings r now db).expired later).acceptances
      = expireAcceptances later (db.expired now).acceptances := by simp only [Database.expired, sync_acceptances]
  have hrecords := @records_items settings later ((sync settings r now db).expired later) r.distinct
    (nodup_firstBy [] _) hknown
  rw [hacceptances] at hrecords
  exact hrecords

/-- What was settled is treated by no finding. -/
theorem treatBy_settled {acceptances : List Acceptance} (hseen : item.key ∉ r.distinct.map Found.key) :
    treatBy settings acceptances later r.distinct (settle r now (r.distinct.map Found.key) item)
      = settle r now (r.distinct.map Found.key) item := by
  have hfind : r.distinct.find? (fun g => g.key = (settle r now (r.distinct.map Found.key) item).key) = none := by
    rw [(settle_same now item r _).key]
    refine List.find?_eq_none.mpr fun g hg => ?_
    simpa using fun heq : g.key = item.key => hseen (heq ▸ List.mem_map_of_mem hg)
  rw [treatBy, hfind]

/-- The second time nothing is closed. -/
theorem second_closing (hitem : item ∈ (sync settings r now db).items) :
    settleEvents r later (r.distinct.map Found.key)
      (treatBy settings (expireAcceptances later (db.expired now).acceptances) later r.distinct item) = [] := by
  rcases mem_sync hitem with ⟨f, hf, htreated⟩ | ⟨i, hi, hseen, rfl⟩
  · have hkey : (treatBy settings (expireAcceptances later (db.expired now).acceptances) later r.distinct item).key
        ∈ r.distinct.map Found.key := by
      rw [(treatBy_same _ _).key, htreated.key]
      exact List.mem_map_of_mem hf
    rw [settleEvents, if_pos (Or.inl hkey)]
  · rw [treatBy_settled hseen]
    exact settle_again.2

/-- Where the second time nothing is written about an item, it keeps its decision. -/
theorem second_decision (hle : now ≤ later) (hquiet : Quiet db now later)
    (hnone : ∀ f ∈ r.distinct, ∀ i ∈ db.items, i.key = f.key → ¬ Hidden db.acceptances now f i)
    (hitem : item ∈ (sync settings r now db).items) :
    decision (settle r later (r.distinct.map Found.key)
      (treatBy settings (expireAcceptances later (db.expired now).acceptances) later r.distinct item)) = decision item := by
  rcases mem_sync hitem with ⟨f, hf, htreated⟩ | ⟨i, hi, hseen, rfl⟩
  · have hfind : r.distinct.find? (fun g => g.key = item.key) = some f :=
      find_key (nodup_firstBy [] _) hf htreated.key.symm
    have hquiet' := treated_again hle hquiet htreated (hnone f hf)
    rw [← @acceptanceEvents_update settings _ _ _ _ htreated.unresolved] at hquiet'
    have htreat : treatBy settings (expireAcceptances later (db.expired now).acceptances) later r.distinct item
        = update settings later f item := by
      rw [treatBy, hfind]
      exact applyAcceptance_quiet hquiet'
    have hkey : (update settings later f item).key ∈ r.distinct.map Found.key := by
      rw [update_same.key, htreated.key]
      exact List.mem_map_of_mem hf
    rw [htreat, settle, if_pos (Or.inl hkey)]
    exact decision_update htreated.unresolved (treated_grade htreated)
  · rw [treatBy_settled hseen, settle_again.1]

/-- A second synchronisation settles exactly when no hardening was hidden. -/
theorem quietSync_iff (hkeys : (db.items.map Item.key).Nodup) (hle : now ≤ later) (hquiet : Quiet db now later) :
    Settled settings owners r now later db ↔
      ∀ f ∈ r.distinct, ∀ i ∈ db.items, i.key = f.key → ¬ Hidden db.acceptances now f i := by
  have hknown : ∀ f ∈ r.distinct, ∃ i ∈ (sync settings r now db).items, i.key = f.key := fun f hf => first_known hf
  have hevents := @recordsEvents_known settings owners later ((sync settings r now db).expired later) r.distinct
    (nodup_firstBy [] _) hknown
  constructor
  · intro h f hf i hi hkey hhidden
    have hmem := @first_treat settings r now db f i hf hi hkey
    have hwritten := (List.append_eq_nil_iff.mp h.2).1
    rw [hevents, List.flatMap_eq_nil_iff] at hwritten
    have hres : (treat settings (db.expired now).acceptances now f i).status ≠ .resolved :=
      applyAcceptance_unresolved settings _ now f _ (by simp [update, refresh, reopen_unresolved])
    have hnil := hwritten f hf
    rw [second_events hkeys hmem (treat_same.key.trans hkey) hres] at hnil
    exact hidden_again hle hquiet hhidden hnil
  · intro hnone
    refine ⟨?_, List.append_eq_nil_iff.mpr ⟨?_, ?_⟩⟩
    · have hitems := congrArg (List.map (settle r later (r.distinct.map Found.key))) (@second_records settings r now later db hknown)
      refine (congrArg (List.map decision) hitems).trans ?_
      rw [List.map_map, List.map_map]
      exact List.map_congr_left fun i hi => second_decision hle hquiet hnone hi
    · rw [hevents, List.flatMap_eq_nil_iff]
      intro f hf
      obtain ⟨i, hi, hkey⟩ := hknown f hf
      rcases mem_sync hi with ⟨g, hg, htreated⟩ | ⟨j, -, hseen, rfl⟩
      · have hsame : g = f := List.inj_on_of_nodup_map (nodup_firstBy [] _) hg hf (htreated.key.symm.trans hkey)
        subst hsame
        rw [second_events hkeys hi hkey htreated.unresolved]
        exact treated_again hle hquiet htreated (hnone g hg)
      · have hsame : j.key = f.key := (settle_same now j r _).key.symm.trans hkey
        exact absurd (List.mem_map.mpr ⟨f, hf, hsame.symm⟩) hseen
    · rw [second_records hknown, List.flatMap_eq_nil_iff]
      intro i hi
      obtain ⟨j, hj, rfl⟩ := List.mem_map.mp hi
      exact second_closing hj

end Second

/-! ## The deadline -/

section Deadline

variable {settings : Settings} {r : Report} {now : Nat} {db : Database} {f : Found} {item : Item}

theorem slaDue_inj {t t' : Nat} {severity : Severity} {kev : Bool} :
    slaDue settings t severity kev = slaDue settings t' severity kev ↔ t = t' := by
  unfold slaDue
  omega

theorem applied_open {acceptances : List Acceptance} (h : item.status = .isOpen) :
    (applyAcceptance settings acceptances now f item).dueAt = item.dueAt := by
  unfold applyAcceptance
  cases covering acceptances now item with
  | some acc => rfl
  | none =>
    simp only [h, reduceCtorEq, if_false]
    split_ifs <;> rfl

/-- What came back has its whole time unless its severity changed after it was seen first. -/
theorem reopened_due {acceptances : List Acceptance} (hres : item.status = .resolved) (hcustom : item.dueCustom = false) :
    (treat settings acceptances now f item).dueAt = slaDue settings now f.severity f.kev ↔ ¬ Shortened now f item := by
  rw [treat_reopened hres hcustom, slaDue_inj]
  by_cases hsame : (item.severity, item.kev) = (f.severity, f.kev) <;> simp [Shortened, hres, hcustom, hsame]

theorem fullTime_iff (hkeys : (db.items.map Item.key).Nodup) : FullTime settings r now db ↔
    ∀ f ∈ r.distinct, ∀ i ∈ db.items, i.key = f.key → ¬ Shortened now f i := by
  constructor
  · intro h f hf i hi hkey hshort
    have hmem := @first_treat settings r now db f i hf hi hkey
    have hgrade := @treat_grade settings (db.expired now).acceptances now f i
    have hres : (treat settings (db.expired now).acceptances now f i).status ≠ .resolved :=
      applyAcceptance_unresolved settings _ now f _ (by simp [update, refresh, reopen_unresolved])
    have hdue := h _ hmem (Or.inr ⟨i, hi, treat_same.key.symm, hshort.1, hres⟩) (treat_dueCustom.trans hshort.2.1)
    rw [(Prod.mk.inj hgrade).1, (Prod.mk.inj hgrade).2, reopened_due hshort.1 hshort.2.1] at hdue
    exact hdue hshort
  · intro hnone item hitem hbegun hcustom
    rcases mem_sync hitem with ⟨f, hf, htreated⟩ | ⟨i, hi, -, rfl⟩
    · obtain ⟨hseverity, hkev⟩ := Prod.mk.inj (treated_grade htreated)
      rw [hseverity, hkev]
      obtain ⟨base, rfl, ⟨i, hi, hkey, rfl⟩ | ⟨-, id, -, rfl⟩⟩ := htreated
      · have hsame : (treat settings (db.expired now).acceptances now f i).key = i.key := treat_same.key
        have hres : i.status = .resolved := by
          rcases hbegun with hnew | ⟨j, hj, hjkey, hjres, -⟩
          · exact absurd hsame.symm (hnew i hi)
          · rwa [← List.inj_on_of_nodup_map hkeys hj hi (hjkey.trans hsame)]
        have hicustom : i.dueCustom = false := treat_dueCustom.symm.trans hcustom
        exact (reopened_due hres hicustom).mpr (hnone f hf i hi hkey)
      · exact applied_open rfl
    · have hsame := (settle_same now i r (r.distinct.map Found.key)).key
      rcases hbegun with hnew | ⟨j, hj, hjkey, hjres, hopen⟩
      · exact absurd hsame.symm (hnew i hi)
      · have hji : j = i := List.inj_on_of_nodup_map hkeys hj hi (hjkey.trans hsame)
        subst hji
        rw [settle, if_pos (Or.inr hjres)] at hopen
        exact absurd hjres hopen

end Deadline

/-- A synchronisation is settled after one run and gives what came back its whole time exactly
when no acceptance that is over hides a hardening and nothing came back with another severity. -/
theorem resync_iff (settings : Settings) (owners : Nat → Option Nat) (r : Report) {now later : Nat} {db : Database}
    (hkeys : (db.items.map Item.key).Nodup) (hle : now ≤ later) (hquiet : Quiet db now later) :
    Settled settings owners r now later db ∧ FullTime settings r now db ↔
      ∀ f ∈ r.distinct, ∀ i ∈ db.items, i.key = f.key →
        ¬ Hidden db.acceptances now f i ∧ ¬ Shortened now f i := by
  rw [quietSync_iff hkeys hle hquiet, fullTime_iff hkeys]
  constructor
  · exact fun h f hf i hi hkey => ⟨h.1 f hf i hi hkey, h.2 f hf i hi hkey⟩
  · exact fun h => ⟨fun f hf i hi hkey => (h f hf i hi hkey).1, fun f hf i hi hkey => (h f hf i hi hkey).2⟩

/-! ## Where it fails -/

/-- A failed audit check of asset 7. -/
def failedCheck (severity : Severity) (hardened : Bool) : Found where
  key := ⟨.audit, 7, lit "5.2.1"⟩
  source := .audit
  ref := lit "5.2.1"
  assetId := 7
  severity := severity
  kev := false
  hardened := hardened
  sourceAccepted := false

def failing (severity : Severity) (hardened : Bool) : Report :=
  ⟨some [], [failedCheck severity hardened], [7], [], [], [], [], [], [7]⟩

/-- The item of that check, resolved on day 10, or accepted under acceptance 3. -/
def checkItem (status : Status) (acceptanceId : Option Nat) : Item where
  id := 1
  key := ⟨.audit, 7, lit "5.2.1"⟩
  source := .audit
  ref := lit "5.2.1"
  assetId := some 7
  severity := .medium
  kev := false
  status := status
  dueAt := 90 * day
  dueCustom := false
  acceptanceId := acceptanceId
  firstSeenAt := 0
  lastSeenAt := 10 * day
  resolvedAt := if status = .resolved then some (10 * day) else none
  closedReason := if status = .resolved then some .fixed else none
  reopened := 0

def acceptedUntil (expiresAt : Nat) : Acceptance :=
  ⟨3, .item, .audit, lit "5.2.1", some 1, .medium, false, expiresAt, .approved, 5, 0, none⟩

/-- An acceptance ended on day 20 and the check was hardened: on day 30 its item is opened, and a
synchronisation a day later finds it hardened. A check resolved as medium comes back on day 100 as
high, and its deadline is the thirtieth day. -/
theorem unsettled_and_short :
    let accepted : Database := ⟨[checkItem .accepted (some 3)], [acceptedUntil (20 * day)], 2, 4⟩
    let resolved : Database := ⟨[checkItem .resolved none], [], 2, 1⟩
    let first := sync .default (failing .medium true) (30 * day) accepted
    (∀ a ∈ accepted.acceptances, ¬ (30 * day < a.expiresAt ∧ a.expiresAt ≤ 31 * day)) ∧
      first.items.map Item.status = [.isOpen] ∧
      (sync .default (failing .medium true) (31 * day) first).items.map Item.status = [.pendingVerification] ∧
      syncEvents .default (fun _ => none) (failing .medium true) (31 * day) first = [⟨1, .hardened, 31 * day⟩] ∧
      (sync .default (failing .high false) (100 * day) resolved).items.map (fun i => (i.status, i.dueAt))
        = [(.isOpen, 30 * day)] ∧
      slaDue .default (100 * day) .high false = 130 * day := by
  with_unfolding_all decide

/-- A resolved check that comes back as it was settles at once and has its whole time. -/
theorem resync_unchanged :
    let db : Database := ⟨[checkItem .resolved none], [], 2, 1⟩
    Settled .default (fun _ => none) (failing .medium true) (100 * day) (101 * day) db ∧
      FullTime .default (failing .medium true) (100 * day) db := by
  intro db
  have hkeys : (db.items.map Item.key).Nodup := by simp [db]
  have hquiet : Quiet db (100 * day) (101 * day) := by simp [Quiet, db]
  refine (resync_iff .default (fun _ => none) (failing .medium true) hkeys (by decide) hquiet).mpr
    fun f hf i hi hkey => ?_
  obtain rfl : i = checkItem .resolved none := by simpa [db] using hi
  obtain rfl : f = failedCheck .medium true := by
    simpa [failing, Report.found] using mem_of_mem_firstBy hf
  exact ⟨by simp [Hidden, checkItem], by simp [Shortened, checkItem, failedCheck]⟩

end Resync
