import Ngcorion.Remediation.Evidence

/-!
# The audit findings of the risk score

The risk score counts the failed controls of the latest audit session of an asset that is not
running, without those that an accepted item covers. The synchronisation keeps an item for the
failed controls of the latest completed session.
-/
namespace AuditRisk

open Text FirstBy Transition Items Evidence

/-! ## The risk of an asset -/

/-- The settings that are read: the weights by name, and the scores without data. -/
structure RiskSettings where
  weight : Str → Option Rat
  unknownAuditScore : Rat
  noHardeningDataScore : Rat

structure HardeningAction where
  auditResultId : Nat
  actionType : Str
  status : Str
  verificationPassed : Option Bool

/-- `_severity_weight` with the prefix of the findings -/
def severityWeight (settings : RiskSettings) (severity : Option Str) : Rat :=
  let key := lower (strip (if given severity then severity.getD [] else lit "medium"))
  ((settings.weight key).or
    (settings.weight (if severity = some (lit "info") then lit "low" else lit "medium"))).getD 0

def startedLater (s t : AuditSession) : Prop := t.startedAt ≤ s.startedAt

instance : DecidableRel startedLater := fun s t => inferInstanceAs (Decidable (t.startedAt ≤ s.startedAt))

instance : Std.Total startedLater := ⟨fun s t => by unfold startedLater; omega⟩

instance : IsTrans AuditSession startedLater := ⟨fun s t u hst htu => by unfold startedLater at *; omega⟩

/-- The latest session of an asset that is not running; of equal starts the first one of the table. -/
def riskSession (sessions : List AuditSession) (assetId : Nat) : Option AuditSession :=
  ((sessions.filter fun s => s.assetId = some assetId && s.status ≠ .running).insertionSort startedLater).head?

/-- `accepted_refs` -/
def acceptedRefs (db : Database) (assetId : Nat) (source : Source) : List Str :=
  (db.items.filter fun i =>
    i.assetId = some assetId && i.source = source && i.status = .accepted && i.acceptanceId.isSome).map fun i => i.key.rest

/-- `audit_ref` of a result -/
def auditRef (r : AuditResult) : Str := r.checkNumber.getD [] ++ r.vdomPart

structure Findings where
  critical : Nat
  high : Nat
  medium : Nat
  low : Nat

/-- A severity that is not one of the four counts as medium. -/
def Findings.add (severity : Option Str) (f : Findings) : Findings :=
  let severity := lower (if given severity then severity.getD [] else lit "medium")
  if severity = lit "critical" then { f with critical := f.critical + 1 }
  else if severity = lit "high" then { f with high := f.high + 1 }
  else if severity = lit "low" then { f with low := f.low + 1 }
  else { f with medium := f.medium + 1 }

/-- What the loop over the results counts. -/
structure Tally where
  failedWeight : Rat
  applicableWeight : Rat
  hardeningWeightFound : Rat
  hasHardeningData : Bool
  findings : Findings
  resolvedByHardening : Nat
  activeFindings : Nat
  acceptedFindings : Nat
  fixesFound : Nat

def Tally.zero : Tally := ⟨0, 0, 0, false, ⟨0, 0, 0, 0⟩, 0, 0, 0, 0⟩

/-- A verified successful execution. -/
def HardeningAction.fixed (a : HardeningAction) : Bool :=
  a.actionType ≠ lit "preview" && a.status = lit "success" && a.verificationPassed = some true

/-- The loop body for a result with its actions. -/
def addResult (settings : RiskSettings) (accepted : List Str) (actions : List HardeningAction) (t : Tally)
    (r : AuditResult) : Tally :=
  if r.status = .notApplicable ∨ r.status = .error then t
  else if r.policy = some (lit "excluded") then t
  else
    let own := actions.filter fun a => a.auditResultId = r.id
    let weight := severityWeight settings r.severity
    let t : Tally :=
      { t with
        applicableWeight := t.applicableWeight + weight
        hasHardeningData := t.hasHardeningData || !own.isEmpty
        resolvedByHardening := t.resolvedByHardening + if own.any HardeningAction.fixed then 1 else 0 }
    if r.status ≠ .fail then t
    else if auditRef r ∈ accepted then { t with acceptedFindings := t.acceptedFindings + 1 }
    else
      { t with
        failedWeight := t.failedWeight + weight
        activeFindings := t.activeFindings + 1
        findings := t.findings.add r.severity
        hardeningWeightFound := t.hardeningWeightFound + if own.isEmpty then 0 else weight
        fixesFound := t.fixesFound + if own.isEmpty then 0 else 1 }

/-- What `_audit_and_hardening_risk` returns. -/
structure Risk where
  session : Option AuditSession
  failedWeight : Option Rat
  applicableWeight : Option Rat
  score : Rat
  isUnknown : Bool
  findings : Findings
  resolvedByHardening : Nat
  activeFindings : Nat
  acceptedFindings : Nat
  hardeningRaw : Option Rat
  hardeningApplicableWeight : Option Rat
  hardeningScore : Rat
  hardeningIsUnknown : Bool
  fixesFound : Nat

/-- `_audit_and_hardening_risk`; `round` rounds to four places. -/
def auditAndHardeningRisk (settings : RiskSettings) (round : Rat → Rat) (sessions : List AuditSession)
    (actions : List HardeningAction) (db : Database) (assetId : Nat) : Risk :=
  match riskSession sessions assetId with
  | none =>
    ⟨none, none, none, settings.unknownAuditScore, true, ⟨0, 0, 0, 0⟩, 0, 0, 0, none, none, settings.noHardeningDataScore,
      true, 0⟩
  | some s =>
    let t := s.results.foldl (addResult settings (acceptedRefs db assetId .audit) actions) Tally.zero
    { session := some s
      failedWeight := some t.failedWeight
      applicableWeight := some t.applicableWeight
      score :=
        if t.applicableWeight = 0 then settings.unknownAuditScore else round (100 * t.failedWeight / t.applicableWeight)
      isUnknown := false
      findings := t.findings
      resolvedByHardening := t.resolvedByHardening
      activeFindings := t.activeFindings
      acceptedFindings := t.acceptedFindings
      hardeningRaw :=
        if t.hasHardeningData then some (if 0 < t.applicableWeight then t.hardeningWeightFound else 0) else none
      hardeningApplicableWeight := if t.hasHardeningData then some t.applicableWeight else none
      hardeningScore :=
        if t.hasHardeningData ∧ 0 < t.applicableWeight then round (100 * t.hardeningWeightFound / t.applicableWeight)
        else settings.noHardeningDataScore
      hardeningIsUnknown := !t.hasHardeningData
      fixesFound := t.fixesFound }

/-- A result is counted as an active finding. -/
def counts (accepted : List Str) (r : AuditResult) : Bool :=
  r.status = .fail && r.policy ≠ some (lit "excluded") && auditRef r ∉ accepted

/-- The results that are counted as active findings of an asset. -/
def activeResults (sessions : List AuditSession) (db : Database) (assetId : Nat) : List AuditResult :=
  ((riskSession sessions assetId).toList.flatMap AuditSession.results).filter (counts (acceptedRefs db assetId .audit))

theorem addResult_active {settings : RiskSettings} {accepted : List Str} {actions : List HardeningAction} (t : Tally)
    (r : AuditResult) : (addResult settings accepted actions t r).activeFindings =
      t.activeFindings + if counts accepted r then 1 else 0 := by
  unfold addResult counts
  cases hstatus : r.status with
  | pass => by_cases hpolicy : r.policy = some (lit "excluded") <;> simp [hpolicy]
  | notApplicable => simp
  | error => simp
  | fail =>
    by_cases hpolicy : r.policy = some (lit "excluded")
    · simp [hpolicy]
    · by_cases hmem : auditRef r ∈ accepted
      · simp [hpolicy, hmem]
      · simp [hpolicy, hmem]

/-- The count of the loop is the number of these results. -/
theorem activeFindings_eq (settings : RiskSettings) (round : Rat → Rat) (sessions : List AuditSession)
    (actions : List HardeningAction) (db : Database) (assetId : Nat) :
    (auditAndHardeningRisk settings round sessions actions db assetId).activeFindings =
      (activeResults sessions db assetId).length := by
  have hloop (accepted : List Str) (rs : List AuditResult) (t : Tally) :
      (rs.foldl (addResult settings accepted actions) t).activeFindings =
        t.activeFindings + (rs.filter (counts accepted)).length := by
    induction rs generalizing t with
    | nil => rfl
    | cons r rs ih =>
      rw [List.foldl_cons, ih, addResult_active]
      cases hcounts : counts accepted r
      · simp [hcounts]
      · simp only [hcounts, if_true, List.filter_cons_of_pos, List.length_cons]
        omega
  unfold auditAndHardeningRisk activeResults
  cases riskSession sessions assetId with
  | none => rfl
  | some s => simp [hloop, Tally.zero]

/-! ## Histories -/

/-- The audit sessions, the tables of the remediation, and the ids of assets that were deleted. -/
structure State where
  sessions : List AuditSession
  db : Database
  removed : List Nat

inductive Action where
  /-- Audits start, end or are deleted. -/
  | audits (sessions : List AuditSession)
  /-- Acceptances are requested, decided or withdrawn. -/
  | accept (acceptances : List Acceptance)
  /-- `update_item` sets the status of an item. -/
  | edit (id : Nat) (status : Items.Status)
  | remove (assetId : Nat)
  | sync (others : Others) (now : Nat)

/-- The status that a user gives to an item that is not closed. -/
def setStatus (status : Items.Status) (item : Item) : Item :=
  if (status = .isOpen ∨ status = .inProgress ∨ status = .pendingVerification) ∧ item.status ≠ .resolved ∧
      item.status ≠ .accepted then { item with status := status }
  else item

/-- The asset of an item is deleted. -/
def detach (assetId : Nat) (item : Item) : Item :=
  if item.assetId = some assetId then { item with assetId := none } else item

def step (settings : Settings) (s : State) : Action → Option State
  | .audits sessions => some { s with sessions := sessions }
  | .accept acceptances => some { s with db := { s.db with acceptances := acceptances } }
  | .edit id status =>
    some { s with db := { s.db with items := s.db.items.map fun i => if i.id = id then setStatus status i else i } }
  | .remove assetId =>
    some { s with db := { s.db with items := s.db.items.map (detach assetId) }, removed := assetId :: s.removed }
  | .sync o now => some { s with db := Items.sync settings (report s.sessions o) now s.db }

def begin : State := ⟨[], Database.empty, []⟩

/-- The other modules report findings of their own under keys of theirs, and ids are not given again. -/
def Sound (s : State) : Action → Prop
  | .sync o _ =>
    (∀ f ∈ o.cve.getD [] ++ o.arch ++ o.eol ++ o.tls,
      f.source ≠ .audit ∧ f.source = f.key.source ∧ f.assetId = f.key.assetId) ∧
      ∀ a ∈ o.assetIds, a ∉ s.removed
  | _ => True

/-- The items have keys of their own, which name their source, and their asset until it is deleted. -/
structure Inv (s : State) : Prop where
  keys : (s.db.items.map Item.key).Nodup
  source : ∀ i ∈ s.db.items, i.source = i.key.source
  asset : ∀ i ∈ s.db.items, i.assetId = some i.key.assetId ∨ i.assetId = none ∧ i.key.assetId ∈ s.removed

section Sync

variable {settings : Settings} {now : Nat} {db : Database} {f : Found}

theorem record_keys : (record settings now db f).items.map Item.key =
    if f.key ∈ db.items.map Item.key then db.items.map Item.key else db.items.map Item.key ++ [f.key] := by
  unfold record
  by_cases hmem : f.key ∈ db.items.map Item.key
  · obtain ⟨i, hi, hkey⟩ := List.mem_map.mp hmem
    rw [if_pos hmem, if_pos (List.any_eq_true.mpr ⟨i, hi, by simpa using hkey⟩), List.map_map]
    refine List.map_congr_left (fun j _ => ?_)
    rw [Function.comp_apply]
    split
    · exact (((reopen_same settings now f j).trans (refresh_same settings now f _)).trans
        (applyAcceptance_same settings db.acceptances now f _)).key
    · rfl
  · have hnone : ¬ (db.items.any fun i => decide (i.key = f.key)) = true := by
      rw [List.any_eq_true]
      rintro ⟨i, hi, hkey⟩
      exact hmem (List.mem_map.mpr ⟨i, hi, by simpa using hkey⟩)
    rw [if_neg hmem, if_neg hnone, List.map_append]
    exact congrArg _ (congrArg (fun k => [k]) (applyAcceptance_same settings db.acceptances now f _).key)

/-- After the findings are recorded there is an item for each, and still one for every key. -/
theorem records_keys (fs : List Found) (h : (db.items.map Item.key).Nodup) :
    ((fs.foldl (record settings now) db).items.map Item.key).Nodup ∧
      (∀ k ∈ db.items.map Item.key, k ∈ (fs.foldl (record settings now) db).items.map Item.key) ∧
      ∀ f ∈ fs, f.key ∈ (fs.foldl (record settings now) db).items.map Item.key := by
  induction fs generalizing db with
  | nil => exact ⟨h, fun k hk => hk, by simp⟩
  | cons f fs ih =>
    have hkeys := @record_keys settings now db f
    have hnodup : ((record settings now db f).items.map Item.key).Nodup := by
      rw [hkeys]
      split
      · exact h
      · next hnew =>
        refine List.nodup_append.mpr ⟨h, List.nodup_singleton _, ?_⟩
        rintro k hk l hl rfl
        exact hnew (List.mem_singleton.mp hl ▸ hk)
    have hsub : ∀ k ∈ db.items.map Item.key, k ∈ (record settings now db f).items.map Item.key := by
      intro k hk
      rw [hkeys]
      split
      · exact hk
      · exact List.mem_append_left _ hk
    have hself : f.key ∈ (record settings now db f).items.map Item.key := by
      rw [hkeys]
      split
      · assumption
      · exact List.mem_append_right _ List.mem_cons_self
    obtain ⟨hall, hkept, hdone⟩ := ih hnodup
    refine ⟨hall, fun k hk => hkept k (hsub k hk), fun g hg => ?_⟩
    cases List.mem_cons.mp hg with
    | inl heq => exact hkept _ (heq ▸ hself)
    | inr hmem => exact hdone g hmem

theorem sync_keys {r : Report} : (sync settings r now db).items.map Item.key =
    (r.distinct.foldl (record settings now) (db.expired now)).items.map Item.key := by
  unfold sync
  dsimp only
  rw [List.map_map]
  exact List.map_congr_left (fun i _ => (settle_same now i r _).key)

end Sync

section Run

variable {settings : Settings} {s s' : State} {o : Others} {now a : Nat} {item : Item} {f : Found}

/-- Every finding is of its key's source and asset. -/
theorem found_own (hsound : Sound s (.sync o now)) (hf : f ∈ (report s.sessions o).distinct) :
    f.source = f.key.source ∧ f.assetId = f.key.assetId := by
  have hmem : f ∈ (report s.sessions o).found := (mem_of_mem_firstBy hf).1
  by_cases haudit : f ∈ (report s.sessions o).audit
  · obtain ⟨e, -, rfl⟩ := List.mem_map.mp haudit
    exact ⟨rfl, rfl⟩
  · refine (hsound.1 f ?_).2
    simp only [Report.found, List.mem_append, haudit, or_false] at hmem
    simpa [report, or_assoc] using hmem

/-- A finding under an audit key comes from the audits. -/
theorem found_audit (hsound : Sound s (.sync o now)) (hf : f ∈ (report s.sessions o).distinct)
    (hkey : f.key.source = .audit) : f ∈ (report s.sessions o).audit := by
  have hmem : f ∈ (report s.sessions o).found := (mem_of_mem_firstBy hf).1
  by_contra haudit
  simp only [Report.found, List.mem_append, haudit, or_false] at hmem
  obtain ⟨hne, heq, -⟩ := hsound.1 f (by simpa [report, or_assoc] using hmem)
  exact hne (heq.trans hkey)

theorem inv_map (hinv : Inv s) (g : Item → Item) (hg : ∀ i, SameProblem i (g i)) :
    Inv { s with db := { s.db with items := s.db.items.map g } } := by
  constructor
  · have hkeys : (s.db.items.map g).map Item.key = s.db.items.map Item.key := by
      rw [List.map_map]
      exact List.map_congr_left (fun i _ => (hg i).key)
    rw [hkeys]
    exact hinv.keys
  · intro i hi
    obtain ⟨j, hj, rfl⟩ := List.mem_map.mp hi
    rw [(hg j).source, (hg j).key]
    exact hinv.source j hj
  · intro i hi
    obtain ⟨j, hj, rfl⟩ := List.mem_map.mp hi
    rw [(hg j).asset, (hg j).key]
    exact hinv.asset j hj

theorem inv_remove (hinv : Inv s) :
    Inv { s with db := { s.db with items := s.db.items.map (detach a) }, removed := a :: s.removed } := by
  have hkey (i : Item) : (detach a i).key = i.key ∧ (detach a i).source = i.source := by
    unfold detach
    split <;> exact ⟨rfl, rfl⟩
  constructor
  · have hkeys : (s.db.items.map (detach a)).map Item.key = s.db.items.map Item.key := by
      rw [List.map_map]
      exact List.map_congr_left (fun i _ => (hkey i).1)
    rw [hkeys]
    exact hinv.keys
  · intro i hi
    obtain ⟨j, hj, rfl⟩ := List.mem_map.mp hi
    rw [(hkey j).1, (hkey j).2]
    exact hinv.source j hj
  · intro i hi
    obtain ⟨j, hj, rfl⟩ := List.mem_map.mp hi
    rw [(hkey j).1]
    unfold detach
    obtain hasset | ⟨hnone, hremoved⟩ := hinv.asset j hj
    · split
      · next heq =>
        rw [hasset] at heq
        exact .inr ⟨rfl, by simp [Option.some.inj heq]⟩
      · exact .inl hasset
    · rw [if_neg (by simp [hnone])]
      exact .inr ⟨hnone, List.mem_cons_of_mem _ hremoved⟩

theorem inv_sync (hinv : Inv s) (hsound : Sound s (.sync o now)) :
    Inv { s with db := Items.sync settings (report s.sessions o) now s.db } := by
  have hbefore : ∀ i ∈ (Items.sync settings (report s.sessions o) now s.db).items,
      (∃ j ∈ s.db.items, SameProblem j i) ∨
        ∃ f ∈ (report s.sessions o).distinct, i.key = f.key ∧ i.source = f.source ∧ i.assetId = some f.assetId := by
    intro i hi
    obtain ⟨f, hf, base, rfl, ⟨j, hj, -, rfl⟩ | ⟨-, id, -, rfl⟩⟩ | ⟨j, hj, -, rfl⟩ := mem_sync hi
    · exact .inl ⟨j, hj, ((reopen_same settings now f j).trans (refresh_same settings now f _)).trans
        (applyAcceptance_same settings _ now f _)⟩
    · have hsame := applyAcceptance_same settings (s.db.expired now).acceptances now f (create settings now id f)
      exact .inr ⟨f, hf, hsame.key, hsame.source, hsame.asset⟩
    · exact .inl ⟨j, hj, settle_same now j _ _⟩
  constructor
  · rw [sync_keys]
    exact (@records_keys settings now (s.db.expired now) _ hinv.keys).1
  · intro i hi
    obtain ⟨j, hj, hsame⟩ | ⟨f, hf, hkey, hsource, -⟩ := hbefore i hi
    · rw [hsame.source, hsame.key]
      exact hinv.source j hj
    · rw [hsource, hkey]
      exact (found_own hsound hf).1
  · intro i hi
    obtain ⟨j, hj, hsame⟩ | ⟨f, hf, hkey, -, hasset⟩ := hbefore i hi
    · rw [hsame.asset, hsame.key]
      exact hinv.asset j hj
    · rw [hasset, hkey, (found_own hsound hf).2]
      exact .inl rfl

theorem inv_step {act : Action} (hinv : Inv s) (hsound : Sound s act) (hstep : step settings s act = some s') : Inv s' := by
  cases act with
  | audits sessions =>
    cases hstep
    exact ⟨hinv.keys, hinv.source, hinv.asset⟩
  | accept acceptances =>
    cases hstep
    exact ⟨hinv.keys, hinv.source, hinv.asset⟩
  | edit id status =>
    cases hstep
    refine inv_map hinv _ (fun i => ?_)
    split
    · unfold setStatus
      split <;> exact ⟨rfl, rfl, rfl, rfl, rfl⟩
    · exact ⟨rfl, rfl, rfl, rfl, rfl⟩
  | remove assetId =>
    cases hstep
    exact inv_remove hinv
  | sync o now =>
    cases hstep
    exact inv_sync hinv hsound

theorem inv_begin : Inv begin := ⟨List.nodup_nil, by simp [begin, Database.empty], by simp [begin, Database.empty]⟩

theorem inv_reach (h : Reach (step settings) Sound begin s) : Inv s :=
  h.invariant inv_begin (fun _ _ _ hinv hsound hstep => inv_step hinv hsound hstep)

end Run

/-! ## The same findings -/

/-- The sessions of an asset that are not running started at different times, and the latest one completed. -/
structure Current (sessions : List AuditSession) (a : Nat) : Prop where
  distinct : ∀ s ∈ sessions, ∀ t ∈ sessions, s.assetId = some a → t.assetId = some a → s.status ≠ .running →
    t.status ≠ .running → s.startedAt = t.startedAt → s = t
  completed : ∀ s ∈ sessions, s.assetId = some a → s.status ≠ .running →
    ∃ t ∈ sessions, t.assetId = some a ∧ t.status = .completed ∧ s.startedAt ≤ t.startedAt

section Same

variable {sessions : List AuditSession} {l : AuditSession} {o : Others} {a now : Nat} {db : Database} {item : Item}
  {settings : Settings} {s : State} {x : AuditResult}

theorem riskSession_some (h : riskSession sessions a = some l) :
    (l ∈ sessions ∧ l.assetId = some a ∧ l.status ≠ .running) ∧
      ∀ t ∈ sessions, t.assetId = some a → t.status ≠ .running → t.startedAt ≤ l.startedAt := by
  unfold riskSession at h
  have hpairwise := List.pairwise_insertionSort startedLater
    (sessions.filter fun s => s.assetId = some a && s.status ≠ .running)
  have hmem (t : AuditSession) : t ∈ (sessions.filter fun s => s.assetId = some a && s.status ≠ .running).insertionSort
      startedLater ↔ t ∈ sessions ∧ t.assetId = some a ∧ t.status ≠ .running := by
    rw [List.mem_insertionSort, List.mem_filter]
    simp
  obtain ⟨rest, hsorted⟩ := List.head?_eq_some_iff.mp h
  rw [hsorted] at hpairwise hmem
  refine ⟨(hmem l).mp List.mem_cons_self, fun t ht hasset hstatus => ?_⟩
  cases List.mem_cons.mp ((hmem t).mpr ⟨ht, hasset, hstatus⟩) with
  | inl heq => rw [heq]
  | inr hrest => exact List.rel_of_pairwise_cons hpairwise hrest

theorem riskSession_isSome (hl : l ∈ sessions) (hasset : l.assetId = some a) (hstatus : l.status ≠ .running) :
    (riskSession sessions a).isSome = true := by
  unfold riskSession
  rw [List.isSome_head?]
  intro hnil
  have hmem : l ∈ (sessions.filter fun s => s.assetId = some a && s.status ≠ .running).insertionSort startedLater := by
    rw [List.mem_insertionSort, List.mem_filter]
    exact ⟨hl, by simp [hasset, hstatus]⟩
  rw [hnil] at hmem
  cases hmem

theorem latest_exists (hl : l ∈ sessions) (hstatus : l.status = .completed) (hasset : l.assetId = some a) :
    ∃ m ∈ latestCompletedSessions sessions, m.assetId = some a := by
  have hmem : l ∈ (sessions.filter (fun s => s.status = .completed && s.assetId.isSome)).insertionSort newer := by
    rw [List.mem_insertionSort, List.mem_filter]
    exact ⟨hl, by simp [hstatus, hasset]⟩
  have hkept : l.assetId ∈ (latestCompletedSessions sessions).map AuditSession.assetId :=
    key_mem_firstBy hmem List.not_mem_nil
  obtain ⟨m, hm, hkey⟩ := List.mem_map.mp hkept
  exact ⟨m, hm, hkey.trans hasset⟩

/-- Both modules choose the same session of the asset. -/
theorem riskSession_eq (hcurrent : Current sessions a) :
    riskSession sessions a = some l ↔ l ∈ latestCompletedSessions sessions ∧ l.assetId = some a := by
  have hrunning {t : AuditSession} (ht : t.status = .completed) : t.status ≠ .running := by simp [ht]
  have hlatest {t l : AuditSession} (ht : riskSession sessions a = some t) (hl : l ∈ latestCompletedSessions sessions)
      (hasset : l.assetId = some a) : t = l := by
    obtain ⟨⟨hmem, hta, hstatus⟩, hmax⟩ := riskSession_some ht
    obtain ⟨hlmem, hlstatus, -⟩ := mem_latest hl
    obtain ⟨c, hc, hca, hcstatus, hle⟩ := hcurrent.completed t hmem hta hstatus
    have htl : l.startedAt ≤ t.startedAt := hmax l hlmem hasset (hrunning hlstatus)
    have hcl : c.startedAt ≤ l.startedAt := le_latest hl hc hcstatus (hca.trans hasset.symm)
    exact hcurrent.distinct t hmem l hlmem hta hasset hstatus (hrunning hlstatus) (by omega)
  constructor
  · intro hl
    obtain ⟨⟨hmem, hasset, hstatus⟩, -⟩ := riskSession_some hl
    obtain ⟨c, hc, hca, hcstatus, -⟩ := hcurrent.completed l hmem hasset hstatus
    obtain ⟨m, hm, hma⟩ := latest_exists hc hcstatus hca
    have hsame : l = m := hlatest hl hm hma
    rw [hsame]
    exact ⟨hm, hma⟩
  · rintro ⟨hl, hasset⟩
    obtain ⟨hmem, hstatus, -⟩ := mem_latest hl
    obtain ⟨t, ht⟩ := Option.isSome_iff_exists.mp (riskSession_isSome hmem hasset (hrunning hstatus))
    rw [ht, hlatest ht hl hasset]

/-- An audit item of the asset that is neither resolved nor accepted. -/
def Active (a : Nat) (i : Item) : Prop :=
  i.source = .audit ∧ i.assetId = some a ∧ i.status ≠ .resolved ∧ i.status ≠ .accepted

/-- The failed controls of a session that the benchmark policy leaves required. -/
def required (l : AuditSession) : List AuditResult := l.results.filter fun r => r.status = .fail && !given r.policy

theorem mem_required : x ∈ required l ↔ x ∈ l.results ∧ x.status = .fail ∧ given x.policy = false := by
  unfold required
  rw [List.mem_filter]
  simp

/-- A required control is reported under its key. -/
theorem required_found (hl : l ∈ latestCompletedSessions s.sessions) (hasset : l.assetId = some a) (ha : a ∈ o.assetIds)
    (hx : x ∈ required l) : toFound o.hardened a x ∈ (report s.sessions o).audit := by
  obtain ⟨hmem, hfail, hpolicy⟩ := mem_required.mp hx
  refine List.mem_map.mpr ⟨(a, x), List.mem_filter.mpr ⟨List.mem_flatMap.mpr ⟨l, hl, ?_⟩, by simp [hpolicy]⟩, rfl⟩
  unfold failures
  rw [hasset]
  dsimp only
  rw [if_pos ha]
  exact List.mem_map.mpr ⟨x, List.mem_filter.mpr ⟨hmem, by simp [hfail]⟩, rfl⟩

/-- What the audits report is a required control of the latest completed session. -/
theorem found_required {f : Found} (hf : f ∈ (report s.sessions o).audit) :
    ∃ l ∈ latestCompletedSessions s.sessions, l.assetId = some f.assetId ∧ ∃ x ∈ required l, x.key f.assetId = f.key := by
  obtain ⟨⟨b, x⟩, he, rfl⟩ := List.mem_map.mp hf
  obtain ⟨hfailed, hpolicy⟩ := List.mem_filter.mp he
  obtain ⟨l, hl, hmem⟩ := List.mem_flatMap.mp hfailed
  unfold failures at hmem
  split at hmem
  · cases hmem
  · next c hc =>
    split at hmem
    · obtain ⟨y, hy, heq⟩ := List.mem_map.mp hmem
      cases heq
      obtain ⟨hyl, hfail⟩ := List.mem_filter.mp hy
      exact ⟨l, hl, hc, x, mem_required.mpr ⟨hyl, by simpa using hfail, by simpa using hpolicy⟩, rfl⟩
    · cases hmem

/-- An audit item that is left open by a synchronisation is about something that was found. -/
theorem active_found (ha : a ∈ o.assetIds) (hitem : item ∈ (sync settings (report s.sessions o) now s.db).items)
    (hactive : Active a item) :
    ∃ f ∈ (report s.sessions o).distinct, Treated settings now (s.db.expired now) f item := by
  obtain htreated | ⟨i, hi, hunseen, rfl⟩ := mem_sync hitem
  · exact htreated
  · exfalso
    have hsame := settle_same now i (report s.sessions o) ((report s.sessions o).distinct.map Found.key)
    obtain ⟨hsource, hasset, hresolved, -⟩ := hactive
    rw [hsame.source] at hsource
    rw [hsame.asset] at hasset
    apply hresolved
    unfold settle
    split
    · next hdone => exact hdone.resolve_left hunseen
    · have hclosed : closeReason (report s.sessions o) i ≠ none := by
        unfold closeReason
        have hexists : (i.assetId.any ((report s.sessions o).assetIds.contains ·)) = true := by
          rw [hasset]
          simpa [report] using ha
        have hchecked : (report s.sessions o).checked i.source = true := by simp [Report.checked, hsource]
        rw [if_neg (by simpa using hexists), if_neg (by simpa using hchecked)]
        split
        · simp
        · split
          · simp
          · split <;> simp
      split
      · next hnone => exact absurd hnone hclosed
      · rfl

/-- An item that is accepted for a finding that is not accepted in its source is accepted under an acceptance. -/
theorem accepted_under {f : Found} (htreated : Treated settings now db f item) (hsource : f.sourceAccepted = false)
    (hstatus : item.status = .accepted) : item.acceptanceId.isSome = true := by
  obtain ⟨base, rfl, -⟩ := htreated
  cases hcovering : covering db.acceptances now base with
  | some acc =>
    unfold applyAcceptance
    rw [hcovering]
    rfl
  | none =>
    unfold applyAcceptance at hstatus
    rw [hcovering, hsource] at hstatus
    dsimp only at hstatus
    rw [if_neg (by simp)] at hstatus
    split at hstatus
    · cases hstatus
    · next hplain =>
      split at hstatus
      · cases hstatus
      · exact absurd hstatus hplain

/-- The key of a control with a number is its reference. -/
theorem key_rest (hnumber : given x.checkNumber = true) : (x.key a).rest = auditRef x := by
  unfold AuditResult.key AuditResult.check auditRef
  rw [if_pos hnumber]

/-- The risk leaves out the controls with a number whose item is accepted. -/
theorem accepted_iff (hinv : Inv s) (hnumber : given x.checkNumber = true) :
    auditRef x ∈ acceptedRefs s.db a .audit ↔ ∃ i ∈ s.db.items, i.key = x.key a ∧ i.assetId = some a ∧
      i.status = .accepted ∧ i.acceptanceId.isSome = true := by
  unfold acceptedRefs
  simp only [List.mem_map, List.mem_filter, Bool.and_eq_true, decide_eq_true_eq]
  constructor
  · rintro ⟨i, ⟨hi, ⟨⟨hasset, hsource⟩, hstatus⟩, hid⟩, hrest⟩
    refine ⟨i, hi, ?_, hasset, hstatus, hid⟩
    have hkeyasset : i.key.assetId = a := by
      obtain heq | ⟨hnone, -⟩ := hinv.asset i hi
      · exact Option.some.inj (heq.symm.trans hasset)
      · rw [hnone] at hasset
        cases hasset
    have hkeysource : i.key.source = .audit := (hinv.source i hi).symm.trans hsource
    have hkeyrest : i.key.rest = (x.key a).rest := hrest.trans (key_rest hnumber).symm
    calc i.key = ⟨i.key.source, i.key.assetId, i.key.rest⟩ := rfl
      _ = x.key a := by rw [hkeysource, hkeyasset, hkeyrest]; rfl
  · rintro ⟨i, hi, hkey, hasset, hstatus, hid⟩
    refine ⟨i, ⟨hi, ⟨⟨hasset, ?_⟩, hstatus⟩, hid⟩, ?_⟩
    · rw [hinv.source i hi, hkey]
      rfl
    · rw [hkey]
      exact key_rest hnumber

/-- Two items of a state with one key are one. -/
theorem same_item {i j : Item} (hinv : Inv s) (hi : i ∈ s.db.items) (hj : j ∈ s.db.items) (hkey : i.key = j.key) : i = j :=
  List.inj_on_of_nodup_map hinv.keys hi hj hkey

/-- A required control that was found has an item, which is of the asset and not resolved. -/
theorem required_item (hinv : Inv s) (hsound : Sound s (.sync o now)) (hl : l ∈ latestCompletedSessions s.sessions)
    (hasset : l.assetId = some a) (ha : a ∈ o.assetIds) (hx : x ∈ required l) :
    ∃ i ∈ (sync settings (report s.sessions o) now s.db).items, i.key = x.key a ∧ i.source = .audit ∧
      i.assetId = some a ∧ i.status ≠ .resolved ∧ (i.status = .accepted → i.acceptanceId.isSome = true) := by
  have hafter : Inv { s with db := sync settings (report s.sessions o) now s.db } := inv_sync hinv hsound
  have hfound : toFound o.hardened a x ∈ (report s.sessions o).found := by
    simp [Report.found, required_found hl hasset ha hx]
  have hdistinct : x.key a ∈ (report s.sessions o).distinct.map Found.key := key_mem_firstBy hfound List.not_mem_nil
  obtain ⟨f, hf, hfkey⟩ := List.mem_map.mp hdistinct
  have hkeys := (@records_keys settings now (s.db.expired now) (report s.sessions o).distinct hinv.keys).2.2 f hf
  rw [← sync_keys] at hkeys
  obtain ⟨i, hi, hikey⟩ := List.mem_map.mp hkeys
  have hkey : i.key = x.key a := hikey.trans hfkey
  have hisource : i.source = .audit := by
    rw [hafter.source i hi, hkey]
    rfl
  have hiasset : i.assetId = some a := by
    obtain heq | ⟨-, hremoved⟩ := hafter.asset i hi
    · rw [heq, hkey]
      rfl
    · rw [hkey] at hremoved
      exact absurd hremoved (hsound.2 a ha)
  have htreated : ∃ f ∈ (report s.sessions o).distinct, Treated settings now (s.db.expired now) f i := by
    obtain htreated | ⟨j, -, hunseen, rfl⟩ := mem_sync hi
    · exact htreated
    · rw [(settle_same now j _ _).key] at hikey
      exact absurd (List.mem_map.mpr ⟨f, hf, hikey.symm⟩) hunseen
  obtain ⟨g, hg, htreated⟩ := htreated
  refine ⟨i, hi, hkey, hisource, hiasset, htreated.unresolved, accepted_under htreated ?_⟩
  have hgaudit : g ∈ (report s.sessions o).audit := by
    refine found_audit hsound hg ?_
    rw [← htreated.key, hkey]
    rfl
  obtain ⟨e, -, rfl⟩ := List.mem_map.mp hgaudit
  rfl

/-- What is counted, what there are items for, and that nothing else has an item. -/
structure Agree (sessions : List AuditSession) (db : Database) (a : Nat) : Prop where
  counted : ∀ number vdom, (∃ x ∈ activeResults sessions db a, given x.policy = false ∧ x.checkNumber = number ∧ x.vdom = vdom) ↔
    ∃ i ∈ db.items, Active a i ∧ ∃ l ∈ latestCompletedSessions sessions, l.assetId = some a ∧
      ∃ x ∈ required l, x.key a = i.key ∧ x.checkNumber = number ∧ x.vdom = vdom
  behind : ∀ i ∈ db.items, Active a i → ∃ x ∈ activeResults sessions db a, given x.policy = false ∧ x.key a = i.key

theorem given_excluded : given (some (lit "excluded")) = true := by with_unfolding_all decide

/-- A required control is counted when its item is not accepted. -/
theorem counted_of_item (hinv : Inv s) (hcurrent : Current sessions a) (hl : l ∈ latestCompletedSessions sessions)
    (hasset : l.assetId = some a) (hx : x ∈ required l) (hnumber : given x.checkNumber = true) (hitem : item ∈ s.db.items)
    (hkey : item.key = x.key a) (hstatus : item.status ≠ .accepted) : x ∈ activeResults sessions s.db a := by
  obtain ⟨hmem, hfail, hpolicy⟩ := mem_required.mp hx
  have hexcluded : x.policy ≠ some (lit "excluded") := by
    intro heq
    rw [heq, given_excluded] at hpolicy
    cases hpolicy
  have haccepted : auditRef x ∉ acceptedRefs s.db a .audit := by
    intro hin
    obtain ⟨j, hj, hjkey, -, hjstatus, -⟩ := (accepted_iff hinv hnumber).mp hin
    rw [same_item hinv hitem hj (hkey.trans hjkey.symm)] at hstatus
    exact hstatus hjstatus
  unfold activeResults
  rw [(riskSession_eq hcurrent).mpr ⟨hl, hasset⟩, List.mem_filter]
  exact ⟨by simpa using hmem, by simp [counts, hfail, hexcluded, haccepted]⟩

/-- A counted control of the required ones is one of the latest completed session. -/
theorem counted_required (hcurrent : Current sessions a) (hx : x ∈ activeResults sessions db a)
    (hpolicy : given x.policy = false) : auditRef x ∉ acceptedRefs db a .audit ∧
      ∃ l ∈ latestCompletedSessions sessions, l.assetId = some a ∧ x ∈ required l := by
  unfold activeResults at hx
  obtain ⟨hmem, hcounts⟩ := List.mem_filter.mp hx
  obtain ⟨l, hl, hxl⟩ := List.mem_flatMap.mp hmem
  obtain ⟨hlatest, hasset⟩ := (riskSession_eq hcurrent).mp (Option.mem_toList.mp hl)
  simp only [counts, Bool.and_eq_true, decide_eq_true_eq] at hcounts
  exact ⟨hcounts.2, l, hlatest, hasset, mem_required.mpr ⟨hxl, hcounts.1.1, hpolicy⟩⟩

/-- The modules agree where every required control has an item, and every open item a required control. -/
theorem agree_of_items (hinv : Inv s) (hcurrent : Current sessions a)
    (hnumbered : ∀ l ∈ sessions, l.assetId = some a → ∀ x ∈ required l, given x.checkNumber = true)
    (hitems : ∀ l ∈ latestCompletedSessions sessions, l.assetId = some a → ∀ x ∈ required l,
      ∃ i ∈ s.db.items, i.key = x.key a ∧ i.source = .audit ∧ i.assetId = some a ∧ i.status ≠ .resolved ∧
        (i.status = .accepted → i.acceptanceId.isSome = true))
    (hbehind : ∀ i ∈ s.db.items, Active a i →
      ∃ l ∈ latestCompletedSessions sessions, l.assetId = some a ∧ ∃ x ∈ required l, x.key a = i.key) :
    Agree sessions s.db a := by
  have hgiven {l : AuditSession} (hl : l ∈ latestCompletedSessions sessions) (hasset : l.assetId = some a)
      {x : AuditResult} (hx : x ∈ required l) : given x.checkNumber = true := hnumbered l (mem_latest hl).1 hasset x hx
  constructor
  · intro number vdom
    constructor
    · rintro ⟨x, hx, hpolicy, hnumber, hvdom⟩
      obtain ⟨haccepted, l, hl, hasset, hrequired⟩ := counted_required hcurrent hx hpolicy
      obtain ⟨i, hi, hkey, hsource, hiasset, hresolved, hunder⟩ := hitems l hl hasset x hrequired
      have hstatus : i.status ≠ .accepted := fun heq =>
        haccepted ((accepted_iff hinv (hgiven hl hasset hrequired)).mpr ⟨i, hi, hkey, hiasset, heq, hunder heq⟩)
      exact ⟨i, hi, ⟨hsource, hiasset, hresolved, hstatus⟩, l, hl, hasset, x, hrequired, hkey.symm, hnumber, hvdom⟩
    · rintro ⟨i, hi, hactive, l, hl, hasset, x, hx, hkey, hnumber, hvdom⟩
      exact ⟨x, counted_of_item hinv hcurrent hl hasset hx (hgiven hl hasset hx) hi hkey.symm hactive.2.2.2,
        (mem_required.mp hx).2.2, hnumber, hvdom⟩
  · intro i hi hactive
    obtain ⟨l, hl, hasset, x, hx, hkey⟩ := hbehind i hi hactive
    exact ⟨x, counted_of_item hinv hcurrent hl hasset hx (hgiven hl hasset hx) hi hkey.symm hactive.2.2.2,
      (mem_required.mp hx).2.2, hkey⟩

/-- An audit item that is open after a synchronisation is about a required control. -/
theorem active_required (hinv : Inv { s with db := sync settings (report s.sessions o) now s.db })
    (hsound : Sound s (.sync o now)) (ha : a ∈ o.assetIds)
    (hitem : item ∈ (sync settings (report s.sessions o) now s.db).items) (hactive : Active a item) :
    ∃ l ∈ latestCompletedSessions s.sessions, l.assetId = some a ∧ ∃ x ∈ required l, x.key a = item.key := by
  obtain ⟨f, hf, htreated⟩ := active_found ha hitem hactive
  have hkeysource : f.key.source = .audit := by
    rw [← htreated.key, ← hinv.source item hitem]
    exact hactive.1
  obtain ⟨l, hl, hlasset, x, hx, hkey⟩ := found_required (found_audit hsound hf hkeysource)
  have hfasset : f.assetId = a := by
    rw [(found_own hsound hf).2, ← htreated.key]
    obtain heq | ⟨hnone, -⟩ := hinv.asset item hitem
    · exact Option.some.inj (heq.symm.trans hactive.2.1)
    · exact absurd (hnone.symm.trans hactive.2.1) (by simp)
  rw [hfasset] at hlasset hkey
  exact ⟨l, hl, hlasset, x, hx, hkey.trans htreated.key.symm⟩

end Same

/-! ## Examples -/

instance (a : Nat) (i : Item) : Decidable (Active a i) := inferInstanceAs (Decidable (_ ∧ _ ∧ _ ∧ _))

/-- Audits and acceptances before the first synchronisation. -/
def audited (sessions : List AuditSession) (acceptances : List Acceptance) : State :=
  ⟨sessions, { Database.empty with acceptances := acceptances }, []⟩

theorem audited_reached (sessions : List AuditSession) (acceptances : List Acceptance) :
    Reach (step Settings.default) Sound begin (audited sessions acceptances) :=
  have haudits : Reach (step Settings.default) Sound begin (audited sessions []) :=
    Reach.step (a := .audits sessions) .start trivial rfl
  Reach.step (a := .accept acceptances) haudits trivial rfl

theorem noOthers_sound (sessions : List AuditSession) (acceptances : List Acceptance) (now : Nat) :
    Sound (audited sessions acceptances) (.sync noOthers now) :=
  ⟨by simp [noOthers], by simp [audited]⟩

def completedAt (id start : Nat) (results : List AuditResult) : AuditSession :=
  ⟨id, some 7, .linux, start, .completed, results⟩

/-- One control failed, and was reported with the same number for a VDOM. -/
def failing : AuditSession :=
  completedAt 1 10 [result 1 (lit "5.2.7") .fail, { result 2 (lit "5.2.7") .fail with vdom := some (lit "edge") }]

/-- The next audit did not reach the device. -/
def failedLater : List AuditSession := [failing, ⟨2, some 7, .linux, 15, .failed, []⟩]

/-- Two audits started at the same time. -/
def sameStart : List AuditSession := [completedAt 1 10 [], completedAt 2 10 [result 1 (lit "5.2.7") .fail]]

/-- A control without a number. -/
def unnumbered : AuditSession := completedAt 1 10 [⟨1, none, some 3, none, none, .fail, none⟩]

/-- An acceptance of everything that has the reference of that control. -/
def acceptance : Acceptance :=
  ⟨1, .ref, .audit, lit "3", none, .medium, false, 1000, .approved, 1, 0, none⟩

theorem not_agree_of_open {sessions : List AuditSession} {db : Database} {a : Nat}
    (hactive : (db.items.any fun i => decide (Active a i)) = true) (hnone : activeResults sessions db a = []) :
    ¬ Agree sessions db a := by
  intro hagree
  obtain ⟨i, hi, hi_active⟩ := List.any_eq_true.mp hactive
  obtain ⟨x, hx, -⟩ := hagree.behind i hi (by simpa using hi_active)
  rw [hnone] at hx
  cases hx

theorem not_agree_of_counted {sessions : List AuditSession} {db : Database} {a : Nat}
    (hcounted : ((activeResults sessions db a).any fun x => !given x.policy) = true)
    (hnone : (db.items.all fun i => decide (¬ Active a i)) = true) : ¬ Agree sessions db a := by
  intro hagree
  obtain ⟨x, hx, hpolicy⟩ := List.any_eq_true.mp hcounted
  obtain ⟨i, hi, hactive, -⟩ := (hagree.counted x.checkNumber x.vdom).mp ⟨x, hx, by simpa using hpolicy, rfl, rfl⟩
  have hclosed := List.all_eq_true.mp hnone i hi
  exact absurd hactive (by simpa using hclosed)

end AuditRisk
