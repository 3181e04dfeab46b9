import Ngcorion.Remediation.Items
import Ngcorion.Hardening.ParamSecurity
import Ngcorion.Transition
import Mathlib.Data.List.Sort

/-!
# Closing audit findings

An audit item is closed as fixed when the latest completed audit of its asset does
not report it. A history is audit sessions that start and end in any order, with
synchronisations in between; every closing is written down with the sessions it
was made on.
-/
namespace Evidence

open Text FirstBy Transition Items

/-! ## Audit sessions -/

inductive CheckStatus where
  | pass | fail | notApplicable | error
  deriving DecidableEq

inductive DeviceType where
  | cisco | linux | windows | fortinet | apache | mongodb | mssql | activeDirectory | dnsServer | dhcpServer | iis
  | docker | kubernetes | mysql | esxi | nginx | sophos
  deriving DecidableEq

structure AuditResult where
  id : Nat
  checkNumber : Option Str
  checkId : Option Nat
  vdom : Option Str
  severity : Option Str
  status : CheckStatus
  policy : Option Str

inductive SessionStatus where
  | running | completed | failed
  deriving DecidableEq

structure AuditSession where
  id : Nat
  assetId : Option Nat
  deviceType : DeviceType
  startedAt : Nat
  status : SessionStatus
  results : List AuditResult

/-- The lower case of the ASCII letters; no other letter has one of the texts compared below as its lower case. -/
def lower (s : Str) : Str := s.map Char.toLower

/-- A text that is absent or empty is false. -/
def given (s : Option Str) : Bool := s.any (· ≠ [])

/-- `_severity` -/
def severityOf (value : Option Str) : Severity :=
  let v := lower (strip (value.getD []))
  if v = lit "critical" then .critical
  else if v = lit "high" then .high
  else if v = lit "medium" then .medium
  else if v = lit "low" then .low
  else if v = lit "very_high" then .critical
  else if v = lit "info" ∨ v = lit "informational" ∨ v = lit "none" then .low
  else .medium

/-- `r.check_number or str(r.check_id or r.id)` -/
def AuditResult.check (r : AuditResult) : Str :=
  if given r.checkNumber then r.checkNumber.getD []
  else ParamSecurity.decimal (if r.checkId.getD 0 ≠ 0 then r.checkId.getD 0 else r.id)

/-- The VDOM as item keys carry it. -/
def AuditResult.vdomPart (r : AuditResult) : Str :=
  let vdom := strip (r.vdom.getD [])
  if vdom ≠ [] ∧ lower vdom ≠ lit "global" then ':' :: vdom else []

def AuditResult.key (r : AuditResult) (assetId : Nat) : Key := ⟨.audit, assetId, r.check ++ r.vdomPart⟩

/-- The order of the query: the latest start first, of equal starts the larger id. -/
def newer (s t : AuditSession) : Prop := t.startedAt < s.startedAt ∨ t.startedAt = s.startedAt ∧ t.id ≤ s.id

instance : DecidableRel newer := fun _ _ => inferInstanceAs (Decidable (_ ∨ _))

instance : Std.Total newer := ⟨fun s t => by unfold newer; omega⟩

instance : IsTrans AuditSession newer := ⟨fun s t u hst htu => by unfold newer at *; omega⟩

/-- `_latest_completed_sessions`: one session for every asset that has one. -/
def latestCompletedSessions (sessions : List AuditSession) : List AuditSession :=
  firstBy AuditSession.assetId []
    ((sessions.filter (fun s => s.status = .completed && s.assetId.isSome)).insertionSort newer)

/-- The failed checks of a session with its asset, when the asset still exists. -/
def failures (assetIds : List Nat) (s : AuditSession) : List (Nat × AuditResult) :=
  match s.assetId with
  | none => []
  | some a => if a ∈ assetIds then (s.results.filter (fun r => r.status = .fail)).map (Prod.mk a) else []

def toFound (hardened : List Nat) (a : Nat) (r : AuditResult) : Found where
  key := r.key a
  source := .audit
  ref := r.check
  assetId := a
  severity := severityOf r.severity
  kev := false
  hardened := hardened.contains r.id
  sourceAccepted := false

/-- What a synchronisation reads beside the audit sessions. -/
structure Others where
  cve : Option (List Found)
  arch : List Found
  archRuleCodes : List Str
  eol : List Found
  tls : List Found
  assetIds : List Nat
  /-- The results that a successful hardening ran for. -/
  hardened : List Nat

/-- `_audit_found` together with what the other modules report. -/
def report (sessions : List AuditSession) (o : Others) : Report :=
  let latest := latestCompletedSessions sessions
  let failed := latest.flatMap (failures o.assetIds)
  { cve := o.cve
    audit := (failed.filter (fun e => !given e.2.policy)).map (fun e => toFound o.hardened e.1 e.2)
    auditedAssets := latest.filterMap AuditSession.assetId
    byPolicy := (failed.filter (fun e => given e.2.policy)).map (fun e => e.2.key e.1)
    arch := o.arch
    archRuleCodes := o.archRuleCodes
    eol := o.eol
    tls := o.tls
    assetIds := o.assetIds }

/-! ## Histories -/

/-- An item that was closed as fixed, with the sessions of that moment. -/
structure Closing where
  item : Item
  sessions : List AuditSession

structure State where
  sessions : List AuditSession
  db : Database
  closings : List Closing

inductive Action where
  | start (assetId : Option Nat) (deviceType : DeviceType) (startedAt : Nat)
  | finish (id : Nat) (status : SessionStatus) (results : List AuditResult)
  | sync (others : Others) (now : Nat)

/-- The audit items that a synchronisation has closed as fixed. -/
def closedAsFixed (before after : Database) : List Item :=
  after.items.filter (fun i =>
    i.source = .audit && i.status = .resolved && i.closedReason = some .fixed && !before.items.contains i)

def step (settings : Settings) (s : State) : Action → Option State
  | .start assetId deviceType startedAt =>
    some { s with sessions := s.sessions ++ [⟨s.sessions.length + 1, assetId, deviceType, startedAt, .running, []⟩] }
  | .finish id status results =>
    if s.sessions.any (fun t => t.id = id && t.status = .running) then
      some { s with sessions := s.sessions.map (fun t =>
        if t.id = id then { t with status := status, results := results } else t) }
    else none
  | .sync o now =>
    let db := Items.sync settings (report s.sessions o) now s.db
    some { s with db := db, closings := s.closings ++ (closedAsFixed s.db db).map (fun i => ⟨i, s.sessions⟩) }

/-- No session and no item yet; there may be any acceptances. -/
def begin (acceptances : List Acceptance) : State := ⟨[], { Database.empty with acceptances := acceptances }, []⟩

/-! ## Evidence -/

/-- The completed session is of the item's asset and has a result for the item's check and VDOM with such a status. -/
def AuditSession.has (s : AuditSession) (item : Item) (p : CheckStatus → Bool) : Bool :=
  s.status = .completed && s.assetId.any (fun a => item.assetId = some a &&
    s.results.any (fun r => r.key a = item.key && p r.status))

/-- A completed session has the check not failed, and started later than every one that reported it as failed. -/
def evidence (sessions : List AuditSession) (item : Item) : Bool :=
  sessions.any (fun p => p.has item (· ≠ .fail) &&
    sessions.all (fun q => !q.has item (· = .fail) || q.startedAt < p.startedAt))

/-- The latest completed session of the item's asset has a result for the item's check;
unless it reports it as failed, no session that did started at the same moment. -/
def latestShows (sessions : List AuditSession) (item : Item) : Bool :=
  (latestCompletedSessions sessions).all (fun l => l.assetId ≠ item.assetId ||
    l.has item (fun _ => true) &&
      (l.has item (· = .fail) || sessions.all (fun q => !q.has item (· = .fail) || q.startedAt ≠ l.startedAt)))

/-- At a synchronisation the latest session shows every audit item that is not resolved. -/
def shows (s : State) : Action → Bool
  | .sync _ _ => s.db.items.all (fun i => i.source ≠ .audit || i.status = .resolved || latestShows s.sessions i)
  | _ => true

section Latest

variable {sessions : List AuditSession} {l q : AuditSession} {o : Others} {item : Item} {p : CheckStatus → Bool}

theorem mem_latest (h : l ∈ latestCompletedSessions sessions) :
    l ∈ sessions ∧ l.status = .completed ∧ l.assetId.isSome = true := by
  obtain ⟨hmem, -⟩ := mem_of_mem_firstBy h
  rw [List.mem_insertionSort, List.mem_filter, Bool.and_eq_true, decide_eq_true_eq] at hmem
  exact hmem

/-- No completed session of the asset started later. -/
theorem le_latest (hl : l ∈ latestCompletedSessions sessions) (hq : q ∈ sessions) (hstatus : q.status = .completed)
    (hasset : q.assetId = l.assetId) : q.startedAt ≤ l.startedAt := by
  have hmem : q ∈ (sessions.filter (fun s => s.status = .completed && s.assetId.isSome)).insertionSort newer := by
    rw [List.mem_insertionSort, List.mem_filter]
    exact ⟨hq, by simp [hstatus, hasset, (mem_latest hl).2.2]⟩
  have hnewer : newer l q := firstBy_pairwise (fun s => by unfold newer; omega) (List.pairwise_insertionSort newer _) hl
    hmem hasset
  unfold newer at hnewer
  omega

theorem has_iff : q.has item p = true ↔ q.status = .completed ∧
    ∃ a, q.assetId = some a ∧ item.assetId = some a ∧ ∃ r ∈ q.results, r.key a = item.key ∧ p r.status = true := by
  simp only [AuditSession.has, Bool.and_eq_true, decide_eq_true_eq, Option.any_eq_true, List.any_eq_true]

/-- A check that the latest session of an asset has failed is reported, or left to the policy. -/
theorem failing_reported (hl : l ∈ latestCompletedSessions sessions) (hfail : l.has item (· = .fail) = true)
    (hasset : item.assetId.any (o.assetIds.contains ·) = true) :
    item.key ∈ (report sessions o).byPolicy ∨ item.key ∈ (report sessions o).distinct.map Found.key := by
  obtain ⟨-, a, hla, hia, r, hr, hkey, hstatus⟩ := has_iff.mp hfail
  have ha : a ∈ o.assetIds := by simpa [hia] using hasset
  have hfailed : (a, r) ∈ (latestCompletedSessions sessions).flatMap (failures o.assetIds) := by
    refine List.mem_flatMap.mpr ⟨l, hl, ?_⟩
    simp only [failures, hla, ha, if_true]
    exact List.mem_map_of_mem (List.mem_filter.mpr ⟨hr, hstatus⟩)
  cases hpolicy : given r.policy with
  | true =>
    left
    rw [← hkey]
    exact List.mem_map.mpr ⟨(a, r), List.mem_filter.mpr ⟨hfailed, hpolicy⟩, rfl⟩
  | false =>
    right
    have haudit : toFound o.hardened a r ∈ (report sessions o).audit :=
      List.mem_map.mpr ⟨(a, r), List.mem_filter.mpr ⟨hfailed, by simp [hpolicy]⟩, rfl⟩
    have hfound : toFound o.hardened a r ∈ (report sessions o).found := by simp [Report.found, haudit]
    rw [← hkey]
    exact key_mem_firstBy hfound (List.not_mem_nil)

/-- An audit item is closed as fixed when its asset has a completed session and the latest one does not fail it. -/
theorem closeReason_fixed (hsource : item.source = .audit)
    (hseen : item.key ∉ (report sessions o).distinct.map Found.key)
    (h : closeReason (report sessions o) item = some .fixed) :
    ∃ l ∈ latestCompletedSessions sessions, l.assetId = item.assetId ∧ l.has item (· = .fail) = false := by
  unfold closeReason at h
  split at h
  · simp at h
  · rename_i hasset
    split at h
    · simp at h
    · split at h
      · simp at h
      · rename_i haudited
        split at h
        · simp at h
        · rename_i hpolicy
          simp only [not_not] at hasset
          simp only [hsource, true_and, not_not, Option.any_eq_true, List.contains_iff_mem] at haudited
          obtain ⟨a, hitem, ha⟩ := haudited
          obtain ⟨l, hl, hla⟩ := List.mem_filterMap.mp ha
          refine ⟨l, hl, hla.trans hitem.symm, ?_⟩
          by_contra hfail
          rcases failing_reported hl (by simpa using hfail) hasset with hmem | hmem
          · exact hpolicy hmem
          · exact hseen hmem

/-- A closing on a session that shows the item rests on evidence. -/
theorem evidence_of_shows (hl : l ∈ latestCompletedSessions sessions) (hasset : l.assetId = item.assetId)
    (hfail : l.has item (· = .fail) = false) (hshows : latestShows sessions item = true) :
    evidence sessions item = true := by
  have hlatest := List.all_eq_true.mp hshows l hl
  simp only [hasset, ne_eq, not_true_eq_false, decide_false, hfail, Bool.false_or, Bool.and_eq_true,
    List.all_eq_true, Bool.or_eq_true, Bool.not_eq_true', decide_eq_true_eq] at hlatest
  obtain ⟨hhas, hties⟩ := hlatest
  obtain ⟨hcompleted, a, hla, hia, r, hr, hkey, -⟩ := has_iff.mp hhas
  have hpass : r.status ≠ .fail := by
    intro hstatus
    have : l.has item (· = .fail) = true := has_iff.mpr ⟨hcompleted, a, hla, hia, r, hr, hkey, by simp [hstatus]⟩
    simp [hfail] at this
  refine List.any_eq_true.mpr ⟨l, (mem_latest hl).1, ?_⟩
  rw [Bool.and_eq_true, List.all_eq_true]
  refine ⟨has_iff.mpr ⟨hcompleted, a, hla, hia, r, hr, hkey, by simp [hpass]⟩, fun q hq => ?_⟩
  rw [Bool.or_eq_true, Bool.not_eq_true', decide_eq_true_eq]
  cases hqfail : q.has item (· = .fail) with
  | false => exact Or.inl rfl
  | true =>
    right
    obtain ⟨hqstatus, b, hqb, hib, -⟩ := has_iff.mp hqfail
    have hle := le_latest hl hq hqstatus (hqb.trans (hib.symm.trans hasset.symm))
    have hne : q.startedAt ≠ l.startedAt := by simpa [hqfail] using hties q hq
    omega

end Latest

theorem has_same {i j : Item} (h : SameProblem i j) (s : AuditSession) (p : CheckStatus → Bool) :
    s.has j p = s.has i p := by simp only [AuditSession.has, h.key, h.asset]

theorem evidence_same {i j : Item} (h : SameProblem i j) (sessions : List AuditSession) :
    evidence sessions j = evidence sessions i := by simp only [evidence, has_same h]

section Run

variable {settings : Settings} {s s' : State}

/-- A row that a synchronisation leaves resolved was settled by it, or it is as before. -/
theorem settled_of_closed {o : Others} {now : Nat} {item : Item}
    (h : item ∈ closedAsFixed s.db (Items.sync settings (report s.sessions o) now s.db)) :
    ∃ i ∈ s.db.items, i.source = .audit ∧ i.status ≠ .resolved ∧
      i.key ∉ (report s.sessions o).distinct.map Found.key ∧
      closeReason (report s.sessions o) i = some .fixed ∧ SameProblem i item := by
  simp only [closedAsFixed, List.mem_filter, Bool.and_eq_true, decide_eq_true_eq, Bool.not_eq_true',
    List.contains_eq_mem, decide_eq_false_iff_not] at h
  obtain ⟨hmem, ⟨⟨hsource, hstatus⟩, hreason⟩, hnew⟩ := h
  rcases mem_sync hmem with ⟨f, -, htreated⟩ | ⟨i, hi, hkey, rfl⟩
  · exact absurd hstatus htreated.unresolved
  · have hsame := settle_same now i (report s.sessions o) ((report s.sessions o).distinct.map Found.key)
    refine ⟨i, hi, hsame.source ▸ hsource, ?_, hkey, ?_, hsame⟩
    · intro hresolved
      rw [settle, if_pos (Or.inr hresolved)] at hnew
      exact hnew hi
    · unfold settle at hnew hreason
      split at hnew
      · exact absurd hi hnew
      · rename_i hopen
        rw [if_neg hopen] at hreason
        split at hnew
        · exact absurd hi hnew
        · rename_i reason hclose
          simp only [hclose, Option.some.injEq] at hreason
          rw [hclose, hreason]

theorem evidence_step {a : Action} (hinv : ∀ c ∈ s.closings, evidence c.sessions c.item = true)
    (hshows : shows s a = true) (hstep : step settings s a = some s') :
    ∀ c ∈ s'.closings, evidence c.sessions c.item = true := by
  cases a with
  | start assetId deviceType startedAt =>
    cases hstep
    exact hinv
  | finish id status results =>
    simp only [step] at hstep
    split at hstep
    · cases hstep
      exact hinv
    · simp at hstep
  | sync o now =>
    cases hstep
    intro c hc
    rcases List.mem_append.mp hc with hc | hc
    · exact hinv c hc
    · obtain ⟨item, hitem, rfl⟩ := List.mem_map.mp hc
      obtain ⟨i, hi, hsource, hopen, hseen, hclose, hsame⟩ := settled_of_closed hitem
      obtain ⟨l, hl, hasset, hfail⟩ := closeReason_fixed hsource hseen hclose
      have hi_shows : latestShows s.sessions i = true := by
        simpa [hsource, hopen] using List.all_eq_true.mp hshows i hi
      rw [evidence_same hsame]
      exact evidence_of_shows hl hasset hfail hi_shows

end Run

/-- Where at every synchronisation the latest session of an asset shows the items of
the asset that are not resolved, every item closed as fixed was closed on evidence. -/
theorem fixed_on_evidence (settings : Settings) (acceptances : List Acceptance) {s : State}
    (h : Reach (step settings) (fun s a => shows s a = true) (begin acceptances) s) :
    ∀ c ∈ s.closings, evidence c.sessions c.item = true := by
  apply h.invariant
  · simp [begin]
  · intro _ _ _ hinv hshows hstep
    exact evidence_step hinv hshows hstep

/-- A result of an SSH setting, or of a setting of a web server. -/
def result (id : Nat) (check : Str) (status : CheckStatus) : AuditResult :=
  ⟨id, some check, none, none, some (lit "High"), status, none⟩

def noOthers : Others := ⟨some [], [], [], [], [], [7], []⟩

def failsThen (deviceType : DeviceType) (results : List AuditResult) : List Action :=
  [.start (some 7) .linux 10, .finish 1 .completed [result 1 (lit "5.2.7") .fail], .sync noOthers 15,
    .start (some 7) deviceType 20, .finish 2 .completed results, .sync noOthers 25]

/-- The next audit with the same checks passes the one that failed. -/
theorem closed_after_passing :
    ∃ s, Reach (step Settings.default) (fun s a => shows s a = true) (begin []) s ∧ s.closings.length = 1 ∧
      ∀ c ∈ s.closings, evidence c.sessions c.item = true := by
  have hrun : (run (fun s a => if shows s a then step Settings.default s a else none)
      (failsThen .linux [result 2 (lit "5.2.7") .pass]) (begin [])).any (fun s => s.closings.length = 1) = true := by
    with_unfolding_all decide
  obtain ⟨s, hs, hlength⟩ := (Option.any_eq_true _ _).mp hrun
  have hreach : Reach (step Settings.default) (fun s a => shows s a = true) (begin []) s :=
    Reach.run (fun _ _ hok => hok) _ .start hs
  exact ⟨s, hreach, by simpa using hlength, fixed_on_evidence Settings.default [] hreach⟩

/-- The next audit of the server is one of the web server on it, which has not the check at all. -/
theorem closed_by_other_benchmark :
    ∃ s, Reach (step Settings.default) (fun _ _ => True) (begin []) s ∧
      ∃ c ∈ s.closings, evidence c.sessions c.item = false := by
  have hrun : (run (fun s a => if true then step Settings.default s a else none)
      (failsThen .nginx [result 2 (lit "2.4.1") .pass]) (begin [])).any
      (fun s => s.closings.any (fun c => !evidence c.sessions c.item)) = true := by with_unfolding_all decide
  obtain ⟨s, hs, hclosing⟩ := (Option.any_eq_true _ _).mp hrun
  obtain ⟨c, hc, hnone⟩ := List.any_eq_true.mp hclosing
  exact ⟨s, Reach.run (fun _ _ _ => trivial) _ .start hs, c, hc, by simpa using hnone⟩

end Evidence
