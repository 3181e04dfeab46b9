import Ngcorion.Text
import Ngcorion.Remediation.Evidence
import Mathlib.Algebra.GroupWithZero.Nat

/-!
# Audit scores under the benchmark policy

A rule makes a check, or a whole level, of a benchmark optional or excludes it. A
completed audit session is scored under the rules in force: every result is marked
with the decision for its check, and where there is a mark the scores are those of
the checks that are still required.
-/
namespace Scoring

open Text
open Evidence (DeviceType CheckStatus given)

/-! ## Rules -/

inductive Decision where
  | optional | excluded
  deriving DecidableEq

inductive RuleStatus where
  | pending | approved | rejected | revoked | expired
  deriving DecidableEq

structure Rule where
  id : Nat
  benchmark : DeviceType
  checkNumber : Option Str
  level : Option Str
  severity : Option Str
  decision : Decision
  groupId : Option Nat
  expiresAt : Option Nat
  status : RuleStatus
  requestedBy : Nat
  deriving DecidableEq

/-- The case of a text, the members of the groups, and `round(100.0 * part / whole, 2)`. -/
structure Config (Score : Type) where
  upper : Str → Str
  lower : Str → Str
  members : Nat → List Nat
  percent : Nat → Nat → Score
  zero : Score

structure Result where
  checkNumber : Option Str
  level : Option Str
  severity : Option Str
  status : CheckStatus
  policy : Option Decision

/-- A completed session. -/
structure Session (Score : Type) where
  id : Nat
  benchmark : DeviceType
  assetId : Option Nat
  results : List Result
  compliance : Option Score
  weighted : Option Score
  rawCompliance : Option Score
  rawWeighted : Option Score
  policyOptional : Nat
  policyExcluded : Nat
  /-- `policy_checked_at` is set: the session does not wait for scoring. -/
  checked : Bool
  /-- The scores that the audit computed; every audit computes the first one. -/
  audit : Score × Option Score

variable {Score : Type}

/-- `in_force` -/
def Rule.inForce (r : Rule) (now : Nat) : Bool := r.status = .approved && r.expiresAt.all (now < ·)

/-- A rule for the check, or one without a check for the level. -/
def Rule.names (cfg : Config Score) (r : Rule) (result : Result) : Bool :=
  if given r.checkNumber then r.checkNumber.getD [] = result.checkNumber.getD []
  else given r.level && cfg.upper (r.level.getD []) = cfg.upper (result.level.getD [])

/-- A rule for a group applies to its assets only. -/
def Rule.applies (cfg : Config Score) (r : Rule) (benchmark : DeviceType) (assetId : Option Nat) (result : Result) : Bool :=
  r.benchmark = benchmark && r.names cfg result &&
    r.groupId.all (fun g => assetId.any (cfg.members g).contains)

/-- `Policy.decision`: excluded wins over optional. -/
def decision (cfg : Config Score) (policy : List Rule) (benchmark : DeviceType) (assetId : Option Nat)
    (result : Result) : Option Decision :=
  let rules := policy.filter (fun r => r.applies cfg benchmark assetId result)
  if rules.any (fun r => r.decision = .excluded) then some .excluded
  else if rules.isEmpty then none
  else some .optional

/-! ## Scores -/

def isScored (cfg : Config Score) (r : Result) : Bool :=
  r.policy.isNone && (r.status = .pass || r.status = .fail) && cfg.upper (r.level.getD []) ≠ lit "INFO"

/-- `WEIGHTS` -/
def weight (cfg : Config Score) (r : Result) : Nat :=
  let severity := cfg.lower (if given r.severity then r.severity.getD [] else lit "medium")
  if severity = lit "critical" then 4
  else if severity = lit "high" then 3
  else if severity = lit "medium" then 2
  else if severity = lit "low" then 1
  else if severity = lit "info" then 0
  else 2

/-- `_scores`: the plain and the weighted share of the scored checks that passed. -/
def scores (cfg : Config Score) (results : List Result) : Score × Score :=
  let scored := results.filter (isScored cfg)
  let passed := scored.filter (fun r => r.status = .pass)
  let total := (scored.map (weight cfg)).sum
  (if scored.length ≠ 0 then cfg.percent passed.length scored.length else cfg.zero,
    if total ≠ 0 then cfg.percent (passed.map (weight cfg)).sum total else cfg.zero)

def markedAs (d : Decision) (results : List Result) : Nat := results.countP (fun r => r.policy = some d)

/-- The results with the policy's decision for each check. -/
def remark (cfg : Config Score) (policy : List Rule) (s : Session Score) : List Result :=
  s.results.map (fun r => { r with policy := decision cfg policy s.benchmark s.assetId r })

/-- The module's own scores are kept when the policy looks at a session for the first time. -/
def keepRaw (s : Session Score) : Session Score :=
  if s.rawCompliance.isNone ∧ s.compliance.isSome then
    { s with rawCompliance := s.compliance, rawWeighted := s.weighted }
  else s

def setScores (cfg : Config Score) (results : List Result) (s : Session Score) : Session Score :=
  if markedAs .optional results ≠ 0 ∨ markedAs .excluded results ≠ 0 then
    { s with
      compliance := some (scores cfg results).1
      weighted := if s.rawWeighted.isSome then some (scores cfg results).2 else none }
  else if s.rawCompliance.isSome then { s with compliance := s.rawCompliance, weighted := s.rawWeighted }
  else s

def rescore (cfg : Config Score) (policy : List Rule) (s : Session Score) : Session Score :=
  let results := remark cfg policy s
  { setScores cfg results (keepRaw s) with
    results := results
    policyOptional := markedAs .optional results
    policyExcluded := markedAs .excluded results
    checked := true }

/-! ## What scoring keeps -/

/-- A result is marked. -/
def Session.marked (s : Session Score) : Bool := s.results.any (fun r => r.policy.isSome)

/-- The scores for the marks, or those of the audit when there is none. A session that
the audit gave no weighted score has none. -/
def Session.due (cfg : Config Score) (s : Session Score) : Option Score × Option Score :=
  if s.marked then
    (some (scores cfg s.results).1, if s.audit.2.isSome then some (scores cfg s.results).2 else none)
  else (some s.audit.1, s.audit.2)

/-- The marks are counted, the scores are those due, and the audit's own are kept. -/
structure Consistent (cfg : Config Score) (s : Session Score) : Prop where
  optional : s.policyOptional = markedAs .optional s.results
  excluded : s.policyExcluded = markedAs .excluded s.results
  raw : s.rawCompliance = none ∧ s.compliance = some s.audit.1 ∧ s.weighted = s.audit.2 ∨
    s.rawCompliance = some s.audit.1 ∧ s.rawWeighted = s.audit.2
  scores : (s.compliance, s.weighted) = s.due cfg

/-- The marks are the decisions of a policy. -/
def MarkedBy (cfg : Config Score) (policy : List Rule) (s : Session Score) : Prop :=
  ∀ r ∈ s.results, r.policy = decision cfg policy s.benchmark s.assetId r

theorem markedAs_eq_zero {d : Decision} {results : List Result} :
    markedAs d results = 0 ↔ ∀ r ∈ results, r.policy ≠ some d := by
  simp [markedAs, List.countP_eq_zero]

theorem unmarked_iff {results : List Result} :
    markedAs .optional results = 0 ∧ markedAs .excluded results = 0 ↔ ∀ r ∈ results, r.policy = none := by
  rw [markedAs_eq_zero, markedAs_eq_zero]
  constructor
  · intro h r hr
    cases hp : r.policy with
    | none => rfl
    | some d =>
      cases d with
      | optional => exact absurd hp (h.1 r hr)
      | excluded => exact absurd hp (h.2 r hr)
  · intro h
    exact ⟨fun r hr => by simp [h r hr], fun r hr => by simp [h r hr]⟩

theorem marked_iff (s : Session Score) :
    s.marked = true ↔ markedAs .optional s.results ≠ 0 ∨ markedAs .excluded s.results ≠ 0 := by
  have hfalse : s.marked = false ↔ ∀ r ∈ s.results, r.policy = none := by simp [Session.marked]
  rw [← Bool.not_eq_false, hfalse, ← unmarked_iff]
  omega

section Rescore

variable (cfg : Config Score) (policy : List Rule) {s : Session Score}

theorem keepRaw_raw (h : Consistent cfg s) :
    (keepRaw s).rawCompliance = some s.audit.1 ∧ (keepRaw s).rawWeighted = s.audit.2 := by
  unfold keepRaw
  rcases h.raw with ⟨hnone, hcompliance, hweighted⟩ | ⟨hraw, hrawWeighted⟩
  · rw [if_pos (by simp [hnone, hcompliance])]
    exact ⟨hcompliance, hweighted⟩
  · rw [if_neg (by simp [hraw])]
    exact ⟨hraw, hrawWeighted⟩

theorem keepRaw_frame (s : Session Score) : (keepRaw s).id = s.id ∧ (keepRaw s).benchmark = s.benchmark ∧
    (keepRaw s).assetId = s.assetId ∧ (keepRaw s).audit = s.audit := by
  unfold keepRaw
  split <;> exact ⟨rfl, rfl, rfl, rfl⟩

theorem setScores_frame (results : List Result) (s : Session Score) : (setScores cfg results s).id = s.id ∧
    (setScores cfg results s).benchmark = s.benchmark ∧ (setScores cfg results s).assetId = s.assetId ∧
    (setScores cfg results s).audit = s.audit ∧ (setScores cfg results s).rawCompliance = s.rawCompliance ∧
    (setScores cfg results s).rawWeighted = s.rawWeighted := by
  unfold setScores
  split
  · exact ⟨rfl, rfl, rfl, rfl, rfl, rfl⟩
  · split <;> exact ⟨rfl, rfl, rfl, rfl, rfl, rfl⟩

theorem rescore_frame (s : Session Score) : (rescore cfg policy s).id = s.id ∧
    (rescore cfg policy s).benchmark = s.benchmark ∧ (rescore cfg policy s).assetId = s.assetId ∧
    (rescore cfg policy s).audit = s.audit := by
  have hset := setScores_frame cfg (remark cfg policy s) (keepRaw s)
  have hkeep := keepRaw_frame s
  exact ⟨hset.1.trans hkeep.1, hset.2.1.trans hkeep.2.1, hset.2.2.1.trans hkeep.2.2.1,
    hset.2.2.2.1.trans hkeep.2.2.2⟩

theorem rescore_marked (s : Session Score) : MarkedBy cfg policy (rescore cfg policy s) := by
  obtain ⟨-, hbenchmark, hasset, -⟩ := rescore_frame cfg policy s
  intro r hr
  obtain ⟨r, -, rfl⟩ := List.mem_map.mp hr
  rw [hbenchmark, hasset]
  rfl

/-- Scoring under a policy keeps a session consistent. -/
theorem rescore_consistent (h : Consistent cfg s) : Consistent cfg (rescore cfg policy s) := by
  obtain ⟨hraw, hrawWeighted⟩ := keepRaw_raw cfg h
  have hset := setScores_frame cfg (remark cfg policy s) (keepRaw s)
  have haudit := (rescore_frame cfg policy s).2.2.2
  refine ⟨rfl, rfl, Or.inr ?_, ?_⟩
  · rw [haudit]
    exact ⟨hset.2.2.2.2.1.trans hraw, hset.2.2.2.2.2.trans hrawWeighted⟩
  · unfold Session.due
    rw [haudit]
    by_cases hmarked : (rescore cfg policy s).marked = true
    · have hcounts := (marked_iff _).mp hmarked
      have hscores : setScores cfg (remark cfg policy s) (keepRaw s) = { keepRaw s with
          compliance := some (scores cfg (remark cfg policy s)).1
          weighted := if (keepRaw s).rawWeighted.isSome then some (scores cfg (remark cfg policy s)).2 else none } :=
        if_pos hcounts
      rw [if_pos hmarked]
      simp only [rescore, hscores, hrawWeighted]
    · have hcounts : ¬ (markedAs .optional (remark cfg policy s) ≠ 0 ∨ markedAs .excluded (remark cfg policy s) ≠ 0) :=
        fun hc => hmarked ((marked_iff _).mpr hc)
      have hscores : setScores cfg (remark cfg policy s) (keepRaw s) = { keepRaw s with
          compliance := (keepRaw s).rawCompliance, weighted := (keepRaw s).rawWeighted } := by
        rw [setScores, if_neg hcounts, if_pos (by simp [hraw])]
      rw [if_neg hmarked]
      simp only [rescore, hscores, hraw, hrawWeighted]

/-- Whether a session waits for scoring says nothing of its marks and scores. -/
theorem Consistent.checked {cfg : Config Score} (h : Consistent cfg s) (checked : Bool) :
    Consistent cfg { s with checked := checked } := ⟨h.optional, h.excluded, h.raw, h.scores⟩

/-- A session without counted marks is marked as by a policy without rules. -/
theorem Consistent.unmarked {cfg : Config Score} (h : Consistent cfg s) (hoptional : s.policyOptional = 0)
    (hexcluded : s.policyExcluded = 0) : MarkedBy cfg [] s := by
  intro r hr
  rw [h.optional] at hoptional
  rw [h.excluded] at hexcluded
  exact unmarked_iff.mp ⟨hoptional, hexcluded⟩ r hr

end Rescore

/-! ## Policies that decide the same -/

/-- Two versions of a rule: everything but the status. -/
def SameRule (r r' : Rule) : Prop := r' = { r with status := r'.status }

theorem SameRule.applies {r r' : Rule} (h : SameRule r r') (cfg : Config Score) (benchmark : DeviceType)
    (assetId : Option Nat) (result : Result) :
    r'.applies cfg benchmark assetId result = r.applies cfg benchmark assetId result := by
  rw [show r' = { r with status := r'.status } from h]
  rfl

theorem SameRule.decision {r r' : Rule} (h : SameRule r r') : r'.decision = r.decision := by
  rw [show r' = { r with status := r'.status } from h]

/-- The rules of the benchmark in one policy have versions in the other one. -/
def Within (benchmark : DeviceType) (policy policy' : List Rule) : Prop :=
  ∀ r ∈ policy, r.benchmark = benchmark → ∃ r' ∈ policy', SameRule r r'

theorem decision_congr (cfg : Config Score) {policy policy' : List Rule} {benchmark : DeviceType}
    (h : Within benchmark policy policy') (h' : Within benchmark policy' policy) (assetId : Option Nat)
    (result : Result) : decision cfg policy benchmark assetId result = decision cfg policy' benchmark assetId result := by
  have hany : ∀ {p q : List Rule}, Within benchmark p q → ∀ f : Decision → Bool,
      (p.filter (fun r => r.applies cfg benchmark assetId result)).any (fun r => f r.decision) = true →
      (q.filter (fun r => r.applies cfg benchmark assetId result)).any (fun r => f r.decision) = true := by
    intro p q hpq f hf
    obtain ⟨r, hr, hdec⟩ := List.any_eq_true.mp hf
    obtain ⟨hmem, happlies⟩ := List.mem_filter.mp hr
    have hbenchmark : r.benchmark = benchmark := by
      simp only [Rule.applies, Bool.and_eq_true, decide_eq_true_eq] at happlies
      exact happlies.1.1
    obtain ⟨r', hr', hsame⟩ := hpq r hmem hbenchmark
    refine List.any_eq_true.mpr ⟨r', List.mem_filter.mpr ⟨hr', ?_⟩, ?_⟩
    · exact (hsame.applies cfg benchmark assetId result).trans happlies
    · rw [hsame.decision]
      exact hdec
  have heq : ∀ f : Decision → Bool,
      (policy.filter (fun r => r.applies cfg benchmark assetId result)).any (fun r => f r.decision) =
        (policy'.filter (fun r => r.applies cfg benchmark assetId result)).any (fun r => f r.decision) := by
    intro f
    rw [Bool.eq_iff_iff]
    exact ⟨hany h f, hany h' f⟩
  have hempty : ∀ l : List Rule, l.isEmpty = !l.any (fun _ => true) := by
    intro l
    cases l <;> simp
  simp only [decision, hempty, heq (fun d => d = .excluded), heq (fun _ => true)]

end Scoring
