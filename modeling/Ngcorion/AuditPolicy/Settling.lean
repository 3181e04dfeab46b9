import Ngcorion.AuditPolicy.Scoring
import Ngcorion.Transition

/-!
# Scores settle on the rules in force

Several processes decide on rules and score the sessions that wait for it. A
decision commits the status of its rule, then marks the sessions of the benchmark,
then scores. A scoring pass holds an advisory lock; its queries read what is
committed when they run, and what it writes is seen by others only after its
commit. A row it has written cannot be written by others before that.
-/
namespace Settling

open Text Transition Scoring
open Evidence (DeviceType given)
open Items (User)

/-! ## Who may change a rule -/

/-- `why_not_decide` -/
def whyNotDecide {Score : Type} (cfg : Config Score) (user : User) (r : Rule) : Option Str :=
  let broad := r.level.isSome || r.decision = .excluded &&
    (cfg.lower (r.severity.getD []) = lit "high" || cfg.lower (r.severity.getD []) = lit "critical")
  if r.status ≠ .pending then some (lit "This rule is not waiting for a decision")
  else if ¬ (user.role = .admin ∨ user.role = .manager) then
    some (lit "Only administrators and managers can decide on a policy rule")
  else if r.requestedBy = user.id then some (lit "You cannot decide on your own request")
  else if broad ∧ user.role ≠ .admin then
    some (lit "Only an administrator can decide on a whole level or on excluding a high or critical check")
  else none

/-- `_can_end` -/
def canEnd (user : User) (r : Rule) : Bool :=
  if r.status = .pending then r.requestedBy = user.id || user.role = .admin
  else r.status = .approved && (user.role = .admin || user.role = .manager)

/-! ## Processes -/

/-- What a scoring pass knows, and what it has done without having committed it. -/
structure Pass where
  now : Nat
  limit : Option Nat
  /-- The rules whose time is over. -/
  ended : List Nat
  /-- The sessions of the benchmarks of these rules. -/
  marks : List Nat
  policy : List Rule
  /-- The sessions to score. -/
  ids : List Nat
  /-- The sessions that are only stamped. -/
  stamps : List Nat
  deriving DecidableEq

inductive Phase where
  | idle
  /-- The status of the rule is committed, and its sessions are to be marked. -/
  | decided (ruleId : Nat)
  | marked
  /-- In `run_pending`, before the lock. -/
  | entered (now : Nat) (limit : Option Nat)
  | locked (now : Nat) (limit : Option Nat)
  | expired (p : Pass)
  | loaded (p : Pass)
  | selected (p : Pass)
  | written (p : Pass)
  | stamped (p : Pass)
  deriving DecidableEq

/-- The advisory lock is held until the commit. -/
def Phase.holds : Phase → Bool
  | .idle => false
  | .decided _ => false
  | .marked => false
  | .entered _ _ => false
  | _ => true

def Phase.pass : Phase → Option Pass
  | .expired p => some p
  | .loaded p => some p
  | .selected p => some p
  | .written p => some p
  | .stamped p => some p
  | _ => none

/-- The rows of rules that others cannot change before the commit. -/
def Phase.endedRules (ph : Phase) : List Nat := (ph.pass.map Pass.ended).getD []

/-- The rows of sessions that others cannot change before the commit. -/
def Phase.rows : Phase → List Nat
  | .expired p => p.marks
  | .loaded p => p.marks
  | .selected p => p.marks
  | .written p => p.marks ++ p.ids
  | .stamped p => p.marks ++ p.ids ++ p.stamps
  | _ => []

variable {Score : Type}

/-- The committed tables, the processes and the time. -/
structure State (Score : Type) where
  rules : List Rule
  sessions : List (Session Score)
  processes : List Phase
  clock : Nat

def setStatus (rules : List Rule) (id : Nat) (status : RuleStatus) : List Rule :=
  rules.map (fun r => if r.id = id then { r with status := status } else r)

def findRule (s : State Score) (id : Nat) : Option Rule := s.rules.find? (fun r => r.id = id)

def setPhase (s : State Score) (i : Nat) (ph : Phase) : State Score := { s with processes := s.processes.set i ph }

/-- `mark` of the sessions of a benchmark -/
def markSessions (s : State Score) (benchmark : DeviceType) : State Score :=
  { s with sessions := s.sessions.map (fun t => if t.benchmark = benchmark then { t with checked := false } else t) }

/-- The sessions of a benchmark have rows that another process has written. -/
def blocked (s : State Score) (benchmark : DeviceType) : Bool :=
  s.sessions.any (fun t => t.benchmark = benchmark && s.processes.any (fun ph => ph.rows.contains t.id))

/-! ## A scoring pass -/

/-- `expire`: the rules whose time is over, and the sessions of their benchmarks. -/
def expire (s : State Score) (now : Nat) (limit : Option Nat) : Pass :=
  let outdated := s.rules.filter (fun r => r.status = .approved && r.expiresAt.any (· ≤ now))
  { now := now, limit := limit, ended := outdated.map Rule.id
    marks := (s.sessions.filter (fun t => outdated.any (fun r => r.benchmark = t.benchmark))).map Session.id
    policy := [], ids := [], stamps := [] }

/-- `load` -/
def load (s : State Score) (p : Pass) : Pass :=
  { p with policy := s.rules.filter (fun r => r.inForce p.now && !p.ended.contains r.id) }

/-- A session waits for scoring, as the pass sees it. -/
def waits (p : Pass) (t : Session Score) : Bool := !t.checked || p.marks.contains t.id

/-- `q.limit(limit)` when there is one -/
def limitTo {α : Type} (limit : Option Nat) (l : List α) : List α :=
  match limit with
  | none => l
  | some 0 => l
  | some (n + 1) => l.take (n + 1)

def select (s : State Score) (p : Pass) : Pass :=
  let pending := s.sessions.filter (waits p)
  let chosen :=
    if p.policy.isEmpty then limitTo p.limit (pending.filter (fun t => 0 < t.policyOptional || 0 < t.policyExcluded))
    else limitTo p.limit (pending.insertionSort (fun t u => u.id ≤ t.id))
  { p with ids := chosen.map Session.id }

/-- Without a rule in force the other sessions are only stamped. -/
def stamp (s : State Score) (p : Pass) : Pass :=
  { p with stamps := (s.sessions.filter (fun t => waits p t && !p.ids.contains t.id &&
      t.policyOptional = 0 && t.policyExcluded = 0)).map Session.id }

/-- What is committed of a session. Nobody else writes the marks and scores of a session meanwhile. -/
def Pass.session (cfg : Config Score) (p : Pass) (t : Session Score) : Session Score :=
  if t.id ∈ p.ids then rescore cfg p.policy t
  else if t.id ∈ p.stamps then { t with checked := true }
  else if t.id ∈ p.marks then { t with checked := false }
  else t

def Pass.rule (p : Pass) (r : Rule) : Rule := if r.id ∈ p.ended then { r with status := .expired } else r

def commit (cfg : Config Score) (s : State Score) (i : Nat) (p : Pass) : State Score :=
  { s with
    rules := s.rules.map p.rule
    sessions := s.sessions.map (p.session cfg)
    processes := s.processes.set i .idle }

/-! ## Steps -/

inductive Action (Score : Type) where
  | request (rule : Rule)
  | decide (i ruleId : Nat) (user : User) (approve : Bool)
  | endRule (i ruleId : Nat) (user : User)
  /-- A pass begins, of the worker or after a decision. -/
  | enter (i now : Nat) (limit : Option Nat)
  /-- The next step of a process. -/
  | go (i : Nat)
  | complete (id : Nat) (benchmark : DeviceType) (assetId : Option Nat) (results : List Result) (compliance : Score)
      (weighted : Option Score)

def go (cfg : Config Score) (s : State Score) (i : Nat) : Phase → Option (State Score)
  | .decided ruleId =>
    match findRule s ruleId with
    | none => none
    | some r => if blocked s r.benchmark then none else some (setPhase (markSessions s r.benchmark) i .marked)
  | .entered now limit => if s.processes.any Phase.holds then none else some (setPhase s i (.locked now limit))
  | .locked now limit => some (setPhase s i (.expired (expire s now limit)))
  | .expired p => some (setPhase s i (.loaded (load s p)))
  | .loaded p => some (setPhase s i (.selected (select s p)))
  | .selected p => some (setPhase s i (.written p))
  | .written p => if p.policy.isEmpty then some (setPhase s i (.stamped (stamp s p))) else some (commit cfg s i p)
  | .stamped p => some (commit cfg s i p)
  | _ => none

def step (cfg : Config Score) (s : State Score) : Action Score → Option (State Score)
  | .request rule => some { s with rules := s.rules ++ [{ rule with id := s.rules.length + 1, status := .pending }] }
  | .decide i ruleId user approve =>
    match s.processes[i]?, findRule s ruleId with
    | some .idle, some r =>
      if (whyNotDecide cfg user r).isNone then
        some (setPhase { s with rules := setStatus s.rules ruleId (if approve then .approved else .rejected) } i
          (if approve then .decided ruleId else .idle))
      else none
    | _, _ => none
  | .endRule i ruleId user =>
    match s.processes[i]?, findRule s ruleId with
    | some .idle, some r =>
      if canEnd user r ∧ ¬ s.processes.any (fun ph => ph.endedRules.contains ruleId) then
        some (setPhase { s with rules := setStatus s.rules ruleId .revoked } i
          (if r.status = .approved then .decided ruleId else .idle))
      else none
    | _, _ => none
  | .enter i now limit =>
    if s.clock ≤ now then
      match s.processes[i]? with
      | some .idle => some (setPhase { s with clock := now } i (.entered now limit))
      | some .marked => some (setPhase { s with clock := now } i (.entered now (some 2000)))
      | _ => none
    else none
  | .go i =>
    match s.processes[i]? with
    | none => none
    | some ph => go cfg s i ph
  | .complete id benchmark assetId results compliance weighted =>
    if s.sessions.any (fun t => t.id = id) then none
    else some { s with sessions := s.sessions ++ [{
      id := id, benchmark := benchmark, assetId := assetId
      results := results.map (fun r => { r with policy := none })
      compliance := some compliance, weighted := weighted, rawCompliance := none, rawWeighted := none
      policyOptional := 0, policyExcluded := 0, checked := false, audit := (compliance, weighted) }] }

/-- Processes that do nothing yet. -/
def begin (processes : Nat) : State Score := ⟨[], [], List.replicate processes .idle, 0⟩

/-! ## Settled scores -/

/-- The rules whose status is approved. -/
def State.approved (s : State Score) : List Rule := s.rules.filter (fun r => r.status = .approved)

/-- No session waits, and no step is under way. -/
def quiet (s : State Score) : Bool := s.sessions.all Session.checked && s.processes.all (fun ph => ph = .idle)

/-- Every result is marked as the approved rules decide, and the scores are the ones for these marks. -/
def settled [DecidableEq Score] (cfg : Config Score) (s : State Score) : Bool :=
  s.sessions.all (fun t =>
    t.results.all (fun r => r.policy = decision cfg s.approved t.benchmark t.assetId r) &&
      (t.compliance, t.weighted) = t.due cfg)

/-! ## Passes that know of a change -/

/-- The pass has read of the rule what it would read now. -/
def agrees (p : Pass) (r : Rule) : Bool :=
  p.policy.any (fun r' => r'.id = r.id) = (r.inForce p.now && !p.ended.contains r.id)

/-- Among the sessions are some of the benchmark. -/
def touches (s : State Score) (ids : List Nat) (benchmark : DeviceType) : Bool :=
  s.sessions.any (fun t => t.benchmark = benchmark && ids.contains t.id)

/-- A pass that is still to write what a rule concerns has read the rule as it is now. -/
def informed (s : State Score) (r : Rule) : Phase → Bool
  | .loaded p => agrees p r
  | .selected p => !(p.policy.isEmpty || touches s p.ids r.benchmark) || agrees p r
  | .written p => !p.policy.isEmpty || agrees p r
  | _ => true

/-- The sessions of a rule are marked when every pass under way knows of the change. -/
def unraced (s : State Score) : Action Score → Bool
  | .go i =>
    match s.processes[i]? with
    | some (.decided ruleId) => (findRule s ruleId).all (fun r => s.processes.all (informed s r))
    | _ => true
  | _ => true

end Settling
