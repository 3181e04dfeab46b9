import Ngcorion.Hardening.BenchmarkTemplates
import Ngcorion.Remediation.Evidence
import Mathlib.Algebra.GroupWithZero.Nat

/-!
# Hardening runs of the benchmark modules

`run_template` runs the fix of a check over an open connection and then its verification, and reads the
success of the run out of what the verification printed. The check of a run that succeeded is marked passed
and its session is scored again.

A fix is to count when every statement of it returned, and so did every statement of its verification, and
one of these printed the line PASS and none the line FAIL. `run_template` looks for the two words anywhere in
all that was said, errors included. So it counts a fix that was not verified exactly when every statement of
it returned, nothing that was said has the word FAIL and something has the word PASS, but a verification
raised, or PASS stands on a line of its own in none of the answers.
-/
namespace BenchmarkFixes

open Text BenchmarkTemplates Evidence

variable {σ Score : Type}

/-- A connection: what a statement answers, or the text of what it raises, and the state of the target afterwards. -/
abbrev Conn (σ : Type) := σ → Str → Except Str Str × σ

structure FixResult where
  check_id : Str
  success : Bool
  statements_executed : List Str
  statement_outputs : List (Str × Str)
  verification_result : Option Str
  error_message : Option Str
  requires_restart : Bool
  manual_only : Bool

/-- The result of a run that stops before anything is executed. -/
def refused (check_id : Str) (requires_restart manual_only : Bool) (error_message : Str) : FixResult :=
  { check_id, requires_restart, manual_only, success := false, statements_executed := [], statement_outputs := [],
    verification_result := none, error_message := some error_message }

def failed {ε α : Type} : Except ε α → Bool
  | .ok _ => false
  | .error _ => true

/-- What is noted of an answer. -/
def said : Except Str Str → Str
  | .ok out => out
  | .error text => lit "ERROR: " ++ text.take 200

/-- The statements of a fix with their answers; later statements build on earlier ones, so the first failure is
the last one that is run. -/
def runFix (conn : Conn σ) : List Str → σ → List (Str × Except Str Str) × σ
  | [], s => ([], s)
  | stmt :: rest, s =>
    match conn s stmt with
    | (.ok out, s) => let run := runFix conn rest s; ((stmt, .ok out) :: run.1, run.2)
    | (.error text, s) => ([(stmt, .error text)], s)

/-- All statements of a verification, whatever they answer. -/
def runAll (conn : Conn σ) : List Str → σ → List (Except Str Str) × σ
  | [], s => ([], s)
  | stmt :: rest, s => let run := runAll conn rest (conn s stmt).2; ((conn s stmt).1 :: run.1, run.2)

/-- The texts of what the fix raised. -/
def errorsOf (fix : List (Str × Except Str Str)) : List Str :=
  fix.filterMap (fun e => match e.2 with
    | .ok _ => none
    | .error text => some (text.take 200))

def verdictText (checks : List (Except Str Str)) : Str := unlines (checks.map said)

/-- What is reported of a fix and its verification. -/
def conclude (template : HardeningTemplate) (check_id : Str) (fix : List (Str × Except Str Str))
    (checks : List (Except Str Str)) : FixResult :=
  let errors := errorsOf fix
  let text := verdictText checks
  let signal := contains (lit "FAIL") text || contains (lit "PASS") text
  let success := if checks = [] then decide (errors = [])
    else !contains (lit "FAIL") text && contains (lit "PASS") text && decide (errors = [])
  { check_id
    success
    statements_executed := (fix.filter (fun e => !failed e.2)).map (·.1)
    statement_outputs := fix.foldl (fun d e => Dict.set d (e.1.take 100) (said e.2)) []
    verification_result := if checks = [] then none else some text
    error_message :=
      if errors ≠ [] ∧ success = false then some (join (lit "; ") (errors.take 3))
      else if checks ≠ [] ∧ signal = false then some (lit "Verification produced no PASS/FAIL signal — fix not confirmed")
      else none
    requires_restart := template.requires_restart
    manual_only := template.manual_only }

section
variable (pf : Platform) (ts : TemplateSet)

/-- What is done before anything is executed: the template and its two lists of statements, or the result that says
why there is nothing to run. -/
def prepare (check_id : Str) (parameters : Parameters) : Except FixResult (HardeningTemplate × List Str × List Str) :=
  match ts.get check_id with
  | none => .error (refused check_id false false (lit "No hardening template found for " ++ check_id))
  | some template =>
    let refuse := refused check_id template.requires_restart template.manual_only
    if template.manual_only then
      .error (refuse (lit "Check " ++ check_id ++ lit " requires manual remediation: " ++ template.description))
    else
      let missing := ts.missing check_id parameters
      if missing ≠ [] then .error (refuse (lit "Missing required parameter(s): " ++ join (lit ", ") missing))
      else
        match ts.statements pf check_id parameters, ts.verify_statements pf check_id parameters with
        | .error problem, _ => .error (refuse problem)
        | _, .error problem => .error (refuse problem)
        | .ok statements, .ok verify =>
          let leftover := sortedTexts ((statements ++ verify).flatMap placeholders)
          if leftover ≠ [] then .error (refuse (lit "Missing required parameter(s): " ++ join (lit ", ") leftover))
          else .ok (template, statements, verify)

/-- `run_template`, from a state of the target. -/
def run_template (conn : Conn σ) (check_id : Str) (parameters : Parameters) (s : σ) : FixResult × σ :=
  match prepare pf ts check_id parameters with
  | .error result => (result, s)
  | .ok (template, statements, verify) =>
    let fix := runFix conn statements s
    let checks := runAll conn verify fix.2
    (conclude template check_id fix.1 checks.1, checks.2)

/-- One check of a batch with the state of the target when its turn comes. -/
structure Run (σ : Type) where
  check_id : Str
  parameters : Parameters
  start : σ

/-- The runs of a batch over one connection, one after the other. -/
def runsOf (conn : Conn σ) : List (Str × Parameters) → σ → List (Run σ)
  | [], _ => []
  | (check_id, parameters) :: rest, s =>
    { check_id, parameters, start := s } :: runsOf conn rest (run_template pf ts conn check_id parameters s).2

def Run.result (conn : Conn σ) (run : Run σ) : FixResult := (run_template pf ts conn run.check_id run.parameters run.start).1

end

/-! ## The audit session -/

structure Row where
  check_number : Option Str
  level : Option Str
  severity : Option Str
  status : CheckStatus
  evidence_snippet : Str

structure Session (Score : Type) where
  rows : List Row
  passed_checks : Nat
  failed_checks : Nat
  error_checks : Nat
  compliance_pct : Option Score
  weighted_compliance_pct : Option Score

/-- `SEVERITY_WEIGHTS`, with the weight of any other severity -/
def weight (severity : Option Str) : Nat :=
  if severity = some (lit "high") then 3 else if severity = some (lit "medium") then 2
  else if severity = some (lit "info") then 0 else 1

/-- `_recompute_session_stats`; `percent` is `round(100.0 * part / whole, 2)`. -/
def recompute (percent : Nat → Nat → Score) (s : Session Score) : Session Score :=
  let scored_rows := s.rows.filter (fun r => (if given r.level then r.level else some (lit "L1")) ≠ some (lit "INFO"))
  let passed := scored_rows.countP (fun r => r.status = .pass)
  let failed := scored_rows.countP (fun r => r.status = .fail)
  let weighted_rows := scored_rows.filter (fun r => r.status = .pass || r.status = .fail)
  let total_weight := (weighted_rows.map (fun r => weight r.severity)).sum
  let passed_weight := ((weighted_rows.filter (fun r => r.status = .pass)).map (fun r => weight r.severity)).sum
  { s with
    passed_checks := passed
    failed_checks := failed
    error_checks := scored_rows.countP (fun r => r.status = .error)
    compliance_pct := if 0 < passed + failed then some (percent passed (passed + failed)) else s.compliance_pct
    weighted_compliance_pct :=
      if 0 < total_weight then some (percent passed_weight total_weight) else s.weighted_compliance_pct }

/-- The first row of a check becomes PASS; none if there is no such row. -/
def markRow (check_id evidence : Str) : List Row → Option (List Row)
  | [] => none
  | row :: rows =>
    if row.check_number = some check_id then some ({ row with status := .pass, evidence_snippet := evidence } :: rows)
    else (markRow check_id evidence rows).map (row :: ·)

/-- The loop of `_mark_passed`: the rows, and whether one was changed. -/
def markRows : List FixResult → List Row × Bool → List Row × Bool
  | [], st => st
  | r :: results, (rows, changed) =>
    if r.success then
      match markRow r.check_id (r.verification_result.getD []) rows with
      | some rows => markRows results (rows, true)
      | none => markRows results (rows, changed)
    else markRows results (rows, changed)

def mark_passed (percent : Nat → Nat → Score) (results : List FixResult) (s : Session Score) : Session Score :=
  let marked := markRows results (s.rows, false)
  if marked.2 then recompute percent { s with rows := marked.1 } else s

/-! ## Verified fixes -/

/-- Every statement was run and returned. -/
def Returned (statements : List Str) (fix : List (Str × Except Str Str)) : Prop :=
  fix.map (·.1) = statements ∧ ∀ e ∈ fix, failed e.2 = false

/-- A line of what a statement printed -/
def Prints (line : Str) (answer : Except Str Str) : Prop := ∃ out, answer = .ok out ∧ line ∈ splitlines out

/-- The statements of a verification returned, one printed PASS and none FAIL. -/
structure Confirmed (checks : List (Except Str Str)) : Prop where
  returned : ∀ a ∈ checks, failed a = false
  pass : ∃ a ∈ checks, Prints (lit "PASS") a
  noFail : ∀ a ∈ checks, ¬ Prints (lit "FAIL") a

section
variable (pf : Platform) (ts : TemplateSet) (conn : Conn σ)

/-- What a run makes of its template: the statements, and the answers of the fix and of the verification. -/
def Run.answers (run : Run σ) : Option (List Str × List (Str × Except Str Str) × List (Except Str Str)) :=
  (prepare pf ts run.check_id run.parameters).toOption.map (fun p =>
    let fix := runFix conn p.2.1 run.start
    (p.2.1, fix.1, (runAll conn p.2.2 fix.2).1))

/-- The fix ran, and was verified where the template has a verification. -/
def Run.Verified (run : Run σ) : Prop :=
  ∃ statements fix checks, run.answers pf ts conn = some (statements, fix, checks) ∧ Returned statements fix ∧
    (checks = [] ∨ Confirmed checks)

/-- All statements of the fix returned, something that was said has the word PASS and nothing the word FAIL; but a
verification raised, or none printed the line PASS. -/
def Run.Misread (run : Run σ) : Prop :=
  ∃ statements fix checks, run.answers pf ts conn = some (statements, fix, checks) ∧ Returned statements fix ∧
    (∃ a ∈ checks, contains (lit "PASS") (said a) = true) ∧ (∀ a ∈ checks, contains (lit "FAIL") (said a) = false) ∧
    ((∃ a ∈ checks, failed a = true) ∨ ∀ a ∈ checks, ¬ Prints (lit "PASS") a)

/-- Of the runs of a batch only verified ones succeed, only their checks are marked in the session, and it is only
scored again when there is one. -/
structure Counts (percent : Nat → Nat → Score) (runs : List (Run σ)) (s : Session Score) : Prop where
  success : ∀ run ∈ runs, (run.result pf ts conn).success = true → run.Verified pf ts conn
  marked : ∀ i : Nat, ∀ row ∈ (mark_passed percent (runs.map (Run.result pf ts conn)) s).rows[i]?, row ∉ s.rows[i]? →
    ∃ run ∈ runs, row.check_number = some run.check_id ∧ run.Verified pf ts conn
  scored : mark_passed percent (runs.map (Run.result pf ts conn)) s ≠ s → ∃ run ∈ runs, run.Verified pf ts conn

end

/-! ## What a run reports -/

@[simp] theorem failed_ok {ε α : Type} (a : α) : failed (.ok a : Except ε α) = false := rfl
@[simp] theorem failed_error {ε α : Type} (e : ε) : failed (.error e : Except ε α) = true := rfl

section
variable (conn : Conn σ)

/-- A fix none of whose statements failed ran to its end. -/
theorem runFix_map {statements : List Str} {s : σ} (h : ∀ e ∈ (runFix conn statements s).1, failed e.2 = false) :
    (runFix conn statements s).1.map (·.1) = statements := by
  induction statements generalizing s with
  | nil => rfl
  | cons stmt rest ih =>
    rw [runFix] at h ⊢
    rcases hcall : conn s stmt with ⟨answer, s'⟩
    cases answer with
    | error text =>
      simp only [hcall] at h
      exact absurd (h _ List.mem_cons_self) (by simp)
    | ok out =>
      simp only [hcall] at h ⊢
      rw [List.map_cons, ih (fun e he => h e (List.mem_cons_of_mem _ he))]

theorem errorsOf_eq_nil {fix : List (Str × Except Str Str)} : errorsOf fix = [] ↔ ∀ e ∈ fix, failed e.2 = false := by
  simp only [errorsOf, List.filterMap_eq_nil_iff]
  refine forall₂_congr fun e _ => ?_
  cases e.2 <;> simp

theorem returned_iff {statements : List Str} {s : σ} :
    Returned statements (runFix conn statements s).1 ↔ errorsOf (runFix conn statements s).1 = [] := by
  rw [errorsOf_eq_nil]
  exact ⟨fun h => h.2, fun h => ⟨runFix_map conn h, h⟩⟩

end

/-- A run without verification succeeds when nothing failed, one with it when all that was said has the word PASS and
not the word FAIL, too. -/
theorem conclude_success (template : HardeningTemplate) (check_id : Str) (fix : List (Str × Except Str Str))
    (checks : List (Except Str Str)) : (conclude template check_id fix checks).success = true ↔ errorsOf fix = [] ∧
      (checks = [] ∨ (∃ a ∈ checks, contains (lit "PASS") (said a) = true) ∧
        ∀ a ∈ checks, contains (lit "FAIL") (said a) = false) := by
  have hword (w : Str) (hne : w ≠ []) (h : '\n' ∉ w) :
      contains w (verdictText checks) = checks.any (fun a => contains w (said a)) := by
    rw [verdictText, contains_unlines hne h, List.any_map]
    rfl
  have hpass := hword (lit "PASS") (by with_unfolding_all decide) (by with_unfolding_all decide)
  have hfail := hword (lit "FAIL") (by with_unfolding_all decide) (by with_unfolding_all decide)
  by_cases hchecks : checks = []
  · simp [conclude, hchecks]
  · simp only [conclude, hchecks, if_false, hpass, hfail, Bool.and_eq_true, Bool.not_eq_true', List.any_eq_true,
      List.any_eq_false, decide_eq_true_eq, false_or, Bool.not_eq_true]
    tauto

section
variable (pf : Platform) (ts : TemplateSet) (conn : Conn σ)

/-- A run that stops before anything is executed fails. -/
theorem prepare_error {check_id : Str} {parameters : Parameters} {r : FixResult}
    (h : prepare pf ts check_id parameters = .error r) : r.success = false ∧ r.check_id = check_id := by
  unfold prepare at h
  split at h
  · cases h
    exact ⟨rfl, rfl⟩
  · dsimp only at h
    split_ifs at h
    · cases h
      exact ⟨rfl, rfl⟩
    · cases h
      exact ⟨rfl, rfl⟩
    · split at h
      · cases h
        exact ⟨rfl, rfl⟩
      · cases h
        exact ⟨rfl, rfl⟩
      · split_ifs at h
        cases h
        exact ⟨rfl, rfl⟩

theorem success_iff (run : Run σ) : (run.result pf ts conn).success = true ↔
    ∃ statements fix checks, run.answers pf ts conn = some (statements, fix, checks) ∧ Returned statements fix ∧
      (checks = [] ∨ (∃ a ∈ checks, contains (lit "PASS") (said a) = true) ∧
        ∀ a ∈ checks, contains (lit "FAIL") (said a) = false) := by
  rw [Run.result, run_template, Run.answers]
  cases hp : prepare pf ts run.check_id run.parameters with
  | error refusal =>
    have hfailed := (prepare_error pf ts hp).1
    simp [Except.toOption, hfailed]
  | ok p =>
    obtain ⟨template, statements, verify⟩ := p
    simp only [Except.toOption, Option.map_some, Option.some.injEq, Prod.mk.injEq]
    rw [conclude_success, ← returned_iff]
    constructor
    · rintro ⟨hfix, hchecks⟩
      exact ⟨_, _, _, ⟨rfl, rfl, rfl⟩, hfix, hchecks⟩
    · rintro ⟨_, _, _, ⟨rfl, rfl, rfl⟩, hfix, hchecks⟩
      exact ⟨hfix, hchecks⟩

/-- A run reports nothing that was not verified exactly when its answers are not misread. -/
theorem sound_iff (run : Run σ) : ((run.result pf ts conn).success = true → run.Verified pf ts conn) ↔
    ¬ run.Misread pf ts conn := by
  rw [success_iff]
  constructor
  · rintro h ⟨statements, fix, checks, hanswers, hfix, hpass, hfail, hwrong⟩
    obtain ⟨_, _, checks', hanswers', -, hverified⟩ := h ⟨statements, fix, checks, hanswers, hfix, .inr ⟨hpass, hfail⟩⟩
    obtain ⟨-, -, rfl⟩ : statements = _ ∧ fix = _ ∧ checks = checks' := by
      simpa using hanswers.symm.trans hanswers'
    rcases hverified with rfl | hconfirmed
    · simp at hpass
    · rcases hwrong with ⟨a, ha, hfailed⟩ | hnone
      · simp [hconfirmed.returned a ha] at hfailed
      · obtain ⟨a, ha, hprints⟩ := hconfirmed.pass
        exact hnone a ha hprints
  · rintro h ⟨statements, fix, checks, hanswers, hfix, hchecks⟩
    refine ⟨statements, fix, checks, hanswers, hfix, ?_⟩
    refine hchecks.imp_right fun ⟨hpass, hfail⟩ => ?_
    have hright : ¬ ((∃ a ∈ checks, failed a = true) ∨ ∀ a ∈ checks, ¬ Prints (lit "PASS") a) := fun hwrong =>
      h ⟨statements, fix, checks, hanswers, hfix, hpass, hfail, hwrong⟩
    push Not at hright
    refine ⟨fun a ha => by simpa using hright.1 a ha, hright.2, ?_⟩
    -- a line FAIL would have the word FAIL
    rintro a ha ⟨out, rfl, hline⟩
    have hword := hfail _ ha
    rw [said, contains_of_mem_splitlines hline] at hword
    cases hword

theorem result_check_id (run : Run σ) : (run.result pf ts conn).check_id = run.check_id := by
  rw [Run.result, run_template]
  cases hp : prepare pf ts run.check_id run.parameters with
  | error r => exact (prepare_error pf ts hp).2
  | ok p => rfl

end

/-! ## What a session shows -/

theorem markRow_at {check_id evidence : Str} {rows rows' : List Row} (h : markRow check_id evidence rows = some rows')
    (i : Nat) : rows'[i]? = rows[i]? ∨ ∃ row, rows'[i]? = some row ∧ row.check_number = some check_id := by
  induction rows generalizing rows' i with
  | nil => cases h
  | cons row rows ih =>
    rw [markRow] at h
    split at h
    · rename_i hcheck
      cases h
      cases i with
      | zero => exact .inr ⟨_, rfl, hcheck⟩
      | succ i => exact .inl rfl
    · obtain ⟨rest, hrest, rfl⟩ := Option.map_eq_some_iff.mp h
      cases i with
      | zero => exact .inl rfl
      | succ i => exact ih hrest i

/-- A row that the loop changed has the number of a check that succeeded, and it notices none else. -/
theorem markRows_spec (results : List FixResult) (rows : List Row) (changed : Bool) :
    (∀ i : Nat, ∀ row ∈ (markRows results (rows, changed)).1[i]?, row ∈ rows[i]? ∨
      ∃ r ∈ results, r.success = true ∧ row.check_number = some r.check_id) ∧
    ((markRows results (rows, changed)).2 = true → changed = true ∨ ∃ r ∈ results, r.success = true) := by
  induction results generalizing rows changed with
  | nil => exact ⟨fun i row h => .inl h, .inl⟩
  | cons r results ih =>
    have hlater {rows' : List Row} {changed' : Bool} (hrows : ∀ i : Nat, ∀ row ∈ rows'[i]?, row ∈ rows[i]? ∨
        r.success = true ∧ row.check_number = some r.check_id) (hchanged : changed' = true → changed = true ∨ r.success = true) :
        (∀ i : Nat, ∀ row ∈ (markRows results (rows', changed')).1[i]?, row ∈ rows[i]? ∨
          ∃ x ∈ r :: results, x.success = true ∧ row.check_number = some x.check_id) ∧
        ((markRows results (rows', changed')).2 = true → changed = true ∨ ∃ x ∈ r :: results, x.success = true) := by
      refine ⟨fun i row hrow => ?_, fun h => ?_⟩
      · rcases (ih rows' changed').1 i row hrow with h | ⟨x, hx, hsuccess, hcheck⟩
        · exact (hrows i row h).imp_right fun h => ⟨r, List.mem_cons_self, h⟩
        · exact .inr ⟨x, List.mem_cons_of_mem _ hx, hsuccess, hcheck⟩
      · rcases (ih rows' changed').2 h with h | ⟨x, hx, hsuccess⟩
        · exact (hchanged h).imp_right fun h => ⟨r, List.mem_cons_self, h⟩
        · exact .inr ⟨x, List.mem_cons_of_mem _ hx, hsuccess⟩
    rw [markRows]
    split_ifs with hsuccess
    · cases hrow : markRow r.check_id (r.verification_result.getD []) rows with
      | none => exact hlater (fun i row h => .inl h) .inl
      | some rows' =>
        refine hlater (fun i row h => ?_) (fun _ => .inr hsuccess)
        rcases markRow_at hrow i with hsame | ⟨row', hat, hcheck⟩
        · exact .inl (hsame ▸ h)
        · obtain rfl : row' = row := by simpa [hat] using h
          exact .inr ⟨hsuccess, hcheck⟩
    · exact hlater (fun i row h => .inl h) .inl

@[simp] theorem recompute_rows (percent : Nat → Nat → Score) (s : Session Score) : (recompute percent s).rows = s.rows := rfl

theorem mark_passed_at {percent : Nat → Nat → Score} {results : List FixResult} {s : Session Score} {i : Nat} {row : Row}
    (h : row ∈ (mark_passed percent results s).rows[i]?) (hnew : row ∉ s.rows[i]?) :
    ∃ r ∈ results, r.success = true ∧ row.check_number = some r.check_id := by
  unfold mark_passed at h
  dsimp only at h
  split_ifs at h
  · exact ((markRows_spec results s.rows false).1 i row h).resolve_left hnew
  · exact absurd h hnew

theorem mark_passed_ne {percent : Nat → Nat → Score} {results : List FixResult} {s : Session Score}
    (h : mark_passed percent results s ≠ s) : ∃ r ∈ results, r.success = true := by
  unfold mark_passed at h
  dsimp only at h
  split_ifs at h with hchanged
  · exact ((markRows_spec results s.rows false).2 hchanged).resolve_left (by simp)
  · exact absurd rfl h

def plain : Platform := ⟨ParamSecurity.asciiDigits, fun pattern value => pattern = value, fun _ => []⟩

/-- A fix with two verifications -/
def twoChecks : TemplateSet where
  templates := [(lit "DNS-7", ⟨lit "DNS-7", lit "Scavenging and secure updates", [lit "Set-DnsServerScavenging"],
    [lit "Get-DnsServerScavenging", lit "Get-DnsServerZone"], false, false, []⟩)]
  params := []

/-- A server that does not let the second one read the zones. -/
def refusing : Conn Unit := fun s stmt =>
  (if stmt = lit "Get-DnsServerZone" then .error (lit "Access is denied") else .ok (lit "PASS"), s)

theorem refused_misread : (⟨lit "DNS-7", [], ()⟩ : Run Unit).Misread plain twoChecks refusing := by
  refine ⟨[lit "Set-DnsServerScavenging"], [(lit "Set-DnsServerScavenging", .ok (lit "PASS"))],
    [.ok (lit "PASS"), .error (lit "Access is denied")], by with_unfolding_all rfl, ⟨rfl, by simp⟩,
    ⟨_, List.mem_cons_self, by with_unfolding_all decide⟩, ?_, .inl ⟨_, List.mem_cons_of_mem _ List.mem_cons_self, rfl⟩⟩
  exact forall_mem_of_all (by with_unfolding_all decide)

end BenchmarkFixes
