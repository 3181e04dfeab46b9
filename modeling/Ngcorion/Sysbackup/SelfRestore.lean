import Ngcorion.Text
import Ngcorion.Faults

/-!
# Restoring a backup onto the running server

The restore builds a staging schema, renames it to `public` in one transaction and
records how it ended. Every statement may raise, before or after its effect; a
transaction is applied as a whole or not at all.
-/
namespace SelfRestore

open Text Faults

/-! ## The system -/

/-- `RESTORE_STEPS` -/
inductive Key where
  | validate | maintenance | safety | staging | load | check | upgrade | carry | rekey | swap | files | finish
  deriving DecidableEq

/-- The statements that may raise. -/
inductive Site where
  | row (key : Key) | session (key : Key) | flag (key : Key)
  | maintenanceOn | currentPassphrase | safetyBackup | safetyRow | safetySession
  | stagingConnect | dropStaging | createStaging | migrate | createMissing | tablesConnect | truncateAll
  | dropForeignKeys | openReader | loadCommit | loadCheck | checkConnect | addForeignKeys | validateForeignKeys
  | upgrade | createModels | carry | setSequences | rekey
  | swapConnect | lockTimeout | terminateOthers | begin | syncLocal | renamePublic | renameStaging | grantUsage
  | moveExtensions | swapCommit | terminateAgain | swapClose | dispose
  | file (i : Nat) | afterRestore | dropOld | succeededRow | succeededSession | succeededFlag | audit
  | cleanConnect | cleanDrop | cleanClose | failedRow | failedSession | failedFlag
  | maintenanceOff | unlock
  deriving DecidableEq

structure Exc where
  /-- An `OSError` or a `ValueError`. -/
  io : Bool
  text : Str

abbrev Plan := Site → Option (Fault Exc)

variable {T : Type}

structure Schemas (T : Type) where
  /-- The schema `public` -/
  live : Option T
  staging : Option T
  /-- The schema that was `public` before the swap. -/
  old : Option T

inductive Status where
  | running | succeeded | failed
  deriving DecidableEq

inductive Message where
  | plain (text : Str)
  | restored (text : Str)
  deriving DecidableEq

def Message.text : Message → Str
  | .plain text => text.take 2000
  | .restored text => (lit "The backup was restored, but a final step failed: " ++ text).take 2000

/-- The row of the restore. It is one of the server's own tables, which the swap takes over. -/
structure Row where
  step : Option Key
  status : Status
  error : Option Message

structure World (T : Type) where
  schemas : Schemas T
  /-- The schemas as the transaction of the swap sees them. -/
  tx : Schemas T
  /-- The transaction of the swap was applied. -/
  replaced : Bool
  row : Row
  maintenance : Bool
  locked : Bool

/-- The backup: what each statement does to the tables in the staging schema. -/
structure Backup (T : Type) where
  empty : T
  transform : Site → T → T
  /-- It was made with another key. -/
  otherKey : Bool
  files : Nat

abbrev Statement (T : Type) := Stmt Site (World T) Exc

def raising (site : Site) (effect : World T → World T) : Statement T := ⟨site, effect, fun _ => false⟩

/-- `update_row` and its session: a failed write is only logged. -/
def updateRow (write session : Site) (f : Row → Row) : List (Statement T) :=
  [⟨write, fun w => { w with row := f w.row }, fun _ => true⟩, raising session id]

/-- `prog.start` -/
def start (key : Key) : List (Statement T) :=
  updateRow (.row key) (.session key) (fun r => { r with step := some key }) ++ [raising (.flag key) id]

/-- A statement on the tables of the staging schema. -/
def onStaging (backup : Backup T) (site : Site) : Statement T :=
  raising site (fun w => { w with schemas.staging := w.schemas.staging.map (backup.transform site) })

/-! ## The course of a restore -/

def opening : List (Statement T) :=
  start .validate ++ raising .maintenanceOn (fun w => { w with maintenance := true }) :: start .maintenance ++
    start .safety ++ raising .currentPassphrase id :: raising .safetyBackup id :: updateRow .safetyRow .safetySession id

/-- `reset_schema` -/
def dropStaging : Statement T := raising .dropStaging (fun w => { w with schemas.staging := none })

def createStaging (backup : Backup T) : Statement T :=
  raising .createStaging (fun w => { w with schemas.staging := some backup.empty })

/-- `_stage` after the schema is there -/
def stageTables (backup : Backup T) : List (Statement T) :=
  [onStaging backup .migrate, onStaging backup .createMissing, raising .tablesConnect id,
    onStaging backup .truncateAll, onStaging backup .dropForeignKeys] ++
  start .load ++ [raising .openReader id, onStaging backup .loadCommit, raising .loadCheck id] ++
  start .check ++ [raising .checkConnect id, onStaging backup .addForeignKeys, raising .validateForeignKeys id] ++
  start .upgrade ++ [onStaging backup .upgrade, onStaging backup .createModels]

def stage (backup : Backup T) : List (Statement T) :=
  start .staging ++ raising .stagingConnect id :: dropStaging :: createStaging backup :: stageTables backup

/-- `_carry`, and the new key where there is one -/
def carryAndRekey (backup : Backup T) : List (Statement T) :=
  start .carry ++ [onStaging backup .carry, onStaging backup .setSequences] ++
    start .rekey ++ if backup.otherKey then [onStaging backup .rekey] else []

/-- `dbdump.swap` up to the end of its transaction -/
def swapStatements (backup : Backup T) : List (Statement T) :=
  [raising .swapConnect id, raising .lockTimeout id, raising .terminateOthers id,
    raising .begin (fun w => { w with tx := w.schemas }),
    raising .syncLocal (fun w => { w with tx.staging := w.tx.staging.map (backup.transform .syncLocal) }),
    raising .renamePublic (fun w => { w with tx.old := w.tx.live, tx.live := none }),
    raising .renameStaging (fun w => { w with tx.live := w.tx.staging, tx.staging := none }),
    raising .grantUsage id, raising .moveExtensions id]

def swapCommit : Statement T := raising .swapCommit (fun w => { w with schemas := w.tx, replaced := true })

/-- `dbdump.swap` after its transaction -/
def swapEnd : List (Statement T) := [raising .terminateAgain id, raising .swapClose id, raising .dispose id]

def swap (backup : Backup T) : List (Statement T) := swapStatements backup ++ swapCommit :: swapEnd

/-- Everything before `swapped = True` -/
def untilSwapped (backup : Backup T) : List (Statement T) :=
  opening ++ stage backup ++ carryAndRekey backup ++ start .swap ++ swap backup

/-- The files are written one by one; the errors of writing are collected. -/
def writeFiles (backup : Backup T) : List (Statement T) :=
  (List.range backup.files).map (fun i => ⟨.file i, id, Exc.io⟩)

def beforeSucceeded (backup : Backup T) : List (Statement T) :=
  start .files ++ writeFiles backup ++ raising .afterRestore id :: start .finish ++
    [raising .dropOld (fun w => { w with schemas.old := none })]

def succeededRow : Statement T :=
  ⟨.succeededRow, fun w => { w with row.status := .succeeded, row.error := none }, fun _ => true⟩

def succeededEnd : List (Statement T) :=
  [raising .succeededSession id, raising .succeededFlag id, raising .audit id]

/-- Everything after `swapped = True` -/
def afterSwapped (backup : Backup T) : List (Statement T) := beforeSucceeded backup ++ succeededRow :: succeededEnd

/-- `drop_schema(STAGING)` -/
def cleanDrop : Statement T := raising .cleanDrop (fun w => { w with schemas.staging := none })

def cleanUp : List (Statement T) := [raising .cleanConnect id, cleanDrop, raising .cleanClose id]

def failedRow (message : Message) : Statement T :=
  ⟨.failedRow, fun w => { w with row.status := .failed, row.error := some message }, fun _ => true⟩

/-- `prog.finish(False)` -/
def finishFailed (message : Message) : List (Statement T) :=
  failedRow message :: [raising .failedSession id, raising .failedFlag id]

/-- The handler of `_run_restore`. An exception in the clean-up is only logged. -/
def handle (plan : Plan) (swapped : Bool) (exc : Exc) (w : World T) : World T :=
  if swapped then (exec plan (finishFailed (.restored exc.text)) w).1
  else (exec plan (finishFailed (.plain exc.text)) (exec plan cleanUp w).1).1

/-- The `finally` of `_run_restore` -/
def leave : List (Statement T) :=
  [⟨.maintenanceOff, fun w => { w with maintenance := false }, Exc.io⟩,
    raising .unlock (fun w => { w with locked := false })]

/-- `_run_restore` -/
def runRestore (backup : Backup T) (plan : Plan) (w : World T) : World T :=
  let ended := match exec plan (untilSwapped backup) w with
    | (w, some exc) => handle plan false exc w
    | (w, none) =>
      match exec plan (afterSwapped backup) w with
      | (w, some exc) => handle plan true exc w
      | (w, none) => w
  (exec plan leave ended).1

/-- The restore begins; an earlier one may have left its staging schema. -/
def begin (live : T) (leftover : Option T) : World T :=
  ⟨⟨some live, leftover, none⟩, ⟨some live, leftover, none⟩, false, ⟨none, .running, none⟩, false, true⟩

/-! ## The truth -/

/-- The outcome says that the backup was restored. -/
def Row.saysRestored (r : Row) : Bool :=
  match r.status, r.error with
  | .succeeded, _ => true
  | .failed, some (.restored _) => true
  | _, _ => false

structure Truthful (live : T) (w : World T) : Prop where
  untouched : w.row.status = .failed → w.row.saysRestored = false →
    w.schemas.live = some live ∧ w.schemas.staging = none
  replaced : w.replaced = true → w.row.saysRestored = true

/-! ## The exceptions that the restore is ready for -/

def beforeStaging : List (Statement T) := opening ++ start .staging ++ [raising .stagingConnect id]

/-- Everything before the commit of the swap -/
def beforeCommit (backup : Backup T) : List (Statement T) :=
  beforeStaging ++ dropStaging :: createStaging backup ::
    (stageTables backup ++ carryAndRekey backup ++ start .swap ++ swapStatements backup)

/-- The exception comes before the swap is applied. -/
def failsBefore (backup : Backup T) (plan : Plan) : Bool :=
  raises plan (beforeCommit backup) ||
    (swapCommit : Statement T).raises plan && !(swapCommit : Statement T).takesEffect plan

/-- The staging schema exists when it comes. -/
def stagingLeft (plan : Plan) (leftover : Bool) : Bool :=
  if raises plan (beforeStaging : List (Statement T)) then leftover
  else
    match plan .dropStaging, plan .createStaging with
    | some f, _ => !f.applied && leftover
    | none, some f => f.applied
    | none, none => true

/-- The exception comes after the swap is applied and before the restore knows of it. -/
def failsUnnoticed (plan : Plan) : Bool :=
  (swapCommit : Statement T).raises plan || raises plan (swapEnd : List (Statement T))

def cleans (plan : Plan) : Bool := (plan .cleanConnect).isNone && (cleanDrop : Statement T).takesEffect plan

/-- The failure is recorded. -/
def recordsFailure (plan : Plan) : Bool := (plan .failedRow).all (fun f => f.applied)

/-- The success is recorded, or the failure of a step after it. -/
def recordsOutcome (backup : Backup T) (plan : Plan) : Bool :=
  !raises plan (beforeSucceeded backup) && (succeededRow : Statement T).takesEffect plan ||
    raises plan (afterSwapped backup) && recordsFailure plan

def honest (backup : Backup T) (plan : Plan) (leftover : Bool) : Bool :=
  if failsBefore backup plan then cleans (T := T) plan || !stagingLeft (T := T) plan leftover || !recordsFailure plan
  else !failsUnnoticed (T := T) plan && recordsOutcome backup plan

/-! ## What the parts of the course leave alone -/

/-- The running system is as before, and the job has no outcome. -/
structure Untouched (live : T) (w : World T) : Prop where
  live : w.schemas.live = some live
  replaced : w.replaced = false
  status : w.row.status = .running

/-- The statement changes neither the running system nor the outcome. -/
def Harmless (st : Statement T) : Prop := ∀ live w, Untouched live w → Untouched live (st.effect w)

section Harmless

variable (backup : Backup T)

theorem harmless_id (site : Site) : Harmless (raising site id : Statement T) := fun _ _ h => h

theorem harmless_onStaging (site : Site) : Harmless (onStaging backup site) :=
  fun _ _ h => ⟨h.live, h.replaced, h.status⟩

theorem harmless_updateRow (write session : Site) {f : Row → Row} (hf : ∀ r, (f r).status = r.status) :
    ∀ st ∈ (updateRow write session f : List (Statement T)), Harmless st := by
  simp only [updateRow, List.forall_mem_cons]
  exact ⟨fun _ w h => ⟨h.live, h.replaced, (hf w.row).trans h.status⟩, harmless_id session, by simp⟩

theorem harmless_start (key : Key) : ∀ st ∈ (start key : List (Statement T)), Harmless st := by
  simp only [start, List.forall_mem_append, List.forall_mem_cons]
  exact ⟨harmless_updateRow _ _ (fun _ => rfl), harmless_id _, by simp⟩

theorem harmless_opening : ∀ st ∈ (opening : List (Statement T)), Harmless st := by
  simp only [opening, List.forall_mem_append, List.forall_mem_cons]
  exact ⟨⟨⟨harmless_start _, fun _ _ h => ⟨h.live, h.replaced, h.status⟩, harmless_start _⟩, harmless_start _⟩,
    harmless_id _, harmless_id _, harmless_updateRow _ _ (fun _ => rfl)⟩

theorem harmless_beforeStaging : ∀ st ∈ (beforeStaging : List (Statement T)), Harmless st := by
  simp only [beforeStaging, List.forall_mem_append, List.forall_mem_cons]
  exact ⟨⟨harmless_opening, harmless_start _⟩, harmless_id _, by simp⟩

theorem harmless_stageTables : ∀ st ∈ stageTables backup, Harmless st := by
  simp only [stageTables, List.forall_mem_append, List.forall_mem_cons]
  refine ⟨⟨⟨⟨⟨⟨?_, harmless_start _⟩, ?_⟩, harmless_start _⟩, ?_⟩, harmless_start _⟩, ?_⟩
  · exact ⟨harmless_onStaging backup _, harmless_onStaging backup _, harmless_id _, harmless_onStaging backup _,
      harmless_onStaging backup _, by simp⟩
  · exact ⟨harmless_id _, harmless_onStaging backup _, harmless_id _, by simp⟩
  · exact ⟨harmless_id _, harmless_onStaging backup _, harmless_id _, by simp⟩
  · exact ⟨harmless_onStaging backup _, harmless_onStaging backup _, by simp⟩

theorem harmless_carryAndRekey : ∀ st ∈ carryAndRekey backup, Harmless st := by
  simp only [carryAndRekey, List.forall_mem_append, List.forall_mem_cons]
  refine ⟨⟨⟨harmless_start _, harmless_onStaging backup _, harmless_onStaging backup _, by simp⟩, harmless_start _⟩, ?_⟩
  split
  · simp only [List.forall_mem_cons]
    exact ⟨harmless_onStaging backup _, by simp⟩
  · simp

theorem harmless_swapStatements : ∀ st ∈ swapStatements backup, Harmless st := by
  simp only [swapStatements, List.forall_mem_cons]
  exact ⟨harmless_id _, harmless_id _, harmless_id _, fun _ _ h => ⟨h.live, h.replaced, h.status⟩,
    fun _ _ h => ⟨h.live, h.replaced, h.status⟩, fun _ _ h => ⟨h.live, h.replaced, h.status⟩,
    fun _ _ h => ⟨h.live, h.replaced, h.status⟩, harmless_id _, harmless_id _, by simp⟩

theorem harmless_beforeCommit : ∀ st ∈ beforeCommit backup, Harmless st := by
  simp only [beforeCommit, List.forall_mem_append, List.forall_mem_cons]
  exact ⟨harmless_beforeStaging, fun _ _ h => ⟨h.live, h.replaced, h.status⟩,
    fun _ _ h => ⟨h.live, h.replaced, h.status⟩,
    ⟨⟨harmless_stageTables backup, harmless_carryAndRekey backup⟩, harmless_start _⟩, harmless_swapStatements backup⟩

end Harmless

theorem untilSwapped_eq (backup : Backup T) : untilSwapped backup = beforeCommit backup ++ swapCommit :: swapEnd := by
  simp [untilSwapped, beforeCommit, beforeStaging, stage, swap]

/-! ## The staging schema -/

/-- The statement leaves it open whether there is a staging schema. -/
def KeepsStaging (st : Statement T) : Prop := ∀ w, (st.effect w).schemas.staging.isSome = w.schemas.staging.isSome

section Staging

variable (backup : Backup T)

theorem keepsStaging_id (site : Site) : KeepsStaging (raising site id : Statement T) := fun _ => rfl

theorem keepsStaging_onStaging (site : Site) : KeepsStaging (onStaging backup site) := fun w => by
  simp [onStaging, raising]

theorem keepsStaging_updateRow (write session : Site) (f : Row → Row) :
    ∀ st ∈ (updateRow write session f : List (Statement T)), KeepsStaging st := by
  simp only [updateRow, List.forall_mem_cons]
  exact ⟨fun _ => rfl, keepsStaging_id session, by simp⟩

theorem keepsStaging_start (key : Key) : ∀ st ∈ (start key : List (Statement T)), KeepsStaging st := by
  simp only [start, List.forall_mem_append, List.forall_mem_cons]
  exact ⟨keepsStaging_updateRow _ _ _, keepsStaging_id _, by simp⟩

theorem keepsStaging_beforeStaging : ∀ st ∈ (beforeStaging : List (Statement T)), KeepsStaging st := by
  simp only [beforeStaging, opening, List.forall_mem_append, List.forall_mem_cons]
  exact ⟨⟨⟨⟨⟨keepsStaging_start _, fun _ => rfl, keepsStaging_start _⟩, keepsStaging_start _⟩, keepsStaging_id _,
    keepsStaging_id _, keepsStaging_updateRow _ _ _⟩, keepsStaging_start _⟩, keepsStaging_id _, by simp⟩

theorem keepsStaging_afterStaging : ∀ st ∈ stageTables backup ++ carryAndRekey backup ++ start .swap ++
    swapStatements backup, KeepsStaging st := by
  simp only [stageTables, carryAndRekey, swapStatements, List.forall_mem_append, List.forall_mem_cons]
  refine ⟨⟨⟨⟨⟨⟨⟨⟨⟨?_, keepsStaging_start _⟩, ?_⟩, keepsStaging_start _⟩, ?_⟩, keepsStaging_start _⟩, ?_⟩,
    ⟨⟨keepsStaging_start _, ?_⟩, keepsStaging_start _⟩, ?_⟩, keepsStaging_start _⟩, ?_⟩
  · exact ⟨keepsStaging_onStaging backup _, keepsStaging_onStaging backup _, keepsStaging_id _,
      keepsStaging_onStaging backup _, keepsStaging_onStaging backup _, by simp⟩
  · exact ⟨keepsStaging_id _, keepsStaging_onStaging backup _, keepsStaging_id _, by simp⟩
  · exact ⟨keepsStaging_id _, keepsStaging_onStaging backup _, keepsStaging_id _, by simp⟩
  · exact ⟨keepsStaging_onStaging backup _, keepsStaging_onStaging backup _, by simp⟩
  · exact ⟨keepsStaging_onStaging backup _, keepsStaging_onStaging backup _, by simp⟩
  · split
    · simp only [List.forall_mem_cons]
      exact ⟨keepsStaging_onStaging backup _, by simp⟩
    · simp
  · exact ⟨keepsStaging_id _, keepsStaging_id _, keepsStaging_id _, fun _ => rfl, fun _ => rfl, fun _ => rfl,
      fun _ => rfl, keepsStaging_id _, keepsStaging_id _, by simp⟩

variable {plan : Plan} {sts : List (Statement T)} {w : World T}

theorem exec_keepsStaging (h : ∀ st ∈ sts, KeepsStaging st) :
    (exec plan sts w).1.schemas.staging.isSome = w.schemas.staging.isSome := by
  apply exec_keeps (p := fun w' : World T => w'.schemas.staging.isSome = w.schemas.staging.isSome)
  · intro st hst w' hw'
    exact (h st hst w').trans hw'
  · rfl

/-- Whether there is a staging schema when the course before the commit ends. -/
theorem exec_beforeCommit_staging :
    (exec plan (beforeCommit backup) w).1.schemas.staging.isSome =
      stagingLeft (T := T) plan w.schemas.staging.isSome := by
  have hbefore := @exec_keepsStaging T plan beforeStaging w keepsStaging_beforeStaging
  unfold beforeCommit stagingLeft
  cases hraises : raises plan (beforeStaging : List (Statement T)) with
  | true =>
    rw [exec_append_raises hraises, if_pos rfl]
    exact hbefore
  | false =>
    rw [exec_append hraises, if_neg (by simp)]
    cases hdrop : plan .dropStaging with
    | some f =>
      have hst : (dropStaging : Statement T).raises plan = true := by simp [Stmt.raises, dropStaging, raising, hdrop]
      rw [exec_cons_raises hst]
      cases happlied : f.applied with
      | true => simp [Stmt.run, Stmt.takesEffect, dropStaging, raising, hdrop, happlied]
      | false => simpa [Stmt.run, Stmt.takesEffect, dropStaging, raising, hdrop, happlied] using hbefore
    | none =>
      have hst : (dropStaging : Statement T).raises plan = false := by simp [Stmt.raises, dropStaging, raising, hdrop]
      have hnone : ((dropStaging : Statement T).run plan (exec plan beforeStaging w).1).schemas.staging = none := by
        simp [Stmt.run, Stmt.takesEffect, dropStaging, raising, hdrop]
      rw [exec_cons hst]
      cases hcreate : plan .createStaging with
      | some f =>
        have hst : (createStaging backup).raises plan = true := by
          simp [Stmt.raises, createStaging, raising, hcreate]
        rw [exec_cons_raises hst]
        cases happlied : f.applied with
        | true => simp [Stmt.run, Stmt.takesEffect, createStaging, raising, hcreate, happlied]
        | false =>
          rw [Stmt.run, if_neg (by simp [Stmt.takesEffect, createStaging, raising, hcreate, happlied]), hnone]
          simp [happlied]
      | none =>
        have hst : (createStaging backup).raises plan = false := by
          simp [Stmt.raises, createStaging, raising, hcreate]
        rw [exec_cons hst, exec_keepsStaging (keepsStaging_afterStaging backup)]
        simp [Stmt.run, Stmt.takesEffect, createStaging, raising, hcreate]

end Staging

/-! ## How a restore ends -/

section End

variable {backup : Backup T} {plan : Plan} {live : T} {w : World T}

/-- Two worlds with the same system and the same outcome. -/
structure SameOutcome (w w' : World T) : Prop where
  schemas : w'.schemas = w.schemas
  replaced : w'.replaced = w.replaced
  row : w'.row = w.row

theorem exec_ids {sts : List (Statement T)} (h : ∀ st ∈ sts, ∀ w, SameOutcome w (st.effect w)) (w : World T) :
    SameOutcome w (exec plan sts w).1 := by
  apply exec_keeps (p := SameOutcome w)
  · intro st hst w' hw'
    have hstep := h st hst w'
    exact ⟨hstep.schemas.trans hw'.schemas, hstep.replaced.trans hw'.replaced, hstep.row.trans hw'.row⟩
  · exact ⟨rfl, rfl, rfl⟩

theorem run_id (site : Site) (w : World T) : (raising site id : Statement T).run plan w = w := by
  unfold Stmt.run
  split <;> rfl

theorem sameOutcome_id (site : Site) (w : World T) : SameOutcome w ((raising site id : Statement T).effect w) :=
  ⟨rfl, rfl, rfl⟩

theorem SameOutcome.truthful {w w' : World T} (h : SameOutcome w w') : Truthful live w' ↔ Truthful live w := by
  constructor
  · intro ht
    exact ⟨h.schemas ▸ h.row ▸ ht.untouched, h.replaced ▸ h.row ▸ ht.replaced⟩
  · intro ht
    refine ⟨?_, ?_⟩
    · rw [h.row, h.schemas]
      exact ht.untouched
    · rw [h.row, h.replaced]
      exact ht.replaced

/-- Leaving maintenance and giving the lock back change nothing of the outcome. -/
theorem leave_same (w : World T) : SameOutcome w (exec plan leave w).1 := by
  apply exec_ids
  simp only [leave, List.forall_mem_cons]
  exact ⟨fun _ => ⟨rfl, rfl, rfl⟩, fun _ => ⟨rfl, rfl, rfl⟩, by simp⟩

/-- The record of a failure. -/
theorem exec_finishFailed (message : Message) (w : World T) :
    SameOutcome (if recordsFailure plan then { w with row.status := .failed, row.error := some message } else w)
      (exec plan (finishFailed message) w).1 := by
  have hraises : (failedRow message : Statement T).raises plan = false := by simp [Stmt.raises, failedRow]
  rw [finishFailed, exec_cons hraises]
  have hrun : (failedRow message : Statement T).run plan w =
      if recordsFailure plan then { w with row.status := .failed, row.error := some message } else w := rfl
  rw [hrun]
  apply exec_ids
  simp only [List.forall_mem_cons]
  exact ⟨sameOutcome_id _, sameOutcome_id _, by simp⟩

/-- The clean-up drops the staging schema, and nothing else. -/
theorem exec_cleanUp (w : World T) : SameOutcome
    (if cleans (T := T) plan then { w with schemas.staging := none } else w) (exec plan cleanUp w).1 := by
  unfold cleanUp
  cases hconnect : plan .cleanConnect with
  | some f =>
    have hraises : (raising .cleanConnect id : Statement T).raises plan = true := by
      simp [Stmt.raises, raising, hconnect]
    rw [exec_cons_raises hraises, if_neg (by simp [cleans, hconnect]), run_id]
    exact ⟨rfl, rfl, rfl⟩
  | none =>
    have hraises : (raising .cleanConnect id : Statement T).raises plan = false := by
      simp [Stmt.raises, raising, hconnect]
    have hcleans : cleans (T := T) plan = (cleanDrop : Statement T).takesEffect plan := by simp [cleans, hconnect]
    have hsame : SameOutcome (if cleans (T := T) plan then { w with schemas.staging := none } else w)
        ((cleanDrop : Statement T).run plan w) := by
      rw [hcleans]
      exact ⟨rfl, rfl, rfl⟩
    rw [exec_cons hraises, run_id]
    cases hdrop : (cleanDrop : Statement T).raises plan with
    | true =>
      rw [exec_cons_raises hdrop]
      exact hsame
    | false =>
      rw [exec_cons hdrop]
      have hclose := @exec_ids T plan [raising .cleanClose id]
        (by simp only [List.forall_mem_cons]; exact ⟨sameOutcome_id _, by simp⟩) ((cleanDrop : Statement T).run plan w)
      exact ⟨hclose.schemas.trans hsame.schemas, hclose.replaced.trans hsame.replaced, hclose.row.trans hsame.row⟩

/-- An exception before the swap is applied finds the running system untouched. -/
theorem exec_failsBefore (h : failsBefore backup plan = true) (leftover : Option T) :
    ∃ w exc, exec plan (untilSwapped backup) (begin live leftover) = (w, some exc) ∧ Untouched live w ∧
      w.schemas.staging.isSome = stagingLeft (T := T) plan leftover.isSome := by
  have hkept : Untouched live (exec plan (beforeCommit backup) (begin live leftover)).1 :=
    exec_keeps (fun st hst w hw => harmless_beforeCommit backup st hst live w hw) ⟨rfl, rfl, rfl⟩
  have hstaging := @exec_beforeCommit_staging T backup plan (begin live leftover)
  rw [untilSwapped_eq]
  cases hraises : raises plan (beforeCommit backup) with
  | true =>
    obtain ⟨exc, hexc⟩ := Option.isSome_iff_exists.mp
      ((exec_exception plan (beforeCommit backup) (begin live leftover)).trans hraises)
    rw [exec_append_raises hraises]
    exact ⟨_, exc, Prod.ext rfl hexc, hkept, hstaging⟩
  | false =>
    have hcommit : (swapCommit : Statement T).raises plan = true ∧ (swapCommit : Statement T).takesEffect plan = false := by
      simpa [failsBefore, hraises] using h
    obtain ⟨f, hf⟩ : ∃ f, plan (swapCommit : Statement T).site = some f := by
      obtain ⟨f, hf, -⟩ := (Option.any_eq_true _ _).mp hcommit.1
      exact ⟨f, hf⟩
    have hrun : ∀ w : World T, (swapCommit : Statement T).run plan w = w := fun w => by
      rw [Stmt.run, if_neg (by simp [hcommit.2])]
    rw [exec_append hraises, exec_cons_raises hcommit.1, hrun, hf]
    exact ⟨_, f.exception, rfl, hkept, hstaging⟩

/-- Once the swap is applied there is no outcome before the restore knows of it. -/
theorem exec_swapped (h : failsBefore backup plan = false) (leftover : Option T) :
    (exec plan (untilSwapped backup) (begin live leftover)).1.replaced = true ∧
      (exec plan (untilSwapped backup) (begin live leftover)).1.row.status = .running ∧
      (exec plan (untilSwapped backup) (begin live leftover)).2.isSome = failsUnnoticed (T := T) plan := by
  simp only [failsBefore, Bool.or_eq_false_iff, Bool.and_eq_false_iff, Bool.not_eq_false'] at h
  obtain ⟨hraises, hcommit⟩ := h
  have heffect : (swapCommit : Statement T).takesEffect plan = true := by
    rcases hcommit with hquiet | heffect
    · have hnone : plan .swapCommit = none := by simpa [Stmt.raises, swapCommit, raising] using hquiet
      simp [Stmt.takesEffect, swapCommit, raising, hnone]
    · exact heffect
  have hend : ∀ st ∈ (swapEnd : List (Statement T)), ∀ w, SameOutcome w (st.effect w) := by
    simp only [swapEnd, List.forall_mem_cons]
    exact ⟨sameOutcome_id _, sameOutcome_id _, sameOutcome_id _, by simp⟩
  rw [untilSwapped_eq]
  refine ⟨?_, ?_, ?_⟩
  · apply exec_reaches (p := fun w : World T => w.replaced = true) hraises heffect
    · exact fun _ => rfl
    · exact fun st hst w hw => (hend st hst w).replaced.trans hw
  · have hkept : Untouched live (exec plan (beforeCommit backup) (begin live leftover)).1 :=
      exec_keeps (fun st hst w hw => harmless_beforeCommit backup st hst live w hw) ⟨rfl, rfl, rfl⟩
    rw [exec_append hraises]
    apply exec_keeps (p := fun w : World T => w.row.status = .running)
    · simp only [List.forall_mem_cons]
      exact ⟨fun _ hw => hw, fun st hst w hw => by rw [(hend st hst w).row]; exact hw⟩
    · exact hkept.status
  · rw [exec_exception]
    simp only [raises] at hraises
    simp [raises, List.any_append, hraises, failsUnnoticed]

/-- The statement changes neither whether the swap was applied nor the status. -/
def KeepsStatus (st : Statement T) : Prop :=
  ∀ w, (st.effect w).replaced = w.replaced ∧ (st.effect w).row.status = w.row.status

theorem keepsStatus_id (site : Site) : KeepsStatus (raising site id : Statement T) := fun _ => ⟨rfl, rfl⟩

theorem keepsStatus_start (key : Key) : ∀ st ∈ (start key : List (Statement T)), KeepsStatus st := by
  simp only [start, updateRow, List.forall_mem_append, List.forall_mem_cons]
  exact ⟨⟨fun _ => ⟨rfl, rfl⟩, keepsStatus_id _, by simp⟩, keepsStatus_id _, by simp⟩

theorem keepsStatus_beforeSucceeded (backup : Backup T) : ∀ st ∈ beforeSucceeded backup, KeepsStatus st := by
  simp only [beforeSucceeded, writeFiles, List.forall_mem_append, List.forall_mem_cons, List.forall_mem_map]
  exact ⟨⟨⟨keepsStatus_start _, fun _ _ _ => ⟨rfl, rfl⟩⟩, keepsStatus_id _, keepsStatus_start _⟩,
    fun _ => ⟨rfl, rfl⟩, by simp⟩

/-- After the swap the outcome says so when the success is recorded. -/
theorem exec_afterSwapped (hreplaced : w.replaced = true) (hstatus : w.row.status = .running) :
    (exec plan (afterSwapped backup) w).1.replaced = true ∧
      (exec plan (afterSwapped backup) w).1.row.saysRestored =
        (!raises plan (beforeSucceeded backup) && (succeededRow : Statement T).takesEffect plan) := by
  have hkept : (exec plan (beforeSucceeded backup) w).1.replaced = true ∧
      (exec plan (beforeSucceeded backup) w).1.row.status = .running := by
    apply exec_keeps (p := fun w : World T => w.replaced = true ∧ w.row.status = .running)
    · intro st hst w' hw'
      have hstep := keepsStatus_beforeSucceeded backup st hst w'
      exact ⟨hstep.1.trans hw'.1, hstep.2.trans hw'.2⟩
    · exact ⟨hreplaced, hstatus⟩
  cases hraises : raises plan (beforeSucceeded backup) with
  | true =>
    rw [afterSwapped, exec_append_raises hraises]
    exact ⟨hkept.1, by simp [Row.saysRestored, hkept.2]⟩
  | false =>
    have hrow : (succeededRow : Statement T).raises plan = false := by simp [Stmt.raises, succeededRow]
    have hend := @exec_ids T plan succeededEnd
      (by simp only [succeededEnd, List.forall_mem_cons]
          exact ⟨sameOutcome_id _, sameOutcome_id _, sameOutcome_id _, by simp⟩)
      ((succeededRow : Statement T).run plan (exec plan (beforeSucceeded backup) w).1)
    rw [afterSwapped, exec_append hraises, exec_cons hrow, hend.replaced, hend.row]
    unfold Stmt.run
    split
    · rename_i heffect
      refine ⟨hkept.1, ?_⟩
      rw [heffect]
      rfl
    · rename_i heffect
      exact ⟨hkept.1, by simp [heffect, Row.saysRestored, hkept.2]⟩

end End

/-- A restore whose swap was applied tells the truth when its outcome says so. -/
theorem truthful_of_replaced {live : T} {w : World T} (h : w.replaced = true) :
    Truthful live w ↔ w.row.saysRestored = true := by
  constructor
  · intro ht
    exact ht.replaced h
  · intro hsaid
    exact ⟨fun _ hnot => by simp [hsaid] at hnot, fun _ => hsaid⟩

section Truth

variable {plan : Plan} {live : T} {w : World T}

theorem handle_false (exc : Exc) : handle plan false exc w =
    (exec plan (finishFailed (.plain exc.text)) (exec plan cleanUp w).1).1 := rfl

theorem handle_true (exc : Exc) :
    handle plan true exc w = (exec plan (finishFailed (.restored exc.text)) w).1 := rfl

/-- After an exception that finds the system untouched. -/
theorem handle_untouched (exc : Exc) (h : Untouched live w) : Truthful live (handle plan false exc w) ↔
    (cleans (T := T) plan || !w.schemas.staging.isSome || !recordsFailure plan) = true := by
  rw [handle_false, (exec_finishFailed (.plain exc.text) _).truthful]
  have hclean := @exec_cleanUp T plan w
  cases hrecords : recordsFailure plan with
  | false =>
    rw [if_neg (by simp), hclean.truthful]
    simp only [Bool.not_false, Bool.or_true, iff_true]
    split
    · exact ⟨fun hf => by simp [h.status] at hf, fun hr => by simp [h.replaced] at hr⟩
    · exact ⟨fun hf => by simp [h.status] at hf, fun hr => by simp [h.replaced] at hr⟩
  | true =>
    rw [if_pos rfl]
    have hreplaced : (exec plan cleanUp w).1.replaced = false := by
      rw [hclean.replaced]
      split <;> exact h.replaced
    have hlive : (exec plan cleanUp w).1.schemas.live = some live := by
      rw [hclean.schemas]
      split <;> exact h.live
    have hstaging : (exec plan cleanUp w).1.schemas.staging = none ↔
        (cleans (T := T) plan || !w.schemas.staging.isSome) = true := by
      rw [hclean.schemas]
      split
      · rename_i hcleans
        simp [hcleans]
      · rename_i hcleans
        simp [hcleans]
    rw [Bool.not_true, Bool.or_false, ← hstaging]
    constructor
    · intro ht
      exact (ht.untouched rfl rfl).2
    · intro hnone
      exact ⟨fun _ _ => ⟨hlive, hnone⟩, fun hr => by simp [hreplaced] at hr⟩

/-- An exception that comes unnoticed after the swap is taken for one before it. -/
theorem handle_unnoticed (exc : Exc) (hreplaced : w.replaced = true) (hstatus : w.row.status = .running) :
    ¬ Truthful live (handle plan false exc w) := by
  rw [handle_false, (exec_finishFailed (.plain exc.text) _).truthful]
  have hclean := @exec_cleanUp T plan w
  have hreplaced' : (exec plan cleanUp w).1.replaced = true := by
    rw [hclean.replaced]
    split <;> exact hreplaced
  have hstatus' : (exec plan cleanUp w).1.row.status = .running := by
    rw [hclean.row]
    split <;> exact hstatus
  split
  · intro ht
    exact absurd (ht.replaced hreplaced') (by simp [Row.saysRestored])
  · intro ht
    exact absurd (ht.replaced hreplaced') (by simp [Row.saysRestored, hstatus'])

/-- A failure after the swap that is recorded says that the backup was restored. -/
theorem handle_swapped (exc : Exc) (hreplaced : w.replaced = true) :
    Truthful live (handle plan true exc w) ↔ (w.row.saysRestored || recordsFailure plan) = true := by
  rw [handle_true, (exec_finishFailed (.restored exc.text) _).truthful]
  cases hrecords : recordsFailure plan with
  | true =>
    rw [if_pos rfl, Bool.or_true]
    exact iff_of_true ((truthful_of_replaced (by exact hreplaced)).mpr rfl) rfl
  | false =>
    rw [if_neg (by simp), truthful_of_replaced hreplaced, Bool.or_false]

end Truth

/-- The restore tells the truth exactly for the exceptions it is ready for: none between
the commit of the swap and the note of it, and otherwise the clean-up and the record
of the outcome take effect. -/
theorem restore_truthful (backup : Backup T) (plan : Plan) (live : T) (leftover : Option T) :
    Truthful live (runRestore backup plan (begin live leftover)) ↔ honest backup plan leftover.isSome = true := by
  unfold runRestore
  rw [(leave_same _).truthful]
  unfold honest
  cases hbefore : failsBefore backup plan with
  | true =>
    obtain ⟨w, exc, hexec, huntouched, hstaging⟩ := @exec_failsBefore T backup plan live hbefore leftover
    rw [hexec, if_pos rfl, ← hstaging]
    exact handle_untouched exc huntouched
  | false =>
    obtain ⟨hreplaced, hstatus, hexc⟩ := @exec_swapped T backup plan live hbefore leftover
    rw [if_neg (by simp), ← hexc]
    cases hexec : exec plan (untilSwapped backup) (begin live leftover) with
    | mk w e =>
      rw [hexec] at hreplaced hstatus
      cases e with
      | some exc => simpa using handle_unnoticed exc hreplaced hstatus
      | none =>
        obtain ⟨hreplaced', hsaid⟩ := @exec_afterSwapped T backup plan w hreplaced hstatus
        have hraises := exec_exception plan (afterSwapped backup) w
        dsimp only
        unfold recordsOutcome
        rw [← hsaid, ← hraises]
        cases hrest : exec plan (afterSwapped backup) w with
        | mk w' e' =>
          rw [hrest] at hreplaced'
          cases e' with
          | some exc => simpa using handle_swapped exc hreplaced'
          | none => simpa using truthful_of_replaced hreplaced'

/-- The second `terminate_others` of the swap raises once the swap is applied: the backup
is live and the job says that the restore failed. -/
theorem failed_after_swap :
    ∃ (backup : Backup Nat) (plan : Plan),
      (runRestore backup plan (begin 1 none)).row.status = .failed ∧
      (runRestore backup plan (begin 1 none)).row.error = some (.plain (lit "lost")) ∧
      (runRestore backup plan (begin 1 none)).schemas.live = some 7 ∧
      ¬ Truthful 1 (runRestore backup plan (begin 1 none)) := by
  let backup : Backup Nat := ⟨0, fun site t => if site = .loadCommit then t + 7 else t, false, 0⟩
  let plan : Plan := fun site => if site = .terminateAgain then some ⟨true, ⟨false, lit "lost"⟩⟩ else none
  refine ⟨backup, plan, by with_unfolding_all decide, by with_unfolding_all decide,
    by with_unfolding_all decide, ?_⟩
  intro ht
  have hhonest := (restore_truthful backup plan 1 none).mp ht
  have hnot : honest backup plan false = false := by with_unfolding_all decide
  simp [hnot] at hhonest

end SelfRestore
