import Ngcorion.AssetGroups.StopFinal
import Ngcorion.Syslog.ConfigChanges

/-!
# Reported changes are backed up

What holds of the reported changes, their runs and their backups, whatever the process, the group run worker and the users
who change schedules do in between.
-/
namespace ConfigChangesBackedUp

open Text ConfigChanges Transition

/-! ## What is promised -/

/-- What the backup of an event says about the configuration that was read after the event -/
def Shows (same : Str → Str → Str → Bool) (unchanged : Bool) (backup : Backup) (reading : Reading) : Prop :=
  if unchanged then ∃ technology, same technology backup.config_content reading.text = true else backup.config_content = reading.text

/-- The event has a backup with what was read from its device after it was received. -/
def Backed (same : Str → Str → Str → Bool) (s : State) (e : ChangeEvent) : Prop :=
  ∃ backup ∈ s.backups, e.backup_id = some backup.id ∧ backup.asset_id = e.asset_id ∧
    ∃ reading ∈ s.captured, reading.asset_id = e.asset_id ∧ e.moment < reading.moment ∧
      Shows same (e.status = .unchanged) backup reading

structure Kept (same : Str → Str → Str → Bool) (s : State) : Prop where
  once : (s.history.map Prod.fst).Nodup
  left : ∀ e ∈ s.events, e.status ≠ .pending ↔ e.id ∈ s.history.map Prod.fst
  queued : ∀ e ∈ s.events, ∀ run, e.group_run_id = some run ↔ (e.id, some run) ∈ s.history
  alone : ∀ asset_id, ∀ run ∈ s.worker.runs, ∀ other ∈ s.worker.runs, covers s asset_id run.id = true →
    covers s asset_id other.id = true → run.status.active = true → other.status.active = true → run.id = other.id
  apart : ∀ asset_id, ∀ run ∈ s.worker.runs, ∀ other ∈ s.worker.runs, covers s asset_id run.id = true →
    covers s asset_id other.id = true → run.id < other.id →
      (s.runInfo run.id).created_at + minGapSeconds ≤ (s.runInfo other.id).created_at
  backed : ∀ e ∈ s.events, e.status = .done ∨ e.status = .unchanged → Backed same s e

/-! ## The events -/

/-- What the history tells about the events -/
structure Ledger (events : List ChangeEvent) (history : List (Nat × Option Nat)) : Prop where
  ids : events.map ChangeEvent.id = List.range events.length
  once : (history.map Prod.fst).Nodup
  known : ∀ x ∈ history.map Prod.fst, x < events.length
  left : ∀ e ∈ events, e.status ≠ .pending ↔ e.id ∈ history.map Prod.fst
  queued : ∀ e ∈ events, ∀ run, e.group_run_id = some run ↔ (e.id, some run) ∈ history

/-- Events that are still pending, each once -/
def StillPending (events : List ChangeEvent) (ids : List Nat) : Prop :=
  ids.Nodup ∧ ∀ x ∈ ids, ∃ e ∈ events, e.id = x ∧ e.status = .pending

section Ledger

variable {events : List ChangeEvent} {history : List (Nat × Option Nat)} {ids : List Nat} {e other : ChangeEvent}

theorem Ledger.inj (h : Ledger events history) (he : e ∈ events) (ho : other ∈ events) (hid : e.id = other.id) : e = other := by
  have hnodup : (events.map ChangeEvent.id).Nodup := by
    rw [h.ids]
    exact List.nodup_range
  exact List.inj_on_of_nodup_map hnodup he ho hid

theorem Ledger.lt (h : Ledger events history) (he : e ∈ events) : e.id < events.length := by
  have hmem := List.mem_map_of_mem (f := ChangeEvent.id) he
  rwa [h.ids, List.mem_range] at hmem

theorem Ledger.filter (h : Ledger events history) {p : ChangeEvent → Bool} (hp : ∀ event, p event = true → event.status = .pending) :
    StillPending events ((events.filter p).map ChangeEvent.id) := by
  constructor
  · refine List.Nodup.sublist (List.filter_sublist.map _) ?_
    rw [h.ids]
    exact List.nodup_range
  · intro x hx
    obtain ⟨e, he, rfl⟩ := List.mem_map.mp hx
    obtain ⟨hin, hpe⟩ := List.mem_filter.mp he
    exact ⟨e, hin, rfl, hp e hpe⟩

theorem Ledger.pendingOf (h : Ledger events history) (asset_id : Nat) :
    StillPending events ((pendingOf events asset_id).map ChangeEvent.id) :=
  h.filter fun _ he => (of_decide_eq_true he).1

/-- Pending events leave. -/
theorem Ledger.leave (h : Ledger events history) (hids : StillPending events ids) {status : Status} (hstatus : status ≠ .pending)
    (run : Option Nat) : Ledger
      (events.map fun e => if e.id ∈ ids then { e with status := status, group_run_id := run <|> e.group_run_id } else e)
      (history ++ ids.map fun id => (id, run)) := by
  have hkeys : (history ++ ids.map fun id => (id, run)).map Prod.fst = history.map Prod.fst ++ ids := by
    rw [List.map_append, List.map_map]
    congr 1
    exact List.map_id' ids
  have hnew {x : Nat} (hx : x ∈ ids) : x ∉ history.map Prod.fst := by
    obtain ⟨e, he, rfl, hpending⟩ := hids.2 x hx
    exact fun hmem => (h.left e he).mpr hmem hpending
  constructor
  · rw [List.map_map, List.length_map, ← h.ids]
    refine List.map_congr_left fun e _ => ?_
    rw [Function.comp_apply]
    split <;> rfl
  · rw [hkeys]
    exact List.Nodup.append h.once hids.1 fun x hold hx => hnew hx hold
  · intro x hx
    rw [List.length_map]
    rw [hkeys] at hx
    cases List.mem_append.mp hx with
    | inl hold => exact h.known x hold
    | inr hadded =>
      obtain ⟨e, he, rfl, -⟩ := hids.2 x hadded
      exact h.lt he
  · intro e he
    rw [hkeys, List.mem_append]
    obtain ⟨old, hold, rfl⟩ := List.mem_map.mp he
    by_cases hmem : old.id ∈ ids
    · rw [if_pos hmem]
      exact ⟨fun _ => .inr hmem, fun _ => hstatus⟩
    · rw [if_neg hmem, h.left old hold]
      exact ⟨.inl, fun h => h.resolve_right hmem⟩
  · intro e he r
    obtain ⟨old, hold, rfl⟩ := List.mem_map.mp he
    rw [List.mem_append, List.mem_map]
    by_cases hmem : old.id ∈ ids
    · rw [if_pos hmem]
      have hfree (r : Nat) : (old.id, some r) ∉ history := fun hin => hnew hmem (List.mem_map_of_mem (f := Prod.fst) hin)
      have hnone : old.group_run_id = none := by
        cases hrun : old.group_run_id with
        | none => rfl
        | some r => exact (hfree r ((h.queued old hold r).mp hrun)).elim
      rw [hnone]
      dsimp only
      constructor
      · intro hrun
        refine .inr ⟨old.id, hmem, ?_⟩
        cases run with
        | none => cases hrun
        | some run => exact congrArg _ hrun
      · rintro (hin | ⟨x, -, hx⟩)
        · exact (hfree r hin).elim
        · rw [Prod.mk.injEq] at hx
          rw [hx.2]
          rfl
    · rw [if_neg hmem, h.queued old hold]
      refine ⟨.inl, fun hin => hin.resolve_right ?_⟩
      rintro ⟨x, hx, hpair⟩
      rw [Prod.mk.injEq] at hpair
      exact hmem (hpair.1 ▸ hx)

/-- What is done about events that have left -/
theorem Ledger.map (h : Ledger events history) {f : ChangeEvent → ChangeEvent}
    (hf : ∀ e ∈ events, (f e).id = e.id ∧ (f e).group_run_id = e.group_run_id ∧ ((f e).status = .pending ↔ e.status = .pending)) :
    Ledger (events.map f) history := by
  constructor
  · rw [List.map_map, List.length_map, ← h.ids]
    exact List.map_congr_left fun e he => (hf e he).1
  · exact h.once
  · rw [List.length_map]
    exact h.known
  · intro e he
    obtain ⟨old, hold, rfl⟩ := List.mem_map.mp he
    rw [(hf old hold).1, ← h.left old hold]
    exact not_congr (hf old hold).2.2
  · intro e he r
    obtain ⟨old, hold, rfl⟩ := List.mem_map.mp he
    rw [(hf old hold).1, (hf old hold).2.1]
    exact h.queued old hold r

/-- New events -/
theorem Ledger.append (h : Ledger events history) {new : List ChangeEvent}
    (hids : new.map ChangeEvent.id = List.range' events.length new.length)
    (hnew : ∀ e ∈ new, e.status = .pending ∧ e.group_run_id = none) : Ledger (events ++ new) history := by
  have hfresh {e : ChangeEvent} (he : e ∈ new) : e.id ∉ history.map Prod.fst := by
    intro hmem
    have hin := List.mem_map_of_mem (f := ChangeEvent.id) he
    rw [hids, List.mem_range'_1] at hin
    exact Nat.not_lt.mpr hin.1 (h.known e.id hmem)
  constructor
  · rw [List.map_append, hids, h.ids, List.length_append, List.range_eq_range', List.range_eq_range',
      ← List.range'_append_1, Nat.zero_add]
  · exact h.once
  · intro x hx
    rw [List.length_append]
    exact Nat.lt_add_right _ (h.known x hx)
  · intro e he
    cases List.mem_append.mp he with
    | inl hold => exact h.left e hold
    | inr hadded =>
      refine ⟨fun hne => (hne (hnew e hadded).1).elim, fun hmem => (hfresh hadded hmem).elim⟩
  · intro e he r
    cases List.mem_append.mp he with
    | inl hold => exact h.queued e hold r
    | inr hadded =>
      rw [(hnew e hadded).2]
      exact ⟨fun hnone => (Option.some_ne_none r hnone.symm).elim, fun hmem => (hfresh hadded (List.mem_map.mpr ⟨_, hmem, rfl⟩)).elim⟩

end Ledger

/-! ## The worker -/

/-- The steps of the worker and its threads -/
def works : GroupRuns.Action → Bool
  | .start _ _ _ | .stopRead _ | .stopCommit _ | .retryRead _ | .retryCommit _ => false
  | _ => true

/-- The item that a thread ends well -/
def ended : GroupRuns.Action → Option Nat
  | .finish id _ .done => some id
  | _ => none

/-- No run is stopped. -/
structure Calm (w : GroupRuns.State) : Prop where
  inv : GroupRunStop.Inv w
  runs : ∀ run ∈ w.runs, run.status ≠ .stopping
  rows : ∀ sweep, w.sweep = some sweep → ∀ e ∈ sweep.rows, e.2 ≠ .stopping

/-- What a step of the worker does to the tables: no run that has ended begins again, and only the item that is ended well
gets done. -/
structure Moved (w w' : GroupRuns.State) (done : Option Nat) : Prop where
  items : ∃ f, w'.items = w.items.map f ∧ ∀ item ∈ w.items, (f item).id = item.id ∧ (f item).run = item.run ∧
    ((f item).status = .done → item.status = .done ∨ done = some item.id)
  runs : ∃ g, w'.runs = w.runs.map g ∧ ∀ run ∈ w.runs, (g run).id = run.id ∧ (g run).kind = run.kind ∧
    (run.status.active = false → (g run).status.active = false)

section Worker

variable {w w' : GroupRuns.State} {a : GroupRuns.Action}

theorem Moved.of_eq {done : Option Nat} (hitems : w'.items = w.items) (hruns : w'.runs = w.runs) : Moved w w' done := by
  refine ⟨⟨fun item => item, ?_, fun item _ => ⟨rfl, rfl, .inl⟩⟩, ⟨fun run => run, ?_, fun run _ => ⟨rfl, rfl, id⟩⟩⟩
  · rw [List.map_id', hitems]
  · rw [List.map_id', hruns]

theorem act_rows {sweep : GroupRuns.Sweep} {row : GroupRuns.Run} {running queued : Nat} {items : List GroupRuns.Item}
    {e : Nat × GroupRuns.RunStatus} (h : e ∈ (sweep.act row running queued items).rows) : e ∈ sweep.rows ∨ e.2 ≠ .stopping := by
  have hnew {status : GroupRuns.RunStatus} (hstatus : status ≠ .stopping) (h : e ∈ sweep.rows ++ [(row.id, status)]) :
      e ∈ sweep.rows ∨ e.2 ≠ .stopping := by
    refine (List.mem_append.mp h).imp_right fun hadded => ?_
    rw [List.mem_singleton] at hadded
    subst hadded
    exact hstatus
  unfold GroupRuns.Sweep.act at h
  split at h
  · dsimp only at h
    split at h
    · exact hnew (by decide) h
    · exact .inl h
  · split at h
    · exact hnew (by decide) h
    · dsimp only at h
      by_cases hqueued : row.status = .queued
      · rw [if_pos hqueued] at h
        split at h <;> exact hnew (by decide) h
      · rw [if_neg hqueued] at h
        split at h <;> exact .inl h

theorem sweepStep_rows {sweep sweep' : GroupRuns.Sweep} (h : GroupRuns.sweepStep w sweep a = some sweep')
    {e : Nat × GroupRuns.RunStatus} (he : e ∈ sweep'.rows) : e ∈ sweep.rows ∨ e.2 ≠ .stopping := by
  cases a with
  | reread =>
    simp only [GroupRuns.sweepStep] at h
    split at h
    · obtain ⟨row, -, rfl⟩ := Option.map_eq_some_iff.mp h
      exact .inl he
    · cases h
  | count =>
    simp only [GroupRuns.sweepStep] at h
    split at h
    · cases h
      exact .inl he
    · cases h
  | act =>
    simp only [GroupRuns.sweepStep] at h
    split at h
    · cases h
      have hrows := act_rows he
      exact hrows
    · cases h
  | _ => cases h

/-- A commit of the sweep -/
theorem Calm.commit (h : Calm w) (w' : GroupRuns.State) {sweep : GroupRuns.Sweep} (hsweep : w.sweep = some sweep)
    (hitems : w'.items = w.items.map sweep.write) (hruns : w'.runs = w.runs.map sweep.writeRow) :
    (∀ run ∈ w'.runs, run.status ≠ .stopping) ∧ Moved w w' none := by
  have hworking := h.inv.working sweep hsweep
  refine ⟨?_, ⟨_, hitems, fun item _ => ⟨GroupRunStop.write_id, GroupRunStop.write_run, ?_⟩⟩,
    ⟨_, hruns, fun run hrun => ⟨GroupRunStop.writeRow_id, ?_, fun hended => ?_⟩⟩⟩
  · rw [hruns]
    intro run hrun
    obtain ⟨before, hbefore, rfl⟩ := List.mem_map.mp hrun
    unfold GroupRuns.Sweep.writeRow
    split
    · next status hrow => exact h.rows sweep hsweep _ (Dict.mem_of_get _ _ _ hrow)
    · exact h.runs before hbefore
  · unfold GroupRuns.Sweep.write
    split
    · exact fun hdone => GroupRuns.ItemStatus.noConfusion hdone
    · split
      · exact fun hdone => GroupRuns.ItemStatus.noConfusion hdone
      · exact .inl
  · unfold GroupRuns.Sweep.writeRow
    split <;> rfl
  · unfold GroupRuns.Sweep.writeRow
    split
    · next status hrow =>
      have hactive := hworking.active run hrun (.inr (.inl (List.mem_map_of_mem (f := Prod.fst) (Dict.mem_of_get _ _ _ hrow))))
      rw [hended] at hactive
      cases hactive
    · exact hended

theorem Calm.step (h : Calm w) (ha : works a = true) (hstep : GroupRuns.step w a = some w') : Calm w' ∧ Moved w w' (ended a) := by
  have hallowed : GroupRunStop.Allowed w a := by
    cases a with
    | commit => exact fun sweep _ run hrun _ => h.runs run hrun
    | retryCommit => cases ha
    | _ => trivial
  have hinv := h.inv.step hallowed hstep
  have hsweep (hrest : (w.sweep.bind fun sweep => if sweep.pruning then none else
      (GroupRuns.sweepStep w sweep a).map fun sweep => { w with sweep := some sweep }) = some w') :
      Calm w' ∧ Moved w w' (ended a) := by
    obtain ⟨sweep, hsome, hrest⟩ := Option.bind_eq_some_iff.mp hrest
    split at hrest
    · cases hrest
    · obtain ⟨sweep', hnext, rfl⟩ := Option.map_eq_some_iff.mp hrest
      refine ⟨⟨hinv, h.runs, fun sw hsw e he => ?_⟩, .of_eq rfl rfl⟩
      cases hsw
      exact (sweepStep_rows hnext he).elim (h.rows sweep hsome e) id
  cases a with
  | start | stopRead | stopCommit | retryRead | retryCommit => cases ha
  | read =>
    simp only [GroupRuns.step, Option.ite_none_left_eq_some] at hstep
    obtain ⟨-, hs⟩ := hstep
    cases hs
    refine ⟨⟨hinv, h.runs, fun sw hsw e he => ?_⟩, .of_eq rfl rfl⟩
    cases hsw
    exact (List.not_mem_nil he).elim
  | commit =>
    obtain ⟨sweep, hsome, hs⟩ := Option.bind_eq_some_iff.mp hstep
    unfold GroupRuns.commit at hs
    dsimp only at hs
    split at hs
    · cases hs
      obtain ⟨hruns, hmoved⟩ := h.commit { GroupRuns.save sweep w with
        sweep := some ⟨sweep.todo.map fun e => (e.1, none), none, [], [], [], false⟩ } hsome rfl rfl
      refine ⟨⟨hinv, hruns, fun sw hsw e he => ?_⟩, hmoved⟩
      cases hsw
      exact (List.not_mem_nil he).elim
    · split at hs
      · cases hs
        obtain ⟨hruns, hmoved⟩ := h.commit { GroupRuns.save sweep w with
          sweep := none, held := [], waiting := w.waiting ++ (GroupRuns.save sweep w).held } hsome rfl rfl
        exact ⟨⟨hinv, hruns, fun sw hsw => by cases hsw⟩, hmoved⟩
      · cases hs
  | execute id =>
    simp only [GroupRuns.step, Option.ite_none_right_eq_some] at hstep
    obtain ⟨-, hs⟩ := hstep
    obtain ⟨item, -, rfl⟩ := Option.map_eq_some_iff.mp hs
    exact ⟨⟨hinv, h.runs, h.rows⟩, .of_eq rfl rfl⟩
  | finish id cancel status =>
    simp only [GroupRuns.step, Option.ite_none_right_eq_some] at hstep
    obtain ⟨-, hs⟩ := hstep
    cases hs
    refine ⟨⟨hinv, h.runs, h.rows⟩, ⟨⟨GroupRuns.finish id status, rfl, fun item _ => ?_⟩, ⟨fun run => run, ?_, fun run _ => ⟨rfl, rfl, fun h => h⟩⟩⟩⟩
    · refine ⟨GroupRunStop.finish_id, GroupRunStop.finish_run, ?_⟩
      unfold GroupRuns.finish
      split
      · next hid =>
        intro hdone
        dsimp only at hdone
        subst hdone
        exact .inr (congrArg some hid.symm)
      · exact .inl
    · rw [List.map_id']
  | reread | count | act => exact hsweep hstep

end Worker

/-! ## What every step keeps -/

/-- The run of an item is a backup. -/
def OfBackup (w : GroupRuns.State) (run : Nat) : Prop := ∃ r ∈ w.runs, r.id = run ∧ r.kind = .backup

/-- An item of a backup that is done has a backup with what its thread has read. -/
def Saved (same : Str → Str → Str → Bool) (s : State) (item : GroupRuns.Item) : Prop :=
  ∃ backup ∈ s.backups, (s.itemInfo item.id).backup_id = some backup.id ∧ backup.asset_id = (s.itemInfo item.id).asset_id ∧
    ∃ reading ∈ s.captured, reading.item = item.id ∧ Shows same ((s.itemInfo item.id).outcome = some .unchanged) backup reading

/-- The runs for an asset have ended, a gap before a time. -/
def Free (s : State) (asset_id : Nat) (now : Int) : Prop := ∀ run ∈ s.worker.runs, covers s asset_id run.id = true →
  run.status.active = false ∧ (s.runInfo run.id).created_at + minGapSeconds ≤ now

/-- A pass that is about to start a run -/
def PassOk (s : State) : Prop := ∀ p, s.pass = some p → p.now ≤ s.clock ∧
  ∀ asset_id ids job rest, p.phase = .start asset_id ids job rest → StillPending s.events ids ∧ Free s asset_id p.now

/-- `n` is the number of steps so far. -/
structure Inv (same : Str → Str → Str → Bool) (n : Nat) (s : State) : Prop where
  calm : Calm s.worker
  ledger : Ledger s.events s.history
  times : ∀ e ∈ s.events, e.moment < n
  reports : ∀ r ∈ s.reported, r.moment < n
  runs : ∀ e ∈ s.events, ∀ run, e.group_run_id = some run → OfBackup s.worker run
  created : ∀ run ∈ s.worker.runs, (s.runInfo run.id).created_at ≤ s.clock
  order : ∀ asset_id, ∀ run ∈ s.worker.runs, ∀ other ∈ s.worker.runs, covers s asset_id run.id = true →
    covers s asset_id other.id = true → run.id < other.id →
      run.status.active = false ∧ (s.runInfo run.id).created_at + minGapSeconds ≤ (s.runInfo other.id).created_at
  pass : PassOk s
  readings : ∀ reading ∈ s.captured, reading.asset_id = (s.itemInfo reading.item).asset_id ∧
    ∃ item ∈ s.worker.items, item.id = reading.item ∧ ∀ e ∈ s.events, e.group_run_id = some item.run → e.moment < reading.moment
  saved : ∀ item ∈ s.worker.items, item.status = .done → OfBackup s.worker item.run → Saved same s item
  backed : ∀ e ∈ s.events, e.status = .done ∨ e.status = .unchanged → Backed same s e

section Steps

variable {same : Str → Str → Str → Bool} {n m : Nat} {s s' : State} {asset_id : Nat}

theorem Inv.kept (h : Inv same n s) : Kept same s := by
  constructor
  · exact h.ledger.once
  · exact h.ledger.left
  · exact h.ledger.queued
  · intro asset_id run hrun other hother hcovers hcovers' hactive hactive'
    obtain hlt | heq | hgt := Nat.lt_trichotomy run.id other.id
    · have hended := (h.order asset_id run hrun other hother hcovers hcovers' hlt).1
      rw [hactive] at hended
      cases hended
    · exact heq
    · have hended := (h.order asset_id other hother run hrun hcovers' hcovers hgt).1
      rw [hactive'] at hended
      cases hended
  · exact fun asset_id run hrun other hother hcovers hcovers' hlt =>
      (h.order asset_id run hrun other hother hcovers hcovers' hlt).2
  · exact h.backed

/-- Nothing changes but the clock, the schedules, the reports and the pass. -/
theorem Inv.frame (h : Inv same n s) (hn : n ≤ m) (hclock : s.clock ≤ s'.clock) (hworker : s'.worker = s.worker)
    (hrunInfo : s'.runInfo = s.runInfo) (hitemInfo : s'.itemInfo = s.itemInfo) (hcaptured : s'.captured = s.captured)
    (hbackups : s'.backups = s.backups) (hevents : s'.events = s.events) (hhistory : s'.history = s.history)
    (hreports : ∀ r ∈ s'.reported, r.moment < m) (hpass : PassOk s') : Inv same m s' := by
  have hcovers (asset_id run : Nat) : covers s' asset_id run = covers s asset_id run := by
    rw [covers, hworker, hrunInfo, hitemInfo, covers]
  constructor
  · rw [hworker]
    exact h.calm
  · rw [hevents, hhistory]
    exact h.ledger
  · rw [hevents]
    exact fun e he => (h.times e he).trans_le hn
  · exact hreports
  · rw [hevents, hworker]
    exact h.runs
  · rw [hworker, hrunInfo]
    exact fun run hrun => le_trans (h.created run hrun) hclock
  · simp only [hcovers, hworker, hrunInfo]
    exact h.order
  · exact hpass
  · rw [hcaptured, hworker, hitemInfo, hevents]
    exact h.readings
  · unfold Saved
    rw [hworker, hbackups, hcaptured, hitemInfo]
    exact h.saved
  · unfold Backed
    rw [hevents, hbackups, hcaptured]
    exact h.backed

/-! ### Steps of the worker -/

theorem Moved.ofBackup {w w' : GroupRuns.State} {done : Option Nat} (h : Moved w w' done) {run : Nat} :
    OfBackup w' run ↔ OfBackup w run := by
  obtain ⟨g, hruns, hg⟩ := h.runs
  unfold OfBackup
  rw [hruns]
  constructor
  · rintro ⟨r, hr, hid, hkind⟩
    obtain ⟨old, hold, rfl⟩ := List.mem_map.mp hr
    exact ⟨old, hold, (hg old hold).1 ▸ hid, (hg old hold).2.1 ▸ hkind⟩
  · rintro ⟨r, hr, hid, hkind⟩
    exact ⟨g r, List.mem_map_of_mem hr, (hg r hr).1.trans hid, (hg r hr).2.1.trans hkind⟩

theorem Moved.covers {done : Option Nat} (h : Moved s.worker s'.worker done) (hrunInfo : s'.runInfo = s.runInfo)
    (hassets : ∀ id, (s'.itemInfo id).asset_id = (s.itemInfo id).asset_id) (asset_id run : Nat) :
    covers s' asset_id run = covers s asset_id run := by
  obtain ⟨f, hitems, hf⟩ := h.items
  unfold ConfigChanges.covers
  rw [hrunInfo, hitems, List.any_map]
  congr 1
  rw [Bool.eq_iff_iff, List.any_eq_true, List.any_eq_true]
  refine exists_congr fun item => and_congr_right fun hitem => ?_
  rw [Function.comp_apply, (hf item hitem).1, (hf item hitem).2.1, hassets]

/-- A step of the worker, with what it adds beside its tables -/
theorem Inv.worked (h : Inv same n s) {done : Option Nat} (hcalm : Calm s'.worker) (hmoved : Moved s.worker s'.worker done)
    (hclock : s'.clock = s.clock) (hrunInfo : s'.runInfo = s.runInfo)
    (hassets : ∀ id, (s'.itemInfo id).asset_id = (s.itemInfo id).asset_id)
    (hinfo : ∀ id, done ≠ some id → s'.itemInfo id = s.itemInfo id) (hcaptured : s'.captured = s.captured)
    (hbackups : ∀ b ∈ s.backups, b ∈ s'.backups) (hevents : s'.events = s.events) (hhistory : s'.history = s.history)
    (hreported : s'.reported = s.reported) (hpass : s'.pass = s.pass)
    (hdone : ∀ item ∈ s'.worker.items, done = some item.id → OfBackup s.worker item.run → Saved same s' item) : Inv same n s' := by
  have hcovers := hmoved.covers hrunInfo hassets
  obtain ⟨f, hitems, hf⟩ := hmoved.items
  obtain ⟨g, hruns, hg⟩ := hmoved.runs
  constructor
  · exact hcalm
  · rw [hevents, hhistory]
    exact h.ledger
  · rw [hevents]
    exact h.times
  · rw [hreported]
    exact h.reports
  · rw [hevents]
    exact fun e he run hrun => hmoved.ofBackup.mpr (h.runs e he run hrun)
  · rw [hruns, hrunInfo, hclock]
    intro run hrun
    obtain ⟨old, hold, rfl⟩ := List.mem_map.mp hrun
    rw [(hg old hold).1]
    exact h.created old hold
  · rw [hruns, hrunInfo]
    intro asset_id run hrun other hother hcover hcover' hlt
    obtain ⟨old, hold, rfl⟩ := List.mem_map.mp hrun
    obtain ⟨old', hold', rfl⟩ := List.mem_map.mp hother
    rw [hcovers, (hg old hold).1] at hcover
    rw [hcovers, (hg old' hold').1] at hcover'
    rw [(hg old hold).1, (hg old' hold').1] at hlt ⊢
    exact (h.order asset_id old hold old' hold' hcover hcover' hlt).imp_left (hg old hold).2.2
  · intro p hp
    rw [hpass] at hp
    obtain ⟨hnow, hstart⟩ := h.pass p hp
    refine ⟨hclock ▸ hnow, fun asset_id ids job rest hphase => ?_⟩
    obtain ⟨hpending, hfree⟩ := hstart asset_id ids job rest hphase
    refine ⟨hevents ▸ hpending, fun run hrun hcover => ?_⟩
    rw [hruns] at hrun
    obtain ⟨old, hold, rfl⟩ := List.mem_map.mp hrun
    rw [hcovers, (hg old hold).1] at hcover
    rw [hrunInfo, (hg old hold).1]
    exact (hfree old hold hcover).imp_left (hg old hold).2.2
  · rw [hcaptured, hitems, hevents]
    intro reading hreading
    obtain ⟨hasset, item, hitem, hid, hlater⟩ := h.readings reading hreading
    refine ⟨by rw [hassets, hasset], f item, List.mem_map_of_mem hitem, (hf item hitem).1.trans hid, ?_⟩
    rw [(hf item hitem).2.1]
    exact hlater
  · intro item hitem hstatus hbackup
    rw [hmoved.ofBackup] at hbackup
    by_cases hsame : done = some item.id
    · exact hdone item hitem hsame hbackup
    · rw [hitems] at hitem
      obtain ⟨old, hold, rfl⟩ := List.mem_map.mp hitem
      rw [(hf old hold).1] at hsame
      have hwas := ((hf old hold).2.2 hstatus).resolve_right hsame
      rw [(hf old hold).2.1] at hbackup
      obtain ⟨backup, hin, hrest⟩ := h.saved old hold hwas hbackup
      unfold Saved
      rw [(hf old hold).1, hinfo old.id hsame, hcaptured]
      exact ⟨backup, hbackups backup hin, hrest⟩
  · unfold Backed
    rw [hevents, hcaptured]
    intro e he hstatus
    obtain ⟨backup, hin, hrest⟩ := h.backed e he hstatus
    exact ⟨backup, hbackups backup hin, hrest⟩

theorem Inv.workerStep {a : GroupRuns.Action} (h : Inv same n s) (hstep : workerStep s a = some s') : Inv same n s' := by
  have hplain (hworks : works a = true) (hended : ended a = none)
      (hs : (GroupRuns.step s.worker a).map (fun worker => { s with worker := worker }) = some s') : Inv same n s' := by
    obtain ⟨w', hw', rfl⟩ := Option.map_eq_some_iff.mp hs
    obtain ⟨hcalm, hmoved⟩ := h.calm.step hworks hw'
    rw [hended] at hmoved
    exact h.worked hcalm hmoved rfl rfl (fun _ => rfl) (fun _ _ => rfl) rfl (fun _ hb => hb) rfl rfl rfl rfl fun _ _ hnone => by cases hnone
  cases a with
  | start | stopRead | stopCommit | retryRead | retryCommit => cases hstep
  | finish id cancel status =>
    cases status with
    | done =>
      simp only [ConfigChanges.workerStep, Option.ite_none_left_eq_some] at hstep
      obtain ⟨hnot, hs⟩ := hstep
      obtain ⟨w', hw', rfl⟩ := Option.map_eq_some_iff.mp hs
      obtain ⟨hcalm, hmoved⟩ := h.calm.step rfl hw'
      refine h.worked hcalm hmoved rfl rfl (fun _ => rfl) (fun _ _ => rfl) rfl (fun _ hb => hb) rfl rfl rfl rfl ?_
      -- the item is not of a backup
      rintro item hitem hid ⟨run, hrun, hrunid, hkind⟩
      obtain ⟨f, hitems, hf⟩ := hmoved.items
      rw [hitems] at hitem
      obtain ⟨old, hold, rfl⟩ := List.mem_map.mp hitem
      refine (hnot ?_).elim
      rw [List.any_eq_true]
      refine ⟨old, hold, ?_⟩
      rw [Bool.and_eq_true, decide_eq_true_eq, List.any_eq_true]
      refine ⟨(hf old hold).1.symm.trans (Option.some.inj hid).symm, run, hrun, ?_⟩
      rw [Bool.and_eq_true, decide_eq_true_eq, decide_eq_true_eq]
      exact ⟨hrunid.trans (hf old hold).2.1, hkind⟩
    | _ => exact hplain rfl rfl hstep
  | _ => exact hplain rfl rfl hstep

/-- A fold that keeps what it has or takes the element at hand ends with an element or with what it began with. -/
theorem mem_of_foldl_some {f : Option Backup → Backup → Option Backup}
    (hf : ∀ found b, f found b = found ∨ f found b = some b) {backups : List Backup} {found : Option Backup}
    {backup : Backup} (h : backups.foldl f found = some backup) : backup ∈ backups ∨ found = some backup := by
  induction backups generalizing found with
  | nil => exact .inr h
  | cons b bs ih =>
    rcases ih h with hin | hsame
    · exact .inl (List.mem_cons_of_mem _ hin)
    · rcases hf found b with hkept | htaken
      · exact .inr (hkept ▸ hsame)
      · rw [htaken] at hsame
        cases hsame
        exact .inl List.mem_cons_self

theorem latest_mem {backups : List Backup} {backup : Backup} (h : latest backups asset_id = some backup) :
    backup ∈ backups ∧ backup.asset_id = asset_id := by
  unfold latest at h
  have hmem := mem_of_foldl_some (fun found b => by
    cases found with
    | none => exact .inr rfl
    | some f =>
      dsimp only
      split
      · exact .inr rfl
      · exact .inl rfl) h
  rcases hmem with hin | hnone
  · exact ⟨(List.mem_filter.mp hin).1, of_decide_eq_true (List.mem_filter.mp hin).2⟩
  · cases hnone

theorem Inv.saveItem {id : Nat} (h : Inv same n s) (hstep : saveItem same id s = some s') : Inv same n s' := by
  unfold ConfigChanges.saveItem at hstep
  obtain ⟨reading, hreading, hstep⟩ := Option.bind_eq_some_iff.mp hstep
  obtain ⟨item, hitem, hstep⟩ := Option.bind_eq_some_iff.mp hstep
  have hcaptured := List.mem_of_find?_eq_some hreading
  have hof := List.find?_some hreading
  rw [decide_eq_true_eq] at hof
  split at hstep
  · cases hstep
  · obtain ⟨w', hw', hs⟩ := Option.map_eq_some_iff.mp hstep
    obtain ⟨hcalm, hmoved⟩ := h.calm.step rfl hw'
    have hworked {s' : State} (backup : Backup) (outcome : Outcome) (hworker : s'.worker = w')
        (hinfo : s'.itemInfo = Function.update s.itemInfo id { s.itemInfo id with backup_id := some backup.id, outcome := some outcome })
        (hclock : s'.clock = s.clock) (hrunInfo : s'.runInfo = s.runInfo) (hreadings : s'.captured = s.captured)
        (hbackups : ∀ b ∈ s.backups, b ∈ s'.backups) (hevents : s'.events = s.events) (hhistory : s'.history = s.history)
        (hreported : s'.reported = s.reported) (hpass : s'.pass = s.pass) (hin : backup ∈ s'.backups)
        (hasset : backup.asset_id = (s.itemInfo id).asset_id) (hshows : Shows same (outcome = .unchanged) backup reading) :
        Inv same n s' := by
      refine h.worked (hworker ▸ hcalm) (hworker ▸ hmoved) hclock hrunInfo (fun x => ?_) (fun x hx => ?_) hreadings hbackups hevents
        hhistory hreported hpass fun item' hitem' hid _ => ?_
      · rw [hinfo]
        by_cases hx : x = id
        · rw [hx, Function.update_self]
        · rw [Function.update_of_ne hx]
      · rw [hinfo, Function.update_of_ne fun hsame => hx (congrArg some hsame.symm)]
      · have hsame : item'.id = id := (Option.some.inj hid).symm
        unfold Saved
        rw [hinfo, hsame, Function.update_self, hreadings]
        refine ⟨backup, hin, rfl, hasset, reading, hcaptured, hof, ?_⟩
        simpa only [Option.some.injEq] using hshows
    dsimp only at hs
    split at hs
    · next previous hprevious =>
      obtain ⟨hin, hasset⟩ := latest_mem hprevious
      split at hs
      · next hsame =>
        cases hs
        refine hworked previous .unchanged rfl rfl rfl rfl rfl (fun _ hb => hb) rfl rfl rfl rfl hin hasset ?_
        exact ⟨_, hsame⟩
      · cases hs
        exact hworked _ .changed rfl rfl rfl rfl rfl (fun _ hb => List.mem_append_left _ hb) rfl rfl rfl rfl
          (List.mem_append_right _ List.mem_cons_self) rfl rfl
    · cases hs
      exact hworked _ .first rfl rfl rfl rfl rfl (fun _ hb => List.mem_append_left _ hb) rfl rfl rfl rfl
        (List.mem_append_right _ List.mem_cons_self) rfl rfl

/-! ### Readings, backups and reports -/

theorem Inv.capture {id : Nat} {text : Str} (h : Inv same s.moment s) (hstep : capture id text s = some s') :
    Inv same s.moment s' := by
  simp only [ConfigChanges.capture, Option.ite_none_right_eq_some] at hstep
  obtain ⟨⟨hthread, -⟩, hs⟩ := hstep
  cases hs
  have hmore {e : ChangeEvent} (hbacked : Backed same s e) : Backed same { s with
      captured := s.captured ++ [⟨id, (s.itemInfo id).asset_id, text, s.moment⟩] } e := by
    obtain ⟨backup, hin, hid, hasset, reading, hreading, hrest⟩ := hbacked
    exact ⟨backup, hin, hid, hasset, reading, List.mem_append_left _ hreading, hrest⟩
  refine ⟨h.calm, h.ledger, h.times, h.reports, h.runs, h.created, h.order, h.pass, ?_, ?_, fun e he hstatus => hmore (h.backed e he hstatus)⟩
  · intro reading hreading
    cases List.mem_append.mp hreading with
    | inl hold => exact h.readings reading hold
    | inr hnew =>
      rw [List.mem_singleton] at hnew
      subst hnew
      obtain ⟨item, hitem, hid, -⟩ := (h.calm.inv.active id).mp (List.mem_append_right _ hthread)
      exact ⟨rfl, item, hitem, hid, fun e he _ => h.times e he⟩
  · intro item hitem hstatus hbackup
    obtain ⟨backup, hin, hid, hasset, reading, hreading, hrest⟩ := h.saved item hitem hstatus hbackup
    exact ⟨backup, hin, hid, hasset, reading, List.mem_append_left _ hreading, hrest⟩

theorem Inv.backup (h : Inv same n s) (backup : Backup) : Inv same n { s with backups := s.backups ++ [backup] } := by
  refine ⟨h.calm, h.ledger, h.times, h.reports, h.runs, h.created, h.order, h.pass, h.readings, ?_, ?_⟩
  · intro item hitem hstatus hbackup
    obtain ⟨b, hin, hrest⟩ := h.saved item hitem hstatus hbackup
    exact ⟨b, List.mem_append_left _ hin, hrest⟩
  · intro e he hstatus
    obtain ⟨b, hin, hrest⟩ := h.backed e he hstatus
    exact ⟨b, List.mem_append_left _ hin, hrest⟩

theorem mem_recorded {e : ChangeEvent} (he : e ∈ recorded s) :
    e.status = .pending ∧ e.group_run_id = none ∧ ∃ r ∈ s.reported, e.moment = r.moment := by
  obtain ⟨k, hk, rfl⟩ := List.mem_mapIdx.mp he
  exact ⟨rfl, rfl, _, List.getElem_mem hk, rfl⟩

theorem StillPending.append {events new : List ChangeEvent} {ids : List Nat} (h : StillPending events ids) :
    StillPending (events ++ new) ids := by
  refine ⟨h.1, fun x hx => ?_⟩
  obtain ⟨e, he, hrest⟩ := h.2 x hx
  exact ⟨e, List.mem_append_left _ he, hrest⟩

theorem Inv.record (h : Inv same n s) : Inv same n { s with reported := [], events := s.events ++ recorded s } := by
  have hids : (recorded s).map ChangeEvent.id = List.range' s.events.length (recorded s).length := by
    unfold recorded
    rw [List.length_mapIdx]
    refine List.ext_getElem (by simp) fun k hk hk' => ?_
    simp
  have hof {e : ChangeEvent} (he : e ∈ s.events ++ recorded s) {run : Nat} (hrun : e.group_run_id = some run) : e ∈ s.events := by
    refine (List.mem_append.mp he).resolve_right fun hnew => ?_
    rw [(mem_recorded hnew).2.1] at hrun
    cases hrun
  constructor
  · exact h.calm
  · exact h.ledger.append hids fun e he => ⟨(mem_recorded he).1, (mem_recorded he).2.1⟩
  · intro e he
    cases List.mem_append.mp he with
    | inl hold => exact h.times e hold
    | inr hnew =>
      obtain ⟨-, -, r, hr, hmoment⟩ := mem_recorded hnew
      rw [hmoment]
      exact h.reports r hr
  · exact fun r hr => (List.not_mem_nil hr).elim
  · exact fun e he run hrun => h.runs e (hof he hrun) run hrun
  · exact h.created
  · exact h.order
  · intro p hp
    obtain ⟨hnow, hstart⟩ := h.pass p hp
    exact ⟨hnow, fun asset_id ids job rest hphase => (hstart asset_id ids job rest hphase).imp_left StillPending.append⟩
  · intro reading hreading
    obtain ⟨hasset, item, hitem, hid, hlater⟩ := h.readings reading hreading
    exact ⟨hasset, item, hitem, hid, fun e he hrun => hlater e (hof he hrun) hrun⟩
  · exact h.saved
  · intro e he hstatus
    refine h.backed e ((List.mem_append.mp he).resolve_right fun hnew => ?_) hstatus
    rw [(mem_recorded hnew).1] at hstatus
    obtain h | h := hstatus <;> cases h

/-! ### New runs -/

/-- The tables after a run is started -/
structure Started (s s' : State) (assets : List Nat) (info : RunInfo) (run : GroupRuns.Run) (new : List GroupRuns.Item) : Prop where
  run_id : run.id = s.worker.runs.length
  queued : run.status = .queued
  runs : s'.worker.runs = s.worker.runs ++ [run]
  items : s'.worker.items = s.worker.items ++ new
  calm : Calm s'.worker
  new : ∀ item ∈ new, item.run = s.worker.runs.length ∧ item.status ≠ .done ∧ (s'.itemInfo item.id).asset_id ∈ assets
  runInfo : s'.runInfo = Function.update s.runInfo s.worker.runs.length info
  itemInfo : ∀ id < s.worker.items.length, s'.itemInfo id = s.itemInfo id

theorem startRun_started {kind : GroupRuns.Kind} {concurrency : Option Int} {assets : List (Nat × Bool)} {info : RunInfo}
    (h : Calm s.worker) (hstep : startRun kind concurrency assets info s = some s') :
    ∃ run new, run.kind = kind ∧ Started s s' (assets.map Prod.fst) info run new := by
  obtain ⟨w', hw', rfl⟩ := Option.map_eq_some_iff.mp hstep
  have hinv := h.inv.start_run hw'
  unfold GroupRuns.start_run at hw'
  split at hw'
  · cases hw'
  · cases hw'
    refine ⟨_, _, rfl, rfl, rfl, rfl, rfl, ⟨hinv, ?_, h.rows⟩, ?_, rfl, ?_⟩
    · intro run hrun
      cases List.mem_append.mp hrun with
      | inl hold => exact h.runs run hold
      | inr hnew =>
        rw [List.mem_singleton] at hnew
        subst hnew
        exact fun hstopping => GroupRuns.RunStatus.noConfusion hstopping
    · intro item hitem
      obtain ⟨k, hk, rfl⟩ := List.mem_mapIdx.mp hitem
      have hlt : k < assets.length := by rwa [List.length_map] at hk
      refine ⟨rfl, ?_, ?_⟩
      · dsimp only
        split <;> decide
      · dsimp only
        rw [Nat.add_sub_cancel_left, List.getElem?_eq_getElem hlt]
        dsimp only
        rw [if_pos (Nat.le_add_right _ _)]
        exact List.mem_map_of_mem (List.getElem_mem hlt)
    · intro id hid
      dsimp only
      split
      · rw [if_neg (Nat.not_le.mpr hid)]
      · rfl

section Started

variable {assets : List Nat} {info : RunInfo} {run : GroupRuns.Run} {new : List GroupRuns.Item}

theorem Started.covers_old (h : Started s s' assets info run new) (hcalm : Calm s.worker) {r : Nat} (hr : r < s.worker.runs.length) :
    covers s' asset_id r = covers s asset_id r := by
  unfold covers
  rw [h.runInfo, Function.update_of_ne (Nat.ne_of_lt hr), h.items, List.any_append]
  have hnone : (new.any fun item => item.run = r && (s'.itemInfo item.id).asset_id = asset_id) = false := by
    rw [List.any_eq_false]
    intro item hitem hmem
    rw [Bool.and_eq_true, decide_eq_true_eq, (h.new item hitem).1] at hmem
    exact Nat.ne_of_lt hr hmem.1.symm
  rw [hnone, Bool.or_false]
  congr 1
  rw [Bool.eq_iff_iff, List.any_eq_true, List.any_eq_true]
  refine exists_congr fun item => and_congr_right fun hitem => ?_
  rw [h.itemInfo item.id (hcalm.inv.tables.item_lt hitem)]

theorem Started.covers_new (h : Started s s' assets info run new) (hcalm : Calm s.worker)
    (hcovers : covers s' asset_id s.worker.runs.length = true) : info.syslog = true ∧ asset_id ∈ assets := by
  unfold covers at hcovers
  rw [h.runInfo, Function.update_self, Bool.and_eq_true, List.any_eq_true] at hcovers
  obtain ⟨hsyslog, item, hitem, hof⟩ := hcovers
  rw [Bool.and_eq_true, decide_eq_true_eq, decide_eq_true_eq] at hof
  rw [h.items] at hitem
  refine ⟨hsyslog, ?_⟩
  cases List.mem_append.mp hitem with
  | inl hold =>
    have hlt := hcalm.inv.tables.known item hold
    rw [hof.1] at hlt
    exact (Nat.lt_irrefl _ hlt).elim
  | inr hadded => exact hof.2 ▸ (h.new item hadded).2.2

theorem Started.old (h : Started s s' assets info run new) {r : GroupRuns.Run} (hr : r ∈ s'.worker.runs)
    (hlt : r.id < s.worker.runs.length) : r ∈ s.worker.runs := by
  rw [h.runs] at hr
  refine (List.mem_append.mp hr).resolve_right fun hnew => ?_
  rw [List.mem_singleton.mp hnew, h.run_id] at hlt
  exact Nat.lt_irrefl _ hlt

theorem Started.created_old (h : Started s s' assets info run new) {r : Nat} (hr : r < s.worker.runs.length) :
    s'.runInfo r = s.runInfo r := by
  rw [h.runInfo, Function.update_of_ne (Nat.ne_of_lt hr)]

/-- Where a run is for a reported change, the earlier runs for its assets have ended. -/
theorem Inv.started (h : Inv same n s) (hs : Started s s' assets info run new) (hinfo : info.created_at = s.clock)
    (hfree : info.syslog = true → ∀ asset_id ∈ assets, Free s asset_id s.clock) (hclock : s'.clock = s.clock)
    (hcaptured : s'.captured = s.captured) (hbackups : s'.backups = s.backups) (hevents : s'.events = s.events)
    (hhistory : s'.history = s.history) (hreported : s'.reported = s.reported) (hpass : PassOk s') : Inv same n s' := by
  have htables := h.calm.inv.tables
  have hrun {r : GroupRuns.Run} (hr : r ∈ s'.worker.runs) : r ∈ s.worker.runs ∨ r = run := by
    rw [hs.runs] at hr
    exact (List.mem_append.mp hr).imp_right List.mem_singleton.mp
  have hback {r : Nat} (hr : r < s.worker.runs.length) : OfBackup s'.worker r ↔ OfBackup s.worker r := by
    constructor
    · rintro ⟨r', hr', hid, hkind⟩
      exact ⟨r', hs.old hr' (hid ▸ hr), hid, hkind⟩
    · rintro ⟨r', hr', hid, hkind⟩
      exact ⟨r', hs.runs ▸ List.mem_append_left _ hr', hid, hkind⟩
  have hcreated : s'.runInfo s.worker.runs.length = info := by rw [hs.runInfo, Function.update_self]
  constructor
  · exact hs.calm
  · rw [hevents, hhistory]
    exact h.ledger
  · rw [hevents]
    exact h.times
  · rw [hreported]
    exact h.reports
  · rw [hevents]
    intro e he r hr
    obtain ⟨r', hr', hid, hkind⟩ := h.runs e he r hr
    exact ⟨r', hs.runs ▸ List.mem_append_left _ hr', hid, hkind⟩
  · intro r hr
    rw [hclock]
    obtain hold | rfl := hrun hr
    · rw [hs.created_old (htables.run_lt hold)]
      exact h.created r hold
    · rw [hs.run_id, hcreated, hinfo]
  · intro asset_id r hr other hother hcover hcover' hlt
    obtain hold | rfl := hrun hother
    · have holdlt := htables.run_lt hold
      have hrold := hs.old hr (hlt.trans holdlt)
      rw [hs.covers_old h.calm (hlt.trans holdlt)] at hcover
      rw [hs.covers_old h.calm holdlt] at hcover'
      rw [hs.created_old (hlt.trans holdlt), hs.created_old holdlt]
      exact h.order asset_id r hrold other hold hcover hcover' hlt
    · rw [hs.run_id] at hlt hcover' ⊢
      obtain ⟨hsyslog, hasset⟩ := hs.covers_new h.calm hcover'
      rw [hs.covers_old h.calm hlt] at hcover
      rw [hs.created_old hlt, hcreated, hinfo]
      exact hfree hsyslog asset_id hasset r (hs.old hr hlt) hcover
  · exact hpass
  · rw [hcaptured, hevents]
    intro reading hreading
    obtain ⟨hasset, item, hitem, hid, hlater⟩ := h.readings reading hreading
    have hlt := htables.item_lt hitem
    rw [hid] at hlt
    exact ⟨by rw [hs.itemInfo _ hlt, hasset], item, hs.items ▸ List.mem_append_left _ hitem, hid, hlater⟩
  · intro item hitem hstatus hbackup
    rw [hs.items] at hitem
    cases List.mem_append.mp hitem with
    | inl hold =>
      rw [hback (htables.known item hold)] at hbackup
      unfold Saved
      rw [hs.itemInfo _ (htables.item_lt hold), hbackups, hcaptured]
      exact h.saved item hold hstatus hbackup
    | inr hadded => exact ((hs.new item hadded).2.1 hstatus).elim
  · unfold Backed
    rw [hevents, hbackups, hcaptured]
    exact h.backed

end Started

theorem Inv.other {kind : GroupRuns.Kind} {concurrency : Option Int} {assets : List (Nat × Bool)} {technology : Str}
    (h : Inv same n s) (hstep : startRun kind concurrency assets ⟨false, s.clock, technology⟩ s = some s') : Inv same n s' := by
  obtain ⟨run, new, -, hs⟩ := startRun_started h.calm hstep
  obtain ⟨w', -, hs'⟩ := Option.map_eq_some_iff.mp hstep
  refine h.started hs rfl (fun hsyslog => by cases hsyslog) ?_ ?_ ?_ ?_ ?_ ?_ ?_ <;> (try rw [← hs'])
  rw [hs']
  intro p hp
  have hpass : s'.pass = s.pass := by rw [← hs']
  have hclock : s'.clock = s.clock := by rw [← hs']
  have hevents : s'.events = s.events := by rw [← hs']
  obtain ⟨hnow, hstart⟩ := h.pass p (hpass ▸ hp)
  refine ⟨hclock ▸ hnow, fun asset_id ids job rest hphase => ?_⟩
  obtain ⟨hpending, hfree⟩ := hstart asset_id ids job rest hphase
  refine ⟨hevents ▸ hpending, fun r hr hcover => ?_⟩
  by_cases hlt : r.id < s.worker.runs.length
  · rw [hs.covers_old h.calm hlt] at hcover
    rw [hs.created_old hlt]
    exact hfree r (hs.old hr hlt) hcover
  · rw [hs.runs] at hr
    cases List.mem_append.mp hr with
    | inl hold => exact (hlt (h.calm.inv.tables.run_lt hold)).elim
    | inr hadded =>
      rw [List.mem_singleton.mp hadded, hs.run_id] at hcover
      cases (hs.covers_new h.calm hcover).1

/-! ### The pass -/

/-- Events leave `pending`, and the pass goes on. -/
theorem Inv.leave (h : Inv same n s) {ids : List Nat} (hids : StillPending s.events ids) {status : Status}
    (hstatus : status ≠ .pending ∧ status ≠ .done ∧ status ≠ .unchanged) (run : Option Nat)
    (hrun : ∀ r, run = some r → OfBackup s.worker r ∧
      ∀ reading ∈ s.captured, ∀ item ∈ s.worker.items, item.id = reading.item → item.run ≠ r)
    {p : Option Pass} (hpass : PassOk { s.leave ids status run with pass := p }) :
    Inv same n { s.leave ids status run with pass := p } := by
  have hold {e : ChangeEvent} (he : e ∈ (s.leave ids status run).events) : ∃ old ∈ s.events, e.id = old.id ∧ e.moment = old.moment ∧
      (e = old ∨ e.status = status ∧ ∀ r, e.group_run_id = some r → run = some r ∨ old.group_run_id = some r) := by
    obtain ⟨old, hin, rfl⟩ := List.mem_map.mp he
    refine ⟨old, hin, ?_⟩
    split
    · refine ⟨rfl, rfl, .inr ⟨rfl, fun r hr => ?_⟩⟩
      cases run with
      | none => exact .inr hr
      | some run => exact .inl hr
    · exact ⟨rfl, rfl, .inl rfl⟩
  constructor
  · exact h.calm
  · exact h.ledger.leave hids hstatus.1 run
  · intro e he
    obtain ⟨old, hin, -, hmoment, -⟩ := hold he
    rw [hmoment]
    exact h.times old hin
  · exact h.reports
  · intro e he r hr
    obtain ⟨old, hin, -, -, hcase⟩ := hold he
    cases hcase with
    | inl hsame => exact h.runs old hin r (hsame ▸ hr)
    | inr hleft => exact (hleft.2 r hr).elim (fun hnew => (hrun r hnew).1) (h.runs old hin r)
  · exact h.created
  · exact h.order
  · exact hpass
  · intro reading hreading
    obtain ⟨hasset, item, hitem, hid, hlater⟩ := h.readings reading hreading
    refine ⟨hasset, item, hitem, hid, fun e he hr => ?_⟩
    obtain ⟨old, hin, -, hmoment, hcase⟩ := hold he
    rw [hmoment]
    cases hcase with
    | inl hsame => exact hlater old hin (hsame ▸ hr)
    | inr hleft =>
      refine (hleft.2 _ hr).elim (fun hnew => ?_) (hlater old hin)
      exact ((hrun _ hnew).2 reading hreading item hitem hid rfl).elim
  · exact h.saved
  · intro e he hend
    obtain ⟨old, hin, -, -, hcase⟩ := hold he
    cases hcase with
    | inl hsame =>
      subst hsame
      exact h.backed e hin hend
    | inr hleft =>
      rw [hleft.1] at hend
      exact (hend.elim hstatus.2.1 hstatus.2.2).elim

theorem finalize_same (e : ChangeEvent) : (finalize s e).id = e.id ∧ (finalize s e).group_run_id = e.group_run_id ∧
    (finalize s e).moment = e.moment ∧ (finalize s e).asset_id = e.asset_id ∧
      ((finalize s e).status = .pending ↔ e.status = .pending) := by
  have hfailed : Status.failed = .pending ↔ Status.queued = .pending := by decide
  unfold finalize
  split
  · next hqueued =>
    rw [hqueued]
    split
    · exact ⟨rfl, rfl, rfl, rfl, hfailed⟩
    · split
      · refine ⟨rfl, rfl, rfl, rfl, ?_⟩
        dsimp only
        split <;> decide
      · exact ⟨rfl, rfl, rfl, rfl, hfailed⟩
      · exact ⟨rfl, rfl, rfl, rfl, hfailed⟩
      · exact ⟨rfl, rfl, rfl, rfl, hfailed⟩
      · exact ⟨rfl, rfl, rfl, rfl, by rw [hqueued]⟩
      · exact ⟨rfl, rfl, rfl, rfl, by rw [hqueued]⟩
  · exact ⟨rfl, rfl, rfl, rfl, Iff.rfl⟩

/-- An event that ends has the backup of the item of its run. -/
theorem Inv.finalize_backed (h : Inv same n s) {e : ChangeEvent} (he : e ∈ s.events)
    (hend : (finalize s e).status = .done ∨ (finalize s e).status = .unchanged) : Backed same s (finalize s e) := by
  unfold finalize at hend ⊢
  split
  · next hqueued =>
    rw [if_pos hqueued] at hend
    split
    · next hnone =>
      rw [hnone] at hend
      obtain hend | hend := hend <;> cases hend
    · next item hfound =>
      rw [hfound] at hend
      dsimp only at hend
      have hin := List.mem_of_find?_eq_some hfound
      have hof := List.find?_some hfound
      rw [decide_eq_true_eq] at hof
      cases hstatus : item.status with
      | done =>
        obtain ⟨backup, hbackup, hid, hasset, reading, hreading, hitem, hshows⟩ :=
          h.saved item hin hstatus (h.runs e he item.run hof.1)
        obtain ⟨hreadingAsset, other, hother, hotherId, hlater⟩ := h.readings reading hreading
        obtain rfl : other = item := h.calm.inv.tables.item_inj hother hin (hotherId.trans hitem)
        refine ⟨backup, hbackup, hid, hasset.trans hof.2, reading, hreading, ?_, hlater e he hof.1, ?_⟩
        · rw [hreadingAsset, hitem]
          exact hof.2
        · dsimp only
          split
          · next hunchanged => simpa [hunchanged] using hshows
          · next hchanged => simpa [hchanged] using hshows
      | failed | skipped | cancelled =>
        rw [hstatus] at hend
        obtain hend | hend := hend <;> cases hend
      | queued | running =>
        rw [hstatus] at hend
        dsimp only at hend
        rw [hqueued] at hend
        obtain hend | hend := hend <;> cases hend
  · next hnot =>
    rw [if_neg hnot] at hend
    exact h.backed e he hend

theorem recent_last (h : Inv same n s) {run other : GroupRuns.Run} (hrecent : recent s asset_id = some run)
    (hother : other ∈ s.worker.runs) (hcovers : covers s asset_id other.id = true) : other = run ∨ other.id < run.id := by
  obtain ⟨hrun, before, after, happend, hnone⟩ := List.find?_eq_some_iff_append.mp hrecent
  have hruns : s.worker.runs = after.reverse ++ run :: before.reverse := by
    rw [← List.reverse_reverse s.worker.runs, happend]
    simp
  have hsorted : (s.worker.runs.map GroupRuns.Run.id).Pairwise (· < ·) := by
    rw [h.calm.inv.tables.runs_ids]
    exact List.pairwise_lt_range
  rw [hruns, List.map_append, List.pairwise_append] at hsorted
  rw [hruns] at hother
  cases List.mem_append.mp hother with
  | inl hafter =>
    exact .inr (hsorted.2.2 other.id (List.mem_map_of_mem hafter) run.id List.mem_cons_self)
  | inr hrest =>
    cases List.mem_cons.mp hrest with
    | inl hsame => exact .inl hsame
    | inr hbefore =>
      have hnot := hnone other (List.mem_reverse.mp hbefore)
      rw [hcovers] at hnot
      cases hnot

/-- An asset that is not waited for has no run in progress, and a gap since the last one. -/
theorem free_of_not_waits (h : Inv same n s) {now : Int} (hwaits : waits s now asset_id = false) : Free s asset_id now := by
  intro other hother hcovers
  cases hrecent : recent s asset_id with
  | none =>
    have hnone := List.find?_eq_none.mp hrecent other (List.mem_reverse.mpr hother)
    exact (hnone hcovers).elim
  | some run =>
    unfold waits at hwaits
    rw [hrecent, Option.any_some, Bool.or_eq_false_iff, decide_eq_false_iff_not] at hwaits
    have hgap : 0 ≤ minGapSeconds := by decide
    cases recent_last h hrecent hother hcovers with
    | inl hsame =>
      subst hsame
      exact ⟨hwaits.1, by omega⟩
    | inr hlt =>
      have hrun := List.find?_some hrecent
      have hin := List.mem_reverse.mp (List.mem_of_find?_eq_some hrecent)
      obtain ⟨hended, horder⟩ := h.order asset_id other hother run hin hcovers hrun hlt
      exact ⟨hended, by omega⟩

theorem Inv.finalize (h : Inv same n s) {p : Pass} (hp : p.now ≤ s.clock) (hphase : p.phase = .look) :
    Inv same n { s with events := s.events.map (finalize s), pass := some p } := by
  have hold {e : ChangeEvent} (he : e ∈ s.events.map (ConfigChanges.finalize s)) :
      ∃ old ∈ s.events, e = ConfigChanges.finalize s old := by
    obtain ⟨old, hin, rfl⟩ := List.mem_map.mp he
    exact ⟨old, hin, rfl⟩
  constructor
  · exact h.calm
  · exact h.ledger.map fun e _ => ⟨(finalize_same e).1, (finalize_same e).2.1, (finalize_same e).2.2.2.2⟩
  · intro e he
    obtain ⟨old, hin, rfl⟩ := hold he
    rw [(finalize_same old).2.2.1]
    exact h.times old hin
  · exact h.reports
  · intro e he r hr
    obtain ⟨old, hin, rfl⟩ := hold he
    rw [(finalize_same old).2.1] at hr
    exact h.runs old hin r hr
  · exact h.created
  · exact h.order
  · intro q hq
    cases hq
    refine ⟨hp, fun asset_id ids job rest hstart => ?_⟩
    rw [hphase] at hstart
    cases hstart
  · intro reading hreading
    obtain ⟨hasset, item, hitem, hid, hlater⟩ := h.readings reading hreading
    refine ⟨hasset, item, hitem, hid, fun e he hr => ?_⟩
    obtain ⟨old, hin, rfl⟩ := hold he
    rw [(finalize_same old).2.1] at hr
    rw [(finalize_same old).2.2.1]
    exact hlater old hin hr
  · exact h.saved
  · intro e he hend
    obtain ⟨old, hin, rfl⟩ := hold he
    exact h.finalize_backed hin hend

theorem PassOk.of_assets {p : Pass} {rest : List Nat} (hpass : s.pass = some p) (hnow : p.now ≤ s.clock)
    (hphase : p.phase = .assets rest) : PassOk s := by
  intro q hq
  rw [hpass] at hq
  cases hq
  refine ⟨hnow, fun asset_id ids job rest' hstart => ?_⟩
  rw [hphase] at hstart
  cases hstart

theorem PassOk.of_none (hpass : s.pass = none) : PassOk s := by
  intro p hp
  rw [hpass] at hp
  cases hp

theorem no_run (s : State) : ∀ r, (none : Option Nat) = some r → OfBackup s.worker r ∧
    ∀ reading ∈ s.captured, ∀ item ∈ s.worker.items, item.id = reading.item → item.run ≠ r := fun r hr => by cases hr

theorem Inv.next (h : Inv same n s) {p : Pass} (hp : p.now ≤ s.clock) (rest : List Nat) : Inv same n (next p asset_id rest s) := by
  unfold ConfigChanges.next
  split
  · exact h.frame (Nat.le_refl _) (le_refl _) rfl rfl rfl rfl rfl rfl rfl h.reports (.of_none rfl)
  · split
    · exact h.frame (Nat.le_refl _) (le_refl _) rfl rfl rfl rfl rfl rfl rfl h.reports (.of_assets rfl hp rfl)
    · next hwaits =>
      have hfree := free_of_not_waits h (by simpa using hwaits)
      have hpending := h.ledger.pendingOf asset_id
      dsimp only
      split
      · exact h.leave hpending (by decide) none (no_run s) (.of_assets rfl hp rfl)
      · refine h.frame (Nat.le_refl _) (le_refl _) rfl rfl rfl rfl rfl rfl rfl h.reports fun q hq => ?_
        cases hq
        refine ⟨hp, fun a ids job' rest' hstart => ?_⟩
        cases hstart
        exact ⟨hpending, hfree⟩

theorem Inv.begin (h : Inv same n s) {p : Pass} {ids rest : List Nat} {job : Found} (hp : p.now ≤ s.clock)
    (hids : StillPending s.events ids) (hfree : Free s asset_id p.now) (hstep : begin p asset_id ids job rest s = some s') :
    Inv same n s' := by
  unfold ConfigChanges.begin at hstep
  obtain ⟨members, -, hstep⟩ := Option.bind_eq_some_iff.mp hstep
  obtain ⟨ssh, -, hstep⟩ := Option.bind_eq_some_iff.mp hstep
  split at hstep
  · cases hstep
    exact h.leave (h.ledger.pendingOf asset_id) (by decide) none (no_run s) (.of_assets rfl hp rfl)
  · obtain ⟨addressed, -, hstep⟩ := Option.bind_eq_some_iff.mp hstep
    split at hstep
    · cases hstep
    · obtain ⟨s₁, hs₁, hs'⟩ := Option.map_eq_some_iff.mp hstep
      obtain ⟨run, new, hkind, hstarted⟩ := startRun_started h.calm hs₁
      obtain ⟨w', -, hsame⟩ := Option.map_eq_some_iff.mp hs₁
      -- the pass is put aside while the run is started
      have hbetween : Inv same n { s₁ with pass := none } := by
        have hsub : Started s { s₁ with pass := none } [asset_id] ⟨true, s.clock, job.technology⟩ run new :=
          ⟨hstarted.run_id, hstarted.queued, hstarted.runs, hstarted.items, hstarted.calm, hstarted.new, hstarted.runInfo,
            hstarted.itemInfo⟩
        refine h.started hsub rfl (fun _ a ha => ?_) ?_ ?_ ?_ ?_ ?_ ?_ (.of_none rfl) <;> (try rw [← hsame])
        rw [List.mem_singleton.mp ha]
        exact fun r hr hcover => (hfree r hr hcover).imp_right fun hgap => le_trans hgap hp
      have hclock : s₁.clock = s.clock := by rw [← hsame]
      have hevents : s₁.events = s.events := by rw [← hsame]
      have hcaptured : s₁.captured = s.captured := by rw [← hsame]
      rw [← hs']
      refine hbetween.leave (hevents ▸ hids) (by decide) (some s.worker.runs.length) (fun r hr => ?_)
        (.of_assets rfl (hclock ▸ hp) rfl)
      cases hr
      refine ⟨⟨run, hstarted.runs ▸ List.mem_append_right _ List.mem_cons_self, hstarted.run_id, hkind⟩, ?_⟩
      intro reading hreading item hitem hid hof
      rw [show (_ : State).captured = s.captured from hcaptured] at hreading
      obtain ⟨-, old, hold, holdid, -⟩ := h.readings reading hreading
      have hin : old ∈ s₁.worker.items := hstarted.items ▸ List.mem_append_left _ hold
      obtain rfl : item = old := hstarted.calm.inv.tables.item_inj hitem hin (hid.trans holdid.symm)
      have hlt := h.calm.inv.tables.known item hold
      rw [hof] at hlt
      exact Nat.lt_irrefl _ hlt

theorem Inv.passStep (h : Inv same n s) {p : Pass} (hpass : s.pass = some p) (hstep : passStep p s = some s') : Inv same n s' := by
  obtain ⟨hp, hstart⟩ := h.pass p hpass
  unfold ConfigChanges.passStep at hstep
  split at hstep
  · cases hstep
    exact h.finalize hp rfl
  · split at hstep
    · cases hstep
      exact h.frame (Nat.le_refl _) (le_refl _) rfl rfl rfl rfl rfl rfl rfl h.reports (.of_assets rfl hp rfl)
    · cases hstep
      exact h.leave (h.ledger.filter fun _ he => of_decide_eq_true he) (by decide) none (no_run s) (.of_none rfl)
  · cases hstep
    exact h.frame (Nat.le_refl _) (le_refl _) rfl rfl rfl rfl rfl rfl rfl h.reports (.of_none rfl)
  · cases hstep
    exact h.next hp _
  · next asset_id ids job rest hphase =>
    obtain ⟨hids, hfree⟩ := hstart asset_id ids job rest hphase
    exact h.begin hp hids hfree hstep

/-! ### Runs of the system -/

theorem Inv.act {a : Action} (h : Inv same s.moment s) (hstep : act same s a = some s') : Inv same (s.moment + 1) s' := by
  have hlater {t : State} (ht : Inv same s.moment t) : Inv same (s.moment + 1) t :=
    ht.frame (Nat.le_succ _) (le_refl _) rfl rfl rfl rfl rfl rfl rfl (fun r hr => Nat.lt_succ_of_lt (ht.reports r hr)) ht.pass
  cases a with
  | tick microseconds =>
    cases hstep
    have hclock : s.clock ≤ s.clock + microseconds := Int.le_add_of_nonneg_right (Int.natCast_nonneg _)
    refine hlater (h.frame (Nat.le_refl _) hclock rfl rfl rfl rfl rfl rfl rfl h.reports fun p hp => ?_)
    exact (h.pass p hp).imp_left fun hnow => le_trans hnow hclock
  | receive asset_id =>
    cases hstep
    refine h.frame (Nat.le_succ _) (le_refl _) rfl rfl rfl rfl rfl rfl rfl (fun r hr => ?_) h.pass
    cases List.mem_append.mp hr with
    | inl hold => exact Nat.lt_succ_of_lt (h.reports r hold)
    | inr hnew =>
      rw [List.mem_singleton.mp hnew]
      exact Nat.lt_succ_self _
  | record =>
    cases hstep
    exact hlater h.record
  | change world =>
    cases hstep
    exact hlater (h.frame (Nat.le_refl _) (le_refl _) rfl rfl rfl rfl rfl rfl rfl h.reports h.pass)
  | other kind concurrency assets technology => exact hlater (h.other hstep)
  | worker a => exact hlater (h.workerStep hstep)
  | capture item text => exact hlater (h.capture hstep)
  | save item => exact hlater (h.saveItem hstep)
  | backup asset_id device_type text =>
    cases hstep
    exact hlater (h.backup _)
  | process backup_on_change =>
    simp only [ConfigChanges.act, Option.ite_none_left_eq_some] at hstep
    obtain ⟨-, hs⟩ := hstep
    cases hs
    refine hlater (h.frame (Nat.le_refl _) (le_refl _) rfl rfl rfl rfl rfl rfl rfl h.reports fun p hp => ?_)
    cases hp
    exact ⟨le_refl _, fun asset_id ids job rest hphase => by cases hphase⟩
  | pass =>
    obtain ⟨p, hp, hs⟩ := Option.bind_eq_some_iff.mp hstep
    exact hlater (h.passStep hp hs)
  | abort =>
    simp only [ConfigChanges.act, Option.ite_none_right_eq_some] at hstep
    obtain ⟨-, hs⟩ := hstep
    cases hs
    exact hlater (h.frame (Nat.le_refl _) (le_refl _) rfl rfl rfl rfl rfl rfl rfl h.reports (.of_none rfl))

theorem startRun_moment {kind : GroupRuns.Kind} {concurrency : Option Int} {assets : List (Nat × Bool)} {info : RunInfo}
    (h : startRun kind concurrency assets info s = some s') : s'.moment = s.moment := by
  obtain ⟨worker, -, rfl⟩ := Option.map_eq_some_iff.mp h
  rfl

theorem workerStep_moment {a : GroupRuns.Action} (h : workerStep s a = some s') : s'.moment = s.moment := by
  unfold workerStep at h
  split at h
  any_goals cases h
  · split at h
    · cases h
    · obtain ⟨worker, -, rfl⟩ := Option.map_eq_some_iff.mp h
      rfl
  · obtain ⟨worker, -, rfl⟩ := Option.map_eq_some_iff.mp h
    rfl

theorem saveItem_moment {id : Nat} (h : saveItem same id s = some s') : s'.moment = s.moment := by
  obtain ⟨reading, -, h⟩ := Option.bind_eq_some_iff.mp h
  obtain ⟨item, -, h⟩ := Option.bind_eq_some_iff.mp h
  split at h
  · cases h
  · obtain ⟨worker, -, rfl⟩ := Option.map_eq_some_iff.mp h
    dsimp only
    split
    · split <;> rfl
    · rfl

theorem next_moment (p : Pass) (rest : List Nat) : (next p asset_id rest s).moment = s.moment := by
  unfold ConfigChanges.next
  split
  · rfl
  · split
    · rfl
    · dsimp only
      split <;> rfl

theorem begin_moment {p : Pass} {ids rest : List Nat} {job : Found} (h : begin p asset_id ids job rest s = some s') :
    s'.moment = s.moment := by
  obtain ⟨members, -, h⟩ := Option.bind_eq_some_iff.mp h
  obtain ⟨ssh, -, h⟩ := Option.bind_eq_some_iff.mp h
  split at h
  · cases h
    rfl
  · obtain ⟨addressed, -, h⟩ := Option.bind_eq_some_iff.mp h
    split at h
    · cases h
    · obtain ⟨s₁, hrun, hs⟩ := Option.map_eq_some_iff.mp h
      cases hs
      have hmoment : s₁.moment = s.moment := startRun_moment hrun
      exact hmoment

/-- The steps are counted by `step` alone. -/
theorem act_moment {a : Action} (h : act same s a = some s') : s'.moment = s.moment := by
  cases a with
  | tick _ | receive _ | record | change _ | backup _ _ _ =>
    cases h
    rfl
  | other kind concurrency assets technology => exact startRun_moment h
  | worker a => exact workerStep_moment h
  | capture item text =>
    simp only [ConfigChanges.act, ConfigChanges.capture, Option.ite_none_right_eq_some] at h
    obtain ⟨-, hs⟩ := h
    cases hs
    rfl
  | save item => exact saveItem_moment h
  | process _ =>
    simp only [ConfigChanges.act, Option.ite_none_left_eq_some] at h
    obtain ⟨-, hs⟩ := h
    cases hs
    rfl
  | pass =>
    obtain ⟨p, -, h⟩ := Option.bind_eq_some_iff.mp h
    unfold ConfigChanges.passStep at h
    split at h
    · cases h
      rfl
    · split at h <;> cases h <;> rfl
    · cases h
      rfl
    · cases h
      exact next_moment p _
    · exact begin_moment h
  | abort =>
    simp only [ConfigChanges.act, Option.ite_none_right_eq_some] at h
    obtain ⟨-, hs⟩ := h
    cases hs
    rfl

theorem Inv.step {a : Action} (h : Inv same s.moment s) (hstep : step same s a = some s') : Inv same s'.moment s' := by
  obtain ⟨s₁, hact, rfl⟩ := Option.map_eq_some_iff.mp hstep
  have hs := h.act hact
  rw [← act_moment hact] at hs
  exact hs.frame (le_refl _) (le_refl _) rfl rfl rfl rfl rfl rfl rfl hs.reports hs.pass

theorem inv_start (clock : Int) (world : World) : Inv same 0 (start clock world) := by
  have hnone {α : Type} {p : α → Prop} : ∀ x ∈ ([] : List α), p x := fun _ hx => (List.not_mem_nil hx).elim
  constructor
  · exact ⟨GroupRunStop.inv_start, hnone, fun sweep hsweep => by cases hsweep⟩
  · exact ⟨rfl, List.nodup_nil, hnone, hnone, hnone⟩
  · exact hnone
  · exact hnone
  · exact hnone
  · exact hnone
  · exact fun _ => hnone
  · exact .of_none rfl
  · exact hnone
  · exact hnone
  · exact hnone

end Steps

/-- One Cisco device, of the group that one schedule backs up -/
def oneDevice : World := ⟨[⟨1, true, true, some 7, some 1, "cisco".toList⟩], fun _ => some [7], fun _ => some true, fun _ => some true⟩

/-- A change is reported and backed up. -/
def reportedChange : List Action := [.receive 7, .record, .tick 61000000, .process true, .pass, .pass, .pass, .pass, .pass,
  .worker .read, .worker .count, .worker .act, .worker .commit, .worker (.execute 0), .capture 0 "hostname a".toList, .save 0,
  .worker .read, .worker .count, .worker .act, .worker .commit, .process true, .pass]

end ConfigChangesBackedUp
