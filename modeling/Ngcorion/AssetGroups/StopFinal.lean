import Ngcorion.AssetGroups.GroupRuns
import Mathlib.Data.List.Nodup
import Mathlib.Data.List.Perm.Subperm
import Mathlib.Data.List.Range

/-!
# Stopped group runs

What holds of group runs whatever users, the sweep and the threads do in between: the number of running items,
one execution for a claim, when a run ends, and that nothing of a stopped run is claimed.
-/
namespace GroupRunStop

open GroupRuns Transition

/-! ## What is promised -/

/-- The claims (true) and the executions (false) of an item -/
def record (history : List Event) (item : Nat) : List Bool := history.filterMap fun
  | .claimed _ x => if x = item then some true else none
  | .executed x => if x = item then some false else none
  | _ => none

/-- The claims that are committed and not yet executed -/
def owed (s : State) : List Nat := s.held ++ s.waiting

/-- A run of which nothing is claimed again until a retry: a stop has committed, and no retry since. -/
def Barred (history : List Event) (run : Nat) : Prop :=
  ∃ i : Nat, history[i]? = some (Event.stopping run) ∧ ∀ k, i < k → history[k]? ≠ some (Event.reopened run)

/-- Between a stop of a run and a claim of one of its items a retry has opened the run again. -/
def StopFinal (history : List Event) : Prop :=
  ∀ i j run item : Nat, i < j → history[i]? = some (Event.stopping run) → history[j]? = some (Event.claimed run item) →
    ∃ k : Nat, i < k ∧ k < j ∧ history[k]? = some (Event.reopened run)

/-- Every claim has one execution, before the next claim of the item; only the last may be to come. -/
def Once (s : State) (item : Nat) : Prop :=
  ∃ n, record s.history item = (List.replicate n [true, false]).flatten ++ if item ∈ owed s then [true] else []

structure Kept (s : State) : Prop where
  limited : ∀ run ∈ s.runs, count s.items run.id .running ≤ run.concurrency
  once : ∀ item, Once s item
  settled : ∀ run ∈ s.runs, run.status.active = false → ∀ item ∈ s.items, item.run = run.id → item.status.ended
  stopped : StopFinal s.history

/-! ## Which steps keep it -/

/-- The sweep starts the run or claims items of it, when it commits. -/
def takes (w : Sweep) (run : Nat) : Bool := (run, .running) ∈ w.rows || w.claims.any fun item => item.run = run

/-- The sweep ends the run at its next commit: it has written so, or has found nothing queued and nothing running. -/
def ends (w : Sweep) (run : Nat) : Bool :=
  w.rows.any (fun e => e.1 = run && !e.2.active) ||
    match w.todo, w.counted with
    | (_, some row) :: _, some (0, 0) => row.id = run && row.status ≠ .stopping
    | _, _ => false

/-- A commit of the sweep takes nothing of a run that is stopping, and a retry queues nothing of a run that the sweep
in progress ends. -/
def Allowed (s : State) : Action → Prop
  | .commit => ∀ w ∈ s.sweep, ∀ run ∈ s.runs, takes w run.id = true → run.status ≠ .stopping
  | .retryCommit run => 0 < count s.items run .failed → ∀ w ∈ s.sweep, ends w run = false
  | _ => True

/-! ## Histories -/

section History

variable {history events : List Event} {run item x : Nat}

theorem Barred.before (h : Barred (history ++ events) run) (hnone : Event.stopping run ∉ events) : Barred history run := by
  obtain ⟨i, hi, hrest⟩ := h
  have hlt : i < history.length := by
    by_contra hge
    rw [List.getElem?_append_right (Nat.le_of_not_lt hge)] at hi
    exact hnone (List.mem_of_getElem? hi)
  refine ⟨i, by rwa [List.getElem?_append_left hlt] at hi, fun k hk hreopened => ?_⟩
  have hkept : k < history.length := (List.getElem?_eq_some_iff.mp hreopened).1
  exact hrest k hk (by rwa [List.getElem?_append_left hkept])

/-- A retry opens the run. -/
theorem not_barred_reopened : ¬ Barred (history ++ [Event.reopened run]) run := by
  rintro ⟨i, hi, hrest⟩
  have hlt : i < history.length := by
    by_contra hge
    rw [List.getElem?_append_right (Nat.le_of_not_lt hge)] at hi
    have hmem := List.mem_of_getElem? hi
    simp at hmem
  exact hrest history.length hlt (by simp)

/-- Claims of runs that are not barred keep the promise. -/
theorem StopFinal.append (h : StopFinal history)
    (hclaims : ∀ run item, Event.claimed run item ∈ events → ¬ Barred history run ∧ Event.stopping run ∉ events) :
    StopFinal (history ++ events) := by
  intro i j run item hij hi hj
  cases Nat.lt_or_ge j history.length with
  | inl hold =>
    rw [List.getElem?_append_left hold] at hj
    rw [List.getElem?_append_left (hij.trans hold)] at hi
    obtain ⟨k, hik, hkj, hk⟩ := h i j run item hij hi hj
    exact ⟨k, hik, hkj, by rwa [List.getElem?_append_left (hkj.trans hold)]⟩
  | inr hnew =>
    rw [List.getElem?_append_right hnew] at hj
    obtain ⟨hfree, hnone⟩ := hclaims run item (List.mem_of_getElem? hj)
    have hlt : i < history.length := by
      by_contra hge
      rw [List.getElem?_append_right (Nat.le_of_not_lt hge)] at hi
      exact hnone (List.mem_of_getElem? hi)
    rw [List.getElem?_append_left hlt] at hi
    obtain ⟨k, hik, hk⟩ : ∃ k : Nat, i < k ∧ history[k]? = some (Event.reopened run) := by
      by_contra hnever
      exact hfree ⟨i, hi, fun k hik hk => hnever ⟨k, hik, hk⟩⟩
    have hkept : k < history.length := (List.getElem?_eq_some_iff.mp hk).1
    exact ⟨k, hik, hkept.trans_le hnew, by rwa [List.getElem?_append_left hkept]⟩

theorem record_append : record (history ++ events) x = record history x ++ record events x := List.filterMap_append

/-- The claims of one commit -/
theorem record_claims {claims : List Item} (h : (claims.map Item.id).Nodup) :
    record (claims.map fun item => Event.claimed item.run item.id) x = if x ∈ claims.map Item.id then [true] else [] := by
  induction claims with
  | nil => rfl
  | cons item claims ih =>
    obtain ⟨hnew, hrest⟩ := List.nodup_cons.mp h
    have ih := ih hrest
    unfold record at ih ⊢
    rw [List.map_cons, List.map_cons, List.filterMap_cons]
    by_cases hx : item.id = x
    · subst hx
      rw [if_neg hnew] at ih
      simp [ih]
    · have hne : x ≠ item.id := Ne.symm hx
      simp only [hx, if_false, ih, List.mem_cons, hne, false_or]

end History

/-! ## Tables -/

/-- The ids come from a sequence, and every item is of a run. -/
structure Tables (items : List Item) (runs : List Run) : Prop where
  items_ids : items.map Item.id = List.range items.length
  runs_ids : runs.map Run.id = List.range runs.length
  known : ∀ item ∈ items, item.run < runs.length

/-- The items as the transaction of a sweep sees them -/
def seen (items : List Item) : Option Sweep → List Item
  | none => items
  | some w => items.map w.write

section Tables

variable {items : List Item} {runs : List Run} {w : Sweep} {item other : Item} {run : Run} {r x : Nat}

theorem Tables.item_inj (h : Tables items runs) (hi : item ∈ items) (ho : other ∈ items) (hid : item.id = other.id) :
    item = other := by
  have hnodup : (items.map Item.id).Nodup := by
    rw [h.items_ids]
    exact List.nodup_range
  exact List.inj_on_of_nodup_map hnodup hi ho hid

theorem Tables.run_inj {other : Run} (h : Tables items runs) (hr : run ∈ runs) (ho : other ∈ runs) (hid : run.id = other.id) :
    run = other := by
  have hnodup : (runs.map Run.id).Nodup := by
    rw [h.runs_ids]
    exact List.nodup_range
  exact List.inj_on_of_nodup_map hnodup hr ho hid

theorem Tables.run_lt (h : Tables items runs) (hr : run ∈ runs) : run.id < runs.length := by
  have hmem := List.mem_map_of_mem (f := Run.id) hr
  rwa [h.runs_ids, List.mem_range] at hmem

theorem Tables.item_lt (h : Tables items runs) (hi : item ∈ items) : item.id < items.length := by
  have hmem := List.mem_map_of_mem (f := Item.id) hi
  rwa [h.items_ids, List.mem_range] at hmem

theorem Tables.run_of_lt (h : Tables items runs) (hr : r < runs.length) : ∃ run ∈ runs, run.id = r := by
  have hmem : r ∈ runs.map Run.id := by
    rw [h.runs_ids]
    exact List.mem_range.mpr hr
  exact List.mem_map.mp hmem

/-- Updates that leave the ids -/
theorem Tables.map {f : Item → Item} {g : Run → Run} (h : Tables items runs)
    (hf : ∀ item, (f item).id = item.id ∧ (f item).run = item.run) (hg : ∀ run, (g run).id = run.id) :
    Tables (items.map f) (runs.map g) := by
  constructor
  · rw [List.map_map, List.length_map, ← h.items_ids]
    exact List.map_congr_left fun item _ => (hf item).1
  · rw [List.map_map, List.length_map, ← h.runs_ids]
    exact List.map_congr_left fun run _ => hg run
  · intro item hitem
    obtain ⟨old, hold, rfl⟩ := List.mem_map.mp hitem
    rw [List.length_map, (hf old).2]
    exact h.known old hold

/-! ### Updates -/

@[simp] theorem write_id : (w.write item).id = item.id := by
  unfold Sweep.write
  split
  · rfl
  · split <;> rfl

@[simp] theorem write_run : (w.write item).run = item.run := by
  unfold Sweep.write
  split
  · rfl
  · split <;> rfl

@[simp] theorem writeRow_id : (w.writeRow run).id = run.id := by
  unfold Sweep.writeRow
  split <;> rfl

@[simp] theorem writeRow_concurrency : (w.writeRow run).concurrency = run.concurrency := by
  unfold Sweep.writeRow
  split <;> rfl

@[simp] theorem requeue_id : (requeue r item).id = item.id := by
  unfold requeue
  split <;> rfl

@[simp] theorem requeue_run : (requeue r item).run = item.run := by
  unfold requeue
  split <;> rfl

theorem write_of_empty (hclaims : w.claims = []) (hcancels : w.cancels = []) (item : Item) : w.write item = item := by
  unfold Sweep.write
  rw [hclaims, hcancels]
  rfl

theorem map_write_of_empty (hclaims : w.claims = []) (hcancels : w.cancels = []) (items : List Item) :
    items.map w.write = items := by
  rw [List.map_congr_left (g := fun item => item) fun item _ => write_of_empty hclaims hcancels item]
  exact List.map_id' items

/-- An item that is queued for the sweep has not been written by it. -/
theorem write_queued (h : (w.write item).status = .queued) :
    w.write item = item ∧ item.id ∉ w.claims.map Item.id ∧ item.id ∉ w.cancels.map Item.id := by
  unfold Sweep.write at h ⊢
  by_cases hclaim : item.id ∈ w.claims.map Item.id
  · rw [if_pos hclaim] at h
    cases h
  · by_cases hcancel : item.id ∈ w.cancels.map Item.id
    · rw [if_neg hclaim, if_pos hcancel] at h
      cases h
    · rw [if_neg hclaim, if_neg hcancel]
      exact ⟨rfl, hclaim, hcancel⟩

theorem mem_select {status : ItemStatus} : item ∈ select items r status ↔ item ∈ items ∧ item.run = r ∧ item.status = status := by
  unfold select
  rw [List.mem_filter, decide_eq_true_eq]

theorem count_eq_zero {status : ItemStatus} :
    count items r status = 0 ↔ ∀ item ∈ items, item.run = r → item.status ≠ status := by
  unfold count
  rw [List.countP_eq_zero]
  simp only [decide_eq_true_eq, not_and, ne_eq]

/-- An update with which no more items are running -/
theorem count_map_le {f g : Item → Item}
    (h : ∀ item ∈ items, (f item).run = r → (f item).status = .running → (g item).run = r ∧ (g item).status = .running) :
    count (items.map f) r .running ≤ count (items.map g) r .running := by
  unfold count
  rw [List.countP_map, List.countP_map]
  refine List.countP_mono_left fun item hitem hf => ?_
  rw [Function.comp_apply, decide_eq_true_eq] at hf ⊢
  exact h item hitem hf.1 hf.2

theorem ended_iff {status : ItemStatus} : status.ended = true ↔ status ≠ .queued ∧ status ≠ .running := by
  cases status <;> decide

theorem mem_setStatus {status : RunStatus} (h : run ∈ setStatus r status runs) : ∃ old ∈ runs, old.id = run.id ∧
    old.concurrency = run.concurrency ∧ (run.status = status ∧ old.id = r ∨ run = old ∧ old.id ≠ r) := by
  obtain ⟨old, hold, rfl⟩ := List.mem_map.mp h
  by_cases hr : old.id = r
  · rw [if_pos hr]
    exact ⟨old, hold, rfl, rfl, .inl ⟨rfl, hr⟩⟩
  · rw [if_neg hr]
    exact ⟨old, hold, rfl, rfl, .inr ⟨rfl, hr⟩⟩

end Tables

/-! ## What every step keeps -/

/-- A sweep in progress: what it claims or cancels is queued until it commits, no run it has dealt with comes again,
its runs are active until it commits, and its counts are not too small. -/
structure Working (items : List Item) (runs : List Run) (w : Sweep) : Prop where
  pending : ∀ item ∈ w.claims ++ w.cancels, item ∈ items ∧ item.status = .queued
  claims : (w.claims.map Item.id).Nodup
  todo : (w.todo.map Prod.fst).Nodup
  apart : ∀ e ∈ w.rows, e.1 ∉ w.todo.map Prod.fst
  written : ∀ e ∈ w.rows, e.2 ≠ .queued
  known : ∀ r, r ∈ w.todo.map Prod.fst ∨ r ∈ w.rows.map Prod.fst → r < runs.length
  active : ∀ run ∈ runs, run.id ∈ w.todo.map Prod.fst ∨ run.id ∈ w.rows.map Prod.fst ∨ (∃ item ∈ w.claims, item.run = run.id) →
    run.status.active = true
  ending : ∀ e ∈ w.rows, e.2.active = false → ∀ item ∈ items.map w.write, item.run = e.1 → item.status.ended = true
  read : ∀ e ∈ w.todo, ∀ row, e.2 = some row → row.id = e.1 ∧ ∀ run ∈ runs, run.id = e.1 → row.concurrency = run.concurrency
  counted : ∀ running queued, w.counted = some (running, queued) → ∃ row rest, w.todo = (row.id, some row) :: rest ∧
    count (items.map w.write) row.id .running ≤ running ∧
      (running = 0 → queued = 0 → row.status ≠ .stopping →
        ∀ item ∈ items.map w.write, item.run = row.id → item.status.ended = true)

/-- The items that the worker has claimed and whose thread has not ended -/
def activeIds (s : State) : List Nat := s.held ++ s.waiting ++ s.threads.map Prod.fst

structure Inv (s : State) : Prop where
  tables : Tables s.items s.runs
  distinct : (activeIds s).Nodup
  active : ∀ x, x ∈ activeIds s ↔ ∃ item ∈ s.items, item.id = x ∧ item.status = .running
  limited : ∀ run ∈ s.runs, count (seen s.items s.sweep) run.id .running ≤ run.concurrency
  settled : ∀ run ∈ s.runs, run.status.active = false → ∀ item ∈ s.items, item.run = run.id → item.status.ended = true
  working : ∀ w, s.sweep = some w → Working s.items s.runs w
  pinned : ∀ run ∈ s.runs, Barred s.history run.id → run.status ≠ .queued ∧ run.status ≠ .running
  heard : ∀ r, r ∈ s.stops ∨ Event.stopping r ∈ s.history → r < s.runs.length
  stopped : StopFinal s.history
  once : ∀ item, Once s item

section Steps

variable {s s' : State} {items : List Item} {runs : List Run} {w : Sweep} {item : Item} {r x : Nat}

/-- The sweep has written only queued items. -/
theorem Working.write_ne (h : Working items runs w) (ht : Tables items runs) (hi : item ∈ items) (hne : item.status ≠ .queued) :
    w.write item = item := by
  have hnone {list : List Item} (hsub : ∀ i ∈ list, i ∈ w.claims ++ w.cancels) : item.id ∉ list.map Item.id := by
    intro hmem
    obtain ⟨other, hother, hid⟩ := List.mem_map.mp hmem
    obtain ⟨hin, hqueued⟩ := h.pending other (hsub other hother)
    exact hne (ht.item_inj hin hi hid ▸ hqueued)
  unfold Sweep.write
  rw [if_neg (hnone fun i hi => List.mem_append_left _ hi), if_neg (hnone fun i hi => List.mem_append_right _ hi)]

theorem Inv.seen_running (h : Inv s) : count s.items r .running ≤ count (seen s.items s.sweep) r .running := by
  cases hw : s.sweep with
  | none => exact Nat.le_refl _
  | some w =>
    have hle : count (s.items.map fun item => item) r .running ≤ count (s.items.map w.write) r .running := by
      refine count_map_le fun item hitem hrun hstatus => ?_
      rw [(h.working w hw).write_ne h.tables hitem (by rw [hstatus]; decide)]
      exact ⟨hrun, hstatus⟩
    rwa [List.map_id'] at hle

theorem Inv.kept (h : Inv s) : Kept s := by
  constructor
  · exact fun run hrun => Nat.le_trans h.seen_running (h.limited run hrun)
  · exact h.once
  · exact h.settled
  · exact h.stopped

/-- The runs are updated by a row that keeps its id. -/
theorem Working.set (h : Working items runs w) {status : RunStatus} (hstatus : status.active = true) :
    Working items (setStatus r status runs) w := by
  constructor
  · exact h.pending
  · exact h.claims
  · exact h.todo
  · exact h.apart
  · exact h.written
  · intro r hr
    rw [setStatus, List.length_map]
    exact h.known r hr
  · intro run hrun hmem
    obtain ⟨old, hold, hid, -, hcase⟩ := mem_setStatus hrun
    cases hcase with
    | inl hnew => rw [hnew.1, hstatus]
    | inr hsame => exact hsame.1 ▸ h.active old hold (hid ▸ hmem)
  · exact h.ending
  · intro e he row hrow
    refine ⟨(h.read e he row hrow).1, fun run hrun hid => ?_⟩
    obtain ⟨old, hold, holdid, hconcurrency, -⟩ := mem_setStatus hrun
    rw [(h.read e he row hrow).2 old hold (holdid.trans hid), hconcurrency]
  · exact h.counted

/-- Only the list of requests changes. -/
theorem Inv.request (h : Inv s) (hitems : s'.items = s.items) (hruns : s'.runs = s.runs) (hsweep : s'.sweep = s.sweep)
    (hheld : s'.held = s.held) (hwaiting : s'.waiting = s.waiting) (hthreads : s'.threads = s.threads)
    (hhistory : s'.history = s.history) (hstops : ∀ r ∈ s'.stops, r < s.runs.length) : Inv s' := by
  have hids : activeIds s' = activeIds s := by rw [activeIds, hheld, hwaiting, hthreads, activeIds]
  constructor
  · rw [hitems, hruns]
    exact h.tables
  · rw [hids]
    exact h.distinct
  · rw [hids, hitems]
    exact h.active
  · rw [hruns, hitems, hsweep]
    exact h.limited
  · rw [hruns, hitems]
    exact h.settled
  · rw [hitems, hruns, hsweep]
    exact h.working
  · rw [hruns, hhistory]
    exact h.pinned
  · intro r hr
    rw [hruns]
    rw [hhistory] at hr
    exact hr.elim (hstops r) fun hr => h.heard r (.inr hr)
  · rw [hhistory]
    exact h.stopped
  · intro item
    unfold Once owed
    rw [hhistory, hheld, hwaiting]
    exact h.once item

theorem Inv.stop (h : Inv s) (hr : r ∈ s.stops) : Inv (stop r s) := by
  constructor
  · have htables := h.tables.map (f := fun item => item) (g := fun run => if run.id = r then { run with status := .stopping } else run)
      (fun _ => ⟨rfl, rfl⟩) (fun run => by split <;> rfl)
    rwa [List.map_id'] at htables
  · exact h.distinct
  · exact h.active
  · intro run hrun
    obtain ⟨old, hold, hid, hconcurrency, -⟩ := mem_setStatus hrun
    rw [← hid, ← hconcurrency]
    exact h.limited old hold
  · intro run hrun hended
    obtain ⟨old, hold, hid, -, hcase⟩ := mem_setStatus hrun
    cases hcase with
    | inl hnew =>
      rw [hnew.1] at hended
      cases hended
    | inr hsame => exact hsame.1 ▸ h.settled old hold (hsame.1 ▸ hended)
  · exact fun w hw => (h.working w hw).set rfl
  · intro run hrun hbarred
    obtain ⟨old, hold, hid, -, hcase⟩ := mem_setStatus hrun
    cases hcase with
    | inl hnew =>
      rw [hnew.1]
      decide
    | inr hsame =>
      have hother : Event.stopping run.id ∉ [Event.stopping r] := by
        rw [List.mem_singleton, Event.stopping.injEq, ← hid]
        exact hsame.2
      exact hsame.1 ▸ h.pinned old hold (hid ▸ hbarred.before hother)
  · intro r' hr'
    change r' < (setStatus r .stopping s.runs).length
    rw [setStatus, List.length_map]
    cases hr' with
    | inl hstop => exact h.heard r' (.inl (List.mem_of_mem_erase hstop))
    | inr hevent =>
      cases List.mem_append.mp hevent with
      | inl hold => exact h.heard r' (.inr hold)
      | inr hnew =>
        rw [List.mem_singleton, Event.stopping.injEq] at hnew
        exact h.heard r' (.inl (hnew ▸ hr))
  · exact h.stopped.append fun run item hmem => by simp at hmem
  · intro item
    obtain ⟨n, hn⟩ := h.once item
    refine ⟨n, ?_⟩
    change record (s.history ++ [Event.stopping r]) item = _
    rw [record_append, hn]
    exact List.append_nil _

/-! ### Retries -/

theorem requeue_of_queued (h : item.status = .queued) : requeue r item = item := by
  unfold requeue
  rw [if_neg]
  rw [h]
  exact fun hfailed => ItemStatus.noConfusion hfailed.2

theorem requeue_of_other (h : item.run ≠ r) : requeue r item = item := by
  unfold requeue
  rw [if_neg fun hfailed => h hfailed.1]

theorem requeue_running : (requeue r item).status = .running ↔ item.status = .running := by
  unfold requeue
  split
  · next hfailed =>
    rw [hfailed.2]
    exact ⟨fun h => ItemStatus.noConfusion h, fun h => ItemStatus.noConfusion h⟩
  · rfl

/-- What the sweep has written does not depend on what else is in the row. -/
theorem write_requeue_running (h : (w.write (requeue r item)).status = .running) : (w.write item).status = .running := by
  unfold Sweep.write at h ⊢
  rw [requeue_id] at h
  split at h
  · next hclaim => rw [if_pos hclaim]
  · next hclaim =>
    rw [if_neg hclaim]
    split at h
    · cases h
    · next hcancel =>
      rw [if_neg hcancel]
      exact requeue_running.mp h

theorem seen_requeue_le (items : List Item) (sweep : Option Sweep) (run : Nat) :
    count (seen (items.map (requeue r)) sweep) run .running ≤ count (seen items sweep) run .running := by
  cases sweep with
  | none =>
    have hle : count (items.map (requeue r)) run .running ≤ count (items.map fun item => item) run .running := by
      refine count_map_le fun item _ hrun hstatus => ⟨by rwa [requeue_run] at hrun, requeue_running.mp hstatus⟩
    rwa [List.map_id'] at hle
  | some w =>
    change count ((items.map (requeue r)).map w.write) run .running ≤ _
    rw [List.map_map]
    refine count_map_le fun item _ hrun hstatus => ?_
    rw [Function.comp_apply] at hrun hstatus
    rw [write_run, requeue_run] at hrun
    exact ⟨by rwa [write_run], write_requeue_running hstatus⟩

/-- The items of a run that the sweep in progress does not end are queued again. -/
theorem Working.requeue (h : Working items runs w) (hends : ends w r = false) : Working (items.map (requeue r)) runs w := by
  rw [ends, Bool.or_eq_false_iff, List.any_eq_false] at hends
  have hother {run : Nat} (hne : run ≠ r) (hended : ∀ item ∈ items.map w.write, item.run = run → item.status.ended = true) :
      ∀ item ∈ (items.map (GroupRuns.requeue r)).map w.write, item.run = run → item.status.ended = true := by
    intro item hitem hrun
    rw [List.map_map] at hitem
    obtain ⟨old, hold, rfl⟩ := List.mem_map.mp hitem
    rw [Function.comp_apply, write_run, requeue_run] at hrun
    rw [Function.comp_apply, requeue_of_other (by rwa [hrun])]
    exact hended _ (List.mem_map_of_mem hold) (by rwa [write_run])
  constructor
  · intro item hitem
    obtain ⟨hin, hqueued⟩ := h.pending item hitem
    exact ⟨List.mem_map.mpr ⟨item, hin, requeue_of_queued hqueued⟩, hqueued⟩
  · exact h.claims
  · exact h.todo
  · exact h.apart
  · exact h.written
  · exact h.known
  · exact h.active
  · intro e he hended
    have hne : e.1 ≠ r := by
      rintro rfl
      exact hends.1 e he (by simp [hended])
    exact hother hne (h.ending e he hended)
  · exact h.read
  · intro running queued hcounted
    obtain ⟨row, rest, htodo, hrunning, hended⟩ := h.counted running queued hcounted
    refine ⟨row, rest, htodo, Nat.le_trans (seen_requeue_le items (some w) row.id) hrunning, ?_⟩
    intro hzero hnone hstatus
    have hne : row.id ≠ r := by
      rintro rfl
      have hpart := hends.2
      rw [htodo, hcounted, hzero, hnone] at hpart
      simp [hstatus] at hpart
    exact hother hne (hended hzero hnone hstatus)

theorem Inv.retry_failed (h : Inv s) (hallowed : Allowed s (.retryCommit r)) : Inv (retry_failed r s) := by
  unfold GroupRuns.retry_failed
  dsimp only
  split
  · exact h.request rfl rfl rfl rfl rfl rfl rfl fun r hr => h.heard r (.inl hr)
  · next hfailed =>
    have hlength : (setStatus r .running s.runs).length = s.runs.length := List.length_map _
    constructor
    · exact h.tables.map (fun _ => ⟨requeue_id, requeue_run⟩) (fun run => by split <;> rfl)
    · exact h.distinct
    · intro x
      refine (h.active x).trans ?_
      constructor
      · rintro ⟨item, hitem, hid, hstatus⟩
        exact ⟨requeue r item, List.mem_map_of_mem hitem, by rwa [requeue_id], requeue_running.mpr hstatus⟩
      · rintro ⟨item, hitem, hid, hstatus⟩
        obtain ⟨old, hold, rfl⟩ := List.mem_map.mp hitem
        exact ⟨old, hold, by rwa [requeue_id] at hid, requeue_running.mp hstatus⟩
    · intro run hrun
      obtain ⟨old, hold, hid, hconcurrency, -⟩ := mem_setStatus hrun
      rw [← hid, ← hconcurrency]
      exact Nat.le_trans (seen_requeue_le s.items s.sweep old.id) (h.limited old hold)
    · intro run hrun hended item hitem hof
      obtain ⟨old, hold, hid, -, hcase⟩ := mem_setStatus hrun
      cases hcase with
      | inl hnew =>
        rw [hnew.1] at hended
        cases hended
      | inr hsame =>
        obtain ⟨before, hbefore, rfl⟩ := List.mem_map.mp hitem
        rw [requeue_run] at hof
        rw [requeue_of_other (by rw [hof, ← hid]; exact hsame.2)]
        exact h.settled old hold (hsame.1 ▸ hended) before hbefore (hof.trans hid.symm)
    · intro w hw
      exact ((h.working w hw).requeue (hallowed (Nat.pos_of_ne_zero hfailed) w hw)).set rfl
    · intro run hrun hbarred
      obtain ⟨old, hold, hid, -, hcase⟩ := mem_setStatus hrun
      cases hcase with
      | inl hnew => exact (not_barred_reopened (hnew.2 ▸ hid ▸ hbarred)).elim
      | inr hsame => exact hsame.1 ▸ h.pinned old hold (hid ▸ hbarred.before (by simp))
    · intro r' hr'
      rw [show (_ : State).runs.length = s.runs.length from hlength]
      refine h.heard r' (hr'.imp id fun hevent => ?_)
      simpa using hevent
    · exact h.stopped.append fun run item hmem => by simp at hmem
    · intro item
      obtain ⟨n, hn⟩ := h.once item
      refine ⟨n, ?_⟩
      change record (s.history ++ [Event.reopened r]) item = _
      rw [record_append, hn]
      exact List.append_nil _

/-! ### The sweep -/

/-- Only the transaction of the sweep changes. -/
theorem Inv.sweeping (h : Inv s) (hw : Working s.items s.runs w)
    (hlimited : ∀ run ∈ s.runs, count (s.items.map w.write) run.id .running ≤ run.concurrency) :
    Inv { s with sweep := some w } := by
  refine ⟨h.tables, h.distinct, h.active, hlimited, h.settled, ?_, h.pinned, h.heard, h.stopped, h.once⟩
  intro w' hw'
  cases hw'
  exact hw

/-- A sweep that has written nothing -/
theorem Working.fresh (h : Tables items runs) {todo : List (Nat × Option Run)} (htodo : (todo.map Prod.fst).Nodup)
    (hactive : ∀ run ∈ runs, run.id ∈ todo.map Prod.fst → run.status.active = true)
    (hknown : ∀ r ∈ todo.map Prod.fst, r < runs.length) (hread : ∀ e ∈ todo, ∀ row, e.2 = some row → row.id = e.1 ∧ row ∈ runs) :
    Working items runs ⟨todo, none, [], [], [], false⟩ := by
  constructor
  · exact fun item hitem => (List.not_mem_nil hitem).elim
  · exact List.nodup_nil
  · exact htodo
  · exact fun e he => (List.not_mem_nil he).elim
  · exact fun e he => (List.not_mem_nil he).elim
  · exact fun r hr => hr.elim (hknown r) fun hr => (List.not_mem_nil hr).elim
  · rintro run hrun (hmem | hmem | ⟨item, hitem, -⟩)
    · exact hactive run hrun hmem
    · exact (List.not_mem_nil hmem).elim
    · exact (List.not_mem_nil hitem).elim
  · exact fun e he => (List.not_mem_nil he).elim
  · intro e he row hrow
    obtain ⟨hid, hin⟩ := hread e he row hrow
    refine ⟨hid, fun run hrun hrunid => ?_⟩
    rw [h.run_inj hin hrun (hid.trans hrunid.symm)]
  · intro running queued hnone
    cases hnone

theorem Inv.read (h : Inv s) (hnone : s.sweep = none) : Inv { s with sweep := some (begin s.runs) } := by
  have hids : (begin s.runs).todo.map Prod.fst = (s.runs.filter fun run => run.status.active).map Run.id := by
    rw [begin, List.map_map]
    rfl
  refine h.sweeping (.fresh h.tables ?_ ?_ ?_ ?_) fun run hrun => ?_
  · change ((begin s.runs).todo.map Prod.fst).Nodup
    rw [hids]
    refine List.Nodup.sublist (List.filter_sublist.map _) ?_
    rw [h.tables.runs_ids]
    exact List.nodup_range
  · intro run hrun hmem
    change run.id ∈ (begin s.runs).todo.map Prod.fst at hmem
    rw [hids] at hmem
    obtain ⟨other, hother, hid⟩ := List.mem_map.mp hmem
    obtain ⟨hin, hactive⟩ := List.mem_filter.mp hother
    exact h.tables.run_inj hin hrun hid ▸ hactive
  · intro r hr
    change r ∈ (begin s.runs).todo.map Prod.fst at hr
    rw [hids] at hr
    obtain ⟨run, hrun, rfl⟩ := List.mem_map.mp hr
    exact h.tables.run_lt (List.mem_of_mem_filter hrun)
  · intro e he row hrow
    obtain ⟨run, hrun, rfl⟩ := List.mem_map.mp he
    cases hrow
    exact ⟨rfl, List.mem_of_mem_filter hrun⟩
  · have hlimited := h.limited run hrun
    rw [hnone] at hlimited
    rwa [map_write_of_empty rfl rfl]

/-- The row of the next run is read again. -/
theorem Working.reread (h : Working items runs w) (ht : Tables items runs) {rest : List (Nat × Option Run)} {row : Run}
    (htodo : w.todo = (r, none) :: rest) (hrow : row ∈ runs) (hid : row.id = r) :
    Working items runs { w with todo := (r, some row) :: rest } := by
  have hsame : ((r, some row) :: rest).map Prod.fst = w.todo.map Prod.fst := by rw [htodo]; rfl
  constructor
  · exact h.pending
  · exact h.claims
  · rw [hsame]
    exact h.todo
  · rw [hsame]
    exact h.apart
  · exact h.written
  · rw [hsame]
    exact h.known
  · rw [hsame]
    exact h.active
  · exact h.ending
  · intro e he row' hrow'
    cases List.mem_cons.mp he with
    | inl hhead =>
      subst hhead
      cases hrow'
      refine ⟨hid, fun run hrun hrunid => ?_⟩
      rw [ht.run_inj hrow hrun (hid.trans hrunid.symm)]
    | inr hrest => exact h.read e (htodo ▸ List.mem_cons_of_mem _ hrest) row' hrow'
  · intro running queued hcounted
    obtain ⟨row', rest', htodo', -⟩ := h.counted running queued hcounted
    rw [htodo] at htodo'
    cases htodo'

theorem Working.count (h : Working items runs w) {rest : List (Nat × Option Run)} {row : Run}
    (htodo : w.todo = (r, some row) :: rest) {counts : Nat × Nat}
    (hcounts : counts = (count (items.map w.write) row.id .running, count (items.map w.write) row.id .queued)) :
    Working items runs { w with counted := some counts } := by
  refine ⟨h.pending, h.claims, h.todo, h.apart, h.written, h.known, h.active, h.ending, h.read, ?_⟩
  intro running queued hcounted
  cases hcounts
  cases hcounted
  obtain ⟨hid, -⟩ := h.read (r, some row) (htodo ▸ List.mem_cons_self) row rfl
  dsimp only at hid
  subst hid
  refine ⟨row, rest, htodo, Nat.le_refl _, fun hrunning hqueued _ item hitem hrun => ?_⟩
  exact ended_iff.mpr ⟨count_eq_zero.mp hqueued item hitem hrun, count_eq_zero.mp hrunning item hitem hrun⟩

/-! ### What a sweep does about a run -/

theorem mem_select_ids (ht : Tables items runs) (hi : item ∈ items) :
    item.id ∈ (select (items.map w.write) r .queued).map Item.id ↔ item.run = r ∧ (w.write item).status = .queued := by
  constructor
  · intro hmem
    obtain ⟨other, hother, hid⟩ := List.mem_map.mp hmem
    obtain ⟨hin, hrun, hstatus⟩ := mem_select.mp hother
    obtain ⟨old, hold, rfl⟩ := List.mem_map.mp hin
    rw [write_id] at hid
    rw [ht.item_inj hold hi hid, write_run] at hrun
    rw [ht.item_inj hold hi hid] at hstatus
    exact ⟨hrun, hstatus⟩
  · rintro ⟨hrun, hstatus⟩
    exact List.mem_map.mpr ⟨w.write item, mem_select.mpr ⟨List.mem_map_of_mem hi, by rwa [write_run], hstatus⟩, write_id⟩

/-- What is queued for the sweep is queued in the table. -/
theorem mem_of_select (h : item ∈ select (items.map w.write) r .queued) :
    item ∈ items ∧ item.status = .queued ∧ item.run = r ∧ item.id ∉ w.claims.map Item.id := by
  obtain ⟨hin, hrun, hstatus⟩ := mem_select.mp h
  obtain ⟨old, hold, rfl⟩ := List.mem_map.mp hin
  obtain ⟨hsame, hclaims, -⟩ := write_queued hstatus
  rw [hsame] at hrun hstatus ⊢
  exact ⟨hold, hstatus, hrun, hclaims⟩

theorem write_cancels (new : List Item) : ({ w with cancels := w.cancels ++ new } : Sweep).write item =
    if item.id ∉ w.claims.map Item.id ∧ item.id ∈ new.map Item.id then { item with status := .cancelled } else w.write item := by
  unfold Sweep.write
  rw [List.map_append]
  by_cases hclaim : item.id ∈ w.claims.map Item.id
  · rw [if_pos hclaim, if_pos hclaim, if_neg fun hnew => hnew.1 hclaim]
  · by_cases hnew : item.id ∈ new.map Item.id
    · rw [if_neg hclaim, if_pos (List.mem_append_right _ hnew), if_pos ⟨hclaim, hnew⟩]
    · simp only [List.mem_append, hclaim, hnew, or_false, and_false, if_false]

theorem write_claims (new : List Item) : ({ w with claims := w.claims ++ new } : Sweep).write item =
    if item.id ∈ new.map Item.id then { item with status := .running } else w.write item := by
  unfold Sweep.write
  rw [List.map_append]
  by_cases hnew : item.id ∈ new.map Item.id
  · rw [if_pos hnew, if_pos (List.mem_append_right _ hnew)]
  · simp only [List.mem_append, hnew, or_false, if_false]

/-- The run that comes next is taken off. -/
theorem Working.drop (h : Working items runs w) {rest : List (Nat × Option Run)} {row : Run}
    (htodo : w.todo = (row.id, some row) :: rest) : Working items runs { w with todo := rest, counted := none } := by
  have hsub : ∀ r ∈ rest.map Prod.fst, r ∈ w.todo.map Prod.fst := by
    rw [htodo]
    exact fun r hr => List.mem_cons_of_mem _ hr
  constructor
  · exact h.pending
  · exact h.claims
  · have hdistinct := h.todo
    rw [htodo] at hdistinct
    exact (List.nodup_cons.mp hdistinct).2
  · exact fun e he hmem => h.apart e he (hsub _ hmem)
  · exact h.written
  · exact fun r hr => h.known r (hr.imp (hsub r) id)
  · exact fun run hrun hmem => h.active run hrun (hmem.imp (hsub run.id) id)
  · exact h.ending
  · exact fun e he => h.read e (htodo ▸ List.mem_cons_of_mem _ he)
  · intro running queued hnone
    cases hnone

theorem write_cancel (ht : Tables items runs) (hi : item ∈ items) :
    ({ w with cancels := w.cancels ++ select (items.map w.write) r .queued } : Sweep).write item =
      if item.run = r ∧ (w.write item).status = .queued then { item with status := .cancelled } else w.write item := by
  rw [write_cancels]
  have hselect := mem_select_ids (w := w) (r := r) ht hi
  by_cases hnew : item.run = r ∧ (w.write item).status = .queued
  · rw [if_pos hnew, if_pos ⟨(write_queued hnew.2).2.1, hselect.mpr hnew⟩]
  · rw [if_neg hnew, if_neg fun hmem => hnew (hselect.mp hmem.2)]

theorem Working.cancel (h : Working items runs w) (ht : Tables items runs) (hcounted : w.counted = none) :
    Working items runs { w with cancels := w.cancels ++ select (items.map w.write) r .queued } := by
  constructor
  · intro item hitem
    rw [← List.append_assoc] at hitem
    cases List.mem_append.mp hitem with
    | inl hold => exact h.pending item hold
    | inr hnew => exact ⟨(mem_of_select hnew).1, (mem_of_select hnew).2.1⟩
  · exact h.claims
  · exact h.todo
  · exact h.apart
  · exact h.written
  · exact h.known
  · exact h.active
  · intro e he hended item hitem hrun
    obtain ⟨old, hold, rfl⟩ := List.mem_map.mp hitem
    rw [write_run] at hrun
    rw [write_cancel ht hold]
    split
    · rfl
    · exact h.ending e he hended _ (List.mem_map_of_mem hold) (by rwa [write_run])
  · exact h.read
  · intro running queued hsome
    rw [show (_ : Sweep).counted = none from hcounted] at hsome
    cases hsome

/-- What becomes of the run is written. -/
theorem Working.row (h : Working items runs w) (hcounted : w.counted = none) (hapart : r ∉ w.todo.map Prod.fst)
    {status : RunStatus} {pruning : Bool} (hstatus : status ≠ .queued) (hr : r < runs.length)
    (hactive : ∀ run ∈ runs, run.id = r → run.status.active = true)
    (hended : status.active = false → ∀ item ∈ items.map w.write, item.run = r → item.status.ended = true) :
    Working items runs { w with rows := w.rows ++ [(r, status)], pruning := pruning } := by
  constructor
  · exact h.pending
  · exact h.claims
  · exact h.todo
  · intro e he
    cases List.mem_append.mp he with
    | inl hold => exact h.apart e hold
    | inr hnew =>
      rw [List.mem_singleton] at hnew
      subst hnew
      exact hapart
  · intro e he
    cases List.mem_append.mp he with
    | inl hold => exact h.written e hold
    | inr hnew =>
      rw [List.mem_singleton] at hnew
      exact hnew ▸ hstatus
  · rintro x (hmem | hmem)
    · exact h.known x (.inl hmem)
    · rw [List.map_append] at hmem
      cases List.mem_append.mp hmem with
      | inl hold => exact h.known x (.inr hold)
      | inr hnew => exact List.mem_singleton.mp hnew ▸ hr
  · rintro run hrun (hmem | hmem | hmem)
    · exact h.active run hrun (.inl hmem)
    · rw [List.map_append] at hmem
      cases List.mem_append.mp hmem with
      | inl hold => exact h.active run hrun (.inr (.inl hold))
      | inr hnew => exact hactive run hrun (List.mem_singleton.mp hnew)
    · exact h.active run hrun (.inr (.inr hmem))
  · intro e he hstatus
    cases List.mem_append.mp he with
    | inl hold => exact h.ending e hold hstatus
    | inr hnew =>
      rw [List.mem_singleton] at hnew
      subst hnew
      exact hended hstatus
  · exact h.read
  · intro running queued hsome
    rw [show (_ : Sweep).counted = none from hcounted] at hsome
    cases hsome

/-- Queued items of the run are claimed. -/
theorem Working.claim (h : Working items runs w) (ht : Tables items runs) (hcounted : w.counted = none) (n : Nat)
    (hactive : ∀ run ∈ runs, run.id = r → run.status.active = true)
    (hended : ∀ e ∈ w.rows, e.2.active = false → e.1 ≠ r) :
    Working items runs { w with claims := w.claims ++ (select (items.map w.write) r .queued).take n } := by
  have hnew {item : Item} (hitem : item ∈ (select (items.map w.write) r .queued).take n) :=
    mem_of_select (List.mem_of_mem_take hitem)
  constructor
  · intro item hitem
    cases List.mem_append.mp hitem with
    | inl hclaim =>
      cases List.mem_append.mp hclaim with
      | inl hold => exact h.pending item (List.mem_append_left _ hold)
      | inr htaken => exact ⟨(hnew htaken).1, (hnew htaken).2.1⟩
    | inr hcancel => exact h.pending item (List.mem_append_right _ hcancel)
  · rw [List.map_append]
    refine List.Nodup.append h.claims ?_ ?_
    · refine List.Nodup.sublist (((List.take_sublist _ _).trans List.filter_sublist).map _) ?_
      have hids : (items.map w.write).map Item.id = List.range items.length := by
        rw [List.map_map, ← ht.items_ids]
        exact List.map_congr_left fun item _ => write_id
      rw [hids]
      exact List.nodup_range
    · intro x hold hmem
      obtain ⟨item, hitem, rfl⟩ := List.mem_map.mp hmem
      exact (hnew hitem).2.2.2 hold
  · exact h.todo
  · exact h.apart
  · exact h.written
  · exact h.known
  · rintro run hrun (hmem | hmem | ⟨item, hitem, hof⟩)
    · exact h.active run hrun (.inl hmem)
    · exact h.active run hrun (.inr (.inl hmem))
    · cases List.mem_append.mp hitem with
      | inl hold => exact h.active run hrun (.inr (.inr ⟨item, hold, hof⟩))
      | inr htaken => exact hactive run hrun (hof.symm.trans (hnew htaken).2.2.1)
  · intro e he hstatus item hitem hrun
    obtain ⟨old, hold, rfl⟩ := List.mem_map.mp hitem
    rw [write_run] at hrun
    rw [write_claims, if_neg]
    · exact h.ending e he hstatus _ (List.mem_map_of_mem hold) (by rwa [write_run])
    · intro hmem
      obtain ⟨claim, hclaim, hid⟩ := List.mem_map.mp hmem
      obtain ⟨hin, -, hof, -⟩ := hnew hclaim
      exact hended e he hstatus (by rw [← hrun, ← ht.item_inj hin hold hid, hof])
  · exact h.read
  · intro running queued hsome
    rw [show (_ : Sweep).counted = none from hcounted] at hsome
    cases hsome

theorem Working.act (h : Working items runs w) (ht : Tables items runs) {rest : List (Nat × Option Run)} {row : Run}
    {running queued : Nat} (htodo : w.todo = (row.id, some row) :: rest) (hcounted : w.counted = some (running, queued)) :
    Working items runs (({ w with todo := rest, counted := none } : Sweep).act row running queued (items.map w.write)) := by
  have hdrop := h.drop htodo
  have hapart : row.id ∉ rest.map Prod.fst := by
    have hdistinct := h.todo
    rw [htodo] at hdistinct
    exact (List.nodup_cons.mp hdistinct).1
  have hhead : row.id ∈ w.todo.map Prod.fst := by
    rw [htodo]
    exact List.mem_cons_self
  have hactive : ∀ run ∈ runs, run.id = row.id → run.status.active = true :=
    fun run hrun hid => h.active run hrun (.inl (hid ▸ hhead))
  have hlt := h.known row.id (.inl hhead)
  obtain ⟨row', rest', htodo', hrunning, hended⟩ := h.counted running queued hcounted
  rw [htodo, List.cons.injEq, Prod.mk.injEq, Option.some.injEq] at htodo'
  obtain ⟨⟨-, hsame⟩, -⟩ := htodo'
  subst hsame
  unfold Sweep.act
  split
  · have hcancel := hdrop.cancel (r := row.id) ht rfl
    dsimp only
    split
    · next hzero =>
      refine hcancel.row rfl hapart (by decide) hlt hactive fun _ item hitem hrun => ?_
      obtain ⟨old, hold, rfl⟩ := List.mem_map.mp hitem
      rw [write_run] at hrun
      rw [write_cancel ht hold]
      split
      · rfl
      · next hnot =>
        rw [hzero, Nat.le_zero, count_eq_zero] at hrunning
        exact ended_iff.mpr ⟨fun hqueued => hnot ⟨hrun, hqueued⟩, hrunning _ (List.mem_map_of_mem hold) (by rwa [write_run])⟩
    · exact hcancel
  · next hstatus =>
    split
    · next hnone => exact hdrop.row rfl hapart (by decide) hlt hactive fun _ => hended hnone.2 hnone.1 hstatus
    · have hrows : ∀ e ∈ w.rows, e.2.active = false → e.1 ≠ row.id := fun e he _ hid => h.apart e he (hid ▸ hhead)
      have hclaim (w₁ : Sweep) (h₁ : Working items runs w₁) (hnone : w₁.counted = none) (hwrite : w₁.write = w.write)
          (hrows₁ : ∀ e ∈ w₁.rows, e.2.active = false → e.1 ≠ row.id) (n : Nat) : Working items runs
            (if n = 0 ∨ queued = 0 then w₁
              else { w₁ with claims := w₁.claims ++ (select (items.map w.write) row.id .queued).take n }) := by
        split
        · exact h₁
        · rw [← hwrite]
          exact h₁.claim ht hnone n hactive hrows₁
      by_cases hqueued : row.status = .queued
      · have hstarted : Working items runs { w with todo := rest, counted := none, rows := w.rows ++ [(row.id, .running)] } :=
          hdrop.row rfl hapart (by decide) hlt hactive fun hend => by cases hend
        dsimp only
        rw [if_pos hqueued]
        refine hclaim _ hstarted rfl rfl (fun e he hend => ?_) _
        cases List.mem_append.mp he with
        | inl hold => exact hrows e hold hend
        | inr hnew =>
          rw [List.mem_singleton] at hnew
          subst hnew
          cases hend
      · dsimp only
        rw [if_neg hqueued]
        exact hclaim _ hdrop rfl rfl hrows _

/-! ### How many are running -/

theorem countP_or_le {α : Type} (p q : α → Bool) (as : List α) :
    (as.countP fun a => p a || q a) ≤ as.countP p + as.countP q := by
  induction as with
  | nil => exact Nat.le_refl _
  | cons a as ih =>
    rw [List.countP_cons, List.countP_cons, List.countP_cons]
    cases p a <;> cases q a <;> simp <;> omega

/-- A claim adds no more than the items it claims. -/
theorem count_claims_le (ht : Tables items runs) (new : List Item) :
    count (items.map ({ w with claims := w.claims ++ new } : Sweep).write) r .running ≤
      count (items.map w.write) r .running + new.length := by
  have hnew : items.countP (fun item => item.id ∈ new.map Item.id) ≤ new.length := by
    have hdistinct : ((items.filter fun item => item.id ∈ new.map Item.id).map Item.id).Nodup := by
      refine List.Nodup.sublist (List.filter_sublist.map _) ?_
      rw [ht.items_ids]
      exact List.nodup_range
    have hsub : (items.filter fun item => item.id ∈ new.map Item.id).map Item.id ⊆ new.map Item.id := by
      intro x hx
      obtain ⟨item, hitem, rfl⟩ := List.mem_map.mp hx
      exact of_decide_eq_true (List.mem_filter.mp hitem).2
    have hlength := (hdistinct.subperm hsub).length_le
    rwa [List.length_map, List.length_map, ← List.countP_eq_length_filter] at hlength
  refine Nat.le_trans ?_ (Nat.add_le_add_left hnew _)
  unfold count
  rw [List.countP_map, List.countP_map]
  refine Nat.le_trans (List.countP_mono_left fun item _ hrunning => ?_) (countP_or_le _ _ items)
  rw [Function.comp_apply, write_claims, decide_eq_true_eq] at hrunning
  rw [Bool.or_eq_true, Function.comp_apply, decide_eq_true_eq, decide_eq_true_eq]
  by_cases hclaimed : item.id ∈ new.map Item.id
  · exact .inr hclaimed
  · rw [if_neg hclaimed] at hrunning
    exact .inl hrunning

theorem count_claims_other (ht : Tables items runs) {new : List Item} (hnew : ∀ item ∈ new, item ∈ items ∧ item.run ≠ r) :
    count (items.map ({ w with claims := w.claims ++ new } : Sweep).write) r .running ≤ count (items.map w.write) r .running := by
  refine count_map_le fun item hitem hrun hstatus => ?_
  rw [write_run] at hrun
  rw [write_claims, if_neg] at hstatus
  · exact ⟨by rwa [write_run], hstatus⟩
  · intro hmem
    obtain ⟨claim, hclaim, hid⟩ := List.mem_map.mp hmem
    obtain ⟨hin, hother⟩ := hnew claim hclaim
    exact hother (ht.item_inj hin hitem hid ▸ hrun)

theorem Working.act_limited (h : Working items runs w) (ht : Tables items runs) {rest : List (Nat × Option Run)} {row : Run}
    {running queued : Nat} (htodo : w.todo = (row.id, some row) :: rest) (hcounted : w.counted = some (running, queued))
    (hlimited : ∀ run ∈ runs, GroupRuns.count (items.map w.write) run.id .running ≤ run.concurrency) :
    ∀ run ∈ runs, GroupRuns.count (items.map
      (({ w with todo := rest, counted := none } : Sweep).act row running queued (items.map w.write)).write) run.id .running ≤
        run.concurrency := by
  intro run hrun
  obtain ⟨row', rest', htodo', hrunning, -⟩ := h.counted running queued hcounted
  rw [htodo, List.cons.injEq, Prod.mk.injEq, Option.some.injEq] at htodo'
  obtain ⟨⟨-, hsame⟩, -⟩ := htodo'
  subst hsame
  have hclaim (w₁ : Sweep) (hwrite : w₁.write = w.write) : GroupRuns.count (items.map
      (if row.concurrency - running = 0 ∨ queued = 0 then w₁ else { w₁ with
        claims := w₁.claims ++ (select (items.map w.write) row.id .queued).take (row.concurrency - running) }).write)
          run.id .running ≤ run.concurrency := by
    split
    · rw [hwrite]
      exact hlimited run hrun
    · rw [← hwrite]
      by_cases hid : run.id = row.id
      · have hconcurrency := (h.read (row.id, some row) (htodo ▸ List.mem_cons_self) row rfl).2 run hrun hid
        have hle := count_claims_le (w := w₁) (r := run.id) ht
          ((select (items.map w₁.write) row.id .queued).take (row.concurrency - running))
        have htaken := List.length_take_le (row.concurrency - running) (select (items.map w₁.write) row.id .queued)
        rw [← hwrite, ← hid] at hrunning
        omega
      · have hsub : ∀ item ∈ (select (items.map w₁.write) row.id .queued).take (row.concurrency - running),
            item ∈ items ∧ item.run ≠ run.id := by
          intro item hitem
          obtain ⟨hin, -, hof, -⟩ := mem_of_select (List.mem_of_mem_take hitem)
          exact ⟨hin, fun hsame => hid (hsame.symm.trans hof)⟩
        refine Nat.le_trans (count_claims_other ht hsub) ?_
        rw [hwrite]
        exact hlimited run hrun
  have hcancel : GroupRuns.count (items.map ({ w with
      todo := rest, counted := none, cancels := w.cancels ++ select (items.map w.write) row.id .queued } : Sweep).write)
        run.id .running ≤ GroupRuns.count (items.map w.write) run.id .running := by
    refine count_map_le fun item hitem hrun hstatus => ?_
    have hwrite := write_cancel (w := w) (r := row.id) ht hitem
    change (({ w with cancels := w.cancels ++ select (items.map w.write) row.id .queued } : Sweep).write item).status = _ at hstatus
    rw [hwrite] at hstatus
    rw [write_run] at hrun
    split at hstatus
    · cases hstatus
    · exact ⟨by rwa [write_run], hstatus⟩
  unfold Sweep.act
  split
  · dsimp only
    split
    · exact Nat.le_trans hcancel (hlimited run hrun)
    · exact Nat.le_trans hcancel (hlimited run hrun)
  · split
    · exact hlimited run hrun
    · dsimp only
      by_cases hqueued : row.status = .queued
      · rw [if_pos hqueued]
        exact hclaim _ rfl
      · rw [if_neg hqueued]
        exact hclaim _ rfl

theorem Inv.sweepStep {a : Action} (h : Inv s) (hw : s.sweep = some w) {w' : Sweep} (hstep : sweepStep s w a = some w') :
    Inv { s with sweep := some w' } := by
  have hworking := h.working w hw
  have hlimited := h.limited
  rw [hw] at hlimited
  cases a with
  | reread =>
    simp only [GroupRuns.sweepStep] at hstep
    split at hstep
    · next r todo htodo =>
      obtain ⟨row, hrow, rfl⟩ := Option.map_eq_some_iff.mp hstep
      have hid := List.find?_some hrow
      rw [decide_eq_true_eq] at hid
      exact h.sweeping (hworking.reread h.tables htodo (List.mem_of_find?_eq_some hrow) hid) hlimited
    · cases hstep
  | count =>
    simp only [GroupRuns.sweepStep] at hstep
    split at hstep
    · next r row todo htodo hcounted =>
      cases hstep
      exact h.sweeping (hworking.count htodo rfl) hlimited
    · cases hstep
  | act =>
    simp only [GroupRuns.sweepStep] at hstep
    split at hstep
    · next r row todo running queued htodo hcounted =>
      cases hstep
      obtain ⟨hid, -⟩ := hworking.read (r, some row) (htodo ▸ List.mem_cons_self) row rfl
      dsimp only at hid
      subst hid
      exact h.sweeping (hworking.act h.tables htodo hcounted) (hworking.act_limited h.tables htodo hcounted hlimited)
    · cases hstep
  | _ => cases hstep

/-! ### Commits of the sweep -/

theorem write_running (h : Working items runs w) (ht : Tables items runs) (hi : item ∈ items) :
    (w.write item).status = .running ↔ item.id ∈ w.claims.map Item.id ∨ item.status = .running := by
  constructor
  · intro hrunning
    by_cases hclaim : item.id ∈ w.claims.map Item.id
    · exact .inl hclaim
    · refine .inr ?_
      unfold Sweep.write at hrunning
      rw [if_neg hclaim] at hrunning
      split at hrunning
      · cases hrunning
      · exact hrunning
  · rintro (hclaim | hrunning)
    · unfold Sweep.write
      rw [if_pos hclaim]
    · rw [h.write_ne ht hi (by rw [hrunning]; decide)]
      exact hrunning

/-- The runs that the sweep takes something of are neither stopping nor ended, and no stop holds for them. -/
theorem Inv.not_barred (h : Inv s) (hw : s.sweep = some w)
    (hallowed : ∀ run ∈ s.runs, takes w run.id = true → run.status ≠ .stopping) {run : Run} (hrun : run ∈ s.runs)
    (htakes : takes w run.id = true) : ¬ Barred s.history run.id := by
  intro hbarred
  obtain ⟨hqueued, hrunning⟩ := h.pinned run hrun hbarred
  have hstopping := hallowed run hrun htakes
  have hactive : run.status.active = true := by
    refine (h.working w hw).active run hrun (.inr ?_)
    rw [takes, Bool.or_eq_true, decide_eq_true_eq, List.any_eq_true] at htakes
    refine htakes.imp (fun hrow => List.mem_map_of_mem hrow) fun hclaim => ?_
    obtain ⟨item, hitem, hof⟩ := hclaim
    exact ⟨item, hitem, of_decide_eq_true hof⟩
  cases hstatus : run.status with
  | queued => exact hqueued hstatus
  | running => exact hrunning hstatus
  | stopping => exact hstopping hstatus
  | stopped | done =>
    rw [hstatus] at hactive
    cases hactive

theorem mem_claims {claims : List Item} {run item : Nat}
    (h : Event.claimed run item ∈ claims.map fun item => Event.claimed item.run item.id) :
    ∃ claim ∈ claims, claim.run = run := by
  obtain ⟨claim, hclaim, hevent⟩ := List.mem_map.mp h
  cases hevent
  exact ⟨claim, hclaim, rfl⟩

theorem not_stopping_claims {claims : List Item} {run : Nat} :
    Event.stopping run ∉ claims.map fun item => Event.claimed item.run item.id := by
  intro hmem
  obtain ⟨claim, -, hevent⟩ := List.mem_map.mp hmem
  cases hevent

/-- What holds once the transaction is committed, whatever the worker does next. -/
theorem Inv.save (h : Inv s) (hw : s.sweep = some w)
    (hallowed : ∀ run ∈ s.runs, takes w run.id = true → run.status ≠ .stopping)
    (hitems : s'.items = s.items.map w.write) (hruns : s'.runs = s.runs.map w.writeRow) (hstops : s'.stops = s.stops)
    (howed : (owed s').Perm (w.claims.map Item.id ++ owed s)) (hthreads : s'.threads = s.threads)
    (hhistory : s'.history = s.history ++ w.claims.map fun item => Event.claimed item.run item.id)
    (hseen : seen s'.items s'.sweep = s'.items) (hworking : ∀ w', s'.sweep = some w' → Working s'.items s'.runs w') :
    Inv s' := by
  have hold := h.working w hw
  have hids : (activeIds s').Perm (w.claims.map Item.id ++ activeIds s) := by
    unfold activeIds
    rw [hthreads, ← List.append_assoc]
    exact howed.append_right _
  have hfresh {x : Nat} (hx : x ∈ w.claims.map Item.id) : x ∉ activeIds s := by
    intro hactive
    obtain ⟨claim, hclaim, rfl⟩ := List.mem_map.mp hx
    obtain ⟨hin, hqueued⟩ := hold.pending claim (List.mem_append_left _ hclaim)
    obtain ⟨item, hitem, hid, hrunning⟩ := (h.active claim.id).mp hactive
    rw [h.tables.item_inj hitem hin hid, hqueued] at hrunning
    cases hrunning
  constructor
  · rw [hitems, hruns]
    exact h.tables.map (fun _ => ⟨write_id, write_run⟩) fun _ => writeRow_id
  · refine hids.nodup_iff.mpr (List.Nodup.append hold.claims h.distinct fun x hclaim hactive => hfresh hclaim hactive)
  · intro x
    rw [hids.mem_iff, List.mem_append, h.active, hitems]
    constructor
    · rintro (hclaim | ⟨item, hitem, hid, hrunning⟩)
      · obtain ⟨claim, hmem, rfl⟩ := List.mem_map.mp hclaim
        have hin := (hold.pending claim (List.mem_append_left _ hmem)).1
        exact ⟨w.write claim, List.mem_map_of_mem hin, write_id, (write_running hold h.tables hin).mpr (.inl hclaim)⟩
      · exact ⟨w.write item, List.mem_map_of_mem hitem, by rwa [write_id], (write_running hold h.tables hitem).mpr (.inr hrunning)⟩
    · rintro ⟨item, hitem, hid, hrunning⟩
      obtain ⟨before, hbefore, rfl⟩ := List.mem_map.mp hitem
      rw [write_id] at hid
      refine ((write_running hold h.tables hbefore).mp hrunning).imp (fun hclaim => hid ▸ hclaim) fun hran => ?_
      exact ⟨before, hbefore, hid, hran⟩
  · rw [hseen, hitems, hruns]
    intro run hrun
    obtain ⟨before, hbefore, rfl⟩ := List.mem_map.mp hrun
    have hlimited := h.limited before hbefore
    rw [hw] at hlimited
    rwa [writeRow_id, writeRow_concurrency]
  · rw [hruns, hitems]
    intro run hrun hended item hitem hof
    obtain ⟨before, hbefore, rfl⟩ := List.mem_map.mp hrun
    rw [writeRow_id] at hof
    cases hrow : Dict.get w.rows before.id with
    | some status =>
      rw [Sweep.writeRow, hrow] at hended
      exact hold.ending (before.id, status) (Dict.mem_of_get _ _ _ hrow) hended item hitem hof
    | none =>
      rw [Sweep.writeRow, hrow] at hended
      obtain ⟨was, hwas, rfl⟩ := List.mem_map.mp hitem
      rw [write_run] at hof
      have hsettled := h.settled before hbefore hended was hwas hof
      rw [hold.write_ne h.tables hwas (ended_iff.mp hsettled).1]
      exact hsettled
  · exact hworking
  · rw [hruns, hhistory]
    intro run hrun hbarred
    obtain ⟨before, hbefore, rfl⟩ := List.mem_map.mp hrun
    rw [writeRow_id] at hbarred
    have hearlier := hbarred.before not_stopping_claims
    cases hrow : Dict.get w.rows before.id with
    | some status =>
      rw [Sweep.writeRow, hrow]
      have hmem := Dict.mem_of_get _ _ _ hrow
      refine ⟨hold.written _ hmem, fun hrunning => ?_⟩
      dsimp only at hrunning
      subst hrunning
      refine h.not_barred hw hallowed hbefore ?_ hearlier
      rw [takes, Bool.or_eq_true, decide_eq_true_eq]
      exact .inl hmem
    | none =>
      rw [Sweep.writeRow, hrow]
      exact h.pinned before hbefore hearlier
  · intro r hr
    rw [hruns, List.length_map]
    rw [hstops, hhistory, List.mem_append] at hr
    refine h.heard r (hr.imp_right fun hevent => hevent.elim id fun hclaim => ?_)
    exact (not_stopping_claims hclaim).elim
  · rw [hhistory]
    refine h.stopped.append fun r x hmem => ⟨?_, not_stopping_claims⟩
    obtain ⟨claim, hclaim, hof⟩ := mem_claims hmem
    have hin := (hold.pending claim (List.mem_append_left _ hclaim)).1
    obtain ⟨run, hrun, hid⟩ := h.tables.run_of_lt (h.tables.known claim hin)
    have htakes : takes w run.id = true := by
      rw [takes, Bool.or_eq_true, List.any_eq_true]
      exact .inr ⟨claim, hclaim, decide_eq_true hid.symm⟩
    have hfree := h.not_barred hw hallowed hrun htakes
    rwa [hid, hof] at hfree
  · intro x
    obtain ⟨n, hn⟩ := h.once x
    refine ⟨n, ?_⟩
    rw [hhistory, record_append, record_claims hold.claims, hn, List.append_assoc]
    by_cases hclaim : x ∈ w.claims.map Item.id
    · have hnot : x ∉ owed s := fun hmem => hfresh hclaim (List.mem_append_left _ hmem)
      rw [if_neg hnot, if_pos hclaim, if_pos (howed.mem_iff.mpr (List.mem_append_left _ hclaim)), List.nil_append]
    · have hsame : x ∈ owed s' ↔ x ∈ owed s := by
        rw [howed.mem_iff, List.mem_append]
        exact or_iff_right hclaim
      simp only [hclaim, if_false, List.append_nil, hsame]

theorem Inv.commit (h : Inv s) (hw : s.sweep = some w)
    (hallowed : ∀ run ∈ s.runs, takes w run.id = true → run.status ≠ .stopping) (hstep : commit w s = some s') : Inv s' := by
  have hold := h.working w hw
  have htables := h.tables.map (f := w.write) (g := w.writeRow) (fun _ => ⟨write_id, write_run⟩) fun _ => writeRow_id
  unfold GroupRuns.commit at hstep
  dsimp only at hstep
  split at hstep
  · cases hstep
    have hids : (w.todo.map fun e => ((e.1, none) : Nat × Option Run)).map Prod.fst = w.todo.map Prod.fst := by
      rw [List.map_map]
      rfl
    refine h.save hw hallowed rfl rfl rfl ?_ rfl rfl (map_write_of_empty rfl rfl _) fun w' hw' => ?_
    · change (s.held ++ w.claims.map Item.id ++ s.waiting).Perm (w.claims.map Item.id ++ (s.held ++ s.waiting))
      rw [List.append_assoc]
      exact List.perm_append_comm_assoc _ _ _
    · cases hw'
      refine .fresh htables ?_ ?_ ?_ ?_
      · rw [hids]
        exact hold.todo
      · intro run hrun hmem
        rw [hids] at hmem
        obtain ⟨before, hbefore, rfl⟩ := List.mem_map.mp hrun
        rw [writeRow_id] at hmem
        have hnone : Dict.get w.rows before.id = none := by
          rw [Dict.get_eq_none]
          intro hrow
          obtain ⟨e, he, hid⟩ := List.mem_map.mp hrow
          exact hold.apart e he (hid ▸ hmem)
        rw [Sweep.writeRow, hnone]
        exact hold.active before hbefore (.inl hmem)
      · intro r hr
        rw [hids] at hr
        rw [List.length_map]
        exact hold.known r (.inl hr)
      · intro e he row hrow
        obtain ⟨before, -, rfl⟩ := List.mem_map.mp he
        cases hrow
  · split at hstep
    · cases hstep
      refine h.save hw hallowed rfl rfl rfl ?_ rfl rfl rfl fun w' hw' => by cases hw'
      change ([] ++ (s.waiting ++ (s.held ++ w.claims.map Item.id))).Perm (w.claims.map Item.id ++ (s.held ++ s.waiting))
      rw [List.nil_append, ← List.append_assoc]
      refine List.perm_append_comm.trans (List.Perm.append_left _ List.perm_append_comm)
    · cases hstep

/-! ### Threads -/

theorem Inv.execute (h : Inv s) (hx : x ∈ s.waiting) {stopping : Bool} : Inv { s with
    waiting := s.waiting.erase x
    threads := s.threads ++ [(x, stopping)]
    history := s.history ++ [Event.executed x] } := by
  have hwaiting : s.waiting.Perm (x :: s.waiting.erase x) := List.perm_cons_erase hx
  have hids : (s.held ++ s.waiting.erase x ++ (s.threads ++ [(x, stopping)]).map Prod.fst).Perm (activeIds s) := by
    have hmoved : (s.held ++ s.waiting.erase x ++ (s.threads ++ [(x, stopping)]).map Prod.fst).Perm
        (s.held ++ (x :: s.waiting.erase x) ++ s.threads.map Prod.fst) := by
      rw [List.map_append, List.append_assoc, List.append_assoc]
      refine List.Perm.append_left _ ?_
      rw [← List.append_assoc]
      exact List.perm_append_comm
    exact hmoved.trans ((hwaiting.symm.append_left _).append_right _)
  have howed : (owed s).Perm (x :: (s.held ++ s.waiting.erase x)) :=
    (hwaiting.append_left _).trans List.perm_middle
  have honce : (owed s).Nodup := (List.nodup_append.mp h.distinct).1
  constructor
  · exact h.tables
  · exact hids.nodup_iff.mpr h.distinct
  · exact fun y => hids.mem_iff.trans (h.active y)
  · exact h.limited
  · exact h.settled
  · exact h.working
  · exact fun run hrun hbarred => h.pinned run hrun (hbarred.before (by simp))
  · refine fun r hr => h.heard r (hr.imp_right fun hevent => ?_)
    simpa using hevent
  · exact h.stopped.append fun run item hmem => by simp at hmem
  · intro item
    obtain ⟨n, hn⟩ := h.once item
    have hrecord : record (s.history ++ [Event.executed x]) item = record s.history item ++ if x = item then [false] else [] := by
      rw [record_append]
      by_cases hitem : x = item <;> simp [record, hitem]
    by_cases hitem : x = item
    · subst hitem
      have hgone : x ∉ s.held ++ s.waiting.erase x := (List.nodup_cons.mp (howed.nodup_iff.mp honce)).1
      refine ⟨n + 1, ?_⟩
      change record (s.history ++ [Event.executed x]) x =
        (List.replicate (n + 1) [true, false]).flatten ++ if x ∈ s.held ++ s.waiting.erase x then [true] else []
      rw [hrecord, hn, if_pos (howed.mem_iff.mpr List.mem_cons_self), if_pos rfl, if_neg hgone, List.append_nil,
        List.replicate_succ', List.flatten_append, List.append_assoc]
      rfl
    · refine ⟨n, ?_⟩
      have hsame : item ∈ s.held ++ s.waiting.erase x ↔ item ∈ owed s := by
        rw [howed.mem_iff, List.mem_cons]
        exact (or_iff_right (Ne.symm hitem)).symm
      rw [hrecord, hn, if_neg hitem, List.append_nil]
      congr 1
      exact if_congr hsame.symm rfl rfl

@[simp] theorem finish_id {status : ItemStatus} : (finish x status item).id = item.id := by
  unfold finish
  split <;> rfl

@[simp] theorem finish_run {status : ItemStatus} : (finish x status item).run = item.run := by
  unfold finish
  split <;> rfl

theorem finish_running {status : ItemStatus} (hended : status.ended = true) :
    (finish x status item).status = .running ↔ item.status = .running ∧ item.id ≠ x := by
  unfold finish
  split
  · next hid =>
    refine ⟨fun hrunning => ?_, fun h => (h.2 hid).elim⟩
    dsimp only at hrunning
    subst hrunning
    cases hended
  · next hid => exact (and_iff_left hid).symm

theorem finish_ended {status : ItemStatus} (hended : status.ended = true) (h : item.status.ended = true) :
    (finish x status item).status.ended = true := by
  unfold finish
  split
  · exact hended
  · exact h

/-- What the sweep sees of an item that has ended -/
theorem write_finish {status : ItemStatus} (h : Working items runs w) (ht : Tables items runs) (hi : item ∈ items)
    (hx : ∀ other ∈ items, other.id = x → other.status = .running) : w.write (finish x status item) = finish x status (w.write item) := by
  by_cases hid : item.id = x
  · have hne : item.status ≠ .queued := by
      rw [hx item hi hid]
      decide
    have hsame := h.write_ne ht hi hne
    have hnone : item.id ∉ w.claims.map Item.id ∧ item.id ∉ w.cancels.map Item.id := by
      constructor <;>
      · intro hmem
        obtain ⟨other, hother, hotherid⟩ := List.mem_map.mp hmem
        obtain ⟨hin, hqueued⟩ := h.pending other (by simp [hother])
        exact hne (ht.item_inj hin hi hotherid ▸ hqueued)
    rw [hsame]
    unfold Sweep.write
    rw [finish_id, if_neg hnone.1, if_neg hnone.2]
  · have hleft {i : Item} (hi : i.id ≠ x) : finish x status i = i := by
      unfold finish
      rw [if_neg hi]
    rw [hleft hid, hleft (by rwa [write_id])]

theorem Working.finish {status : ItemStatus} (h : Working items runs w) (ht : Tables items runs) (hended : status.ended = true)
    (hx : ∀ other ∈ items, other.id = x → other.status = .running) : Working (items.map (finish x status)) runs w := by
  have hwrite : (items.map (GroupRuns.finish x status)).map w.write = (items.map w.write).map (GroupRuns.finish x status) := by
    rw [List.map_map, List.map_map]
    exact List.map_congr_left fun item hi => write_finish h ht hi hx
  have hstays {run : Nat} (h : ∀ item ∈ items.map w.write, item.run = run → item.status.ended = true) :
      ∀ item ∈ (items.map (GroupRuns.finish x status)).map w.write, item.run = run → item.status.ended = true := by
    rw [hwrite]
    intro item hitem hrun
    obtain ⟨before, hbefore, rfl⟩ := List.mem_map.mp hitem
    rw [finish_run] at hrun
    exact finish_ended hended (h before hbefore hrun)
  constructor
  · intro item hitem
    obtain ⟨hin, hqueued⟩ := h.pending item hitem
    refine ⟨List.mem_map.mpr ⟨item, hin, ?_⟩, hqueued⟩
    unfold GroupRuns.finish
    rw [if_neg]
    intro hid
    rw [hx item hin hid] at hqueued
    cases hqueued
  · exact h.claims
  · exact h.todo
  · exact h.apart
  · exact h.written
  · exact h.known
  · exact h.active
  · exact fun e he hend => hstays (h.ending e he hend)
  · exact h.read
  · intro running queued hcounted
    obtain ⟨row, rest, htodo, hrunning, hzero⟩ := h.counted running queued hcounted
    refine ⟨row, rest, htodo, Nat.le_trans ?_ hrunning, fun h₁ h₂ h₃ => hstays (hzero h₁ h₂ h₃)⟩
    rw [hwrite]
    have hle : GroupRuns.count ((items.map w.write).map (GroupRuns.finish x status)) row.id .running ≤
        GroupRuns.count ((items.map w.write).map fun item => item) row.id .running := by
      refine count_map_le fun item _ hrun hstatus => ⟨by rwa [finish_run] at hrun, ((finish_running hended).mp hstatus).1⟩
    rwa [List.map_id'] at hle

theorem outcome_ended {cancel : Bool} {status : ItemStatus} (h : outcome cancel status = true) : status.ended = true := by
  cases status <;> cases cancel <;> first | rfl | cases h

theorem Inv.finish {cancel : Bool} {status : ItemStatus} (h : Inv s) (hthread : (x, cancel) ∈ s.threads)
    (houtcome : outcome cancel status = true) : Inv { s with
      threads := s.threads.erase (x, cancel)
      items := s.items.map (finish x status) } := by
  have hended := outcome_ended houtcome
  have hids : (activeIds s).Perm (x :: (s.held ++ s.waiting ++ (s.threads.erase (x, cancel)).map Prod.fst)) := by
    have hthreads : (s.threads.map Prod.fst).Perm (x :: (s.threads.erase (x, cancel)).map Prod.fst) :=
      (List.perm_cons_erase hthread).map Prod.fst
    exact (hthreads.append_left _).trans List.perm_middle
  have hdistinct := List.nodup_cons.mp (hids.nodup_iff.mp h.distinct)
  have hx : ∀ other ∈ s.items, other.id = x → other.status = .running := by
    intro other hother hid
    obtain ⟨item, hitem, hitemid, hrunning⟩ := (h.active x).mp (hids.mem_iff.mpr List.mem_cons_self)
    rwa [h.tables.item_inj hother hitem (hid.trans hitemid.symm)]
  have hseen : seen (s.items.map (GroupRuns.finish x status)) s.sweep = (seen s.items s.sweep).map (GroupRuns.finish x status) := by
    cases hw : s.sweep with
    | none => rfl
    | some w =>
      change (s.items.map _).map w.write = (s.items.map w.write).map _
      rw [List.map_map, List.map_map]
      exact List.map_congr_left fun item hi => write_finish (h.working w hw) h.tables hi hx
  constructor
  · have htables := h.tables.map (f := GroupRuns.finish x status) (g := fun run => run)
      (fun _ => ⟨finish_id, finish_run⟩) fun _ => rfl
    rwa [List.map_id'] at htables
  · exact hdistinct.2
  · intro y
    constructor
    · intro hy
      obtain ⟨item, hitem, hid, hrunning⟩ := (h.active y).mp (hids.mem_iff.mpr (List.mem_cons_of_mem _ hy))
      have hne : item.id ≠ x := by
        intro hsame
        obtain rfl : y = x := hid.symm.trans hsame
        exact hdistinct.1 hy
      exact ⟨_, List.mem_map_of_mem hitem, by rwa [finish_id], (finish_running hended).mpr ⟨hrunning, hne⟩⟩
    · rintro ⟨item, hitem, hid, hrunning⟩
      obtain ⟨before, hbefore, rfl⟩ := List.mem_map.mp hitem
      rw [finish_id] at hid
      obtain ⟨hran, hne⟩ := (finish_running hended).mp hrunning
      refine (List.mem_cons.mp (hids.mem_iff.mp ((h.active y).mpr ⟨before, hbefore, hid, hran⟩))).resolve_left ?_
      exact fun hsame => hne (hid.trans hsame)
  · intro run hrun
    refine Nat.le_trans ?_ (h.limited run hrun)
    rw [hseen]
    have hle : count ((seen s.items s.sweep).map (GroupRuns.finish x status)) run.id .running ≤
        count ((seen s.items s.sweep).map fun item => item) run.id .running := by
      refine count_map_le fun item _ hof hstatus => ⟨by rwa [finish_run] at hof, ((finish_running hended).mp hstatus).1⟩
    rwa [List.map_id'] at hle
  · intro run hrun hend item hitem hof
    obtain ⟨before, hbefore, rfl⟩ := List.mem_map.mp hitem
    rw [finish_run] at hof
    exact finish_ended hended (h.settled run hrun hend before hbefore hof)
  · exact fun w hw => (h.working w hw).finish h.tables hended hx
  · exact h.pinned
  · exact h.heard
  · exact h.stopped
  · exact h.once

/-! ### New runs -/

theorem seen_append (h : ∀ w, s.sweep = some w → Working s.items s.runs w) (ht : Tables s.items s.runs) {new : List Item}
    (hnew : ∀ item ∈ new, s.items.length ≤ item.id) : seen (s.items ++ new) s.sweep = seen s.items s.sweep ++ new := by
  cases hw : s.sweep with
  | none => rfl
  | some w =>
    change (s.items ++ new).map w.write = s.items.map w.write ++ new
    rw [List.map_append]
    congr 1
    refine (List.map_congr_left fun item hitem => ?_).trans (List.map_id' new)
    have hout {list : List Item} (hsub : ∀ i ∈ list, i ∈ w.claims ++ w.cancels) : item.id ∉ list.map Item.id := by
      intro hmem
      obtain ⟨other, hother, hid⟩ := List.mem_map.mp hmem
      have hlt := ht.item_lt ((h w hw).pending other (hsub other hother)).1
      have hge := hnew item hitem
      omega
    unfold Sweep.write
    rw [if_neg (hout fun i hi => List.mem_append_left _ hi), if_neg (hout fun i hi => List.mem_append_right _ hi)]

theorem seen_known (ht : Tables s.items s.runs) (hi : item ∈ seen s.items s.sweep) : item.run < s.runs.length := by
  cases hw : s.sweep with
  | none =>
    rw [hw] at hi
    exact ht.known item hi
  | some w =>
    rw [hw] at hi
    obtain ⟨before, hbefore, rfl⟩ := List.mem_map.mp hi
    rw [write_run]
    exact ht.known before hbefore

/-- A run is started with items that are queued or skipped. -/
theorem Inv.start (h : Inv s) {new : List Item} {run : Run} (hrun : run.id = s.runs.length) (hactive : run.status.active = true)
    (hids : new.map Item.id = List.range' s.items.length new.length)
    (hof : ∀ item ∈ new, item.run = s.runs.length ∧ item.status ≠ .running) :
    Inv { s with runs := s.runs ++ [run], items := s.items ++ new } := by
  have hfresh : ∀ item ∈ new, s.items.length ≤ item.id := by
    intro item hitem
    have hmem := List.mem_map_of_mem (f := Item.id) hitem
    rw [hids, List.mem_range'_1] at hmem
    exact hmem.1
  have hseen := seen_append h.working h.tables hfresh
  have hothers {r : Nat} (hr : r < s.runs.length) {P : Item → Prop} (hP : ∀ item ∈ seen s.items s.sweep, item.run = r → P item) :
      ∀ item ∈ seen (s.items ++ new) s.sweep, item.run = r → P item := by
    rw [hseen]
    intro item hitem hitemof
    cases List.mem_append.mp hitem with
    | inl hold => exact hP item hold hitemof
    | inr hadded =>
      have := (hof item hadded).1
      omega
  have hcount {r : Nat} : count (seen (s.items ++ new) s.sweep) r .running = count (seen s.items s.sweep) r .running := by
    rw [hseen, count, List.countP_append]
    refine (Nat.add_eq_left.mpr ?_)
    rw [List.countP_eq_zero]
    intro item hitem hrunning
    exact (hof item hitem).2 (of_decide_eq_true hrunning).2
  constructor
  · constructor
    · rw [List.map_append, hids, h.tables.items_ids, List.length_append, List.range_eq_range', List.range_eq_range',
        ← List.range'_append_1, Nat.zero_add]
    · rw [List.map_append, h.tables.runs_ids, List.length_append, List.map_singleton, hrun]
      exact List.range_succ.symm
    · intro item hitem
      rw [List.length_append]
      cases List.mem_append.mp hitem with
      | inl hold => exact Nat.lt_add_right _ (h.tables.known item hold)
      | inr hadded =>
        rw [(hof item hadded).1]
        exact Nat.lt_succ_self _
  · exact h.distinct
  · intro x
    refine (h.active x).trans ⟨?_, ?_⟩
    · rintro ⟨item, hitem, hid, hrunning⟩
      exact ⟨item, List.mem_append_left _ hitem, hid, hrunning⟩
    · rintro ⟨item, hitem, hid, hrunning⟩
      refine ⟨item, (List.mem_append.mp hitem).resolve_right fun hadded => (hof item hadded).2 hrunning, hid, hrunning⟩
  · intro run' hrun'
    rw [hcount]
    cases List.mem_append.mp hrun' with
    | inl hold => exact h.limited run' hold
    | inr hadded =>
      rw [List.mem_singleton] at hadded
      have hnone : count (seen s.items s.sweep) run'.id .running = 0 := by
        refine count_eq_zero.mpr fun item hitem hitemof => ?_
        have hlt := seen_known h.tables hitem
        rw [hadded] at hitemof
        omega
      rw [hnone]
      exact Nat.zero_le _
  · intro run' hrun' hended item hitem hitemof
    have hold : run' ∈ s.runs := by
      refine (List.mem_append.mp hrun').resolve_right fun hadded => ?_
      rw [List.mem_singleton] at hadded
      rw [hadded, hactive] at hended
      cases hended
    have hlt := h.tables.run_lt hold
    refine h.settled run' hold hended item ((List.mem_append.mp hitem).resolve_right fun hadded => ?_) hitemof
    have := (hof item hadded).1
    omega
  · intro w hw
    have hworking := h.working w hw
    rw [hw] at hothers hcount
    have hnew {run' : Run} (hrun' : run' ∈ s.runs ++ [run]) (hlt : run'.id < s.runs.length) : run' ∈ s.runs := by
      refine (List.mem_append.mp hrun').resolve_right fun hadded => ?_
      rw [List.mem_singleton.mp hadded, hrun] at hlt
      exact Nat.lt_irrefl _ hlt
    constructor
    · exact fun item hitem => (hworking.pending item hitem).imp (List.mem_append_left _) id
    · exact hworking.claims
    · exact hworking.todo
    · exact hworking.apart
    · exact hworking.written
    · intro r hr
      rw [List.length_append]
      exact Nat.lt_add_right _ (hworking.known r hr)
    · intro run' hrun' hmem
      refine hworking.active run' (hnew hrun' ?_) hmem
      obtain hmem | hmem | ⟨claim, hclaim, hclaimof⟩ := hmem
      · exact hworking.known run'.id (.inl hmem)
      · exact hworking.known run'.id (.inr hmem)
      · exact hclaimof ▸ h.tables.known claim (hworking.pending claim (List.mem_append_left _ hclaim)).1
    · intro e he hended
      exact hothers (hworking.known e.1 (.inr (List.mem_map_of_mem he))) (hworking.ending e he hended)
    · intro e he row hrow
      obtain ⟨hid, hconcurrency⟩ := hworking.read e he row hrow
      refine ⟨hid, fun run' hrun' hrunid => hconcurrency run' (hnew hrun' ?_) hrunid⟩
      exact hrunid ▸ hworking.known e.1 (.inl (List.mem_map_of_mem he))
    · intro running queued hcounted
      obtain ⟨row, rest, htodo, hrunning, hzero⟩ := hworking.counted running queued hcounted
      have hlt : row.id < s.runs.length := hworking.known row.id (.inl (by rw [htodo]; exact List.mem_cons_self))
      refine ⟨row, rest, htodo, hcount.le.trans hrunning, fun h₁ h₂ h₃ => hothers hlt (hzero h₁ h₂ h₃)⟩
  · intro run' hrun' hbarred
    cases List.mem_append.mp hrun' with
    | inl hold => exact h.pinned run' hold hbarred
    | inr hadded =>
      obtain ⟨i, hi, -⟩ := hbarred
      have hlt := h.heard run'.id (.inr (List.mem_of_getElem? hi))
      rw [List.mem_singleton.mp hadded, hrun] at hlt
      exact (Nat.lt_irrefl _ hlt).elim
  · intro r hr
    rw [List.length_append]
    exact Nat.lt_add_right _ (h.heard r hr)
  · exact h.stopped
  · exact h.once

/-! ### Runs of the system -/

theorem lt_of_status {status : RunStatus} (h : Inv s) (hr : s.status r = some status) : r < s.runs.length := by
  obtain ⟨run, hrun, -⟩ := Option.map_eq_some_iff.mp hr
  have hid := List.find?_some hrun
  rw [decide_eq_true_eq] at hid
  exact hid ▸ h.tables.run_lt (List.mem_of_find?_eq_some hrun)

theorem Inv.start_run {kind : Kind} {concurrency : Option Int} {addresses : List Bool} (h : Inv s)
    (hstep : start_run kind concurrency addresses s = some s') : Inv s' := by
  unfold GroupRuns.start_run at hstep
  split at hstep
  · cases hstep
  · cases hstep
    refine h.start rfl rfl ?_ fun item hitem => ?_
    · rw [List.length_mapIdx]
      refine List.ext_getElem (by simp) fun n hn hn' => ?_
      simp
    · obtain ⟨n, hn, rfl⟩ := List.mem_mapIdx.mp hitem
      refine ⟨rfl, ?_⟩
      dsimp only
      split <;> decide

theorem inv_start : Inv start := by
  constructor
  · exact ⟨rfl, rfl, fun item hitem => (List.not_mem_nil hitem).elim⟩
  · exact List.nodup_nil
  · exact fun x => ⟨fun hx => (List.not_mem_nil hx).elim, fun ⟨item, hitem, _⟩ => (List.not_mem_nil hitem).elim⟩
  · exact fun run hrun => (List.not_mem_nil hrun).elim
  · exact fun run hrun => (List.not_mem_nil hrun).elim
  · intro w hw
    cases hw
  · exact fun run hrun => (List.not_mem_nil hrun).elim
  · exact fun r hr => hr.elim (fun hr => (List.not_mem_nil hr).elim) fun hr => (List.not_mem_nil hr).elim
  · intro i j run item _ hi
    cases hi
  · exact fun item => ⟨0, rfl⟩

theorem Inv.step {a : Action} (h : Inv s) (hallowed : Allowed s a) (hstep : step s a = some s') : Inv s' := by
  have hsweep (hrest : (s.sweep.bind fun w => if w.pruning then none else
      (GroupRuns.sweepStep s w a).map fun w => { s with sweep := some w }) = some s') : Inv s' := by
    obtain ⟨w, hw, hrest⟩ := Option.bind_eq_some_iff.mp hrest
    split at hrest
    · cases hrest
    · obtain ⟨w', hw', rfl⟩ := Option.map_eq_some_iff.mp hrest
      exact h.sweepStep hw hw'
  have hstops : ∀ r ∈ s.stops, r < s.runs.length := fun r hr => h.heard r (.inl hr)
  cases a with
  | start kind concurrency addresses => exact h.start_run hstep
  | stopRead r =>
    simp only [GroupRuns.step, Option.ite_none_right_eq_some] at hstep
    obtain ⟨hstatus, hs⟩ := hstep
    cases hs
    refine h.request rfl rfl rfl rfl rfl rfl rfl fun x hx => ?_
    obtain rfl | hx := List.mem_cons.mp hx
    · exact hstatus.elim (lt_of_status h) (lt_of_status h)
    · exact hstops x hx
  | stopCommit r =>
    simp only [GroupRuns.step, Option.ite_none_right_eq_some] at hstep
    obtain ⟨hr, hs⟩ := hstep
    cases hs
    exact h.stop hr
  | retryRead r =>
    simp only [GroupRuns.step, Option.ite_none_right_eq_some] at hstep
    obtain ⟨-, hs⟩ := hstep
    cases hs
    exact h.request rfl rfl rfl rfl rfl rfl rfl hstops
  | retryCommit r =>
    simp only [GroupRuns.step, Option.ite_none_right_eq_some] at hstep
    obtain ⟨-, hs⟩ := hstep
    cases hs
    exact h.retry_failed hallowed
  | read =>
    simp only [GroupRuns.step, Option.ite_none_left_eq_some] at hstep
    obtain ⟨hnone, hs⟩ := hstep
    cases hs
    exact h.read (by simpa using hnone)
  | commit =>
    obtain ⟨w, hw, hs⟩ := Option.bind_eq_some_iff.mp hstep
    exact h.commit hw (hallowed w hw) hs
  | execute x =>
    simp only [GroupRuns.step, Option.ite_none_right_eq_some] at hstep
    obtain ⟨hx, hs⟩ := hstep
    obtain ⟨item, -, rfl⟩ := Option.map_eq_some_iff.mp hs
    exact h.execute hx
  | finish x cancel status =>
    simp only [GroupRuns.step, Option.ite_none_right_eq_some] at hstep
    obtain ⟨⟨hthread, houtcome⟩, hs⟩ := hstep
    cases hs
    exact h.finish hthread houtcome
  | reread | count | act => exact hsweep hstep

end Steps

/-- Whatever users, the sweep and the threads do in between, while no commit of the sweep takes something of a stopping
run and no retry queues items of a run that the sweep ends, the promise is kept in every state. -/
theorem group_runs_kept {s : State} (h : Reach step Allowed start s) : Kept s := by
  have hinv : Inv s := h.invariant inv_start fun _ _ _ hbefore hallowed hstep => hbefore.step hallowed hstep
  exact hinv.kept

instance (s : State) (a : Action) : Decidable (Allowed s a) := by
  cases a <;> unfold Allowed <;> infer_instance

/-- A run of two assets, one at a time, that is stopped while the first is audited, and retried. -/
def stoppedRun : List Action := [.start .audit (some 1) [true, true], .read, .count, .act, .commit, .execute 0, .stopRead 0,
  .stopCommit 0, .read, .count, .act, .commit, .finish 0 false .failed, .read, .count, .act, .commit, .retryRead 0,
  .retryCommit 0, .read, .count, .act, .commit]

theorem group_runs_kept_stopped : ∃ s, Reach step Allowed start s ∧ s.items.map Item.status = [.running, .cancelled] ∧
    Kept s := by
  have hrun : (run (fun s a => if decide (Allowed s a) then step s a else none) stoppedRun start).any
      (fun s => s.items.map Item.status = [.running, .cancelled]) = true := by with_unfolding_all decide
  obtain ⟨s, hs, hitems⟩ := (Option.any_eq_true _ _).mp hrun
  have hreach : Reach step Allowed start s := Reach.run (fun _ _ hok => of_decide_eq_true hok) _ .start hs
  exact ⟨s, hreach, of_decide_eq_true hitems, group_runs_kept hreach⟩

/-- A stop commits between the read of a new run by the sweep and its commit. -/
def stopLost : List Action :=
  [.start .audit (some 1) [true], .read, .stopRead 0, .stopCommit 0, .count, .act, .commit]

/-- The run is running again, and its item is claimed. -/
theorem stop_lost : ∃ s, run step stopLost start = some s ∧ s.runs.map Run.status = [.running] ∧ ¬ Kept s := by
  have hrun : (run step stopLost start).any (fun s => s.runs.map Run.status = [.running] ∧
      s.history = [.stopping 0, .claimed 0 0]) = true := by with_unfolding_all decide
  obtain ⟨s, hs, hafter⟩ := (Option.any_eq_true _ _).mp hrun
  obtain ⟨hstatus, hhistory⟩ := of_decide_eq_true hafter
  refine ⟨s, hs, hstatus, fun hkept => ?_⟩
  obtain ⟨k, hfirst, hlast, -⟩ := hkept.stopped 0 1 0 0 (by decide) (by rw [hhistory]; rfl) (by rw [hhistory]; rfl)
  omega

/-- A retry that has read the run before it was opened again queues items while the sweep ends the run. -/
example : (run step [.start .audit (some 1) [true], .read, .count, .act, .commit, .execute 0, .finish 0 false .failed,
    .read, .count, .act, .commit, .retryRead 0, .retryRead 0, .retryCommit 0, .read, .count, .act, .commit, .execute 0,
    .finish 0 false .failed, .read, .count, .act, .retryCommit 0, .commit] start).map
      (fun s => (s.runs.map Run.status, s.items.map Item.status)) = some ([.done], [.queued]) := by
        with_unfolding_all decide

end GroupRunStop
