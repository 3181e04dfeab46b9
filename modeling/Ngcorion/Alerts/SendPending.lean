import Ngcorion.Serial
import Ngcorion.Text
import Ngcorion.Transition

/-!
# Sending the pending deliveries

Each worker selects the due deliveries that no other worker has locked, locks them,
and then sends one after the other, with a commit after each. A commit releases all
locks of the worker, those on the rest of its rows too.
-/
namespace SendPending

open Text Serial Transition

inductive Status where
  | pending | sent | failed | skipped
  deriving DecidableEq

/-- The columns of a delivery that sending it reads or writes. -/
structure NotificationDelivery where
  status : Status
  attempts : Nat
  next_attempt_at : Option Nat
  error : Option Str
  sent_at : Option Nat

/-- How `deliver` ends: it returns, raises a `DeliveryError`, or crashes. -/
inductive Outcome where
  | sent
  | refused (message : Str)
  | crashed (exception : Str)
  deriving DecidableEq

/-- `RETRY_DELAYS` in microseconds -/
def retryDelays : List Nat := [60 * 1000000, 5 * 60 * 1000000]

/-- The columns that are written for an outcome; `time` is when a message was sent. -/
def settle (now time attempts : Nat) (outcome : Outcome) (d : NotificationDelivery) : NotificationDelivery :=
  match outcome with
  | .sent => { d with attempts := attempts, status := .sent, sent_at := some time }
  | .refused message =>
    match retryDelays[attempts - 1]? with
    | some delay =>
      { d with attempts := attempts, error := some (message.take 1000), next_attempt_at := some (now + delay) }
    | none => { d with attempts := attempts, error := some (message.take 1000), status := .failed }
  | .crashed exception => { d with attempts := attempts, status := .failed, error := some exception }

/-! ## Workers -/

/-- A worker in `send_pending`: `time` is its `now`, `locks` are the rows that its
transaction has locked. `delivered` is between `deliver` and the commit. -/
inductive Worker where
  | idle
  | sending (time : Nat) (rows locks : List Nat)
  | delivered (time id attempts : Nat) (outcome : Outcome) (rest locks : List Nat)

/-- The rows that the worker has not committed. -/
def Worker.batch : Worker → List Nat
  | .idle => []
  | .sending _ rows _ => rows
  | .delivered _ id _ _ rest _ => id :: rest

def Worker.locks : Worker → List Nat
  | .idle => []
  | .sending _ _ locks => locks
  | .delivered _ _ _ _ _ locks => locks

/-- The loop ends after the last row. -/
def goOn (time : Nat) (rows locks : List Nat) : Worker := if rows = [] then .idle else .sending time rows locks

/-- The table, the workers, and every message that was sent, with the worker that sent it. -/
structure State where
  deliveries : Table NotificationDelivery
  workers : List Worker
  messages : List (Nat × Nat)

inductive Action where
  | enqueue (delivery : NotificationDelivery)
  | select (worker now limit : Nat)
  | deliver (worker : Nat) (outcome : Outcome)
  | commit (worker time : Nat)

/-- The filter of the query. -/
def due (now : Nat) (d : NotificationDelivery) : Bool :=
  d.status = .pending && d.next_attempt_at.any (· ≤ now)

/-- The rows that the query may return: due, and locked by nobody. -/
def selectable (s : State) (now : Nat) : List Nat :=
  (s.deliveries.rows.filter (fun e => due now e.2 && !s.workers.any (fun w => e.1 ∈ w.locks))).map Prod.fst

def step (s : State) : Action → Option State
  | .enqueue delivery => some { s with deliveries := s.deliveries.insert delivery }
  | .select i now limit =>
    match s.workers[i]? with
    | some .idle =>
      let rows := (selectable s now).take limit
      some { s with workers := s.workers.set i (goOn now rows rows) }
    | _ => none
  | .deliver i outcome =>
    match s.workers[i]? with
    | some (.sending time (id :: rest) locks) =>
      -- after a commit the row is read again, so that the attempts are the stored ones
      (s.deliveries.rows.find? (fun e => e.1 = id)).map (fun e =>
        { s with
          workers := s.workers.set i (.delivered time id (e.2.attempts + 1) outcome rest locks)
          messages := if outcome = .sent then (i, id) :: s.messages else s.messages })
    | _ => none
  | .commit i time =>
    match s.workers[i]? with
    | some (.delivered now id attempts outcome rest _) =>
      -- the update waits for a lock of another worker
      if (others s.workers i).any (fun w => id ∈ w.locks) then none
      else
        some { s with
          deliveries := s.deliveries.modify (fun j d => if j = id then settle now time attempts outcome d else d)
          workers := s.workers.set i (goOn now rest []) }
    | _ => none

/-- Every delivery was sent at most once, by one worker. -/
def SentOnce (s : State) : Prop := (s.messages.map Prod.snd).Nodup

/-- No row that is due, and that nobody has locked, is left in the batch of another worker. -/
def noneLeft (s : State) : Action → Bool
  | .select i now _ => (others s.workers i).all (fun w => w.batch.all (· ∉ selectable s now))
  | _ => true

def begin (deliveries : Table NotificationDelivery) (workers : Nat) : State :=
  ⟨deliveries, List.replicate workers .idle, []⟩

/-! ## What a worker has is its own -/

/-- The delivery that the worker has sent and not committed. -/
def Worker.sent : Worker → Option Nat
  | .delivered _ id _ .sent _ _ => some id
  | _ => none

theorem Worker.sent_mem {w : Worker} {id : Nat} (h : w.sent = some id) : id ∈ w.batch := by
  cases w with
  | delivered time id' attempts outcome rest locks =>
    cases outcome <;> simp_all [Worker.sent, Worker.batch]
  | _ => simp [Worker.sent] at h

theorem batch_goOn (time : Nat) (rows locks : List Nat) : (goOn time rows locks).batch = rows := by
  unfold goOn
  split
  · next h => rw [h, Worker.batch]
  · rfl

theorem sent_goOn (time : Nat) (rows locks : List Nat) : (goOn time rows locks).sent = none := by
  unfold goOn
  split <;> rfl

/-- A delivery with a status. -/
def HasStatus (t : Table NotificationDelivery) (id : Nat) (status : Status) : Prop :=
  ∃ d, (id, d) ∈ t.rows ∧ d.status = status

theorem not_pending_sent {t : Table NotificationDelivery} {id : Nat} (hp : HasStatus t id .pending)
    (hs : HasStatus t id .sent) : False := by
  obtain ⟨d, hd, hpending⟩ := hp
  obtain ⟨e, he, hsent⟩ := hs
  rw [Table.row_unique hd he, hsent] at hpending
  simp at hpending

theorem HasStatus.insert {t : Table NotificationDelivery} {id : Nat} {status : Status} (h : HasStatus t id status)
    (d : NotificationDelivery) : HasStatus (t.insert d) id status := by
  obtain ⟨e, he, hstatus⟩ := h
  exact ⟨e, Table.mem_insert.mpr (Or.inl he), hstatus⟩

/-- A commit leaves the other rows. -/
theorem HasStatus.modify {t : Table NotificationDelivery} {id j : Nat} {status : Status} (h : HasStatus t id status)
    (hne : id ≠ j) (f : NotificationDelivery → NotificationDelivery) :
    HasStatus (t.modify (fun k d => if k = j then f d else d)) id status := by
  obtain ⟨e, he, hstatus⟩ := h
  exact ⟨e, Table.mem_modify.mpr ⟨e, he, by simp [hne]⟩, hstatus⟩

/-- No two workers have the same row, what a worker has is pending, and what was sent is
stored as sent or is about to be. -/
structure Inv (s : State) : Prop where
  nodup : ∀ (i : Nat) (w : Worker), s.workers[i]? = some w → w.batch.Nodup
  pending : ∀ (i : Nat) (w : Worker), s.workers[i]? = some w → ∀ id ∈ w.batch, HasStatus s.deliveries id .pending
  apart : ∀ (i j : Nat) (w v : Worker), i ≠ j → s.workers[i]? = some w → s.workers[j]? = some v → ∀ id ∈ w.batch, id ∉ v.batch
  once : SentOnce s
  kept : ∀ e ∈ s.messages, HasStatus s.deliveries e.2 .sent ∨ ∃ (i : Nat) (w : Worker), s.workers[i]? = some w ∧ w.sent = some e.2

variable {s s' : State}

theorem Inv.not_sent (h : Inv s) {id : Nat} (hp : HasStatus s.deliveries id .pending)
    (hw : ∀ (i : Nat) (w : Worker), s.workers[i]? = some w → w.sent ≠ some id) : id ∉ s.messages.map Prod.snd := by
  intro hmem
  obtain ⟨e, he, rfl⟩ := List.mem_map.mp hmem
  rcases h.kept e he with hs | ⟨i, w, hi, hsent⟩
  · exact not_pending_sent hp hs
  · exact hw i w hi hsent

/-- Workers stay apart when one of them changes to a batch that no other has. -/
theorem Inv.apart_set (h : Inv s) {i : Nat} {w : Worker}
    (hfree : ∀ (j : Nat) (v : Worker), j ≠ i → s.workers[j]? = some v → ∀ id ∈ w.batch, id ∉ v.batch) :
    ∀ (j k : Nat) (u v : Worker), j ≠ k → (s.workers.set i w)[j]? = some u → (s.workers.set i w)[k]? = some v →
      ∀ id ∈ u.batch, id ∉ v.batch := by
  intro j k u v hjk hj hk id hid hid'
  rcases getElem_set_cases hj with ⟨hji, hu⟩ | ⟨hji, hj⟩
  · rcases getElem_set_cases hk with ⟨hki, -⟩ | ⟨hki, hk⟩
    · exact hjk (hji.trans hki.symm)
    · exact hfree k v hki hk id (hu ▸ hid) hid'
  · rcases getElem_set_cases hk with ⟨-, hv⟩ | ⟨-, hk⟩
    · exact hfree j u hji hj id (hv ▸ hid') hid
    · exact h.apart j k u v hjk hj hk id hid hid'

/-- What is left of a batch is still in no other batch. -/
theorem Inv.free_of_subset (h : Inv s) {i : Nat} {u w : Worker} (hi : s.workers[i]? = some u)
    (hsub : ∀ id ∈ w.batch, id ∈ u.batch) :
    ∀ (j : Nat) (v : Worker), j ≠ i → s.workers[j]? = some v → ∀ id ∈ w.batch, id ∉ v.batch :=
  fun j v hj hv id hid => h.apart i j u v hj.symm hi hv id (hsub id hid)

theorem inv_enqueue (h : Inv s) (d : NotificationDelivery) :
    Inv { s with deliveries := s.deliveries.insert d } where
  nodup := h.nodup
  pending i w hi id hid := (h.pending i w hi id hid).insert d
  apart := h.apart
  once := h.once
  kept e he := (h.kept e he).imp (fun hs => hs.insert d) id

theorem mem_selectable (s : State) {now id : Nat} (h : id ∈ selectable s now) : HasStatus s.deliveries id .pending := by
  obtain ⟨e, he, rfl⟩ := List.mem_map.mp h
  obtain ⟨he, hdue⟩ := List.mem_filter.mp he
  simp only [due, Bool.and_eq_true, decide_eq_true_eq] at hdue
  exact ⟨e.2, he, hdue.1.1⟩

theorem nodup_selectable (s : State) (now : Nat) : (selectable s now).Nodup :=
  s.deliveries.nodup.sublist (List.filter_sublist.map Prod.fst)

theorem inv_select (h : Inv s) {i now limit : Nat} (hi : s.workers[i]? = some .idle)
    (hleft : noneLeft s (.select i now limit) = true) :
    Inv { s with workers := s.workers.set i (goOn now ((selectable s now).take limit) ((selectable s now).take limit)) } := by
  -- what is selected is in no other batch
  have hfree : ∀ j v, j ≠ i → s.workers[j]? = some v → ∀ id ∈ (selectable s now).take limit, id ∉ v.batch := by
    intro j v hj hv id hid hbatch
    have hall := List.all_eq_true.mp hleft v (mem_others hj hv)
    have hnot := List.all_eq_true.mp hall id hbatch
    simp only [decide_eq_true_eq] at hnot
    exact hnot (List.mem_of_mem_take hid)
  constructor
  · intro j w hj
    rcases getElem_set_cases hj with ⟨rfl, rfl⟩ | ⟨-, hj⟩
    · rw [batch_goOn]
      exact (nodup_selectable s now).sublist (List.take_sublist _ _)
    · exact h.nodup j w hj
  · intro j w hj id hid
    rcases getElem_set_cases hj with ⟨rfl, rfl⟩ | ⟨-, hj⟩
    · rw [batch_goOn] at hid
      exact mem_selectable s (List.mem_of_mem_take hid)
    · exact h.pending j w hj id hid
  · apply h.apart_set
    intro j v hj hv id hid
    rw [batch_goOn] at hid
    exact hfree j v hj hv id hid
  · exact h.once
  · intro e he
    rcases h.kept e he with hs | ⟨j, w, hj, hsent⟩
    · exact Or.inl hs
    · have hne : i ≠ j := by
        rintro rfl
        rw [hi] at hj
        cases hj
        simp [Worker.sent] at hsent
      exact Or.inr ⟨j, w, by rw [List.getElem?_set_ne hne, hj], hsent⟩

theorem inv_deliver (h : Inv s) {i time id attempts : Nat} {outcome : Outcome} {rest locks : List Nat}
    (hi : s.workers[i]? = some (.sending time (id :: rest) locks)) :
    Inv { s with
      workers := s.workers.set i (.delivered time id attempts outcome rest locks)
      messages := if outcome = .sent then (i, id) :: s.messages else s.messages } := by
  have hbatch : id ∈ (Worker.sending time (id :: rest) locks).batch := List.mem_cons_self
  have hlength : i < s.workers.length := (List.getElem?_eq_some_iff.mp hi).1
  -- nobody else has the row, so it was not sent before
  have hfresh : id ∉ s.messages.map Prod.snd := by
    apply h.not_sent (h.pending i _ hi id hbatch)
    intro j w hj hsent
    by_cases hij : i = j
    · subst hij
      rw [hi] at hj
      cases hj
      simp [Worker.sent] at hsent
    · exact h.apart i j _ w hij hi hj id hbatch (Worker.sent_mem hsent)
  have hbefore : ∀ e ∈ s.messages, HasStatus s.deliveries e.2 .sent ∨ ∃ (j : Nat) (w : Worker),
      (s.workers.set i (.delivered time id attempts outcome rest locks))[j]? = some w ∧ w.sent = some e.2 := by
    intro e he
    rcases h.kept e he with hs | ⟨j, w, hj, hsent⟩
    · exact Or.inl hs
    · have hne : i ≠ j := by
        rintro rfl
        rw [hi] at hj
        cases hj
        simp [Worker.sent] at hsent
      exact Or.inr ⟨j, w, by rw [List.getElem?_set_ne hne, hj], hsent⟩
  constructor
  · intro j w hj
    rcases getElem_set_cases hj with ⟨rfl, rfl⟩ | ⟨-, hj⟩
    · have hnodup := h.nodup j _ hi
      exact hnodup
    · exact h.nodup j w hj
  · intro j w hj id' hid
    rcases getElem_set_cases hj with ⟨rfl, rfl⟩ | ⟨-, hj⟩
    · exact h.pending j _ hi id' hid
    · exact h.pending j w hj id' hid
  · exact h.apart_set (h.free_of_subset hi (fun _ hid => hid))
  · by_cases ho : outcome = .sent
    · simp only [SentOnce, ho, if_true, List.map_cons, List.nodup_cons]
      exact ⟨hfresh, h.once⟩
    · simp only [SentOnce, ho, if_false]
      exact h.once
  · intro e he
    by_cases ho : outcome = .sent
    · subst ho
      rcases List.mem_cons.mp he with rfl | he
      · exact Or.inr ⟨i, _, List.getElem?_set_self hlength, rfl⟩
      · exact hbefore e he
    · simp only [ho, if_false] at he
      exact hbefore e he

theorem settle_sent {now time attempts : Nat} {d : NotificationDelivery} :
    (settle now time attempts .sent d).status = .sent := rfl

theorem inv_commit (h : Inv s) {i now time id attempts : Nat} {outcome : Outcome} {rest locks : List Nat}
    (hi : s.workers[i]? = some (.delivered now id attempts outcome rest locks)) :
    Inv { s with
      deliveries := s.deliveries.modify (fun j d => if j = id then settle now time attempts outcome d else d)
      workers := s.workers.set i (goOn now rest []) } := by
  have hnodup := h.nodup i _ hi
  simp only [Worker.batch, List.nodup_cons] at hnodup
  have hbatch : id ∈ (Worker.delivered now id attempts outcome rest locks).batch := List.mem_cons_self
  have hrest : ∀ id' ∈ rest, id' ∈ (Worker.delivered now id attempts outcome rest locks).batch :=
    fun id' hid => List.mem_cons_of_mem _ hid
  constructor
  · intro j w hj
    rcases getElem_set_cases hj with ⟨rfl, rfl⟩ | ⟨-, hj⟩
    · rw [batch_goOn]
      exact hnodup.2
    · exact h.nodup j w hj
  · intro j w hj id' hid
    rcases getElem_set_cases hj with ⟨rfl, rfl⟩ | ⟨hji, hj⟩
    · rw [batch_goOn] at hid
      have hne : id' ≠ id := fun heq => hnodup.1 (heq.symm ▸ hid)
      exact (h.pending j _ hi id' (hrest id' hid)).modify hne _
    · have hne : id' ≠ id := fun heq => h.apart i j _ w hji.symm hi hj id hbatch (heq ▸ hid)
      exact (h.pending j w hj id' hid).modify hne _
  · apply h.apart_set
    apply h.free_of_subset hi
    intro id' hid
    rw [batch_goOn] at hid
    exact hrest id' hid
  · exact h.once
  · -- what was sent is stored as sent now, if this worker sent it
    intro e he
    rcases h.kept e he with hs | ⟨j, w, hj, hsent⟩
    · have hne : e.2 ≠ id := by
        intro heq
        exact not_pending_sent (h.pending i _ hi id hbatch) (heq ▸ hs)
      exact Or.inl (hs.modify hne _)
    · by_cases hij : i = j
      · subst hij
        rw [hi] at hj
        cases hj
        obtain ⟨d, hd, -⟩ := h.pending i _ hi id hbatch
        cases outcome with
        | sent =>
          cases hsent
          refine Or.inl ⟨settle now time attempts .sent d, Table.mem_modify.mpr ⟨d, hd, ?_⟩, rfl⟩
          simp
        | refused message => simp [Worker.sent] at hsent
        | crashed exception => simp [Worker.sent] at hsent
      · exact Or.inr ⟨j, w, by rw [List.getElem?_set_ne hij, hj], hsent⟩

theorem inv_step (h : Inv s) {a : Action} (hleft : noneLeft s a = true) (hstep : step s a = some s') : Inv s' := by
  cases a with
  | enqueue d =>
    cases hstep
    exact inv_enqueue h d
  | select i now limit =>
    simp only [step] at hstep
    split at hstep
    · next hi =>
      cases hstep
      exact inv_select h hi hleft
    · simp at hstep
  | deliver i outcome =>
    simp only [step] at hstep
    split at hstep
    · next hi =>
      obtain ⟨e, -, rfl⟩ := Option.map_eq_some_iff.mp hstep
      exact inv_deliver h hi
    · simp at hstep
  | commit i time =>
    simp only [step] at hstep
    split at hstep
    · next hi =>
      split at hstep
      · simp at hstep
      · cases hstep
        exact inv_commit h hi
    · simp at hstep

/-- Where no worker selects rows that are left in another worker's batch, no message is sent twice. -/
theorem sent_once (deliveries : Table NotificationDelivery) (workers : Nat) {s : State}
    (h : Reach step (fun s a => noneLeft s a = true) (begin deliveries workers) s) : SentOnce s := by
  have hinv : Inv s := by
    apply h.invariant
    · have hidle : ∀ (i : Nat) (w : Worker), (begin deliveries workers).workers[i]? = some w → w = .idle := by
        intro i w hi
        exact List.eq_of_mem_replicate (List.mem_of_getElem? hi)
      constructor
      · intro i w hi
        simp [hidle i w hi, Worker.batch]
      · intro i w hi id hid
        simp [hidle i w hi, Worker.batch] at hid
      · intro i j w v _ hi _ id hid
        simp [hidle i w hi, Worker.batch] at hid
      · simp [SentOnce, begin]
      · intro e he
        simp [begin] at he
    · intro s a s' hs hleft hstep
      exact inv_step hs hleft hstep
  exact hinv.once

/-- Two deliveries, due from the start. -/
def twoDue : Table NotificationDelivery :=
  let d : NotificationDelivery := ⟨.pending, 0, some 0, none, none⟩
  (Table.mk [] 1 (by simp) (by simp)).insert d |>.insert d

/-- One worker sends the two deliveries, and another one finds none left. -/
theorem both_sent : ∃ s, Reach step (fun s a => noneLeft s a = true) (begin twoDue 2) s ∧
    s.messages.map Prod.snd = [2, 1] ∧ SentOnce s := by
  have hrun : (run (fun s a => if noneLeft s a then step s a else none)
      [.select 0 5 200, .deliver 0 .sent, .commit 0 6, .deliver 0 .sent, .commit 0 7, .select 1 8 200] (begin twoDue 2)).any
      (fun s => s.messages.map Prod.snd = [2, 1]) = true := by with_unfolding_all decide
  obtain ⟨s, hs, hsent⟩ := (Option.any_eq_true _ _).mp hrun
  have hreach : Reach step (fun s a => noneLeft s a = true) (begin twoDue 2) s := Reach.run (fun _ _ hok => hok) _ .start hs
  exact ⟨s, hreach, by simpa using hsent, sent_once twoDue 2 hreach⟩

/-- After the first row of its batch a worker has no lock on the second one, which another
worker selects. -/
theorem sent_twice : ∃ s, Reach step (fun _ _ => True) (begin twoDue 2) s ∧ ¬ SentOnce s := by
  have hrun : (run (fun s a => if true then step s a else none)
      [.select 0 5 200, .deliver 0 .sent, .commit 0 6, .select 1 7 200, .deliver 0 .sent, .deliver 1 .sent] (begin twoDue 2)).any
      (fun s => s.messages = [(1, 2), (0, 2), (0, 1)]) = true := by with_unfolding_all decide
  obtain ⟨s, hs, hsent⟩ := (Option.any_eq_true _ _).mp hrun
  refine ⟨s, Reach.run (fun _ _ _ => trivial) _ .start hs, fun honce => ?_⟩
  have hmessages : s.messages = [(1, 2), (0, 2), (0, 1)] := by simpa using hsent
  simp [SentOnce, hmessages] at honce

end SendPending
