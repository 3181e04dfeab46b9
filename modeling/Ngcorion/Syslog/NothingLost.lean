import Ngcorion.Syslog.Intake
import Mathlib.Data.List.Induction
import Mathlib.Algebra.Order.Ring.Rat
import Mathlib.Algebra.Field.Rat

/-!
# The intake loses no message and no count

Where the accepted messages are, and where the counters are, while drains come and go.
-/
namespace SyslogNothingLost

open Text SyslogIntake Transition

variable {M C K : Type}

/-! ## Counts -/

/-- A number of the entry of an address, zero when there is none. -/
def value (f : Source → Nat) (d : List (Str × Source)) (ip : Str) : Nat := ((Dict.get d ip).map f).getD 0

/-- A number that is added up when the counters of an address are stored. -/
def Additive (f : Source → Nat) : Prop :=
  ∀ (old new : Source) (asset_id : Option Nat) (last_seen : Nat) (hostname : Option Str),
    f ⟨asset_id, old.received + new.received, old.dropped + new.dropped, last_seen, hostname⟩ = f old + f new

theorem additive_received : Additive Source.received := fun _ _ _ _ _ => rfl

theorem additive_dropped : Additive Source.dropped := fun _ _ _ _ _ => rfl

section Values

variable {f : Source → Nat} {d stored : List (Str × Source)} {e : Str × Source} {ip : Str}

theorem value_set (name : Str) (v : Source) :
    value f (Dict.set d name v) ip = if name = ip then f v else value f d ip := by
  unfold value
  rw [Dict.get_set]
  split <;> rfl

theorem value_of_not_mem (h : ip ∉ Dict.keys d) : value f d ip = 0 := by
  unfold value
  rw [(Dict.get_eq_none d ip).mpr h]
  rfl

/-- An entry and those after it, when its name comes once. -/
theorem value_cons (h : (Dict.keys (e :: d)).Nodup) :
    value f (e :: d) ip = (if e.1 = ip then f e.2 else 0) + value f d ip := by
  obtain ⟨name, v⟩ := e
  rw [Dict.keys_cons, List.nodup_cons] at h
  by_cases hip : name = ip
  · rw [if_pos hip, value_of_not_mem (hip ▸ h.1 : ip ∉ Dict.keys d)]
    simp [value, Dict.get, hip]
  · simp [value, Dict.get, hip]

theorem value_upsert (hf : Additive f) : value f (upsert stored e) ip = value f stored ip + if e.1 = ip then f e.2 else 0 := by
  unfold upsert
  split
  · next hnone =>
    rw [value_set]
    split
    · next hip =>
      have hzero : value f stored ip = 0 := by
        unfold value
        rw [← hip, hnone]
        rfl
      rw [hzero, Nat.zero_add]
    · rfl
  · next old hold =>
    rw [value_set]
    split
    · next hip =>
      have hvalue : value f stored ip = f old := by
        unfold value
        rw [← hip, hold]
        rfl
      rw [hvalue, hf]
    · rfl

/-- A committed drain adds its counts to the stored ones. -/
theorem value_stored (hf : Additive f) (h : (Dict.keys d).Nodup) :
    value f (d.foldl upsert stored) ip = value f stored ip + value f d ip := by
  induction d generalizing stored with
  | nil => rfl
  | cons e d ih =>
    have hrest : (Dict.keys d).Nodup := by
      rw [Dict.keys_cons, List.nodup_cons] at h
      exact h.2
    rw [List.foldl_cons, ih hrest, value_upsert hf, value_cons h, Nat.add_assoc]

end Values

/-! ## What is promised -/

inductive Counter where
  | received | dropped

/-- The column of a counter -/
def Counter.of : Counter → Source → Nat
  | .received => Source.received
  | .dropped => Source.dropped

/-- How often it was to be counted up for an address. -/
def Counter.times (c : Counter) (history : List (Event K)) (ip : Str) : Nat :=
  history.countP fun event => match c, event with
    | .received, .accepted i => i = ip
    | .dropped, .dropped i => i = ip
    | _, _ => false

/-- The rows that were lost when they were put back. -/
def lost (history : List (Event K)) : List Nat := history.filterMap fun
  | .lost number => some number
  | _ => none

/-- How often the queue was full. -/
def refused (history : List (Event K)) : Nat := history.countP fun
  | .full => true
  | _ => false

def batch (s : State M C K) : List (Row M) := (s.drain.map Drain.rows).getD []

def draining (s : State M C K) : List (Str × Source) := (s.drain.map Drain.sources).getD []

/-- Each accepted message is stored, in the batch, in the queue or counted as dropped from the queue, in the order in
which they were accepted; and what is stored and in memory of the counters is what was to be counted. -/
structure Kept (setup : Setup M C) (s : State M C K) : Prop where
  places : ((s.messages ++ batch s ++ s.queue).map Row.number ++ lost s.history).Perm (List.range (accepted s.history))
  ordered : ((s.messages ++ batch s ++ s.queue).map Row.number).Pairwise (· < ·)
  overflow : s.queue_dropped = refused s.history + (lost s.history).length
  counts : ∀ (c : Counter) (ip : Str), (setup.assets ip).isSome = true →
    value c.of s.stored ip + (value c.of s.sources ip + value c.of (draining s) ip) = c.times s.history ip

/-- A drain that fails has counters of no address of the inventory that was heard of since they were taken. -/
def Allowed (setup : Setup M C) (s : State M C K) : Action M K → Prop
  | .fail => ∀ e ∈ draining s, (setup.assets e.1).isSome = true → e.1 ∉ Dict.keys s.sources
  | _ => True

/-! ## The invariant -/

/-- The counters are of different addresses, and each has counted something. -/
structure Counters (d : List (Str × Source)) : Prop where
  keys : (Dict.keys d).Nodup
  positive : ∀ e ∈ d, 0 < e.2.received + e.2.dropped

structure Inv (setup : Setup M C) (s : State M C K) : Prop where
  kept : Kept setup s
  sources : Counters s.sources
  draining : Counters (draining s)

section Inv

variable {setup : Setup M C} {s s' : State M C K} {history : List (Event K)} {ip : Str}

theorem accepted_append (event : Event K) :
    accepted (history ++ [event]) = accepted history + match event with | .accepted _ => 1 | _ => 0 := by
  unfold accepted
  rw [List.countP_append]
  cases event <;> rfl

theorem times_append (c : Counter) (event : Event K) : c.times (history ++ [event]) ip = c.times history ip +
    match c, event with
    | .received, .accepted i => if i = ip then 1 else 0
    | .dropped, .dropped i => if i = ip then 1 else 0
    | _, _ => 0 := by
  unfold Counter.times
  rw [List.countP_append, List.countP_singleton]
  cases c <;> cases event <;> simp

theorem lost_append (event : Event K) :
    lost (history ++ [event]) = lost history ++ match event with | .lost number => [number] | _ => [] := by
  unfold lost
  rw [List.filterMap_append]
  cases event <;> rfl

theorem refused_append (event : Event K) :
    refused (history ++ [event]) = refused history + match event with | .full => 1 | _ => 0 := by
  unfold refused
  rw [List.countP_append]
  cases event <;> rfl

/-- What has to do with the queue and the counters stays. -/
theorem Inv.same (h : Inv setup s) (hqueue : s'.queue = s.queue) (hdropped : s'.queue_dropped = s.queue_dropped)
    (hsources : s'.sources = s.sources) (hdrain : s'.drain = s.drain) (hmessages : s'.messages = s.messages)
    (hstored : s'.stored = s.stored) (hhistory : s'.history = s.history) : Inv setup s' := by
  obtain ⟨⟨hplaces, hordered, hoverflow, hcounts⟩, hsources', hdraining'⟩ := h
  unfold batch at hplaces hordered
  unfold SyslogNothingLost.draining at hcounts hdraining'
  refine ⟨⟨?_, ?_, ?_, ?_⟩, ?_, ?_⟩
  · unfold batch
    rw [hmessages, hdrain, hqueue, hhistory]
    exact hplaces
  · unfold batch
    rw [hmessages, hdrain, hqueue]
    exact hordered
  · rw [hdropped, hhistory]
    exact hoverflow
  · unfold SyslogNothingLost.draining
    rw [hstored, hsources, hdrain, hhistory]
    exact hcounts
  · rw [hsources]
    exact hsources'
  · unfold SyslogNothingLost.draining
    rw [hdrain]
    exact hdraining'

theorem counters_set {d : List (Str × Source)} (h : Counters d) {v : Source} (hv : 0 < v.received + v.dropped) :
    Counters (Dict.set d ip v) := by
  constructor
  · exact Dict.nodup_set d ip v h.keys
  · intro e he
    cases Dict.mem_set d ip v e he with
    | inl hnew =>
      rw [hnew]
      exact hv
    | inr hold => exact h.positive e hold

/-- What counts in the entry of an address. -/
theorem source_counts {count : Source → Source} {more : Counter → Nat}
    (hcount : ∀ e (c : Counter), c.of (count e) = c.of e + more c) (hmore : 0 < more .received + more .dropped)
    (asset_id : Option Nat) (now : Nat) (s : State M C K) :
    ∃ sources unknown, source ip asset_id now count s = { s with sources := sources, unknown := unknown } ∧
      (Counters s.sources → Counters sources) ∧ ∀ (c : Counter) (name : Str), asset_id.isSome = true ∨ ip ≠ name →
        value c.of sources name = value c.of s.sources name + if ip = name then more c else 0 := by
  have hpositive (e : Source) : 0 < (count e).received + (count e).dropped := by
    have hreceived : (count e).received = e.received + more .received := hcount e .received
    have hdropped : (count e).dropped = e.dropped + more .dropped := hcount e .dropped
    omega
  unfold source
  split
  · next e he =>
    refine ⟨_, s.unknown, rfl, fun h => counters_set h (hpositive _), fun c name _ => ?_⟩
    rw [value_set, hcount]
    have hseen : c.of { e with last_seen := now } = c.of e := by cases c <;> rfl
    by_cases hip : ip = name
    · have hvalue : value c.of s.sources name = c.of e := by
        unfold value
        rw [← hip, he]
        rfl
      rw [if_pos hip, if_pos hip, hseen, hvalue]
    · rw [if_neg hip, if_neg hip, Nat.add_zero]
  · next hnone =>
    split
    · next hfull =>
      refine ⟨s.sources, s.unknown, rfl, id, fun c name hname => ?_⟩
      have hother : ip ≠ name := hname.resolve_left (by simp [hfull.1])
      rw [if_neg hother, Nat.add_zero]
    · refine ⟨_, _, rfl, fun h => counters_set h (hpositive _), fun c name _ => ?_⟩
      rw [value_set, hcount]
      have hzero : c.of (⟨asset_id, 0, 0, now, none⟩ : Source) = 0 := by cases c <;> rfl
      by_cases hip : ip = name
      · have hvalue : value c.of s.sources name = 0 := by
          unfold value
          rw [← hip, hnone]
          rfl
        rw [if_pos hip, if_pos hip, hzero, hvalue]
      · rw [if_neg hip, if_neg hip, Nat.add_zero]

/-- A message that is dropped is counted. -/
theorem Inv.drop (h : Inv setup s) (ip : Str) (now : Nat) : Inv setup (drop setup ip now s) := by
  have hcount (e : Source) (c : Counter) : c.of { e with dropped := e.dropped + 1 } =
      c.of e + match c with | .received => 0 | .dropped => 1 := by cases c <;> rfl
  obtain ⟨sources, unknown, hsource, hcounters, hvalue⟩ :=
    @source_counts M C K (setup.address ip) _ _ hcount (by decide) (setup.assets (setup.address ip)) now s
  unfold SyslogIntake.drop State.record
  dsimp only
  rw [hsource]
  refine ⟨⟨?_, h.kept.ordered, ?_, ?_⟩, hcounters h.sources, h.draining⟩
  · have hplaces := h.kept.places
    rw [lost_append, accepted_append]
    dsimp only
    rw [List.append_nil]
    exact hplaces
  · rw [lost_append, refused_append]
    dsimp only
    rw [List.append_nil]
    exact h.kept.overflow
  · intro c name hknown
    have hbefore := h.kept.counts c name hknown
    rw [times_append]
    change value c.of s.stored name + (value c.of sources name + value c.of (SyslogNothingLost.draining s) name) = _
    rw [hvalue c name (by
      by_cases hip : setup.address ip = name
      · exact .inl (hip ▸ hknown)
      · exact .inr hip)]
    cases c with
    | received =>
      dsimp only at hbefore ⊢
      split <;> omega
    | dropped =>
      dsimp only at hbefore ⊢
      split <;> omega

/-- A row that is accepted goes to the end of the queue, and is counted. -/
theorem Inv.push (h : Inv setup s) {ip : Str} {row : Row M} (hrow : row.number = accepted s.history)
    {count : Source → Source} (hcount : ∀ e (c : Counter), c.of (count e) = c.of e + match c with | .received => 1 | .dropped => 0)
    (asset_id now : Nat) :
    Inv setup ((source ip (some asset_id) now count { s with queue := s.queue ++ [row] }).record (.accepted ip)) := by
  obtain ⟨sources, unknown, hsource, hcounters, hvalue⟩ :=
    @source_counts M C K ip _ _ hcount (by decide) (some asset_id) now { s with queue := s.queue ++ [row] }
  rw [hsource]
  unfold State.record
  dsimp only at hvalue ⊢
  have hall : s.messages ++ batch s ++ (s.queue ++ [row]) = s.messages ++ batch s ++ s.queue ++ [row] :=
    (List.append_assoc _ _ _).symm
  refine ⟨⟨?_, ?_, ?_, ?_⟩, hcounters h.sources, h.draining⟩
  · change ((s.messages ++ batch s ++ (s.queue ++ [row])).map Row.number ++ lost (s.history ++ [_])).Perm _
    rw [hall, lost_append, accepted_append, List.map_append]
    dsimp only
    rw [List.range_succ, List.append_nil, List.append_assoc]
    refine (List.perm_append_comm.append_left _).trans ?_
    rw [← List.append_assoc]
    have hnew : List.map Row.number [row] = [accepted s.history] := congrArg (fun n => [n]) hrow
    rw [hnew]
    exact h.kept.places.append_right _
  · change ((s.messages ++ batch s ++ (s.queue ++ [row])).map Row.number).Pairwise _
    rw [hall, List.map_append]
    refine List.pairwise_append.mpr ⟨h.kept.ordered, List.pairwise_singleton _ _, ?_⟩
    intro n hn m hm
    rw [List.mem_singleton.mp hm, hrow]
    exact List.mem_range.mp (h.kept.places.subset (List.mem_append_left _ hn))
  · rw [lost_append, refused_append]
    dsimp only
    rw [List.append_nil]
    exact h.kept.overflow
  · intro c name hknown
    have hbefore := h.kept.counts c name hknown
    rw [times_append]
    change value c.of s.stored name + (value c.of sources name + value c.of (SyslogNothingLost.draining s) name) = _
    rw [hvalue c name (.inl rfl)]
    cases c with
    | received =>
      dsimp only at hbefore ⊢
      split <;> omega
    | dropped =>
      dsimp only at hbefore ⊢
      split <;> omega

/-- A message for which the queue has no room -/
theorem Inv.overflow (h : Inv setup s) : Inv setup ({ s with queue_dropped := s.queue_dropped + 1 }.record .full) := by
  unfold State.record
  refine ⟨⟨?_, h.kept.ordered, ?_, ?_⟩, h.sources, h.draining⟩
  · rw [lost_append, accepted_append]
    dsimp only
    rw [List.append_nil]
    exact h.kept.places
  · rw [lost_append, refused_append]
    dsimp only
    rw [List.append_nil, h.kept.overflow]
    omega
  · intro c name hknown
    rw [times_append]
    cases c <;> exact h.kept.counts _ name hknown

theorem Inv.enqueue (h : Inv setup s) (message : M) (ip : Str) (asset_id now : Nat) :
    Inv setup (enqueue setup message ip asset_id now s) := by
  unfold SyslogIntake.enqueue
  dsimp only
  generalize hchanges : (if s.changes.length < maxEventsPerDrain then
    { s with changes := s.changes ++ (setup.detect message).toList } else s) = t
  have ht : Inv setup t := by
    rw [← hchanges]
    split
    · exact h.same rfl rfl rfl rfl rfl rfl rfl
    · exact h
  split
  · exact ht
  · split
    · exact ht.overflow
    · exact ht.push rfl (fun e c => by cases c <;> rfl) asset_id now

section Order

variable [Field K] [LinearOrder K]

/-- The limiter changes neither the queue nor the counters. -/
theorem Inv.limit (h : Inv setup s) (ip : Str) : Inv setup (limit ip s).2 := by
  unfold SyslogIntake.limit State.record
  dsimp only
  refine ⟨⟨?_, h.kept.ordered, ?_, ?_⟩, h.sources, h.draining⟩
  · rw [lost_append, accepted_append]
    split <;> (dsimp only; rw [List.append_nil]; exact h.kept.places)
  · rw [lost_append, refused_append]
    split <;> (dsimp only; rw [List.append_nil]; exact h.kept.overflow)
  · intro c name hknown
    rw [times_append]
    cases c <;> (split <;> exact h.kept.counts _ name hknown)

theorem Inv.accept (h : Inv setup s) (message : M) (source_ip : Str) (now : Nat) :
    Inv setup (accept setup message source_ip now s) := by
  unfold SyslogIntake.accept
  dsimp only
  split
  · exact h.drop _ now
  · split
    · exact (h.limit _).enqueue message _ _ now
    · exact (h.limit _).drop _ now

end Order

/-! ### Drains -/

/-- A drain takes the front of the queue and, when nothing is left, the counters. -/
theorem Inv.begin (h : Inv setup s) (hnone : s.drain = none) : Inv setup (begin s) := by
  obtain ⟨⟨hplaces, hordered, hoverflow, hcounts⟩, hsources, hdraining⟩ := h
  unfold batch at hplaces hordered
  unfold SyslogNothingLost.draining at hcounts
  rw [hnone] at hplaces hordered hcounts
  change ((s.messages ++ [] ++ s.queue).map Row.number ++ _).Perm _ at hplaces
  change ((s.messages ++ [] ++ s.queue).map Row.number).Pairwise _ at hordered
  rw [List.append_nil] at hplaces hordered
  have hall : s.messages ++ s.queue.take drainBatch ++ s.queue.drop drainBatch = s.messages ++ s.queue := by
    rw [List.append_assoc, List.take_append_drop]
  unfold SyslogIntake.begin
  dsimp only
  split
  · refine ⟨⟨?_, ?_, hoverflow, ?_⟩, ⟨List.nodup_nil, by simp [takeSources]⟩, hsources⟩
    · change ((s.messages ++ s.queue.take drainBatch ++ s.queue.drop drainBatch).map Row.number ++ _).Perm _
      rw [hall]
      exact hplaces
    · change ((s.messages ++ s.queue.take drainBatch ++ s.queue.drop drainBatch).map Row.number).Pairwise _
      rw [hall]
      exact hordered
    · intro c name hknown
      have hbefore := hcounts c name hknown
      change value c.of s.stored name + (0 + value c.of s.sources name) = c.times s.history name
      change value c.of s.stored name + (value c.of s.sources name + 0) = c.times s.history name at hbefore
      omega
  · refine ⟨⟨?_, ?_, hoverflow, hcounts⟩, hsources, ⟨List.nodup_nil, by simp [SyslogNothingLost.draining]⟩⟩
    · change ((s.messages ++ s.queue.take drainBatch ++ s.queue.drop drainBatch).map Row.number ++ _).Perm _
      rw [hall]
      exact hplaces
    · change ((s.messages ++ s.queue.take drainBatch ++ s.queue.drop drainBatch).map Row.number).Pairwise _
      rw [hall]
      exact hordered

theorem Inv.commit (h : Inv setup s) {d : Drain M C} (hd : s.drain = some d) : Inv setup (commit d s) := by
  obtain ⟨⟨hplaces, hordered, hoverflow, hcounts⟩, hsources, hdraining⟩ := h
  unfold batch at hplaces hordered
  unfold SyslogNothingLost.draining at hcounts hdraining
  rw [hd] at hplaces hordered hcounts hdraining
  have hall : s.messages ++ d.rows ++ [] ++ s.queue = s.messages ++ d.rows ++ s.queue := by rw [List.append_nil]
  refine ⟨⟨?_, ?_, hoverflow, ?_⟩, hsources, ⟨List.nodup_nil, by simp [SyslogNothingLost.draining, SyslogIntake.commit]⟩⟩
  · change ((s.messages ++ d.rows ++ [] ++ s.queue).map Row.number ++ _).Perm _
    rw [hall]
    exact hplaces
  · change ((s.messages ++ d.rows ++ [] ++ s.queue).map Row.number).Pairwise _
    rw [hall]
    exact hordered
  · intro c name hknown
    have hbefore := hcounts c name hknown
    have hadditive : Additive c.of := by
      cases c
      · exact additive_received
      · exact additive_dropped
    change value c.of (d.sources.foldl upsert s.stored) name + (value c.of s.sources name + 0) = c.times s.history name
    change value c.of s.stored name + (value c.of s.sources name + value c.of d.sources name) = c.times s.history name at hbefore
    have hstored : value c.of (d.sources.foldl upsert s.stored) name = value c.of s.stored name + value c.of d.sources name :=
      value_stored hadditive hdraining.keys
    omega

/-- When the queue is full, what is put back is lost. -/
theorem putBack_full (rows : List (Row M)) (s : State M C K) (hfull : queueMax ≤ s.queue.length) :
    rows.foldl putBack s = { s with
      queue_dropped := s.queue_dropped + rows.length
      history := s.history ++ rows.map fun row => Event.lost row.number } := by
  induction rows generalizing s with
  | nil => simp
  | cons row rows ih =>
    have hone : putBack s row = { s with queue_dropped := s.queue_dropped + 1 }.record (.lost row.number) :=
      if_neg (Nat.not_lt.mpr hfull)
    rw [List.foldl_cons, hone, ih]
    · unfold State.record
      simp [Nat.add_assoc, Nat.add_comm]
    · exact hfull

/-- Of the rows of a batch the oldest are lost, as many as have no room, and the others are put back. -/
theorem putBack_rows (rows : List (Row M)) (s : State M C K) : ∃ gone kept, rows = gone ++ kept ∧
    rows.reverse.foldl putBack s = { s with
      queue := kept ++ s.queue
      queue_dropped := s.queue_dropped + gone.length
      history := s.history ++ gone.reverse.map fun row => Event.lost row.number } := by
  induction rows using List.reverseRecOn generalizing s with
  | nil => exact ⟨[], [], rfl, by simp⟩
  | append_singleton rows row ih =>
    rw [List.reverse_append, List.reverse_singleton, List.singleton_append, List.foldl_cons]
    by_cases hroom : s.queue.length < queueMax
    · have hone : putBack s row = { s with queue := row :: s.queue } := if_pos hroom
      obtain ⟨gone, kept, hrows, hfold⟩ := ih { s with queue := row :: s.queue }
      refine ⟨gone, kept ++ [row], by rw [hrows, List.append_assoc], ?_⟩
      rw [hone, hfold, List.append_assoc]
      rfl
    · refine ⟨rows ++ [row], [], (List.append_nil _).symm, ?_⟩
      rw [← List.foldl_cons, putBack_full _ s (Nat.le_of_not_lt hroom)]
      simp

/-- What the counters are when those of a drain are put back. -/
theorem restore_all (es : List (Str × Source)) (s : State M C K) (hes : Counters es) :
    ∃ sources unknown, es.foldl restore s = { s with sources := sources, unknown := unknown } ∧
      (Counters s.sources → Counters sources) ∧
      ∀ (f : Source → Nat) (name : Str), value f sources name = value f s.sources name +
        if name ∈ Dict.keys s.sources then 0 else value f es name := by
  induction es generalizing s with
  | nil =>
    refine ⟨s.sources, s.unknown, rfl, id, fun f name => ?_⟩
    split <;> rfl
  | cons e es ih =>
    have hkeys := hes.keys
    rw [Dict.keys_cons, List.nodup_cons] at hkeys
    have hrest : Counters es := ⟨hkeys.2, fun e' he' => hes.positive e' (List.mem_cons_of_mem _ he')⟩
    rw [List.foldl_cons]
    by_cases hin : e.1 ∈ Dict.keys s.sources
    · have hone : restore s e = s := if_pos hin
      obtain ⟨sources, unknown, hfold, hcounters, hvalue⟩ := ih s hrest
      refine ⟨sources, unknown, by rw [hone, hfold], hcounters, fun f name => ?_⟩
      rw [hvalue, value_cons hes.keys]
      split
      · rfl
      · next hout =>
        have hother : e.1 ≠ name := fun heq => hout (heq ▸ hin)
        rw [if_neg hother, Nat.zero_add]
    · obtain ⟨sources, unknown, hfold, hcounters, hvalue⟩ := ih (restore s e) hrest
      have hone : restore s e = { s with
          sources := Dict.set s.sources e.1 e.2
          unknown := if e.2.asset_id = none then s.unknown + 1 else s.unknown } := if_neg hin
      refine ⟨sources, unknown, by rw [hfold, hone], fun h => hcounters ?_, fun f name => ?_⟩
      · rw [hone]
        exact counters_set h (hes.positive e List.mem_cons_self)
      · rw [hvalue, hone, value_cons hes.keys]
        dsimp only
        rw [value_set, Dict.set_of_not_mem _ _ _ hin, Dict.keys_append]
        by_cases heq : e.1 = name
        · have hzero : value f s.sources name = 0 := value_of_not_mem (heq ▸ hin)
          have hnot : name ∉ Dict.keys es := heq ▸ hkeys.1
          simp [heq, hzero, value_of_not_mem hnot, heq ▸ hin]
        · have hname : ∀ v : Source, Dict.keys [(e.1, v)] = [e.1] := fun _ => rfl
          simp [heq, hname, Ne.symm heq]

/-- What a failed drain leaves: the counts of the addresses that were heard of since are lost. -/
theorem fail_state (h : Inv setup s) {d : Drain M C} (hd : s.drain = some d) :
    ∃ gone kept sources unknown, d.rows = gone ++ kept ∧ Counters sources ∧
      (∀ (f : Source → Nat) (name : Str), value f sources name = value f s.sources name +
        if name ∈ Dict.keys s.sources then 0 else value f d.sources name) ∧
      fail d s = { s with
        drain := none
        queue := kept ++ s.queue
        queue_dropped := s.queue_dropped + gone.length
        history := s.history ++ gone.reverse.map fun row => Event.lost row.number
        changes := (d.changes ++ s.changes).take maxEventsPerDrain
        sources := sources
        unknown := unknown } := by
  have hdraining := h.draining
  unfold draining at hdraining
  rw [hd] at hdraining
  obtain ⟨gone, kept, hrows, hback⟩ := putBack_rows d.rows { s with drain := none }
  unfold SyslogIntake.fail
  dsimp only
  rw [hback]
  obtain ⟨sources, unknown, hfold, hcounters, hvalue⟩ := @restore_all M C K d.sources
    { s with
      drain := none
      queue := kept ++ s.queue
      queue_dropped := s.queue_dropped + gone.length
      history := s.history ++ gone.reverse.map fun row => Event.lost row.number
      changes := (d.changes ++ s.changes).take maxEventsPerDrain } hdraining
  exact ⟨gone, kept, sources, unknown, hrows, hcounters h.sources, hvalue, hfold⟩

/-- Rows that are lost are no other events. -/
theorem history_lost (gone : List (Row M)) :
    lost (history ++ gone.map fun row => Event.lost row.number) = lost history ++ gone.map Row.number ∧
      accepted (history ++ gone.map fun row => Event.lost row.number) = accepted history ∧
      refused (history ++ gone.map fun row => Event.lost row.number) = refused history ∧
      ∀ (c : Counter) (ip : Str),
        c.times (history ++ gone.map fun row => Event.lost row.number) ip = c.times history ip := by
  refine ⟨?_, ?_, ?_, fun c ip => ?_⟩
  · unfold lost
    rw [List.filterMap_append, List.filterMap_map]
    congr 1
    exact congrFun (List.filterMap_eq_map) gone
  · unfold accepted
    rw [List.countP_append, List.countP_map]
    exact Nat.add_eq_left.mpr (List.countP_eq_zero.mpr fun _ _ => Bool.false_ne_true)
  · unfold refused
    rw [List.countP_append, List.countP_map]
    exact Nat.add_eq_left.mpr (List.countP_eq_zero.mpr fun _ _ => Bool.false_ne_true)
  · unfold Counter.times
    rw [List.countP_append, List.countP_map]
    refine Nat.add_eq_left.mpr (List.countP_eq_zero.mpr fun _ _ => ?_)
    cases c <;> exact Bool.false_ne_true

/-- A failed drain leaves the counters as they were to be exactly when no address of the inventory among them was
heard of since. -/
theorem kept_fail (h : Inv setup s) {d : Drain M C} (hd : s.drain = some d) :
    (Kept setup (fail d s) ↔ ∀ e ∈ d.sources, (setup.assets e.1).isSome = true → e.1 ∉ Dict.keys s.sources) ∧
      Counters (fail d s).sources ∧ Counters (draining (fail d s)) := by
  obtain ⟨gone, kept, sources, unknown, hrows, hcounters, hvalue, hfail⟩ := fail_state h hd
  obtain ⟨⟨hplaces, hordered, hoverflow, hcounts⟩, hsources, hdraining⟩ := h
  unfold batch at hplaces hordered
  unfold draining at hcounts hdraining
  rw [hd] at hplaces hordered hcounts hdraining
  change ((s.messages ++ d.rows ++ s.queue).map Row.number ++ _).Perm _ at hplaces
  change ((s.messages ++ d.rows ++ s.queue).map Row.number).Pairwise _ at hordered
  change Counters d.sources at hdraining
  rw [hfail]
  refine ⟨⟨fun hkept e he hknown hheard => ?_, fun hnew => ⟨?_, ?_, ?_, ?_⟩⟩, hcounters, ⟨List.nodup_nil, by simp [draining]⟩⟩
  · -- of an address that was heard of since the counts of the drain are missing
    have hzero (c : Counter) : c.of e.2 = 0 := by
      have hafter := hkept.counts c e.1 hknown
      have hbefore := hcounts c e.1 hknown
      change value c.of s.stored e.1 + (value c.of sources e.1 + 0) = c.times (s.history ++ _) e.1 at hafter
      change value c.of s.stored e.1 + (value c.of s.sources e.1 + value c.of d.sources e.1) = c.times s.history e.1 at hbefore
      rw [hvalue, if_pos hheard, (history_lost gone.reverse).2.2.2 c _] at hafter
      have hentry : value c.of d.sources e.1 = c.of e.2 := by
        unfold value
        rw [Dict.get_of_mem _ hdraining.keys e.1 e.2 he]
        rfl
      omega
    have hpositive := hdraining.positive e he
    have hreceived : e.2.received = 0 := hzero .received
    have hdropped : e.2.dropped = 0 := hzero .dropped
    omega
  · change ((s.messages ++ [] ++ (kept ++ s.queue)).map Row.number ++ lost (s.history ++ _)).Perm (List.range (accepted (s.history ++ _)))
    rw [(history_lost gone.reverse).1, (history_lost gone.reverse).2.1]
    refine List.Perm.trans ?_ hplaces
    rw [hrows]
    simp only [List.append_nil, List.map_append, List.append_assoc, List.map_reverse]
    refine List.Perm.append_left _ ?_
    -- the lost rows come to the end
    have hend : (kept.map Row.number ++ (s.queue.map Row.number ++ (lost s.history ++ (gone.map Row.number).reverse))).Perm
        ((gone.map Row.number).reverse ++ (kept.map Row.number ++ (s.queue.map Row.number ++ lost s.history))) := by
      rw [← List.append_assoc, ← List.append_assoc, ← List.append_assoc (kept.map Row.number)]
      exact List.perm_append_comm
    exact hend.trans ((List.reverse_perm _).append_right _)
  · change ((s.messages ++ [] ++ (kept ++ s.queue)).map Row.number).Pairwise _
    refine hordered.sublist (List.Sublist.map _ ?_)
    rw [hrows, List.append_nil, List.append_assoc, List.append_assoc]
    exact (List.sublist_append_right gone _).append_left _
  · change s.queue_dropped + gone.length = refused (s.history ++ _) + (lost (s.history ++ _)).length
    rw [(history_lost gone.reverse).1, (history_lost gone.reverse).2.2.1, hoverflow]
    simp only [List.length_append, List.length_map, List.length_reverse]
    omega
  · intro c name hknown
    have hbefore := hcounts c name hknown
    change value c.of s.stored name + (value c.of sources name + 0) = c.times (s.history ++ _) name
    change value c.of s.stored name + (value c.of s.sources name + value c.of d.sources name) = c.times s.history name at hbefore
    rw [hvalue, (history_lost gone.reverse).2.2.2 c _]
    split
    · next hheard =>
      have hnone : value c.of d.sources name = 0 := by
        refine value_of_not_mem fun hmem => ?_
        obtain ⟨e, he, heq⟩ := List.mem_map.mp hmem
        exact hnew e he (heq ▸ hknown) (heq ▸ hheard)
      omega
    · omega

/-! ### Runs -/

theorem inv_start (setup : Setup M C) (clock : K) : Inv setup (start clock) := by
  refine ⟨⟨List.Perm.refl _, List.Pairwise.nil, rfl, ?_⟩, ⟨List.nodup_nil, by simp [start]⟩, ⟨List.nodup_nil, by simp [start, draining]⟩⟩
  intro c ip _
  cases c <;> rfl

variable [Field K] [LinearOrder K]

theorem inv_step {a : Action M K} (h : Inv setup s) (hok : Allowed setup s a) (hstep : step setup s a = some s') :
    Inv setup s' := by
  cases a with
  | tick seconds =>
    simp only [step] at hstep
    split at hstep
    · cases hstep
      exact h.same rfl rfl rfl rfl rfl rfl rfl
    · cases hstep
  | accept message source_ip now =>
    cases hstep
    exact h.accept message source_ip now
  | drop ip now =>
    cases hstep
    exact h.drop ip now
  | begin =>
    simp only [step] at hstep
    split at hstep
    · cases hstep
    · next hnone =>
      cases hstep
      exact h.begin (by simpa using hnone)
  | commit =>
    obtain ⟨d, hd, rfl⟩ := Option.map_eq_some_iff.mp hstep
    exact h.commit hd
  | fail =>
    obtain ⟨d, hd, rfl⟩ := Option.map_eq_some_iff.mp hstep
    obtain ⟨hkept, hsources, hdraining⟩ := kept_fail h hd
    refine ⟨hkept.mpr ?_, hsources, hdraining⟩
    unfold Allowed draining at hok
    rw [hd] at hok
    exact hok

end Inv

/-- Whatever is received and whenever drains commit or fail: as long as a drain that fails has counters of no address of
the inventory that was heard of since, nothing is lost; and after any other failed drain counts are missing. -/
theorem every_message_kept [Field K] [LinearOrder K] (setup : Setup M C) (clock : K) :
    (∀ s, Reach (step setup) (Allowed setup) (start clock) s → Kept setup s) ∧
      ∀ s a s', Reach (step setup) (Allowed setup) (start clock) s → step setup s a = some s' → ¬ Allowed setup s a →
        ¬ Kept setup s' := by
  have hinv (s : State M C K) (h : Reach (step setup) (Allowed setup) (start clock) s) : Inv setup s :=
    h.invariant (inv_start setup clock) (fun _ _ _ hs hok hstep => inv_step hs hok hstep)
  refine ⟨fun s h => (hinv s h).kept, fun s a s' h hstep hnot => ?_⟩
  cases a with
  | fail =>
    obtain ⟨d, hd, rfl⟩ := Option.map_eq_some_iff.mp hstep
    refine fun hkept => hnot ?_
    unfold Allowed draining
    rw [hd]
    exact (kept_fail (hinv s h) hd).1.mp hkept
  | _ => exact absurd trivial hnot

/-! ## A drain that fails -/

/-- Every address is of an asset, and every message is as severe as can be. -/
def plain : Setup Unit Unit := ⟨fun _ => none, fun _ => some 1, 7, fun _ => ⟨0, none⟩, fun _ => none⟩

instance (s : State Unit Unit ℚ) (a : SyslogIntake.Action Unit ℚ) : Decidable (Allowed plain s a) :=
  match a with
  | .fail => by
    unfold Allowed
    infer_instance
  | .tick _ | .accept .. | .drop .. | .begin | .commit => isTrue trivial

/-- A drain fails and the next one commits. -/
def failsOnce : List (SyslogIntake.Action Unit ℚ) := [.accept () ['a'] 0, .begin, .fail, .accept () ['a'] 1, .begin, .commit]

theorem every_message_kept_fails_once : ∃ s, Reach (step plain) (Allowed plain) (start (0 : ℚ)) s ∧ s.messages.length = 2 ∧ Kept plain s := by
  have hrun : (run (fun s a => if decide (Allowed plain s a) then step plain s a else none) failsOnce (start (0 : ℚ))).any
      (fun s => s.messages.length = 2) = true := by with_unfolding_all decide
  obtain ⟨s, hs, hlength⟩ := (Option.any_eq_true _ _).mp hrun
  have hreach : Reach (step plain) (Allowed plain) (start (0 : ℚ)) s := Reach.run (fun _ _ hok => of_decide_eq_true hok) _ .start hs
  exact ⟨s, hreach, of_decide_eq_true hlength, (every_message_kept plain 0).1 s hreach⟩

/-- A message comes while the drain of another one of its address fails. -/
def heardSince : List (SyslogIntake.Action Unit ℚ) := [.accept () ['a'] 0, .begin, .accept () ['a'] 1, .fail, .begin, .commit]

theorem count_lost : ∃ s, run (step plain) heardSince (start (0 : ℚ)) = some s ∧ ¬ Kept plain s := by
  have hrun : (run (step plain) heardSince (start (0 : ℚ))).any (fun s =>
      decide (value Source.received s.stored ['a'] + (value Source.received s.sources ['a'] +
        value Source.received (draining s) ['a']) ≠ Counter.received.times s.history ['a'])) = true := by
          with_unfolding_all decide
  obtain ⟨s, hs, hmissing⟩ := (Option.any_eq_true _ _).mp hrun
  exact ⟨s, hs, fun hkept => of_decide_eq_true hmissing (hkept.counts .received ['a'] rfl)⟩

end SyslogNothingLost
