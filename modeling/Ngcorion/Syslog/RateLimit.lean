import Ngcorion.Syslog.Intake
import Mathlib.Algebra.Field.Rat
import Mathlib.Algebra.Order.Ring.Rat
import Mathlib.Data.List.Nodup

/-!
# The rate limit of the syslog intake

What the limiter lets through of an address, while drains discard the buckets of all addresses when there are
many.
-/
namespace SyslogRateLimit

open Text SyslogIntake Transition TokenBucket

variable {M C K : Type}

/-! ## What is promised -/

/-- The times at which the limiter let messages of an address through. -/
def timesOf (history : List (Event K)) (ip : Str) : List K := history.filterMap fun
  | .passed name time => if name = ip then some time else none
  | _ => none

section Promise

variable [Field K] [LinearOrder K]

/-- In no window more messages of an address pass than the burst and the rate allow; and where one is refused, in
some window before at least a burst has passed, and all that may. -/
structure Limited (history : List (Event K)) : Prop where
  bounded : ∀ ip, Bounded (burst : K) (ratePerSecond : K) (timesOf history ip)
  refused : ∀ n ip time, history[n]? = some (.limited ip time) → ∃ start ≤ time,
    burst ≤ since (timesOf (history.take n) ip) start ∧
      (burst : K) - 1 + (time - start) * ratePerSecond < since (timesOf (history.take n) ip) start

/-- A bucket that would be full by now -/
def refilled (now : K) (b : Bucket K) : Prop := (burst : K) ≤ b.tokens + (now - b.at_) * ratePerSecond

/-- A drain discards the buckets. -/
def discards (s : State M C K) : Bool := s.queue.drop drainBatch = [] && 10000 < s.buckets.length

/-- The buckets are discarded only when all of them would be full. -/
def Allowed (s : State M C K) : Action M K → Prop
  | .begin => discards s = true → ∀ e ∈ s.buckets, refilled s.clock e.2
  | _ => True

end Promise

/-! ## What does not concern the limiter -/

/-- An event that is not of the limiter -/
def Neutral : Event K → Prop
  | .passed _ _ => False
  | .limited _ _ => False
  | _ => True

/-- A step leaves the buckets and the clock, and lets nothing through. -/
structure Quietly (s s' : State M C K) : Prop where
  buckets : s'.buckets = s.buckets
  clock : s'.clock = s.clock
  history : ∃ events, s'.history = s.history ++ events ∧ ∀ event ∈ events, Neutral event

section Quietly

variable {setup : Setup M C} {s s' t : State M C K} {history events : List (Event K)} {ip : Str}

theorem Quietly.refl (s : State M C K) : Quietly s s := ⟨rfl, rfl, [], (List.append_nil _).symm, by simp⟩

theorem Quietly.trans (h : Quietly s s') (h' : Quietly s' t) : Quietly s t := by
  obtain ⟨events, hevents, hneutral⟩ := h.history
  obtain ⟨events', hevents', hneutral'⟩ := h'.history
  refine ⟨h'.buckets.trans h.buckets, h'.clock.trans h.clock, events ++ events', ?_, ?_⟩
  · rw [hevents', hevents, List.append_assoc]
  · intro event hevent
    exact (List.mem_append.mp hevent).elim (hneutral event) (hneutral' event)

theorem Quietly.of_eq (hbuckets : s'.buckets = s.buckets) (hclock : s'.clock = s.clock) (hhistory : s'.history = s.history) :
    Quietly s s' := ⟨hbuckets, hclock, [], by rw [hhistory, List.append_nil], by simp⟩

theorem quietly_record (event : Event K) (h : Neutral event) (s : State M C K) : Quietly s (s.record event) :=
  ⟨rfl, rfl, [event], rfl, by simpa using h⟩

theorem quietly_source (asset_id : Option Nat) (now : Nat) (count : Source → Source) (s : State M C K) :
    Quietly s (source ip asset_id now count s) := by
  unfold source
  split
  · exact .of_eq rfl rfl rfl
  · split
    · exact .refl s
    · exact .of_eq rfl rfl rfl

theorem quietly_drop (ip : Str) (now : Nat) (s : State M C K) : Quietly s (drop setup ip now s) :=
  (quietly_source _ _ _ s).trans (quietly_record (.dropped _) trivial _)

theorem quietly_enqueue (message : M) (ip : Str) (asset_id now : Nat) (s : State M C K) :
    Quietly s (enqueue setup message ip asset_id now s) := by
  unfold enqueue
  dsimp only
  generalize hchanges : (if s.changes.length < maxEventsPerDrain then
    { s with changes := s.changes ++ (setup.detect message).toList } else s) = t
  have ht : Quietly s t := by
    rw [← hchanges]
    split
    · exact .of_eq rfl rfl rfl
    · exact .refl s
  refine ht.trans ?_
  split
  · exact .refl t
  · split
    · exact ⟨rfl, rfl, [.full], rfl, by simp [Neutral]⟩
    · refine Quietly.trans ?_ (quietly_record (.accepted ip) trivial _)
      refine Quietly.trans ?_ (quietly_source _ _ _ _)
      exact .of_eq rfl rfl rfl

theorem quietly_fold {α : Type} {f : State M C K → α → State M C K} (hf : ∀ s a, Quietly s (f s a)) (as : List α)
    (s : State M C K) : Quietly s (as.foldl f s) := by
  induction as generalizing s with
  | nil => exact .refl s
  | cons a as ih => exact (hf s a).trans (ih (f s a))

theorem quietly_fail (d : Drain M C) (s : State M C K) : Quietly s (fail d s) := by
  have hback (s : State M C K) (row : Row M) : Quietly s (putBack s row) := by
    unfold putBack
    split
    · exact .of_eq rfl rfl rfl
    · exact ⟨rfl, rfl, [.lost row.number], rfl, by simp [Neutral]⟩
  have hrestore (s : State M C K) (e : Str × Source) : Quietly s (restore s e) := by
    unfold restore
    split
    · exact .refl s
    · exact .of_eq rfl rfl rfl
  have hdone : Quietly s { s with drain := none } := .of_eq rfl rfl rfl
  have hrows : Quietly s (d.rows.reverse.foldl putBack { s with drain := none }) := hdone.trans (quietly_fold hback _ _)
  unfold fail
  dsimp only
  generalize d.rows.reverse.foldl putBack { s with drain := none } = t at hrows ⊢
  refine Quietly.trans ?_ (quietly_fold hrestore d.sources _)
  exact hrows.trans (.of_eq rfl rfl rfl)

theorem timesOf_append_neutral (h : ∀ event ∈ events, Neutral event) : timesOf (history ++ events) ip = timesOf history ip := by
  have hnone : timesOf events ip = [] := by
    refine List.filterMap_eq_nil_iff.mpr fun event hevent => ?_
    cases event with
    | passed | limited => exact (h _ hevent).elim
    | _ => rfl
  unfold timesOf at hnone ⊢
  rw [List.filterMap_append, hnone, List.append_nil]

/-- The event of the limiter -/
theorem timesOf_limit (ip other : Str) (now : K) (took : Bool) :
    timesOf (history ++ [if took then Event.passed ip now else .limited ip now]) other =
      if ip = other then passed (timesOf history other) now took else timesOf history other := by
  unfold timesOf passed
  rw [List.filterMap_append]
  by_cases hother : ip = other <;> cases took <;> simp [hother]

theorem Quietly.timesOf (h : Quietly s s') : timesOf s'.history ip = timesOf s.history ip := by
  obtain ⟨events, hevents, hneutral⟩ := h.history
  rw [hevents]
  exact timesOf_append_neutral hneutral

/-! ### A drain that begins -/

theorem history_begin (s : State M C K) : (begin s).history = s.history := by
  unfold begin takeSources
  dsimp only
  split <;> rfl

theorem clock_begin (s : State M C K) : (begin s).clock = s.clock := by
  unfold begin takeSources
  dsimp only
  split <;> rfl

theorem buckets_begin (s : State M C K) : (begin s).buckets = if discards s then [] else s.buckets := by
  unfold begin takeSources discards
  dsimp only
  by_cases hempty : s.queue.drop drainBatch = [] <;> simp [hempty]

end Quietly

/-! ## The buckets -/

section Buckets

variable [Field K] [LinearOrder K]

/-- What the buckets tell about the messages that were let through. -/
structure Inv (s : State M C K) : Prop where
  limited : Limited s.history
  counts : ∀ ip b, Dict.get s.buckets ip = some b →
    Counts (burst : K) (ratePerSecond : K) (timesOf s.history ip) b ∧ b.at_ ≤ s.clock
  quiet : ∀ ip, Dict.get s.buckets ip = none → Quiet (ratePerSecond : K) (timesOf s.history ip) s.clock

variable {setup : Setup M C} {s s' : State M C K} {history events : List (Event K)} {ip : Str}

theorem Limited.append (h : Limited history) (hbounded : ∀ ip, Bounded (burst : K) (ratePerSecond : K) (timesOf (history ++ events) ip))
    (hrefused : ∀ n ip time, events[n]? = some (.limited ip time) → ∃ start ≤ time,
      burst ≤ since (timesOf (history ++ events.take n) ip) start ∧
        (burst : K) - 1 + (time - start) * ratePerSecond < since (timesOf (history ++ events.take n) ip) start) :
    Limited (history ++ events) := by
  refine ⟨hbounded, fun n ip time hn => ?_⟩
  cases lt_or_ge n history.length with
  | inl hold =>
    rw [List.getElem?_append_left hold] at hn
    rw [List.take_append_of_le_length hold.le]
    exact h.refused n ip time hn
  | inr hnew =>
    rw [List.getElem?_append_right hnew] at hn
    rw [List.take_append, List.take_of_length_le hnew]
    exact hrefused _ ip time hn

theorem Inv.quietly (h : Inv s) (hs : Quietly s s') : Inv s' := by
  obtain ⟨events, hevents, hneutral⟩ := hs.history
  constructor
  · rw [hevents]
    refine h.limited.append (fun ip => ?_) fun n ip time hn => (hneutral _ (List.mem_of_getElem? hn)).elim
    rw [timesOf_append_neutral hneutral]
    exact h.limited.bounded ip
  · intro ip b hb
    rw [hs.timesOf, hs.clock]
    exact h.counts ip b (by rwa [hs.buckets] at hb)
  · intro ip hb
    rw [hs.timesOf, hs.clock]
    exact h.quiet ip (by rwa [hs.buckets] at hb)

variable [IsStrictOrderedRing K]

theorem rate_nonneg : (0 : K) ≤ (ratePerSecond : K) := Nat.cast_nonneg _

/-- The bucket that the limiter takes from -/
theorem Inv.bucket (h : Inv s) (ip : Str) : ∃ b, (Dict.get s.buckets ip).getD (full (burst : K) s.clock) = b ∧
    Counts (burst : K) (ratePerSecond : K) (timesOf s.history ip) b ∧ b.at_ ≤ s.clock := by
  cases hb : Dict.get s.buckets ip with
  | none => exact ⟨_, rfl, Counts.full (Nat.cast_nonneg _) (h.quiet ip hb), le_refl _⟩
  | some b => exact ⟨b, rfl, h.counts ip b hb⟩

/-- The limiter -/
theorem Inv.limit (h : Inv s) (ip : Str) : Inv (limit ip s).2 := by
  obtain ⟨b, hbucket, hcounts, hnow⟩ := h.bucket ip
  unfold SyslogIntake.limit
  dsimp only [State.record]
  rw [hbucket]
  have hafter := hcounts.take rate_nonneg hnow
  have hat : (take (burst : K) (ratePerSecond : K) b s.clock).2.at_ = s.clock := by
    unfold take
    dsimp only
    split <;> rfl
  constructor
  · refine h.limited.append (fun other => ?_) fun n other time hn => ?_
    · rw [timesOf_limit]
      split
      · next hother =>
        subst hother
        exact (h.limited.bounded ip).take hcounts rate_nonneg hnow
      · exact h.limited.bounded other
    · obtain ⟨rfl, hevent⟩ : n = 0 ∧ (if (take (burst : K) (ratePerSecond : K) b s.clock).1 then
          Event.passed ip s.clock else .limited ip s.clock) = .limited other time := by
        cases n with
        | zero => exact ⟨rfl, by simpa using hn⟩
        | succ n => simp at hn
      split at hevent
      · cases hevent
      · next hrefused =>
        cases hevent
        obtain ⟨start, hstart, hleast⟩ := hcounts.refused rate_nonneg hnow (by simpa using hrefused)
        rw [List.take_zero, List.append_nil]
        refine ⟨start, hstart, ?_, hleast⟩
        have hgain : (0 : K) ≤ (s.clock - start) * ratePerSecond := mul_nonneg (sub_nonneg.mpr hstart) rate_nonneg
        have hburst : (burst : K) < (since (timesOf s.history ip) start + 1 : Nat) := by
          rw [Nat.cast_add, Nat.cast_one]
          linarith
        exact Nat.lt_succ_iff.mp (Nat.cast_lt.mp hburst)
  · intro other c hc
    rw [Dict.get_set] at hc
    rw [timesOf_limit]
    split at hc
    · next hother =>
      cases hc
      subst hother
      rw [if_pos rfl]
      exact ⟨hafter, hat.le⟩
    · next hother =>
      rw [if_neg hother]
      exact h.counts other c hc
  · intro other hnone
    rw [Dict.get_set] at hnone
    rw [timesOf_limit]
    split at hnone
    · cases hnone
    · next hother =>
      rw [if_neg hother]
      exact h.quiet other hnone

theorem Inv.tick (h : Inv s) {seconds : K} (hseconds : 0 ≤ seconds) : Inv { s with clock := s.clock + seconds } := by
  have hlater : s.clock ≤ s.clock + seconds := le_add_of_nonneg_right hseconds
  constructor
  · exact h.limited
  · intro ip b hb
    exact ⟨(h.counts ip b hb).1, le_trans (h.counts ip b hb).2 hlater⟩
  · intro ip hb
    exact (h.quiet ip hb).later rate_nonneg hlater

theorem Inv.accept (h : Inv s) (message : M) (source_ip : Str) (now : Nat) : Inv (accept setup message source_ip now s) := by
  unfold SyslogIntake.accept
  dsimp only
  split
  · exact h.quietly (quietly_drop _ _ _)
  · split
    · exact (h.limit _).quietly (quietly_enqueue _ _ _ _ _)
    · exact (h.limit _).quietly (quietly_drop _ _ _)

/-- A drain that takes the counters away may discard the buckets, when all of them are full. -/
theorem Inv.begin (h : Inv s) (hallowed : discards s = true → ∀ e ∈ s.buckets, refilled s.clock e.2) : Inv (begin s) := by
  have hhistory := history_begin s
  have hclock := clock_begin s
  have hbuckets := buckets_begin s
  cases hdiscards : discards s with
  | false =>
    rw [hdiscards] at hbuckets
    exact h.quietly (.of_eq hbuckets hclock hhistory)
  | true =>
    rw [hdiscards, if_pos rfl] at hbuckets
    constructor
    · rw [hhistory]
      exact h.limited
    · intro ip b hb
      rw [hbuckets] at hb
      cases hb
    · intro ip _
      rw [hhistory, hclock]
      cases hb : Dict.get s.buckets ip with
      | none => exact h.quiet ip hb
      | some b =>
        obtain ⟨hcounts, hnow⟩ := h.counts ip b hb
        exact hcounts.quiet rate_nonneg hnow (hallowed hdiscards _ (Dict.mem_of_get _ _ _ hb))

theorem Inv.step {a : Action M K} (h : Inv s) (hallowed : Allowed s a) (hstep : step setup s a = some s') : Inv s' := by
  cases a with
  | tick seconds =>
    simp only [SyslogIntake.step, Option.ite_none_right_eq_some] at hstep
    obtain ⟨hseconds, hs⟩ := hstep
    cases hs
    exact h.tick hseconds
  | accept message source_ip now =>
    cases hstep
    exact h.accept message source_ip now
  | drop ip now =>
    cases hstep
    exact h.quietly (quietly_drop _ _ _)
  | begin =>
    simp only [SyslogIntake.step, Option.ite_none_left_eq_some] at hstep
    obtain ⟨_, hs⟩ := hstep
    cases hs
    exact h.begin hallowed
  | commit =>
    obtain ⟨d, -, hs⟩ := Option.map_eq_some_iff.mp hstep
    rw [← hs]
    exact h.quietly (.of_eq rfl rfl rfl)
  | fail =>
    obtain ⟨d, -, hs⟩ := Option.map_eq_some_iff.mp hstep
    rw [← hs]
    exact h.quietly (quietly_fail d s)

theorem inv_start (clock : K) : Inv (start clock : State M C K) := by
  constructor
  · refine ⟨fun ip start stop hle => ?_, fun n ip time hn => by cases hn⟩
    have hgain : 0 ≤ (stop - start) * (ratePerSecond : K) := mul_nonneg (sub_nonneg.mpr hle) rate_nonneg
    have hburst : (0 : K) ≤ (burst : K) := Nat.cast_nonneg _
    change ((0 : Nat) : K) ≤ _
    rw [Nat.cast_zero]
    exact add_nonneg hburst hgain
  · intro ip b hb
    cases hb
  · refine fun ip _ => ⟨fun t ht => (List.not_mem_nil ht).elim, fun start hstart => ?_⟩
    change ((0 : Nat) : K) ≤ _
    rw [Nat.cast_zero]
    exact mul_nonneg (sub_nonneg.mpr hstart) rate_nonneg

end Buckets

/-! ## Who has a bucket -/

section Heard

/-- Every address with a bucket is of an asset, and messages come from it. -/
structure Heard (setup : Setup M C) (s : State M C K) : Prop where
  distinct : (Dict.keys s.buckets).Nodup
  asset : ∀ name ∈ Dict.keys s.buckets,
    Nonempty M ∧ ∃ source_ip asset_id, setup.address source_ip = name ∧ setup.assets name = some asset_id

variable {setup : Setup M C} {s s' : State M C K}

theorem Heard.quietly (h : Heard setup s) (hs : Quietly s s') : Heard setup s' := by
  constructor
  · rw [hs.buckets]
    exact h.distinct
  · rw [hs.buckets]
    exact h.asset

theorem heard_start (setup : Setup M C) (clock : K) : Heard setup (start clock) := by
  constructor
  · exact List.nodup_nil
  · exact fun name hname => (List.not_mem_nil hname).elim

variable [Field K] [LinearOrder K]

theorem Heard.accept (h : Heard setup s) (message : M) (source_ip : Str) (now : Nat) :
    Heard setup (accept setup message source_ip now s) := by
  unfold SyslogIntake.accept
  dsimp only
  split
  · exact h.quietly (quietly_drop _ _ _)
  · next asset_id hasset =>
    have hlimit : Heard setup (limit (setup.address source_ip) s).2 := by
      constructor
      · exact Dict.nodup_set _ _ _ h.distinct
      · intro name hname
        change name ∈ Dict.keys (Dict.set s.buckets (setup.address source_ip) _) at hname
        by_cases hold : name ∈ Dict.keys s.buckets
        · exact h.asset name hold
        · have hself : name = setup.address source_ip := by
            rw [Dict.keys_set] at hname
            split at hname
            · exact (hold hname).elim
            · exact (List.mem_append.mp hname).elim (fun h => (hold h).elim) List.mem_singleton.mp
          subst hself
          exact ⟨⟨message⟩, source_ip, asset_id, rfl, hasset⟩
    split
    · exact hlimit.quietly (quietly_enqueue _ _ _ _ _)
    · exact hlimit.quietly (quietly_drop _ _ _)

theorem Heard.step {a : Action M K} (h : Heard setup s) (hstep : step setup s a = some s') : Heard setup s' := by
  cases a with
  | tick seconds =>
    simp only [SyslogIntake.step, Option.ite_none_right_eq_some] at hstep
    obtain ⟨_, hs⟩ := hstep
    cases hs
    exact ⟨h.distinct, h.asset⟩
  | accept message source_ip now =>
    cases hstep
    exact h.accept message source_ip now
  | drop ip now =>
    cases hstep
    exact h.quietly (quietly_drop _ _ _)
  | begin =>
    simp only [SyslogIntake.step, Option.ite_none_left_eq_some] at hstep
    obtain ⟨_, hs⟩ := hstep
    cases hs
    constructor
    · rw [buckets_begin]
      split
      · exact List.nodup_nil
      · exact h.distinct
    · rw [buckets_begin]
      split
      · exact fun name hname => (List.not_mem_nil hname).elim
      · exact h.asset
  | commit =>
    obtain ⟨d, -, hs⟩ := Option.map_eq_some_iff.mp hstep
    rw [← hs]
    exact h.quietly (.of_eq rfl rfl rfl)
  | fail =>
    obtain ⟨d, -, hs⟩ := Option.map_eq_some_iff.mp hstep
    rw [← hs]
    exact h.quietly (quietly_fail d s)

end Heard

/-! ## Many addresses -/

section Crowd

/-- A message that is not stored stays out of the queue. -/
theorem enqueue_above {setup : Setup M C} {s : State M C K} {message : M} {ip : Str} {asset_id now : Nat}
    (h : setup.store_max_severity < (setup.parse message).severity) :
    (enqueue setup message ip asset_id now s).queue = s.queue ∧
      (enqueue setup message ip asset_id now s).drain = s.drain := by
  unfold enqueue
  dsimp only
  rw [if_pos h]
  split <;> exact ⟨rfl, rfl⟩

variable [Field K]

/-- The state in which an address has some tokens left, after one was taken. -/
def spent (ip : Str) (k : Nat) (s : State M C K) : State M C K :=
  { s with buckets := Dict.set s.buckets ip ⟨k, s.clock⟩ }.record (.passed ip s.clock)

variable {setup : Setup M C} {s : State M C K} {message : M} {source_ip ip other : Str} {ips : List Str}
variable {asset_id now k : Nat}

theorem timesOf_spent : timesOf (spent ip k s).history other =
    if ip = other then timesOf s.history other ++ [s.clock] else timesOf s.history other :=
  timesOf_limit ip other s.clock true

variable [LinearOrder K] [IsStrictOrderedRing K]

/-- A message that takes one of the tokens of its address -/
theorem accept_spends (hasset : setup.assets (setup.address source_ip) = some asset_id) (hk : k + 1 ≤ burst)
    (hbucket : (Dict.get s.buckets (setup.address source_ip)).getD (full (burst : K) s.clock) = ⟨(k + 1 : Nat), s.clock⟩) :
    accept setup message source_ip now s =
      enqueue setup message (setup.address source_ip) asset_id now (spent (setup.address source_ip) k s) := by
  have hfill : fill (burst : K) (ratePerSecond : K) ⟨(k + 1 : Nat), s.clock⟩ s.clock = (k + 1 : Nat) := by
    unfold fill
    rw [sub_self, zero_mul, add_zero]
    exact min_eq_right (Nat.cast_le.mpr hk)
  have htake : take (burst : K) (ratePerSecond : K) ⟨(k + 1 : Nat), s.clock⟩ s.clock = (true, ⟨k, s.clock⟩) := by
    have hone : (1 : K) ≤ (k + 1 : Nat) := Nat.one_le_cast.mpr (Nat.le_add_left 1 k)
    unfold take
    rw [hfill, if_pos hone, Nat.cast_add, Nat.cast_one, add_sub_cancel_right]
  have hlimit : limit (setup.address source_ip) s = (true, spent (setup.address source_ip) k s) := by
    unfold limit
    dsimp only
    rw [hbucket, htake]
    rfl
  unfold accept
  dsimp only
  rw [hasset, hlimit]
  rfl

/-- All the tokens of an address can be spent at once. -/
theorem spend_all (message : M) (now : Nat) (hasset : setup.assets (setup.address source_ip) = some asset_id) (hk : k ≤ burst)
    (hbucket : (Dict.get s.buckets (setup.address source_ip)).getD (full (burst : K) s.clock) = ⟨k, s.clock⟩) :
    ∃ t, run (step setup) (List.replicate k (.accept message source_ip now)) s = some t ∧
      timesOf t.history (setup.address source_ip) =
        timesOf s.history (setup.address source_ip) ++ List.replicate k s.clock := by
  induction k generalizing s with
  | zero => exact ⟨s, rfl, (List.append_nil _).symm⟩
  | succ k ih =>
    have hquiet : Quietly (spent (setup.address source_ip) k s) (accept setup message source_ip now s) := by
      rw [accept_spends hasset hk hbucket]
      exact quietly_enqueue message _ asset_id now _
    have hleft : (Dict.get (accept setup message source_ip now s).buckets (setup.address source_ip)).getD
        (full (burst : K) (accept setup message source_ip now s).clock) =
          ⟨k, (accept setup message source_ip now s).clock⟩ := by
      rw [hquiet.buckets, hquiet.clock]
      change (Dict.get (Dict.set s.buckets _ _) _).getD _ = _
      rw [Dict.get_set, if_pos rfl]
      rfl
    obtain ⟨t, hrun, htimes⟩ := ih (Nat.le_of_succ_le hk) hleft
    refine ⟨t, hrun, ?_⟩
    rw [htimes, hquiet.timesOf, timesOf_spent, if_pos rfl, hquiet.clock, List.append_assoc]
    rfl

/-- Every one of a crowd of addresses gets its bucket. -/
theorem crowd (now : Nat) (habove : setup.store_max_severity < (setup.parse message).severity)
    (hknown : ∀ ip ∈ ips, setup.address ip = ip ∧ ∃ asset_id, setup.assets ip = some asset_id)
    (hdistinct : (Dict.keys s.buckets ++ ips).Nodup) :
    ∃ t, run (step setup) (ips.map fun ip => .accept message ip now) s = some t ∧ t.clock = s.clock ∧
      t.queue = s.queue ∧ t.drain = s.drain ∧ Dict.keys t.buckets = Dict.keys s.buckets ++ ips ∧
        ∀ ip, timesOf t.history ip = timesOf s.history ip ++ if ip ∈ ips then [s.clock] else [] := by
  induction ips generalizing s with
  | nil => exact ⟨s, rfl, rfl, rfl, rfl, (List.append_nil _).symm, fun ip => (List.append_nil _).symm⟩
  | cons ip ips ih =>
    obtain ⟨haddress, asset_id, hasset⟩ := hknown ip List.mem_cons_self
    have hnew : ip ∉ Dict.keys s.buckets := fun hold =>
      (List.nodup_append.mp hdistinct).2.2 ip hold ip List.mem_cons_self rfl
    have hfull : (Dict.get s.buckets (setup.address ip)).getD (full (burst : K) s.clock) =
        ⟨(burst - 1 + 1 : Nat), s.clock⟩ := by
      rw [haddress, (Dict.get_eq_none _ _).mpr hnew]
      rfl
    have haccept : accept setup message ip now s = enqueue setup message ip asset_id now (spent ip (burst - 1) s) := by
      rw [accept_spends (by rwa [haddress]) (le_refl _) hfull, haddress]
      rfl
    have hquiet : Quietly (spent ip (burst - 1) s) (accept setup message ip now s) := by
      rw [haccept]
      exact quietly_enqueue message _ asset_id now _
    have hstays : (accept setup message ip now s).queue = s.queue ∧ (accept setup message ip now s).drain = s.drain := by
      rw [haccept]
      exact enqueue_above habove
    have hkeys : Dict.keys (accept setup message ip now s).buckets = Dict.keys s.buckets ++ [ip] := by
      rw [hquiet.buckets]
      change Dict.keys (Dict.set s.buckets ip _) = _
      rw [Dict.set_of_not_mem _ _ _ hnew, Dict.keys_append]
      rfl
    obtain ⟨t, hrun, hclock, hqueue, hdrain, hbuckets, htimes⟩ := ih
      (s := accept setup message ip now s) (fun ip hip => hknown ip (List.mem_cons_of_mem _ hip))
      (by rwa [hkeys, List.append_assoc])
    refine ⟨t, hrun, hclock.trans hquiet.clock, hqueue.trans hstays.1, hdrain.trans hstays.2, ?_, fun other => ?_⟩
    · rw [hbuckets, hkeys, List.append_assoc]
      rfl
    · rw [htimes, hquiet.timesOf, timesOf_spent, hquiet.clock]
      have honce : ip ∉ ips := (List.nodup_cons.mp (List.nodup_append.mp hdistinct).2.1).1
      by_cases hother : ip = other
      · subst hother
        rw [if_pos rfl, if_neg honce, if_pos List.mem_cons_self, List.append_nil]
      · rw [if_neg hother]
        have hmem : other ∈ ip :: ips ↔ other ∈ ips := by
          rw [List.mem_cons]
          exact or_iff_right (Ne.symm hother)
        simp only [hmem]
        rfl

/-- A crowd makes a drain discard the buckets, and an address can send a burst at once after it has sent. -/
theorem crowd_over (habove : setup.store_max_severity < (setup.parse message).severity)
    (hknown : ∀ ip ∈ ips, setup.address ip = ip ∧ ∃ asset_id, setup.assets ip = some asset_id)
    (hips : ips.Nodup) (hmany : 10000 < ips.length) (hip : ip ∈ ips) (clock : K) :
    ∃ t, run (step setup) (ips.map (Action.accept message · now) ++ Action.begin :: List.replicate burst (.accept message ip now))
      (start clock) = some t ∧ ¬ Limited t.history := by
  obtain ⟨s, hcrowd, hclock, hqueue, hdrain, hbuckets, htimes⟩ := crowd (s := start clock) now habove hknown hips
  have hlength : s.buckets.length = ips.length := by
    have h := congrArg List.length hbuckets
    rwa [Dict.keys, List.length_map] at h
  have hbegin : step setup s .begin = some (begin s) := by
    simp only [step, hdrain]
    rfl
  have hdiscards : discards s = true := by
    unfold discards
    rw [hqueue, hlength, decide_eq_true hmany, Bool.and_true]
    rfl
  obtain ⟨haddress, asset_id, hasset⟩ := hknown ip hip
  have hfull : (Dict.get (begin s).buckets (setup.address ip)).getD (full (burst : K) (begin s).clock) =
      ⟨burst, (begin s).clock⟩ := by
    rw [buckets_begin, if_pos hdiscards]
    rfl
  obtain ⟨t, hrun, hafter⟩ := spend_all message now (by rwa [haddress]) (le_refl burst) hfull
  refine ⟨t, ?_, fun hlimited => ?_⟩
  · rw [run_append, hcrowd, Option.bind_some, run, hbegin, Option.bind_some, hrun]
  · rw [haddress, history_begin, htimes, if_pos hip, clock_begin, hclock] at hafter
    have hwindow := hlimited.bounded ip clock clock (le_refl clock)
    change _ = [clock] ++ List.replicate burst clock at hafter
    rw [hafter, sub_self, zero_mul, add_zero, Nat.cast_le, within_burst (by simp) (le_refl clock)] at hwindow
    have hone : since [clock] clock = 1 := by simp [since]
    omega

/-- Where the buckets are discarded while one has not all its tokens, its address can go over the limit. -/
theorem over_limit (h : Inv s) (hheard : Heard setup s) (hdiscards : discards s = true) {e : Str × Bucket K} (he : e ∈ s.buckets)
    (hpart : ¬ refilled s.clock e.2) : ∃ t, Reach (step setup) (fun _ _ => True) (begin s) t ∧ ¬ Limited t.history := by
  obtain ⟨⟨message⟩, source_ip, asset_id, haddress, hasset⟩ := hheard.asset e.1 (List.mem_map_of_mem he)
  obtain ⟨hcounts, hnow⟩ := h.counts e.1 e.2 (Dict.get_of_mem _ hheard.distinct _ _ he)
  have hlater := hcounts.later rate_nonneg hnow
  obtain ⟨start, hstart, hleast⟩ := hlater.least
  have hfull : (Dict.get (begin s).buckets (setup.address source_ip)).getD (full (burst : K) (begin s).clock) =
      ⟨burst, (begin s).clock⟩ := by
    rw [buckets_begin, if_pos hdiscards]
    rfl
  obtain ⟨t, hrun, hafter⟩ := spend_all message 0 (by rwa [haddress]) (le_refl burst) hfull
  refine ⟨t, .of_run _ hrun, fun hlimited => ?_⟩
  have hwindow := hlimited.bounded e.1 start s.clock hstart
  rw [haddress, history_begin, clock_begin] at hafter
  rw [hafter, within_burst hlater.past hstart, Nat.cast_add] at hwindow
  have hfill : fill (burst : K) (ratePerSecond : K) e.2 s.clock < burst :=
    lt_of_le_of_lt (min_le_right _ _) (not_le.mp hpart)
  dsimp only at hleast
  linarith

end Crowd

/-- Where the buckets are discarded only when all would be full, the limit holds in every window of every run; and
whenever they are discarded otherwise, it can be gone over. -/
theorem rate_limit_holds [Field K] [LinearOrder K] [IsStrictOrderedRing K] (setup : Setup M C) (clock : K) :
    (∀ s, Reach (step setup) Allowed (start clock) s → Limited s.history) ∧
      ∀ s a s', Reach (step setup) Allowed (start clock) s → step setup s a = some s' → ¬ Allowed s a →
        ∃ t, Reach (step setup) (fun _ _ => True) s' t ∧ ¬ Limited t.history := by
  have hinv (s : State M C K) (h : Reach (step setup) Allowed (start clock) s) : Inv s :=
    h.invariant (inv_start clock) fun _ _ _ hbefore hallowed hstep => hbefore.step hallowed hstep
  have hheard (s : State M C K) (h : Reach (step setup) Allowed (start clock) s) : Heard setup s :=
    h.invariant (heard_start setup clock) fun _ _ _ hbefore _ hstep => hbefore.step hstep
  refine ⟨fun s h => (hinv s h).limited, fun s a s' h hstep hnot => ?_⟩
  cases a with
  | begin =>
    simp only [step, Option.ite_none_left_eq_some] at hstep
    obtain ⟨_, hs⟩ := hstep
    cases hs
    obtain ⟨hdiscards, hrest⟩ := Classical.not_imp.mp hnot
    obtain ⟨e, he, hpart⟩ := not_forall₂.mp hrest
    exact over_limit (hinv s h) (hheard s h) hdiscards he hpart
  | _ => exact absurd trivial hnot

/-! ## Addresses of an inventory -/

/-- An address of 10.0.0.0/16 -/
def address (n : Nat) : Str := ['1', '0', '.', '0', '.'] ++ Nat.toDigits 10 (n / 256) ++ '.' :: Nat.toDigits 10 (n % 256)

def addresses : List Str := (List.range 10001).map address

/-- One asset has all the addresses, and messages are of a severity that is not stored. -/
def inventory : Setup Unit Unit where
  normalize_ip := some
  assets ip := if ip ∈ addresses then some 1 else none
  store_max_severity := 6
  parse _ := ⟨7, none⟩
  detect _ := none

theorem address_inj {m n : Nat} (h : address m = address n) : m = n := by
  obtain ⟨hbefore, hafter⟩ := split_last_inj (not_mem_digits (by decide) _) (not_mem_digits (by decide) _) h
  have hdiv := digits_inj (List.append_cancel_left hbefore)
  have hmod := digits_inj hafter
  omega

/-- Each address sends a message, a drain discards the buckets, and the first address sends a burst. -/
theorem crowd_over_limit : ∃ t, run (step inventory)
    (addresses.map (Action.accept () · 0) ++ Action.begin :: List.replicate burst (.accept () (address 0) 0)) (start (0 : ℚ)) = some t ∧
      ¬ Limited t.history := by
  have hknown : ∀ ip ∈ addresses, inventory.address ip = ip ∧ ∃ asset_id, inventory.assets ip = some asset_id := by
    intro ip hip
    refine ⟨rfl, 1, ?_⟩
    simp only [inventory, if_pos hip]
  have hdistinct : addresses.Nodup := List.Nodup.map (fun _ _ h => address_inj h) List.nodup_range
  have hmany : 10000 < addresses.length := by
    rw [addresses, List.length_map, List.length_range]
    decide
  have hfirst : address 0 ∈ addresses := List.mem_map_of_mem (List.mem_range.mpr (by decide))
  exact crowd_over (by decide) hknown hdistinct hmany hfirst 0

instance (s : State Unit Unit ℚ) (a : SyslogIntake.Action Unit ℚ) : Decidable (Allowed s a) :=
  match a with
  | .begin => by
    unfold Allowed refilled
    infer_instance
  | .tick _ | .accept .. | .drop .. | .commit | .fail => isTrue trivial

/-- Messages with a drain between them -/
def drained : List (SyslogIntake.Action Unit ℚ) :=
  [.accept () (address 0) 0, .begin, .accept () (address 0) 0, .commit, .tick 1, .accept () (address 0) 1]

theorem rate_limit_holds_drained : ∃ s, Reach (step inventory) Allowed (start (0 : ℚ)) s ∧
    timesOf s.history (address 0) = [0, 0, 1] ∧ Limited s.history := by
  have hrun : (run (fun s a => if decide (Allowed s a) then step inventory s a else none) drained (start (0 : ℚ))).any
      (fun s => timesOf s.history (address 0) = [0, 0, 1]) = true := by decide +kernel
  obtain ⟨s, hs, htimes⟩ := (Option.any_eq_true _ _).mp hrun
  have hreach : Reach (step inventory) Allowed (start (0 : ℚ)) s := Reach.run (fun _ _ hok => of_decide_eq_true hok) _ .start hs
  exact ⟨s, hreach, of_decide_eq_true htimes, (rate_limit_holds inventory 0).1 s hreach⟩

end SyslogRateLimit
