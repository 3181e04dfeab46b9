import Mathlib.Data.Rat.Lemmas
import Mathlib.Order.Bounds.Defs
import Mathlib.Order.MinMax
import Mathlib.Tactic.Common
import Ngcorion.Grouping
import Ngcorion.Transition

/-!
# Rollups of the monitoring samples

A pass of the retention worker computes the rows of the buckets that have just closed, and then
deletes what is too old or too much. Times are microseconds since 1970.
-/
namespace Rollups

open Transition

variable {V : Type}

/-! ## Tables -/

/-- `AssetMetricSample` -/
structure Sample (V : Type) where
  asset_id : Nat
  interface_id : Option Nat
  metric_type : String
  value : V
  sampled_at : Int
  deriving DecidableEq

/-- The values of `granularity`: 5m, 1h and 1d. -/
inductive Granularity where
  | fiveMinutes | hour | day
  deriving DecidableEq

/-- `AssetMetricRollup` -/
structure Rollup (V : Type) where
  asset_id : Nat
  interface_id : Option Nat
  metric_type : String
  granularity : Granularity
  bucket_start : Int
  avg_value : V
  min_value : Option V
  max_value : Option V
  sample_count : Nat
  deriving DecidableEq

abbrev Key := Nat × Option Nat × String

def Sample.key (x : Sample V) : Key := (x.asset_id, x.interface_id, x.metric_type)

def Rollup.key (r : Rollup V) : Key := (r.asset_id, r.interface_id, r.metric_type)

/-! ## Buckets -/

def second : Int := 1000000

def minute : Int := 60 * second

def hour : Int := 60 * minute

def day : Int := 24 * hour

/-- `_GRANULARITY_STEP` -/
def step_of : Granularity → Int
  | .fiveMinutes => 5 * minute
  | .hour => hour
  | .day => day

/-- `_floor` -/
def floor (dt step : Int) : Int := dt / step * step

/-- `_last_closed_bucket` -/
def last_closed_bucket (now : Int) (g : Granularity) : Int := floor now (step_of g) - step_of g

/-- A sample lies in the bucket that starts at `b`. -/
def inBucket (g : Granularity) (b : Int) (x : Sample V) : Bool := b ≤ x.sampled_at && x.sampled_at < b + step_of g

/-- A row belongs to the bucket. -/
def atBucket (g : Granularity) (b : Int) (r : Rollup V) : Bool := r.granularity = g && r.bucket_start = b

/-! ## A pass -/

/-- The stored settings, or their defaults. -/
structure Settings where
  raw_hours : Int
  days_5m : Int
  days_1h : Int
  days_1d : Int
  storage_budget_gb : Int
  deriving DecidableEq

def clamp (lo hi value : Int) : Int := max lo (min value hi)

def get_settings (stored : Settings) : Settings where
  raw_hours := clamp 24 720 stored.raw_hours
  days_5m := clamp 7 365 stored.days_5m
  days_1h := clamp 30 1095 stored.days_1h
  days_1d := clamp 0 3650 stored.days_1d
  storage_budget_gb := clamp 1 500 stored.storage_budget_gb

def Settings.days (keep : Settings) : Granularity → Int
  | .fiveMinutes => keep.days_5m
  | .hour => keep.days_1h
  | .day => keep.days_1d

/-- What a pass finds: the clock, the settings, the measured size and number of the rows, and the
configured share of the budget. -/
structure Pass where
  now : Int
  stored : Settings
  used : Nat
  rows : Nat
  evict_threshold : Rat
  deriving DecidableEq

/-- The two tables, every sample that was ever taken, and the passes, the last one first. -/
structure State (V : Type) where
  samples : List (Sample V)
  rollups : List (Rollup V)
  taken : List (Sample V)
  passes : List Pass

/-- The passes that were made, next to the tables. -/
def State.made (s : State V) (passes : List Pass) : State V := { s with passes := passes }

@[simp] theorem made_samples (s : State V) (passes : List Pass) : (s.made passes).samples = s.samples := rfl

@[simp] theorem made_rollups (s : State V) (passes : List Pass) : (s.made passes).rollups = s.rollups := rfl

@[simp] theorem made_taken (s : State V) (passes : List Pass) : (s.made passes).taken = s.taken := rfl

@[simp] theorem made_passes (s : State V) (passes : List Pass) : (s.made passes).passes = passes := rfl

variable [LinearOrder V]

/-- The row of one key; `avg` computes the mean. -/
def rowOf (avg : List V → V) (g : Granularity) (b : Int) (k : Key) (group : List (Sample V)) : Rollup V where
  asset_id := k.1
  interface_id := k.2.1
  metric_type := k.2.2
  granularity := g
  bucket_start := b
  avg_value := avg (group.map Sample.value)
  min_value := (group.map Sample.value).min?
  max_value := (group.map Sample.value).max?
  sample_count := group.length

/-- The rows of one bucket of the given samples. -/
def aggregate (avg : List V → V) (g : Granularity) (b : Int) (xs : List (Sample V)) : List (Rollup V) :=
  Grouping.groupBy Sample.key (rowOf avg g b) (xs.filter (inBucket g b))

def compute_rollup_for_bucket (avg : List V → V) (g : Granularity) (b : Int) (s : State V) : State V :=
  let rows := aggregate avg g b s.samples
  if rows = [] then s else { s with rollups := s.rollups.filter (fun r => !atBucket g b r) ++ rows }

def minuteOf (now : Int) : Int := now / minute % 60

def hourOf (now : Int) : Int := now / hour % 24

def run_rollups (avg : List V → V) (now : Int) (s : State V) : State V :=
  let s := compute_rollup_for_bucket avg .fiveMinutes (last_closed_bucket now .fiveMinutes) s
  let s := if minuteOf now < 5 then compute_rollup_for_bucket avg .hour (last_closed_bucket now .hour) s else s
  if hourOf now = 0 ∧ minuteOf now < 5 then compute_rollup_for_bucket avg .day (last_closed_bucket now .day) s else s

/-- A row that its tier no longer keeps. -/
def aged (keep : Settings) (now : Int) (r : Rollup V) : Bool :=
  keep.days r.granularity > 0 && r.bucket_start < now - keep.days r.granularity * day

def apply_time_based_retention (keep : Settings) (now : Int) (s : State V) : State V :=
  { s with
    samples := s.samples.filter (fun x => !decide (x.sampled_at < now - keep.raw_hours * hour))
    rollups := s.rollups.filter (fun r => !aged keep now r) }

def evictionBatchSize : Nat := 5000

/-- The rows that are left of a table without its oldest ones. -/
def withoutOldest {α : Type} (time : α → Int) (rows : List α) : List α :=
  (rows.mergeSort (fun x y => time x ≤ time y)).drop evictionBatchSize

/-- `_evict_oldest` on the samples, or else on a tier, with the number of deleted rows. -/
def evict_oldest (s : State V) : Option (State V × Nat) :=
  let tier (g : Granularity) := s.rollups.filter (fun r => r.granularity = g)
  let without (g : Granularity) :=
    s.rollups.filter (fun r => r.granularity ≠ g) ++ withoutOldest Rollup.bucket_start (tier g)
  if s.samples ≠ [] then
    some ({ s with samples := withoutOldest Sample.sampled_at s.samples }, min evictionBatchSize s.samples.length)
  else if tier .fiveMinutes ≠ [] then
    some ({ s with rollups := without .fiveMinutes }, min evictionBatchSize (tier .fiveMinutes).length)
  else if tier .hour ≠ [] then
    some ({ s with rollups := without .hour }, min evictionBatchSize (tier .hour).length)
  else none

def evict (per_row : Rat) : Nat → Rat → State V → State V
  | 0, _, s => s
  | guard + 1, excess, s =>
    if excess > 0 then
      match evict_oldest s with
      | none => s
      | some (s', removed) => evict per_row guard (excess - removed * per_row) s'
    else s

def threshold_bytes (p : Pass) : Rat := (get_settings p.stored).storage_budget_gb * 1024 ^ 3 * p.evict_threshold

/-- The check in front of the eviction. -/
def withinBudget (p : Pass) : Bool := p.used ≤ threshold_bytes p || p.rows = 0

def enforce_storage_budget (p : Pass) (s : State V) : State V :=
  if withinBudget p then s else evict (p.used / p.rows) 200 (p.used - threshold_bytes p) s

def run_once (avg : List V → V) (p : Pass) (s : State V) : State V :=
  enforce_storage_budget p (apply_time_based_retention (get_settings p.stored) p.now (run_rollups avg p.now s))

/-! ## The worker -/

inductive Action (V : Type) where
  | sample (x : Sample V)
  | pass (p : Pass)

/-- The clock of a pass that the worker's loop can make next: no sample is from later, and the
wait was at least 300 and less than 330 seconds. -/
def possible (s : State V) (p : Pass) : Bool :=
  s.taken.all (fun x => x.sampled_at ≤ p.now) &&
    s.passes.head?.all (fun before => 300 * second ≤ p.now - before.now && p.now - before.now < 330 * second)

def step (avg : List V → V) (s : State V) : Action V → Option (State V)
  | .sample x => some { s with samples := s.samples ++ [x], taken := s.taken ++ [x] }
  | .pass p => if possible s p then some ((run_once avg p s).made (p :: s.passes)) else none

def begin (rollups : List (Rollup V)) : State V := ⟨[], rollups, [], []⟩

/-! ## Which buckets a pass computes -/

/-- Whether a pass computes a bucket of a tier. -/
def due (now : Int) : Granularity → Bool
  | .fiveMinutes => true
  | .hour => minuteOf now < 5
  | .day => hourOf now = 0 && minuteOf now < 5

/-- A longer bucket has closed together with a bucket of five minutes. -/
theorem due_iff (now : Int) (g : Granularity) :
    due now g = true ↔ floor now (step_of g) = floor now (step_of .fiveMinutes) := by
  cases g with
  | fiveMinutes => simp [due]
  | hour =>
    rw [due, decide_eq_true_eq]
    simp only [minuteOf, floor, step_of, hour, minute, second]
    omega
  | day =>
    rw [due, Bool.and_eq_true, decide_eq_true_eq, decide_eq_true_eq]
    simp only [minuteOf, hourOf, floor, step_of, day, hour, minute, second]
    omega

/-- A bucket has closed at the clock of a pass when it has closed at the last full five minutes. -/
theorem closed_iff {g : Granularity} {b : Int} (hb : b % step_of g = 0) (now : Int) :
    b + step_of g ≤ now ↔ b + step_of g ≤ floor now (step_of .fiveMinutes) := by
  cases g <;> simp only [floor, step_of, day, hour, minute, second] at hb ⊢ <;> omega

/-- The bucket that a pass computes closes at the last full five minutes. -/
theorem last_closed_bucket_iff {g : Granularity} {b : Int} (hb : b % step_of g = 0) (now : Int) :
    due now g = true ∧ b = last_closed_bucket now g ↔ b + step_of g = floor now (step_of .fiveMinutes) := by
  rw [due_iff]
  simp only [last_closed_bucket]
  cases g <;> simp only [floor, step_of, day, hour, minute, second, true_and] at hb ⊢ <;> omega

/-! ## What a pass does with the rows of a bucket -/

section Pass

variable {avg : List V → V} {g g' : Granularity} {b b' now : Int} {s : State V}

theorem atBucket_aggregate {r : Rollup V} {xs : List (Sample V)} (h : r ∈ aggregate avg g b xs) : atBucket g b r = true := by
  unfold aggregate Grouping.groupBy at h
  obtain ⟨k, -, rfl⟩ := List.mem_map.mp h
  simp [atBucket, rowOf]

@[simp] theorem compute_samples : (compute_rollup_for_bucket avg g b s).samples = s.samples := by
  simp only [compute_rollup_for_bucket]
  split <;> rfl

@[simp] theorem compute_taken : (compute_rollup_for_bucket avg g b s).taken = s.taken := by
  simp only [compute_rollup_for_bucket]
  split <;> rfl

theorem compute_same (h : aggregate avg g b s.samples ≠ []) :
    (compute_rollup_for_bucket avg g b s).rollups.filter (atBucket g b) = aggregate avg g b s.samples := by
  simp only [compute_rollup_for_bucket, h, if_false, List.filter_append, List.filter_filter]
  rw [List.filter_eq_nil_iff.mpr (by simp), List.nil_append, List.filter_eq_self]
  intro r hr
  exact atBucket_aggregate hr

theorem compute_other (h : ¬ (g' = g ∧ b' = b)) :
    (compute_rollup_for_bucket avg g b s).rollups.filter (atBucket g' b') = s.rollups.filter (atBucket g' b') := by
  have hne (r : Rollup V) (hr : atBucket g b r = true) : atBucket g' b' r = false := by
    simp only [atBucket, Bool.and_eq_true, decide_eq_true_eq] at hr
    simp only [atBucket, Bool.and_eq_false_iff, decide_eq_false_iff_not, hr.1, hr.2]
    by_contra hboth
    push Not at hboth
    exact h ⟨hboth.1.symm, hboth.2.symm⟩
  simp only [compute_rollup_for_bucket]
  split
  · rfl
  · rw [List.filter_append, List.filter_filter]
    have hrows : (aggregate avg g b s.samples).filter (atBucket g' b') = [] := by
      rw [List.filter_eq_nil_iff]
      intro r hr
      simp [hne r (atBucket_aggregate hr)]
    rw [hrows, List.append_nil]
    apply List.filter_congr
    intro r _
    cases hr : atBucket g b r with
    | true => simp [hne r hr]
    | false => simp

/-- The pass over one tier. -/
def tierPass (avg : List V → V) (now : Int) (g : Granularity) (s : State V) : State V :=
  if due now g then compute_rollup_for_bucket avg g (last_closed_bucket now g) s else s

theorem run_rollups_eq : run_rollups avg now s =
    tierPass avg now .day (tierPass avg now .hour (tierPass avg now .fiveMinutes s)) := by
  simp [run_rollups, tierPass, due]

@[simp] theorem tierPass_samples : (tierPass avg now g s).samples = s.samples := by
  unfold tierPass
  split <;> simp

@[simp] theorem tierPass_taken : (tierPass avg now g s).taken = s.taken := by
  unfold tierPass
  split <;> simp

theorem tierPass_other (h : g' ≠ g) :
    (tierPass avg now g s).rollups.filter (atBucket g' b') = s.rollups.filter (atBucket g' b') := by
  unfold tierPass
  split
  · exact compute_other (fun hboth => h hboth.1)
  · rfl

theorem tierPass_closing (hb : b % step_of g = 0) (hclosing : b + step_of g = floor now (step_of .fiveMinutes))
    (h : aggregate avg g b s.samples ≠ []) :
    (tierPass avg now g s).rollups.filter (atBucket g b) = aggregate avg g b s.samples := by
  obtain ⟨hdue, hlast⟩ := (last_closed_bucket_iff hb now).mpr hclosing
  unfold tierPass
  rw [if_pos hdue, ← hlast]
  exact compute_same h

theorem tierPass_settled (hb : b % step_of g = 0) (hsettled : b + step_of g ≠ floor now (step_of .fiveMinutes)) :
    (tierPass avg now g s).rollups.filter (atBucket g b) = s.rollups.filter (atBucket g b) := by
  unfold tierPass
  split
  · next hdue =>
    exact compute_other (fun hboth => hsettled ((last_closed_bucket_iff hb now).mp ⟨hdue, hboth.2⟩))
  · rfl

@[simp] theorem run_rollups_samples : (run_rollups avg now s).samples = s.samples := by simp [run_rollups_eq]

@[simp] theorem run_rollups_taken : (run_rollups avg now s).taken = s.taken := by simp [run_rollups_eq]

/-- A pass computes the buckets that close at the last full five minutes, -/
theorem run_rollups_closing (hb : b % step_of g = 0) (hclosing : b + step_of g = floor now (step_of .fiveMinutes))
    (h : aggregate avg g b s.samples ≠ []) :
    (run_rollups avg now s).rollups.filter (atBucket g b) = aggregate avg g b s.samples := by
  rw [run_rollups_eq]
  cases g with
  | fiveMinutes => rw [tierPass_other (by simp), tierPass_other (by simp), tierPass_closing hb hclosing h]
  | hour =>
    rw [tierPass_other (by simp), tierPass_closing hb hclosing (by simpa using h)]
    simp
  | day =>
    rw [tierPass_closing hb hclosing (by simpa using h)]
    simp

/-- and leaves the rows of every other bucket. -/
theorem run_rollups_settled (hb : b % step_of g = 0) (hsettled : b + step_of g ≠ floor now (step_of .fiveMinutes)) :
    (run_rollups avg now s).rollups.filter (atBucket g b) = s.rollups.filter (atBucket g b) := by
  rw [run_rollups_eq]
  cases g with
  | fiveMinutes => rw [tierPass_other (by simp), tierPass_other (by simp), tierPass_settled hb hsettled]
  | hour => rw [tierPass_other (by simp), tierPass_settled hb hsettled, tierPass_other (by simp)]
  | day => rw [tierPass_settled hb hsettled, tierPass_other (by simp), tierPass_other (by simp)]

end Pass

/-! ## What a pass deletes -/

/-- A pass does not delete the rows of the bucket for their age. -/
def keeps (p : Pass) (g : Granularity) (b : Int) : Bool :=
  (get_settings p.stored).days g = 0 || p.now - (get_settings p.stored).days g * day ≤ b

section Retention

variable {avg : List V → V} {g : Granularity} {b : Int} {p : Pass} {s : State V}

omit [LinearOrder V] in
theorem retention_rollups (h : keeps p g b = true) :
    (apply_time_based_retention (get_settings p.stored) p.now s).rollups.filter (atBucket g b) =
      s.rollups.filter (atBucket g b) := by
  simp only [apply_time_based_retention, List.filter_filter]
  apply List.filter_congr
  intro r _
  cases hr : atBucket g b r with
  | false => simp
  | true =>
    simp only [atBucket, Bool.and_eq_true, decide_eq_true_eq] at hr
    simp only [keeps, Bool.or_eq_true, decide_eq_true_eq] at h
    simp only [aged, hr.1, hr.2, Bool.true_and, Bool.not_eq_true', Bool.and_eq_false_iff, decide_eq_false_iff_not]
    omega

omit [LinearOrder V] in
/-- A pass that does not keep the rows of a bucket leaves none of them. -/
theorem retention_aged (h : keeps p g b = false) :
    (apply_time_based_retention (get_settings p.stored) p.now s).rollups.filter (atBucket g b) = [] := by
  have hdays : 0 ≤ (get_settings p.stored).days g := by
    cases g <;> simp only [Settings.days, get_settings, clamp] <;> omega
  rw [List.filter_eq_nil_iff]
  intro r hr hat
  have haged := (List.mem_filter.mp hr).2
  simp only [atBucket, Bool.and_eq_true, decide_eq_true_eq] at hat
  simp only [keeps, Bool.or_eq_false_iff, decide_eq_false_iff_not] at h
  simp only [aged, hat.1, hat.2, Bool.not_eq_true', Bool.and_eq_false_iff, decide_eq_false_iff_not] at haged
  omega

omit [LinearOrder V] in
/-- Samples are kept for a day at least. -/
theorem retention_samples {P : Sample V → Bool} (h : ∀ x, P x = true → p.now - day ≤ x.sampled_at) :
    (apply_time_based_retention (get_settings p.stored) p.now s).samples.filter P = s.samples.filter P := by
  simp only [apply_time_based_retention, List.filter_filter]
  apply List.filter_congr
  intro x _
  cases hx : P x with
  | false => simp
  | true =>
    have hage := h x hx
    have hhours : 24 ≤ (get_settings p.stored).raw_hours := by
      simp only [get_settings, clamp]
      omega
    simp only [Bool.true_and, Bool.not_eq_true', decide_eq_false_iff_not]
    simp only [day, hour, minute, second] at hage ⊢
    omega

theorem run_once_rollups (hbudget : withinBudget p = true) (h : keeps p g b = true) :
    (run_once avg p s).rollups.filter (atBucket g b) = (run_rollups avg p.now s).rollups.filter (atBucket g b) := by
  unfold run_once enforce_storage_budget
  rw [if_pos hbudget, retention_rollups h]

theorem run_once_samples (hbudget : withinBudget p = true) {P : Sample V → Bool}
    (h : ∀ x, P x = true → p.now - day ≤ x.sampled_at) : (run_once avg p s).samples.filter P = s.samples.filter P := by
  unfold run_once enforce_storage_budget
  rw [if_pos hbudget, retention_samples h, run_rollups_samples]

theorem run_once_taken (hbudget : withinBudget p = true) : (run_once avg p s).taken = s.taken := by
  unfold run_once enforce_storage_budget
  rw [if_pos hbudget]
  exact run_rollups_taken

end Retention

/-! ## Every run of the worker -/

/-- No bucket of five minutes is passed over, a sample is stored before the first pass after its five
minutes, and the budget is not exceeded. -/
def inOrder (s : State V) : Action V → Bool
  | .sample x => s.passes.head?.all (fun before => floor before.now (step_of .fiveMinutes) ≤ x.sampled_at)
  | .pass p =>
    s.passes.head?.all (fun before =>
      floor p.now (step_of .fiveMinutes) = floor before.now (step_of .fiveMinutes) + step_of .fiveMinutes) &&
    withinBudget p

/-- The samples of the last day are all stored, and the buckets that closed since the first pass
have the rows of all their samples. -/
structure Inv (avg : List V → V) (s : State V) : Prop where
  stored : ∀ P : Sample V → Bool,
    (∀ x, P x = true → ∀ last : Pass, s.passes.head? = some last → last.now - day ≤ x.sampled_at) →
      s.samples.filter P = s.taken.filter P
  rolled : ∀ first last : Pass, s.passes.getLast? = some first → s.passes.head? = some last →
    ∀ (g : Granularity) (b : Int), b % step_of g = 0 → first.now < b + step_of g →
      b + step_of g ≤ floor last.now (step_of .fiveMinutes) → (∀ p ∈ s.passes, keeps p g b = true) →
        s.taken.filter (inBucket g b) ≠ [] → s.rollups.filter (atBucket g b) = aggregate avg g b s.taken

section Run

variable {avg : List V → V} {g : Granularity} {b : Int} {p : Pass} {s s' : State V}

theorem aggregate_congr {xs ys : List (Sample V)} (h : xs.filter (inBucket g b) = ys.filter (inBucket g b)) :
    aggregate avg g b xs = aggregate avg g b ys := by
  unfold aggregate
  rw [h]

theorem aggregate_ne_nil {xs : List (Sample V)} (h : xs.filter (inBucket g b) ≠ []) : aggregate avg g b xs ≠ [] :=
  fun hnil => h (Grouping.groupBy_eq_nil.mp hnil)

theorem Inv.sample (h : Inv avg s) {x : Sample V} (hok : inOrder s (.sample x) = true) :
    Inv avg { s with samples := s.samples ++ [x], taken := s.taken ++ [x] } := by
  constructor
  · intro P hP
    rw [List.filter_append, List.filter_append, h.stored P hP]
  · intro first last hfirst hlast g b hb hopen hclosed hkept hsome
    have hlate : inBucket g b x = false := by
      simp only [inOrder, hlast, Option.all_some, decide_eq_true_eq] at hok
      simp only [inBucket, Bool.and_eq_false_iff, decide_eq_false_iff_not]
      omega
    have hsame : (s.taken ++ [x]).filter (inBucket g b) = s.taken.filter (inBucket g b) := by
      simp [List.filter_append, hlate]
    rw [aggregate_congr hsame]
    exact h.rolled first last hfirst hlast g b hb hopen hclosed hkept (by rwa [← hsame])

/-- A bucket that closes before the next full five minutes has closed at the last ones. -/
theorem closed_before (hb : b % step_of g = 0) {now : Int}
    (h : b + step_of g < floor now (step_of .fiveMinutes) + step_of .fiveMinutes) :
    b + step_of g ≤ floor now (step_of .fiveMinutes) := by
  cases g <;> simp only [floor, step_of, day, hour, minute, second] at hb h ⊢ <;> omega

/-- A bucket that closes at the next full five minutes began within the last day. -/
theorem began_within_day {now : Int}
    (h : b + step_of g = floor now (step_of .fiveMinutes) + step_of .fiveMinutes) : now - day ≤ b := by
  cases g <;> simp only [floor, step_of, day, hour, minute, second] at h ⊢ <;> omega

theorem floor_le (now : Int) (g : Granularity) : floor now (step_of g) ≤ now := by
  cases g <;> simp only [floor, step_of, day, hour, minute, second] <;> omega

theorem Inv.pass (h : Inv avg s) (hok : inOrder s (.pass p) = true) (hpossible : possible s p = true) :
    Inv avg ((run_once avg p s).made (p :: s.passes)) := by
  simp only [inOrder, Bool.and_eq_true] at hok
  obtain ⟨hnext, hbudget⟩ := hok
  simp only [possible, Bool.and_eq_true] at hpossible
  constructor
  · intro P hP
    rw [made_taken, made_samples, run_once_taken hbudget, run_once_samples hbudget (fun x hx => hP x hx p rfl)]
    apply h.stored P
    intro x hx before hbefore
    have hgap := hpossible.2
    have hx := hP x hx p rfl
    simp only [hbefore, Option.all_some, Bool.and_eq_true, decide_eq_true_eq] at hgap
    simp only [second] at hgap
    omega
  · intro first last hfirst hlast g b hb hopen hclosed hkept hsome
    cases hlast
    rw [made_taken, run_once_taken hbudget] at hsome ⊢
    rw [made_rollups, run_once_rollups hbudget (hkept p List.mem_cons_self)]
    cases hpasses : s.passes with
    | nil =>
      rw [hpasses] at hfirst
      obtain rfl : p = first := by simpa using hfirst
      have hfloor := floor_le p.now .fiveMinutes
      omega
    | cons before rest =>
      have hhead : s.passes.head? = some before := by rw [hpasses]; rfl
      rw [hhead, Option.all_some, decide_eq_true_eq] at hnext
      by_cases hclosing : b + step_of g = floor p.now (step_of .fiveMinutes)
      · have hstored : s.samples.filter (inBucket g b) = s.taken.filter (inBucket g b) := by
          apply h.stored
          intro x hx last hlast
          rw [hhead] at hlast
          cases hlast
          have hbegan := began_within_day (hclosing.trans hnext)
          simp only [inBucket, Bool.and_eq_true, decide_eq_true_eq] at hx
          omega
        rw [run_rollups_closing hb hclosing (aggregate_ne_nil (by rwa [hstored])), aggregate_congr hstored]
      · rw [run_rollups_settled hb hclosing]
        apply h.rolled first before _ hhead g b hb hopen _ (fun q hq => hkept q (List.mem_cons_of_mem _ hq)) hsome
        · rw [hpasses] at hfirst ⊢
          simpa using hfirst
        · apply closed_before hb
          omega

theorem inv_step {a : Action V} (h : Inv avg s) (hok : inOrder s a = true) (hstep : step avg s a = some s') :
    Inv avg s' := by
  cases a with
  | sample x =>
    cases hstep
    exact h.sample hok
  | pass p =>
    simp only [step] at hstep
    split at hstep
    · next hpossible =>
      cases hstep
      exact h.pass hok hpossible
    · simp at hstep

end Run

/-- All samples of the bucket that were taken for one asset, interface and metric. -/
def ofKey (s : State V) (g : Granularity) (b : Int) (k : Key) : List (Sample V) :=
  s.taken.filter (fun x => inBucket g b x && x.key = k)

/-- Each asset, interface and metric with a sample in the bucket has exactly one row of it, with the
least and greatest value and the number of these samples. -/
def RolledUp (s : State V) (g : Granularity) (b : Int) : Prop :=
  ∀ k : Key, ofKey s g b k ≠ [] →
    ∃ r, s.rollups.filter (fun r => atBucket g b r && r.key = k) = [r] ∧
      (∃ v, r.min_value = some v ∧ IsLeast { v | v ∈ (ofKey s g b k).map Sample.value } v) ∧
      (∃ v, r.max_value = some v ∧ IsGreatest { v | v ∈ (ofKey s g b k).map Sample.value } v) ∧
      r.sample_count = (ofKey s g b k).length

instance lawfulOrderMin : Std.LawfulOrderMin V where
  min_eq_or := min_choice
  le_min_iff _ _ _ := le_min_iff

instance lawfulOrderMax : Std.LawfulOrderMax V where
  max_eq_or := max_choice
  max_le_iff _ _ _ := max_le_iff

theorem isLeast_min? {vs : List V} (h : vs ≠ []) : ∃ v, vs.min? = some v ∧ IsLeast { v | v ∈ vs } v := by
  obtain ⟨v, hv⟩ := Option.isSome_iff_exists.mp (List.isSome_min?_of_ne_nil h)
  obtain ⟨hmem, hle⟩ := List.min?_eq_some_iff.mp hv
  exact ⟨v, hv, hmem, fun w hw => hle w hw⟩

theorem isGreatest_max? {vs : List V} (h : vs ≠ []) : ∃ v, vs.max? = some v ∧ IsGreatest { v | v ∈ vs } v := by
  obtain ⟨v, hv⟩ := Option.isSome_iff_exists.mp (List.isSome_max?_of_ne_nil h)
  obtain ⟨hmem, hle⟩ := List.max?_eq_some_iff.mp hv
  exact ⟨v, hv, hmem, fun w hw => hle w hw⟩

/-- The rows of all samples of a bucket roll it up. -/
theorem rolledUp_of_aggregate {avg : List V → V} {s : State V} {g : Granularity} {b : Int}
    (h : s.taken.filter (inBucket g b) ≠ [] → s.rollups.filter (atBucket g b) = aggregate avg g b s.taken) :
    RolledUp s g b := by
  intro k hk
  have hgroup : (s.taken.filter (inBucket g b)).filter (fun x => x.key = k) = ofKey s g b k := by
    rw [List.filter_filter]
    apply List.filter_congr
    intro x _
    exact Bool.and_comm _ _
  obtain ⟨y, hy⟩ := List.exists_mem_of_ne_nil _ hk
  have hmem : y ∈ s.taken.filter (inBucket g b) ∧ y.key = k := by
    rw [← hgroup] at hy
    simpa using List.mem_filter.mp hy
  have hkey : ∀ (k : Key) (group : List (Sample V)), (rowOf avg g b k group).key = k := fun _ _ => rfl
  have hone := Grouping.filter_groupBy Sample.key hkey ⟨y, hmem.1, hmem.2⟩
  rw [hgroup] at hone
  have hvalues : (ofKey s g b k).map Sample.value ≠ [] := by simpa using hk
  refine ⟨rowOf avg g b k (ofKey s g b k), ?_, isLeast_min? hvalues, isGreatest_max? hvalues, rfl⟩
  rw [← hone]
  change _ = (aggregate avg g b s.taken).filter _
  rw [← h (List.ne_nil_of_mem hmem.1), List.filter_filter]
  apply List.filter_congr
  intro r _
  exact Bool.and_comm _ _

/-- The mean, rounded down. -/
def mean (vs : List Int) : Int := vs.sum / vs.length

/-- A pass at a second of the epoch, with room in the budget. -/
def passAt (seconds : Int) : Pass := ⟨seconds * second, ⟨168, 7, 180, 0, 10⟩, 8192, 2, 4 / 5⟩

/-- One sample of the first five minutes. -/
def reachable : Sample Int := ⟨1, none, "reachable", 1, 100 * second⟩

theorem not_rolledUp {s : State Int} (htaken : s.taken = [reachable])
    (hrows : s.rollups.filter (atBucket .fiveMinutes 0) = []) : ¬ RolledUp s .fiveMinutes 0 := by
  intro h
  have hkey : ofKey s .fiveMinutes 0 reachable.key ≠ [] := by
    unfold ofKey
    rw [htaken]
    decide
  obtain ⟨r, hr, -⟩ := h reachable.key hkey
  have hmem : r ∈ s.rollups.filter (fun r => atBucket .fiveMinutes 0 r && r.key = reachable.key) := by
    rw [hr]
    exact List.mem_singleton_self r
  obtain ⟨hstored, hat⟩ := List.mem_filter.mp hmem
  rw [Bool.and_eq_true] at hat
  exact List.filter_eq_nil_iff.mp hrows r hstored hat.1

theorem withinBudget_passAt (seconds : Int) : withinBudget (passAt seconds) = true := by
  have hany (p : Pass) (now : Int) : withinBudget { p with now := now } = withinBudget p := rfl
  have hroom : withinBudget (passAt 0) = true := by with_unfolding_all decide
  rw [← hroom]
  exact hany (passAt 0) (seconds * second)

theorem possible_next {s : State Int} {seconds : Int} (hlast : s.passes.head? = some (passAt seconds))
    (htaken : s.taken = [reachable]) (h : 0 ≤ seconds) : possible s (passAt (seconds + 300)) = true := by
  have hafter : reachable.sampled_at ≤ (passAt (seconds + 300)).now := by
    unfold reachable passAt second
    dsimp only
    omega
  have hgap : (passAt (seconds + 300)).now - (passAt seconds).now = 300 * second := by
    unfold passAt second
    dsimp only
    omega
  have hwait : 300 * second < 330 * second := by decide
  simp [possible, htaken, hlast, hafter, hgap, hwait]

/-- A pass every five minutes after the sample was taken. -/
theorem reach_passes (n : Nat) : ∃ s, Reach (step mean) (fun _ _ => True) (begin []) s ∧
    s.passes.getLast? = some (passAt 10) ∧ s.passes.head? = some (passAt (10 + 300 * n)) ∧ s.taken = [reachable] ∧
    (s.rollups.filter (atBucket .fiveMinutes 0) = [] ∨ keeps (passAt (10 + 300 * n)) .fiveMinutes 0 = true) := by
  induction n with
  | zero =>
    have hrun : (run (fun s a => if true then step mean s a else none) [.pass (passAt 10), .sample reachable]
        (begin [])).any (fun s => s.passes = [passAt 10] && s.taken = [reachable]) = true := by
          with_unfolding_all decide
    obtain ⟨s, hs, hall⟩ := (Option.any_eq_true _ _).mp hrun
    simp only [Bool.and_eq_true, decide_eq_true_eq] at hall
    exact ⟨s, Reach.run (fun _ _ _ => trivial) _ .start hs, by rw [hall.1]; rfl, by rw [hall.1]; rfl, hall.2,
      Or.inr (by with_unfolding_all decide)⟩
  | succ n ih =>
    obtain ⟨s, hreach, hfirst, hlast, htaken, -⟩ := ih
    have hseconds : (10 + 300 * (n + 1 : Nat) : Int) = 10 + 300 * n + 300 := by omega
    rw [hseconds]
    have hpossible := possible_next hlast htaken (by omega)
    have hstep : step mean s (.pass (passAt (10 + 300 * n + 300))) =
        some ((run_once mean (passAt (10 + 300 * n + 300)) s).made (passAt (10 + 300 * n + 300) :: s.passes)) :=
      if_pos hpossible
    have hnext : s.passes.getLast?.getD (passAt (10 + 300 * n + 300)) = passAt 10 := by rw [hfirst]; rfl
    refine ⟨_, .step hreach trivial hstep, ?_, ?_, ?_, ?_⟩
    · rw [made_passes, List.getLast?_cons, hnext]
    · rw [made_passes, List.head?_cons]
    · rw [made_taken, run_once_taken (withinBudget_passAt _), htaken]
    · cases hkeep : keeps (passAt (10 + 300 * n + 300)) .fiveMinutes 0 with
      | true => exact Or.inr rfl
      | false =>
        left
        rw [made_rollups]
        unfold run_once enforce_storage_budget
        rw [if_pos (withinBudget_passAt _)]
        exact retention_aged hkeep

end Rollups
