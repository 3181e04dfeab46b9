import Mathlib.Algebra.Order.Field.Basic
import Mathlib.Data.Nat.Cast.Order.Basic
import Mathlib.Tactic.Linarith
import Mathlib.Tactic.Ring

/-!
# Token buckets

A bucket holds up to `cap` tokens and gets `rate` of them in a unit of time. What passes takes a token. The
bounds are about every window of a run, whatever the times between.
-/
namespace TokenBucket

variable {K : Type}

structure Bucket (K : Type) where
  tokens : K
  at_ : K

/-! ## Times -/

section Times

variable [LinearOrder K] {start stop now : K} {times : List K}

/-- How many times are not before a time. -/
def since (times : List K) (start : K) : Nat := times.countP fun t => start ≤ t

/-- How many times are in a window. -/
def within (times : List K) (start stop : K) : Nat := times.countP fun t => start ≤ t && t ≤ stop

/-- The times after a take -/
def passed (times : List K) (now : K) (took : Bool) : List K := if took then times ++ [now] else times

theorem since_append (t : K) : since (times ++ [t]) start = since times start + if start ≤ t then 1 else 0 := by
  unfold since
  rw [List.countP_append]
  by_cases h : start ≤ t <;> simp [h]

theorem within_le_since : within times start stop ≤ since times start := by
  refine List.countP_mono_left fun t _ ht => ?_
  rw [Bool.and_eq_true] at ht
  exact ht.1

theorem since_eq_zero (h : ∀ t ∈ times, t < start) : since times start = 0 := by
  unfold since
  rw [List.countP_eq_zero]
  intro t ht
  simpa using h t ht

/-- A window that ends with many at once -/
theorem within_burst {n : Nat} (hpast : ∀ t ∈ times, t ≤ now) (hstart : start ≤ now) :
    within (times ++ List.replicate n now) start now = since times start + n := by
  have hold : within times start now = since times start := by
    refine List.countP_congr fun t ht => ?_
    rw [decide_eq_true (hpast t ht), Bool.and_true]
  have hat : (decide (start ≤ now) && decide (now ≤ now)) = true := by simpa using hstart
  unfold within at hold ⊢
  rw [List.countP_append, List.countP_replicate, if_pos hat, hold]

end Times

/-! ## Buckets -/

section Buckets

variable [Field K] [LinearOrder K]

/-- The tokens at a time -/
def fill (cap rate : K) (b : Bucket K) (now : K) : K := min cap (b.tokens + (now - b.at_) * rate)

/-- Take a token, if there is one. -/
def take (cap rate : K) (b : Bucket K) (now : K) : Bool × Bucket K :=
  let tokens := fill cap rate b now
  if 1 ≤ tokens then (true, ⟨tokens - 1, now⟩) else (false, ⟨tokens, now⟩)

def full (cap : K) (now : K) : Bucket K := ⟨cap, now⟩

/-- What a bucket tells about the times at which something passed: since any time they were no more than the
tokens allow, and since one time they were just that many. -/
structure Counts (cap rate : K) (times : List K) (b : Bucket K) : Prop where
  past : ∀ t ∈ times, t ≤ b.at_
  tokens : 0 ≤ b.tokens ∧ b.tokens ≤ cap
  most : ∀ start ≤ b.at_, since times start + b.tokens ≤ cap + (b.at_ - start) * rate
  least : ∃ start ≤ b.at_, cap + (b.at_ - start) * rate ≤ since times start + b.tokens

/-- Nothing passed that a full bucket would not make up for by now. -/
def Quiet (rate : K) (times : List K) (now : K) : Prop :=
  (∀ t ∈ times, t ≤ now) ∧ ∀ start ≤ now, (since times start : K) ≤ (now - start) * rate

/-- In no window did more pass than the capacity and what comes in during the window. -/
def Bounded (cap rate : K) (times : List K) : Prop :=
  ∀ start stop, start ≤ stop → (within times start stop : K) ≤ cap + (stop - start) * rate

variable [IsStrictOrderedRing K] {cap rate now start stop : K} {times : List K} {b : Bucket K}

/-- A bucket that is full starts to count. -/
theorem Counts.full (hcap : 0 ≤ cap) (h : Quiet rate times now) : Counts cap rate times (full cap now) := by
  constructor
  · exact h.1
  · exact ⟨hcap, le_refl cap⟩
  · intro start hstart
    have := h.2 start hstart
    change (since times start : K) + cap ≤ cap + (now - start) * rate
    linarith
  · refine ⟨now, le_refl now, ?_⟩
    change cap + (now - now) * rate ≤ since times now + cap
    have hpos : (0 : K) ≤ since times now := Nat.cast_nonneg _
    rw [sub_self, zero_mul]
    linarith

/-- The times are counted at a later time with the tokens of that time. -/
theorem Counts.later (h : Counts cap rate times b) (hrate : 0 ≤ rate) (hnow : b.at_ ≤ now) :
    Counts cap rate times ⟨fill cap rate b now, now⟩ := by
  have hgain : 0 ≤ (now - b.at_) * rate := mul_nonneg (sub_nonneg.mpr hnow) hrate
  constructor
  · exact fun t ht => le_trans (h.past t ht) hnow
  · refine ⟨le_min (le_trans h.tokens.1 h.tokens.2) ?_, min_le_left _ _⟩
    linarith [h.tokens.1]
  · intro start hstart
    change (since times start : K) + fill cap rate b now ≤ cap + (now - start) * rate
    cases le_or_gt start b.at_ with
    | inl hold =>
      have hmost := h.most start hold
      have hfill : fill cap rate b now ≤ b.tokens + (now - b.at_) * rate := min_le_right _ _
      have hsplit : (now - start) * rate = (now - b.at_) * rate + (b.at_ - start) * rate := by ring
      linarith
    | inr hnew =>
      have hnone : since times start = 0 := since_eq_zero fun t ht => lt_of_le_of_lt (h.past t ht) hnew
      have hfill : fill cap rate b now ≤ cap := min_le_left _ _
      have hpos : 0 ≤ (now - start) * rate := mul_nonneg (sub_nonneg.mpr hstart) hrate
      rw [hnone, Nat.cast_zero]
      linarith
  · change ∃ start ≤ now, cap + (now - start) * rate ≤ since times start + fill cap rate b now
    cases le_total cap (b.tokens + (now - b.at_) * rate) with
    | inl hfull =>
      refine ⟨now, le_refl now, ?_⟩
      have hfill : fill cap rate b now = cap := min_eq_left hfull
      have hpos : (0 : K) ≤ since times now := Nat.cast_nonneg _
      rw [hfill, sub_self, zero_mul]
      linarith
    | inr hpart =>
      obtain ⟨start, hstart, hleast⟩ := h.least
      refine ⟨start, le_trans hstart hnow, ?_⟩
      have hfill : fill cap rate b now = b.tokens + (now - b.at_) * rate := min_eq_right hpart
      have hsplit : (now - start) * rate = (now - b.at_) * rate + (b.at_ - start) * rate := by ring
      rw [hfill]
      linarith

/-- A take counts what it lets through. -/
theorem Counts.take (h : Counts cap rate times b) (hrate : 0 ≤ rate) (hnow : b.at_ ≤ now) :
    Counts cap rate (passed times now (take cap rate b now).1) (take cap rate b now).2 := by
  have hlater := h.later hrate hnow
  unfold TokenBucket.take passed
  dsimp only
  split
  · next htoken =>
    constructor
    · intro t ht
      cases List.mem_append.mp ht with
      | inl hold => exact hlater.past t hold
      | inr hnew => exact le_of_eq (List.mem_singleton.mp hnew)
    · exact ⟨sub_nonneg.mpr htoken, le_trans (sub_le_self _ zero_le_one) hlater.tokens.2⟩
    · intro start hstart
      have hmost := hlater.most start hstart
      rw [if_pos rfl, since_append, if_pos hstart, Nat.cast_add, Nat.cast_one]
      dsimp only at hmost ⊢
      linarith
    · obtain ⟨start, hstart, hleast⟩ := hlater.least
      refine ⟨start, hstart, ?_⟩
      rw [if_pos rfl, since_append, if_pos hstart, Nat.cast_add, Nat.cast_one]
      dsimp only at hleast ⊢
      linarith
  · exact hlater

/-- A take keeps the bound of every window. -/
theorem Bounded.take (h : Bounded cap rate times) (hcounts : Counts cap rate times b) (hrate : 0 ≤ rate) (hnow : b.at_ ≤ now) :
    Bounded cap rate (passed times now (take cap rate b now).1) := by
  have hafter := hcounts.take hrate hnow
  unfold passed at hafter ⊢
  split at hafter
  · next htook =>
    rw [if_pos htook]
    intro start stop hle
    have hat : (TokenBucket.take cap rate b now).2.at_ = now := by
      unfold TokenBucket.take
      dsimp only
      split <;> rfl
    by_cases hin : start ≤ now ∧ now ≤ stop
    · have hmost := hafter.most start (by rw [hat]; exact hin.1)
      have hwithin : (within (times ++ [now]) start stop : K) ≤ since (times ++ [now]) start :=
        Nat.cast_le.mpr within_le_since
      have hgain : (now - start) * rate ≤ (stop - start) * rate :=
        mul_le_mul_of_nonneg_right (sub_le_sub_right hin.2 start) hrate
      rw [hat] at hmost
      linarith [hafter.tokens.1]
    · have hout : within (times ++ [now]) start stop = within times start stop := by
        unfold within
        rw [List.countP_append]
        have hnot : (decide (start ≤ now) && decide (now ≤ stop)) = false := by simpa using hin
        simp [hnot]
      rw [hout]
      exact h start stop hle
  · next htook =>
    rw [if_neg htook]
    exact h

/-- Where nothing is let through, some window has all that it may. -/
theorem Counts.refused (h : Counts cap rate times b) (hrate : 0 ≤ rate) (hnow : b.at_ ≤ now)
    (hrefused : (TokenBucket.take cap rate b now).1 = false) :
    ∃ start ≤ now, cap - 1 + (now - start) * rate < since times start := by
  have hlater := h.later hrate hnow
  have hempty : fill cap rate b now < 1 := by
    unfold TokenBucket.take at hrefused
    dsimp only at hrefused
    split at hrefused
    · cases hrefused
    · next hnone => exact lt_of_not_ge hnone
  obtain ⟨start, hstart, hleast⟩ := hlater.least
  refine ⟨start, hstart, ?_⟩
  dsimp only at hleast
  linarith

/-- A bucket that is full again could as well not have been there. -/
theorem Counts.quiet (h : Counts cap rate times b) (hrate : 0 ≤ rate) (hnow : b.at_ ≤ now)
    (hfull : cap ≤ b.tokens + (now - b.at_) * rate) : Quiet rate times now := by
  have hlater := h.later hrate hnow
  have hfill : fill cap rate b now = cap := min_eq_left hfull
  refine ⟨hlater.past, fun start hstart => ?_⟩
  have hmost := hlater.most start hstart
  dsimp only at hmost
  rw [hfill] at hmost
  linarith

/-- What was quiet stays quiet. -/
theorem Quiet.later {now' : K} (h : Quiet rate times now) (hrate : 0 ≤ rate) (hnow : now ≤ now') : Quiet rate times now' := by
  refine ⟨fun t ht => le_trans (h.1 t ht) hnow, fun start hstart => ?_⟩
  cases le_or_gt start now with
  | inl hold =>
    have hgain : (now - start) * rate ≤ (now' - start) * rate := mul_le_mul_of_nonneg_right (sub_le_sub_right hnow start) hrate
    exact le_trans (h.2 start hold) hgain
  | inr hnew =>
    rw [since_eq_zero fun t ht => lt_of_le_of_lt (h.1 t ht) hnew, Nat.cast_zero]
    exact mul_nonneg (sub_nonneg.mpr hstart) hrate

end Buckets

end TokenBucket
