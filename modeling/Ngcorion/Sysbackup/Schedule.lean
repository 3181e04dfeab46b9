import Ngcorion.LocalTime

/-!
# The schedule of system backups

The slots of a schedule are at one time of each day, or of one day of each week, in the local time. A backup is due when the
latest slot has no scheduled backup and is not over a day old.
-/
namespace Schedule

open LocalTime

inductive Frequency where
  | daily | weekly

/-- The settings, of which the time is `HH:MM` -/
structure Settings where
  enabled : Bool
  passphrase_set : Bool
  frequency : Frequency
  hour : Int
  minute : Int
  weekly_day : Int
  keep_daily : Nat
  keep_weekly : Nat
  keep_monthly : Nat
  hour_valid : 0 ≤ hour ∧ hour < 24
  minute_valid : 0 ≤ minute ∧ minute < 60
  weekly_day_valid : 0 ≤ weekly_day ∧ weekly_day ≤ 6
  keep_daily_valid : 1 ≤ keep_daily

inductive Kind where
  | scheduled | manual | safety | uploaded
  deriving DecidableEq

inductive Status where
  | queued | running | ready | failed | missing
  deriving DecidableEq

/-- A row of the catalog -/
structure SystemBackup where
  id : Nat
  kind : Kind
  status : Status
  created_at : Int
  deriving DecidableEq

/-- `hh:mm` of the settings in a day -/
def Settings.moment (cfg : Settings) : Int := cfg.hour * LocalTime.hour + cfg.minute * LocalTime.minute

def _slot_days (cfg : Settings) (when' : Int) : Bool :=
  match cfg.frequency with
  | .weekly => weekdayOf when' = cfg.weekly_day
  | .daily => true

/-- The loop of `next_scheduled`, with the steps that are left -/
def nextFrom (cfg : Settings) (local_now : Int) : Nat → Int → Int
  | 0, when' => when'
  | steps + 1, when' => if local_now < when' ∧ _slot_days cfg when' then when' else nextFrom cfg local_now steps (when' + day)

def next_scheduled (tz : Option Int) (after_utc : Int) (cfg : Settings) : Int :=
  let local_now := toLocal tz after_utc
  toUtc tz (nextFrom cfg local_now 9 (atTime local_now cfg.moment))

/-- The loop of `last_slot` -/
def lastFrom (cfg : Settings) (local_now : Int) : Nat → Int → Option Int
  | 0, _ => none
  | steps + 1, when' => if when' ≤ local_now ∧ _slot_days cfg when' then some when' else lastFrom cfg local_now steps (when' - day)

def last_slot (tz : Option Int) (now_utc : Int) (cfg : Settings) : Option Int :=
  let local_now := toLocal tz now_utc
  (lastFrom cfg local_now 8 (atTime local_now cfg.moment)).map (toUtc tz)

def due_scheduled (tz : Option Int) (backups : List SystemBackup) (cfg : Settings) (now : Int) : Bool :=
  if !cfg.enabled || !cfg.passphrase_set then false
  else match last_slot tz now cfg with
    | none => false
    | some slot =>
      if day < now - slot then false
      else !backups.any fun b => b.kind = .scheduled && slot - minute ≤ b.created_at

/-! ## Slots -/

/-- A time of the schedule, in the local time -/
structure IsSlot (cfg : Settings) (t : Int) : Prop where
  moment : t % day = cfg.moment
  runs : _slot_days cfg t = true

theorem Settings.moment_bounds (cfg : Settings) : 0 ≤ cfg.moment ∧ cfg.moment < day := by
  have hhour := cfg.hour_valid
  have hminute := cfg.minute_valid
  unfold Settings.moment day LocalTime.hour LocalTime.minute
  omega

theorem slot_days_iff (cfg : Settings) (t : Int) :
    _slot_days cfg t = true ↔ cfg.frequency = .daily ∨ weekdayOf t = cfg.weekly_day := by
  unfold _slot_days
  cases cfg.frequency <;> simp

theorem isSlot_iff (cfg : Settings) (t : Int) :
    IsSlot cfg t ↔ t % day = cfg.moment ∧ (cfg.frequency = .daily ∨ t / day % 7 = cfg.weekly_day) := by
  rw [← show weekdayOf t = t / day % 7 from rfl, ← slot_days_iff]
  exact ⟨fun h => ⟨h.moment, h.runs⟩, fun h => ⟨h.1, h.2⟩⟩

/-- The slot of a time: the time since it is less than a day, or less than a week. -/
def sinceSlot (cfg : Settings) (t : Int) : Int :=
  match cfg.frequency with
  | .daily => (t - cfg.moment) % day
  | .weekly => (t - (cfg.weekly_day * day + cfg.moment)) % week

def period (cfg : Settings) : Int :=
  match cfg.frequency with
  | .daily => day
  | .weekly => week

theorem sinceSlot_bounds (cfg : Settings) (t : Int) : 0 ≤ sinceSlot cfg t ∧ sinceSlot cfg t < period cfg := by
  unfold sinceSlot period week day LocalTime.hour LocalTime.minute
  cases cfg.frequency <;> simp <;> omega

theorem sinceSlot_isSlot (cfg : Settings) (t : Int) : IsSlot cfg (t - sinceSlot cfg t) := by
  rw [isSlot_iff]
  have hmoment := cfg.moment_bounds
  have hday := cfg.weekly_day_valid
  unfold sinceSlot week at *
  unfold day LocalTime.hour LocalTime.minute at *
  cases cfg.frequency <;> simp <;> omega

theorem IsSlot.add_period {cfg : Settings} {t : Int} (h : IsSlot cfg t) : IsSlot cfg (t + period cfg) := by
  rw [isSlot_iff] at h ⊢
  unfold period week at *
  unfold day LocalTime.hour LocalTime.minute at *
  cases hf : cfg.frequency <;> simp [hf] at h ⊢ <;> omega

/-- Slots are a multiple of the period apart. -/
theorem IsSlot.apart {cfg : Settings} {s t : Int} (hs : IsSlot cfg s) (ht : IsSlot cfg t) (h : s < t) : s + period cfg ≤ t := by
  rw [isSlot_iff] at hs ht
  unfold period week at *
  unfold day LocalTime.hour LocalTime.minute at *
  cases hf : cfg.frequency <;> simp [hf] at hs ht ⊢ <;> omega

/-- The slot of a time is the latest one. -/
theorem le_slot {cfg : Settings} {s t : Int} (hs : IsSlot cfg s) (h : s ≤ t) : s ≤ t - sinceSlot cfg t := by
  by_contra hlt
  have hapart := (sinceSlot_isSlot cfg t).apart hs (by omega)
  have hbounds := sinceSlot_bounds cfg t
  omega

theorem next_le {cfg : Settings} {s t : Int} (hs : IsSlot cfg s) (h : t < s) : t - sinceSlot cfg t + period cfg ≤ s := by
  have hbounds := sinceSlot_bounds cfg t
  exact (sinceSlot_isSlot cfg t).apart hs (by omega)

theorem lastFrom_eq {cfg : Settings} {t s w : Int} {steps : Nat} (hs : IsSlot cfg s) (hst : s ≤ t)
    (hlatest : ∀ r, IsSlot cfg r → r ≤ t → r ≤ s) (hw : w % day = cfg.moment) (hsw : s ≤ w) (hsteps : w < s + steps * day) :
    lastFrom cfg t steps w = some s := by
  induction steps generalizing w with
  | zero =>
    simp at hsteps
    omega
  | succ steps ih =>
    rw [lastFrom]
    have hmoment := hs.moment
    split
    · next h => rw [Int.le_antisymm (hlatest w ⟨hw, h.2⟩ h.1) hsw]
    · next h =>
      have hne : w ≠ s := by
        rintro rfl
        exact h ⟨hst, hs.runs⟩
      unfold day LocalTime.hour LocalTime.minute at *
      refine ih ?_ ?_ ?_
      · omega
      · omega
      · push_cast at hsteps
        omega

theorem nextFrom_eq {cfg : Settings} {t s w : Int} {steps : Nat} (hs : IsSlot cfg s) (hst : t < s)
    (hfirst : ∀ r, IsSlot cfg r → t < r → s ≤ r) (hw : w % day = cfg.moment) (hsw : w ≤ s) (hsteps : s ≤ w + steps * day) :
    nextFrom cfg t steps w = s := by
  induction steps generalizing w with
  | zero =>
    simp at hsteps
    rw [nextFrom]
    omega
  | succ steps ih =>
    rw [nextFrom]
    have hmoment := hs.moment
    split
    · next h => exact Int.le_antisymm hsw (hfirst w ⟨hw, h.2⟩ h.1)
    · next h =>
      have hne : w ≠ s := by
        rintro rfl
        exact h ⟨hst, hs.runs⟩
      unfold day LocalTime.hour LocalTime.minute at *
      refine ih ?_ ?_ ?_
      · omega
      · omega
      · push_cast at hsteps
        omega

theorem atTime_moment (cfg : Settings) (t : Int) : atTime t cfg.moment % day = cfg.moment := by
  have hmoment := cfg.moment_bounds
  unfold atTime day LocalTime.hour LocalTime.minute at *
  omega

/-- A slot is a whole number of days from the slot time of the same day. -/
theorem IsSlot.day_near {cfg : Settings} {s t : Int} (h : IsSlot cfg s) : (s ≤ t → s ≤ atTime t cfg.moment) ∧
    (t < s → atTime t cfg.moment ≤ s) := by
  have hmoment := cfg.moment_bounds
  have hs := h.moment
  unfold atTime day LocalTime.hour LocalTime.minute at *
  omega

theorem atTime_bounds (cfg : Settings) (t : Int) : t - day < atTime t cfg.moment ∧ atTime t cfg.moment < t + day := by
  have hmoment := cfg.moment_bounds
  unfold atTime day LocalTime.hour LocalTime.minute at *
  omega

theorem period_le (cfg : Settings) : period cfg ≤ 7 * day := by
  unfold period week day LocalTime.hour LocalTime.minute
  cases cfg.frequency <;> simp

theorem last_slot_eq (tz : Option Int) (now : Int) (cfg : Settings) :
    last_slot tz now cfg = some (now - sinceSlot cfg (toLocal tz now)) := by
  have hslot := sinceSlot_isSlot cfg (toLocal tz now)
  have hbounds := sinceSlot_bounds cfg (toLocal tz now)
  have hperiod := period_le cfg
  have hnear := atTime_bounds cfg (toLocal tz now)
  have hlast : lastFrom cfg (toLocal tz now) 8 (atTime (toLocal tz now) cfg.moment) =
      some (toLocal tz now - sinceSlot cfg (toLocal tz now)) :=
    lastFrom_eq hslot (by omega) (fun _ => le_slot) (atTime_moment cfg _) (hslot.day_near.1 (by omega)) (by omega)
  rw [last_slot, hlast, Option.map_some]
  congr 1
  unfold toUtc toLocal
  omega

theorem next_scheduled_eq (tz : Option Int) (now : Int) (cfg : Settings) :
    next_scheduled tz now cfg = now - sinceSlot cfg (toLocal tz now) + period cfg := by
  have hslot := (sinceSlot_isSlot cfg (toLocal tz now)).add_period
  have hbounds := sinceSlot_bounds cfg (toLocal tz now)
  have hperiod := period_le cfg
  have hnear := atTime_bounds cfg (toLocal tz now)
  have hnext : nextFrom cfg (toLocal tz now) 9 (atTime (toLocal tz now) cfg.moment) =
      toLocal tz now - sinceSlot cfg (toLocal tz now) + period cfg :=
    nextFrom_eq hslot (by omega) (fun _ => next_le) (atTime_moment cfg _) (hslot.day_near.2 (by omega)) (by omega)
  rw [next_scheduled, hnext]
  unfold toUtc toLocal
  omega

/-! ## Missed slots -/

/-- No scheduled backup was made since a slot, less a minute. -/
def NoneSince (backups : List SystemBackup) (slot : Int) : Prop :=
  ∀ b ∈ backups, b.kind = .scheduled → b.created_at < slot - minute

/-- The latest slot is not after now, the next one is, and there is none between them; a backup is due exactly when the schedule
is enabled with a passphrase and no scheduled backup was made since the latest slot. -/
structure MadeUp (tz : Option Int) (backups : List SystemBackup) (cfg : Settings) (now slot : Int) : Prop where
  last : last_slot tz now cfg = some slot
  slot_le : slot ≤ now
  lt_next : now < next_scheduled tz now cfg
  slot_isSlot : IsSlot cfg (toLocal tz slot)
  next_isSlot : IsSlot cfg (toLocal tz (next_scheduled tz now cfg))
  between : ∀ r, IsSlot cfg (toLocal tz r) → slot ≤ r → r < next_scheduled tz now cfg → r = slot
  due : due_scheduled tz backups cfg now = true ↔ cfg.enabled = true ∧ cfg.passphrase_set = true ∧ NoneSince backups slot

/-- The latest slot is at most a day ago, or nothing is due since it. -/
def Timely (tz : Option Int) (backups : List SystemBackup) (cfg : Settings) (now : Int) : Prop :=
  cfg.enabled = true → cfg.passphrase_set = true → NoneSince backups (now - sinceSlot cfg (toLocal tz now)) →
    sinceSlot cfg (toLocal tz now) ≤ day

theorem due_iff (tz : Option Int) (backups : List SystemBackup) (cfg : Settings) (now : Int) :
    due_scheduled tz backups cfg now = true ↔ cfg.enabled = true ∧ cfg.passphrase_set = true ∧
      sinceSlot cfg (toLocal tz now) ≤ day ∧ NoneSince backups (now - sinceSlot cfg (toLocal tz now)) := by
  have hnow : now - (now - sinceSlot cfg (toLocal tz now)) = sinceSlot cfg (toLocal tz now) := by omega
  rw [due_scheduled, last_slot_eq]
  simp only [hnow]
  cases henabled : cfg.enabled with
  | false => simp
  | true =>
    cases hpassphrase : cfg.passphrase_set with
    | false => simp
    | true =>
      by_cases hday : day < sinceSlot cfg (toLocal tz now)
      · simp [hday, Int.not_le.mpr hday]
      · have hnone : (!backups.any fun b => b.kind = .scheduled && now - sinceSlot cfg (toLocal tz now) - minute ≤ b.created_at) =
            true ↔ NoneSince backups (now - sinceSlot cfg (toLocal tz now)) := by
          simp only [NoneSince, Bool.not_eq_true', List.any_eq_false, Bool.and_eq_true, decide_eq_true_eq, not_and, Int.not_le]
        simp only [Bool.not_true, Bool.or_self, Bool.false_eq_true, if_false, hday, hnone, Int.not_lt.mp hday, true_and]

/-- A missed slot is made up exactly when it is at most a day ago. -/
theorem made_up_iff (tz : Option Int) (backups : List SystemBackup) (cfg : Settings) (now : Int) :
    (∃ slot, MadeUp tz backups cfg now slot) ↔ Timely tz backups cfg now := by
  have hbounds := sinceSlot_bounds cfg (toLocal tz now)
  have hlocal : ∀ r, toLocal tz (now - r) = toLocal tz now - r := by
    intro r
    unfold toLocal
    omega
  constructor
  · rintro ⟨slot, h⟩ henabled hpassphrase hnone
    have hslot := h.last
    rw [last_slot_eq] at hslot
    cases hslot
    exact ((due_iff tz backups cfg now).mp (h.due.mpr ⟨henabled, hpassphrase, hnone⟩)).2.2.1
  · intro htimely
    have hslot := sinceSlot_isSlot cfg (toLocal tz now)
    have hnext : toLocal tz (next_scheduled tz now cfg) = toLocal tz now - sinceSlot cfg (toLocal tz now) + period cfg := by
      rw [next_scheduled_eq]
      unfold toLocal
      omega
    refine ⟨_, last_slot_eq tz now cfg, by omega, ?_, ?_, ?_, ?_, ?_⟩
    · rw [next_scheduled_eq]
      omega
    · rw [hlocal]
      exact hslot
    · rw [hnext]
      exact hslot.add_period
    · intro r hr hle hlt
      by_contra hne
      have hlt' : toLocal tz now - sinceSlot cfg (toLocal tz now) < toLocal tz r := by
        unfold toLocal at *
        omega
      have hapart := hslot.apart hr hlt'
      rw [next_scheduled_eq] at hlt
      unfold toLocal at *
      omega
    · rw [due_iff]
      exact ⟨fun h => ⟨h.1, h.2.1, h.2.2.2⟩, fun h => ⟨h.1, h.2.1, htimely h.1 h.2.1 h.2.2, h.2.2⟩⟩

/-- Each Friday at two -/
def fridays : Settings where
  enabled := true
  passphrase_set := true
  frequency := .weekly
  hour := 2
  minute := 0
  weekly_day := 4
  keep_daily := 7
  keep_weekly := 4
  keep_monthly := 6
  hour_valid := by decide
  minute_valid := by decide
  weekly_day_valid := by decide
  keep_daily_valid := by decide

/-- A server that comes back on Sunday does not make up the slot of Friday. -/
theorem sunday_not_due : last_slot none (6 * day + 3 * hour) fridays = some (4 * day + 2 * hour) ∧
    due_scheduled none [] fridays (6 * day + 3 * hour) = false ∧
      ¬∃ slot, MadeUp none [] fridays (6 * day + 3 * hour) slot := by
  have hlast : last_slot none (6 * day + 3 * hour) fridays = some (4 * day + 2 * hour) := by
    with_unfolding_all decide
  have hdue : due_scheduled none [] fridays (6 * day + 3 * hour) = false := by with_unfolding_all decide
  refine ⟨hlast, hdue, fun ⟨slot, h⟩ => ?_⟩
  have hmust := h.due.mpr ⟨rfl, rfl, fun b hb => absurd hb (List.not_mem_nil)⟩
  rw [hdue] at hmust
  cases hmust

end Schedule
