import Ngcorion.Transition
import Mathlib.Algebra.GroupWithZero.Nat

/-!
# The asset limit of the license

What sessions that add assets at the same time do to the number of assets. The guard runs before each
flush in the session's own transaction, which sees what is committed and what it inserted itself.
-/
namespace AssetLimit

open Transition

/-! ## Sessions -/

/-- `entitlement()` -/
structure Entitlement where
  licensed : Bool
  max_assets : Option Nat

/-- `_refuse_assets_beyond_the_license` raises. -/
def refuses (e : Entitlement) (used new_assets : Nat) : Bool :=
  new_assets ≠ 0 && e.licensed && e.max_assets.any fun limit => limit < used + new_assets

/-- A transaction: the assets it inserted, and those that a flush is about to insert after the guard. -/
structure Session where
  inserted : Nat
  flushing : Nat
  deriving DecidableEq

/-- The assets that would be there if the session committed. -/
def Session.adds (session : Session) : Nat := session.inserted + session.flushing

structure State where
  committed : Nat
  sessions : List Session
  deriving DecidableEq

inductive Action where
  /-- The guard before a flush of some new assets. -/
  | flush (session new_assets : Nat)
  | insert (session : Nat)
  | commit (session : Nat)
  | rollback (session : Nat)

/-- What `count(Asset.id)` is in a session at READ COMMITTED. -/
def State.used (s : State) (session : Session) : Nat := s.committed + session.inserted

def step (e : Entitlement) (s : State) : Action → Option State
  | .flush i new_assets => s.sessions[i]?.bind fun session =>
    if session.flushing ≠ 0 then none
    else if refuses e (s.used session) new_assets then some s
    else some { s with sessions := s.sessions.set i { session with flushing := new_assets } }
  | .insert i => s.sessions[i]?.map fun session =>
    { s with sessions := s.sessions.set i ⟨session.adds, 0⟩ }
  | .commit i => s.sessions[i]?.bind fun session =>
    if session.flushing ≠ 0 then none
    else some ⟨s.committed + session.inserted, s.sessions.set i ⟨0, 0⟩⟩
  | .rollback i => s.sessions[i]?.map fun _ => { s with sessions := s.sessions.set i ⟨0, 0⟩ }

def begin (start sessions : Nat) : State := ⟨start, List.replicate sessions ⟨0, 0⟩⟩

/-! ## What is not committed -/

/-- The assets that all sessions would add. -/
def State.adds (s : State) : Nat := (s.sessions.map Session.adds).sum

/-- A flush that the guard lets through would also fit with what the other sessions add. -/
def Fits (limit : Nat) (s : State) : Action → Prop
  | .flush i new_assets => ∀ session ∈ s.sessions[i]?, session.flushing = 0 → new_assets ≠ 0 →
      s.used session + new_assets ≤ limit → s.committed + s.adds + new_assets ≤ limit
  | _ => True

section Steps

variable {e : Entitlement} {s s' : State} {a : Action} {session session' : Session} {sessions : List Session}
  {i limit start : Nat}

theorem sum_set (h : sessions[i]? = some session) (session' : Session) :
    ((sessions.set i session').map Session.adds).sum + session.adds = (sessions.map Session.adds).sum + session'.adds := by
  induction sessions generalizing i with
  | nil => cases h
  | cons first sessions ih =>
    cases i with
    | zero =>
      cases h
      simp only [List.set_cons_zero, List.map_cons, List.sum_cons]
      omega
    | succ i =>
      have hrest := ih h
      simp only [List.set_cons_succ, List.map_cons, List.sum_cons]
      omega

theorem adds_le (h : sessions[i]? = some session) : session.adds ≤ (sessions.map Session.adds).sum := by
  have hzero := sum_set h ⟨0, 0⟩
  change _ + session.adds = _ + 0 at hzero
  omega

theorem adds_begin (start sessions : Nat) : (begin start sessions).adds = 0 := by
  unfold begin State.adds
  rw [List.map_replicate, List.sum_replicate_nat]
  exact Nat.mul_zero sessions

/-- With the uncommitted assets a step adds none, unless it is a flush that the guard lets through. -/
theorem step_adds (h : step e s a = some s') : s'.committed + s'.adds ≤ s.committed + s.adds ∨
    ∃ i new_assets session, a = .flush i new_assets ∧ s.sessions[i]? = some session ∧ session.flushing = 0 ∧
      refuses e (s.used session) new_assets = false ∧ s'.committed = s.committed ∧ s'.adds = s.adds + new_assets := by
  cases a with
  | flush i new_assets =>
    obtain ⟨session, hsession, hflush⟩ := Option.bind_eq_some_iff.mp h
    split at hflush
    · cases hflush
    · next hidle =>
      have hzero : session.flushing = 0 := not_not.mp hidle
      split at hflush
      · cases hflush
        exact .inl (Nat.le_refl _)
      · next hpasses =>
        cases hflush
        refine .inr ⟨i, new_assets, session, rfl, hsession, hzero, by simpa using hpasses, rfl, ?_⟩
        have hset := sum_set hsession { session with flushing := new_assets }
        unfold State.adds
        unfold Session.adds at hset ⊢
        dsimp only at hset ⊢
        omega
  | insert i =>
    obtain ⟨session, hsession, rfl⟩ := Option.map_eq_some_iff.mp h
    have hset := sum_set hsession ⟨session.adds, 0⟩
    left
    unfold State.adds
    unfold Session.adds at hset ⊢
    dsimp only at hset ⊢
    omega
  | commit i =>
    obtain ⟨session, hsession, hcommit⟩ := Option.bind_eq_some_iff.mp h
    split at hcommit
    · cases hcommit
    · cases hcommit
      have hset := sum_set hsession ⟨0, 0⟩
      left
      unfold State.adds
      unfold Session.adds at hset ⊢
      dsimp only at hset ⊢
      omega
  | rollback i =>
    obtain ⟨session, hsession, rfl⟩ := Option.map_eq_some_iff.mp h
    have hset := sum_set hsession ⟨0, 0⟩
    left
    unfold State.adds
    unfold Session.adds at hset ⊢
    dsimp only at hset ⊢
    omega

/-- What the guard lets through under a license with a limit. -/
theorem refuses_false {used new_assets : Nat} (h : refuses ⟨true, some limit⟩ used new_assets = false) :
    new_assets = 0 ∨ used + new_assets ≤ limit := by
  unfold refuses at h
  simp only [Bool.and_true, Option.any_some, Bool.and_eq_false_iff, decide_eq_false_iff_not, not_not] at h
  exact h.imp_right Nat.le_of_not_lt

/-- With the uncommitted assets too, no step takes the number over the limit. -/
theorem fits_step (h : s.committed + s.adds ≤ max limit start) (hfits : Fits limit s a)
    (hstep : step ⟨true, some limit⟩ s a = some s') : s'.committed + s'.adds ≤ max limit start := by
  obtain hle | ⟨i, new_assets, session, rfl, hsession, hidle, hpasses, hcommitted, hadds⟩ := step_adds hstep
  · exact Nat.le_trans hle h
  · obtain rfl | hroom := refuses_false hpasses
    · omega
    · by_cases hzero : new_assets = 0
      · omega
      · have := hfits session hsession hidle hzero hroom
        omega

/-! ## A flush that does not fit -/

/-- All sessions can commit what they add. -/
theorem commit_all (n : Nat) (hn : s.adds = n) :
    ∃ t, Reach (step e) (fun _ _ => True) s t ∧ t.committed = s.committed + n := by
  induction n using Nat.strongRecOn generalizing s with
  | ind n ih =>
    by_cases hzero : n = 0
    · exact ⟨s, .start, by omega⟩
    · obtain ⟨k, hk, hpos⟩ := List.sum_pos_iff_exists_pos_nat.mp (Nat.pos_of_ne_zero (hn ▸ hzero : s.adds ≠ 0))
      obtain ⟨session, hmem, rfl⟩ := List.mem_map.mp hk
      obtain ⟨i, hi⟩ := List.mem_iff_getElem?.mp hmem
      have hle := adds_le hi
      have hlt : i < s.sessions.length := (List.getElem?_eq_some_iff.mp hi).1
      -- the session inserts what its flush is about to, and commits
      let inserted : State := { s with sessions := s.sessions.set i ⟨session.adds, 0⟩ }
      let next : State := ⟨s.committed + session.adds, inserted.sessions.set i ⟨0, 0⟩⟩
      have hinsert : step e s (.insert i) = some inserted := Option.map_eq_some_iff.mpr ⟨session, hi, rfl⟩
      have hinserted : inserted.sessions[i]? = some ⟨session.adds, 0⟩ := List.getElem?_set_self hlt
      have hcommit : step e inserted (.commit i) = some next := Option.bind_eq_some_iff.mpr ⟨_, hinserted, rfl⟩
      have hadds : next.adds + session.adds = n := by
        have hset := sum_set hi ⟨0, 0⟩
        have hnext : next.sessions = s.sessions.set i ⟨0, 0⟩ := List.set_set _
        unfold State.adds at hn ⊢
        rw [hnext]
        change _ + session.adds = _ + 0 at hset
        omega
      obtain ⟨t, hreach, hcommitted⟩ := ih next.adds (by omega) rfl
      refine ⟨t, (((Reach.start).step trivial hinsert).step trivial hcommit).trans hreach, ?_⟩
      rw [hcommitted]
      change s.committed + session.adds + next.adds = s.committed + n
      omega

theorem committed_mono (h : step e s a = some s') : s.committed ≤ s'.committed := by
  cases a with
  | flush i new_assets =>
    obtain ⟨session, -, hflush⟩ := Option.bind_eq_some_iff.mp h
    split at hflush
    · cases hflush
    · split at hflush <;> cases hflush <;> exact Nat.le_refl _
  | insert i =>
    obtain ⟨session, -, rfl⟩ := Option.map_eq_some_iff.mp h
    exact Nat.le_refl _
  | commit i =>
    obtain ⟨session, -, hcommit⟩ := Option.bind_eq_some_iff.mp h
    split at hcommit
    · cases hcommit
    · cases hcommit
      exact Nat.le_add_right _ _
  | rollback i =>
    obtain ⟨session, -, rfl⟩ := Option.map_eq_some_iff.mp h
    exact Nat.le_refl _

/-- After a flush that the guard lets through and that does not fit, the sessions can go over the limit. -/
theorem over_limit (hstart : start ≤ s.committed) (hstep : step ⟨true, some limit⟩ s a = some s') (hfits : ¬ Fits limit s a) :
    ∃ t, Reach (step ⟨true, some limit⟩) (fun _ _ => True) s' t ∧ max limit start < t.committed := by
  cases a with
  | flush i new_assets =>
    simp only [Fits, not_forall] at hfits
    obtain ⟨session, hsession, hidle, hne, hroom, hover⟩ := hfits
    obtain ⟨session', hsession', hflush⟩ := Option.bind_eq_some_iff.mp hstep
    cases (Option.mem_def.mp hsession).symm.trans hsession'
    rw [if_neg (not_not.mpr hidle)] at hflush
    have hpasses : refuses ⟨true, some limit⟩ (s.used session) new_assets = false := by
      unfold refuses
      simp [Nat.not_lt.mpr hroom]
    rw [hpasses] at hflush
    cases hflush
    obtain ⟨t, hreach, hcommitted⟩ := @commit_all ⟨true, some limit⟩
      { s with sessions := s.sessions.set i { session with flushing := new_assets } } _ rfl
    refine ⟨t, hreach, ?_⟩
    have hset := sum_set hsession { session with flushing := new_assets }
    unfold State.used at hroom
    unfold State.adds at hover hcommitted
    unfold Session.adds at hover hcommitted hset
    dsimp only at hset hcommitted
    omega
  | _ => exact absurd trivial hfits

end Steps

/-- While every flush that the guard lets through fits with what the other sessions add, the number of assets stays
within the limit; and after any other flush the sessions can go over it. -/
theorem limit_holds (limit start sessions : Nat) :
    (∀ s, Reach (step ⟨true, some limit⟩) (Fits limit) (begin start sessions) s → s.committed ≤ max limit start) ∧
      ∀ s a s', Reach (step ⟨true, some limit⟩) (Fits limit) (begin start sessions) s →
        step ⟨true, some limit⟩ s a = some s' → ¬ Fits limit s a →
          ∃ t, Reach (step ⟨true, some limit⟩) (fun _ _ => True) s' t ∧ max limit start < t.committed := by
  constructor
  · intro s h
    have hstart : (begin start sessions).committed + (begin start sessions).adds ≤ max limit start := by
      rw [adds_begin]
      exact Nat.le_max_right _ _
    have hinv : s.committed + s.adds ≤ max limit start := by
      induction h with
      | start => exact hstart
      | step _ hok hstep ih => exact fits_step ih hok hstep
    omega
  · intro s a s' h hstep hfits
    have hstart : start ≤ (begin start sessions).committed := Nat.le_refl _
    have hmono : start ≤ s.committed := by
      clear hstep hfits
      induction h with
      | start => exact hstart
      | step _ _ htaken ih => exact Nat.le_trans ih (committed_mono htaken)
    exact over_limit hmono hstep hfits

instance (limit : Nat) (s : State) (a : Action) : Decidable (Fits limit s a) := by
  cases a <;> unfold Fits <;> infer_instance

/-- Two sessions, of which the second counts after the first has committed. -/
def oneByOne : List Action := [.flush 0 1, .insert 0, .commit 0, .flush 1 1, .insert 1, .commit 1]

theorem limit_holds_one_by_one :
    ∃ s, Reach (step ⟨true, some 1⟩) (Fits 1) (begin 0 2) s ∧ s.committed = 1 ∧ s.committed ≤ max 1 0 := by
  have hrun : run (fun s a => if decide (Fits 1 s a) then step ⟨true, some 1⟩ s a else none) oneByOne (begin 0 2) =
      some ⟨1, [⟨0, 0⟩, ⟨0, 0⟩]⟩ := by decide
  have hreach : Reach (step ⟨true, some 1⟩) (Fits 1) (begin 0 2) _ :=
    Reach.run (fun _ _ hok => of_decide_eq_true hok) _ .start hrun
  exact ⟨_, hreach, rfl, (limit_holds 1 0 2).1 _ hreach⟩

/-- Two sessions count before either of them commits. -/
theorem both_count : ∃ s, run (step ⟨true, some 1⟩)
    [.flush 0 1, .flush 1 1, .insert 0, .insert 1, .commit 0, .commit 1] (begin 0 2) = some s ∧ ¬ s.committed ≤ max 1 0 :=
  ⟨⟨2, [⟨0, 0⟩, ⟨0, 0⟩]⟩, by decide, by decide⟩

end AssetLimit
