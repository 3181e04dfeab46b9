import Ngcorion.License.LicenseState
import Ngcorion.Transition

/-!
# The windows of an entitlement

One process under any clock. What it serves as a valid license is what one verified token says,
within the windows that count from the token's issue time.
-/
namespace Entitlement

open LicenseState Transition

variable {T : Type}

/-! ## Calls -/

/-- The process, the tokens that verified and the times at which the state was read. -/
structure System (T : Type) where
  proc : Proc T
  verified : List T
  reads : List Int

inductive Call (T : Type) where
  | set (t : T) (now seen : Int)
  | adopt (verifies : Bool) (cached : Option (Cached T))
  | restore (verifies : Bool) (cached : Option (Cached T)) (now : Int)
  | offline (seen : Int)
  | rejected (now seen : Int)
  | refresh (outcome : Outcome T) (now seen read : Int)
  | get (now : Int)

/-- The token of a cache that the verifier accepts. -/
def accepted (verifies : Bool) (cached : Option (Cached T)) : List T :=
  if verifies then (cached.bind Cached.signed_token).toList else []

/-- The token of an answer. -/
def Outcome.tokens : Outcome T → List T
  | .answered t => [t]
  | _ => []

/-- The state is read. -/
def System.read (now : Int) (s : System T) : System T :=
  { s with proc := (get_license_state now s.proc).2, reads := now :: s.reads }

def step [DecidableEq T] (enabled : Bool) (claims : T → Answer) (s : System T) : Call T → Option (System T)
  | .set t now seen => some { s with proc := (set_license_state enabled claims t now seen s.proc).1, verified := t :: s.verified }
  | .adopt verifies cached =>
    some { s with
      proc := adopt_cached_answer enabled claims verifies cached s.proc
      verified := accepted verifies cached ++ s.verified }
  | .restore verifies cached now =>
    some { s with
      proc := restore_cached_state enabled claims verifies cached now s.proc
      verified := accepted verifies cached ++ s.verified }
  | .offline seen => some { s with proc := (mark_license_server_offline enabled seen s.proc).1 }
  | .rejected now seen => some { s with proc := (mark_license_rejected enabled now seen s.proc).1 }
  | .refresh outcome now seen read =>
    let s : System T :=
      { s with
        proc := (refresh enabled claims outcome now seen s.proc).1
        verified := Outcome.tokens outcome ++ s.verified }
    some (if outcome.returns then s.read read else s)
  | .get now => some (s.read now)

/-! ## Tokens -/

/-- All that an answer tells is in the state. -/
def Says (a : Answer) (s : State) : Prop := s.apply a = s ∧ s.issued_at = some a.issued

/-- A valid state is that of the token that is kept, which has verified. -/
def FromToken (claims : T → Answer) (verified : List T) (p : Proc T) : Prop :=
  p.state.valid = true → ∃ t ∈ verified, p.signed_token = some t ∧ Says (claims t) p.state

/-- A time is not later than the latest time that the process has seen. -/
def Seen (p : Proc T) (time : Int) : Prop := ∃ latest, p.max_seen = some latest ∧ time ≤ latest

section Writers

variable {enabled verifies : Bool} {claims : T → Answer} {verified more : List T} {p : Proc T} {t : T} {now seen time : Int}
  {cached : Option (Cached T)} {outcome : Outcome T}

theorem FromToken.mono (h : FromToken claims verified p) (hsub : ∀ t ∈ verified, t ∈ more) : FromToken claims more p := by
  intro hvalid
  obtain ⟨t, ht, hkept, hsays⟩ := h hvalid
  exact ⟨t, hsub t ht, hkept, hsays⟩

/-- Without a valid state nothing is to be shown. -/
theorem fromToken_of_invalid (h : p.state.valid = false) : FromToken claims verified p := by
  intro hvalid
  rw [h] at hvalid
  cases hvalid

@[simp] theorem persist_state_state : (persist_state enabled now p).1.state = p.state := by
  unfold persist_state
  split <;> rfl

@[simp] theorem persist_state_token : (persist_state enabled now p).1.signed_token = p.signed_token := by
  unfold persist_state
  split <;> rfl

theorem FromToken.persist (h : FromToken claims verified p) : FromToken claims verified (persist_state enabled now p).1 := by
  unfold FromToken
  rw [persist_state_state, persist_state_token]
  exact h

theorem says_apply (a : Answer) (s : State) {validated : Option Int} {offline : Bool} :
    Says a { s.apply a with last_validated_at := validated, issued_at := some a.issued, offline := offline } :=
  ⟨rfl, rfl⟩

theorem utc_issued (a : Answer) : utc_from_epoch (some a.issued_at) = some a.issued := a.isDate

theorem fromToken_take : FromToken claims (t :: verified) (take claims t now p) := by
  intro _
  refine ⟨t, List.mem_cons_self, rfl, rfl, ?_⟩
  exact utc_issued (claims t)

theorem FromToken.offline (h : FromToken claims verified p) :
    FromToken claims verified (mark_license_server_offline enabled seen p).1 := by
  apply FromToken.persist
  intro hvalid
  obtain ⟨t, ht, hkept, hsays⟩ := h hvalid
  refine ⟨t, ht, hkept, ?_, hsays.2⟩
  have hsame := congrArg (fun s : State => { s with offline := true }) hsays.1
  exact hsame

theorem fromToken_rejected : FromToken claims verified (mark_license_rejected enabled now seen p).1 :=
  (fromToken_of_invalid rfl).persist

theorem FromToken.adopt [DecidableEq T] (h : FromToken claims verified p) :
    FromToken claims (accepted verifies cached ++ verified) (adopt_cached_answer enabled claims verifies cached p) := by
  have hold : FromToken claims (accepted verifies cached ++ verified) p := h.mono (fun t ht => List.mem_append_right _ ht)
  unfold adopt_cached_answer
  split
  · split
    · exact hold
    · next t ht =>
      split
      · exact hold
      · next hnew =>
        rw [utc_issued]
        dsimp only
        split
        · exact hold
        · intro _
          refine ⟨t, ?_, rfl, says_apply (claims t) p.state⟩
          have hverifies : verifies = true := by simpa using (not_or.mp hnew).2
          simp [accepted, hverifies, ht]
  · exact hold

/-- A restoring process has the latest time of the cache, or its token as well. -/
theorem restore_cases (enabled verifies : Bool) (claims : T → Answer) (cached : Option (Cached T)) (now : Int) (p : Proc T) :
    restore_cached_state enabled claims verifies cached now p = p ∨
    ∃ c, enabled = true ∧ cached = some c ∧ (restore_cached_state enabled claims verifies cached now p = catch_up c.last_seen p ∨
      ∃ t, c.signed_token = some t ∧ verifies = true ∧
        refusesRestore (claims t) (claims t).issued c.last_seen now = false ∧
        restore_cached_state enabled claims verifies cached now p =
          { catch_up c.last_seen p with
            state := { (catch_up c.last_seen p).state.apply (claims t) with
              last_validated_at := some (claims t).issued
              issued_at := some (claims t).issued
              offline := true }
            signed_token := some t }) := by
  unfold restore_cached_state
  split
  · next henabled =>
    split
    · exact .inl rfl
    · next c =>
      refine .inr ⟨c, henabled, rfl, ?_⟩
      dsimp only
      split
      · exact .inl rfl
      · next t ht =>
        split
        · exact .inl rfl
        · next hverifies =>
          rw [utc_issued]
          dsimp only
          split
          · exact .inl rfl
          · next hrefuses => exact .inr ⟨t, ht, by simpa using hverifies, by simpa using hrefuses, rfl⟩
  · exact .inl rfl

theorem catch_up_state (last_seen : Option Int) : (catch_up last_seen p).state = p.state := by
  cases last_seen <;> rfl

theorem catch_up_token (last_seen : Option Int) : (catch_up last_seen p).signed_token = p.signed_token := by
  cases last_seen <;> rfl

theorem FromToken.restore (h : FromToken claims verified p) :
    FromToken claims (accepted verifies cached ++ verified) (restore_cached_state enabled claims verifies cached now p) := by
  have hold : FromToken claims (accepted verifies cached ++ verified) p := h.mono (fun t ht => List.mem_append_right _ ht)
  obtain heq | ⟨c, -, hc, heq | ⟨t, ht, hverifies, -, heq⟩⟩ := restore_cases enabled verifies claims cached now p
  · rw [heq]
    exact hold
  · rw [heq]
    unfold FromToken
    rw [catch_up_state, catch_up_token]
    exact hold
  · rw [heq]
    intro _
    refine ⟨t, ?_, rfl, says_apply (claims t) (catch_up c.last_seen p).state⟩
    simp [accepted, hverifies, hc, ht]

theorem FromToken.refresh (h : FromToken claims verified p) :
    FromToken claims (Outcome.tokens outcome ++ verified) (refresh enabled claims outcome now seen p).1 := by
  cases outcome with
  | answered t => exact fromToken_take.persist
  | rejected => exact fromToken_rejected
  | unreachable => exact h.offline
  | notActivated => exact fromToken_of_invalid rfl
  | refused => exact fromToken_of_invalid rfl

/-! ## The latest time seen -/

theorem later_some (latest : Option Int) (now : Int) :
    ∃ l, later latest now = some l ∧ now ≤ l ∧ ∀ m, latest = some m → m ≤ l := by
  unfold later
  cases latest with
  | none => exact ⟨now, by simp, Int.le_refl _, by simp⟩
  | some m =>
    by_cases hlt : m < now
    · exact ⟨now, by simp [hlt], Int.le_refl _, by simp; omega⟩
    · exact ⟨m, by simp [hlt], by omega, by simp⟩

theorem Seen.later (h : Seen p time) {latest : Option Int} (hlatest : latest = LicenseState.later p.max_seen now)
    {p' : Proc T} (hp' : p'.max_seen = latest) : Seen p' time := by
  obtain ⟨m, hm, hle⟩ := h
  obtain ⟨l, hl, -, hold⟩ := later_some p.max_seen now
  exact ⟨l, by rw [hp', hlatest, hl], Int.le_trans hle (hold m hm)⟩

theorem Seen.persist (h : Seen p time) : Seen (persist_state enabled now p).1 time := by
  unfold persist_state
  split
  · exact h.later rfl rfl
  · exact h

theorem Seen.same (h : Seen p time) (p' : Proc T) (hp' : p'.max_seen = p.max_seen) : Seen p' time := by
  unfold Seen
  rw [hp']
  exact h

theorem Seen.set (h : Seen p time) : Seen (set_license_state enabled claims t now seen p).1 time :=
  (h.same (take claims t now p) rfl).persist

theorem Seen.offline (h : Seen p time) : Seen (mark_license_server_offline enabled seen p).1 time :=
  (h.same { p with state := { p.state with offline := true } } rfl).persist

theorem Seen.rejected (h : Seen p time) : Seen (mark_license_rejected enabled now seen p).1 time :=
  (h.same (reject now p) rfl).persist

theorem Seen.refresh (h : Seen p time) : Seen (refresh enabled claims outcome now seen p).1 time := by
  cases outcome with
  | answered t => exact h.set
  | rejected => exact h.rejected
  | unreachable => exact h.offline
  | notActivated => exact h.same _ rfl
  | refused => exact h.same _ rfl

theorem Seen.adopt [DecidableEq T] (h : Seen p time) : Seen (adopt_cached_answer enabled claims verifies cached p) time := by
  have hsame : (adopt_cached_answer enabled claims verifies cached p).max_seen = p.max_seen := by
    unfold adopt_cached_answer
    repeat' split
    all_goals rfl
  unfold Seen
  rw [hsame]
  exact h

theorem Seen.restore (h : Seen p time) : Seen (restore_cached_state enabled claims verifies cached now p) time := by
  have hcaught (last_seen : Option Int) : Seen (catch_up last_seen p) time := by
    cases last_seen with
    | none => exact h
    | some seen => exact h.later rfl rfl
  obtain heq | ⟨c, -, hc, heq | ⟨t, -, -, -, heq⟩⟩ := restore_cases enabled verifies claims cached now p
  · rw [heq]
    exact h
  · rw [heq]
    exact hcaught c.last_seen
  · rw [heq]
    exact hcaught c.last_seen

theorem seen_read : Seen (get_license_state now p).2 now := by
  obtain ⟨l, hl, hle, -⟩ := later_some p.max_seen now
  exact ⟨l, hl, hle⟩

theorem Seen.read (h : Seen p time) : Seen (get_license_state now p).2 time := h.later rfl rfl

end Writers

/-! ## Every run -/

/-- What holds of the process after any calls. -/
structure Inv (claims : T → Answer) (s : System T) : Prop where
  token : FromToken claims s.verified s.proc
  seen : ∀ time ∈ s.reads, Seen s.proc time

section Run

variable {enabled : Bool} {claims : T → Answer} {s s' : System T}

theorem Inv.read (h : Inv claims s) (now : Int) : Inv claims (s.read now) := by
  constructor
  · exact h.token
  · intro time htime
    cases List.mem_cons.mp htime with
    | inl heq =>
      rw [heq]
      exact seen_read
    | inr hmem => exact (h.seen time hmem).read

theorem inv_step [DecidableEq T] {c : Call T} (h : Inv claims s) (hstep : step enabled claims s c = some s') :
    Inv claims s' := by
  cases c with
  | set t now seen =>
    cases hstep
    exact ⟨fromToken_take.persist, fun time ht => (h.seen time ht).set⟩
  | adopt verifies cached =>
    cases hstep
    exact ⟨h.token.adopt, fun time ht => (h.seen time ht).adopt⟩
  | restore verifies cached now =>
    cases hstep
    exact ⟨h.token.restore, fun time ht => (h.seen time ht).restore⟩
  | offline seen =>
    cases hstep
    exact ⟨h.token.offline, fun time ht => (h.seen time ht).offline⟩
  | rejected now seen =>
    cases hstep
    exact ⟨fromToken_rejected, fun time ht => (h.seen time ht).rejected⟩
  | refresh outcome now seen read =>
    simp only [step, Option.some.injEq] at hstep
    have hrefreshed : Inv claims ⟨(LicenseState.refresh enabled claims outcome now seen s.proc).1,
        Outcome.tokens outcome ++ s.verified, s.reads⟩ := ⟨h.token.refresh, fun time ht => (h.seen time ht).refresh⟩
    split at hstep
    · cases hstep
      exact hrefreshed.read read
    · cases hstep
      exact hrefreshed
  | get now =>
    cases hstep
    exact h.read now

end Run

/-! ## What is served -/

/-- A served state lies within the windows of an answer; `reads` are the times of the earlier reads. -/
structure Within (a : Answer) (reads : List Int) (now : Int) (r : State) : Prop where
  granted : a.valid = true
  plan_code : r.plan_code = a.plan_code
  plan_name : r.plan_name = a.plan_name
  assets : r.max_assets = max_assets a.limit ∨
    a.offline_license = false ∧ a.issued + offlineGrace < now ∧
      r.max_assets = some ((max_assets a.limit).elim pilotFallbackAssets (fun assets => min assets pilotFallbackAssets))
  expires_at : r.expires_at = utc_from_epoch a.expires_at
  issued_at : r.issued_at = some a.issued
  offline_license : r.offline_license = a.offline_license
  offline_until : r.offline_until = utc_from_epoch a.offline_until
  started : a.issued - rollbackTolerance ≤ now
  monotone : ∀ time ∈ reads, time - rollbackTolerance ≤ now
  unexpired : ∀ expires, r.expires_at = some expires → now ≤ expires
  file : r.offline_license = true → ∃ ends, r.offline_until = some ends ∧ now ≤ ends
  contact : r.offline_license = false → now ≤ a.issued + offlineGrace + pilotFallback
  pilot : r.offline_license = false → a.issued + offlineGrace < now →
    ∃ assets, r.max_assets = some assets ∧ assets ≤ pilotFallbackAssets

/-- The windows that stay open when a valid state is served. -/
theorem windows_valid {current : State} {reference previous_max : Option Int} {now : Int}
    (h : (windows current reference previous_max now).valid = true) :
    current.valid = true ∧
      (∀ latest, previous_max = some latest → latest - rollbackTolerance ≤ now) ∧
      (∀ issued, current.issued_at = some issued → issued - rollbackTolerance ≤ now) ∧
      (∀ expires, current.expires_at = some expires → now ≤ expires) ∧
      (current.offline_license = true ∧ windows current reference previous_max now = current ∧
          (∃ ends, current.offline_until = some ends ∧ now ≤ ends) ∨
        current.offline_license = false ∧ ∀ time, reference = some time →
          now ≤ time + offlineGrace ∧ windows current reference previous_max now = current ∨
          time + offlineGrace < now ∧ now ≤ time + offlineGrace + pilotFallback ∧
            windows current reference previous_max now = current.pilot (time + offlineGrace + pilotFallback)) := by
  unfold windows at h ⊢
  split at h
  · next hinvalid =>
    rw [hinvalid] at h
    cases h
  next hvalid =>
  split at h
  · cases h
  next hlatest =>
  split at h
  · cases h
  next hissued =>
  split at h
  · cases h
  next hexpires =>
  refine ⟨by simpa using hvalid, ?_, ?_, ?_, ?_⟩
  · intro latest hl
    simp only [hl, Option.any_some, decide_eq_true_eq] at hlatest
    omega
  · intro issued hi
    simp only [hi, Option.any_some, decide_eq_true_eq] at hissued
    omega
  · intro expires he
    simp only [he, Option.any_some, decide_eq_true_eq] at hexpires
    omega
  rw [if_neg hvalid, if_neg hlatest, if_neg hissued, if_neg hexpires]
  split at h
  · next hoffline =>
    left
    rw [if_pos hoffline]
    split at h
    · cases h
    · next huntil =>
      rw [if_neg huntil]
      refine ⟨hoffline, rfl, ?_⟩
      cases hends : current.offline_until with
      | none => simp [hends] at huntil
      | some ends =>
        simp only [hends, Option.all_some, decide_eq_true_eq] at huntil
        exact ⟨ends, rfl, by omega⟩
  · next hoffline =>
    right
    rw [if_neg hoffline]
    refine ⟨by simpa using hoffline, ?_⟩
    rintro time rfl
    dsimp only at h ⊢
    split at h
    · next hgrace =>
      rw [if_pos hgrace]
      exact .inl ⟨by omega, rfl⟩
    · next hgrace =>
      rw [if_neg hgrace]
      split at h
      · cases h
      · next hpilot =>
        rw [if_neg hpilot]
        exact .inr ⟨by omega, by omega, rfl⟩

/-- The fields of a state that says what an answer tells. -/
structure Fields (a : Answer) (s : State) : Prop where
  valid : s.valid = a.valid
  plan_code : s.plan_code = a.plan_code
  plan_name : s.plan_name = a.plan_name
  max_assets : s.max_assets = LicenseState.max_assets a.limit
  expires_at : s.expires_at = utc_from_epoch a.expires_at
  offline_license : s.offline_license = a.offline_license
  offline_until : s.offline_until = utc_from_epoch a.offline_until
  issued_at : s.issued_at = some a.issued

theorem says_fields {a : Answer} {s : State} (h : Says a s) : Fields a s := by
  obtain ⟨hsame, hissued⟩ := h
  constructor
  · rw [← hsame]; rfl
  · rw [← hsame]; rfl
  · rw [← hsame]; rfl
  · rw [← hsame]; rfl
  · rw [← hsame]; rfl
  · rw [← hsame]; rfl
  · rw [← hsame]; rfl
  · exact hissued

section Windows

variable {a : Answer} {s : State} {reads : List Int} {now : Int}

/-- What is served as it is lies within the windows. -/
theorem Fields.within (h : Fields a s) (hvalid : s.valid = true) (hstarted : a.issued - rollbackTolerance ≤ now)
    (hmonotone : ∀ time ∈ reads, time - rollbackTolerance ≤ now)
    (hexpires : ∀ expires, s.expires_at = some expires → now ≤ expires)
    (hfile : s.offline_license = true → ∃ ends, s.offline_until = some ends ∧ now ≤ ends)
    (hcontact : s.offline_license = false → now ≤ a.issued + offlineGrace) :
    Within a reads now { s with offline_pilot := false, offline_pilot_until := none } where
  granted := h.valid.symm.trans hvalid
  plan_code := h.plan_code
  plan_name := h.plan_name
  assets := .inl h.max_assets
  expires_at := h.expires_at
  issued_at := h.issued_at
  offline_license := h.offline_license
  offline_until := h.offline_until
  started := hstarted
  monotone := hmonotone
  unexpired := hexpires
  file := hfile
  contact := by
    intro honline
    have hle := hcontact honline
    have hlong : (0 : Int) ≤ pilotFallback := by decide
    omega
  pilot := by
    intro honline hlt
    have hle := hcontact honline
    omega

/-- What is served as a pilot lies within the windows. -/
theorem Fields.within_pilot (h : Fields a s) (hvalid : s.valid = true) (honline : s.offline_license = false)
    (hstarted : a.issued - rollbackTolerance ≤ now) (hmonotone : ∀ time ∈ reads, time - rollbackTolerance ≤ now)
    (hexpires : ∀ expires, s.expires_at = some expires → now ≤ expires) (hlt : a.issued + offlineGrace < now)
    (hle : now ≤ a.issued + offlineGrace + pilotFallback) (ends : Int) :
    Within a reads now (({ s with offline_pilot := false, offline_pilot_until := none } : State).pilot ends) where
  granted := h.valid.symm.trans hvalid
  plan_code := h.plan_code
  plan_name := h.plan_name
  assets := by
    refine .inr ⟨h.offline_license.symm.trans honline, hlt, ?_⟩
    unfold State.pilot
    dsimp only
    rw [h.max_assets]
    cases LicenseState.max_assets a.limit <;> rfl
  expires_at := h.expires_at
  issued_at := h.issued_at
  offline_license := h.offline_license
  offline_until := h.offline_until
  started := hstarted
  monotone := hmonotone
  unexpired := hexpires
  file := fun htrue => absurd (htrue.symm.trans honline) (by simp)
  contact := fun _ => hle
  pilot := by
    intro _ _
    refine ⟨_, rfl, ?_⟩
    dsimp only
    cases s.max_assets with
    | none => exact Int.le_refl _
    | some assets => exact Int.min_le_right _ _

end Windows

section Served

variable {enabled : Bool} {claims : T → Answer} {s : System T} {now : Int}

/-- A license of a hundred assets signed at the time 0. -/
def hundred : Answer :=
  ⟨true, none, none, false, .number 100, none, some 31536000, 0, false, none, by decide⟩

/-- The process that took the license. -/
def taken : System Unit :=
  ⟨(set_license_state true (fun _ => hundred) () 0 0 Proc.initial).1, [()], []⟩

/-- The process that was read two days later. -/
def twoDays : System Unit := taken.read (2 * day)

theorem twoDays_reached : Reach (step true (fun _ => hundred)) (fun _ _ => True) ⟨.initial, [], []⟩ twoDays :=
  have htaken : Reach (step true (fun _ => hundred)) (fun _ _ => True) ⟨.initial, [], []⟩ taken :=
    Reach.step (a := .set () 0 0) .start trivial rfl
  Reach.step (a := .get (2 * day)) htaken trivial rfl

end Served

end Entitlement
