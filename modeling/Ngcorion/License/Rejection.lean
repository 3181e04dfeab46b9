import Ngcorion.License.Entitlement

/-!
# A rejection across workers

Several worker processes with a state each share the state cache and the license file. They
notice a change of these files by their stamps.
-/
namespace Rejection

open LicenseState Entitlement Transition

variable {T : Type}

/-! ## Workers -/

/-- `SYNC_INTERVAL_SECONDS`, in microseconds -/
def syncInterval : Int := 1000000

/-- A process and what it last knew of the two files. -/
structure Worker (T : Type) where
  proc : Proc T
  license_stamp : Option Nat
  state_stamp : Option Nat
  last_sync : Option Int

/-- The workers, the state cache and the license file with their stamps, and the times of the
rejections after which no newer answer was received. The license file is an offline one, or not. -/
structure Host (T : Type) where
  workers : List (Worker T)
  cache : Option (Nat × Cached T)
  license : Option (Nat × Bool)
  writes : Nat
  pending : List Int

def Host.license_stamp (h : Host T) : Option Nat := h.license.map Prod.fst

def Host.state_stamp (h : Host T) : Option Nat := h.cache.map Prod.fst

def Host.cached (h : Host T) : Option (Cached T) := h.cache.map Prod.snd

/-- A write of the cache, which may fail. -/
def Host.save (saved : Bool) (c : Option (Cached T)) (h : Host T) : Host T :=
  match c with
  | none => h
  | some c => if saved then { h with cache := some (h.writes, c), writes := h.writes + 1 } else h

def Host.put (i : Nat) (w : Worker T) (h : Host T) : Host T := { h with workers := h.workers.set i w }

/-- A worker after a function that may write the cache. -/
def Host.write (i : Nat) (w : Worker T) (saved : Bool) (r : Proc T × Option (Cached T)) (h : Host T) : Host T :=
  (h.put i { w with proc := r.1 }).save saved r.2

/-- The server said no. -/
def Host.told (time : Int) (h : Host T) : Host T := { h with pending := time :: h.pending }

/-- A signed answer was received. -/
def Host.received (a : Answer) (h : Host T) : Host T :=
  { h with pending := h.pending.filter fun time => decide (a.issued ≤ time) }

/-- `refresh_license_state` in a worker -/
def Host.refreshed (enabled : Bool) (claims : T → Answer) (i : Nat) (w : Worker T) (outcome : Outcome T)
    (now seen read : Int) (saved : Bool) (h : Host T) : Host T :=
  let r := refresh enabled claims outcome now seen w.proc
  let h := h.write i w saved (if outcome.returns then (get_license_state read r.1).2 else r.1, r.2)
  match outcome with
  | .answered t => h.received (claims t)
  | .rejected => h.told now
  | _ => h

/-- What a worker does in `sync_with_storage`. -/
inductive Branch where
  | early | same | gone | reload | adopt

def branch (w : Worker T) (monotonic : Int) (h : Host T) : Branch :=
  if w.proc.state.valid && w.last_sync.any (fun last => monotonic - last < syncInterval) then .early
  else if h.license_stamp = w.license_stamp ∧ h.state_stamp = w.state_stamp then .same
  else if h.license_stamp = w.license_stamp then .adopt
  else match h.license with
    | none => .gone
    | some (_, true) => .reload
    | some (_, false) => .adopt

/-- `sync_with_storage` in a worker; `outcome` is how the offline license file validates. -/
def Host.synced [DecidableEq T] (enabled : Bool) (claims : T → Answer) (i : Nat) (w : Worker T) (monotonic : Int)
    (verifies : Bool) (outcome : Outcome T) (now seen read : Int) (saved : Bool) (h : Host T) : Host T :=
  let w' : Worker T :=
    { w with license_stamp := h.license_stamp, state_stamp := h.state_stamp, last_sync := some monotonic }
  match branch w monotonic h with
  | .early => h
  | .same => h.put i { w with last_sync := some monotonic }
  | .gone => h.put i { w' with proc := no_license w.proc }
  | .reload => h.refreshed enabled claims i w' outcome now seen read saved
  | .adopt => h.put i { w' with proc := adopt_cached_answer enabled claims verifies h.cached w.proc }

/-- A worker that has just started: the stamps of the files, and what the cache restores. -/
def restarted (enabled : Bool) (claims : T → Answer) (verifies : Bool) (now : Int) (h : Host T) : Worker T :=
  ⟨restore_cached_state enabled claims verifies h.cached now Proc.initial, h.license_stamp, h.state_stamp, none⟩

/-! ## Steps -/

inductive Action (T : Type) where
  | set (worker : Nat) (t : T) (now seen : Int) (saved : Bool)
  | rejected (worker : Nat) (now seen : Int) (saved : Bool)
  | offline (worker : Nat) (seen : Int) (saved : Bool)
  | refresh (worker : Nat) (outcome : Outcome T) (now seen read : Int) (saved : Bool)
  | sync (worker : Nat) (monotonic : Int) (verifies : Bool) (outcome : Outcome T) (now seen read : Int) (saved : Bool)
  | restart (worker : Nat) (verifies : Bool) (now : Int)
  /-- The license file is written, or removed. -/
  | license (file : Option Bool)

/-- The worker that takes a step. -/
def Action.worker : Action T → Option Nat
  | .set i _ _ _ _ => some i
  | .rejected i _ _ _ => some i
  | .offline i _ _ => some i
  | .refresh i _ _ _ _ _ => some i
  | .sync i _ _ _ _ _ _ _ => some i
  | .restart i _ _ => some i
  | .license _ => none

/-- The effect of a step of worker `i`. -/
def act [DecidableEq T] (enabled : Bool) (claims : T → Answer) (i : Nat) (w : Worker T) (h : Host T) : Action T → Host T
  | .set _ t now seen saved =>
    (h.write i w saved (set_license_state enabled claims t now seen w.proc)).received (claims t)
  | .rejected _ now seen saved => (h.write i w saved (mark_license_rejected enabled now seen w.proc)).told now
  | .offline _ seen saved => h.write i w saved (mark_license_server_offline enabled seen w.proc)
  | .refresh _ outcome now seen read saved => h.refreshed enabled claims i w outcome now seen read saved
  | .sync _ monotonic verifies outcome now seen read saved =>
    h.synced enabled claims i w monotonic verifies outcome now seen read saved
  | .restart _ verifies now => h.put i (restarted enabled claims verifies now h)
  | .license _ => h

def step [DecidableEq T] (enabled : Bool) (claims : T → Answer) (h : Host T) (a : Action T) : Option (Host T) :=
  match a with
  | .license file => some { h with license := file.map fun offline => (h.writes, offline), writes := h.writes + 1 }
  | a => a.worker.bind fun i => h.workers[i]?.map fun w => act enabled claims i w h a

/-! ## Stale workers -/

/-- The answer was signed at or before a rejection. -/
def Outdated (a : Answer) (pending : List Int) : Prop := ∃ time ∈ pending, a.issued ≤ time

instance (a : Answer) (pending : List Int) : Decidable (Outdated a pending) :=
  inferInstanceAs (Decidable (∃ time ∈ pending, a.issued ≤ time))

/-- A process has a valid state from a token that was signed at or before a rejection. -/
def Stale (claims : T → Answer) (pending : List Int) (p : Proc T) : Prop :=
  p.state.valid = true ∧ ∃ t ∈ p.signed_token, Outdated (claims t) pending

instance (claims : T → Answer) (pending : List Int) (p : Proc T) : Decidable (Stale claims pending p) :=
  inferInstanceAs (Decidable (_ ∧ ∃ t ∈ p.signed_token, Outdated (claims t) pending))

/-- A refresh that brings no old license back: the answer is newer than every rejection or not a
license, a rejection is written, and a stale worker does not write because of an outage. -/
def Fresh (claims : T → Answer) (pending : List Int) (p : Proc T) (outcome : Outcome T) (saved : Bool) : Prop :=
  match outcome with
  | .answered t => (claims t).valid = true → ¬ Outdated (claims t) pending
  | .rejected => saved = true
  | .unreachable => ¬ Stale claims pending p
  | .notActivated => True
  | .refused => True

instance (claims : T → Answer) (pending : List Int) (p : Proc T) (outcome : Outcome T) (saved : Bool) :
    Decidable (Fresh claims pending p outcome saved) := by
  cases outcome <;> unfold Fresh <;> infer_instance

/-- A look at the storage that leaves no old license in force: the license file is gone, or is validated again
with an outcome that is allowed, or the worker is not stale. -/
def Looks (claims : T → Answer) (h : Host T) (w : Worker T) (monotonic : Int) (outcome : Outcome T) (saved : Bool) : Prop :=
  match branch w monotonic h with
  | .gone => True
  | .reload => Fresh claims h.pending w.proc outcome saved
  | _ => ¬ Stale claims h.pending w.proc

/-- No worker takes or writes an answer that is older than a rejection, and no stale worker writes because of an
outage or keeps its license when it looks at the storage. -/
def Allowed (claims : T → Answer) (h : Host T) (a : Action T) : Prop :=
  ∀ i ∈ a.worker, ∀ w ∈ h.workers[i]?,
    match a with
    | .set _ t _ _ saved => Fresh claims h.pending w.proc (.answered t) saved
    | .rejected _ _ _ saved => Fresh claims h.pending w.proc .rejected saved
    | .offline _ _ saved => Fresh claims h.pending w.proc .unreachable saved
    | .refresh _ outcome _ _ _ saved => Fresh claims h.pending w.proc outcome saved
    | .sync _ monotonic _ outcome _ _ _ saved => Looks claims h w monotonic outcome saved
    | .restart _ _ _ => True
    | .license _ => True

/-- The worker that syncs or restarts. -/
def Action.looks : Action T → Option Nat
  | .sync i _ _ _ _ _ _ _ => some i
  | .restart i _ _ => some i
  | _ => none

section Stale

variable {enabled verifies saved : Bool} {claims : T → Answer} {pending later : List Int} {p : Proc T} {t : T}
  {now seen read : Int} {outcome : Outcome T} {cached : Option (Cached T)} {a : Answer}

theorem Outdated.mono (h : Outdated a pending) (hsub : ∀ time ∈ pending, time ∈ later) : Outdated a later := by
  obtain ⟨time, htime, hle⟩ := h
  exact ⟨time, hsub time htime, hle⟩

/-- A process without a valid state is not stale. -/
theorem not_stale_of_invalid (h : p.state.valid = false) : ¬ Stale claims pending p := by
  rintro ⟨hvalid, -⟩
  rw [h] at hvalid
  cases hvalid

theorem Stale.mono (h : Stale claims pending p) (hsub : ∀ time ∈ pending, time ∈ later) : Stale claims later p := by
  obtain ⟨hvalid, t, ht, hold⟩ := h
  exact ⟨hvalid, t, ht, hold.mono hsub⟩

/-- Staleness is about the validity and the token. -/
theorem stale_congr {q : Proc T} (hvalid : q.state.valid = p.state.valid) (htoken : q.signed_token = p.signed_token) :
    Stale claims pending q ↔ Stale claims pending p := by
  unfold Stale
  rw [hvalid, htoken]

theorem stale_persist : Stale claims pending (persist_state enabled now p).1 ↔ Stale claims pending p :=
  stale_congr (by rw [persist_state_state]) persist_state_token

theorem stale_read : Stale claims pending (get_license_state now p).2 ↔ Stale claims pending p := stale_congr rfl rfl

theorem not_stale_take (h : (claims t).valid = true → ¬ Outdated (claims t) pending) :
    ¬ Stale claims pending (take claims t now p) := by
  rintro ⟨hvalid, t', ht, hold⟩
  cases ht
  exact h hvalid hold

theorem not_stale_offline (h : ¬ Stale claims pending p) :
    ¬ Stale claims pending { p with state := { p.state with offline := true } } :=
  (stale_congr rfl rfl).not.mpr h

/-- What a process writes has no token that is older than a rejection, unless the process is stale. -/
theorem persist_clean (h : ¬ Stale claims pending p) {c : Cached T} (hc : (persist_state enabled now p).2 = some c) :
    ∀ t ∈ c.signed_token, ¬ Outdated (claims t) pending := by
  intro t ht hold
  unfold persist_state at hc
  split at hc
  · cases hc
    dsimp only at ht
    split at ht
    · next hvalid => exact h ⟨hvalid, t, ht, hold⟩
    · cases ht
  · cases hc

/-- A refresh of the right kind leaves the process without an old license. -/
theorem Fresh.process (h : Fresh claims pending p outcome saved) :
    ¬ Stale claims pending (refresh enabled claims outcome now seen p).1 := by
  cases outcome with
  | answered t => exact stale_persist.not.mpr (not_stale_take h)
  | rejected => exact stale_persist.not.mpr (not_stale_of_invalid rfl)
  | unreachable => exact stale_persist.not.mpr (not_stale_offline h)
  | notActivated => exact not_stale_of_invalid rfl
  | refused => exact not_stale_of_invalid rfl

/-- A refresh of the right kind writes no old license. -/
theorem Fresh.writes (h : Fresh claims pending p outcome saved) {c : Cached T}
    (hc : (refresh enabled claims outcome now seen p).2 = some c) : ∀ t ∈ c.signed_token, ¬ Outdated (claims t) pending := by
  cases outcome with
  | answered t => exact persist_clean (not_stale_take h) hc
  | rejected => exact persist_clean (not_stale_of_invalid rfl) hc
  | unreachable => exact persist_clean (not_stale_offline h) hc
  | notActivated => cases hc
  | refused => cases hc

/-- A process that looks at the cache is as it was, or has the license of the cache. -/
theorem adopt_cases [DecidableEq T] (enabled verifies : Bool) (claims : T → Answer) (cached : Option (Cached T))
    (p : Proc T) : adopt_cached_answer enabled claims verifies cached p = p ∨
      enabled = true ∧ ∃ c ∈ cached, ∃ t ∈ c.signed_token,
        (adopt_cached_answer enabled claims verifies cached p).signed_token = some t := by
  unfold adopt_cached_answer
  split
  · split
    · exact .inl rfl
    · next t ht =>
      split
      · exact .inl rfl
      · rw [utc_issued]
        dsimp only
        split
        · exact .inl rfl
        · obtain ⟨c, hc, hct⟩ := Option.bind_eq_some_iff.mp ht
          exact .inr ⟨by assumption, c, hc, t, hct, rfl⟩
  · exact .inl rfl

/-- A process whose token is the cache's is not stale where the cache is not. -/
theorem not_stale_of_cache {q : Proc T} {c : Cached T} (hcache : ∀ t ∈ c.signed_token, ¬ Outdated (claims t) pending)
    (ht : t ∈ c.signed_token) (hq : q.signed_token = some t) : ¬ Stale claims pending q := by
  rintro ⟨-, t', ht', hold⟩
  rw [hq] at ht'
  cases ht'
  exact hcache t ht hold

end Stale

/-! ## Every run -/

/-- The token of the cache is newer than every rejection. -/
def Clean (claims : T → Answer) (h : Host T) : Prop :=
  ∀ c ∈ h.cached, ∀ t ∈ c.signed_token, ¬ Outdated (claims t) h.pending

/-- A valid state is that of the token that is kept. -/
def Told (claims : T → Answer) (p : Proc T) : Prop := ∃ verified, FromToken claims verified p

structure Inv (enabled : Bool) (claims : T → Answer) (h : Host T) : Prop where
  told : ∀ w ∈ h.workers, Told claims w.proc
  clean : enabled = true → Clean claims h

section Host

variable {enabled verifies saved : Bool} {claims : T → Answer} {h : Host T} {i : Nat} {w : Worker T} {p : Proc T}
  {r : Proc T × Option (Cached T)} {now seen read monotonic : Int} {outcome : Outcome T} {a : Answer}

@[simp] theorem save_workers {c : Option (Cached T)} : (h.save saved c).workers = h.workers := by
  unfold Host.save
  split
  · rfl
  · split <;> rfl

@[simp] theorem save_pending {c : Option (Cached T)} : (h.save saved c).pending = h.pending := by
  unfold Host.save
  split
  · rfl
  · split <;> rfl

@[simp] theorem write_workers : (h.write i w saved r).workers = h.workers.set i { w with proc := r.1 } := save_workers

@[simp] theorem write_pending : (h.write i w saved r).pending = h.pending := save_pending

/-- The cache after a write is the old one or what was written. -/
theorem write_cached {c : Cached T} (hc : (h.write i w saved r).cached = some c) : h.cached = some c ∨ r.2 = some c := by
  unfold Host.write Host.save at hc
  split at hc
  · exact .inl hc
  · next c' hr =>
    split at hc
    · exact .inr (hr.trans hc)
    · exact .inl hc

/-- A write that has no old license leaves none in the cache. -/
theorem Clean.write (hclean : Clean claims h) (hr : ∀ c, r.2 = some c → ∀ t ∈ c.signed_token, ¬ Outdated (claims t) h.pending) :
    Clean claims (h.write i w saved r) := by
  intro c hc
  rw [write_pending]
  obtain hold | hnew := write_cached hc
  · exact hclean c hold
  · exact hr c hnew

theorem received_sub (time : Int) (ht : time ∈ (h.received a).pending) : time ∈ h.pending := List.mem_of_mem_filter ht

theorem Clean.received (hclean : Clean claims h) : Clean claims (h.received a) :=
  fun c hc t ht hold => hclean c hc t ht (hold.mono received_sub)

/-- After a rejection that is written the cache has no token. -/
theorem clean_told {c : Cached T} (hc : c.signed_token = none) :
    Clean claims ((h.write i w true (p, some c)).told now) := by
  rintro c' hc' t ht
  cases hc'
  rw [hc] at ht
  cases ht

/-- The process of a worker after a refresh. -/
def refreshedProc (enabled : Bool) (claims : T → Answer) (p : Proc T) (outcome : Outcome T) (now seen read : Int) : Proc T :=
  if outcome.returns then (get_license_state read (refresh enabled claims outcome now seen p).1).2
  else (refresh enabled claims outcome now seen p).1

theorem refreshed_workers : (h.refreshed enabled claims i w outcome now seen read saved).workers =
    h.workers.set i { w with proc := refreshedProc enabled claims w.proc outcome now seen read } := by
  cases outcome with
  | answered t => exact write_workers
  | rejected => exact write_workers
  | unreachable => exact write_workers
  | notActivated => exact write_workers
  | refused => exact write_workers

theorem stale_refreshed {pending : List Int} :
    Stale claims pending (refreshedProc enabled claims p outcome now seen read) ↔
      Stale claims pending (refresh enabled claims outcome now seen p).1 := by
  unfold refreshedProc
  split
  · exact stale_read
  · exact Iff.rfl

/-- A worker is not stale after a refresh of the right kind. -/
theorem Fresh.not_stale (hfresh : Fresh claims h.pending w.proc outcome saved) :
    ¬ Stale claims (h.refreshed enabled claims i w outcome now seen read saved).pending
      (refreshedProc enabled claims w.proc outcome now seen read) := by
  rw [stale_refreshed]
  intro hstale
  cases outcome with
  | answered t => exact hfresh.process ((hstale.mono received_sub).mono (fun time ht => by rwa [write_pending] at ht))
  | rejected => exact not_stale_of_invalid (by unfold refresh mark_license_rejected; rw [persist_state_state]; rfl) hstale
  | unreachable => exact hfresh.process (hstale.mono (fun time ht => by rwa [← write_pending]))
  | notActivated => exact hfresh.process (hstale.mono (fun time ht => ht))
  | refused => exact hfresh.process (hstale.mono (fun time ht => ht))

theorem Clean.refreshed (henabled : enabled = true) (hclean : Clean claims h)
    (hfresh : Fresh claims h.pending w.proc outcome saved) :
    Clean claims (h.refreshed enabled claims i w outcome now seen read saved) := by
  have hwritten (q : Proc T) : Clean claims (h.write i w saved (q, (refresh enabled claims outcome now seen w.proc).2)) :=
    hclean.write (fun c hc => hfresh.writes hc)
  cases outcome with
  | answered t => exact (hwritten _).received
  | rejected =>
    cases henabled
    cases hfresh
    exact clean_told rfl
  | unreachable => exact hwritten _
  | notActivated => exact hwritten _
  | refused => exact hwritten _

/-! ### Told -/

theorem told_read (hp : Told claims p) : Told claims (get_license_state now p).2 := by
  obtain ⟨verified, hfrom⟩ := hp
  exact ⟨verified, hfrom⟩

theorem Told.refreshed (hp : Told claims p) : Told claims (refreshedProc enabled claims p outcome now seen read) := by
  obtain ⟨verified, hfrom⟩ := hp
  have hafter : Told claims (refresh enabled claims outcome now seen p).1 := ⟨_, hfrom.refresh⟩
  unfold refreshedProc
  split
  · exact told_read hafter
  · exact hafter

theorem told_adopt [DecidableEq T] {cached : Option (Cached T)} (hp : Told claims p) :
    Told claims (adopt_cached_answer enabled claims verifies cached p) := by
  obtain ⟨verified, hfrom⟩ := hp
  exact ⟨_, hfrom.adopt⟩

theorem told_initial : Told claims Proc.initial := ⟨[], fromToken_of_invalid rfl⟩

/-! ### Looks at the storage -/

/-- A step changed one worker, whose valid state is that of its token. -/
structure After (claims : T → Answer) (i : Nat) (h h' : Host T) (w : Worker T) : Prop where
  workers : h'.workers = h.workers.set i w
  told : Told claims w.proc

theorem set_self (hw : h.workers[i]? = some w) : h.workers.set i w = h.workers := by
  obtain ⟨hlt, heq⟩ := List.getElem?_eq_some_iff.mp hw
  rw [← heq]
  exact List.set_getElem_self hlt

/-- What a worker holds after it has looked at the storage. -/
theorem synced_after [DecidableEq T] (hw : h.workers[i]? = some w) (htold : Told claims w.proc)
    (hclean : enabled = true → Clean claims h) (hok : Looks claims h w monotonic outcome saved) :
    ∃ w', After claims i h (h.synced enabled claims i w monotonic verifies outcome now seen read saved) w' ∧
      ¬ Stale claims (h.synced enabled claims i w monotonic verifies outcome now seen read saved).pending w'.proc := by
  unfold Looks at hok
  unfold Host.synced
  dsimp only
  cases hbranch : branch w monotonic h with
  | early =>
    rw [hbranch] at hok
    exact ⟨w, ⟨(set_self hw).symm, htold⟩, hok⟩
  | same =>
    rw [hbranch] at hok
    exact ⟨_, ⟨rfl, htold⟩, hok⟩
  | gone => exact ⟨_, ⟨rfl, [], fromToken_of_invalid rfl⟩, not_stale_of_invalid rfl⟩
  | reload =>
    rw [hbranch] at hok
    exact ⟨_, ⟨refreshed_workers, htold.refreshed⟩,
      Fresh.not_stale (w := { w with license_stamp := h.license_stamp, state_stamp := h.state_stamp,
                                      last_sync := some monotonic }) hok⟩
  | adopt =>
    rw [hbranch] at hok
    refine ⟨_, ⟨rfl, told_adopt htold⟩, ?_⟩
    obtain hsame | ⟨henabled, c, hc, t, ht, hq⟩ := adopt_cases enabled verifies claims h.cached w.proc
    · rw [hsame]
      exact hok
    · exact not_stale_of_cache (hclean henabled c hc) ht hq

/-- What a worker holds after a restart. -/
theorem restarted_not_stale (hclean : enabled = true → Clean claims h) :
    ¬ Stale claims h.pending (restarted enabled claims verifies now h).proc := by
  unfold restarted
  dsimp only
  obtain heq | ⟨c, henabled, hc, heq | ⟨t, ht, -, -, heq⟩⟩ :=
    restore_cases enabled verifies claims h.cached now Proc.initial
  · rw [heq]
    exact not_stale_of_invalid rfl
  · rw [heq]
    exact not_stale_of_invalid (by rw [catch_up_state]; rfl)
  · rw [heq]
    exact not_stale_of_cache (hclean henabled c hc) ht rfl

theorem synced_clean [DecidableEq T] (henabled : enabled = true) (hclean : Clean claims h)
    (hok : Looks claims h w monotonic outcome saved) :
    Clean claims (h.synced enabled claims i w monotonic verifies outcome now seen read saved) := by
  unfold Looks at hok
  unfold Host.synced
  dsimp only
  cases hbranch : branch w monotonic h with
  | early => exact hclean
  | same => exact hclean
  | gone => exact hclean
  | reload =>
    rw [hbranch] at hok
    exact hclean.refreshed henabled hok
  | adopt => exact hclean

/-- A step changes at most the worker that takes it. -/
theorem act_after [DecidableEq T] {a : Action T} (hi : a.worker = some i) (hw : h.workers[i]? = some w)
    (htold : Told claims w.proc) (hclean : enabled = true → Clean claims h) (hok : Allowed claims h a) :
    ∃ w', After claims i h (act enabled claims i w h a) w' := by
  obtain ⟨verified, hfrom⟩ := htold
  cases a with
  | set j t now seen saved => exact ⟨_, write_workers, t :: verified, fromToken_take.persist⟩
  | rejected j now seen saved => exact ⟨_, write_workers, verified, fromToken_rejected⟩
  | offline j seen saved => exact ⟨_, write_workers, verified, hfrom.offline⟩
  | refresh j outcome now seen read saved => exact ⟨_, refreshed_workers, Told.refreshed ⟨verified, hfrom⟩⟩
  | sync j monotonic verifies outcome now seen read saved =>
    obtain ⟨w', hafter, -⟩ := synced_after hw ⟨verified, hfrom⟩ hclean (hok i hi w hw)
    exact ⟨w', hafter⟩
  | restart j verifies now =>
    have hinitial : FromToken claims [] (Proc.initial : Proc T) := fromToken_of_invalid rfl
    exact ⟨_, rfl, _, hinitial.restore⟩
  | license file => cases hi

theorem act_clean [DecidableEq T] {a : Action T} (henabled : enabled = true) (hi : a.worker = some i)
    (hw : h.workers[i]? = some w) (hclean : Clean claims h) (hok : Allowed claims h a) :
    Clean claims (act enabled claims i w h a) := by
  have hfresh := hok i hi w hw
  cases a with
  | set j t now seen saved => exact (hclean.write (fun c hc => persist_clean (not_stale_take hfresh) hc)).received
  | rejected j now seen saved =>
    cases henabled
    cases hfresh
    exact clean_told rfl
  | offline j seen saved => exact hclean.write (fun c hc => persist_clean (not_stale_offline hfresh) hc)
  | refresh j outcome now seen read saved => exact hclean.refreshed henabled hfresh
  | sync j monotonic verifies outcome now seen read saved => exact synced_clean henabled hclean hfresh
  | restart j verifies now => exact hclean
  | license file => exact hclean

end Host

section Run

variable {enabled : Bool} {claims : T → Answer} {h h' : Host T} {i : Nat}

/-- The step of a worker. -/
theorem step_of_worker [DecidableEq T] {a : Action T} (hstep : step enabled claims h a = some h') (hi : a.worker = some i) :
    ∃ w, h.workers[i]? = some w ∧ h' = act enabled claims i w h a := by
  cases a with
  | license file => cases hi
  | _ =>
    cases hi
    obtain ⟨w, hw, heq⟩ := Option.map_eq_some_iff.mp hstep
    exact ⟨w, hw, heq.symm⟩

theorem inv_step [DecidableEq T] {a : Action T} (hinv : Inv enabled claims h) (hok : Allowed claims h a)
    (hstep : step enabled claims h a = some h') : Inv enabled claims h' := by
  cases hi : a.worker with
  | none =>
    cases a with
    | license file =>
      cases hstep
      exact ⟨hinv.told, hinv.clean⟩
    | _ => cases hi
  | some i =>
    obtain ⟨w, hw, rfl⟩ := step_of_worker hstep hi
    have htold := hinv.told w (List.mem_of_getElem? hw)
    obtain ⟨w', hafter⟩ := act_after hi hw htold hinv.clean hok
    constructor
    · intro v hv
      rw [hafter.workers] at hv
      obtain hmem | rfl := List.mem_or_eq_of_mem_set hv
      · exact hinv.told v hmem
      · exact hafter.told
    · intro henabled
      exact act_clean henabled hi hw (hinv.clean henabled) hok

/-- A host before its workers have started, whatever the files hold. -/
structure Starts (h : Host T) : Prop where
  workers : ∀ w ∈ h.workers, w.proc = Proc.initial
  pending : h.pending = []

theorem inv_of_starts (hstarts : Starts h) : Inv enabled claims h := by
  constructor
  · intro w hw
    rw [hstarts.workers w hw]
    exact told_initial
  · rintro - c hc t ht ⟨time, htime, -⟩
    rw [hstarts.pending] at htime
    cases htime

/-- In a run of allowed steps, a worker that restarts or syncs has no valid state from a token that was
signed at or before a rejection, unless a newer answer was received. -/
theorem rejection_final [DecidableEq T] {h₀ : Host T} (hstarts : Starts h₀)
    (hreach : Reach (step enabled claims) (Allowed claims) h₀ h) {a : Action T} (hok : Allowed claims h a)
    (hstep : step enabled claims h a = some h') (hlooks : a.looks = some i) :
    ∃ w, h'.workers[i]? = some w ∧ (w.proc.state.valid = true →
      ∃ t, w.proc.signed_token = some t ∧ Says (claims t) w.proc.state ∧ ∀ time ∈ h'.pending, time < (claims t).issued) := by
  have hinv : Inv enabled claims h :=
    hreach.invariant (inv_of_starts hstarts) (fun _ _ _ hinv hok hstep => inv_step hinv hok hstep)
  have hlast : ∃ w w', h.workers[i]? = some w ∧ After claims i h h' w' ∧ ¬ Stale claims h'.pending w'.proc := by
    cases a with
    | sync j monotonic verifies outcome now seen read saved =>
      cases hlooks
      obtain ⟨w, hw, rfl⟩ := step_of_worker hstep rfl
      obtain ⟨w', hafter⟩ := synced_after hw (hinv.told w (List.mem_of_getElem? hw)) hinv.clean (hok i rfl w hw)
      exact ⟨w, w', hw, hafter⟩
    | restart j verifies now =>
      cases hlooks
      obtain ⟨w, hw, rfl⟩ := step_of_worker hstep rfl
      have hinitial : FromToken claims [] (Proc.initial : Proc T) := fromToken_of_invalid rfl
      exact ⟨w, _, hw, ⟨rfl, _, hinitial.restore⟩, restarted_not_stale hinv.clean⟩
    | _ => cases hlooks
  obtain ⟨w, w', hw, hafter, hfresh⟩ := hlast
  refine ⟨w', ?_, ?_⟩
  · rw [hafter.workers]
    exact List.getElem?_set_self (List.getElem?_eq_some_iff.mp hw).1
  · intro hvalid
    obtain ⟨verified, hfrom⟩ := hafter.told
    obtain ⟨t, -, ht, hsays⟩ := hfrom hvalid
    refine ⟨t, ht, hsays, ?_⟩
    intro time htime
    by_contra hle
    exact hfresh ⟨hvalid, t, ht, time, htime, by omega⟩

end Run

/-! ## Runs of three workers -/

/-- Three workers before their start, without files. -/
def three : Host Bool := ⟨List.replicate 3 ⟨Proc.initial, none, none, none⟩, none, none, 0, []⟩

/-- A license signed at the time 0, and one signed 1000 seconds later. -/
def signed (later : Bool) : Answer :=
  ⟨true, none, none, false, .number 100, none, none, if later then 1000 else 0, false, none, by cases later <;> decide⟩

/-- A worker that has just started, without files. -/
def idle : Worker Bool := ⟨Proc.initial, none, none, none⟩

def licensed : Host Bool := act true signed 0 idle three (.set 0 false 0 0 true)

/-- The first worker had a license and was told no. -/
def told : Host Bool :=
  act true signed 0 { idle with proc := (set_license_state true signed false 0 0 Proc.initial).1 } licensed
    (.rejected 0 500000000 500000000 true)

theorem told_reached : Reach (step true signed) (Allowed signed) three told := by
  have hset : Allowed signed three (.set 0 false 0 0 true) := by
    rintro i hi w hw - ⟨time, htime, -⟩
    cases htime
  have hrejected : Allowed signed licensed (.rejected 0 500000000 500000000 true) := fun i hi w hw => rfl
  have hlicensed : Reach (step true signed) (Allowed signed) three licensed := .step .start hset rfl
  exact .step hlicensed hrejected rfl

theorem rejection_final_restart : ∃ w : Worker Bool, (told.put 1 (restarted true signed true 700000000 told)).workers[1]? = some w ∧
    (w.proc.state.valid = true → ∃ t, w.proc.signed_token = some t ∧ Says (signed t) w.proc.state ∧
      ∀ time ∈ told.pending, time < (signed t).issued) :=
  have hstarts : Starts three := ⟨by decide, rfl⟩
  have hok : Allowed signed told (.restart 1 true 700000000) := fun i hi w hw => trivial
  rejection_final hstarts told_reached hok rfl rfl

/-- One worker has a license and another one takes it. The first one is told no, the other one notes an
outage, and a third one restarts: it has the license again. The other one keeps it when it syncs. -/
theorem rejection_undone :
    (∃ h ∈ run (step true signed)
        [.set 0 false 0 0 true, .sync 1 0 true .unreachable 0 0 0 true, .rejected 0 500000000 500000000 true,
          .offline 1 600000000 true, .restart 2 true 700000000] three,
      ∃ w ∈ h.workers[2]?, Stale signed h.pending (Worker.proc w)) ∧
    (∃ h ∈ run (step true signed)
        [.set 0 false 0 0 true, .sync 1 0 true .unreachable 0 0 0 true, .rejected 0 500000000 500000000 true,
          .sync 1 600000000 true .unreachable 0 0 0 true] three,
      ∃ w ∈ h.workers[1]?, Stale signed h.pending (Worker.proc w)) := by
  with_unfolding_all decide

end Rejection
