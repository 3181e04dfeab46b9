import Ngcorion.Auth.Sessions

/-!
# A session is worth the credentials that opened it

The invariant of undisturbed runs: every token goes back to the password of the
hash it carries, and to a code of the setup of its version; every request under
way still has what it has checked.
-/
namespace SessionWorth

open Text Transition Sessions
open ResetCodes (AuthSource)

section Monotone

variable {cfg : Settings} {tokens tokens' : List Token}

theorem password_mono (hsub : ∀ t ∈ tokens, t ∈ tokens') {hash : Str} {e : Evidence}
    (h : Password cfg tokens hash e) : Password cfg tokens' hash e := by
  induction h with
  | presented he hp => exact .presented he hp
  | session ht he _ ih => exact .session (hsub _ ht) he ih

theorem code_mono (hsub : ∀ t ∈ tokens, t ∈ tokens') {turnedOn : Nat} {e : Evidence} (h : Code tokens turnedOn e) :
    Code tokens' turnedOn e := by
  induction h with
  | accepted he hv => exact .accepted he hv
  | confirmed he => exact .confirmed he
  | session ht he _ ih => exact .session (hsub _ ht) he ih

end Monotone

/-! ## The invariant -/

def Local (a : Account) : Prop := a.authSource = .localAccount

structure AccountOk (cfg : Settings) (a : Account) : Prop where
  stored : a.hashedPassword ∈ a.hashes
  fingerprints : ∀ h ∈ a.hashes, ∀ h' ∈ a.hashes, cfg.fingerprint h = cfg.fingerprint h' → h = h'
  turnedOn : a.turnedOn ≤ a.mfa.version

structure TokenOk (cfg : Settings) (tokens : List Token) (a : Account) (t : Token) : Prop where
  pwv : t.pwv = cfg.fingerprint t.hash
  hash : t.hash ∈ a.hashes
  password : Local a → Password cfg tokens t.hash t.evidence
  mfv : t.mfv ≤ a.mfa.version
  code : t.mfv = a.mfa.version → a.mfa.enabled = true → Code tokens a.turnedOn t.evidence

structure MfaTokenOk (cfg : Settings) (a : Account) (m : MfaToken) : Prop where
  pwv : m.pwv = cfg.fingerprint m.hash
  hash : m.hash ∈ a.hashes
  password : Local a → cfg.verifyPassword m.password m.hash = true

/-- What a request under way still has: the password and the code it has checked
are those of the account, up to what it has already read again. -/
def PendingOk (cfg : Settings) (tokens : List Token) (a : Account) : Pending → Prop
  | .password _ p => Local a → cfg.verifyPassword p a.hashedPassword = true
  | .challenge _ p none => Local a → cfg.verifyPassword p a.hashedPassword = true
  | .challenge _ p (some h) => h ∈ a.hashes ∧ (Local a → cfg.verifyPassword p h = true)
  | .mfa _ m => Local a → cfg.verifyPassword m.password a.hashedPassword = true
  | .session user t h body checked =>
    t ∈ tokens ∧
      ((Pending.session user t h body checked).passwordHeld = true → Local a →
        Password cfg tokens a.hashedPassword t.evidence) ∧
      ((Pending.session user t h body checked).twoStepHeld = true → a.mfa.enabled = true →
        Code tokens a.turnedOn t.evidence)
  | .issuing _ e none =>
    (Local a → Password cfg tokens a.hashedPassword e) ∧
      (e.confirmed = false → a.mfa.enabled = true → Code tokens a.turnedOn e)
  | .issuing _ e (some h) =>
    h ∈ a.hashes ∧ (Local a → Password cfg tokens h e) ∧
      (e.confirmed = false → a.mfa.enabled = true → Code tokens a.turnedOn e)

structure Inv (cfg : Settings) (s : State) : Prop where
  accounts : ∀ u, AccountOk cfg (s.accounts u)
  tokens : ∀ t ∈ s.tokens, TokenOk cfg s.tokens (s.accounts t.user) t
  mfaTokens : ∀ m ∈ s.mfaTokens, MfaTokenOk cfg (s.accounts m.user) m
  pending : ∀ r p, Dict.get s.pending r = some p → PendingOk cfg s.tokens (s.accounts p.user) p

/-- An accepted token carries the stored hash and the current version. -/
theorem accepts_iff {cfg : Settings} {s : State} {t : Token} (h : accepts cfg s t = true) :
    t ∈ s.tokens ∧ t.pwv = cfg.fingerprint (s.accounts t.user).hashedPassword ∧
      t.mfv = (s.accounts t.user).mfa.version := by
  simp only [accepts, Bool.and_eq_true, decide_eq_true_eq] at h
  exact ⟨h.1.1.1.1, h.1.1.2, h.1.2⟩

theorem Inv.hash_eq {cfg : Settings} {s : State} (h : Inv cfg s) {t : Token} (ht : accepts cfg s t = true) :
    t.hash = (s.accounts t.user).hashedPassword := by
  obtain ⟨hmem, hpwv, -⟩ := accepts_iff ht
  have hok := h.tokens t hmem
  have haccount := h.accounts t.user
  exact haccount.fingerprints _ hok.hash _ haccount.stored (hok.pwv.symm.trans hpwv)

theorem Inv.password {cfg : Settings} {s : State} (h : Inv cfg s) {t : Token} (ht : accepts cfg s t = true)
    (hlocal : Local (s.accounts t.user)) : Password cfg s.tokens (s.accounts t.user).hashedPassword t.evidence := by
  rw [← h.hash_eq ht]
  exact (h.tokens t (accepts_iff ht).1).password hlocal

theorem Inv.code {cfg : Settings} {s : State} (h : Inv cfg s) {t : Token} (ht : accepts cfg s t = true)
    (hon : (s.accounts t.user).mfa.enabled = true) : Code s.tokens (s.accounts t.user).turnedOn t.evidence :=
  (h.tokens t (accepts_iff ht).1).code (accepts_iff ht).2.2 hon

/-! ## Requests that go on -/

theorem Inv.proceed {cfg : Settings} {s : State} (h : Inv cfg s) {request : Nat} {p : Pending}
    (hp : PendingOk cfg s.tokens (s.accounts p.user) p) : Inv cfg (proceed request p s) where
  accounts := h.accounts
  tokens := h.tokens
  mfaTokens := h.mfaTokens
  pending := by
    intro r q hq
    simp only [Sessions.proceed, Dict.get_set] at hq
    split at hq
    · cases hq
      exact hp
    · exact h.pending r q hq

theorem Inv.finish {cfg : Settings} {s : State} (h : Inv cfg s) (request : Nat) : Inv cfg (finish request s) where
  accounts := h.accounts
  tokens := h.tokens
  mfaTokens := h.mfaTokens
  pending := by
    intro r q hq
    simp only [Sessions.finish, Dict.get_erase] at hq
    split at hq
    · simp at hq
    · exact h.pending r q hq

theorem Inv.addMfaToken {cfg : Settings} {s : State} (h : Inv cfg s) {m : MfaToken}
    (hm : MfaTokenOk cfg (s.accounts m.user) m) : Inv cfg { s with mfaTokens := m :: s.mfaTokens } where
  accounts := h.accounts
  tokens := h.tokens
  mfaTokens := by
    intro m' hm'
    rcases List.mem_cons.mp hm' with rfl | hm'
    · exact hm
    · exact h.mfaTokens m' hm'
  pending := h.pending

theorem PendingOk.mono {cfg : Settings} {tokens tokens' : List Token} (hsub : ∀ t ∈ tokens, t ∈ tokens') {a : Account}
    {p : Pending} (h : PendingOk cfg tokens a p) : PendingOk cfg tokens' a p := by
  cases p with
  | password user p => exact h
  | challenge user p read => cases read <;> exact h
  | mfa user m => exact h
  | session user t hash body checked =>
    exact ⟨hsub t h.1, fun hheld hlocal => password_mono hsub (h.2.1 hheld hlocal),
      fun hheld hon => code_mono hsub (h.2.2 hheld hon)⟩
  | issuing user e read =>
    cases read with
    | none =>
      exact ⟨fun hlocal => password_mono hsub (h.1 hlocal), fun hnot hon => code_mono hsub (h.2 hnot hon)⟩
    | some hash =>
      exact ⟨h.1, fun hlocal => password_mono hsub (h.2.1 hlocal), fun hnot hon => code_mono hsub (h.2.2 hnot hon)⟩

theorem TokenOk.mono {cfg : Settings} {tokens tokens' : List Token} (hsub : ∀ t ∈ tokens, t ∈ tokens') {a : Account}
    {t : Token} (h : TokenOk cfg tokens a t) : TokenOk cfg tokens' a t where
  pwv := h.pwv
  hash := h.hash
  password := fun hlocal => password_mono hsub (h.password hlocal)
  mfv := h.mfv
  code := fun hmfv hon => code_mono hsub (h.code hmfv hon)

theorem Inv.addToken {cfg : Settings} {s : State} (h : Inv cfg s) {t : Token}
    (ht : TokenOk cfg s.tokens (s.accounts t.user) t) : Inv cfg { s with tokens := t :: s.tokens } := by
  have hsub : ∀ x ∈ s.tokens, x ∈ t :: s.tokens := fun x hx => List.mem_cons_of_mem _ hx
  constructor
  · exact h.accounts
  · intro t' ht'
    rcases List.mem_cons.mp ht' with rfl | ht'
    · exact ht.mono hsub
    · exact (h.tokens t' ht').mono hsub
  · exact h.mfaTokens
  · intro r p hp
    exact (h.pending r p hp).mono hsub

/-! ## Accounts that change -/

/-- What a commit may do to an account while its requests under way are left alone. -/
structure Kept (cfg : Settings) (s : State) (user : Nat) (a a' : Account) : Prop where
  source : a'.authSource = a.authSource
  hashes : ∀ h ∈ a.hashes, h ∈ a'.hashes
  ok : AccountOk cfg a'
  version : a.mfa.version ≤ a'.mfa.version
  setup : a'.mfa.version = a.mfa.version → a'.mfa.enabled = a.mfa.enabled ∧ a'.turnedOn = a.turnedOn
  password : a'.hashedPassword = a.hashedPassword ∨ passwordFree s user = true
  twoStep : a'.mfa.version = a.mfa.version ∨ twoStepFree s user = true

theorem TokenOk.kept {cfg : Settings} {s : State} {user : Nat} {a a' : Account} (hkept : Kept cfg s user a a')
    {t : Token} (h : TokenOk cfg s.tokens a t) : TokenOk cfg s.tokens a' t where
  pwv := h.pwv
  hash := hkept.hashes _ h.hash
  password := fun hlocal => h.password (hkept.source.symm.trans hlocal)
  mfv := Nat.le_trans h.mfv hkept.version
  code := by
    intro hmfv hon
    have hsame : a'.mfa.version = a.mfa.version := Nat.le_antisymm (hmfv ▸ h.mfv) hkept.version
    obtain ⟨henabled, hturned⟩ := hkept.setup hsame
    rw [hturned]
    exact h.code (hmfv.trans hsame) (henabled.symm.trans hon)

theorem PendingOk.kept {cfg : Settings} {s : State} {user : Nat} {a a' : Account} (hkept : Kept cfg s user a a')
    {p : Pending} (hpassword : a'.hashedPassword = a.hashedPassword ∨ p.passwordHeld = false)
    (htwoStep : a'.mfa.version = a.mfa.version ∨ p.twoStepHeld = false) (h : PendingOk cfg s.tokens a p) :
    PendingOk cfg s.tokens a' p := by
  have hlocal : Local a' → Local a := fun hl => hkept.source.symm.trans hl
  have hsetup : p.twoStepHeld = true → a'.mfa.enabled = a.mfa.enabled ∧ a'.turnedOn = a.turnedOn := by
    intro hheld
    exact hkept.setup (htwoStep.resolve_right (by simp [hheld]))
  have hsame : p.passwordHeld = true → a'.hashedPassword = a.hashedPassword := by
    intro hheld
    exact hpassword.resolve_right (by simp [hheld])
  cases p with
  | password user p => exact fun hl => hsame rfl ▸ h (hlocal hl)
  | challenge user p read =>
    cases read with
    | none => exact fun hl => hsame rfl ▸ h (hlocal hl)
    | some hash => exact ⟨hkept.hashes _ h.1, fun hl => h.2 (hlocal hl)⟩
  | mfa user m => exact fun hl => hsame rfl ▸ h (hlocal hl)
  | session user t hash body checked =>
    refine ⟨h.1, ?_, ?_⟩
    · intro hheld hl
      rw [hsame hheld]
      exact h.2.1 hheld (hlocal hl)
    · intro hheld hon
      obtain ⟨henabled, hturned⟩ := hsetup hheld
      rw [hturned]
      exact h.2.2 hheld (henabled.symm.trans hon)
  | issuing user e read =>
    have hcode : (e.confirmed = false → a.mfa.enabled = true → Code s.tokens a.turnedOn e) →
        e.confirmed = false → a'.mfa.enabled = true → Code s.tokens a'.turnedOn e := by
      intro hbefore hnot hon
      obtain ⟨henabled, hturned⟩ := hsetup (by simp [Pending.twoStepHeld, hnot])
      rw [hturned]
      exact hbefore hnot (henabled.symm.trans hon)
    cases read with
    | none => exact ⟨fun hl => hsame rfl ▸ h.1 (hlocal hl), hcode h.2⟩
    | some hash => exact ⟨hkept.hashes _ h.1, fun hl => h.2.1 (hlocal hl), hcode h.2.2⟩

theorem free_of_get {s : State} {user : Nat} {held : Pending → Bool}
    (hfree : s.pending.all (fun r => r.2.user ≠ user || !held r.2) = true) {r : Nat} {p : Pending}
    (hp : Dict.get s.pending r = some p) (huser : p.user = user) : held p = false := by
  have := List.all_eq_true.mp hfree (r, p) (Dict.mem_of_get _ _ _ hp)
  simpa [huser] using this

theorem Inv.save {cfg : Settings} {s : State} (h : Inv cfg s) {user : Nat} {a : Account}
    (hkept : Kept cfg s user (s.accounts user) a) : Inv cfg (save user a s) where
  accounts := by
    intro u
    by_cases hu : u = user
    · simpa [Sessions.save, hu] using hkept.ok
    · simpa [Sessions.save, hu] using h.accounts u
  tokens := by
    intro t ht
    by_cases hu : t.user = user
    · have hok := h.tokens t ht
      rw [hu] at hok
      simpa [Sessions.save, hu] using hok.kept hkept
    · simpa [Sessions.save, hu] using h.tokens t ht
  mfaTokens := by
    intro m hm
    have hok := h.mfaTokens m hm
    by_cases hu : m.user = user
    · rw [hu] at hok
      have hnew : MfaTokenOk cfg a m :=
        ⟨hok.pwv, hkept.hashes _ hok.hash, fun hl => hok.password (hkept.source.symm.trans hl)⟩
      simpa [Sessions.save, hu] using hnew
    · simpa [Sessions.save, hu] using hok
  pending := by
    intro r p hp
    have hok := h.pending r p hp
    by_cases hu : p.user = user
    · rw [hu] at hok
      have hnew : PendingOk cfg s.tokens a p := hok.kept hkept
        (hkept.password.imp_right fun hfree => free_of_get hfree hp hu)
        (hkept.twoStep.imp_right fun hfree => free_of_get hfree hp hu)
      simpa [Sessions.save, hu] using hnew
    · simpa [Sessions.save, hu] using hok

/-- A request that commits a change of its account and goes on. -/
theorem Inv.saveProceed {cfg : Settings} {s : State} (h : Inv cfg s) {user request : Nat} {a : Account}
    (hkept : Kept cfg s user (s.accounts user) a) {p : Pending} (huser : p.user = user)
    (hp : PendingOk cfg s.tokens a p) : Inv cfg (Sessions.proceed request p (Sessions.save user a s)) := by
  apply (h.save hkept).proceed
  have haccount : (Sessions.save user a s).accounts p.user = a := by simp [Sessions.save, huser]
  rw [haccount]
  exact hp

theorem checkCode_spec {cfg : Settings} {row row' : MfaRow} {code : Str} {now : Nat}
    (h : checkCode cfg row code now = some row') : row'.version = row.version ∧ row'.enabled = row.enabled := by
  unfold checkCode at h
  split at h
  · split at h
    · cases h
      exact ⟨rfl, rfl⟩
    · split at h
      · cases h
        exact ⟨rfl, rfl⟩
      · simp at h
  · simp at h

section Kept

variable {cfg : Settings} {s : State} {user : Nat} {a : Account}

/-- The two-step row changes within its version. -/
theorem kept_row (hok : AccountOk cfg a) {row : MfaRow} (hversion : row.version = a.mfa.version)
    (henabled : row.enabled = a.mfa.enabled) : Kept cfg s user a { a with mfa := row } where
  source := rfl
  hashes := fun _ h => h
  ok := ⟨hok.stored, hok.fingerprints, hversion ▸ hok.turnedOn⟩
  version := Nat.le_of_eq hversion.symm
  setup := fun _ => ⟨henabled, rfl⟩
  password := Or.inl rfl
  twoStep := Or.inl hversion

/-- The two-step setup is replaced by one with the next version. -/
theorem kept_bump (hok : AccountOk cfg a) (hfree : twoStepFree s user = true) {row : MfaRow} {turnedOn : Nat}
    (hversion : row.version = a.mfa.version + 1) (hturned : turnedOn ≤ a.mfa.version + 1) :
    Kept cfg s user a { a with mfa := row, turnedOn := turnedOn } where
  source := rfl
  hashes := fun _ h => h
  ok := ⟨hok.stored, hok.fingerprints, hversion ▸ hturned⟩
  version := by
    change a.mfa.version ≤ row.version
    omega
  setup := by
    intro hsame
    change row.version = a.mfa.version at hsame
    omega
  password := Or.inl rfl
  twoStep := Or.inr hfree

theorem kept_setPassword (hok : AccountOk cfg a) (hfree : passwordFree s user = true) {password : Str} {salt : Nat}
    (hnew : newFingerprint cfg a password salt = true) : Kept cfg s user a (setPassword cfg a password salt) where
  source := rfl
  hashes := fun _ h => List.mem_cons_of_mem _ h
  ok := by
    have hdiffer : ∀ h ∈ a.hashes, cfg.fingerprint h ≠ cfg.fingerprint (cfg.hashPassword password salt) := by
      intro h hmem
      simpa using List.all_eq_true.mp hnew h hmem
    refine ⟨List.mem_cons_self, ?_, hok.turnedOn⟩
    intro h hmem h' hmem' hsame
    rcases List.mem_cons.mp hmem with rfl | hmem
    · rcases List.mem_cons.mp hmem' with rfl | hmem'
      · rfl
      · exact absurd hsame.symm (hdiffer h' hmem')
    · rcases List.mem_cons.mp hmem' with rfl | hmem'
      · exact absurd hsame (hdiffer h hmem)
      · exact hok.fingerprints h hmem h' hmem' hsame
  version := Nat.le_refl _
  setup := fun _ => ⟨rfl, rfl⟩
  password := Or.inr hfree
  twoStep := Or.inl rfl

end Kept

/-! ## One step -/

section Step

variable {cfg : Settings} {s s' : State}

theorem Inv.login (h : Inv cfg s) {request user : Nat} {password : Str}
    (hstep : step cfg s (.login request user password) = some s') : Inv cfg s' := by
  unfold step at hstep
  dsimp only at hstep
  split at hstep
  · simp at hstep
  · split at hstep
    · rename_i hauth
      cases hstep
      apply h.proceed
      intro hlocal
      change (s.accounts user).authSource = .localAccount at hlocal
      simp only [authenticate, hlocal, ne_eq, not_true_eq_false, decide_false, Bool.and_false, Bool.false_eq_true,
        if_false, Bool.and_eq_true] at hauth
      exact hauth.1.2
    · cases hstep
      exact h

theorem Inv.readMfa (h : Inv cfg s) {request : Nat} (hstep : step cfg s (.readMfa request) = some s') :
    Inv cfg s' := by
  unfold step at hstep
  dsimp only at hstep
  split at hstep
  · rename_i user password hp
    have hok : Local (s.accounts user) → cfg.verifyPassword password (s.accounts user).hashedPassword = true :=
      h.pending _ _ hp
    split at hstep
    · cases hstep
      exact h.proceed hok
    · rename_i hoff
      cases hstep
      refine h.proceed ⟨fun hlocal => .presented rfl (hok hlocal), ?_⟩
      intro _ hon
      exact absurd hon hoff
  · simp at hstep

theorem Inv.readHash (h : Inv cfg s) {request : Nat} (hstep : step cfg s (.readHash request) = some s') :
    Inv cfg s' := by
  unfold step at hstep
  dsimp only at hstep
  split at hstep
  · rename_i user password hp
    cases hstep
    exact h.proceed ⟨(h.accounts user).stored, h.pending _ _ hp⟩
  · rename_i user evidence hp
    cases hstep
    exact h.proceed ⟨(h.accounts user).stored, h.pending _ _ hp⟩
  · simp at hstep

theorem Inv.issue (h : Inv cfg s) {request : Nat} (hstep : step cfg s (.issue request) = some s') : Inv cfg s' := by
  unfold step at hstep
  dsimp only at hstep
  split at hstep
  · rename_i user password hash hp
    cases hstep
    have hok := h.pending _ _ hp
    exact (h.addMfaToken ⟨rfl, hok.1, hok.2⟩).finish request
  · rename_i user evidence hash hp
    cases hstep
    have hok := h.pending _ _ hp
    refine (h.addToken ⟨rfl, hok.1, hok.2.1, Nat.le_refl _, ?_⟩).finish request
    intro _ hon
    cases hconfirmed : evidence.confirmed with
    | true => exact .confirmed hconfirmed
    | false => exact hok.2.2 hconfirmed hon
  · simp at hstep

theorem Inv.loginMfa (h : Inv cfg s) {request : Nat} {token : MfaToken}
    (hstep : step cfg s (.loginMfa request token) = some s') : Inv cfg s' := by
  unfold step at hstep
  dsimp only at hstep
  split at hstep
  · simp at hstep
  · split at hstep
    · rename_i haccepted
      cases hstep
      simp only [acceptsMfa, Bool.and_eq_true, decide_eq_true_eq] at haccepted
      obtain ⟨⟨⟨hmem, -⟩, hpwv⟩, -⟩ := haccepted
      have hok := h.mfaTokens token hmem
      have haccount := h.accounts token.user
      have hhash := haccount.fingerprints _ hok.hash _ haccount.stored (hok.pwv.symm.trans hpwv)
      refine h.proceed (p := .mfa token.user token) ?_
      intro hlocal
      change cfg.verifyPassword token.password (s.accounts token.user).hashedPassword = true
      rw [← hhash]
      exact hok.password hlocal
    · cases hstep
      exact h

theorem Inv.accepted (h : Inv cfg s) {request now : Nat} {code : Str}
    (hstep : step cfg s (.code request code now) = some s') : Inv cfg s' := by
  unfold step at hstep
  dsimp only at hstep
  split at hstep
  · rename_i user token hp
    have hok : Local (s.accounts user) → cfg.verifyPassword token.password (s.accounts user).hashedPassword = true :=
      h.pending _ _ hp
    split at hstep
    · cases hstep
      exact h.finish request
    · rename_i row hrow
      cases hstep
      obtain ⟨hversion, henabled⟩ := checkCode_spec hrow
      have haccount := h.accounts user
      refine h.saveProceed (kept_row haccount hversion henabled) rfl ⟨?_, ?_⟩
      · intro hlocal
        exact .presented rfl (hok hlocal)
      · intro _ _
        exact .accepted rfl (hversion ▸ haccount.turnedOn)
  · simp at hstep

theorem Inv.withSession (h : Inv cfg s) {request : Nat} {token : Token} {body : SessionRequest}
    (hstep : step cfg s (.withSession request token body) = some s') : Inv cfg s' := by
  unfold step at hstep
  dsimp only at hstep
  split at hstep
  · simp at hstep
  · split at hstep
    · rename_i haccepted
      cases hstep
      exact h.proceed ⟨(accepts_iff haccepted).1, fun _ hlocal => h.password haccepted hlocal,
        fun _ hon => h.code haccepted hon⟩
    · cases hstep
      exact h

theorem Inv.check (h : Inv cfg s) {request : Nat} {fresh : Bool}
    (hstep : step cfg s (.check request fresh) = some s') : Inv cfg s' := by
  unfold step at hstep
  dsimp only at hstep
  split at hstep
  · rename_i user token hash body hp
    generalize (if fresh then (s.accounts user).hashedPassword else hash) = used at hstep
    split at hstep
    · cases hstep
      -- What the request relies on does not depend on the row it has loaded.
      have hok := h.pending _ _ hp
      exact h.proceed (p := .session user token used body true) hok
    · cases hstep
      exact h.finish request
  · simp at hstep

/-- What a request with a session commits leaves the requests under way alone,
and what it has shown is worth the account as it is then. -/
theorem committed_spec (h : Inv cfg s) {request user salt now : Nat} {token : Token} {hash secret : Str}
    {codes : List Str} {body : SessionRequest} (hp : Dict.get s.pending request = some (.session user token hash body true))
    (hfree : undisturbed cfg s (.commit request salt now secret codes) = true) {a : Account} {shown : Option Evidence}
    (hcommit : committed cfg (s.accounts user) token salt now secret codes body = some (a, shown)) :
    Kept cfg s user (s.accounts user) a ∧
      ∀ evidence, shown = some evidence → PendingOk cfg s.tokens a (.issuing user evidence none) := by
  have haccount := h.accounts user
  obtain ⟨hmem, hpassword, hcode⟩ := h.pending _ _ hp
  simp only [undisturbed, hp] at hfree
  cases body with
  | changeOwnPassword current new =>
    simp only [Bool.and_eq_true] at hfree
    cases hcommit
    refine ⟨kept_setPassword haccount hfree.1 hfree.2, ?_⟩
    rintro _ ⟨⟩
    refine ⟨fun _ => .presented rfl (cfg.verify_hash new salt), ?_⟩
    intro _ hon
    exact .session hmem rfl (hcode rfl hon)
  | startSetup password code =>
    simp only [committed, Option.map_eq_some_iff, Prod.mk.injEq] at hcommit
    obtain ⟨row, hrow, rfl, rfl⟩ := hcommit
    have hspec : row.version = (s.accounts user).mfa.version ∧ row.enabled = (s.accounts user).mfa.enabled := by
      split at hrow
      · obtain ⟨c, -, hcheck⟩ := Option.bind_eq_some_iff.mp hrow
        exact checkCode_spec hcheck
      · cases hrow
        exact ⟨rfl, rfl⟩
    exact ⟨kept_row haccount hspec.1 hspec.2, by simp⟩
  | confirmSetup code =>
    simp only [committed, Option.bind_eq_some_iff, Option.map_eq_some_iff, Prod.mk.injEq] at hcommit
    obtain ⟨pending, -, step, -, rfl, rfl⟩ := hcommit
    refine ⟨kept_bump haccount hfree rfl ?_, ?_⟩
    · have hturned := haccount.turnedOn
      simp only [bump]
      split <;> omega
    · rintro _ ⟨⟩
      refine ⟨fun hlocal => .session hmem rfl (hpassword rfl hlocal), ?_⟩
      intro hnot
      simp at hnot
  | newCodes password code =>
    simp only [committed] at hcommit
    split at hcommit
    · simp only [Option.map_eq_some_iff, Prod.mk.injEq] at hcommit
      obtain ⟨row, hrow, rfl, rfl⟩ := hcommit
      obtain ⟨hversion, henabled⟩ := checkCode_spec hrow
      exact ⟨kept_row haccount hversion henabled, by simp⟩
    · simp at hcommit
  | disable password code =>
    simp only [committed] at hcommit
    split at hcommit
    · simp only [Option.map_eq_some_iff, Prod.mk.injEq] at hcommit
      obtain ⟨row, hrow, rfl, rfl⟩ := hcommit
      have hversion := (checkCode_spec hrow).1
      have hturned := haccount.turnedOn
      refine ⟨kept_bump haccount hfree (by simp [clear, bump, hversion]) (by omega), ?_⟩
      rintro _ ⟨⟩
      refine ⟨fun hlocal => .session hmem rfl (hpassword rfl hlocal), ?_⟩
      intro _ hon
      simp [clear, bump] at hon
    · simp at hcommit

theorem Inv.commit (h : Inv cfg s) {request salt now : Nat} {secret : Str} {codes : List Str}
    (hfree : undisturbed cfg s (.commit request salt now secret codes) = true)
    (hstep : step cfg s (.commit request salt now secret codes) = some s') : Inv cfg s' := by
  simp only [Sessions.step] at hstep
  split at hstep
  · rename_i user token hash body hp
    split at hstep
    · cases hstep
      exact h.finish request
    · rename_i a hcommit
      cases hstep
      exact (h.save (committed_spec h hp hfree hcommit).1).finish request
    · rename_i a evidence hcommit
      cases hstep
      obtain ⟨hkept, hissuing⟩ := committed_spec h hp hfree hcommit
      exact h.saveProceed hkept rfl (hissuing evidence rfl)
  · simp at hstep

theorem Inv.step (h : Inv cfg s) {a : Action} (hfree : undisturbed cfg s a = true)
    (hstep : step cfg s a = some s') : Inv cfg s' := by
  cases a with
  | login request user password => exact h.login hstep
  | readMfa request => exact h.readMfa hstep
  | readHash request => exact h.readHash hstep
  | issue request => exact h.issue hstep
  | loginMfa request token => exact h.loginMfa hstep
  | code request code now => exact h.accepted hstep
  | withSession request token body => exact h.withSession hstep
  | check request fresh => exact h.check hstep
  | commit request salt now secret codes => exact h.commit hfree hstep
  | passwordReset user password salt =>
    cases hstep
    simp only [undisturbed, Bool.and_eq_true] at hfree
    exact h.save (kept_setPassword (h.accounts user) hfree.1 hfree.2)
  | resetMfa user =>
    cases hstep
    exact h.save (kept_bump (h.accounts user) hfree rfl (Nat.le_refl _))
  | setAccount user active required =>
    cases hstep
    have haccount := h.accounts user
    exact h.save ⟨rfl, fun _ hmem => hmem, ⟨haccount.stored, haccount.fingerprints, haccount.turnedOn⟩, Nat.le_refl _,
      fun _ => ⟨rfl, rfl⟩, Or.inl rfl, Or.inl rfl⟩
  | revoke token =>
    cases hstep
    exact ⟨h.accounts, h.tokens, h.mfaTokens, h.pending⟩

end Step

/-! ## Whole runs -/

/-- Nobody is signed in; the history of the accounts begins here. -/
def begin (accounts : Nat → Account) : State where
  accounts u := { accounts u with
    hashes := [(accounts u).hashedPassword], turnedOn := (accounts u).mfa.version }
  tokens := []
  mfaTokens := []
  revoked := []
  pending := []

theorem inv_begin (cfg : Settings) (accounts : Nat → Account) : Inv cfg (begin accounts) where
  accounts := by
    intro u
    refine ⟨List.mem_singleton_self _, ?_, Nat.le_refl _⟩
    intro h hmem h' hmem' _
    rw [List.mem_singleton.mp hmem, List.mem_singleton.mp hmem']
  tokens := by simp [begin]
  mfaTokens := by simp [begin]
  pending := by simp [begin]

/-- In every undisturbed run every accepted token of a local account goes back to
the password that is stored then and, with two-step sign-in on, to a code
accepted since it was turned on or reset, or to its confirmation. -/
theorem session_worth (cfg : Settings) (accounts : Nat → Account) {s : State}
    (hs : Reach (step cfg) (fun s a => undisturbed cfg s a = true) (begin accounts) s) {t : Token}
    (ht : accepts cfg s t = true) (hlocal : (s.accounts t.user).authSource = .localAccount) : Worth cfg s t := by
  have hinv : Inv cfg s := hs.invariant (inv_begin cfg accounts) fun _ _ _ hinv hfree hstep => hinv.step hfree hstep
  exact ⟨hinv.password ht hlocal, hinv.code ht⟩

def settings : Settings where
  hashPassword p salt := p ++ ':' :: List.replicate salt 's'
  verifyPassword p hash := startsWith (p ++ [':']) hash
  verify_hash p salt := (startsWith_iff _ _).mpr ⟨List.replicate salt 's', by simp⟩
  fingerprint hash := hash
  directoryOn := false
  directoryAccepts _ _ := false
  totpVerify secret code last now := if secret = code ∧ last.all (fun l => l < now) then some now else none
  recoveryMatches code stored := code = stored

def someone (_ : Nat) : Account :=
  ⟨lit "old:", .localAccount, true, false, ⟨false, none, none, none, [], 0⟩, [], 0⟩

def firstToken : Token := ⟨0, 1, lit "old:", 0, lit "old:", ⟨some (lit "old"), none, none, false⟩⟩

/-- The sign-in with a code, after the same user has turned two-step sign-in on. -/
def withCode : List Action :=
  [.login 1 1 (lit "old"), .readMfa 1, .readHash 1, .issue 1,
    .withSession 2 firstToken (.startSetup (lit "old") none), .check 2 false, .commit 2 0 5 (lit "123456") [],
    .withSession 3 firstToken (.confirmSetup (lit "123456")), .check 3 false, .commit 3 0 6 [] [], .readHash 3, .issue 3,
    .login 4 1 (lit "old"), .readMfa 4, .readHash 4, .issue 4,
    .loginMfa 5 ⟨1, lit "old:", 1, lit "old:", lit "old"⟩, .code 5 (lit "123456") 7, .readHash 5, .issue 5]

def codedToken : Token := ⟨2, 1, lit "old:", 1, lit "old:", ⟨some (lit "old"), none, some 1, false⟩⟩

theorem coded_session_worth :
    ∃ s, Reach (step settings) (fun s a => undisturbed settings s a = true) (begin someone) s ∧
      accepts settings s codedToken = true ∧ (s.accounts 1).mfa.enabled = true ∧ Worth settings s codedToken := by
  have hrun : (run (fun s a => if undisturbed settings s a then step settings s a else none) withCode
      (begin someone)).any (fun s => accepts settings s codedToken && (s.accounts 1).mfa.enabled &&
        (s.accounts 1).authSource = .localAccount) = true := by with_unfolding_all decide
  obtain ⟨s, hs, hlast⟩ := (Option.any_eq_true _ _).mp hrun
  simp only [Bool.and_eq_true, decide_eq_true_eq] at hlast
  obtain ⟨⟨haccepted, hon⟩, hlocal⟩ := hlast
  have hreach : Reach (step settings) (fun s a => undisturbed settings s a = true) (begin someone) s :=
    Reach.run (fun _ _ hok => hok) _ .start hs
  exact ⟨s, hreach, haccepted, hon, session_worth settings someone hreach haccepted hlocal⟩

/-- The password is reset between its check and the issue of the token. -/
def racingReset : List Action :=
  [.login 1 1 (lit "old"), .passwordReset 1 (lit "new") 1, .readMfa 1, .readHash 1, .issue 1]

def staleToken : Token := ⟨0, 1, lit "new:s", 0, lit "new:s", ⟨some (lit "old"), none, none, false⟩⟩

/-- A sign-in with the old password leaves a session that is accepted after the reset. -/
theorem old_password_accepted :
    ∃ s, Reach (step settings) (fun _ _ => True) (begin someone) s ∧ accepts settings s staleToken = true ∧
      (s.accounts 1).authSource = .localAccount ∧ ¬ Worth settings s staleToken := by
  have hrun : (run (fun s a => if true then step settings s a else none) racingReset (begin someone)).any
      (fun s => accepts settings s staleToken && (s.accounts 1).authSource = .localAccount &&
        (s.accounts 1).hashedPassword = lit "new:s") = true := by with_unfolding_all decide
  obtain ⟨s, hs, hlast⟩ := (Option.any_eq_true _ _).mp hrun
  simp only [Bool.and_eq_true, decide_eq_true_eq] at hlast
  obtain ⟨⟨haccepted, hlocal⟩, hhash⟩ := hlast
  refine ⟨s, Reach.run (fun _ _ _ => trivial) _ .start hs, haccepted, hlocal, ?_⟩
  rintro ⟨hpassword, -⟩
  change Password settings s.tokens (s.accounts 1).hashedPassword staleToken.evidence at hpassword
  rw [hhash] at hpassword
  have hwrong : settings.verifyPassword (lit "old") (lit "new:s") = false := by with_unfolding_all decide
  generalize he : staleToken.evidence = e at hpassword
  cases hpassword with
  | presented h hp =>
    rw [← he] at h
    cases h
    rw [hwrong] at hp
    simp at hp
  | session _ h _ =>
    rw [← he] at h
    simp [staleToken] at h

end SessionWorth
