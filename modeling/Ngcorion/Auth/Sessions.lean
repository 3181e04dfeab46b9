import Ngcorion.Text
import Ngcorion.Dict
import Ngcorion.Transition
import Ngcorion.Auth.ResetCodes

/-!
# Sign-in requests and the sessions they open

The requests that open a session run side by side. Each checks a password, a
code or a session, commits, reads the user's row and the two-step row again, and
issues a token that carries what it read. Passwords and the two-step setup are
changed by other requests in between.
-/
namespace Sessions

open Text Transition
open ResetCodes (AuthSource)

/-! ## Accounts -/

/-- A row of `user_mfa`; a user without a row has the default one. -/
structure MfaRow where
  enabled : Bool
  secret : Option Str
  pendingSecret : Option Str
  lastUsedStep : Option Nat
  recoveryCodes : List Str
  version : Nat

/-- An account with its two-step row, the hashes it has had so far, and the
version at which two-step sign-in was last turned on or reset. `required` is what
the policy says about its role. -/
structure Account where
  hashedPassword : Str
  authSource : AuthSource
  isActive : Bool
  required : Bool
  mfa : MfaRow
  hashes : List Str
  turnedOn : Nat

/-- Password hashing, the directory, one-time codes and the recovery codes. -/
structure Settings where
  hashPassword : Str → Nat → Str
  verifyPassword : Str → Str → Bool
  verify_hash : ∀ password salt, verifyPassword password (hashPassword password salt) = true
  fingerprint : Str → Str
  directoryOn : Bool
  directoryAccepts : Nat → Str → Bool
  totpVerify : Str → Str → Option Nat → Nat → Option Nat
  recoveryMatches : Str → Str → Bool

/-- `mfa.bump` -/
def bump (row : MfaRow) : MfaRow := { row with version := row.version + 1 }

/-- `_clear` -/
def clear (row : MfaRow) : MfaRow :=
  bump { row with enabled := false, secret := none, pendingSecret := none, lastUsedStep := none, recoveryCodes := [] }

/-- `mfa.check_code`: the row with the code used up. -/
def checkCode (cfg : Settings) (row : MfaRow) (code : Str) (now : Nat) : Option MfaRow :=
  match row.enabled, row.secret with
  | true, some secret =>
    match cfg.totpVerify secret (strip code) row.lastUsedStep now with
    | some step => some { row with lastUsedStep := some step }
    | none =>
      match row.recoveryCodes.find? (cfg.recoveryMatches (strip code)) with
      | some stored => some { row with recoveryCodes := row.recoveryCodes.erase stored }
      | none => none
  | _, _ => none

/-! ## Tokens -/

/-- What a request has shown for the session it is given: a password it presented
or set, the session it was made with, the version of the setup whose code was
accepted, and whether it has confirmed a setup. -/
structure Evidence where
  password : Option Str
  session : Option Nat
  code : Option Nat
  confirmed : Bool
  deriving DecidableEq

/-- An access token. `hash` is the hash that `pwv` is the fingerprint of. -/
structure Token where
  id : Nat
  user : Nat
  pwv : Str
  mfv : Nat
  hash : Str
  evidence : Evidence
  deriving DecidableEq

/-- The token between the two steps of a sign-in, with the password of the first one. -/
structure MfaToken where
  user : Nat
  pwv : Str
  mfv : Nat
  hash : Str
  password : Str
  deriving DecidableEq

/-! ## Requests -/

inductive SessionRequest where
  | changeOwnPassword (current new : Str)
  | startSetup (password : Str) (code : Option Str)
  | confirmSetup (code : Str)
  | newCodes (password code : Str)
  | disable (password code : Str)

/-- How far a request has come. -/
inductive Pending where
  /-- `login` has accepted the password. -/
  | password (user : Nat) (password : Str)
  /-- It has found two-step sign-in on; `read` is the hash it has read again. -/
  | challenge (user : Nat) (password : Str) (read : Option Str)
  /-- `login_mfa` has accepted the token of the first step. -/
  | mfa (user : Nat) (token : MfaToken)
  /-- `get_current_user` has accepted the session; `hash` is the row it has loaded. -/
  | session (user : Nat) (token : Token) (hash : Str) (request : SessionRequest) (checked : Bool)
  /-- All that is left is `issue_session`. -/
  | issuing (user : Nat) (evidence : Evidence) (read : Option Str)

def Pending.user : Pending → Nat
  | .password user _ => user
  | .challenge user _ _ => user
  | .mfa user _ => user
  | .session user _ _ _ _ => user
  | .issuing user _ _ => user

structure State where
  accounts : Nat → Account
  tokens : List Token
  mfaTokens : List MfaToken
  revoked : List Nat
  pending : List (Nat × Pending)

inductive Action where
  | login (request user : Nat) (password : Str)
  | readMfa (request : Nat)
  | readHash (request : Nat)
  | issue (request : Nat)
  | loginMfa (request : Nat) (token : MfaToken)
  | code (request : Nat) (code : Str) (now : Nat)
  | withSession (request : Nat) (token : Token) (body : SessionRequest)
  | check (request : Nat) (fresh : Bool)
  | commit (request : Nat) (salt now : Nat) (secret : Str) (codes : List Str)
  /-- A reset by code or by an administrator, or a change through user management. -/
  | passwordReset (user : Nat) (password : Str) (salt : Nat)
  | resetMfa (user : Nat)
  | setAccount (user : Nat) (active required : Bool)
  | revoke (token : Nat)

def finish (request : Nat) (s : State) : State := { s with pending := Dict.erase s.pending request }

def proceed (request : Nat) (p : Pending) (s : State) : State := { s with pending := Dict.set s.pending request p }

def save (user : Nat) (a : Account) (s : State) : State :=
  { s with accounts := fun u => if u = user then a else s.accounts u }

/-- The checks of `get_current_user` on a token that was issued. -/
def accepts (cfg : Settings) (s : State) (t : Token) : Bool :=
  t ∈ s.tokens && t.id ∉ s.revoked && t.pwv = cfg.fingerprint (s.accounts t.user).hashedPassword &&
    t.mfv = (s.accounts t.user).mfa.version && (s.accounts t.user).isActive

/-- `read_mfa_token` on a token that was issued. -/
def acceptsMfa (cfg : Settings) (s : State) (m : MfaToken) : Bool :=
  m ∈ s.mfaTokens && (s.accounts m.user).isActive && m.pwv = cfg.fingerprint (s.accounts m.user).hashedPassword &&
    m.mfv = (s.accounts m.user).mfa.version

/-- The first step of `login`: the password is the directory's or the stored one. -/
def authenticate (cfg : Settings) (a : Account) (user : Nat) (password : Str) : Bool :=
  if cfg.directoryOn && a.authSource ≠ .localAccount then cfg.directoryAccepts user password
  else a.authSource ≠ .apikey && cfg.verifyPassword password a.hashedPassword

/-- `_check_password`, against the row that was loaded or the row as it is now. -/
def ownPassword (cfg : Settings) (a : Account) (user : Nat) (hash password : Str) : Bool :=
  if a.authSource = .ldap then cfg.directoryAccepts user password else cfg.verifyPassword password hash

/-- The check of the password that a request carries. -/
def bodyAccepted (cfg : Settings) (a : Account) (user : Nat) (hash : Str) : SessionRequest → Bool
  | .changeOwnPassword current new =>
    a.authSource = .localAccount && cfg.verifyPassword current hash && !cfg.verifyPassword new hash
  | .startSetup password _ => ownPassword cfg a user hash password
  | .confirmSetup _ => true
  | .newCodes password _ => ownPassword cfg a user hash password
  | .disable password _ => !a.required && ownPassword cfg a user hash password

/-- Set the password of an account. -/
def setPassword (cfg : Settings) (a : Account) (password : Str) (salt : Nat) : Account :=
  let hash := cfg.hashPassword password salt
  { a with hashedPassword := hash, hashes := hash :: a.hashes }

/-- What a request with a session commits: the account after it and, where it
opens a session, what it has shown. -/
def committed (cfg : Settings) (a : Account) (token : Token) (salt now : Nat) (secret : Str) (codes : List Str) :
    SessionRequest → Option (Account × Option Evidence)
  | .changeOwnPassword _ new =>
    some (setPassword cfg a new salt, some ⟨some new, some token.id, none, false⟩)
  | .startSetup _ code =>
    let given := code.bind (fun c => if c = [] then none else some c)
    let used := if a.mfa.enabled then given.bind (fun c => checkCode cfg a.mfa c now) else some a.mfa
    used.map (fun row => ({ a with mfa := { row with pendingSecret := some secret } }, none))
  | .confirmSetup code =>
    a.mfa.pendingSecret.bind fun pending =>
      (cfg.totpVerify pending code none now).map fun step =>
        let row := bump { a.mfa with
          enabled := true, secret := some pending, pendingSecret := none, lastUsedStep := some step,
          recoveryCodes := codes }
        ({ a with mfa := row, turnedOn := if a.mfa.enabled then a.turnedOn else row.version },
          some ⟨none, some token.id, none, true⟩)
  | .newCodes _ code =>
    if a.mfa.enabled then
      (checkCode cfg a.mfa code now).map (fun row => ({ a with mfa := { row with recoveryCodes := codes } }, none))
    else none
  | .disable password code =>
    if a.mfa.enabled then
      (checkCode cfg a.mfa code now).map (fun row =>
        ({ a with mfa := clear row }, some ⟨some password, some token.id, some a.mfa.version, false⟩))
    else none

/-- One step of a request; a request that is refused ends. -/
def step (cfg : Settings) (s : State) : Action → Option State
  | .login request user password =>
    if Dict.get s.pending request ≠ none then none
    else if authenticate cfg (s.accounts user) user password && (s.accounts user).isActive then
      some (proceed request (.password user password) s)
    else some s
  | .readMfa request =>
    match Dict.get s.pending request with
    | some (.password user password) =>
      if (s.accounts user).mfa.enabled then some (proceed request (.challenge user password none) s)
      else some (proceed request (.issuing user ⟨some password, none, none, false⟩ none) s)
    | _ => none
  | .readHash request =>
    match Dict.get s.pending request with
    | some (.challenge user password none) =>
      some (proceed request (.challenge user password (some (s.accounts user).hashedPassword)) s)
    | some (.issuing user evidence none) =>
      some (proceed request (.issuing user evidence (some (s.accounts user).hashedPassword)) s)
    | _ => none
  | .issue request =>
    match Dict.get s.pending request with
    | some (.challenge user password (some hash)) =>
      let token : MfaToken := ⟨user, cfg.fingerprint hash, (s.accounts user).mfa.version, hash, password⟩
      some (finish request { s with mfaTokens := token :: s.mfaTokens })
    | some (.issuing user evidence (some hash)) =>
      let token : Token := ⟨s.tokens.length, user, cfg.fingerprint hash, (s.accounts user).mfa.version, hash, evidence⟩
      some (finish request { s with tokens := token :: s.tokens })
    | _ => none
  | .loginMfa request token =>
    if Dict.get s.pending request ≠ none then none
    else if acceptsMfa cfg s token then some (proceed request (.mfa token.user token) s) else some s
  | .code request code now =>
    match Dict.get s.pending request with
    | some (.mfa user token) =>
      match checkCode cfg (s.accounts user).mfa code now with
      | none => some (finish request s)
      | some row =>
        let evidence : Evidence := ⟨some token.password, none, some row.version, false⟩
        some (proceed request (.issuing user evidence none) (save user { s.accounts user with mfa := row } s))
    | _ => none
  | .withSession request token body =>
    if Dict.get s.pending request ≠ none then none
    else if accepts cfg s token then
      some (proceed request (.session token.user token (s.accounts token.user).hashedPassword body false) s)
    else some s
  | .check request fresh =>
    match Dict.get s.pending request with
    | some (.session user token hash body false) =>
      let hash := if fresh then (s.accounts user).hashedPassword else hash
      if bodyAccepted cfg (s.accounts user) user hash body then
        some (proceed request (.session user token hash body true) s)
      else some (finish request s)
    | _ => none
  | .commit request salt now secret codes =>
    match Dict.get s.pending request with
    | some (.session user token _ body true) =>
      match committed cfg (s.accounts user) token salt now secret codes body with
      | none => some (finish request s)
      | some (a, none) => some (finish request (save user a s))
      | some (a, some evidence) => some (proceed request (.issuing user evidence none) (save user a s))
    | _ => none
  | .passwordReset user password salt => some (save user (setPassword cfg (s.accounts user) password salt) s)
  | .resetMfa user =>
    let row := clear (s.accounts user).mfa
    some (save user { s.accounts user with mfa := row, turnedOn := row.version } s)
  | .setAccount user active required =>
    some (save user { s.accounts user with isActive := active, required := required } s)
  | .revoke token => some { s with revoked := token :: s.revoked }

/-! ## What a session is worth -/

/-- The session goes back to a request that presented the password of a hash: by
itself, or through the session it was made with. -/
inductive Password (cfg : Settings) (tokens : List Token) (hash : Str) : Evidence → Prop where
  | presented {e : Evidence} {p : Str} (h : e.password = some p) (hp : cfg.verifyPassword p hash = true) :
      Password cfg tokens hash e
  | session {e : Evidence} {t : Token} (ht : t ∈ tokens) (h : e.session = some t.id)
      (hs : Password cfg tokens hash t.evidence) : Password cfg tokens hash e

/-- The session goes back to a request that presented a code accepted since
two-step sign-in was turned on or reset, or to the request that confirmed it. -/
inductive Code (tokens : List Token) (turnedOn : Nat) : Evidence → Prop where
  | accepted {e : Evidence} {v : Nat} (h : e.code = some v) (hv : turnedOn ≤ v) : Code tokens turnedOn e
  | confirmed {e : Evidence} (h : e.confirmed = true) : Code tokens turnedOn e
  | session {e : Evidence} {t : Token} (ht : t ∈ tokens) (h : e.session = some t.id)
      (hs : Code tokens turnedOn t.evidence) : Code tokens turnedOn e

/-- The session is worth the credentials that its account has now. -/
def Worth (cfg : Settings) (s : State) (t : Token) : Prop :=
  Password cfg s.tokens (s.accounts t.user).hashedPassword t.evidence ∧
    ((s.accounts t.user).mfa.enabled = true → Code s.tokens (s.accounts t.user).turnedOn t.evidence)

/-! ## Requests that rely on what they have checked -/

/-- The request will read the password again and relies on it being the one it has checked. -/
def Pending.passwordHeld : Pending → Bool
  | .password _ _ => true
  | .challenge _ _ read => read.isNone
  | .mfa _ _ => true
  | .session _ _ _ body _ => match body with
    | .confirmSetup _ => true
    | .disable _ _ => true
    | _ => false
  | .issuing _ _ read => read.isNone

/-- The request will read the two-step version again and relies on it being the one it has checked. -/
def Pending.twoStepHeld : Pending → Bool
  | .session _ _ _ body _ => match body with
    | .changeOwnPassword _ _ => true
    | _ => false
  | .issuing _ evidence _ => !evidence.confirmed
  | _ => false

/-- No request of the user relies on the password that is about to be replaced. -/
def passwordFree (s : State) (user : Nat) : Bool :=
  s.pending.all (fun r => r.2.user ≠ user || !r.2.passwordHeld)

/-- No request of the user relies on the two-step setup that is about to be replaced. -/
def twoStepFree (s : State) (user : Nat) : Bool :=
  s.pending.all (fun r => r.2.user ≠ user || !r.2.twoStepHeld)

/-- A new hash has a fingerprint that no hash of the account had. -/
def newFingerprint (cfg : Settings) (a : Account) (password : Str) (salt : Nat) : Bool :=
  a.hashes.all (fun h => cfg.fingerprint h ≠ cfg.fingerprint (cfg.hashPassword password salt))

/-- A password or a two-step setup is replaced only while no request of the user
is between checking it and reading it again. -/
def undisturbed (cfg : Settings) (s : State) : Action → Bool
  | .commit request salt _ _ _ =>
    match Dict.get s.pending request with
    | some (.session user _ _ (.changeOwnPassword _ new) true) =>
      passwordFree s user && newFingerprint cfg (s.accounts user) new salt
    | some (.session user _ _ (.confirmSetup _) true) => twoStepFree s user
    | some (.session user _ _ (.disable _ _) true) => twoStepFree s user
    | _ => true
  | .passwordReset user password salt =>
    passwordFree s user && newFingerprint cfg (s.accounts user) password salt
  | .resetMfa user => twoStepFree s user
  | _ => true

end Sessions
