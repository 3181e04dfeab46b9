import Ngcorion.Auth.Totp
import Ngcorion.Transition
import Mathlib.Data.List.Perm.Subperm

/-!
# Two-step sign-in

The row of one user, the requests that change it, and a log of what they used up
and made. Every request holds the lock of the row, so they come one after another.
-/
namespace TwoStep

open Text Octets Refusal Transition Totp

/-! ## The row and its code check -/

/-- A row of `user_mfa`, without the dates. -/
structure UserMfa where
  enabled : Bool
  secret : Option Bytes
  pendingSecret : Option Bytes
  lastUsedStep : Option Int
  recoveryCodes : List Stored
  version : Nat
  deriving DecidableEq

/-- What an accepted code uses up. -/
inductive Used where
  | totp (step : Int)
  | recovery (stored : Stored)
  deriving DecidableEq

/-- What `check_code` answers. -/
def Used.how : Used → Str
  | .totp _ => lit "totp"
  | .recovery _ => lit "recovery"

section
variable (p : Primitives)

def checkRecovery (row : UserMfa) (code : Str) : Option Used × UserMfa :=
  match row.recoveryCodes.find? (recoveryCodeMatches p code) with
  | none => (none, row)
  | some stored => (some (.recovery stored), { row with recoveryCodes := row.recoveryCodes.erase stored })

/-- `check_code` -/
def checkCode (row : UserMfa) (code : Str) (seconds : UInt64) : Except Raised (Option Used × UserMfa) :=
  match row.enabled, row.secret with
  | true, some secret => do
    match ← verify p secret (strip code) row.lastUsedStep seconds with
    | some step => pure (some (.totp step), { row with lastUsedStep := some step })
    | none => pure (checkRecovery p row (strip code))
  | _, _ => .ok (none, row)

/-- A set of recovery codes as it is stored: each code with a salt of its own. -/
def newRecoveryCodes (drawn : List (Bytes × Str)) : List Stored := drawn.map (fun d => hashRecoveryCode p d.1 d.2)

/-! ## The requests -/

inductive Event where
  | used (code : Str) (what : Used)
  /-- A secret comes into force with its first step, and a set of recovery codes. -/
  | confirmed (step : Int) (codes : List Stored)
  | made (codes : List Stored)
  | cleared

/-- The row, and the log with the last event first. -/
structure State where
  row : UserMfa
  log : List Event

/-- The requests on a user's row, with the time and what is drawn at random. -/
inductive Action where
  | login (code : Str) (seconds : UInt64)
  | startSetup (secret : Bytes) (code : Str) (seconds : UInt64)
  | confirmSetup (code : Str) (seconds : UInt64) (drawn : List (Bytes × Str))
  | newCodes (code : Str) (seconds : UInt64) (drawn : List (Bytes × Str))
  | disable (code : Str) (seconds : UInt64)
  | resetUserMfa

/-- The state after a code was accepted. -/
def accept (s : State) (code : Str) (seconds : UInt64) : Option State :=
  match checkCode p s.row code seconds with
  | .ok (some what, row) => some ⟨row, .used code what :: s.log⟩
  | _ => none

def setPending (secret : Bytes) (s : State) : State := { s with row := { s.row with pendingSecret := some secret } }

/-- The first code of the pending secret puts it in force. -/
def confirm (s : State) (pending : Bytes) (step : Int) (codes : List Stored) : State :=
  ⟨⟨true, some pending, none, some step, codes, s.row.version + 1⟩, .confirmed step codes :: s.log⟩

def replaceCodes (codes : List Stored) (s : State) : State :=
  ⟨{ s.row with recoveryCodes := codes }, .made codes :: s.log⟩

/-- `_clear` -/
def clear (s : State) : State := ⟨⟨false, none, none, none, [], s.row.version + 1⟩, .cleared :: s.log⟩

/-- A request whose code is refused, or that raises, leaves the row as it is. -/
def serve (s : State) : Action → State
  | .login code seconds => (accept p s code seconds).getD s
  | .startSetup secret code seconds =>
    if s.row.enabled then
      if code = [] then s else ((accept p s code seconds).map (setPending secret)).getD s
    else setPending secret s
  | .confirmSetup code seconds drawn =>
    match s.row.pendingSecret with
    | none => s
    | some pending =>
      match verify p pending code none seconds with
      | .ok (some step) => confirm s pending step (newRecoveryCodes p drawn)
      | _ => s
  | .newCodes code seconds drawn =>
    if s.row.enabled then ((accept p s code seconds).map (replaceCodes (newRecoveryCodes p drawn))).getD s else s
  | .disable code seconds => if s.row.enabled then ((accept p s code seconds).map clear).getD s else s
  | .resetUserMfa => clear s

def step (s : State) (a : Action) : Option State := some (serve p s a)

end

/-- An account that has never set it up. -/
def begin : State := ⟨⟨false, none, none, none, [], 0⟩, []⟩

/-! ## What the log says -/

/-- The steps accepted for the secret in force. -/
def stepsAccepted : List Event → List Int
  | [] => []
  | .used _ (.totp step) :: log => step :: stepsAccepted log
  | .used _ (.recovery _) :: log => stepsAccepted log
  | .confirmed step _ :: _ => [step]
  | .made _ :: log => stepsAccepted log
  | .cleared :: _ => []

/-- The set of recovery codes made last. -/
def currentSet : List Event → List Stored
  | [] => []
  | .used _ _ :: log => currentSet log
  | .confirmed _ codes :: _ => codes
  | .made codes :: _ => codes
  | .cleared :: _ => []

/-- The recovery codes accepted since the last set was made, as typed and as stored. -/
def recoveries : List Event → List (Str × Stored)
  | .used code (.recovery stored) :: log => (code, stored) :: recoveries log
  | .used _ (.totp _) :: log => recoveries log
  | _ => []

/-- How often a recovery code of the last set was accepted, in any spelling. -/
def timesAccepted (p : Primitives) (log : List Event) (code : Str) : Nat :=
  (recoveries log).countP (fun e => normal p e.1 = normal p code)

/-- No code check raises: two-step sign-in is off, the code has not the form of a code
of the app, or no step makes the comparison raise. -/
def harmless (p : Primitives) (row : UserMfa) (code : Str) (seconds : UInt64) : Bool :=
  !row.enabled || row.secret.isNone || !wellFormed p code || quiet code row.lastUsedStep seconds

/-- A code that would be accepted now: the code of a new step around now, or a
recovery code that the last set has more often than it was accepted. -/
structure OncePerCode (p : Primitives) (s : State) : Prop where
  totp : ∀ code seconds step row, checkCode p s.row code seconds = .ok (some (.totp step), row) →
    ∃ secret, s.row.secret = some secret ∧ hotp p secret step = .ok (cleaned code) ∧
      stepAt seconds - 1 ≤ step ∧ step ≤ stepAt seconds + 1 ∧ ∀ before ∈ stepsAccepted s.log, before < step
  recovery : ∀ code seconds stored row, checkCode p s.row code seconds = .ok (some (.recovery stored), row) →
    stored ∈ currentSet s.log ∧ recoveryCodeMatches p code stored = true ∧
      timesAccepted p s.log code < (currentSet s.log).countP (recoveryCodeMatches p code)

section
variable {p : Primitives} {s s' : State} {code : Str} {seconds : UInt64}

theorem checkCode_totp {step : Int} {row row' : UserMfa}
    (h : checkCode p row code seconds = .ok (some (.totp step), row')) :
    row' = { row with lastUsedStep := some step } ∧ ∃ secret, row.secret = some secret ∧
      verify p secret (strip code) row.lastUsedStep seconds = .ok (some step) := by
  unfold checkCode at h
  split at h
  · rename_i secret _ hsecret
    simp only [bind_ok] at h
    obtain ⟨found, hfound, h⟩ := h
    split at h
    · cases h
      exact ⟨rfl, secret, hsecret, hfound⟩
    · simp only [checkRecovery, pure_ok] at h
      split at h <;> simp at h
  · simp at h

theorem checkCode_recovery {stored : Stored} {row row' : UserMfa}
    (h : checkCode p row code seconds = .ok (some (.recovery stored), row')) :
    row' = { row with recoveryCodes := row.recoveryCodes.erase stored } ∧
      stored ∈ row.recoveryCodes ∧ recoveryCodeMatches p code stored = true := by
  unfold checkCode at h
  split at h
  · simp only [bind_ok] at h
    obtain ⟨found, -, h⟩ := h
    split at h
    · simp at h
    · simp only [checkRecovery, pure_ok] at h
      split at h
      · simp at h
      · rename_i hstored
        cases h
        rw [matches_strip] at hstored
        exact ⟨rfl, List.mem_of_find?_eq_some hstored, List.find?_some hstored⟩
  · simp at h

theorem checkCode_returns (row : UserMfa) :
    (∃ r, checkCode p row code seconds = .ok r) ↔ harmless p row code seconds = true := by
  unfold checkCode
  split
  · rename_i secret henabled hsecret
    have hverify := verify_returns p secret (strip code) row.lastUsedStep seconds
    simp only [wellFormed, quiet, cleaned_strip] at hverify
    simp only [harmless, henabled, hsecret, Bool.not_true, Option.isNone_some, Bool.false_or, wellFormed, quiet]
    rw [← hverify]
    constructor
    · rintro ⟨r, hr⟩
      simp only [bind_ok] at hr
      obtain ⟨found, hfound, -⟩ := hr
      exact ⟨found, hfound⟩
    · rintro ⟨found, hfound⟩
      cases found <;> simp [hfound, bind, Except.bind, pure, Except.pure]
  · rename_i hoff
    simp only [harmless, Except.ok.injEq, exists_eq', true_iff, Bool.or_eq_true, Bool.not_eq_true']
    cases henabled : row.enabled with
    | false => simp
    | true =>
      cases hsecret : row.secret with
      | none => simp
      | some secret => exact absurd hsecret (hoff secret henabled)

/-! ## What every request keeps -/

structure Inv (p : Primitives) (s : State) : Prop where
  steps : ∀ x ∈ stepsAccepted s.log, ∃ last ∈ s.row.lastUsedStep, x ≤ last
  spelled : ∀ e ∈ recoveries s.log, recoveryCodeMatches p e.1 e.2 = true
  codes : List.Subperm ((recoveries s.log).map Prod.snd ++ s.row.recoveryCodes) (currentSet s.log)

theorem inv_begin : Inv p begin := ⟨by simp [begin, stepsAccepted], by simp [begin, recoveries], List.Subperm.refl _⟩

theorem inv_accept (h : Inv p s) (ha : accept p s code seconds = some s') : Inv p s' := by
  unfold accept at ha
  split at ha
  · rename_i what row hcheck
    cases ha
    cases what with
    | totp step =>
      obtain ⟨rfl, secret, -, hverify⟩ := checkCode_totp hcheck
      obtain ⟨-, -, hnew, -⟩ := verify_some hverify
      refine ⟨?_, h.spelled, h.codes⟩
      intro x hx
      refine ⟨step, rfl, ?_⟩
      rcases List.mem_cons.mp hx with rfl | hx
      · exact le_refl _
      · obtain ⟨last, hlast, hle⟩ := h.steps x hx
        have := hnew last hlast
        omega
    | recovery stored =>
      obtain ⟨rfl, hmem, hmatch⟩ := checkCode_recovery hcheck
      refine ⟨h.steps, ?_, ?_⟩
      · intro e he
        rcases List.mem_cons.mp he with rfl | he
        · exact hmatch
        · exact h.spelled e he
      · -- The entry moves from the codes that are left to those accepted.
        have hmoved : List.Perm ((recoveries s.log).map Prod.snd ++ s.row.recoveryCodes)
            (stored :: ((recoveries s.log).map Prod.snd ++ s.row.recoveryCodes.erase stored)) :=
          ((List.perm_cons_erase hmem).append_left _).trans List.perm_middle
        exact hmoved.symm.subperm.trans h.codes
  · simp at ha

theorem inv_setPending (h : Inv p s) (secret : Bytes) : Inv p (setPending secret s) := ⟨h.steps, h.spelled, h.codes⟩

theorem inv_confirm (pending : Bytes) (step : Int) (codes : List Stored) : Inv p (confirm s pending step codes) := by
  refine ⟨?_, by simp [confirm, recoveries], List.Subperm.refl _⟩
  intro x hx
  exact ⟨step, rfl, by simp_all [confirm, stepsAccepted]⟩

theorem inv_replaceCodes (h : Inv p s) (codes : List Stored) : Inv p (replaceCodes codes s) :=
  ⟨h.steps, by simp [replaceCodes, recoveries], List.Subperm.refl _⟩

theorem inv_clear : Inv p (clear s) :=
  ⟨by simp [clear, stepsAccepted], by simp [clear, recoveries], List.Subperm.refl _⟩

/-- What a request makes of the state after an accepted code. -/
theorem inv_accepted (h : Inv p s) {next : State → State} (hnext : ∀ t, Inv p t → Inv p (next t)) :
    Inv p (((accept p s code seconds).map next).getD s) := by
  cases haccept : accept p s code seconds with
  | none => exact h
  | some t => exact hnext t (inv_accept h haccept)

theorem inv_serve (h : Inv p s) (a : Action) : Inv p (serve p s a) := by
  cases a with
  | login code seconds =>
    cases haccept : accept p s code seconds with
    | none => simpa [serve, haccept] using h
    | some t => simpa [serve, haccept] using inv_accept h haccept
  | startSetup secret code seconds =>
    simp only [serve]
    split
    · split
      · exact h
      · exact inv_accepted h (fun t ht => inv_setPending ht secret)
    · exact inv_setPending h secret
  | confirmSetup code seconds drawn =>
    simp only [serve]
    split
    · exact h
    · split
      · exact inv_confirm _ _ _
      · exact h
  | newCodes code seconds drawn =>
    simp only [serve]
    split
    · exact inv_accepted h (fun t ht => inv_replaceCodes ht _)
    · exact h
  | disable code seconds =>
    simp only [serve]
    split
    · exact inv_accepted h (fun t _ => inv_clear)
    · exact h
  | resetUserMfa => exact inv_clear

theorem inv_of_reach (h : Reach (step p) (fun _ _ => True) begin s) : Inv p s := by
  apply h.invariant
  · exact inv_begin
  · intro s a s' hs _ htaken
    cases htaken
    exact inv_serve hs a

/-- The codes accepted in a spelling of this one match what this one matches. -/
theorem timesAccepted_le (h : Inv p s) (code : Str) :
    timesAccepted p s.log code ≤ ((recoveries s.log).map Prod.snd).countP (recoveryCodeMatches p code) := by
  rw [timesAccepted, List.countP_map]
  apply List.countP_mono_left
  intro e he hnormal
  rw [decide_eq_true_eq] at hnormal
  rw [Function.comp, ← matches_of_normal hnormal]
  exact h.spelled e he

theorem once_of_inv (h : Inv p s) : OncePerCode p s where
  totp := by
    intro code seconds step row hcheck
    obtain ⟨-, secret, hsecret, hverify⟩ := checkCode_totp hcheck
    obtain ⟨hlow, hhigh, hnew, hcode⟩ := verify_some hverify
    rw [cleaned_strip] at hcode
    refine ⟨secret, hsecret, hcode, hlow, hhigh, ?_⟩
    intro before hbefore
    obtain ⟨last, hlast, hle⟩ := h.steps before hbefore
    have := hnew last hlast
    omega
  recovery := by
    intro code seconds stored row hcheck
    obtain ⟨-, hmem, hmatch⟩ := checkCode_recovery hcheck
    refine ⟨h.codes.subset (List.mem_append_right _ hmem), hmatch, ?_⟩
    have hleft : 0 < s.row.recoveryCodes.countP (recoveryCodeMatches p code) :=
      List.countP_pos_iff.mpr ⟨stored, hmem, hmatch⟩
    calc timesAccepted p s.log code
        ≤ ((recoveries s.log).map Prod.snd).countP (recoveryCodeMatches p code) := timesAccepted_le h code
      _ < ((recoveries s.log).map Prod.snd ++ s.row.recoveryCodes).countP (recoveryCodeMatches p code) := by
        rw [List.countP_append]
        omega
      _ ≤ (currentSet s.log).countP (recoveryCodeMatches p code) := h.codes.countP_le _

/-- In every state that requests lead to, a code is accepted once, and the check of a
code returns exactly where it is harmless. -/
theorem each_code_once (p : Primitives) {s : State} (h : Reach (step p) (fun _ _ => True) begin s) :
    OncePerCode p s ∧ ∀ code seconds, (∃ r, checkCode p s.row code seconds = .ok r) ↔
      harmless p s.row code seconds = true :=
  ⟨once_of_inv (inv_of_reach h), fun _ _ => checkCode_returns s.row⟩

end

/-- The key of the test vectors of the RFC. -/
def rfcKey : Bytes := pack 20 0x3132333435363738393031323334353637383930

/-- The hashes of the test vectors for the counters 0 to 3. -/
def rfcHash (key message : Bytes) : Bytes :=
  if key = rfcKey then
    match unpack message with
    | 0 => pack 20 0xcc93cf18508d94934c64b65d8ba7667fb7cde4b0
    | 1 => pack 20 0x75a48a19d4cbe100644e8ac1397eea747a2d33ab
    | 2 => pack 20 0x0bacb7fa082fef30782211938bc1c5e70416ff44
    | 3 => pack 20 0x66c28227d03a2d5529262ff016a1e6ef76557ece
    | _ => []
  else []

def someSalt : Bytes := pack 16 0x000102030405060708090a0b0c0d0e0f

/-- The derived key of the recovery code `7KQ2-M9XD` under one salt. -/
def someKey (password salt : Bytes) (rounds : Nat) : Bytes :=
  if unpack password = 0x374b51324d395844 ∧ salt = someSalt ∧ rounds = pbkdf2Rounds then
    pack 32 0xc9d854784fefaa9c5d2f5b278b556c32b658cced2c060927d27ee0fec5416060
  else []

/-- The functions on the inputs below; of the digits of Unicode those of ASCII and of Arabic. -/
def vectors : Primitives where
  isdigit c := c.isDigit || (1632 ≤ c.toNat && c.toNat ≤ 1641)
  upper := List.map Char.toUpper
  hmacSha1 := rfcHash
  pbkdf2 := someKey

/-- The setup with the code of the first step, a login with the next one and one with the recovery code. -/
def signIns : List Action :=
  [.startSetup rfcKey [] 10, .confirmSetup (lit "287082") 59 [(someSalt, lit "7KQ2-M9XD")],
    .login (lit " 359 152 ") 60, .login (lit "287082") 61, .login (lit "7kq2m9xd") 62]

theorem rfc_codes_once :
    ∃ s, Reach (step vectors) (fun _ _ => True) begin s ∧ stepsAccepted s.log = [2, 1] ∧
      timesAccepted vectors s.log (lit "7KQ2-M9XD") = 1 ∧ OncePerCode vectors s ∧
      ∀ code seconds, (∃ r, checkCode vectors s.row code seconds = .ok r) ↔
        harmless vectors s.row code seconds = true := by
  have hrun : (run (fun s a => if true then step vectors s a else none) signIns begin).any
      (fun s => stepsAccepted s.log = [2, 1] && timesAccepted vectors s.log (lit "7KQ2-M9XD") = 1) = true := by
    with_unfolding_all decide
  obtain ⟨s, hs, hlast⟩ := (Option.any_eq_true _ _).mp hrun
  simp only [Bool.and_eq_true, decide_eq_true_eq] at hlast
  have hreach : Reach (step vectors) (fun _ _ => True) begin s := Reach.run (fun _ _ _ => trivial) _ .start hs
  exact ⟨s, hreach, hlast.1, hlast.2, each_code_once vectors hreach⟩

/-- Six Arabic digits, typed where a code is asked for. -/
theorem arabic_digits_raise :
    ∃ s, Reach (step vectors) (fun _ _ => True) begin s ∧ ∃ code seconds, 6 ≤ code.length ∧ code.length ≤ 20 ∧
      ¬ ∃ r, checkCode vectors s.row code seconds = .ok r := by
  have hrun : (run (fun s a => if true then step vectors s a else none) signIns begin).any
      (fun s => checkCode vectors s.row (lit "١٢٣٤٥٦") 90 = .error .typeError) = true := by
        with_unfolding_all decide
  obtain ⟨s, hs, hraised⟩ := (Option.any_eq_true _ _).mp hrun
  refine ⟨s, Reach.run (fun _ _ _ => trivial) _ .start hs, lit "١٢٣٤٥٦", 90, by with_unfolding_all decide,
    by with_unfolding_all decide, ?_⟩
  rintro ⟨r, hr⟩
  rw [decide_eq_true_eq, hr] at hraised
  simp at hraised

end TwoStep
