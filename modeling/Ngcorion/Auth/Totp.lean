import Ngcorion.Text
import Ngcorion.Octets
import Ngcorion.Refusal
import Mathlib.Data.List.DropRight

/-!
# One-time passwords

The codes of authenticator apps and the recovery codes: what a code is, which
step of the clock it belongs to, and when it is accepted. A secret is its bytes;
its base32 spelling and its encryption in the table are left out.
-/
namespace Totp

open Text Octets Refusal

/-- What the code takes from the standard library: the digits of Unicode, the upper
case of a text, and the two keyed hashes. -/
structure Primitives where
  isdigit : Char → Bool
  upper : Str → Str
  hmacSha1 : Bytes → Bytes → Bytes
  pbkdf2 : Bytes → Bytes → Nat → Bytes

inductive Raised where
  /-- A counter that does not fit in 64 bits. -/
  | structError
  /-- A comparison of texts of which one is not ASCII. -/
  | typeError
  deriving DecidableEq

def digits : Nat := 6

def stepSeconds : Nat := 30

/-- `hmac.compare_digest` of two texts -/
def compareDigest (a b : Str) : Except Raised Bool :=
  if (a ++ b).all (fun c => c.toNat < 128) then .ok (a = b) else .error .typeError

/-- `str(n).zfill(width)` -/
def zfill (width n : Nat) : Str :=
  let text := Nat.toDigits 10 n
  List.replicate (width - text.length) '0' ++ text

def counterLimit : Int := (2 ^ 64 : Nat)

/-- `struct.pack(">Q", counter)` -/
def packCounter (counter : Int) : Except Raised Bytes :=
  if 0 ≤ counter ∧ counter < counterLimit then .ok (pack 8 counter.toNat) else .error .structError

/-- The truncation of a hash to a code. -/
def truncated (mac : Bytes) : Str :=
  let offset := (mac.getLastD 0).toNat % 16
  zfill digits (unpack ((mac.drop offset).take 4) % 2 ^ 31 % 10 ^ digits)

section
variable (p : Primitives)

/-- The code of one counter value. -/
def hotp (key : Bytes) (counter : Int) : Except Raised Str := do
  let message ← packCounter counter
  pure (truncated (p.hmacSha1 key message))

/-- The step of a time in seconds, which the clock counts in 64 bits. -/
def stepAt (seconds : UInt64) : Int := (seconds.toNat / stepSeconds : Nat)

/-- The steps around now, the drift either side. -/
def window (now : Int) : List Int := [now - 1, now, now + 1]

/-- The code without blanks. -/
def cleaned (code : Str) : Str := (strip code).filter (· ≠ ' ')

def wellFormed (code : Str) : Bool := (cleaned code).length = digits && (cleaned code).all p.isdigit

/-- The loop of `verify` over the steps that are left. -/
def search (key : Bytes) (code : Str) (lastUsedStep : Option Int) : List Int → Except Raised (Option Int)
  | [] => .ok none
  | step :: rest =>
    if lastUsedStep.any (fun last => step ≤ last) then search key code lastUsedStep rest
    else do
      let expected ← hotp p key step
      let same ← compareDigest expected code
      if same then pure (some step) else search key code lastUsedStep rest

def verify (key : Bytes) (code : Str) (lastUsedStep : Option Int) (seconds : UInt64) : Except Raised (Option Int) :=
  if wellFormed p code then search p key (cleaned code) lastUsedStep (window (stepAt seconds)) else .ok none

/-- A stored recovery code, `pbkdf2$rounds$salt$digest`. -/
structure Stored where
  rounds : Nat
  salt : Bytes
  digest : Bytes
  deriving DecidableEq

def pbkdf2Rounds : Nat := 120000

/-- `_normal` -/
def normal (code : Str) : Str := ((p.upper (strip code)).filter (· ≠ ' ')).filter (· ≠ '-')

def derived (code : Str) (salt : Bytes) (rounds : Nat) : Bytes :=
  p.pbkdf2 (encode (String.ofList (normal p code))) salt rounds

def hashRecoveryCode (salt : Bytes) (code : Str) : Stored :=
  ⟨pbkdf2Rounds, salt, derived p code salt pbkdf2Rounds⟩

def recoveryCodeMatches (code : Str) (stored : Stored) : Bool := derived p code stored.salt stored.rounds = stored.digest

end

/-! ## What `verify` does -/

/-- The text has ASCII characters only. -/
def isAscii (s : Str) : Bool := s.all (fun c => c.toNat < 128)

/-- No step that is looked at makes `verify` raise: it is used up already, or it is not
before the first one and the code is ASCII. -/
def quiet (code : Str) (lastUsedStep : Option Int) (seconds : UInt64) : Bool :=
  (window (stepAt seconds)).all (fun step => lastUsedStep.any (fun last => step ≤ last) ||
    (0 ≤ step && isAscii (cleaned code)))

section
variable {p : Primitives} {key : Bytes} {code : Str} {last : Option Int}

theorem strip_strip (s : Str) : strip (strip s) = strip s := by
  have hrstrip : rstrip (strip s) = strip s := by
    simp [strip, rstrip, List.dropWhile_idempotent]
  conv_lhs => rw [strip]
  rw [lstrip_of_head (head_strip s), hrstrip]

theorem cleaned_strip (code : Str) : cleaned (strip code) = cleaned code := by
  rw [cleaned, cleaned, strip_strip]

/-- The spelling of a recovery code does not matter. -/
theorem matches_of_normal {a b : Str} (h : normal p a = normal p b) :
    recoveryCodeMatches p a = recoveryCodeMatches p b := by
  funext stored
  rw [recoveryCodeMatches, recoveryCodeMatches, derived, derived, h]

theorem matches_strip (code : Str) : recoveryCodeMatches p (strip code) = recoveryCodeMatches p code := by
  apply matches_of_normal
  rw [normal, normal, strip_strip]

theorem isAscii_zfill (width n : Nat) : isAscii (zfill width n) = true := by
  simp only [isAscii, zfill, List.all_append, Bool.and_eq_true, List.all_eq_true, decide_eq_true_eq]
  constructor
  · intro c hc
    rw [List.eq_of_mem_replicate hc]
    decide
  · intro c hc
    have hdigit := Nat.isDigit_of_mem_toDigits (by decide) (by decide) hc
    simp only [Char.isDigit, Bool.and_eq_true, decide_eq_true_eq] at hdigit
    have hbound : c.toNat ≤ 57 := UInt32.le_iff_toNat_le.mp hdigit.2
    omega

theorem compareDigest_eq {a b : Str} (ha : isAscii a = true) (hb : isAscii b = true) :
    compareDigest a b = .ok (decide (a = b)) := by
  have hboth : (a ++ b).all (fun c => c.toNat < 128) = true := by
    rw [List.all_append]
    exact Bool.and_eq_true_iff.mpr ⟨ha, hb⟩
  simp [compareDigest, hboth]

theorem compareDigest_error {a b : Str} (hb : isAscii b = false) : compareDigest a b = .error .typeError := by
  have hboth : (a ++ b).all (fun c => c.toNat < 128) = false := by
    rw [List.all_append]
    exact Bool.and_eq_false_iff.mpr (Or.inr hb)
  simp only [compareDigest, hboth]
  rfl

theorem compareDigest_true {a b : Str} (h : compareDigest a b = .ok true) : a = b := by
  unfold compareDigest at h
  split at h
  · simpa using h
  · simp at h

/-- The step that is found is one of those looked at, it is new, and the code is its code. -/
theorem search_some {steps : List Int} {step : Int} (h : search p key code last steps = .ok (some step)) :
    step ∈ steps ∧ (∀ l ∈ last, l < step) ∧ hotp p key step = .ok code := by
  induction steps with
  | nil => simp [search] at h
  | cons s rest ih =>
    have hrest : search p key code last rest = .ok (some step) →
        step ∈ s :: rest ∧ (∀ l ∈ last, l < step) ∧ hotp p key step = .ok code := by
      intro hfound
      obtain ⟨hmem, hnew, hcode⟩ := ih hfound
      exact ⟨List.mem_cons_of_mem _ hmem, hnew, hcode⟩
    unfold search at h
    split at h
    · exact hrest h
    · rename_i hnew
      simp only [bind_ok] at h
      obtain ⟨expected, hhotp, same, hsame, h⟩ := h
      split at h
      · rename_i htrue
        cases h
        rw [htrue] at hsame
        rw [compareDigest_true hsame] at hhotp
        refine ⟨List.mem_cons_self, ?_, hhotp⟩
        intro l hl
        rw [Option.mem_def.mp hl] at hnew
        simpa using hnew
      · exact hrest h

/-- A counter in range has a code, which is ASCII. -/
theorem hotp_ok (p : Primitives) (key : Bytes) {step : Int} (hpos : 0 ≤ step) (hfits : step < counterLimit) :
    ∃ expected, hotp p key step = .ok expected ∧ isAscii expected = true := by
  refine ⟨truncated (p.hmacSha1 key (pack 8 step.toNat)), ?_, isAscii_zfill _ _⟩
  simp [hotp, packCounter, hpos, hfits, bind, Except.bind, pure, Except.pure]

theorem hotp_negative {step : Int} (hneg : step < 0) : hotp p key step = .error .structError := by
  have hnot : ¬ (0 ≤ step ∧ step < counterLimit) := by omega
  rw [hotp, packCounter, if_neg hnot]
  rfl

/-- A new step before the first counter makes the search raise when it is looked at. -/
theorem search_negative {steps : List Int} {step : Int} (hneg : step < 0)
    (hnew : last.any (fun l => step ≤ l) = false) (r : Option Int) :
    search p key code last (step :: steps) ≠ .ok r := by
  intro h
  simp only [search, hnew, Bool.false_eq_true, if_false, bind_ok, hotp_negative hneg] at h
  obtain ⟨_, hexpected, -⟩ := h
  simp at hexpected

theorem search_returns {steps : List Int} (hfits : ∀ step ∈ steps, step < counterLimit)
    (h : ∀ step ∈ steps, last.any (fun l => step ≤ l) = true ∨ 0 ≤ step ∧ isAscii code = true) :
    ∃ r, search p key code last steps = .ok r := by
  induction steps with
  | nil => exact ⟨none, rfl⟩
  | cons s rest ih =>
    have hrest := ih (fun step hs => hfits step (List.mem_cons_of_mem _ hs))
      (fun step hs => h step (List.mem_cons_of_mem _ hs))
    unfold search
    split
    · exact hrest
    · rename_i hnew
      obtain ⟨hpos, hascii⟩ := (h s List.mem_cons_self).resolve_left hnew
      obtain ⟨expected, hhotp, hexpected⟩ := hotp_ok p key hpos (hfits s List.mem_cons_self)
      simp only [hhotp, compareDigest_eq hexpected hascii, bind, Except.bind]
      split
      · exact ⟨_, rfl⟩
      · exact hrest

/-- A step that is new and makes the comparison raise is looked at, unless one before it is. -/
theorem search_raises {steps : List Int} {step : Int} (hmem : step ∈ steps)
    (hnew : last.any (fun l => step ≤ l) = false) (hbad : isAscii code = false) (r : Option Int) :
    search p key code last steps ≠ .ok r := by
  induction steps with
  | nil => simp at hmem
  | cons s rest ih =>
    unfold search
    split
    · rename_i hold
      rcases List.mem_cons.mp hmem with rfl | hmem
      · rw [hnew] at hold
        simp at hold
      · exact ih hmem
    · intro h
      simp only [bind_ok, compareDigest_error hbad] at h
      obtain ⟨_, -, _, hsame, -⟩ := h
      simp at hsame

theorem window_fits (seconds : UInt64) : ∀ step ∈ window (stepAt seconds), step < counterLimit := by
  have hlt := seconds.toNat_lt
  have hlimit : counterLimit = 18446744073709551616 := by norm_num [counterLimit]
  simp only [hlimit, window, stepAt, stepSeconds, List.mem_cons, List.not_mem_nil, or_false]
  intro step hstep
  omega

theorem window_first {seconds : UInt64} {step : Int} (h : step ∈ window (stepAt seconds)) (hneg : step < 0) :
    step = stepAt seconds - 1 := by
  simp only [window, stepAt, stepSeconds, List.mem_cons, List.not_mem_nil, or_false] at h ⊢
  omega

/-- `verify` returns exactly where the code is not well formed or no step makes it raise. -/
theorem verify_returns (p : Primitives) (key : Bytes) (code : Str) (last : Option Int) (seconds : UInt64) :
    (∃ r, verify p key code last seconds = .ok r) ↔ (!wellFormed p code || quiet code last seconds) = true := by
  unfold verify
  split
  · rename_i hwell
    simp only [hwell, Bool.not_true, Bool.false_or, quiet, List.all_eq_true, Bool.or_eq_true, Bool.and_eq_true,
      decide_eq_true_eq]
    constructor
    · rintro ⟨r, hr⟩ step hstep
      by_contra hbad
      simp only [not_or, not_and, Bool.not_eq_true] at hbad
      obtain ⟨hnew, hbad⟩ := hbad
      by_cases hpos : 0 ≤ step
      · exact search_raises hstep hnew (hbad hpos) r hr
      · -- Only the first step can be before the first counter, and it is looked at first.
        have hfirst := window_first hstep (by omega)
        subst hfirst
        exact search_negative (by omega) hnew r hr
    · exact search_returns (window_fits seconds)
  · rename_i hwell
    simp [hwell]

/-- The code that `verify` accepts is the code of a new step around now. -/
theorem verify_some {seconds : UInt64} {step : Int} (h : verify p key code last seconds = .ok (some step)) :
    stepAt seconds - 1 ≤ step ∧ step ≤ stepAt seconds + 1 ∧ (∀ l ∈ last, l < step) ∧
      hotp p key step = .ok (cleaned code) := by
  unfold verify at h
  split at h
  · obtain ⟨hmem, hnew, hcode⟩ := search_some h
    simp only [window, List.mem_cons, List.not_mem_nil, or_false] at hmem
    exact ⟨by omega, by omega, hnew, hcode⟩
  · simp at h

end

end Totp
