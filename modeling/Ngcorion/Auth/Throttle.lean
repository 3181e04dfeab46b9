import Ngcorion.Text
import Ngcorion.Transition
import Mathlib.Data.List.Basic

/-!
# The throttle of the sign-in

Requests of several workers: each counts the recent failures in the login log,
checks the password or the code, and commits its row. Other requests may do the
same between these steps.
-/
namespace Throttle

open Text Transition

/-! ## Accounts and the log -/

/-- A name or an address, which is never empty. -/
abbrev Name := { n : Str // n ≠ [] }

/-- An account by where it signs in and its stored name. -/
structure Account where
  fromDirectory : Bool
  name : Name
  deriving DecidableEq

/-- The stored names, and the search of the directory where it is on: the name there
of the one entry that a trimmed name finds. -/
structure Lookup where
  localNames : List Name
  directoryNames : List Name
  directoryOn : Bool
  search : Str → Option Name
  lower : Name → Name

/-- `find_user` -/
def findUser (l : Lookup) (username : Str) : Option Name :=
  let name := strip username
  if name = [] ∨ 256 < name.length then none else l.search name

/-- The account whose password a login checks. A local name is compared as it is typed;
where the directory is on, every other name is searched there. -/
def accountOf (l : Lookup) (username : Str) : Option Account :=
  match l.localNames.find? (fun n => n.val = username) with
  | some name => some ⟨false, name⟩
  | none =>
    if l.directoryOn then (findUser l username).map (fun found => ⟨true, l.lower found⟩)
    else (l.directoryNames.find? (fun n => n.val = username)).map (fun name => ⟨true, name⟩)

/-- No account is found under the empty name. -/
theorem name_of_accountOf {l : Lookup} {username : Str} {a : Account} (h : accountOf l username = some a) :
    username ≠ [] := by
  rintro rfl
  have hnone : ∀ names : List Name, names.find? (fun n => decide (n.val = [])) = none := by
    intro names
    rw [List.find?_eq_none]
    intro n _
    simpa using n.property
  simp [accountOf, hnone, findUser, strip, lstrip, rstrip] at h

inductive Message where
  | rateLimited | incorrect | inactive | directoryDown | wrongCode | welcome
  deriving DecidableEq

/-- A row of `login_logs`, with the account that the request was about. -/
structure LoginLog where
  username : Str
  success : Bool
  ip : Str
  message : Message
  timestamp : Nat
  account : Option Account

/-- A wrong password or code was checked. -/
def LoginLog.checked (e : LoginLog) : Bool := e.message = .incorrect || e.message = .wrongCode

/-! ## The limits -/

/-- `WINDOW_MINUTES` in microseconds. -/
def windowLength : Nat := 15 * 60 * 1000000

def maxFailuresPerIp : Nat := 5

def maxFailuresPerUsername : Nat := 10

/-- A failure in the window that ends at a time. -/
def recentFailure (now : Nat) (e : LoginLog) : Bool := !e.success && now ≤ e.timestamp + windowLength

/-- `check_login_rate_limit` raises. -/
def rateLimited (log : List LoginLog) (now : Nat) (ip username : Str) : Bool :=
  (ip ≠ [] && maxFailuresPerIp ≤ log.countP (fun e => recentFailure now e && e.ip = ip)) ||
    (username ≠ [] && maxFailuresPerUsername ≤ log.countP (fun e => recentFailure now e && e.username = username))

/-! ## The requests -/

inductive Request where
  /-- `POST /auth/login` with a name as typed -/
  | login (username : Str)
  /-- `POST /auth/login/mfa` with the token of an account -/
  | loginMfa (account : Account)

def Request.username : Request → Str
  | .login username => username
  | .loginMfa account => account.name.val

def Request.account (l : Lookup) : Request → Option Account
  | .login username => accountOf l username
  | .loginMfa account => some account

/-- What the check of the password or the code comes to. -/
inductive Outcome where
  | wrong | inactive | directoryDown | right

/-- A request that has counted, with the log that it saw. -/
structure Waiting where
  request : Request
  ip : Str
  time : Nat
  seen : List LoginLog
  limited : Bool

/-- The clock, the log with the last row first, and the requests between count and row. -/
structure State where
  clock : Nat
  log : List LoginLog
  waiting : List Waiting

def begin (clock : Nat) : State := ⟨clock, [], []⟩

inductive Action where
  | tick (microseconds : Nat)
  | arrive (request : Request) (ip : Str)
  /-- The row of a waiting request, with a time between its count and its commit. -/
  | answer (index : Nat) (outcome : Outcome) (timestamp : Nat)

def message (q : Waiting) (outcome : Outcome) : Message :=
  if q.limited then .rateLimited
  else match outcome, q.request with
    | .wrong, .login _ => .incorrect
    | .wrong, .loginMfa _ => .wrongCode
    | .inactive, _ => .inactive
    | .directoryDown, _ => .directoryDown
    | .right, _ => .welcome

def row (l : Lookup) (q : Waiting) (outcome : Outcome) (timestamp : Nat) : LoginLog :=
  ⟨q.request.username, message q outcome = .welcome, q.ip, message q outcome, timestamp, q.request.account l⟩

def step (l : Lookup) (s : State) : Action → Option State
  | .tick microseconds => some { s with clock := s.clock + microseconds }
  | .arrive request ip =>
    let q : Waiting := ⟨request, ip, s.clock, s.log, rateLimited s.log s.clock ip request.username⟩
    some { s with waiting := q :: s.waiting }
  | .answer index outcome timestamp =>
    match s.waiting[index]? with
    | none => none
    | some q =>
      if q.time ≤ timestamp ∧ timestamp ≤ s.clock then
        some { s with log := row l q outcome timestamp :: s.log, waiting := s.waiting.eraseIdx index }
      else none

/-! ## Guesses -/

/-- A row in the period that begins at a time. -/
def inPeriod (start : Nat) (e : LoginLog) : Bool := start ≤ e.timestamp && e.timestamp ≤ start + windowLength

/-- The row of a wrong guess from an address. -/
def fromAddress (ip : Str) (e : LoginLog) : Bool := e.checked && e.ip = ip

/-- The row of a wrong guess at an account. -/
def atAccount (a : Account) (e : LoginLog) : Bool := e.checked && e.account = some a

/-- How many guesses of a kind were checked in a period. -/
def guesses (mine : LoginLog → Bool) (log : List LoginLog) (start : Nat) : Nat :=
  log.countP (fun e => mine e && inPeriod start e)

/-- The rows that a waiting request has not seen. -/
def unseen (s : State) (q : Waiting) : List LoginLog := s.log.take (s.log.length - q.seen.length)

/-- A guess commits with all earlier guesses from the address in its count. -/
def inTurnAddress (ip : Str) (s : State) : Action → Bool
  | .answer index _ _ => s.waiting[index]?.all (fun q => q.ip ≠ ip || (unseen s q).all (fun e => !fromAddress ip e))
  | _ => true

/-- A guess commits with all earlier guesses at the account in its count: they came
before it and under the name as it was typed this time. -/
def inTurnAccount (l : Lookup) (a : Account) (s : State) : Action → Bool
  | .answer index _ _ => s.waiting[index]?.all (fun q => q.request.account l ≠ some a ||
      ((unseen s q).all (fun e => !atAccount a e) &&
        s.log.all (fun e => !atAccount a e || e.username = q.request.username)))
  | _ => true

/-! ## What a request has counted -/

/-- A guess was a failure; a request that waits has seen an older log and passed the limits on it. -/
structure Inv (s : State) : Prop where
  failed : ∀ e ∈ s.log, e.checked = true → e.success = false
  suffix : ∀ q ∈ s.waiting, q.seen <:+ s.log
  limited : ∀ q ∈ s.waiting, q.limited = rateLimited q.seen q.time q.ip q.request.username

/-- Only a request that passed the limits has its guess checked. -/
theorem passed_of_checked {l : Lookup} {q : Waiting} {outcome : Outcome} {timestamp : Nat}
    (h : (row l q outcome timestamp).checked = true) :
    q.limited = false ∧ (row l q outcome timestamp).success = false := by
  simp only [LoginLog.checked, Bool.or_eq_true, decide_eq_true_eq] at h
  simp only [row] at h ⊢
  constructor
  · by_contra hlimited
    rw [Bool.not_eq_false] at hlimited
    simp [message, hlimited] at h
  · rw [decide_eq_false_iff_not]
    intro hwelcome
    simp [hwelcome] at h

theorem step_answer {l : Lookup} {s s' : State} {index timestamp : Nat} {outcome : Outcome}
    (h : step l s (.answer index outcome timestamp) = some s') :
    ∃ q ∈ s.waiting, s.waiting[index]? = some q ∧ q.time ≤ timestamp ∧
      s' = { s with log := row l q outcome timestamp :: s.log, waiting := s.waiting.eraseIdx index } := by
  simp only [step] at h
  split at h
  · simp at h
  · rename_i q hq
    split at h
    · rename_i htime
      cases h
      exact ⟨q, List.mem_of_getElem? hq, hq, htime.1, rfl⟩
    · simp at h

theorem inv_step {l : Lookup} {s s' : State} {a : Action} (h : Inv s) (hstep : step l s a = some s') : Inv s' := by
  cases a with
  | tick microseconds =>
    cases hstep
    exact ⟨h.failed, h.suffix, h.limited⟩
  | arrive request ip =>
    cases hstep
    refine ⟨h.failed, ?_, ?_⟩
    · intro q hq
      rcases List.mem_cons.mp hq with rfl | hq
      · exact List.suffix_rfl
      · exact h.suffix q hq
    · intro q hq
      rcases List.mem_cons.mp hq with rfl | hq
      · rfl
      · exact h.limited q hq
  | answer index outcome timestamp =>
    obtain ⟨q, -, -, -, rfl⟩ := step_answer hstep
    refine ⟨?_, ?_, ?_⟩
    · intro e he hchecked
      rcases List.mem_cons.mp he with rfl | he
      · exact (passed_of_checked hchecked).2
      · exact h.failed e he hchecked
    · intro q hq
      exact (h.suffix q (List.mem_of_mem_eraseIdx hq)).trans (List.suffix_cons _ _)
    · intro q hq
      exact h.limited q (List.mem_of_mem_eraseIdx hq)

/-- One more guess keeps the bound if its count has seen all guesses before it. -/
theorem guesses_cons {mine counted : LoginLog → Bool} {limit start time : Nat} {newer seen : List LoginLog}
    {e : LoginLog} (hseen : seen.countP (fun x => recentFailure time x && counted x) < limit)
    (hmine : ∀ x ∈ seen, mine x = true → x.success = false ∧ counted x = true)
    (hnewer : ∀ x ∈ newer, mine x = false) (htime : time ≤ e.timestamp)
    (hbefore : guesses mine (newer ++ seen) start ≤ limit) : guesses mine (e :: (newer ++ seen)) start ≤ limit := by
  by_cases he : (mine e && inPeriod start e) = true
  · simp only [Bool.and_eq_true, inPeriod, decide_eq_true_eq] at he
    have hnone : newer.countP (fun x => mine x && inPeriod start x) = 0 := by
      rw [List.countP_eq_zero]
      intro x hx
      simp [hnewer x hx]
    have hsome : seen.countP (fun x => mine x && inPeriod start x) ≤
        seen.countP (fun x => recentFailure time x && counted x) := by
      apply List.countP_mono_left
      intro x hx hin
      simp only [Bool.and_eq_true, inPeriod, decide_eq_true_eq] at hin
      obtain ⟨hfailed, hcounted⟩ := hmine x hx hin.1
      have hrecent : time ≤ x.timestamp + windowLength := by omega
      simp [recentFailure, hfailed, hcounted, hrecent]
    have hlast : (if (mine e && inPeriod start e) = true then 1 else 0) ≤ 1 := by split <;> omega
    rw [guesses, List.countP_cons, List.countP_append]
    omega
  · rw [guesses, List.countP_cons_of_neg (by simpa using he)]
    exact hbefore

/-- The bound along a run, for one kind of guess: a guess of the kind has passed a
count of it, and it has seen all guesses of the kind before it. -/
theorem guesses_of_reach {l : Lookup} {mine : LoginLog → Bool} {limit : Nat} {allowed : State → Action → Prop}
    (hchecked : ∀ e, mine e = true → e.checked = true)
    (hcount : ∀ s index outcome timestamp q, Inv s → allowed s (.answer index outcome timestamp) →
      s.waiting[index]? = some q → mine (row l q outcome timestamp) = true → q.limited = false →
      (∀ e ∈ unseen s q, mine e = false) ∧ ∃ counted : LoginLog → Bool,
        q.seen.countP (fun e => recentFailure q.time e && counted e) < limit ∧
        ∀ e ∈ q.seen, mine e = true → counted e = true)
    {clock : Nat} {s : State} (h : Reach (step l) allowed (begin clock) s) :
    Inv s ∧ ∀ start, guesses mine s.log start ≤ limit := by
  apply h.invariant
  · exact ⟨⟨by simp [begin], by simp [begin], by simp [begin]⟩, by simp [begin, guesses]⟩
  · intro s a s' hs hallowed hstep
    refine ⟨inv_step hs.1 hstep, ?_⟩
    intro start
    cases a with
    | tick microseconds =>
      cases hstep
      exact hs.2 start
    | arrive request ip =>
      cases hstep
      exact hs.2 start
    | answer index outcome timestamp =>
      obtain ⟨q, hmem, hget, htime, rfl⟩ := step_answer hstep
      by_cases hmine : mine (row l q outcome timestamp) = true
      · obtain ⟨newer, hlog⟩ := hs.1.suffix q hmem
        obtain ⟨hunseen, counted, hlt, hcounted⟩ := hcount s index outcome timestamp q hs.1 hallowed hget hmine
          (passed_of_checked (hchecked _ hmine)).1
        have hnewer : unseen s q = newer := by simp [unseen, ← hlog]
        have hbefore := hs.2 start
        rw [← hlog] at hbefore ⊢
        apply guesses_cons hlt _ (hnewer ▸ hunseen) htime hbefore
        intro e he hmine
        have hlogged : e ∈ s.log := hlog ▸ List.mem_append_right _ he
        exact ⟨hs.1.failed e hlogged (hchecked e hmine), hcounted e he hmine⟩
      · have hsame : guesses mine (row l q outcome timestamp :: s.log) start = guesses mine s.log start :=
          List.countP_cons_of_neg (by simp [hmine])
        exact hsame ▸ hs.2 start

/-- A bound on the guesses from each address and at each account, as far as they come
in turn. -/
theorem throttle_bounds (l : Lookup) (clock : Nat) (s : State) :
    (∀ ip : Name, Reach (step l) (fun s a => inTurnAddress ip.val s a = true) (begin clock) s →
      ∀ start, guesses (fromAddress ip.val) s.log start ≤ maxFailuresPerIp) ∧
    (∀ a : Account, Reach (step l) (fun s act => inTurnAccount l a s act = true) (begin clock) s →
      ∀ start, guesses (atAccount a) s.log start ≤ maxFailuresPerUsername) := by
  constructor
  · intro ip hreach
    refine (guesses_of_reach (fun e he => (Bool.and_eq_true_iff.mp he).1) ?_ hreach).2
    intro s index outcome timestamp q hinv hturn hget hmine hlimited
    have hip : q.ip = ip.val := of_decide_eq_true (Bool.and_eq_true_iff.mp hmine).2
    simp only [inTurnAddress, hget, Option.all_some, hip, ne_eq, not_true_eq_false, decide_false, Bool.false_or,
      List.all_eq_true, Bool.not_eq_true'] at hturn
    refine ⟨hturn, fun e => e.ip = ip.val, ?_, fun e _ he => (Bool.and_eq_true_iff.mp he).2⟩
    have hpassed := hinv.limited q (List.mem_of_getElem? hget)
    rw [hlimited, rateLimited, eq_comm, Bool.or_eq_false_iff] at hpassed
    simpa [hip, ip.property] using hpassed.1
  · intro a hreach
    refine (guesses_of_reach (fun e he => (Bool.and_eq_true_iff.mp he).1) ?_ hreach).2
    intro s index outcome timestamp q hinv hturn hget hmine hlimited
    have haccount : q.request.account l = some a := of_decide_eq_true (Bool.and_eq_true_iff.mp hmine).2
    have hnamed : q.request.username ≠ [] := by
      cases hrequest : q.request with
      | login username =>
        rw [hrequest] at haccount
        exact name_of_accountOf haccount
      | loginMfa account => exact account.name.property
    simp only [inTurnAccount, hget, Option.all_some, haccount, ne_eq, not_true_eq_false, decide_false, Bool.false_or,
      Bool.and_eq_true, List.all_eq_true, Bool.not_eq_true', Bool.or_eq_true, decide_eq_true_eq] at hturn
    refine ⟨hturn.1, fun e => e.username = q.request.username, ?_, ?_⟩
    · have hpassed := hinv.limited q (List.mem_of_getElem? hget)
      rw [hlimited, rateLimited, eq_comm, Bool.or_eq_false_iff] at hpassed
      simpa [hnamed] using hpassed.2
    · intro e he hat
      have hlogged := (hinv.suffix q (List.mem_of_getElem? hget)).mem he
      apply decide_eq_true
      rcases hturn.2 e hlogged with hnot | hsame
      · exact absurd (hnot.symm.trans hat) (by simp)
      · exact hsame

/-- Of the accounts one is local, one comes from a directory that ignores case. -/
def lookup : Lookup where
  localNames := [⟨lit "root", by with_unfolding_all decide⟩]
  directoryNames := [⟨lit "maria", by with_unfolding_all decide⟩]
  directoryOn := true
  search n := if n.map Char.toLower = lit "maria" then some ⟨lit "maria", by with_unfolding_all decide⟩ else none
  lower n := ⟨n.val.map Char.toLower, by simpa using n.property⟩

def office : Name := ⟨lit "10.0.0.7", by with_unfolding_all decide⟩

def maria : Account := ⟨true, ⟨lit "maria", by with_unfolding_all decide⟩⟩

/-- A login with a wrong password that nothing comes between. -/
def guess (username ip : Str) : List Action := [.arrive (.login username) ip, .answer 0 .wrong 0]

/-- Six guesses one after another: the last is not checked. -/
theorem five_guesses_checked :
    ∃ s, Reach (step lookup) (fun s a => inTurnAddress office.val s a = true) (begin 0) s ∧
      Reach (step lookup) (fun s act => inTurnAccount lookup maria s act = true) (begin 0) s ∧
      s.log.length = 6 ∧ guesses (fromAddress office.val) s.log 0 = 5 ∧
      (∀ start, guesses (fromAddress office.val) s.log start ≤ maxFailuresPerIp) ∧
      ∀ start, guesses (atAccount maria) s.log start ≤ maxFailuresPerUsername := by
  have hrun : (run (fun s a => if inTurnAddress office.val s a && inTurnAccount lookup maria s a then step lookup s a
      else none) (List.replicate 6 (guess (lit "maria") office.val)).flatten (begin 0)).any
      (fun s => s.log.length = 6 && guesses (fromAddress office.val) s.log 0 = 5) = true := by
        with_unfolding_all decide
  obtain ⟨s, hs, hlast⟩ := (Option.any_eq_true _ _).mp hrun
  simp only [Bool.and_eq_true, decide_eq_true_eq] at hlast
  have haddress : Reach (step lookup) (fun s a => inTurnAddress office.val s a = true) (begin 0) s :=
    Reach.run (fun _ _ hok => (Bool.and_eq_true_iff.mp hok).1) _ .start hs
  have haccount : Reach (step lookup) (fun s act => inTurnAccount lookup maria s act = true) (begin 0) s :=
    Reach.run (fun _ _ hok => (Bool.and_eq_true_iff.mp hok).2) _ .start hs
  obtain ⟨hbyAddress, hbyAccount⟩ := throttle_bounds lookup 0 s
  exact ⟨s, haddress, haccount, hlast.1, hlast.2, hbyAddress office haddress, hbyAccount maria haccount⟩

/-- Six requests count before the first of them is answered. -/
def atOnce : List Action :=
  List.replicate 6 (Action.arrive (.login (lit "root")) office.val) ++ List.replicate 6 (Action.answer 0 .wrong 0)

/-- Guesses one after another, from three addresses and under two spellings of the name. -/
def respelled : List Action :=
  (List.replicate 5 (guess (lit "maria") (lit "10.0.0.1"))).flatten ++
    (List.replicate 5 (guess (lit "maria") (lit "10.0.0.2"))).flatten ++ guess (lit " Maria") (lit "10.0.0.3")

/-- More guesses are checked than the limits say, from one address and at one account. -/
theorem throttle_exceeded :
    (∃ s, Reach (step lookup) (fun _ _ => True) (begin 0) s ∧
      maxFailuresPerIp < guesses (fromAddress office.val) s.log 0) ∧
    ∃ s, Reach (step lookup) (fun _ _ => True) (begin 0) s ∧
      maxFailuresPerUsername < guesses (atAccount maria) s.log 0 := by
  constructor
  · have hrun : (run (fun s a => if true then step lookup s a else none) atOnce (begin 0)).any
        (fun s => maxFailuresPerIp < guesses (fromAddress office.val) s.log 0) = true := by
          with_unfolding_all decide
    obtain ⟨s, hs, hmore⟩ := (Option.any_eq_true _ _).mp hrun
    exact ⟨s, Reach.run (fun _ _ _ => trivial) _ .start hs, by simpa using hmore⟩
  · have hrun : (run (fun s a => if true then step lookup s a else none) respelled (begin 0)).any
        (fun s => maxFailuresPerUsername < guesses (atAccount maria) s.log 0) = true := by decide +kernel
    obtain ⟨s, hs, hmore⟩ := (Option.any_eq_true _ _).mp hrun
    exact ⟨s, Reach.run (fun _ _ _ => trivial) _ .start hs, by simpa using hmore⟩

end Throttle
