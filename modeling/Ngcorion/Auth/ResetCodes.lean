import Ngcorion.Text
import Ngcorion.Dict
import Ngcorion.Transition
import Mathlib.Data.List.Nodup

/-!
# Password reset codes

The requests that create and use the emailed codes, as they run side by side in
several workers. A request reads committed rows, computes, and commits; other
requests run in between. The number of failed attempts is written back as a
value computed from the row that was read.
-/
namespace ResetCodes

open Text Transition

inductive AuthSource where
  | localAccount | ldap | apikey
  deriving DecidableEq

structure User where
  id : Nat
  email : Str
  isActive : Bool
  authSource : AuthSource
  hashedPassword : Str

/-- A row of `password_reset_tokens`. -/
structure Code where
  id : Nat
  userId : Nat
  tokenHash : Str
  expiresAt : Nat
  usedAt : Option Nat
  attempts : Nat
  createdAt : Nat
  ipAddress : Option Str
  deriving DecidableEq

structure Settings where
  maxAttempts : Nat
  expireAfter : Nat
  hashCode : Str → Str
  hashPassword : Str → Str

/-- What a reset request is about to commit. -/
inductive Change where
  | burn
  | wrong
  | succeed (newPassword : Str)
  deriving DecidableEq

/-- How far a request has come. -/
inductive Pending where
  /-- `create_password_reset_otp` has read its user. -/
  | creating (user : Nat) (ip : Option Str)
  /-- It has updated the user's unused codes and holds their rows until it commits. -/
  | invalidated (user : Nat) (ip : Option Str) (now : Nat) (ids : List Nat)
  /-- `reset_password_with_otp` has read its user. -/
  | resetting (user : Nat) (otp newPassword : Str) (now : Nat)
  /-- It has read a code, compared it and decided what to write. -/
  | decided (user : Nat) (code : Code) (change : Change) (now : Nat)

def Pending.user : Pending → Nat
  | .creating user _ => user
  | .invalidated user _ _ _ => user
  | .resetting user _ _ _ => user
  | .decided user _ _ _ => user

/-- What happened to the codes: one was committed, a wrong one was compared with
it, a request succeeded with it. -/
inductive Event where
  | created (user id : Nat)
  | wrong (id : Nat)
  | succeeded (user id : Nat)
  deriving DecidableEq

/-- The committed rows, the requests under way, and the history, newest first. -/
structure State where
  users : List User
  codes : List Code
  pending : List (Nat × Pending)
  history : List Event

inductive Action where
  | beginCreate (request : Nat) (email : Str) (ip : Option Str)
  | invalidate (request : Nat) (now : Nat)
  | commitCreate (request : Nat) (id : Nat) (otp : Str) (createdAt : Nat)
  | beginReset (request : Nat) (email otp newPassword : Str) (now : Nat)
  | readCode (request : Nat) (choice : Option Nat)
  | commitReset (request : Nat)

def findUser (s : State) (email : Str) : Option User := s.users.find? (fun u => u.email = email)

/-- The codes of a user that are not used. -/
def unused (s : State) (user : Nat) : List Code := s.codes.filter (fun c => c.userId = user && c.usedAt = none)

/-- The codes a reset may use: not used and not expired. -/
def candidates (s : State) (user now : Nat) : List Code := (unused s user).filter (fun c => c.expiresAt > now)

/-- `order_by(created_at.desc()).first()`; rows created at the same time come in any order. -/
def isFirst (cs : List Code) (c : Code) : Bool := c ∈ cs && cs.all (fun d => d.createdAt ≤ c.createdAt)

/-- The row is held by a transaction that has updated it and not yet committed. -/
def locked (s : State) (id : Nat) : Bool :=
  s.pending.any fun r => match r.2 with
    | .invalidated _ _ _ ids => id ∈ ids
    | _ => false

def finish (request : Nat) (s : State) : State := { s with pending := Dict.erase s.pending request }

def proceed (request : Nat) (p : Pending) (s : State) : State := { s with pending := Dict.set s.pending request p }

def changeCode (id : Nat) (change : Code → Code) (s : State) : State :=
  { s with codes := s.codes.map (fun c => if c.id = id then change c else c) }

/-- What a reset decides from the row it has read. -/
def judge (cfg : Settings) (otp newPassword : Str) (c : Code) : Change :=
  if c.attempts ≥ cfg.maxAttempts then .burn
  else if cfg.hashCode otp ≠ c.tokenHash then .wrong
  else .succeed newPassword

/-- The commit of a reset: only the columns it has changed are written. -/
def applyChange (cfg : Settings) (user : Nat) (c : Code) (now : Nat) : Change → State → State
  | .burn, s => changeCode c.id (fun d => { d with usedAt := some now }) s
  | .wrong, s => changeCode c.id (fun d => { d with
      attempts := c.attempts + 1, usedAt := if c.attempts + 1 ≥ cfg.maxAttempts then some now else d.usedAt }) s
  | .succeed newPassword, s =>
    let s := changeCode c.id (fun d => { d with usedAt := some now }) s
    { s with
      users := s.users.map (fun u => if u.id = user then { u with hashedPassword := cfg.hashPassword newPassword } else u)
      history := .succeeded user c.id :: s.history }

/-- One step of a request. -/
def step (cfg : Settings) (s : State) : Action → Option State
  | .beginCreate request email ip =>
    if Dict.get s.pending request ≠ none then none
    else match findUser s email with
      | none => some s
      | some u =>
        if u.isActive = false ∨ u.authSource ≠ .localAccount then some s
        else some (proceed request (.creating u.id ip) s)
  | .invalidate request now =>
    match Dict.get s.pending request with
    | some (.creating user ip) =>
      let ids := (unused s user).map Code.id
      if ids.any (locked s) then none else some (proceed request (.invalidated user ip now ids) s)
    | _ => none
  | .commitCreate request id otp createdAt =>
    match Dict.get s.pending request with
    | some (.invalidated user ip now ids) =>
      if id ∈ s.codes.map Code.id then none
      else
        let code : Code := ⟨id, user, cfg.hashCode otp, now + cfg.expireAfter, none, 0, createdAt, ip⟩
        let burned := s.codes.map (fun c => if c.id ∈ ids then { c with usedAt := some now } else c)
        some (finish request { s with codes := burned ++ [code], history := .created user id :: s.history })
    | _ => none
  | .beginReset request email otp newPassword now =>
    if Dict.get s.pending request ≠ none then none
    else match findUser s email with
      | none => some s
      | some u => if u.isActive = false then some s else some (proceed request (.resetting u.id otp newPassword now) s)
  | .readCode request choice =>
    match Dict.get s.pending request with
    | some (.resetting user otp newPassword now) =>
      match choice with
      | none => if candidates s user now = [] then some (finish request s) else none
      | some id =>
        match (candidates s user now).find? (fun c => c.id = id) with
        | none => none
        | some c =>
          if isFirst (candidates s user now) c then
            let change := judge cfg otp newPassword c
            let s := proceed request (.decided user c change now) s
            some (if change = .wrong then { s with history := .wrong c.id :: s.history } else s)
          else none
    | _ => none
  | .commitReset request =>
    match Dict.get s.pending request with
    | some (.decided user c change now) =>
      if locked s c.id then none else some (finish request (applyChange cfg user c now change s))
    | _ => none

/-! ## The limits of a code -/

/-- The newest code committed for a user. -/
def newest (user : Nat) : List Event → Option Nat
  | [] => none
  | .created u id :: older => if u = user then some id else newest user older
  | .wrong _ :: older => newest user older
  | .succeeded _ _ :: older => newest user older

/-- Every success was with the newest code of its user at that time. -/
def NewestUsed : List Event → Prop
  | [] => True
  | .succeeded user id :: older => newest user older = some id ∧ NewestUsed older
  | .created _ _ :: older => NewestUsed older
  | .wrong _ :: older => NewestUsed older

/-- No code was guessed beyond its limit, none was used twice, and none was used
after a newer code of its user was committed. -/
structure Limited (cfg : Settings) (history : List Event) : Prop where
  guesses : ∀ id, history.count (.wrong id) ≤ cfg.maxAttempts
  once : ∀ user id, history.count (.succeeded user id) ≤ 1
  latest : NewestUsed history

/-- A request of a user begins when no other request of that user is under way. -/
def userIdle (s : State) (email : Str) : Bool :=
  (findUser s email).all (fun u => s.pending.all (fun r => r.2.user ≠ u.id))

/-- The requests of one user do not overlap. -/
def serial (s : State) : Action → Bool
  | .beginCreate _ email _ => userIdle s email
  | .beginReset _ email _ _ _ => userIdle s email
  | _ => true

/-! ## What a run without overlap keeps -/

structure Inv (cfg : Settings) (s : State) : Prop where
  ids : (s.codes.map Code.id).Nodup
  alone : ∀ r r' p p', Dict.get s.pending r = some p → Dict.get s.pending r' = some p' → p.user = p'.user → r = r'
  wrongs : ∀ c ∈ s.codes, s.history.count (.wrong c.id) ≤ c.attempts ∨
    s.history.count (.wrong c.id) ≤ c.attempts + 1 ∧
      ∃ r user now, Dict.get s.pending r = some (.decided user c .wrong now)
  attempts : ∀ c ∈ s.codes, c.attempts ≤ cfg.maxAttempts
  once : ∀ c ∈ s.codes, ∀ user, s.history.count (.succeeded user c.id) ≤ 1 ∧
    (c.usedAt = none → s.history.count (.succeeded user c.id) = 0)
  unknown : ∀ id, id ∉ s.codes.map Code.id → s.history.count (.wrong id) = 0 ∧
    ∀ user, s.history.count (.succeeded user id) = 0
  decided : ∀ r user c change now, Dict.get s.pending r = some (.decided user c change now) →
    c ∈ s.codes ∧ c.userId = user ∧ c.usedAt = none ∧ (change ≠ .burn → c.attempts < cfg.maxAttempts)
  invalidated : ∀ r user ip now ids, Dict.get s.pending r = some (.invalidated user ip now ids) →
    (∀ c ∈ s.codes, c.userId = user → c.usedAt = none → c.id ∈ ids) ∧
      ∀ i ∈ ids, ∃ c ∈ s.codes, c.id = i ∧ c.userId = user
  newest : ∀ c ∈ s.codes, c.usedAt = none → newest c.userId s.history = some c.id
  latest : NewestUsed s.history

theorem Inv.limited {cfg : Settings} {s : State} (h : Inv cfg s) : Limited cfg s.history where
  guesses := by
    intro id
    by_cases hid : id ∈ s.codes.map Code.id
    · obtain ⟨c, hc, rfl⟩ := List.mem_map.mp hid
      have hattempts := h.attempts c hc
      rcases h.wrongs c hc with hw | ⟨hw, r, user, now, hr⟩
      · omega
      · have hless := (h.decided r user c .wrong now hr).2.2.2 (by simp)
        omega
    · rw [(h.unknown id hid).1]
      omega
  once := by
    intro user id
    by_cases hid : id ∈ s.codes.map Code.id
    · obtain ⟨c, hc, rfl⟩ := List.mem_map.mp hid
      exact (h.once c hc user).1
    · rw [(h.unknown id hid).2 user]
      omega
  latest := h.latest

theorem Inv.code_eq {cfg : Settings} {s : State} (h : Inv cfg s) {c d : Code} (hc : c ∈ s.codes) (hd : d ∈ s.codes)
    (hid : c.id = d.id) : c = d := List.inj_on_of_nodup_map h.ids hc hd hid

/-- A request that has only gone on to another point of its own. -/
theorem Inv.proceed {cfg : Settings} {s : State} (h : Inv cfg s) {request : Nat} {p : Pending}
    (halone : ∀ r q, r ≠ request → Dict.get s.pending r = some q → q.user ≠ p.user)
    (hwas : ∀ user c now, Dict.get s.pending request ≠ some (.decided user c .wrong now))
    (hdecided : ∀ user c change now, p = .decided user c change now →
      c ∈ s.codes ∧ c.userId = user ∧ c.usedAt = none ∧ change ≠ .wrong ∧
        (change ≠ .burn → c.attempts < cfg.maxAttempts))
    (hinvalidated : ∀ user ip now ids, p = .invalidated user ip now ids →
      (∀ c ∈ s.codes, c.userId = user → c.usedAt = none → c.id ∈ ids) ∧
        ∀ i ∈ ids, ∃ c ∈ s.codes, c.id = i ∧ c.userId = user) : Inv cfg (ResetCodes.proceed request p s) where
  ids := h.ids
  alone := by
    intro r r' q q' hq hq' hsame
    simp only [ResetCodes.proceed, Dict.get_set] at hq hq'
    split at hq
    · split at hq'
      · simp_all
      · rename_i hr hr'
        cases hq
        exact absurd hsame.symm (halone r' q' (Ne.symm hr') hq')
    · split at hq'
      · rename_i hr hr'
        cases hq'
        exact absurd hsame (halone r q (Ne.symm hr) hq)
      · exact h.alone r r' q q' hq hq' hsame
  wrongs := by
    intro c hc
    refine (h.wrongs c hc).imp_right fun hw => ⟨hw.1, ?_⟩
    obtain ⟨r, user, now, hr⟩ := hw.2
    refine ⟨r, user, now, ?_⟩
    have hne : request ≠ r := by
      rintro rfl
      exact hwas user c now hr
    simp only [ResetCodes.proceed, Dict.get_set, hne, if_false]
    exact hr
  attempts := h.attempts
  once := h.once
  unknown := h.unknown
  decided := by
    intro r user c change now hr
    simp only [ResetCodes.proceed, Dict.get_set] at hr
    split at hr
    · obtain ⟨hc, huser, hused, -, hless⟩ := hdecided user c change now (Option.some.inj hr)
      exact ⟨hc, huser, hused, hless⟩
    · exact h.decided r user c change now hr
  invalidated := by
    intro r user ip now ids hr
    simp only [ResetCodes.proceed, Dict.get_set] at hr
    split at hr
    · exact hinvalidated user ip now ids (Option.some.inj hr)
    · exact h.invalidated r user ip now ids hr
  newest := h.newest
  latest := h.latest

theorem Inv.finish {cfg : Settings} {s : State} (h : Inv cfg s) {request : Nat}
    (hwas : ∀ user c now, Dict.get s.pending request ≠ some (.decided user c .wrong now)) :
    Inv cfg (ResetCodes.finish request s) where
  ids := h.ids
  alone := by
    intro r r' q q' hq hq' hsame
    simp only [ResetCodes.finish, Dict.get_erase] at hq hq'
    split at hq
    · simp at hq
    · split at hq'
      · simp at hq'
      · exact h.alone r r' q q' hq hq' hsame
  wrongs := by
    intro c hc
    refine (h.wrongs c hc).imp_right fun hw => ⟨hw.1, ?_⟩
    obtain ⟨r, user, now, hr⟩ := hw.2
    refine ⟨r, user, now, ?_⟩
    have hne : request ≠ r := by
      rintro rfl
      exact hwas user c now hr
    simp only [ResetCodes.finish, Dict.get_erase, hne, if_false]
    exact hr
  attempts := h.attempts
  once := h.once
  unknown := h.unknown
  decided := by
    intro r user c change now hr
    simp only [ResetCodes.finish, Dict.get_erase] at hr
    split at hr
    · simp at hr
    · exact h.decided r user c change now hr
  invalidated := by
    intro r user ip now ids hr
    simp only [ResetCodes.finish, Dict.get_erase] at hr
    split at hr
    · simp at hr
    · exact h.invalidated r user ip now ids hr
  newest := h.newest
  latest := h.latest

/-- A request other than one of this user is of another user. -/
theorem Inv.others {cfg : Settings} {s : State} (h : Inv cfg s) {request : Nat} {p : Pending}
    (hp : Dict.get s.pending request = some p) :
    ∀ r q, r ≠ request → Dict.get s.pending r = some q → q.user ≠ p.user :=
  fun r q hr hq hsame => hr (h.alone r request q p hq hp hsame)

/-- A wrong code has been compared, and the request will count it. -/
theorem Inv.compared {cfg : Settings} {s : State} (h : Inv cfg s) {request user now now' : Nat} {otp newPassword : Str}
    {c : Code} (hp : Dict.get s.pending request = some (.resetting user otp newPassword now')) (hc : c ∈ s.codes)
    (huser : c.userId = user) (hused : c.usedAt = none) (hless : c.attempts < cfg.maxAttempts) :
    Inv cfg { ResetCodes.proceed request (.decided user c .wrong now) s with history := .wrong c.id :: s.history } := by
  have hothers := h.others hp
  have hget : ∀ r q, Dict.get (Dict.set s.pending request (.decided user c .wrong now)) r = some q →
      r = request ∧ q = .decided user c .wrong now ∨ r ≠ request ∧ Dict.get s.pending r = some q := by
    intro r q hq
    rw [Dict.get_set] at hq
    split at hq
    · rename_i hr
      exact Or.inl ⟨hr.symm, (Option.some.inj hq).symm⟩
    · rename_i hr
      exact Or.inr ⟨Ne.symm hr, hq⟩
  constructor
  · exact h.ids
  · intro r r' q q' hq hq' hsame
    rcases hget r q hq with ⟨hr, rfl⟩ | ⟨hr, hq⟩
    · rcases hget r' q' hq' with ⟨hr', rfl⟩ | ⟨hr', hq'⟩
      · rw [hr, hr']
      · exact absurd hsame.symm (hothers r' q' hr' hq')
    · rcases hget r' q' hq' with ⟨hr', rfl⟩ | ⟨hr', hq'⟩
      · exact absurd hsame (hothers r q hr hq)
      · exact h.alone r r' q q' hq hq' hsame
  · intro d hd
    -- Another request that counts a wrong code of this user would overlap with this one.
    have hfree : ∀ r user' now', Dict.get s.pending r = some (.decided user' d .wrong now') → d ≠ c := by
      rintro r user' now' hr rfl
      have howner := (h.decided r user' d .wrong now' hr).2.1
      have hrequest := h.alone r request _ _ hr hp (howner.symm.trans huser)
      subst hrequest
      rw [hp] at hr
      simp at hr
    by_cases hdc : d = c
    · subst hdc
      refine Or.inr ⟨?_, request, user, now, by simp [ResetCodes.proceed, Dict.get_set]⟩
      rcases h.wrongs d hd with hw | ⟨-, r, user', now', hr⟩
      · simpa using hw
      · exact absurd rfl (hfree r user' now' hr)
    · have hid : ¬ c.id = d.id := fun hid => hdc (h.code_eq hc hd hid).symm
      have hcount : (Event.wrong c.id :: s.history).count (.wrong d.id) = s.history.count (.wrong d.id) := by
        simp [hid]
      rw [hcount]
      refine (h.wrongs d hd).imp_right fun hw => ⟨hw.1, ?_⟩
      obtain ⟨r, user', now', hr⟩ := hw.2
      have hne : request ≠ r := by
        rintro rfl
        rw [hp] at hr
        simp at hr
      exact ⟨r, user', now', by simpa [ResetCodes.proceed, Dict.get_set, hne] using hr⟩
  · exact h.attempts
  · intro d hd user'
    simpa [List.count_cons] using h.once d hd user'
  · intro id hid
    have hne : ¬ c.id = id := by
      rintro rfl
      exact hid (List.mem_map_of_mem hc)
    simpa [List.count_cons, hne] using h.unknown id hid
  · intro r user' d change now' hr
    rcases hget r _ hr with ⟨-, heq⟩ | ⟨-, hr⟩
    · cases heq
      exact ⟨hc, huser, hused, fun _ => hless⟩
    · exact h.decided r user' d change now' hr
  · intro r user' ip now' ids hr
    rcases hget r _ hr with ⟨-, heq⟩ | ⟨-, hr⟩
    · simp at heq
    · exact h.invalidated r user' ip now' ids hr
  · exact h.newest
  · exact h.latest

/-- A reset has committed its change of the code it had read. -/
theorem Inv.committed {cfg : Settings} {s : State} (h : Inv cfg s) {request user now : Nat} {c : Code} {change : Change}
    (hp : Dict.get s.pending request = some (.decided user c change now)) {f : Code → Code}
    (hid : ∀ d, (f d).id = d.id) (hown : ∀ d, (f d).userId = d.userId) (hmax : (f c).attempts ≤ cfg.maxAttempts)
    (hcounted : s.history.count (.wrong c.id) ≤ (f c).attempts) {more : List Event}
    (hmore : more = [] ∨ more = [.succeeded user c.id] ∧ (f c).usedAt ≠ none) (users : List User) :
    Inv cfg (ResetCodes.finish request { changeCode c.id f s with users := users, history := more ++ s.history }) := by
  obtain ⟨hc, huser, hused, -⟩ := h.decided request user c change now hp
  have hothers := h.others hp
  have hmem : ∀ d, d ∈ s.codes.map (fun e => if e.id = c.id then f e else e) →
      d = f c ∨ d ∈ s.codes ∧ d.id ≠ c.id := by
    intro d hd
    obtain ⟨e, he, rfl⟩ := List.mem_map.mp hd
    by_cases heid : e.id = c.id
    · rw [if_pos heid, h.code_eq he hc heid]
      exact Or.inl rfl
    · rw [if_neg heid]
      exact Or.inr ⟨he, heid⟩
  have hkeep : ∀ d ∈ s.codes, d.id ≠ c.id → d ∈ s.codes.map (fun e => if e.id = c.id then f e else e) :=
    fun d hd hne => List.mem_map.mpr ⟨d, hd, if_neg hne⟩
  have hids : (s.codes.map (fun e => if e.id = c.id then f e else e)).map Code.id = s.codes.map Code.id := by
    rw [List.map_map]
    refine List.map_inj_left.mpr fun e _ => ?_
    simp only [Function.comp]
    split
    · exact hid e
    · rfl
  have hget : ∀ r q, Dict.get (Dict.erase s.pending request) r = some q →
      r ≠ request ∧ Dict.get s.pending r = some q := by
    intro r q hq
    rw [Dict.get_erase] at hq
    split at hq
    · simp at hq
    · rename_i hr
      exact ⟨Ne.symm hr, hq⟩
  have hwrong : ∀ id, (more ++ s.history).count (.wrong id) = s.history.count (.wrong id) := by
    intro id
    rcases hmore with rfl | ⟨rfl, -⟩ <;> simp
  have hsucceeded : ∀ u id, id ≠ c.id → (more ++ s.history).count (.succeeded u id) =
      s.history.count (.succeeded u id) := by
    intro u id hne
    rcases hmore with rfl | ⟨rfl, -⟩
    · rfl
    · simp [Ne.symm hne]
  have hnewest : ∀ u, ResetCodes.newest u (more ++ s.history) = ResetCodes.newest u s.history := by
    intro u
    rcases hmore with rfl | ⟨rfl, -⟩ <;> rfl
  constructor <;> dsimp only [ResetCodes.finish, changeCode]
  · exact hids ▸ h.ids
  · intro r r' q q' hq hq' hsame
    exact h.alone r r' q q' (hget r q hq).2 (hget r' q' hq').2 hsame
  · intro d hd
    rw [hwrong]
    rcases hmem d hd with rfl | ⟨hd, hne⟩
    · rw [hid]
      exact Or.inl hcounted
    · refine (h.wrongs d hd).imp_right fun hw => ⟨hw.1, ?_⟩
      obtain ⟨r, user', now', hr⟩ := hw.2
      have hrequest : request ≠ r := by
        rintro rfl
        rw [hp] at hr
        cases hr
        exact hne rfl
      exact ⟨r, user', now', by simpa [ResetCodes.finish, Dict.get_erase, hrequest] using hr⟩
  · intro d hd
    rcases hmem d hd with rfl | ⟨hd, -⟩
    · exact hmax
    · exact h.attempts d hd
  · intro d hd u
    rcases hmem d hd with rfl | ⟨hd, hne⟩
    · rw [hid]
      have hzero := (h.once c hc u).2 hused
      rcases hmore with rfl | ⟨rfl, hset⟩
      · simp [hzero]
      · refine ⟨?_, fun hn => absurd hn hset⟩
        simp only [List.singleton_append, List.count_cons, hzero]
        split <;> omega
    · rw [hsucceeded u d.id hne]
      exact h.once d hd u
  · intro id hi
    have hi' : id ∉ s.codes.map Code.id := hids ▸ hi
    have hne : id ≠ c.id := by
      rintro rfl
      exact hi' (List.mem_map_of_mem hc)
    rw [hwrong]
    refine ⟨(h.unknown id hi').1, fun u => ?_⟩
    rw [hsucceeded u id hne]
    exact (h.unknown id hi').2 u
  · intro r user' d change' now' hr
    obtain ⟨hne, hr⟩ := hget r _ hr
    obtain ⟨hd, howner, hrest⟩ := h.decided r user' d change' now' hr
    refine ⟨hkeep d hd ?_, howner, hrest⟩
    intro hdid
    rw [h.code_eq hd hc hdid] at howner
    exact hothers r _ hne hr (howner.symm.trans huser)
  · intro r user' ip now' ids hr
    obtain ⟨hne, hr⟩ := hget r _ hr
    have huser' : user' ≠ user := hothers r _ hne hr
    obtain ⟨hcover, hwithin⟩ := h.invalidated r user' ip now' ids hr
    constructor
    · intro d hd howner hfree
      rcases hmem d hd with rfl | ⟨hd, -⟩
      · rw [hown, huser] at howner
        exact absurd howner.symm huser'
      · exact hcover d hd howner hfree
    · intro i hi
      obtain ⟨d, hd, hdi, howner⟩ := hwithin i hi
      refine ⟨d, hkeep d hd ?_, hdi, howner⟩
      intro hdid
      rw [h.code_eq hd hc hdid] at howner
      exact huser' (howner.symm.trans huser)
  · intro d hd hfree
    rw [hnewest]
    rcases hmem d hd with rfl | ⟨hd, -⟩
    · rw [hown, hid]
      exact h.newest c hc hused
    · exact h.newest d hd hfree
  · rcases hmore with rfl | ⟨rfl, -⟩
    · exact h.latest
    · exact ⟨huser ▸ h.newest c hc hused, h.latest⟩

/-- A new code has been committed, and the unused ones before it are used. -/
theorem Inv.created {cfg : Settings} {s : State} (h : Inv cfg s) {request user now : Nat} {ip : Option Str}
    {ids : List Nat} (hp : Dict.get s.pending request = some (.invalidated user ip now ids)) {code : Code}
    (hnew : code.id ∉ s.codes.map Code.id) (hcode : code.userId = user) (hattempts : code.attempts = 0) :
    Inv cfg (ResetCodes.finish request { s with
      codes := s.codes.map (fun c => if c.id ∈ ids then { c with usedAt := some now } else c) ++ [code],
      history := .created user code.id :: s.history }) := by
  obtain ⟨hcover, hwithin⟩ := h.invalidated request user ip now ids hp
  have hothers := h.others hp
  have hburned : ∀ d ∈ s.codes, d.id ∈ ids → d.userId = user := by
    intro d hd hdi
    obtain ⟨e, he, hei, howner⟩ := hwithin d.id hdi
    rw [← h.code_eq he hd hei]
    exact howner
  have hmem : ∀ d, d ∈ s.codes.map (fun c => if c.id ∈ ids then { c with usedAt := some now } else c) ++ [code] →
      (∃ e ∈ s.codes, e.id ∈ ids ∧ d = { e with usedAt := some now }) ∨ (d ∈ s.codes ∧ d.id ∉ ids) ∨ d = code := by
    intro d hd
    rcases List.mem_append.mp hd with hd | hd
    · obtain ⟨e, he, rfl⟩ := List.mem_map.mp hd
      by_cases hei : e.id ∈ ids
      · rw [if_pos hei]
        exact Or.inl ⟨e, he, hei, rfl⟩
      · rw [if_neg hei]
        exact Or.inr (Or.inl ⟨he, hei⟩)
    · exact Or.inr (Or.inr (List.mem_singleton.mp hd))
  have hkeep : ∀ d ∈ s.codes, d.userId ≠ user →
      d ∈ s.codes.map (fun c => if c.id ∈ ids then { c with usedAt := some now } else c) ++ [code] := by
    intro d hd hne
    refine List.mem_append_left _ (List.mem_map.mpr ⟨d, hd, if_neg ?_⟩)
    exact fun hdi => hne (hburned d hd hdi)
  have hids : (s.codes.map (fun c => if c.id ∈ ids then { c with usedAt := some now } else c) ++ [code]).map Code.id =
      s.codes.map Code.id ++ [code.id] := by
    rw [List.map_append, List.map_map]
    congr 1
    refine List.map_inj_left.mpr fun e _ => ?_
    simp only [Function.comp]
    split <;> rfl
  have hget : ∀ r q, Dict.get (Dict.erase s.pending request) r = some q →
      r ≠ request ∧ Dict.get s.pending r = some q := by
    intro r q hq
    rw [Dict.get_erase] at hq
    split at hq
    · simp at hq
    · rename_i hr
      exact ⟨Ne.symm hr, hq⟩
  have hcount : ∀ e : Event, e ≠ .created user code.id →
      (Event.created user code.id :: s.history).count e = s.history.count e := by
    intro e he
    simp [Ne.symm he]
  -- A request that still has to count a wrong code of the user would overlap with this one.
  have hcounted : ∀ d ∈ s.codes, d.userId = user → s.history.count (.wrong d.id) ≤ d.attempts := by
    intro d hd howner
    rcases h.wrongs d hd with hw | ⟨-, r, user', now', hr⟩
    · exact hw
    · have howner' := (h.decided r user' d .wrong now' hr).2.1
      have hrequest := h.alone r request _ _ hr hp (howner'.symm.trans howner)
      subst hrequest
      rw [hp] at hr
      simp at hr
  constructor <;> dsimp only [ResetCodes.finish, changeCode]
  · rw [hids]
    refine List.nodup_append.mpr ⟨h.ids, by simp, ?_⟩
    intro a ha b hb
    rw [List.mem_singleton.mp hb]
    rintro rfl
    exact hnew ha
  · intro r r' q q' hq hq' hsame
    exact h.alone r r' q q' (hget r q hq).2 (hget r' q' hq').2 hsame
  · intro d hd
    rcases hmem d hd with ⟨e, he, hei, rfl⟩ | ⟨hd, hdi⟩ | rfl
    · refine Or.inl ?_
      rw [hcount _ (by simp)]
      exact hcounted e he (hburned e he hei)
    · rw [hcount _ (by simp)]
      refine (h.wrongs d hd).imp_right fun hw => ⟨hw.1, ?_⟩
      obtain ⟨r, user', now', hr⟩ := hw.2
      have hne : request ≠ r := by
        rintro rfl
        rw [hp] at hr
        simp at hr
      exact ⟨r, user', now', by simpa [ResetCodes.finish, Dict.get_erase, hne] using hr⟩
    · refine Or.inl ?_
      rw [hcount _ (by simp), (h.unknown d.id hnew).1]
      omega
  · intro d hd
    rcases hmem d hd with ⟨e, he, -, rfl⟩ | ⟨hd, -⟩ | rfl
    · exact h.attempts e he
    · exact h.attempts d hd
    · omega
  · intro d hd u
    rcases hmem d hd with ⟨e, he, -, rfl⟩ | ⟨hd, -⟩ | rfl
    · rw [hcount _ (by simp)]
      exact ⟨(h.once e he u).1, by simp⟩
    · rw [hcount _ (by simp)]
      exact h.once d hd u
    · rw [hcount _ (by simp), (h.unknown d.id hnew).2 u]
      simp
  · intro id hi
    have hi' : id ∉ s.codes.map Code.id := by
      intro hm
      refine hi ?_
      rw [hids]
      exact List.mem_append_left _ hm
    rw [hcount _ (by simp)]
    refine ⟨(h.unknown id hi').1, fun u => ?_⟩
    rw [hcount _ (by simp)]
    exact (h.unknown id hi').2 u
  · intro r user' d change now' hr
    obtain ⟨hne, hr⟩ := hget r _ hr
    obtain ⟨hd, howner, hrest⟩ := h.decided r user' d change now' hr
    exact ⟨hkeep d hd (howner ▸ hothers r _ hne hr), howner, hrest⟩
  · intro r user' ip' now' ids' hr
    obtain ⟨hne, hr⟩ := hget r _ hr
    have huser' : user' ≠ user := hothers r _ hne hr
    obtain ⟨hcover', hwithin'⟩ := h.invalidated r user' ip' now' ids' hr
    constructor
    · intro d hd howner hfree
      rcases hmem d hd with ⟨e, -, -, rfl⟩ | ⟨hd, -⟩ | rfl
      · simp at hfree
      · exact hcover' d hd howner hfree
      · exact absurd (howner.symm.trans hcode) huser'
    · intro i hi
      obtain ⟨d, hd, hdi, howner⟩ := hwithin' i hi
      exact ⟨d, hkeep d hd (howner ▸ huser'), hdi, howner⟩
  · intro d hd hfree
    rcases hmem d hd with ⟨e, -, -, rfl⟩ | ⟨hd, hdi⟩ | rfl
    · simp at hfree
    · have hne : user ≠ d.userId := fun howner => hdi (hcover d hd howner.symm hfree)
      simp only [ResetCodes.newest, hne, if_false]
      exact h.newest d hd hfree
    · simp [ResetCodes.newest, hcode]
  · exact h.latest

/-! ## Runs -/

theorem mem_unused {s : State} {user : Nat} {c : Code} :
    c ∈ unused s user ↔ c ∈ s.codes ∧ c.userId = user ∧ c.usedAt = none := by
  simp [unused]

/-- A request that begins where no other request of its user is under way. -/
theorem Inv.begins {cfg : Settings} {s : State} (h : Inv cfg s) {request : Nat} {email : Str} {u : User} {p : Pending}
    (hfree : Dict.get s.pending request = none) (halone : userIdle s email = true) (hu : findUser s email = some u)
    (hp : p.user = u.id) (hnot : ∀ user c change now, p ≠ .decided user c change now)
    (hnot' : ∀ user ip now ids, p ≠ .invalidated user ip now ids) : Inv cfg (ResetCodes.proceed request p s) := by
  refine h.proceed ?_ ?_ ?_ ?_
  · intro r q _ hq
    rw [hp]
    simp only [userIdle, hu, Option.all_some, List.all_eq_true, decide_eq_true_eq] at halone
    exact halone (r, q) (Dict.mem_of_get _ _ _ hq)
  · intro user c now
    simp [hfree]
  · exact fun user c change now heq => absurd heq (hnot user c change now)
  · exact fun user ip now ids heq => absurd heq (hnot' user ip now ids)

theorem step_beginCreate {cfg : Settings} {s s' : State} {request : Nat} {email : Str} {ip : Option Str}
    (h : Inv cfg s) (halone : userIdle s email = true) (hstep : step cfg s (.beginCreate request email ip) = some s') :
    Inv cfg s' := by
  unfold step at hstep
  dsimp only at hstep
  split at hstep
  · simp at hstep
  · rename_i hfree
    split at hstep
    · cases hstep
      exact h
    · rename_i u hu
      split at hstep
      · cases hstep
        exact h
      · cases hstep
        exact h.begins (not_not.mp hfree) halone hu rfl (by simp) (by simp)

theorem step_beginReset {cfg : Settings} {s s' : State} {request now : Nat} {email otp newPassword : Str}
    (h : Inv cfg s) (halone : userIdle s email = true)
    (hstep : step cfg s (.beginReset request email otp newPassword now) = some s') : Inv cfg s' := by
  unfold step at hstep
  dsimp only at hstep
  split at hstep
  · simp at hstep
  · rename_i hfree
    split at hstep
    · cases hstep
      exact h
    · rename_i u hu
      split at hstep
      · cases hstep
        exact h
      · cases hstep
        exact h.begins (not_not.mp hfree) halone hu rfl (by simp) (by simp)

theorem step_invalidate {cfg : Settings} {s s' : State} {request now : Nat} (h : Inv cfg s)
    (hstep : step cfg s (.invalidate request now) = some s') : Inv cfg s' := by
  unfold step at hstep
  dsimp only at hstep
  split at hstep
  · rename_i user ip hp
    split at hstep
    · simp at hstep
    · cases hstep
      refine h.proceed (fun r q hr hq => h.others hp r q hr hq) (by simp [hp]) (by simp) ?_
      intro user' ip' now' ids heq
      cases heq
      constructor
      · exact fun c hc howner hfree => List.mem_map_of_mem (mem_unused.mpr ⟨hc, howner, hfree⟩)
      · intro i hi
        obtain ⟨c, hc, rfl⟩ := List.mem_map.mp hi
        exact ⟨c, (mem_unused.mp hc).1, rfl, (mem_unused.mp hc).2.1⟩
  · simp at hstep

theorem step_commitCreate {cfg : Settings} {s s' : State} {request id createdAt : Nat} {otp : Str} (h : Inv cfg s)
    (hstep : step cfg s (.commitCreate request id otp createdAt) = some s') : Inv cfg s' := by
  unfold step at hstep
  dsimp only at hstep
  split at hstep
  · rename_i user ip now ids hp
    split at hstep
    · simp at hstep
    · rename_i hnew
      cases hstep
      exact h.created hp hnew rfl rfl
  · simp at hstep

theorem step_readCode {cfg : Settings} {s s' : State} {request : Nat} {choice : Option Nat} (h : Inv cfg s)
    (hstep : step cfg s (.readCode request choice) = some s') : Inv cfg s' := by
  unfold step at hstep
  dsimp only at hstep
  split at hstep
  · rename_i user otp newPassword now hp
    cases choice with
    | none =>
      simp only at hstep
      split at hstep
      · cases hstep
        exact h.finish (by simp [hp])
      · simp at hstep
    | some id =>
      simp only at hstep
      split at hstep
      · simp at hstep
      · rename_i c hfind
        split at hstep
        · cases hstep
          have hc := mem_unused.mp (List.mem_filter.mp (List.mem_of_find?_eq_some hfind)).1
          have hless : judge cfg otp newPassword c ≠ .burn → c.attempts < cfg.maxAttempts := by
            intro hj
            by_contra hn
            exact hj (if_pos (by omega))
          split
          · rename_i hwrong
            rw [hwrong] at hless ⊢
            exact h.compared hp hc.1 hc.2.1 hc.2.2 (hless (by simp))
          · rename_i hwrong
            refine h.proceed (fun r q hr hq => h.others hp r q hr hq) (by simp [hp]) ?_ (by simp)
            intro user' c' change now' heq
            cases heq
            exact ⟨hc.1, hc.2.1, hc.2.2, hwrong, hless⟩
        · simp at hstep
  · simp at hstep

theorem step_commitReset {cfg : Settings} {s s' : State} {request : Nat} (h : Inv cfg s)
    (hstep : step cfg s (.commitReset request) = some s') : Inv cfg s' := by
  unfold step at hstep
  dsimp only at hstep
  split at hstep
  · rename_i user c change now hp
    split at hstep
    · simp at hstep
    · obtain ⟨hc, huser, -, hless⟩ := h.decided request user c change now hp
      have hmax := h.attempts c hc
      -- What is not this request's own count has been counted already.
      have hcounted : change ≠ .wrong → s.history.count (.wrong c.id) ≤ c.attempts := by
        intro hne
        rcases h.wrongs c hc with hw | ⟨-, r, user', now', hr⟩
        · exact hw
        · have howner := (h.decided r user' c .wrong now' hr).2.1
          have hrequest := h.alone r request _ _ hr hp (howner.symm.trans huser)
          subst hrequest
          rw [hp] at hr
          cases hr
          exact absurd rfl hne
      cases hstep
      cases change with
      | burn =>
        have hall := h.committed (f := fun d => { d with usedAt := some now }) hp (fun _ => rfl) (fun _ => rfl) hmax
          (hcounted (by simp)) (Or.inl rfl) s.users
        exact hall
      | wrong =>
        have hall := h.committed (f := fun d => { d with
          attempts := c.attempts + 1, usedAt := if c.attempts + 1 ≥ cfg.maxAttempts then some now else d.usedAt }) hp
          (fun _ => rfl) (fun _ => rfl) (hless (by simp)) (by
            rcases h.wrongs c hc with hw | ⟨hw, -⟩
            · exact Nat.le_succ_of_le hw
            · exact hw) (Or.inl rfl) s.users
        exact hall
      | succeed newPassword =>
        have hall := h.committed (f := fun d => { d with usedAt := some now }) hp (fun _ => rfl) (fun _ => rfl) hmax
          (hcounted (by simp)) (Or.inr ⟨rfl, by simp⟩)
          (s.users.map (fun u => if u.id = user then { u with hashedPassword := cfg.hashPassword newPassword } else u))
        exact hall
  · simp at hstep

theorem step_inv {cfg : Settings} {s s' : State} {a : Action} (h : Inv cfg s) (hserial : serial s a = true)
    (hstep : step cfg s a = some s') : Inv cfg s' := by
  cases a with
  | beginCreate request email ip => exact step_beginCreate h hserial hstep
  | invalidate request now => exact step_invalidate h hstep
  | commitCreate request id otp createdAt => exact step_commitCreate h hstep
  | beginReset request email otp newPassword now => exact step_beginReset h hserial hstep
  | readCode request choice => exact step_readCode h hstep
  | commitReset request => exact step_commitReset h hstep

/-- No codes and no requests yet. -/
def start (users : List User) : State := ⟨users, [], [], []⟩

theorem inv_start (cfg : Settings) (users : List User) : Inv cfg (start users) := by
  constructor <;> simp [start, NewestUsed]

/-- In every run in which the requests of one user do not overlap, the limits of
every code hold in every state. -/
theorem limited_without_overlap (cfg : Settings) (users : List User) (s : State)
    (h : Reach (step cfg) (fun s a => serial s a = true) (start users) s) : Limited cfg s.history :=
  (h.invariant (inv_start cfg users) fun _ _ _ hi hok hstep => step_inv hi hok hstep).limited

def fiveAttempts : Settings := ⟨5, 600, id, id⟩

def alice : User := ⟨1, lit "alice@example.org", true, .localAccount, lit "old"⟩

def createFor (request id : Nat) (otp : Str) : List Action :=
  [.beginCreate request alice.email none, .invalidate request 0, .commitCreate request id otp id]

/-- A request that has read the code and compared its own with it. -/
def guess (request id : Nat) (otp : Str) : List Action :=
  [.beginReset request alice.email otp (lit "new") 1, .readCode request (some id)]

def fullReset (request id : Nat) (otp : Str) : List Action := guess request id otp ++ [Action.commitReset request]

/-- A wrong code and then the right one, one after the other. -/
theorem one_after_the_other : ∃ s, Reach (step fiveAttempts) (fun s a => serial s a = true) (start [alice]) s ∧
    s.history = [.succeeded 1 7, .wrong 7, .created 1 7] ∧ Limited fiveAttempts s.history := by
  have hrun : (run (fun s a => if serial s a then step fiveAttempts s a else none)
      (createFor 0 7 (lit "004271") ++ fullReset 1 7 (lit "111111") ++ fullReset 2 7 (lit "004271"))
      (start [alice])).map State.history = some [.succeeded 1 7, .wrong 7, .created 1 7] := by
        with_unfolding_all decide
  obtain ⟨s, hs, hhistory⟩ := Option.map_eq_some_iff.mp hrun
  have hreach : Reach (step fiveAttempts) (fun s a => serial s a = true) (start [alice]) s :=
    Reach.run (fun _ _ h => h) _ .start hs
  exact ⟨s, hreach, hhistory, limited_without_overlap fiveAttempts [alice] s hreach⟩

/-- Requests that overlap: six wrong codes are compared with one code, two requests
succeed with one code, and one succeeds with a code after a newer one was committed. -/
theorem overlapping_requests_exceed :
    (∃ s, Reach (step fiveAttempts) (fun _ _ => True) (start [alice]) s ∧
      fiveAttempts.maxAttempts < s.history.count (.wrong 7)) ∧
    (∃ s, Reach (step fiveAttempts) (fun _ _ => True) (start [alice]) s ∧ 1 < s.history.count (.succeeded 1 7)) ∧
    ∃ s, Reach (step fiveAttempts) (fun _ _ => True) (start [alice]) s ∧ ¬ NewestUsed s.history := by
  have hreach : ∀ as s, run (fun s a => if true then step fiveAttempts s a else none) as (start [alice]) = some s →
      Reach (step fiveAttempts) (fun _ _ => True) (start [alice]) s :=
    fun as s h => Reach.run (fun _ _ _ => trivial) as .start h
  refine ⟨?_, ?_, ?_⟩
  · have hrun : (run (fun s a => if true then step fiveAttempts s a else none)
        (createFor 0 7 (lit "004271") ++ [1, 2, 3, 4, 5, 6].flatMap (fun r => guess r 7 (lit "111111")))
        (start [alice])).map (fun s => s.history.count (.wrong 7)) = some 6 := by with_unfolding_all decide
    obtain ⟨s, hs, hcount⟩ := Option.map_eq_some_iff.mp hrun
    exact ⟨s, hreach _ s hs, by rw [hcount]; decide⟩
  · have hrun : (run (fun s a => if true then step fiveAttempts s a else none)
        (createFor 0 7 (lit "004271") ++ [1, 2].flatMap (fun r => guess r 7 (lit "004271")) ++
          [Action.commitReset 1, .commitReset 2]) (start [alice])).map (fun s => s.history.count (.succeeded 1 7)) =
        some 2 := by with_unfolding_all decide
    obtain ⟨s, hs, hcount⟩ := Option.map_eq_some_iff.mp hrun
    exact ⟨s, hreach _ s hs, by rw [hcount]; decide⟩
  · have hrun : (run (fun s a => if true then step fiveAttempts s a else none)
        (createFor 0 7 (lit "004271") ++ guess 1 7 (lit "004271") ++ createFor 2 8 (lit "930155") ++ [Action.commitReset 1])
        (start [alice])).map State.history = some [.succeeded 1 7, .created 1 8, .created 1 7] := by
          with_unfolding_all decide
    obtain ⟨s, hs, hhistory⟩ := Option.map_eq_some_iff.mp hrun
    refine ⟨s, hreach _ s hs, ?_⟩
    rw [hhistory]
    simp [NewestUsed, newest]

end ResetCodes
