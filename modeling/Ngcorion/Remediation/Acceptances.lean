import Ngcorion.Remediation.Items
import Ngcorion.Hardening.ParamSecurity
import Ngcorion.Transition

/-!
# Accepted risks

Requests to accept the risk of a finding, the decisions on them and their end. The
limits are checked when a request is made and when it is decided, against the
finding it was made on; a synchronisation applies an acceptance to whatever it
covers then.
-/
namespace Acceptances

open Text Refusal Transition Items

/-! ## Requests and decisions -/

/-- `RemediationError` -/
structure Refused where
  message : Str
  statusCode : Nat

/-- `_covering_pending` -/
def coveringPending (db : Database) (item : Item) (scope : Scope) : Option Acceptance :=
  db.acceptances.find? (fun a => (a.status = .pending || a.status = .approved) &&
    match scope with
    | .item => a.scope = .item && a.itemId = some item.id
    | .ref => a.scope = .ref && a.source = item.source && a.ref = item.ref)

/-- The latest end that may be asked for. -/
def latestEnd (settings : Settings) (severity : Severity) (kev : Bool) (requestedAt : Nat) : Nat :=
  requestedAt + acceptMaxDays settings severity kev * day + 12 * hour

def requestAcceptance (settings : Settings) (db : Database) (item : Item) (user : User) (scope : Scope)
    (justification : Str) (expiresAt now : Nat) : Except Refused Database := do
  refuse (item.status = .resolved) ⟨lit "This finding is already resolved", 400⟩
  refuse (strip justification = []) ⟨lit "A justification is required", 400⟩
  refuse (expiresAt ≤ now) ⟨lit "The end date must be in the future", 400⟩
  refuse (latestEnd settings item.severity item.kev now < expiresAt)
    ⟨lit "This finding can be accepted for at most " ++
      ParamSecurity.decimal (acceptMaxDays settings item.severity item.kev) ++ lit " days", 400⟩
  refuse ((coveringPending db item scope).isSome)
    ⟨lit "A risk acceptance for this is already pending or active", 409⟩
  pure { db with
    acceptances := db.acceptances ++ [{
      id := db.nextAcceptance, scope := scope, source := item.source, ref := item.ref
      itemId := match scope with
        | .item => some item.id
        | .ref => none
      severity := item.severity, kev := item.kev, expiresAt := expiresAt, status := .pending
      requestedBy := user.id, requestedAt := now, decidedBy := none }]
    nextAcceptance := db.nextAcceptance + 1 }

/-- Critical or known to be exploited. -/
def grave (severity : Severity) (kev : Bool) : Bool := kev || severity = .critical

/-- Why a user may not decide on an acceptance. -/
def canDecide (user : User) (acc : Acceptance) : Option Str :=
  if ¬ (user.role = .admin ∨ user.role = .manager) then
    some (lit "Only administrators and managers can decide on a risk acceptance")
  else if acc.requestedBy = user.id then some (lit "You cannot decide on your own request")
  else if grave acc.severity acc.kev ∧ user.role ≠ .admin then
    some (lit "Only an administrator can accept a critical or known-exploited finding")
  else none

def put (db : Database) (acc : Acceptance) : Database :=
  { db with acceptances := db.acceptances.map (fun a => if a.id = acc.id then acc else a) }

/-- `decide_acceptance` up to its commit. -/
def decideAcceptance (db : Database) (acc : Acceptance) (user : User) (approve : Bool) (now : Nat) :
    Except Refused Database := do
  refuse (acc.status ≠ .pending) ⟨lit "This request has already been decided", 400⟩
  match canDecide user acc with
  | some reason => .error ⟨reason, 403⟩
  | none => do
    refuse (approve = true ∧ acc.expiresAt ≤ now)
      ⟨lit "The requested end date has already passed; ask for a new request", 400⟩
    pure (put db { acc with
      status := if approve then .approved else .rejected
      decidedBy := some user })

def canWithdraw (user : User) (acc : Acceptance) : Bool :=
  if acc.requestedBy = user.id then acc.status = .pending || acc.status = .approved
  else acc.status = .approved && (user.role = .admin || user.role = .manager)

/-- `end_acceptance` up to its commit. -/
def endAcceptance (db : Database) (acc : Acceptance) (user : User) : Except Refused Database := do
  refuse (acc.status ≠ .approved ∧ acc.status ≠ .pending)
    ⟨lit "Only a pending or active risk acceptance can be withdrawn", 400⟩
  refuse (¬ canWithdraw user acc ∧ acc.status = .pending)
    ⟨lit "Only the requester can cancel a pending request; reject it instead", 403⟩
  refuse (¬ canWithdraw user acc)
    ⟨lit "Only the requester, an administrator or a manager can withdraw this", 403⟩
  pure (put db { acc with status := .revoked })

/-! ## Histories -/

structure State where
  db : Database
  /-- The time of the synchronisation that was the last thing to happen. -/
  syncedAt : Option Nat

/-- Approving and withdrawing an active acceptance end with a synchronisation. -/
inductive Action where
  | request (itemId : Nat) (user : User) (scope : Scope) (justification : Str) (expiresAt now : Nat)
  | decide (acceptanceId : Nat) (user : User) (approve : Bool) (now : Nat) (report : Report) (later : Nat)
  | finish (acceptanceId : Nat) (user : User) (report : Report) (later : Nat)
  | sync (report : Report) (now : Nat)

def getItem (db : Database) (id : Nat) : Except Refused Item :=
  match db.items.find? (fun i => i.id = id) with
  | none => .error ⟨lit "Finding not found", 404⟩
  | some item => .ok item

def getAcceptance (db : Database) (id : Nat) : Except Refused Acceptance :=
  match db.acceptances.find? (fun a => a.id = id) with
  | none => .error ⟨lit "Risk acceptance not found", 404⟩
  | some acc => .ok acc

/-- The tables that an action leaves before it synchronises them. -/
def change (settings : Settings) (db : Database) : Action → Except Refused Database
  | .request itemId user scope justification expiresAt now => do
    let item ← getItem db itemId
    requestAcceptance settings db item user scope justification expiresAt now
  | .decide acceptanceId user approve now _ _ => do
    let acc ← getAcceptance db acceptanceId
    decideAcceptance db acc user approve now
  | .finish acceptanceId user _ _ => do
    let acc ← getAcceptance db acceptanceId
    endAcceptance db acc user
  | .sync _ _ => .ok db

/-- The synchronisation that an action ends with. -/
def syncOf (db : Database) : Action → Option (Report × Nat)
  | .request .. => none
  | .decide _ _ approve _ report later => if approve then some (report, later) else none
  | .finish acceptanceId _ report later =>
    if db.acceptances.any (fun a => a.id = acceptanceId && a.status = .approved) then some (report, later) else none
  | .sync report now => some (report, now)

/-- What is refused is no step. -/
def step (settings : Settings) (s : State) (a : Action) : Option State :=
  match change settings s.db a with
  | .error _ => none
  | .ok db =>
    match syncOf s.db a with
    | none => some ⟨db, none⟩
    | some (report, now) => some ⟨Items.sync settings report now db, some now⟩

def begin : State := ⟨Database.empty, none⟩

/-! ## The rules -/

def covers (a : Acceptance) (item : Item) : Bool :=
  match a.scope with
  | .item => a.itemId = some item.id
  | .ref => a.source = item.source && a.ref = item.ref

/-- Decided by someone else, who may decide on such a finding. -/
def decidedFor (a : Acceptance) (severity : Severity) (kev : Bool) : Bool :=
  a.decidedBy.any (fun u => (u.role = .manager || u.role = .admin) && u.id ≠ a.requestedBy &&
    (!grave severity kev || u.role = .admin))

/-- The acceptance covers the item, was decided by one who may accept it, and ends within the limit of the item. -/
def meets (settings : Settings) (a : Acceptance) (item : Item) : Bool :=
  covers a item && decidedFor a item.severity item.kev &&
    a.expiresAt ≤ latestEnd settings item.severity item.kev a.requestedAt

/-- An item that is accepted under an acceptance has one that is in force and meets the rules. -/
def withinRules (settings : Settings) (now : Nat) (acceptances : List Acceptance) (item : Item) : Bool :=
  item.status ≠ .accepted || item.acceptanceId.all (fun id =>
    acceptances.any (fun a => a.id = id && a.active now && meets settings a item))

/-! ## Findings as grave as the one that was accepted -/

/-- The finding is critical or known-exploited only if the one the acceptance was asked for was, and may be
accepted for as long. -/
def suits (settings : Settings) (a : Acceptance) (severity : Severity) (kev : Bool) : Bool :=
  (!grave severity kev || grave a.severity a.kev) &&
    acceptMaxDays settings a.severity a.kev ≤ acceptMaxDays settings severity kev

/-- Every acceptance that is applied to a finding suits it. -/
def appliedSuit (settings : Settings) (db : Database) (r : Report) (now : Nat) : Bool :=
  let acceptances := expireAcceptances now db.acceptances
  r.distinct.all (fun f =>
    db.items.all (fun i => i.key ≠ f.key || (covering acceptances now i).all (suits settings · f.severity f.kev)) &&
      (db.items.any (fun i => i.key = f.key) ||
        (byRef acceptances now f.source f.ref).all (suits settings · f.severity f.kev)))

/-- Where the source is not checked, the acceptance of an accepted item is still in force. -/
def uncheckedInForce (db : Database) (r : Report) (now : Nat) : Bool :=
  db.items.all (fun i => r.checked i.source || i.status ≠ .accepted || i.acceptanceId.all (fun id =>
    db.acceptances.any (fun a => a.id = id && a.active now)))

def fits (settings : Settings) (s : State) (a : Action) : Bool :=
  match change settings s.db a, syncOf s.db a with
  | .ok db, some (report, now) => appliedSuit settings db report now && uncheckedInForce db report now
  | _, _ => true

/-! ## The register of acceptances -/

/-- What requests and decisions guarantee of the acceptances. -/
structure Register (settings : Settings) (db : Database) : Prop where
  decided : ∀ a ∈ db.acceptances, ∀ u, a.decidedBy = some u → canDecide u a = none
  approved : ∀ a ∈ db.acceptances, a.status = .approved → a.decidedBy ≠ none
  undecided : ∀ a ∈ db.acceptances, a.status = .pending → a.decidedBy = none
  limit : ∀ a ∈ db.acceptances, a.expiresAt ≤ latestEnd settings a.severity a.kev a.requestedAt
  known : ∀ a ∈ db.acceptances, ∀ id, a.itemId = some id → id < db.nextItem
  drawn : ∀ a ∈ db.acceptances, a.id < db.nextAcceptance
  unique : (db.acceptances.map Acceptance.id).Nodup

/-- The register, and an acceptance that meets the rules for every item accepted under one. -/
structure Inv (settings : Settings) (db : Database) : Prop where
  register : Register settings db
  ids : ∀ i ∈ db.items, i.id < db.nextItem
  kept : ∀ i ∈ db.items, i.status = .accepted → ∀ id, i.acceptanceId = some id →
    ∃ a ∈ db.acceptances, a.id = id ∧ meets settings a i = true

theorem canDecide_none {u : User} {a : Acceptance} (h : canDecide u a = none) :
    (u.role = .admin ∨ u.role = .manager) ∧ a.requestedBy ≠ u.id ∧
      (grave a.severity a.kev = true → u.role = .admin) := by
  unfold canDecide at h
  split at h
  · simp at h
  · rename_i hrole
    split at h
    · simp at h
    · rename_i hother
      split at h
      · simp at h
      · rename_i hgrave
        refine ⟨not_not.mp hrole, hother, fun hg => ?_⟩
        by_contra hadmin
        exact hgrave ⟨hg, hadmin⟩

theorem latestEnd_mono {settings : Settings} {severity severity' : Severity} {kev kev' : Bool} (requestedAt : Nat)
    (h : acceptMaxDays settings severity kev ≤ acceptMaxDays settings severity' kev') :
    latestEnd settings severity kev requestedAt ≤ latestEnd settings severity' kev' requestedAt := by
  have hdays := Nat.mul_le_mul_right day h
  unfold latestEnd
  omega

/-- An approved acceptance meets the rules for what it covers and suits. -/
theorem Register.meets_of_suits {settings : Settings} {db : Database} (hdb : Register settings db) {a : Acceptance}
    (ha : a ∈ db.acceptances) (happroved : a.status = .approved) {item : Item}
    (hcovers : covers a item = true) (hsuits : suits settings a item.severity item.kev = true) :
    meets settings a item = true := by
  simp only [suits, Bool.and_eq_true, Bool.or_eq_true, Bool.not_eq_true', decide_eq_true_eq] at hsuits
  obtain ⟨hgrave, hdays⟩ := hsuits
  cases hu : a.decidedBy with
  | none => exact absurd hu (hdb.approved a ha happroved)
  | some u =>
    obtain ⟨hrole, hother, hadmin⟩ := canDecide_none (hdb.decided a ha u hu)
    have hdecided : decidedFor a item.severity item.kev = true := by
      simp only [decidedFor, hu, Option.any_some, Bool.and_eq_true, Bool.or_eq_true, decide_eq_true_eq,
        Bool.not_eq_true']
      refine ⟨⟨hrole.symm, Ne.symm hother⟩, ?_⟩
      rcases hgrave with hplain | hgrave
      · exact Or.inl hplain
      · exact Or.inr (hadmin hgrave)
    have hlimit : a.expiresAt ≤ latestEnd settings item.severity item.kev a.requestedAt :=
      Nat.le_trans (hdb.limit a ha) (latestEnd_mono a.requestedAt hdays)
    simp [meets, hcovers, hdecided, hlimit]

/-- Another version of an acceptance, as good as the one before. -/
structure Carries (settings : Settings) (a b : Acceptance) : Prop where
  id : b.id = a.id
  itemId : b.itemId = a.itemId
  decided : ∀ u, b.decidedBy = some u → canDecide u b = none
  approved : b.status = .approved → b.decidedBy ≠ none
  undecided : b.status = .pending → b.decidedBy = none
  limit : b.expiresAt ≤ latestEnd settings b.severity b.kev b.requestedAt
  meets : ∀ item, meets settings a item = true → meets settings b item = true

section Carries

variable {settings : Settings} {db db' : Database} {a : Acceptance}

theorem Register.same (h : Register settings db) (ha : a ∈ db.acceptances) : Carries settings a a :=
  ⟨rfl, rfl, h.decided a ha, h.approved a ha, h.undecided a ha, h.limit a ha, fun _ hm => hm⟩

/-- An acceptance that ends keeps what was decided. -/
theorem Register.ended (h : Register settings db) (ha : a ∈ db.acceptances) {status : AcceptStatus}
    (happroved : status ≠ .approved) (hpending : status ≠ .pending) : Carries settings a { a with status := status } where
  id := rfl
  itemId := rfl
  decided := h.decided a ha
  approved hs := absurd hs happroved
  undecided hs := absurd hs hpending
  limit := h.limit a ha
  meets _ hm := hm

/-- Nothing is accepted under a request before the decision. -/
theorem Register.decision (h : Register settings db) (ha : a ∈ db.acceptances) (hpending : a.status = .pending)
    {u : User} (hu : canDecide u a = none) {status : AcceptStatus} (hstatus : status ≠ .pending) :
    Carries settings a { a with status := status, decidedBy := some u } where
  id := rfl
  itemId := rfl
  decided := by
    intro v hv
    cases hv
    exact hu
  approved _ := by simp
  undecided hs := absurd hs hstatus
  limit := h.limit a ha
  meets := by
    intro item hm
    simp [Acceptances.meets, decidedFor, h.undecided a ha hpending] at hm

theorem Register.map (h : Register settings db) (g : Acceptance → Acceptance)
    (hg : ∀ a ∈ db.acceptances, Carries settings a (g a)) (hacc : db'.acceptances = db.acceptances.map g)
    (hitem : db.nextItem ≤ db'.nextItem) (hnext : db'.nextAcceptance = db.nextAcceptance) :
    Register settings db' := by
  have hmem : ∀ b ∈ db'.acceptances, ∃ a ∈ db.acceptances, g a = b := by
    intro b hb
    rw [hacc] at hb
    exact List.mem_map.mp hb
  constructor
  · intro b hb u hu
    obtain ⟨a, ha, rfl⟩ := hmem b hb
    exact (hg a ha).decided u hu
  · intro b hb
    obtain ⟨a, ha, rfl⟩ := hmem b hb
    exact (hg a ha).approved
  · intro b hb
    obtain ⟨a, ha, rfl⟩ := hmem b hb
    exact (hg a ha).undecided
  · intro b hb
    obtain ⟨a, ha, rfl⟩ := hmem b hb
    exact (hg a ha).limit
  · intro b hb id hid
    obtain ⟨a, ha, rfl⟩ := hmem b hb
    rw [(hg a ha).itemId] at hid
    exact Nat.lt_of_lt_of_le (h.known a ha id hid) hitem
  · intro b hb
    obtain ⟨a, ha, rfl⟩ := hmem b hb
    rw [(hg a ha).id, hnext]
    exact h.drawn a ha
  · have hids : db'.acceptances.map Acceptance.id = db.acceptances.map Acceptance.id := by
      rw [hacc, List.map_map]
      apply List.map_congr_left
      intro a ha
      exact (hg a ha).id
    rw [hids]
    exact h.unique

/-- One row of the register changes. -/
theorem Inv.put (h : Inv settings db) (ha : a ∈ db.acceptances) {b : Acceptance} (hb : Carries settings a b) :
    Inv settings (put db b) := by
  have hg : ∀ c ∈ db.acceptances, Carries settings c (if c.id = b.id then b else c) := by
    intro c hc
    split
    · rename_i hid
      have hca : c = a := List.inj_on_of_nodup_map h.register.unique hc ha (hid.trans hb.id)
      rw [hca]
      exact hb
    · exact h.register.same hc
  refine ⟨h.register.map _ hg rfl (Nat.le_refl _) rfl, h.ids, ?_⟩
  intro i hi hstatus id hid
  obtain ⟨c, hc, hcid, hmeets⟩ := h.kept i hi hstatus id hid
  exact ⟨_, List.mem_map_of_mem hc, (hg c hc).id.trans hcid, (hg c hc).meets i hmeets⟩

end Carries

/-! ## Requests, decisions and ends keep the register -/

section Change

variable {settings : Settings} {db db' : Database}

theorem getItem_ok {id : Nat} {item : Item} (h : getItem db id = .ok item) : item ∈ db.items := by
  unfold getItem at h
  split at h
  · simp at h
  · rename_i found hfound
    cases h
    exact List.mem_of_find?_eq_some hfound

theorem getAcceptance_ok {id : Nat} {a : Acceptance} (h : getAcceptance db id = .ok a) : a ∈ db.acceptances := by
  unfold getAcceptance at h
  split at h
  · simp at h
  · rename_i found hfound
    cases h
    exact List.mem_of_find?_eq_some hfound

theorem inv_request (hinv : Inv settings db) {item : Item} (hitem : item ∈ db.items) {user : User} {scope : Scope}
    {justification : Str} {expiresAt now : Nat}
    (h : requestAcceptance settings db item user scope justification expiresAt now = .ok db') : Inv settings db' := by
  simp only [requestAcceptance, bind_ok, refuse_ok, pure_ok, Nat.not_lt] at h
  obtain ⟨_, -, _, -, _, -, _, hlimit, _, -, rfl⟩ := h
  obtain ⟨hreg, hids, hkept⟩ := hinv
  have hforall : ∀ {p : Acceptance → Prop} {new : Acceptance}, (∀ a ∈ db.acceptances, p a) → p new →
      ∀ a ∈ db.acceptances ++ [new], p a := by
    intro p new hold hnew a ha
    rcases List.mem_append.mp ha with ha | ha
    · exact hold a ha
    · exact List.mem_singleton.mp ha ▸ hnew
  refine ⟨⟨?_, ?_, ?_, ?_, ?_, ?_, ?_⟩, hids, ?_⟩
  · exact hforall hreg.decided (by simp)
  · exact hforall hreg.approved (by simp)
  · exact hforall hreg.undecided (by simp)
  · exact hforall hreg.limit hlimit
  · apply hforall hreg.known
    intro id hid
    cases scope with
    | item =>
      cases hid
      exact hids item hitem
    | ref => simp at hid
  · apply hforall
    · exact fun a ha => Nat.lt_succ_of_lt (hreg.drawn a ha)
    · exact Nat.lt_succ_self _
  · rw [List.map_append, List.map_singleton]
    apply List.Nodup.append hreg.unique (by simp)
    intro id hold hnew
    obtain ⟨a, ha, rfl⟩ := List.mem_map.mp hold
    have hdrawn := hreg.drawn a ha
    have heq := List.mem_singleton.mp hnew
    dsimp only at heq
    omega
  · intro i hi hstatus id hid
    obtain ⟨a, ha, haid, hmeets⟩ := hkept i hi hstatus id hid
    exact ⟨a, List.mem_append_left _ ha, haid, hmeets⟩

theorem inv_decide (hinv : Inv settings db) {a : Acceptance} (ha : a ∈ db.acceptances) {user : User} {approve : Bool}
    {now : Nat} (h : decideAcceptance db a user approve now = .ok db') : Inv settings db' := by
  simp only [decideAcceptance, bind_ok, refuse_ok, not_not] at h
  obtain ⟨_, hpending, h⟩ := h
  split at h
  · simp at h
  · rename_i hdecide
    simp only [bind_ok, pure_ok] at h
    obtain ⟨_, -, rfl⟩ := h
    apply hinv.put ha
    apply hinv.register.decision ha hpending hdecide
    cases approve <;> simp

theorem inv_end (hinv : Inv settings db) {a : Acceptance} (ha : a ∈ db.acceptances) {user : User}
    (h : endAcceptance db a user = .ok db') : Inv settings db' := by
  simp only [endAcceptance, bind_ok, refuse_ok, pure_ok] at h
  obtain ⟨_, -, _, -, _, -, rfl⟩ := h
  exact hinv.put ha (hinv.register.ended ha (by simp) (by simp))

theorem inv_change (hinv : Inv settings db) {a : Action} (h : change settings db a = .ok db') : Inv settings db' := by
  cases a with
  | request itemId user scope justification expiresAt now =>
    simp only [change, bind_ok] at h
    obtain ⟨item, hitem, h⟩ := h
    exact inv_request hinv (getItem_ok hitem) h
  | decide acceptanceId user approve now report later =>
    simp only [change, bind_ok] at h
    obtain ⟨acc, hacc, h⟩ := h
    exact inv_decide hinv (getAcceptance_ok hacc) h
  | finish acceptanceId user report later =>
    simp only [change, bind_ok] at h
    obtain ⟨acc, hacc, h⟩ := h
    exact inv_end hinv (getAcceptance_ok hacc) h
  | sync report now =>
    cases h
    exact hinv

end Change

/-! ## A synchronisation keeps to the rules -/

section Sync

variable {settings : Settings} {db : Database} {r : Report} {now : Nat} {item : Item} {acceptances : List Acceptance}
  {a : Acceptance}

theorem covering_some (h : covering acceptances now item = some a) :
    a ∈ acceptances ∧ a.active now = true ∧ covers a item = true := by
  rcases Option.or_eq_some_iff.mp ((Option.orElse_eq_or ..).symm.trans h) with hitem | ⟨-, href⟩
  · have hp := List.find?_some hitem
    simp only [Bool.and_eq_true, decide_eq_true_eq] at hp
    exact ⟨List.mem_reverse.mp (List.mem_of_find?_eq_some hitem), hp.1.1, by simp [covers, hp.1.2, hp.2]⟩
  · have hp := List.find?_some href
    simp only [Bool.and_eq_true, decide_eq_true_eq] at hp
    exact ⟨List.mem_reverse.mp (List.mem_of_find?_eq_some href), hp.1.1.1,
      by simp [covers, hp.1.1.2, hp.1.2, hp.2]⟩

theorem covering_same {i j : Item} (h : SameProblem i j) : covering acceptances now j = covering acceptances now i := by
  simp only [covering, h.id, h.source, h.ref]

theorem covers_same {i j : Item} (h : SameProblem i j) : covers a j = covers a i := by
  simp only [covers, h.id, h.source, h.ref]

/-- A new item can be covered by its reference only. -/
theorem covering_new (h : ∀ a ∈ acceptances, ∀ id, a.itemId = some id → id < item.id) :
    covering acceptances now item = byRef acceptances now item.source item.ref := by
  have hnone : byItem acceptances now item.id = none := by
    apply List.find?_eq_none.mpr
    intro a ha
    simp only [Bool.and_eq_true, decide_eq_true_eq, not_and]
    intro _ hid
    have := h a (List.mem_reverse.mp ha) item.id hid
    omega
  simp [covering, hnone]

theorem active_iff : a.active now = true ↔ a.status = .approved ∧ now < a.expiresAt := by simp [Acceptance.active]

/-- What is in force is left by the expiry. -/
theorem mem_expired_of_active (ha : a ∈ db.acceptances) (hactive : a.active now = true) :
    a ∈ (db.expired now).acceptances := by
  obtain ⟨-, hend⟩ := active_iff.mp hactive
  refine List.mem_map.mpr ⟨a, ha, if_neg ?_⟩
  omega

theorem carries_expire (h : Register settings db) (ha : a ∈ db.acceptances) :
    Carries settings a (if a.status = .approved ∧ a.expiresAt ≤ now then { a with status := .expired } else a) := by
  split
  · exact h.ended ha (by simp) (by simp)
  · exact h.same ha

theorem register_sync (h : Inv settings db) : Register settings (Items.sync settings r now db) :=
  h.register.map _ (fun _ ha => carries_expire h.register ha) sync_acceptances (sync_ids h.ids).2 sync_nextAcceptance

theorem register_expired (h : Inv settings db) : Register settings (db.expired now) :=
  h.register.map _ (fun _ ha => carries_expire h.register ha)
    (show (db.expired now).acceptances = expireAcceptances now db.acceptances from rfl) (Nat.le_refl _) rfl

/-- An item that a finding has treated is accepted under an acceptance in force that meets the rules. -/
theorem treated_meets (h : Inv settings db) (hsuit : appliedSuit settings db r now = true) {f : Found}
    (hf : f ∈ r.distinct) (htreated : Treated settings now (db.expired now) f item) (hstatus : item.status = .accepted)
    {id : Nat} (hid : item.acceptanceId = some id) :
    ∃ a ∈ (db.expired now).acceptances, a.id = id ∧ a.active now = true ∧ meets settings a item = true := by
  have hfound := List.all_eq_true.mp hsuit f hf
  simp only [Bool.and_eq_true, List.all_eq_true, Bool.or_eq_true, List.any_eq_true, decide_eq_true_eq] at hfound
  obtain ⟨hexisting, hnew⟩ := hfound
  obtain ⟨base, rfl, hbase⟩ := htreated
  obtain ⟨a, hcovering, haid⟩ := applyAcceptance_accepted settings _ now f base hid hstatus
  obtain ⟨ha, hactive, hcovers⟩ := covering_some hcovering
  have hgrade := applyAcceptance_grade settings (db.expired now).acceptances now f base
  refine ⟨a, ha, haid, hactive, (register_expired h).meets_of_suits ha (active_iff.mp hactive).1 ?_ ?_⟩
  · rw [covers_same (applyAcceptance_same settings _ now f base)]
    exact hcovers
  · rw [hgrade.1, hgrade.2]
    obtain ⟨i, hi, hkey, rfl⟩ | ⟨hfresh, id', hid', rfl⟩ := hbase
    · rw [covering_same ((reopen_same settings now f i).trans (refresh_same settings now f _))] at hcovering
      have hall := (hexisting i hi).resolve_left (by simp [hkey])
      rw [show expireAcceptances now db.acceptances = (db.expired now).acceptances from rfl, hcovering] at hall
      exact hall
    · rw [covering_new] at hcovering
      · have hall := hnew.resolve_left (fun ⟨i, hi, hkey⟩ => hfresh i hi hkey)
        rw [show byRef (expireAcceptances now db.acceptances) now f.source f.ref = some a from hcovering] at hall
        exact hall
      · intro b hb k hk
        exact Nat.lt_of_lt_of_le ((register_expired h).known b hb k hk) hid'

/-- An item that is left accepted is as it was, and its source is not checked. -/
theorem settle_accepted {seen : List Key} {i : Item} (hseen : i.key ∉ seen)
    (h : (settle r now seen i).status = .accepted) : settle r now seen i = i ∧ r.checked i.source = false := by
  unfold settle at h ⊢
  split at h
  · rename_i hleft
    rcases hleft with hkey | hresolved
    · exact absurd hkey hseen
    · rw [h] at hresolved
      simp at hresolved
  · rename_i hopen
    rw [if_neg hopen]
    split at h
    · rename_i hnone
      refine ⟨by simp, ?_⟩
      unfold closeReason at hnone
      split at hnone
      · simp at hnone
      · split at hnone
        · rename_i hchecked
          simpa using hchecked
        · split at hnone
          · simp at hnone
          · split at hnone
            · simp at hnone
            · split at hnone <;> simp at hnone
    · simp at h

/-- After a synchronisation the acceptance of an accepted item is in force and meets the rules. -/
theorem accepted_sync (h : Inv settings db) (hsuit : appliedSuit settings db r now = true)
    (hleft : uncheckedInForce db r now = true) (hitem : item ∈ (Items.sync settings r now db).items)
    (hstatus : item.status = .accepted) {id : Nat} (hid : item.acceptanceId = some id) :
    ∃ a ∈ (Items.sync settings r now db).acceptances, a.id = id ∧ a.active now = true ∧ meets settings a item = true := by
  rw [show (Items.sync settings r now db).acceptances = (db.expired now).acceptances from sync_acceptances]
  rcases mem_sync hitem with ⟨f, hf, htreated⟩ | ⟨i, hi, hkey, rfl⟩
  · exact treated_meets h hsuit hf htreated hstatus hid
  · obtain ⟨hsame, hunchecked⟩ := settle_accepted hkey hstatus
    rw [hsame] at hstatus hid ⊢
    have hforce := List.all_eq_true.mp hleft i hi
    simp only [hunchecked, hstatus, hid, Bool.false_or, ne_eq, not_true_eq_false, decide_false, Option.all_some,
      List.any_eq_true, Bool.and_eq_true, decide_eq_true_eq] at hforce
    obtain ⟨a, ha, haid, hactive⟩ := hforce
    obtain ⟨b, hb, hbid, hmeets⟩ := h.kept i hi hstatus id hid
    have hab : a = b := List.inj_on_of_nodup_map h.register.unique ha hb (haid.trans hbid.symm)
    exact ⟨a, mem_expired_of_active ha hactive, haid, hactive, hab ▸ hmeets⟩

theorem inv_sync (h : Inv settings db) (hsuit : appliedSuit settings db r now = true)
    (hleft : uncheckedInForce db r now = true) : Inv settings (Items.sync settings r now db) := by
  refine ⟨register_sync h, (sync_ids h.ids).1, ?_⟩
  intro item hitem hstatus id hid
  obtain ⟨a, ha, haid, -, hmeets⟩ := accepted_sync h hsuit hleft hitem hstatus hid
  exact ⟨a, ha, haid, hmeets⟩

theorem within_sync (h : Inv settings db) (hsuit : appliedSuit settings db r now = true)
    (hleft : uncheckedInForce db r now = true) (hitem : item ∈ (Items.sync settings r now db).items) :
    withinRules settings now (Items.sync settings r now db).acceptances item = true := by
  unfold withinRules
  by_cases hstatus : item.status = .accepted
  · cases hid : item.acceptanceId with
    | none => simp
    | some id =>
      obtain ⟨a, ha, haid, hactive, hmeets⟩ := accepted_sync h hsuit hleft hitem hstatus hid
      have hany : (Items.sync settings r now db).acceptances.any
          (fun a => a.id = id && a.active now && meets settings a item) = true :=
        List.any_eq_true.mpr ⟨a, ha, by simp [haid, hactive, hmeets]⟩
      simp [hany]
  · simp [hstatus]

end Sync

/-- What holds in every state: the register, and right after a synchronisation the rules. -/
structure StateInv (settings : Settings) (s : State) : Prop where
  inv : Inv settings s.db
  within : ∀ now, s.syncedAt = some now → ∀ item ∈ s.db.items,
    withinRules settings now s.db.acceptances item = true

theorem stateInv_step {settings : Settings} {s s' : State} {a : Action} (h : StateInv settings s)
    (hfits : fits settings s a = true) (hstep : step settings s a = some s') : StateInv settings s' := by
  unfold step at hstep
  unfold fits at hfits
  split at hstep
  · simp at hstep
  · rename_i db hchange
    have hinv := inv_change h.inv hchange
    split at hstep
    · cases hstep
      exact ⟨hinv, by simp⟩
    · rename_i report now hsync
      cases hstep
      simp only [hchange, hsync, Bool.and_eq_true] at hfits
      refine ⟨inv_sync hinv hfits.1 hfits.2, ?_⟩
      intro now' hnow item hitem
      cases hnow
      exact within_sync hinv hfits.1 hfits.2 hitem

/-- Where every acceptance is applied only to findings no graver than the one it was
asked for, and none that ended is left on an item whose source is not checked, the
accepted items are within the rules right after each synchronisation. -/
theorem accepted_within_rules (settings : Settings) {s : State}
    (h : Reach (step settings) (fun s a => fits settings s a = true) begin s) (now : Nat)
    (hsync : s.syncedAt = some now) :
    ∀ item ∈ s.db.items, withinRules settings now s.db.acceptances item = true := by
  have hinv : StateInv settings s := by
    apply h.invariant
    · refine ⟨⟨⟨?_, ?_, ?_, ?_, ?_, ?_, ?_⟩, ?_, ?_⟩, ?_⟩ <;> simp [begin, Database.empty]
    · intro _ _ _ hinv hfits hstep
      exact stateInv_step hinv hfits hstep
  exact hinv.within now hsync

/-- A vulnerability of one asset. -/
def vulnerability (severity : Severity) : Found :=
  ⟨⟨.cve, 7, lit "CVE-2024-6387"⟩, .cve, lit "CVE-2024-6387", 7, severity, false, false, false⟩

def reported (severity : Severity) : Report := ⟨some [vulnerability severity], [], [], [], [], [], [], [], [7]⟩

/-- A user asks to accept it while it is high, and a manager approves. -/
def approvedWhileHigh : List Action :=
  [.sync (reported .high) 0, .request 1 ⟨1, .user⟩ .item (lit "no patch for this release yet") (60 * day) 1,
    .decide 1 ⟨2, .manager⟩ true 2 (reported .high) 3]

theorem accepted_while_high :
    ∃ s, Reach (step Settings.default) (fun s a => fits Settings.default s a = true) begin s ∧ s.syncedAt = some 3 ∧
      (∃ item ∈ s.db.items, item.status = .accepted ∧ item.acceptanceId = some 1) ∧
      ∀ item ∈ s.db.items, withinRules Settings.default 3 s.db.acceptances item = true := by
  have hrun : (run (fun s a => if fits Settings.default s a then step Settings.default s a else none)
      approvedWhileHigh begin).any (fun s => s.syncedAt = some 3 &&
        s.db.items.any (fun i => i.status = .accepted && i.acceptanceId = some 1)) = true := by
          with_unfolding_all decide
  obtain ⟨s, hs, hp⟩ := (Option.any_eq_true _ _).mp hrun
  simp only [Bool.and_eq_true, decide_eq_true_eq, List.any_eq_true] at hp
  have hreach : Reach (step Settings.default) (fun s a => fits Settings.default s a = true) begin s :=
    Reach.run (fun _ _ hok => hok) _ .start hs
  exact ⟨s, hreach, hp.1, hp.2, accepted_within_rules Settings.default hreach 3 hp.1⟩

/-- The vulnerability becomes critical: it stays accepted, by a manager, for twice the days of a critical one. -/
theorem critical_stays_accepted :
    ∃ s, Reach (step Settings.default) (fun _ _ => True) begin s ∧ s.syncedAt = some 4 ∧
      ∃ item ∈ s.db.items, withinRules Settings.default 4 s.db.acceptances item = false := by
  have hrun : (run (fun s a => if true then step Settings.default s a else none)
      (approvedWhileHigh ++ [Action.sync (reported .critical) 4]) begin).any (fun s => s.syncedAt = some 4 &&
        s.db.items.any (fun i => !withinRules Settings.default 4 s.db.acceptances i)) = true := by
          with_unfolding_all decide
  obtain ⟨s, hs, hp⟩ := (Option.any_eq_true _ _).mp hrun
  simp only [Bool.and_eq_true, decide_eq_true_eq, List.any_eq_true, Bool.not_eq_true'] at hp
  exact ⟨s, Reach.run (fun _ _ _ => trivial) _ .start hs, hp.1, hp.2⟩

end Acceptances
