import Ngcorion.Users.Delegation

/-!
# The last active administrator

Changes and deletions of accounts that overlap in time. Each request runs in a
transaction of its own: every query of it reads the tables as they are committed
when it runs, and its own changes are committed at its end. Between two commits
an administrator must remain.
-/
namespace LastAdmin

open Text Refusal Transition Accounts

/-! ## Requests in time -/

/-- All versions of the tables that were committed, the oldest first. -/
structure History where
  past : List Database
  now : Database

/-- The tables after a number of commits. -/
def History.version (h : History) (time : Nat) : Database := (h.past ++ [h.now]).getD time h.now

def History.push (h : History) (db : Database) : History := ⟨h.past ++ [h.now], db⟩

inductive Change where
  | update (userId : Nat) (data : UserUpdate)
  | delete (userId : Nat)

/-- How many commits there were before each query of a request. -/
structure Times where
  /-- `get_current_user` -/
  session : Nat
  /-- The columns of the acting account: noting the use of the session commits, and they are read again. -/
  row : Nat
  permission : Nat
  ownPermissions : Nat
  target : Nat
  actor : Nat
  grants : Nat
  contact : Nat
  held : Nat
  usernames : Nat
  emails : Nat
  admins : Nat

def Times.list (t : Times) : List Nat :=
  [t.session, t.row, t.permission, t.ownPermissions, t.target, t.actor, t.grants, t.contact, t.held, t.usernames,
    t.emails, t.admins]

/-- The queries run one after another, the last of them before the commit. -/
def Times.inOrder (t : Times) (now : Nat) : Bool := (t.list ++ [now]).Pairwise (· ≤ ·)

/-- All queries run after the same commit. -/
def Times.at (n : Nat) : Times := ⟨n, n, n, n, n, n, n, n, n, n, n, n⟩

structure Attempt where
  actorId : Nat
  change : Change
  times : Times

/-- The acting account: active when the session is checked, with the columns of a later query. -/
def sessionUser (h : History) (a : Attempt) : Except Failure User := do
  refuse (!((h.version a.times.session).find a.actorId).any (fun u => u.isActive)) .unauthenticated
  match (h.version a.times.row).find a.actorId with
  | none => .error .integrity
  | some current => .ok current

/-- The row a request is about. A row the session knows already keeps the columns it has. -/
def loadTarget (h : History) (t : Times) (current : User) (userId : Nat) : Except Failure User := do
  let user ← getUserById (h.version t.target) userId
  pure (if user.id = current.id then current else user)

/-- The service looks for the acting account once more; the session keeps the columns it has. -/
def loadActor (h : History) (t : Times) (current : User) : Option User :=
  ((h.version t.actor).find current.id).map (fun _ => current)

def reads (h : History) (t : Times) : Reads :=
  ⟨h.version t.grants, h.version t.contact, h.version t.held, h.version t.usernames, h.version t.emails,
    h.version t.admins⟩

/-- The columns that differ from the row as it was loaded are written. -/
def written {α : Type} [DecidableEq α] (loaded edited current : α) : α := if edited = loaded then current else edited

def merge (loaded edited current : User) : User where
  id := current.id
  username := written loaded.username edited.username current.username
  email := written loaded.email edited.email current.email
  phone := written loaded.phone edited.phone current.phone
  language := written loaded.language edited.language current.language
  hashedPassword := written loaded.hashedPassword edited.hashedPassword current.hashedPassword
  role := written loaded.role edited.role current.role
  isActive := written loaded.isActive edited.isActive current.isActive
  mustChangePassword := written loaded.mustChangePassword edited.mustChangePassword current.mustChangePassword
  authSource := written loaded.authSource edited.authSource current.authSource
  disabledByDirectory := written loaded.disabledByDirectory edited.disabledByDirectory current.disabledByDirectory
  permissions := written loaded.permissions edited.permissions current.permissions

/-- The commit of a change: the row must still be there, and the names and the emails are unique. -/
def commitRow (db : Database) (loaded edited : User) : Except Failure Database :=
  match db.find loaded.id with
  | none => .error .integrity
  | some current => do
    let row := merge loaded edited current
    refuse (db.users.any (fun u => u.id ≠ row.id &&
      (u.username = row.username || (row.email.isSome && u.email = row.email)))) .integrity
    pure (db.save row)

/-- A request from its first query to its commit. -/
def attempt (cfg : Settings) (h : History) (a : Attempt) : Except Failure Database := do
  let current ← sessionUser h a
  match a.change with
  | .update userId data => do
    checkUserManagementPermission (h.version a.times.permission) current .write
    let data ← editable cfg (h.version a.times.ownPermissions) current userId data
    let user ← loadTarget h a.times current userId
    let edited ← editUser cfg (reads h a.times) (loadActor h a.times current) current.id user data
    commitRow h.now user edited
  | .delete userId => do
    checkUserManagementPermission (h.version a.times.permission) current .delete
    let user ← loadTarget h a.times current userId
    checkDelete (h.version a.times.admins) (loadActor h a.times current) current.id user
    pure (h.now.remove user.id)

/-- A request commits; one that is refused leaves no version. -/
def step (cfg : Settings) (h : History) (a : Attempt) : Option History :=
  if a.times.inOrder h.past.length then
    match attempt cfg h a with
    | .error _ => none
    | .ok db => some (h.push db)
  else none

def begin (db : Database) : History := ⟨[], db⟩

/-! ## Administrators -/

def isAdmin (u : User) : Bool := u.role = .admin && u.isActive

/-- An active administrator exists. -/
def hasAdmin (db : Database) : Bool := db.users.any isAdmin

/-- The account with an id is an active administrator. -/
def adminNow (db : Database) (id : Nat) : Bool := (db.find id).any isAdmin

def Change.userId : Change → Nat
  | .update userId _ => userId
  | .delete userId => userId

/-- The request can end with an administrator less. -/
def Change.removing : Change → Bool
  | .update _ data => data.role.isSome || data.isActive = some false
  | .delete _ => true

def Change.sendsRole : Change → Bool
  | .update _ data => data.role.isSome
  | .delete _ => false

/-- The request has counted the active administrators, and there are not fewer now. -/
def countHolds (h : History) (a : Attempt) : Bool :=
  !a.change.sendsRole &&
    ((h.version a.times.target).find a.change.userId).any (fun u => u.role = .admin) &&
    activeAdminCount (h.version a.times.admins) ≤ activeAdminCount h.now

/-- A commit that can take an active administrator away is made by one, or the count it rests on still holds. -/
def unraced (h : History) (a : Attempt) : Bool :=
  !(a.change.removing && adminNow h.now a.change.userId) || adminNow h.now a.actorId || countHolds h a

theorem mem_of_adminNow {db : Database} {id : Nat} (h : adminNow db id = true) :
    ∃ u ∈ db.users, u.id = id ∧ isAdmin u = true := by
  obtain ⟨u, hfind, hadmin⟩ := (Option.any_eq_true _ _).mp h
  obtain ⟨hmem, hid⟩ := Database.find_some hfind
  exact ⟨u, hmem, hid, hadmin⟩

theorem adminNow_of_mem {db : Database} {u : User} (hu : u ∈ db.users) (h : isAdmin u = true) :
    adminNow db u.id = true := by simp [adminNow, Database.find_of_mem hu, h]

/-- Of two active administrators one is not the account with a given id. -/
theorem other_of_count {db : Database} (id : Nat) (h : 2 ≤ activeAdminCount db) :
    ∃ u ∈ db.users, u.id ≠ id ∧ isAdmin u = true := by
  by_contra hnone
  have hsame : ∀ i ∈ (db.users.filter isAdmin).map User.id, i = id := by
    intro i hi
    obtain ⟨u, hu, rfl⟩ := List.mem_map.mp hi
    obtain ⟨hmem, hadmin⟩ := List.mem_filter.mp hu
    by_contra hne
    exact hnone ⟨u, hmem, hne, hadmin⟩
  have hids : (db.users.filter isAdmin).map User.id = List.replicate (db.users.filter isAdmin).length id :=
    List.eq_replicate_iff.mpr ⟨by simp, hsame⟩
  have hnodup : ((db.users.filter isAdmin).map User.id).Nodup :=
    db.unique.sublist (List.Sublist.map _ List.filter_sublist)
  rw [hids, List.nodup_replicate] at hnodup
  have hcount : activeAdminCount db = (db.users.filter isAdmin).length := List.countP_eq_length_filter
  omega

/-- An administrator with another id outlives a change of a row. -/
theorem hasAdmin_save {db : Database} {row w : User} (hw : w ∈ db.users) (hne : w.id ≠ row.id)
    (hadmin : isAdmin w = true) : hasAdmin (db.save row) = true :=
  List.any_eq_true.mpr ⟨w, List.mem_map.mpr ⟨w, hw, by simp [hne]⟩, hadmin⟩

theorem hasAdmin_remove {db : Database} {id : Nat} {w : User} (hw : w ∈ db.users) (hne : w.id ≠ id)
    (hadmin : isAdmin w = true) : hasAdmin (db.remove id) = true :=
  List.any_eq_true.mpr ⟨w, List.mem_filter.mpr ⟨hw, by simp [hne]⟩, hadmin⟩

/-! ## What a request can do to a row -/

theorem setRole_standing {actor : Option User} {actorId : Nat} {data : UserUpdate} {u : User}
    {changed : User × List Permission} (h : setRole actor actorId data u = .ok changed) :
    changed.1.id = u.id ∧ changed.1.isActive = u.isActive ∧
      (changed.1.role ≠ u.role → data.role ≠ none ∧ actorId ≠ u.id) := by
  unfold setRole at h
  split at h
  · cases h
    simp
  · rename_i value hvalue
    simp only [bind_ok, refuse_ok] at h
    obtain ⟨_, -, _, hother, h⟩ := h
    split at h
    · simp at h
    · cases h
      exact ⟨rfl, rfl, fun _ => ⟨by simp [hvalue], hother⟩⟩

theorem setActive_standing {db : Database} {actorId : Nat} {data : UserUpdate} {u u' : User}
    (h : setActive db actorId data u = .ok u') :
    u'.id = u.id ∧ u'.role = u.role ∧ (u.isActive = true → u'.isActive = false →
      data.isActive = some false ∧ actorId ≠ u.id ∧ (u.role = .admin → 2 ≤ activeAdminCount db)) := by
  unfold setActive at h
  split at h
  · cases h
    refine ⟨rfl, rfl, fun hactive hinactive => ?_⟩
    rw [hactive] at hinactive
    simp at hinactive
  · rename_i active hdata
    simp only [bind_ok, refuse_ok, pure_ok] at h
    obtain ⟨_, hself, _, hlast, rfl⟩ := h
    refine ⟨rfl, rfl, fun hactive hinactive => ?_⟩
    dsimp only at hinactive
    subst hinactive
    refine ⟨hdata, fun hid => hself ⟨rfl, hactive, hid⟩, fun hrole => ?_⟩
    have : ¬ activeAdminCount db ≤ 1 := fun hcount => hlast ⟨rfl, hactive, hrole, hcount⟩
    omega

theorem setPermissions_standing {data : UserUpdate} {waiting : List Permission} {u u' : User}
    (h : setPermissions data waiting u = .ok u') : u'.id = u.id ∧ u'.role = u.role ∧ u'.isActive = u.isActive := by
  unfold setPermissions at h
  split at h
  · simp only [bind_ok, pure_ok] at h
    obtain ⟨rows, -, rfl⟩ := h
    simp
  · split at h
    · simp only [bind_ok, pure_ok] at h
      obtain ⟨rows, -, rfl⟩ := h
      simp
    · simp only [bind_ok, pure_ok] at h
      obtain ⟨new, -, rows, -, rfl⟩ := h
      simp

/-- The role changes only for another account, and so does an active account become
inactive; an administrator only after the count. -/
theorem editUser_standing {cfg : Settings} {r : Reads} {actor : Option User} {actorId : Nat} {u u' : User}
    {data : UserUpdate} (h : editUser cfg r actor actorId u data = .ok u') :
    u'.id = u.id ∧ (u'.role ≠ u.role → data.role ≠ none ∧ actorId ≠ u.id) ∧
      (u.isActive = true → u'.isActive = false →
        data.isActive = some false ∧ actorId ≠ u.id ∧ (u'.role = .admin → 2 ≤ activeAdminCount r.admins)) := by
  simp only [editUser, bind_ok, only_ok] at h
  obtain ⟨_, -, _, -, _, -, _, -, u₁, h₁, u₂, h₂, u₃, h₃, changed, h₄, u₅, h₅, h₆⟩ := h
  have hsame : Delegation.SameStanding u u₃ :=
    (((((Delegation.enable_same data u).1.trans (Delegation.setUsername_same h₁).1).trans
      (Delegation.setEmail_same h₂).1).trans (Delegation.setPhone_same data u₂).1).trans
      (Delegation.setLanguage_same data _).1).trans (Delegation.setPassword_same h₃).1
  obtain ⟨hid₄, hactive₄, hrole₄⟩ := setRole_standing h₄
  obtain ⟨hid₅, hrole₅, hactive₅⟩ := setActive_standing h₅
  obtain ⟨hid₆, hrole₆, hactive₆⟩ := setPermissions_standing h₆
  rw [hsame.id] at hid₄ hrole₄
  rw [hsame.role] at hrole₄
  rw [hactive₄, hsame.active, hid₄] at hactive₅
  refine ⟨hid₆.trans (hid₅.trans hid₄), fun hrole => hrole₄ ?_, fun hactive hinactive => ?_⟩
  · rw [hrole₆, hrole₅] at hrole
    exact hrole
  · rw [hactive₆] at hinactive
    obtain ⟨hdata, hother, hcount⟩ := hactive₅ hactive hinactive
    refine ⟨hdata, hother, fun hrole => hcount ?_⟩
    rw [← hrole₅, ← hrole₆]
    exact hrole

theorem editable_standing {cfg : Settings} {db : Database} {current : User} {userId : Nat} {data data' : UserUpdate}
    (h : editable cfg db current userId data = .ok data') :
    data'.isActive = data.isActive ∧ (data'.role ≠ none → data.role ≠ none) := by
  unfold editable at h
  split at h
  · simp only [dropUnchanged, bind_ok, pure_ok] at h
    obtain ⟨_, -, rfl⟩ := h
    refine ⟨rfl, fun hrole hnone => ?_⟩
    simp [hnone] at hrole
  · cases h
    exact ⟨rfl, id⟩

/-- The row of an administrator ceases to be one only if the edit has changed its role
or made it inactive. -/
theorem merge_lost {loaded edited current : User} (hadmin : isAdmin current = true)
    (hlost : isAdmin (merge loaded edited current) = false) :
    edited.role ≠ loaded.role ∨ loaded.isActive = true ∧ edited.isActive = false := by
  simp only [isAdmin, Bool.and_eq_true, decide_eq_true_eq] at hadmin
  by_cases hrole : edited.role = loaded.role
  · right
    simp only [isAdmin, merge, written, hrole, hadmin, if_true, decide_true, Bool.true_and] at hlost
    split at hlost
    · simp at hlost
    · rename_i hne
      rw [hlost] at hne
      exact ⟨by simpa using Ne.symm hne, hlost⟩
  · exact Or.inl hrole

/-! ## A commit leaves an administrator -/

section Commit

variable {cfg : Settings} {h : History} {a : Attempt} {current : User}

theorem sessionUser_id (hcurrent : sessionUser h a = .ok current) : current.id = a.actorId ∧ 0 < current.id := by
  simp only [sessionUser, bind_ok] at hcurrent
  obtain ⟨_, -, hfind⟩ := hcurrent
  split at hfind
  · simp at hfind
  · rename_i found hfound
    cases hfind
    obtain ⟨hmem, hid⟩ := Database.find_some hfound
    exact ⟨hid, ((h.version a.times.row).drawn current hmem).1⟩

theorem loadTarget_ok {userId : Nat} {u : User} (hload : loadTarget h a.times current userId = .ok u) :
    u.id = userId ∧ (current.id ≠ u.id → (h.version a.times.target).find userId = some u) := by
  simp only [loadTarget, bind_ok, pure_ok] at hload
  obtain ⟨v, hv, rfl⟩ := hload
  obtain ⟨hmem, hid⟩ := getUserById_ok hv
  split
  · rename_i hsame
    exact ⟨by omega, fun hne => absurd rfl hne⟩
  · exact ⟨hid, fun _ => hid ▸ Database.find_of_mem hmem⟩

/-- An administrator remains beside the account that a request takes away: the one
who makes the request, or another of those that were counted. -/
theorem other_admin {u : User} (hid : u.id = a.change.userId) (hactor : a.actorId ≠ u.id)
    (hload : (h.version a.times.target).find a.change.userId = some u) (hunraced : unraced h a = true)
    (hremoving : a.change.removing = true) (htarget : adminNow h.now u.id = true)
    (hcount : a.change.sendsRole = false → u.role = .admin → 2 ≤ activeAdminCount (h.version a.times.admins)) :
    ∃ w ∈ h.now.users, w.id ≠ u.id ∧ isAdmin w = true := by
  simp only [unraced, hremoving, ← hid, htarget, Bool.and_self, Bool.not_true, Bool.false_or, Bool.or_eq_true]
    at hunraced
  rcases hunraced with hadmin | hholds
  · obtain ⟨w, hw, hwid, hadmin⟩ := mem_of_adminNow hadmin
    exact ⟨w, hw, by omega, hadmin⟩
  · simp only [countHolds, hload, Option.any_some, Bool.and_eq_true, Bool.not_eq_true', decide_eq_true_eq] at hholds
    obtain ⟨⟨hrole, hadmin⟩, hkept⟩ := hholds
    exact other_of_count u.id (le_trans (hcount hrole hadmin) hkept)

/-- Where the account is no administrator, the administrator there is is another account. -/
theorem other_of_plain {db : Database} (hadmin : hasAdmin db = true) {id : Nat} (hplain : adminNow db id = false) :
    ∃ w ∈ db.users, w.id ≠ id ∧ isAdmin w = true := by
  obtain ⟨w, hw, hadmin⟩ := List.any_eq_true.mp hadmin
  refine ⟨w, hw, ?_, hadmin⟩
  rintro rfl
  rw [adminNow_of_mem hw hadmin] at hplain
  simp at hplain

theorem hasAdmin_update {userId : Nat} {data : UserUpdate} (hchange : a.change = .update userId data)
    (hadmin : hasAdmin h.now = true) (hunraced : unraced h a = true) {db : Database} (hok : attempt cfg h a = .ok db) :
    hasAdmin db = true := by
  simp only [attempt, hchange, bind_ok] at hok
  obtain ⟨current, hcurrent, _, -, data', hdata, u, hload, u', hedit, hcommit⟩ := hok
  obtain ⟨hactorId, -⟩ := sessionUser_id hcurrent
  obtain ⟨huid, hfound⟩ := loadTarget_ok hload
  obtain ⟨hactive', hrole'⟩ := editable_standing hdata
  obtain ⟨hid', hrole, hactive⟩ := editUser_standing hedit
  unfold commitRow at hcommit
  split at hcommit
  · simp at hcommit
  · rename_i row hrow
    simp only [bind_ok, pure_ok] at hcommit
    obtain ⟨_, -, rfl⟩ := hcommit
    obtain ⟨hmem, hrowid⟩ := Database.find_some hrow
    have hmerged : (merge u u' row).id = u.id := hrowid
    by_cases hkept : isAdmin (merge u u' row) = true
    · exact List.any_eq_true.mpr ⟨_, List.mem_map.mpr ⟨row, hmem, by simp [merge]⟩, hkept⟩
    · suffices hother : ∃ w ∈ h.now.users, w.id ≠ u.id ∧ isAdmin w = true by
        obtain ⟨w, hw, hne, hadmin⟩ := hother
        exact hasAdmin_save hw (by rw [hmerged]; exact hne) hadmin
      by_cases htarget : adminNow h.now u.id = true
      · -- The row is an administrator's, and either its role or its flag is written.
        have hrowAdmin : isAdmin row = true := by simpa [adminNow, hrow] using htarget
        have hlost : current.id ≠ u.id ∧ a.change.removing = true ∧ (a.change.sendsRole = false → u.role = .admin →
            2 ≤ activeAdminCount (h.version a.times.admins)) := by
          have hsends : u'.role ≠ u.role → data.role.isSome = true := fun hne =>
            Option.isSome_iff_ne_none.mpr (hrole' (hrole hne).1)
          rcases merge_lost hrowAdmin (by simpa using hkept) with hne | ⟨hwas, hinactive⟩
          · refine ⟨(hrole hne).2, by simp [hchange, Change.removing, hsends hne], fun hnot => ?_⟩
            simp [hchange, Change.sendsRole, hsends hne] at hnot
          · obtain ⟨hsent, hother, hcount⟩ := hactive hwas hinactive
            refine ⟨hother, by simp [hchange, Change.removing, ← hactive', hsent], fun hnot hadmin => hcount ?_⟩
            by_contra hne
            have hsent := hsends (fun hsame => hne (hsame.trans hadmin))
            simp [hchange, Change.sendsRole, hsent] at hnot
        obtain ⟨hother, hremoving, hcount⟩ := hlost
        have htargetId : a.change.userId = userId := by rw [hchange]; rfl
        exact other_admin (by rw [htargetId, huid]) (by rw [← hactorId]; exact hother)
          (by rw [htargetId]; exact hfound hother) hunraced hremoving htarget hcount
      · exact other_of_plain hadmin (by simpa using htarget)

theorem hasAdmin_delete {userId : Nat} (hchange : a.change = .delete userId) (hadmin : hasAdmin h.now = true)
    (hunraced : unraced h a = true) {db : Database} (hok : attempt cfg h a = .ok db) : hasAdmin db = true := by
  simp only [attempt, hchange, bind_ok, pure_ok] at hok
  obtain ⟨current, hcurrent, _, -, u, hload, _, hcheck, rfl⟩ := hok
  obtain ⟨hactorId, hpos⟩ := sessionUser_id hcurrent
  obtain ⟨huid, hfound⟩ := loadTarget_ok hload
  simp only [checkDelete, bind_ok, refuse_ok] at hcheck
  obtain ⟨_, hself, _, -, hlast⟩ := hcheck
  have hother : current.id ≠ u.id := fun hid => hself ⟨by omega, hid.symm⟩
  suffices hrest : ∃ w ∈ h.now.users, w.id ≠ u.id ∧ isAdmin w = true by
    obtain ⟨w, hw, hne, hadmin⟩ := hrest
    exact hasAdmin_remove hw hne hadmin
  by_cases htarget : adminNow h.now u.id = true
  · have htargetId : a.change.userId = userId := by rw [hchange]; rfl
    apply other_admin (by rw [htargetId, huid]) (by rw [← hactorId]; exact hother)
      (by rw [htargetId]; exact hfound hother) hunraced (by simp [hchange, Change.removing]) htarget
    intro _ hrole
    have : ¬ activeAdminCount (h.version a.times.admins) ≤ 1 := fun hcount => hlast ⟨hrole, hcount⟩
    omega
  · exact other_of_plain hadmin (by simpa using htarget)

theorem hasAdmin_step (hadmin : hasAdmin h.now = true) (hunraced : unraced h a = true) {h' : History}
    (hstep : step cfg h a = some h') : hasAdmin h'.now = true := by
  unfold step at hstep
  split at hstep
  · split at hstep
    · simp at hstep
    · rename_i db hok
      cases hstep
      cases hchange : a.change with
      | update userId data => exact hasAdmin_update hchange hadmin hunraced hok
      | delete userId => exact hasAdmin_delete hchange hadmin hunraced hok
  · simp at hstep

end Commit

/-- Where no commit races another one for the last administrators, one remains after every commit. -/
theorem admin_remains (cfg : Settings) (db : Database) (hdb : hasAdmin db = true) {h : History}
    (hreach : Reach (step cfg) (fun h a => unraced h a = true) (begin db) h) : hasAdmin h.now = true := by
  apply hreach.invariant
  · exact hdb
  · intro _ _ _ hadmin hunraced hstep
    exact hasAdmin_step hadmin hunraced hstep

/-- Two administrators. -/
def pair : Database :=
  ⟨[Delegation.account 1 (lit "root") .admin Rows.none, Delegation.account 2 (lit "maria") .admin Rows.none], 3,
    by simp [Delegation.account], by simp [Delegation.account], Delegation.id_left⟩

def deactivate (actorId userId : Nat) : Attempt :=
  ⟨actorId, .update userId ⟨none, none, none, none, none, none, none, some false, none⟩, Times.at 0⟩

/-- One of two administrators deactivates the other. -/
theorem one_of_two_remains :
    ∃ h, Reach (step Delegation.settings) (fun h a => unraced h a = true) (begin pair) h ∧ h.past.length = 1 ∧
      activeAdminCount h.now = 1 ∧ hasAdmin h.now = true := by
  have hrun : (step Delegation.settings (begin pair) (deactivate 1 2)).any
      (fun h => h.past.length = 1 && activeAdminCount h.now = 1) = true := by with_unfolding_all decide
  obtain ⟨h, hstep, hh⟩ := (Option.any_eq_true _ _).mp hrun
  have hreach : Reach (step Delegation.settings) (fun h a => unraced h a = true) (begin pair) h :=
    .step .start (by with_unfolding_all decide) hstep
  simp only [Bool.and_eq_true, decide_eq_true_eq] at hh
  exact ⟨h, hreach, hh.1, hh.2, admin_remains Delegation.settings pair (by with_unfolding_all decide) hreach⟩

/-- Both count two before either commits. -/
theorem two_deactivate_each_other :
    hasAdmin pair = true ∧ ∃ h, Reach (step Delegation.settings) (fun _ _ => True) (begin pair) h ∧
      hasAdmin h.now = false := by
  refine ⟨by with_unfolding_all decide, ?_⟩
  have hrun : (run (fun h a => if true then step Delegation.settings h a else none) [deactivate 1 2, deactivate 2 1]
      (begin pair)).any (fun h => !hasAdmin h.now) = true := by with_unfolding_all decide
  obtain ⟨h, hrun, hnone⟩ := (Option.any_eq_true _ _).mp hrun
  exact ⟨h, Reach.run (fun _ _ _ => trivial) _ .start hrun, by simpa using hnone⟩

end LastAdmin
