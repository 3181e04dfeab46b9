import Ngcorion.Text
import Ngcorion.Dict
import Ngcorion.Refusal
import Ngcorion.Auth.ResetCodes
import Mathlib.Data.List.Nodup

/-!
# User accounts and their permissions

The service and the routes of user management: creating, changing and deleting
accounts, with the guards on what an account that is not an administrator may
hand on.
-/
namespace Accounts

open Text Refusal
open ResetCodes (AuthSource)

/-! ## Roles, modules and permissions -/

inductive Role where
  | guest | user | manager | admin
  deriving DecidableEq

def Role.value : Role → Str
  | .guest => lit "guest"
  | .user => lit "user"
  | .manager => lit "manager"
  | .admin => lit "admin"

/-- `UserRole(value)` -/
def Role.ofValue (value : Str) : Option Role :=
  [Role.admin, .user, .manager, .guest].find? (fun r => r.value = value)

/-- `_ROLE_RANK` -/
def Role.rank : Role → Nat
  | .guest => 0
  | .user => 1
  | .manager => 2
  | .admin => 3

/-- `ModuleEnum` -/
inductive Module where
  | dashboard | assetRequirement | assetList | assetAutoDiscovery | userManagement | auditing | hardening | risk
  | systemConfig | logs | backup | cve | topology | architectureValidation | designConfiguration | deployment
  | drift | noc | remediation | reports | credentialProfiles
  deriving DecidableEq

def Module.all : List Module :=
  [.dashboard, .assetRequirement, .assetList, .assetAutoDiscovery, .userManagement, .auditing, .hardening, .risk,
    .systemConfig, .logs, .backup, .cve, .topology, .architectureValidation, .designConfiguration, .deployment,
    .drift, .noc, .remediation, .reports, .credentialProfiles]

def Module.value : Module → Str
  | .dashboard => lit "dashboard"
  | .assetRequirement => lit "asset_requirement"
  | .assetList => lit "asset_list"
  | .assetAutoDiscovery => lit "asset_auto_discovery"
  | .userManagement => lit "user_management"
  | .auditing => lit "auditing"
  | .hardening => lit "hardening"
  | .risk => lit "risk"
  | .systemConfig => lit "system_config"
  | .logs => lit "logs"
  | .backup => lit "backup"
  | .cve => lit "cve"
  | .topology => lit "topology"
  | .architectureValidation => lit "architecture_validation"
  | .designConfiguration => lit "design_configuration"
  | .deployment => lit "deployment"
  | .drift => lit "drift"
  | .noc => lit "noc"
  | .remediation => lit "remediation"
  | .reports => lit "reports"
  | .credentialProfiles => lit "credential_profiles"

/-- `ModuleEnum(value)` -/
def Module.ofValue (value : Str) : Option Module := Module.all.find? (fun m => m.value = value)

theorem Module.value_of_ofValue {value : Str} {m : Module} (h : Module.ofValue value = some m) : m.value = value := by
  simpa using List.find?_some h

inductive Flag where
  | read | write | delete

def Flag.all : List Flag := [.read, .write, .delete]

theorem Flag.mem_all (f : Flag) : f ∈ Flag.all := by cases f <;> simp [Flag.all]

def Flag.value : Flag → Str
  | .read => lit "read"
  | .write => lit "write"
  | .delete => lit "delete"

/-- A row of `user_permissions`. -/
structure Permission where
  module : Module
  canRead : Bool
  canWrite : Bool
  canDelete : Bool
  deriving DecidableEq

def Permission.flag (p : Permission) : Flag → Bool
  | .read => p.canRead
  | .write => p.canWrite
  | .delete => p.canDelete

/-- A permission as a request spells it. -/
structure PermissionData where
  module : Str
  canRead : Bool
  canWrite : Bool
  canDelete : Bool

def PermissionData.flag (p : PermissionData) : Flag → Bool
  | .read => p.canRead
  | .write => p.canWrite
  | .delete => p.canDelete

def Permission.data (p : Permission) : PermissionData := ⟨p.module.value, p.canRead, p.canWrite, p.canDelete⟩

/-- The permission rows of one user: `unique_user_module`. -/
structure Rows where
  list : List Permission
  unique : (list.map Permission.module).Nodup
  deriving DecidableEq

def Rows.none : Rows := ⟨[], List.nodup_nil⟩

/-- `get_default_permissions` -/
def defaultPermissions : List Permission :=
  Module.all.map (fun m => ⟨m, m = .dashboard || m = .assetList, false, false⟩)

def defaultRows : Rows := ⟨defaultPermissions, by decide⟩

/-! ## The tables -/

structure User where
  id : Nat
  username : Str
  email : Option Str
  phone : Option Str
  language : Option Str
  hashedPassword : Str
  role : Role
  isActive : Bool
  mustChangePassword : Bool
  authSource : AuthSource
  disabledByDirectory : Bool
  permissions : Rows

/-- The accounts and the sequence their ids are drawn from. -/
structure Database where
  users : List User
  nextId : Nat
  unique : (users.map User.id).Nodup
  drawn : ∀ u ∈ users, 0 < u.id ∧ u.id < nextId
  started : 0 < nextId

namespace Database

def find (db : Database) (id : Nat) : Option User := db.users.find? (fun u => u.id = id)

theorem find_some {db : Database} {id : Nat} {u : User} (h : db.find id = some u) : u ∈ db.users ∧ u.id = id :=
  ⟨List.mem_of_find?_eq_some h, by simpa using List.find?_some h⟩

theorem find_of_mem {db : Database} {u : User} (h : u ∈ db.users) : db.find u.id = some u := by
  cases hfind : db.find u.id with
  | none =>
    have := List.find?_eq_none.mp hfind u h
    simp at this
  | some v =>
    obtain ⟨hv, hid⟩ := find_some hfind
    exact congrArg some (List.inj_on_of_nodup_map db.unique hv h hid)

/-- A new row gets the next id of the sequence. -/
def add (db : Database) (u : User) : Database where
  users := db.users ++ [{ u with id := db.nextId }]
  nextId := db.nextId + 1
  unique := by
    have hnew : db.nextId ∉ db.users.map User.id := by
      intro hmem
      obtain ⟨v, hv, hid⟩ := List.mem_map.mp hmem
      have := db.drawn v hv
      omega
    simp only [List.map_append, List.map_cons, List.map_nil]
    exact List.nodup_append.mpr ⟨db.unique, List.nodup_singleton _, fun i hi j hj => by
      rw [List.mem_singleton.mp hj]
      rintro rfl
      exact hnew hi⟩
  drawn := by
    intro v hv
    rcases List.mem_append.mp hv with hv | hv
    · have := db.drawn v hv
      omega
    · rw [List.mem_singleton.mp hv]
      have := db.started
      exact ⟨this, by simp⟩
  started := by omega

theorem mem_add {db : Database} {u v : User} :
    v ∈ (db.add u).users ↔ v ∈ db.users ∨ v = { u with id := db.nextId } := by simp [add]

/-- Write back a row that was read. -/
def save (db : Database) (u : User) : Database where
  users := db.users.map (fun v => if v.id = u.id then u else v)
  nextId := db.nextId
  unique := by
    have hids : (db.users.map (fun v => if v.id = u.id then u else v)).map User.id = db.users.map User.id := by
      rw [List.map_map]
      apply List.map_congr_left
      intro v _
      by_cases hv : v.id = u.id <;> simp [hv]
    rw [hids]
    exact db.unique
  drawn := by
    intro v hv
    obtain ⟨w, hw, rfl⟩ := List.mem_map.mp hv
    have hbounds := db.drawn w hw
    split
    · rename_i hid
      rw [← hid]
      exact hbounds
    · exact hbounds
  started := db.started

theorem mem_save {db : Database} {u v : User} (h : v ∈ (db.save u).users) :
    v = u ∨ v ∈ db.users ∧ v.id ≠ u.id := by
  obtain ⟨w, hw, rfl⟩ := List.mem_map.mp h
  by_cases hid : w.id = u.id
  · simp [hid]
  · simp [hid, hw]

theorem find_save {db : Database} {u u' : User} (hu : u ∈ db.users) (hid : u'.id = u.id) :
    (db.save u').find u.id = some u' := by
  have hmem : u' ∈ (db.save u').users := List.mem_map.mpr ⟨u, hu, by simp [hid]⟩
  rw [← hid]
  exact find_of_mem hmem

def remove (db : Database) (id : Nat) : Database where
  users := db.users.filter (fun v => v.id ≠ id)
  nextId := db.nextId
  unique := db.unique.sublist (List.Sublist.map _ List.filter_sublist)
  drawn := fun v hv => db.drawn v (List.mem_of_mem_filter hv)
  started := db.started

theorem mem_remove {db : Database} {id : Nat} {v : User} (h : v ∈ (db.remove id).users) : v ∈ db.users :=
  List.mem_of_mem_filter h

end Database

/-! ## The service -/

inductive Failure where
  | http (status : Nat) (detail : Str)
  /-- The commit breaks a constraint of the tables. -/
  | integrity
  /-- The request has no session of an active account. -/
  | unauthenticated

/-- Password hashing and the lower case of a text, which the service takes as they are. -/
structure Settings where
  getPasswordHash : Str → Str
  verifyPassword : Str → Str → Bool
  lower : Str → Str

structure UserCreate where
  username : Str
  email : Str
  phone : Option Str
  password : Str
  role : Str
  isActive : Bool
  permissions : Option (List PermissionData)

structure UserUpdate where
  username : Option Str
  email : Option Str
  phone : Option Str
  language : Option Str
  password : Option Str
  currentPassword : Option Str
  role : Option Str
  isActive : Option Bool
  permissions : Option (List PermissionData)

/-- `text or None` -/
def orNone (text : Str) : Option Str := if text = [] then none else some text

def getUserById (db : Database) (userId : Nat) : Except Failure User :=
  let notFound : Failure := .http 404 (lit "User with id " ++ (toString userId).toList ++ lit " not found")
  match db.find userId with
  | none => .error notFound
  | some user => if user.authSource = .apikey then .error notFound else .ok user

theorem getUserById_ok {db : Database} {userId : Nat} {u : User} (h : getUserById db userId = .ok u) :
    u ∈ db.users ∧ u.id = userId := by
  unfold getUserById at h
  split at h
  · simp at h
  · rename_i v hfind
    split at h
    · simp at h
    · cases h
      exact Database.find_some hfind

def getUserPermissions (db : Database) (userId : Nat) : List Permission :=
  ((db.find userId).map (fun u => u.permissions.list)).getD []

/-- `_assert_role_within_reach` -/
def assertRoleWithinReach (actor : Option User) (role : Role) (verb : Str) : Except Failure Unit :=
  match actor with
  | none => .ok ()
  | some a =>
    if a.role = .admin then .ok ()
    else refuse (role = .admin ∨ a.role.rank < role.rank)
      (.http 403 (lit "You cannot " ++ verb ++ lit " a user with the '" ++ role.value ++ lit "' role"))

/-- Whether a flag of a permission is asked for and not among the rows held. -/
def lacks (held : List Permission) (p : PermissionData) (f : Flag) : Bool :=
  p.flag f && !((held.find? (fun mine => mine.module.value = p.module)).any (fun mine => mine.flag f))

/-- `_assert_can_grant` -/
def assertCanGrant (db : Database) (actor : Option User) (permissionsData : Option (List PermissionData)) :
    Except Failure Unit :=
  match actor, permissionsData with
  | some a, some ps =>
    if a.role = .admin then .ok ()
    else
      let asked := ps.flatMap (fun p => Flag.all.map (fun f => (p, f)))
      match asked.find? (fun x => lacks (getUserPermissions db a.id) x.1 x.2) with
      | none => .ok ()
      | some (p, f) => .error (.http 403 (lit "You cannot grant '" ++ f.value ++ lit "' on '" ++ p.module ++
          lit "' because you do not hold it yourself"))
  | _, _ => .ok ()

/-- The row of one permission of a request. -/
def permissionRow (p : PermissionData) : Except Failure Permission :=
  match Module.ofValue p.module with
  | none => .error (.http 400 (lit "Invalid module '" ++ p.module ++ lit "'"))
  | some m => .ok ⟨m, p.canRead, p.canWrite, p.canDelete⟩

/-- Rows that the commit writes: two for one module break `unique_user_module`. -/
def writeRows (rows : List Permission) : Except Failure Rows :=
  if h : (rows.map Permission.module).Nodup then .ok ⟨rows, h⟩ else .error .integrity

/-- `_create_user_permissions`, added to the rows there are. -/
def createUserPermissions (present : Rows) : Option (List PermissionData) → Except Failure Rows
  | none => writeRows (present.list ++ defaultPermissions)
  | some ps => do
    let rows ← ps.mapM permissionRow
    writeRows (present.list ++ rows)

/-- The rows of a new account: none for an administrator, who has all permissions. -/
def firstRows (role : Role) (permissions : Option (List PermissionData)) : Except Failure Rows :=
  if role = .admin then .ok Rows.none else createUserPermissions Rows.none permissions

def createUser (cfg : Settings) (db : Database) (data : UserCreate) (actor : Option User) : Except Failure Database := do
  refuse (db.users.any (fun u => u.username = data.username))
    (.http 400 (lit "Username '" ++ data.username ++ lit "' already exists"))
  refuse (db.users.any (fun u => u.email = some data.email))
    (.http 400 (lit "Email '" ++ data.email ++ lit "' already exists"))
  match Role.ofValue data.role with
  | none => .error (.http 400 (lit "Invalid role '" ++ data.role ++ lit "'. Valid roles: admin, manager, user, guest"))
  | some role => do
    assertRoleWithinReach actor role (lit "create")
    only (role ≠ .admin) (assertCanGrant db actor data.permissions)
    let rows ← firstRows role data.permissions
    pure (db.add ⟨0, data.username, some data.email, data.phone, none, cfg.getPasswordHash data.password, role,
      data.isActive, true, .localAccount, false, rows⟩)

/-- `_active_admin_count` -/
def activeAdminCount (db : Database) : Nat := db.users.countP (fun u => u.role = .admin && u.isActive)

/-- The directory keeps the name, the password, the role and the permissions of its accounts. -/
def directoryOwns (user : User) (data : UserUpdate) : Bool :=
  user.authSource ≠ .localAccount &&
    ((data.username.any (fun n => n ≠ user.username)) || data.password.isSome ||
      (data.role.any (fun r => r ≠ user.role.value)) || data.permissions.isSome)

def newEmail (user : User) (data : UserUpdate) : Bool := data.email.any (fun e => some e ≠ user.email)

def newPhone (user : User) (data : UserUpdate) : Bool := data.phone.any (fun p => orNone p ≠ user.phone)

/-- Whoever sets the email or the number of an account can take it over: only an
account that holds nothing more. -/
def assertContact (contact held : Database) (actor : Option User) (user : User) (data : UserUpdate) :
    Except Failure Unit :=
  match assertCanGrant held actor (some ((getUserPermissions contact user.id).map Permission.data)) with
  | .ok () => .ok ()
  | .error _ => .error (.http 403 (lit "You cannot change the " ++
      (if newEmail user data then lit "email" else lit "mobile number") ++
      lit " of a user who holds permissions you do not hold yourself"))

def enable (data : UserUpdate) (user : User) : User :=
  if data.isActive = some true ∧ user.disabledByDirectory then { user with disabledByDirectory := false } else user

def setUsername (db : Database) (data : UserUpdate) (user : User) : Except Failure User :=
  match data.username with
  | none => .ok user
  | some name => do
    refuse (db.users.any (fun u => u.username = name && u.id ≠ user.id))
      (.http 400 (lit "Username '" ++ name ++ lit "' already exists"))
    pure { user with username := name }

def setEmail (db : Database) (data : UserUpdate) (user : User) : Except Failure User :=
  match data.email with
  | none => .ok user
  | some email => do
    refuse (db.users.any (fun u => u.email = some email && u.id ≠ user.id))
      (.http 400 (lit "Email '" ++ email ++ lit "' already exists"))
    pure { user with email := some email }

def setPhone (data : UserUpdate) (user : User) : User :=
  match data.phone with
  | none => user
  | some phone => { user with phone := orNone phone }

def setLanguage (data : UserUpdate) (user : User) : User :=
  match data.language with
  | none => user
  | some language => { user with language := orNone language }

def setPassword (cfg : Settings) (data : UserUpdate) (user : User) : Except Failure User :=
  match data.password with
  | none => .ok user
  | some password =>
    match data.currentPassword.bind orNone with
    | none => .error (.http 400 (lit "The user's current password is required to set a new password."))
    | some current => do
      refuse (cfg.verifyPassword current user.hashedPassword = false)
        (.http 401 (lit "The provided current password for the user is incorrect."))
      pure { user with hashedPassword := cfg.getPasswordHash password }

/-- A change of role: a new administrator loses the rows in the table, and one who
was an administrator gets the default rows with the commit. -/
def rowsAfterRole (old new : Role) (present : Rows) : Rows × List Permission :=
  if old = new then (present, [])
  else if new = .admin then (Rows.none, [])
  else if old = .admin then (present, defaultPermissions)
  else (present, [])

/-- The user with the new role, and the rows that wait for the commit. -/
def setRole (actor : Option User) (actorId : Nat) (data : UserUpdate) (user : User) :
    Except Failure (User × List Permission) :=
  match data.role with
  | none => .ok (user, [])
  | some value => do
    refuse (actor.any (fun a => a.role ≠ .admin)) (.http 403 (lit "Only administrators can change user roles"))
    refuse (actorId = user.id) (.http 403 (lit "You cannot change your own role"))
    match Role.ofValue value with
    | none => .error (.http 400 (lit "Invalid role '" ++ value ++ lit "'"))
    | some role =>
      let rows := rowsAfterRole user.role role user.permissions
      .ok ({ user with role := role, permissions := rows.1 }, rows.2)

def setActive (db : Database) (actorId : Nat) (data : UserUpdate) (user : User) : Except Failure User :=
  match data.isActive with
  | none => .ok user
  | some active => do
    refuse (active = false ∧ user.isActive ∧ actorId = user.id)
      (.http 400 (lit "You cannot deactivate your own account"))
    refuse (active = false ∧ user.isActive ∧ user.role = .admin ∧ activeAdminCount db ≤ 1)
      (.http 400 (lit "Cannot deactivate the last active admin user"))
    pure { user with isActive := active }

/-- `_update_user_permissions` deletes the rows in the table; those that wait for the
commit (the session does not flush before a query) are written with the new ones. -/
def setPermissions (data : UserUpdate) (waiting : List Permission) (user : User) : Except Failure User :=
  match data.permissions with
  | none => do
    let rows ← writeRows (user.permissions.list ++ waiting)
    pure { user with permissions := rows }
  | some ps =>
    if user.role = .admin then do
      let rows ← writeRows (user.permissions.list ++ waiting)
      pure { user with permissions := rows }
    else do
      let new ← ps.mapM permissionRow
      let rows ← writeRows (waiting ++ new)
      pure { user with permissions := rows }

/-- The account that makes a request, `None` for the id 0. -/
def currentUser (db : Database) (currentUserId : Nat) : Option User :=
  if currentUserId = 0 then none else db.find currentUserId

/-- What the queries in the body of `update_user` read, in their order: each sees the
tables as they are committed when it runs. -/
structure Reads where
  grants : Database
  contact : Database
  held : Database
  usernames : Database
  emails : Database
  admins : Database

/-- Nothing is committed while the request runs. -/
def Reads.alone (db : Database) : Reads := ⟨db, db, db, db, db, db⟩

/-- The body of `update_user` on the rows it has loaded. -/
def editUser (cfg : Settings) (reads : Reads) (actor : Option User) (currentUserId : Nat) (user : User)
    (data : UserUpdate) : Except Failure User := do
  only (currentUserId ≠ user.id) (assertRoleWithinReach actor user.role (lit "modify"))
  assertCanGrant reads.grants actor data.permissions
  only (currentUserId ≠ user.id ∧ (newEmail user data || newPhone user data))
    (assertContact reads.contact reads.held actor user data)
  refuse (directoryOwns user data) (.http 400 (lit "This account comes from the directory: its name, password, " ++
    lit "role and permissions are set there and by the group mapping"))
  let user ← setUsername reads.usernames data (enable data user)
  let user ← setEmail reads.emails data user
  let user ← setPassword cfg data (setLanguage data (setPhone data user))
  let changed ← setRole actor currentUserId data user
  let user ← setActive reads.admins currentUserId data changed.1
  setPermissions data changed.2 user

def updateUser (cfg : Settings) (db : Database) (userId : Nat) (data : UserUpdate) (currentUserId : Nat) :
    Except Failure Database := do
  let user ← getUserById db userId
  let user ← editUser cfg (Reads.alone db) (currentUser db currentUserId) currentUserId user data
  pure (db.save user)

/-- The checks of `delete_user` on the row it has loaded. -/
def checkDelete (db : Database) (actor : Option User) (currentUserId : Nat) (user : User) : Except Failure Unit := do
  refuse (currentUserId ≠ 0 ∧ user.id = currentUserId) (.http 400 (lit "You cannot delete yourself"))
  assertRoleWithinReach actor user.role (lit "delete")
  refuse (user.role = .admin ∧ activeAdminCount db ≤ 1)
    (.http 400 (lit "Cannot delete the last admin user. Create another admin first."))

def deleteUser (db : Database) (userId currentUserId : Nat) : Except Failure Database := do
  let user ← getUserById db userId
  checkDelete db (currentUser db currentUserId) currentUserId user
  pure (db.remove userId)

/-- `check_permission` -/
def checkPermission (db : Database) (userId : Nat) (m : Module) (f : Flag) : Bool :=
  match db.find userId with
  | none => false
  | some user =>
    user.role = .admin || (user.permissions.list.find? (fun p => p.module = m)).any (fun p => p.flag f)

/-! ## The routes -/

def checkUserManagementPermission (db : Database) (current : User) (f : Flag) : Except Failure Unit :=
  if current.role = .admin then .ok ()
  else refuse (checkPermission db current.id .userManagement f = false)
    (.http 403 (lit "You don't have " ++ f.value ++ lit " permission for user management"))

/-- A dictionary of the modules with at least one flag set. -/
def flagsByModule (cfg : Settings) (ps : List PermissionData) : List (Str × Bool × Bool × Bool) :=
  (ps.foldl (fun d p => Dict.set d (cfg.lower p.module) (p.canRead, p.canWrite, p.canDelete)) []).filter
    (fun e => e.2.1 || e.2.2.1 || e.2.2.2)

/-- `_same_permissions` -/
def samePermissions (cfg : Settings) (db : Database) (user : User) (ps : List PermissionData) : Bool :=
  user.role = .admin ||
    let held := flagsByModule cfg ((getUserPermissions db user.id).map Permission.data)
    let sent := flagsByModule cfg ps
    held.all (fun e => Dict.get sent e.1 = some e.2) && sent.all (fun e => Dict.get held e.1 = some e.2)

/-- A form that sends one's own role and permissions back unchanged is not a
change of them; any other is refused. -/
def dropUnchanged (cfg : Settings) (db : Database) (current : User) (data : UserUpdate) :
    Except Failure UserUpdate := do
  let role := if data.role = some current.role.value then none else data.role
  let permissions := if data.permissions.any (samePermissions cfg db current) then none else data.permissions
  refuse (role.isSome || permissions.isSome) (.http 403 (lit "You cannot modify your own role or permissions"))
  pure { data with role := role, permissions := permissions }

def editable (cfg : Settings) (db : Database) (current : User) (userId : Nat) (data : UserUpdate) :
    Except Failure UserUpdate :=
  if userId = current.id then dropUnchanged cfg db current data else .ok data

inductive Request where
  | createUser (data : UserCreate)
  | updateUser (userId : Nat) (data : UserUpdate)
  | deleteUser (userId : Nat)

/-- One request of the account with an id: the tables after it, or why it was
refused. `get_current_user` is passed by an account that exists and is active. -/
def serve (cfg : Settings) (db : Database) (actorId : Nat) (request : Request) : Except Failure Database :=
  match db.find actorId with
  | none => .error .unauthenticated
  | some current =>
    if current.isActive = false then .error .unauthenticated
    else match request with
      | .createUser data => do
        checkUserManagementPermission db current .write
        createUser cfg db data (some current)
      | .updateUser userId data => do
        checkUserManagementPermission db current .write
        let data ← editable cfg db current userId data
        updateUser cfg db userId data current.id
      | .deleteUser userId => do
        checkUserManagementPermission db current .delete
        deleteUser db userId current.id

end Accounts
