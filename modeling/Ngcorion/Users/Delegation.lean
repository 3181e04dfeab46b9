import Ngcorion.Users.Accounts
import Ngcorion.Transition
import Mathlib.Data.List.MinMax

/-!
# What delegated user management can reach

A group of accounts that are not administrators, with every account they create
or take over by setting its email or its number. The group makes requests one
after another; no request gives it a role or a permission that it did not have.
-/
namespace Delegation

open Text Refusal Transition Accounts

/-! ## What an account may do -/

/-- The account holds a permission, by its role or by a row. -/
def May (u : User) (m : Module) (f : Flag) : Prop :=
  u.role = .admin ∨ ∃ p ∈ u.permissions.list, p.module = m ∧ p.flag f = true

/-- With one row a module, the row that is looked up is the row there is. -/
theorem row_found {rows : Rows} {p : Permission} (hp : p ∈ rows.list) :
    rows.list.find? (fun q => q.module = p.module) = some p := by
  cases hfind : rows.list.find? (fun q => q.module = p.module) with
  | none =>
    have := List.find?_eq_none.mp hfind p hp
    simp at this
  | some q =>
    have hq : q.module = p.module := by simpa using List.find?_some hfind
    exact congrArg some (List.inj_on_of_nodup_map rows.unique (List.mem_of_find?_eq_some hfind) hp hq)

theorem checkPermission_iff {db : Database} {u : User} (hu : u ∈ db.users) (m : Module) (f : Flag) :
    checkPermission db u.id m f = true ↔ May u m f := by
  simp only [checkPermission, Database.find_of_mem hu, Bool.or_eq_true, decide_eq_true_eq, May, Option.any_eq_true]
  apply or_congr_right
  constructor
  · rintro ⟨p, hp, hflag⟩
    exact ⟨p, List.mem_of_find?_eq_some hp, by simpa using List.find?_some hp, hflag⟩
  · rintro ⟨p, hp, rfl, hflag⟩
    exact ⟨p, row_found hp, hflag⟩

theorem getUserPermissions_eq {db : Database} {u : User} (hu : u ∈ db.users) :
    getUserPermissions db u.id = u.permissions.list := by simp [getUserPermissions, Database.find_of_mem hu]

theorem ofValue_value (m : Module) : Module.ofValue m.value = some m := by
  cases m <;> with_unfolding_all decide

/-! ## The guards -/

theorem reach_of_ok {a : User} {role : Role} {verb : Str} {r : Unit} (ha : a.role ≠ .admin)
    (h : assertRoleWithinReach (some a) role verb = .ok r) : role ≠ .admin ∧ role.rank ≤ a.role.rank := by
  simp only [assertRoleWithinReach, ha, if_false, refuse_ok, not_or] at h
  exact ⟨h.1, by omega⟩

/-- What a guard on grants lets pass, the account that asks holds itself. -/
theorem may_of_canGrant {db : Database} {a : User} (hmem : a ∈ db.users) (ha : a.role ≠ .admin)
    {ps : List PermissionData} {r : Unit} (h : assertCanGrant db (some a) (some ps) = .ok r) {p : PermissionData}
    (hp : p ∈ ps) {m : Module} (hm : m.value = p.module) {f : Flag} (hf : p.flag f = true) : May a m f := by
  simp only [assertCanGrant, ha, if_false, getUserPermissions_eq hmem] at h
  split at h
  · rename_i hnone
    have hasked : (p, f) ∈ ps.flatMap (fun p => Flag.all.map (fun f => (p, f))) :=
      List.mem_flatMap.mpr ⟨p, hp, List.mem_map.mpr ⟨f, f.mem_all, rfl⟩⟩
    have hlacks := List.find?_eq_none.mp hnone (p, f) hasked
    simp only [lacks, hf, Bool.true_and, Bool.not_eq_true', Bool.not_eq_false, Option.any_eq_true] at hlacks
    obtain ⟨mine, hmine, hflag⟩ := hlacks
    have hvalue : mine.module.value = m.value := by simpa [hm] using List.find?_some hmine
    have hmodule : mine.module = m := by
      have := congrArg Module.ofValue hvalue
      simpa [ofValue_value] using this
    exact Or.inr ⟨mine, List.mem_of_find?_eq_some hmine, hmodule, hflag⟩
  · simp at h

/-- The rows written for a list of a request are the ones it names. -/
theorem row_of_request {ps : List PermissionData} {rows : List Permission} (h : ps.mapM permissionRow = .ok rows)
    {q : Permission} (hq : q ∈ rows) : ∃ p ∈ ps, q.module.value = p.module ∧ ∀ f, q.flag f = p.flag f := by
  obtain ⟨p, hp, hrow⟩ := exists_of_mapM h hq
  refine ⟨p, hp, ?_⟩
  simp only [permissionRow] at hrow
  split at hrow
  · simp at hrow
  · rename_i m hm
    cases hrow
    exact ⟨Module.value_of_ofValue hm, fun f => by cases f <;> rfl⟩

theorem list_of_writeRows {rows : List Permission} {written : Rows} (h : writeRows rows = .ok written) :
    written.list = rows := by
  simp only [writeRows] at h
  split at h
  · cases h
    rfl
  · simp at h

/-- The default rows are the only ones that no guard looks at. -/
theorem may_of_created {db : Database} {a : User} (hmem : a ∈ db.users) (ha : a.role ≠ .admin)
    {data : Option (List PermissionData)} {r : Unit} (hgrant : assertCanGrant db (some a) data = .ok r) {rows : Rows}
    (hrows : createUserPermissions Rows.none data = .ok rows) {p : Permission} (hp : p ∈ rows.list) {f : Flag}
    (hf : p.flag f = true) : May a p.module f ∨ data = none ∧ p ∈ defaultPermissions := by
  cases data with
  | none =>
    simp only [createUserPermissions, Rows.none, List.nil_append] at hrows
    rw [list_of_writeRows hrows] at hp
    exact Or.inr ⟨rfl, hp⟩
  | some ps =>
    simp only [createUserPermissions, Rows.none, List.nil_append, bind_ok] at hrows
    obtain ⟨written, hwritten, hrows⟩ := hrows
    rw [list_of_writeRows hrows] at hp
    obtain ⟨q, hq, hmodule, hflag⟩ := row_of_request hwritten hp
    exact Or.inl (may_of_canGrant hmem ha hgrant hq hmodule (by rw [← hflag, hf]))

theorem may_of_replaced {db : Database} {a : User} (hmem : a ∈ db.users) (ha : a.role ≠ .admin)
    {ps : List PermissionData} {r : Unit} (hgrant : assertCanGrant db (some a) (some ps) = .ok r)
    {rows : List Permission} (hrows : ps.mapM permissionRow = .ok rows) {p : Permission} (hp : p ∈ rows) {f : Flag}
    (hf : p.flag f = true) : May a p.module f := by
  obtain ⟨q, hq, hmodule, hflag⟩ := row_of_request hrows hp
  exact may_of_canGrant hmem ha hgrant hq hmodule (by rw [← hflag, hf])

/-- Who may set the contact of another account holds all that the account holds. -/
theorem may_of_contact {db : Database} {a u : User} (hmem : a ∈ db.users) (ha : a.role ≠ .admin) (hu : u ∈ db.users)
    (hplain : u.role ≠ .admin) {data : UserUpdate} {r : Unit} (h : assertContact db db (some a) u data = .ok r)
    {m : Module} {f : Flag} (hmay : May u m f) : May a m f := by
  obtain ⟨p, hp, rfl, hflag⟩ := hmay.resolve_left hplain
  simp only [assertContact, getUserPermissions_eq hu] at h
  split at h
  · rename_i hgrant
    have hdata : p.data ∈ u.permissions.list.map Permission.data := List.mem_map.mpr ⟨p, hp, rfl⟩
    exact may_of_canGrant hmem ha hgrant hdata rfl (by cases f <;> exact hflag)
  · simp at h

/-! ## What each request does -/

/-- The fields that decide what an account may do are as they were. -/
structure SameRights (u u' : User) : Prop where
  id : u'.id = u.id
  role : u'.role = u.role
  permissions : u'.permissions = u.permissions

theorem SameRights.trans {u v w : User} (h : SameRights u v) (h' : SameRights v w) : SameRights u w :=
  ⟨h'.id.trans h.id, h'.role.trans h.role, h'.permissions.trans h.permissions⟩

/-- So is whether the account is active. -/
structure SameStanding (u u' : User) : Prop extends SameRights u u' where
  active : u'.isActive = u.isActive

theorem SameStanding.trans {u v w : User} (h : SameStanding u v) (h' : SameStanding v w) : SameStanding u w :=
  ⟨h.toSameRights.trans h'.toSameRights, h'.active.trans h.active⟩

/-- The email and the number are as they were. -/
def SameContact (u u' : User) : Prop := u'.email = u.email ∧ u'.phone = u.phone

theorem SameContact.trans {u v w : User} (h : SameContact u v) (h' : SameContact v w) : SameContact u w :=
  ⟨h'.1.trans h.1, h'.2.trans h.2⟩

theorem enable_same (data : UserUpdate) (u : User) : SameStanding u (enable data u) ∧ SameContact u (enable data u) := by
  unfold enable
  split <;> exact ⟨⟨⟨rfl, rfl, rfl⟩, rfl⟩, rfl, rfl⟩

theorem setUsername_same {db : Database} {data : UserUpdate} {u u' : User} (h : setUsername db data u = .ok u') :
    SameStanding u u' ∧ SameContact u u' := by
  unfold setUsername at h
  split at h
  · cases h
    exact ⟨⟨⟨rfl, rfl, rfl⟩, rfl⟩, rfl, rfl⟩
  · simp only [bind_ok, pure_ok] at h
    obtain ⟨_, -, rfl⟩ := h
    exact ⟨⟨⟨rfl, rfl, rfl⟩, rfl⟩, rfl, rfl⟩

theorem setEmail_same {db : Database} {data : UserUpdate} {u u' : User} (h : setEmail db data u = .ok u') :
    SameStanding u u' ∧ u'.phone = u.phone ∧ (newEmail u data = false → u'.email = u.email) := by
  unfold setEmail at h
  split at h
  · cases h
    exact ⟨⟨⟨rfl, rfl, rfl⟩, rfl⟩, rfl, fun _ => rfl⟩
  · rename_i email hemail
    simp only [bind_ok, pure_ok] at h
    obtain ⟨_, -, rfl⟩ := h
    exact ⟨⟨⟨rfl, rfl, rfl⟩, rfl⟩, rfl, fun hnew => by simpa [newEmail, hemail] using hnew⟩

theorem setPhone_same (data : UserUpdate) (u : User) :
    SameStanding u (setPhone data u) ∧ (setPhone data u).email = u.email ∧
      (newPhone u data = false → (setPhone data u).phone = u.phone) := by
  unfold setPhone
  split
  · exact ⟨⟨⟨rfl, rfl, rfl⟩, rfl⟩, rfl, fun _ => rfl⟩
  · rename_i phone hphone
    exact ⟨⟨⟨rfl, rfl, rfl⟩, rfl⟩, rfl, fun hnew => by simpa [newPhone, hphone] using hnew⟩

theorem setLanguage_same (data : UserUpdate) (u : User) :
    SameStanding u (setLanguage data u) ∧ SameContact u (setLanguage data u) := by
  unfold setLanguage
  split <;> exact ⟨⟨⟨rfl, rfl, rfl⟩, rfl⟩, rfl, rfl⟩

theorem setPassword_same {cfg : Settings} {data : UserUpdate} {u u' : User} (h : setPassword cfg data u = .ok u') :
    SameStanding u u' ∧ SameContact u u' := by
  unfold setPassword at h
  split at h
  · cases h
    exact ⟨⟨⟨rfl, rfl, rfl⟩, rfl⟩, rfl, rfl⟩
  · split at h
    · simp at h
    · simp only [bind_ok, pure_ok] at h
      obtain ⟨_, -, rfl⟩ := h
      exact ⟨⟨⟨rfl, rfl, rfl⟩, rfl⟩, rfl, rfl⟩

/-- Only an administrator changes a role. -/
theorem setRole_same {a : User} (ha : a.role ≠ .admin) {actorId : Nat} {data : UserUpdate} {u : User}
    {changed : User × List Permission} (h : setRole (some a) actorId data u = .ok changed) : changed = (u, []) := by
  unfold setRole at h
  split at h
  · cases h
    rfl
  · simp [ha] at h

theorem setActive_same {db : Database} {actorId : Nat} {data : UserUpdate} {u u' : User}
    (h : setActive db actorId data u = .ok u') : SameRights u u' ∧ SameContact u u' := by
  unfold setActive at h
  split at h
  · cases h
    exact ⟨⟨rfl, rfl, rfl⟩, rfl, rfl⟩
  · simp only [bind_ok, pure_ok] at h
    obtain ⟨_, -, _, -, rfl⟩ := h
    exact ⟨⟨rfl, rfl, rfl⟩, rfl, rfl⟩

theorem setPermissions_spec {data : UserUpdate} {u u' : User} (h : setPermissions data [] u = .ok u') :
    u'.id = u.id ∧ u'.role = u.role ∧ SameContact u u' ∧
      (u'.permissions.list = u.permissions.list ∨ ∃ ps, data.permissions = some ps ∧
        ps.mapM permissionRow = .ok u'.permissions.list) := by
  have hkept : ∀ rows, writeRows (u.permissions.list ++ []) = .ok rows → rows.list = u.permissions.list := by
    intro rows hrows
    rw [list_of_writeRows hrows, List.append_nil]
  unfold setPermissions at h
  split at h
  · simp only [bind_ok, pure_ok] at h
    obtain ⟨rows, hrows, rfl⟩ := h
    exact ⟨rfl, rfl, ⟨rfl, rfl⟩, Or.inl (hkept rows hrows)⟩
  · rename_i ps hps
    split at h
    · simp only [bind_ok, pure_ok] at h
      obtain ⟨rows, hrows, rfl⟩ := h
      exact ⟨rfl, rfl, ⟨rfl, rfl⟩, Or.inl (hkept rows hrows)⟩
    · simp only [bind_ok, pure_ok, List.nil_append] at h
      obtain ⟨new, hnew, rows, hrows, rfl⟩ := h
      exact ⟨rfl, rfl, ⟨rfl, rfl⟩, Or.inr ⟨ps, hps, list_of_writeRows hrows ▸ hnew⟩⟩

/-- What an account that is not an administrator can make of another one. -/
structure Updated (a u u' : User) : Prop where
  id : u'.id = u.id
  role : u'.role = u.role
  reach : a.id ≠ u.id → u.role ≠ .admin ∧ u.role.rank ≤ a.role.rank
  may : ∀ m f, May u' m f → May u m f ∨ May a m f
  contact : a.id ≠ u.id → ¬ SameContact u u' → ∀ m f, May u m f → May a m f

theorem May.congr {u u' : User} (hrole : u'.role = u.role) (hrows : u'.permissions.list = u.permissions.list) {m : Module}
    {f : Flag} (h : May u' m f) : May u m f := by
  unfold May at h ⊢
  rw [← hrole, ← hrows]
  exact h

theorem updateUser_updated {cfg : Settings} {db db' : Database} {a : User} (hmem : a ∈ db.users) (ha : a.role ≠ .admin)
    {userId : Nat} {data : UserUpdate} (h : updateUser cfg db userId data a.id = .ok db') :
    ∃ u u', u ∈ db.users ∧ u.id = userId ∧ db' = db.save u' ∧ Updated a u u' := by
  have hactor : currentUser db a.id = some a := by
    have hpos := (db.drawn a hmem).1
    simp [currentUser, Database.find_of_mem hmem, show a.id ≠ 0 by omega]
  simp only [updateUser, bind_ok, pure_ok, hactor] at h
  obtain ⟨u, hu, u₆, hedit, rfl⟩ := h
  obtain ⟨husers, rfl⟩ := getUserById_ok hu
  simp only [editUser, Reads.alone, bind_ok, only_ok] at hedit
  obtain ⟨_, hreach, _, hgrant, _, hcontact, _, -, u₁, h₁, u₂, h₂, u₃, h₃, changed, h₄, u₅, h₅, h₆⟩ := hedit
  have hreach' : a.id ≠ u.id → u.role ≠ .admin ∧ u.role.rank ≤ a.role.rank := by
    intro hne
    exact reach_of_ok ha (hreach hne)
  obtain ⟨hr₀, hc₀⟩ := enable_same data u
  obtain ⟨hr₁, hc₁⟩ := setUsername_same h₁
  obtain ⟨hr₂, hphone₂, hemail₂⟩ := setEmail_same h₂
  obtain ⟨hr₃, hemail₃, hphone₃⟩ := setPhone_same data u₂
  obtain ⟨hr₄, hc₄⟩ := setLanguage_same data (setPhone data u₂)
  obtain ⟨hr₅, hc₅⟩ := setPassword_same h₃
  have hu₄ := setRole_same ha h₄
  subst hu₄
  dsimp only at h₅ h₆
  obtain ⟨hr₆, hc₆⟩ := setActive_same h₅
  obtain ⟨hid₇, hrole₇, hc₇, hrows₇⟩ := setPermissions_spec h₆
  have hrights : SameRights u u₅ :=
    (((((hr₀.trans hr₁).trans hr₂).trans hr₃).trans hr₄).trans hr₅).toSameRights.trans hr₆
  have hstart : SameContact u u₁ := hc₀.trans hc₁
  have hend : SameContact (setPhone data u₂) u₆ := ((hc₄.trans hc₅).trans hc₆).trans hc₇
  -- An email or a number that differs at the end is one that the request has asked for.
  have hnew : ¬ SameContact u u₆ → (newEmail u data || newPhone u data) = true := by
    intro hchanged
    by_contra hnot
    simp only [Bool.or_eq_true, not_or, Bool.not_eq_true] at hnot
    obtain ⟨hnoEmail, hnoPhone⟩ := hnot
    apply hchanged
    have hemail : u₂.email = u.email :=
      (hemail₂ (by simpa [newEmail, hstart.1] using hnoEmail)).trans hstart.1
    have hphone : u₂.phone = u.phone := hphone₂.trans hstart.2
    exact ⟨(hend.1.trans hemail₃).trans hemail,
      (hend.2.trans (hphone₃ (by simpa [newPhone, hphone] using hnoPhone))).trans hphone⟩
  refine ⟨u, u₆, husers, rfl, rfl, hid₇.trans hrights.id, hrole₇.trans hrights.role, hreach', ?_, ?_⟩
  · intro m f hmay
    rcases hrows₇ with hsame | ⟨ps, hps, hreplaced⟩
    · exact Or.inl (hmay.congr (hrole₇.trans hrights.role) (hsame.trans (congrArg Rows.list hrights.permissions)))
    · rcases hmay with hadmin | ⟨p, hp, rfl, hflag⟩
      · exact Or.inl (Or.inl (by rw [← hadmin, hrole₇, hrights.role]))
      · rw [hps] at hgrant
        exact Or.inr (may_of_replaced hmem ha hgrant hreplaced hp hflag)
  · intro hne hchanged m f hmay
    exact may_of_contact hmem ha husers (hreach' hne).1 (hcontact ⟨hne, hnew hchanged⟩) hmay

/-- What a new account of one that is not an administrator is like. -/
structure Created (db : Database) (a : User) (data : UserCreate) (u : User) : Prop where
  role : u.role ≠ .admin
  rank : u.role.rank ≤ a.role.rank
  may : ∀ m f, May u m f → May a m f ∨
    data.permissions = none ∧ ∃ p ∈ defaultPermissions, p.module = m ∧ p.flag f = true

theorem createUser_created {cfg : Settings} {db db' : Database} {a : User} (hmem : a ∈ db.users) (ha : a.role ≠ .admin)
    {data : UserCreate} (h : createUser cfg db data (some a) = .ok db') :
    ∃ u, db' = db.add u ∧ Created db a data u := by
  simp only [createUser, bind_ok] at h
  obtain ⟨_, -, _, -, h⟩ := h
  split at h
  · simp at h
  · rename_i role _
    simp only [bind_ok, only_ok, pure_ok] at h
    obtain ⟨_, hreach, _, hgrant, rows, hrows, rfl⟩ := h
    obtain ⟨hrole, hrank⟩ := reach_of_ok ha hreach
    rw [firstRows, if_neg hrole] at hrows
    refine ⟨_, rfl, hrole, hrank, ?_⟩
    intro m f hmay
    obtain ⟨p, hp, rfl, hflag⟩ := hmay.resolve_left hrole
    rcases may_of_created hmem ha (hgrant hrole) hrows hp hflag with hmay | ⟨hnone, hdefault⟩
    · exact Or.inl hmay
    · exact Or.inr ⟨hnone, p, hdefault, rfl, hflag⟩

theorem deleteUser_removed {db db' : Database} {userId actorId : Nat} (h : deleteUser db userId actorId = .ok db') :
    db' = db.remove userId := by
  simp only [deleteUser, bind_ok, pure_ok] at h
  obtain ⟨_, -, _, -, rfl⟩ := h
  rfl

/-- What the requests of an account that is not an administrator do to the tables. -/
theorem serve_cases {cfg : Settings} {db db' : Database} {a : User} (hmem : a ∈ db.users) (ha : a.role ≠ .admin)
    {request : Request} (h : serve cfg db a.id request = .ok db') :
    (∃ data u, request = .createUser data ∧ db' = db.add u ∧ Created db a data u) ∨
    (∃ data u u', request = .updateUser u.id data ∧ u ∈ db.users ∧ db' = db.save u' ∧ Updated a u u') ∨
    ∃ userId, request = .deleteUser userId ∧ db' = db.remove userId := by
  simp only [serve, Database.find_of_mem hmem] at h
  split at h
  · simp at h
  · cases request with
    | createUser data =>
      simp only [bind_ok] at h
      obtain ⟨_, -, h⟩ := h
      obtain ⟨u, rfl, hu⟩ := createUser_created hmem ha h
      exact Or.inl ⟨data, u, rfl, rfl, hu⟩
    | updateUser userId data =>
      simp only [bind_ok] at h
      obtain ⟨_, -, data', -, h⟩ := h
      obtain ⟨u, u', hu, rfl, rfl, hupdated⟩ := updateUser_updated hmem ha h
      exact Or.inr (Or.inl ⟨data, u, u', rfl, hu, rfl, hupdated⟩)
    | deleteUser userId =>
      simp only [bind_ok] at h
      obtain ⟨_, -, h⟩ := h
      exact Or.inr (Or.inr ⟨userId, rfl, deleteUser_removed h⟩)

/-! ## The group and its requests -/

/-- An account has set the email or the number of another one. -/
structure Takeover where
  before : Database
  actor : Nat
  account : Nat

/-- The tables, the ids of the controlled accounts and the accounts taken over. -/
structure System where
  db : Database
  controlled : List Nat
  takeovers : List Takeover

def begin (db : Database) (given : List Nat) : System := ⟨db, given, []⟩

/-- The controlled accounts there are. -/
def System.accounts (s : System) : List User := s.db.users.filter (fun u => u.id ∈ s.controlled)

theorem System.mem_accounts {s : System} {u : User} : u ∈ s.accounts ↔ u ∈ s.db.users ∧ u.id ∈ s.controlled := by
  simp [System.accounts]

/-- The account has another email or another number than before. -/
def contactChanged (db db' : Database) (id : Nat) : Bool :=
  match db.find id, db'.find id with
  | some u, some u' => u'.email ≠ u.email || u'.phone ≠ u.phone
  | _, _ => false

/-- The ids that a request brings under control. -/
def broughtIn (db db' : Database) : Request → List Nat
  | .createUser _ => [db.nextId]
  | .updateUser userId _ => if contactChanged db db' userId then [userId] else []
  | .deleteUser _ => []

def takenOver (db db' : Database) (actorId : Nat) : Request → List Takeover
  | .updateUser userId _ =>
    if userId ≠ actorId && contactChanged db db' userId then [⟨db, actorId, userId⟩] else []
  | _ => []

/-- One request of an account; a refused one changes nothing. -/
def step (cfg : Settings) (s : System) (a : Nat × Request) : Option System :=
  match serve cfg s.db a.1 a.2 with
  | .error _ => some s
  | .ok db' => some ⟨db', broughtIn s.db db' a.2 ++ s.controlled, takenOver s.db db' a.1 a.2 ++ s.takeovers⟩

/-- The highest rank of a role among the controlled accounts. -/
def highestRole (s : System) : WithBot Nat := (s.accounts.map (fun u => u.role.rank)).maximum

/-- A permission was held by a controlled account at the start, or by an account
taken over when the one that took it over held it too. -/
def Accounted (start s : System) (m : Module) (f : Flag) : Prop :=
  (∃ u ∈ start.accounts, checkPermission start.db u.id m f = true) ∨
    ∃ t ∈ s.takeovers, checkPermission t.before t.account m f = true ∧ checkPermission t.before t.actor m f = true

/-- A new account without a list of permissions gets default ones: each of them
is held by a controlled account. -/
def defaultsHeld (s : System) : Request → Bool
  | .createUser data => data.permissions.isSome || defaultPermissions.all (fun p => Flag.all.all (fun f =>
      !p.flag f || s.accounts.any (fun u => checkPermission s.db u.id p.module f)))
  | _ => true

/-! ## What a run keeps -/

/-- The group has nothing that it did not have before. -/
structure Contained (s s' : System) : Prop where
  plain : ∀ u ∈ s'.accounts, u.role ≠ .admin
  rank : ∀ u ∈ s'.accounts, ∃ v ∈ s.accounts, u.role.rank ≤ v.role.rank
  may : ∀ u ∈ s'.accounts, ∀ m f, May u m f → ∃ v ∈ s.accounts, May v m f

theorem Contained.refl {s : System} (h : ∀ u ∈ s.accounts, u.role ≠ .admin) : Contained s s :=
  ⟨h, fun u hu => ⟨u, hu, le_refl _⟩, fun u hu _ _ hmay => ⟨u, hu, hmay⟩⟩

theorem Contained.trans {s₁ s₂ s₃ : System} (h : Contained s₁ s₂) (h' : Contained s₂ s₃) : Contained s₁ s₃ where
  plain := h'.plain
  rank := by
    intro u hu
    obtain ⟨v, hv, huv⟩ := h'.rank u hu
    obtain ⟨w, hw, hvw⟩ := h.rank v hv
    exact ⟨w, hw, le_trans huv hvw⟩
  may := by
    intro u hu m f hmay
    obtain ⟨v, hv, hmay⟩ := h'.may u hu m f hmay
    exact h.may v hv m f hmay

theorem Contained.highest {s s' : System} (h : Contained s s') : highestRole s' ≤ highestRole s := by
  apply List.maximum_le_of_forall_le
  intro r hr
  obtain ⟨u, hu, rfl⟩ := List.mem_map.mp hr
  obtain ⟨v, hv, hrank⟩ := h.rank u hu
  calc ((u.role.rank : Nat) : WithBot Nat) ≤ (v.role.rank : Nat) := WithBot.coe_le_coe.mpr hrank
    _ ≤ highestRole s := List.le_maximum_of_mem' (List.mem_map.mpr ⟨v, hv, rfl⟩)

/-- An account that was controlled before, or one that has less than a controlled account. -/
theorem contained_of_cases {s s' : System} (hplain : ∀ u ∈ s.accounts, u.role ≠ .admin)
    (h : ∀ u ∈ s'.accounts, u ∈ s.accounts ∨ (u.role ≠ .admin ∧ (∃ v ∈ s.accounts, u.role.rank ≤ v.role.rank) ∧
      ∀ m f, May u m f → ∃ v ∈ s.accounts, May v m f)) : Contained s s' where
  plain := fun u hu => (h u hu).elim (hplain u) (fun h => h.1)
  rank := fun u hu => (h u hu).elim (fun hu => ⟨u, hu, le_refl _⟩) (fun h => h.2.1)
  may := fun u hu m f hmay => (h u hu).elim (fun hu => ⟨u, hu, hmay⟩) (fun h => h.2.2 m f hmay)

theorem contained_of_created {s : System} (hplain : ∀ u ∈ s.accounts, u.role ≠ .admin) {a : User}
    (ha : a ∈ s.accounts) {data : UserCreate} (hdefaults : defaultsHeld s (.createUser data) = true) {u : User}
    (hu : Created s.db a data u) (takeovers : List Takeover) :
    Contained s ⟨s.db.add u, s.db.nextId :: s.controlled, takeovers⟩ := by
  apply contained_of_cases hplain
  intro v hv
  obtain ⟨hmem, hcontrolled⟩ := System.mem_accounts.mp hv
  rcases Database.mem_add.mp hmem with hmem | rfl
  · have hold : v.id ≠ s.db.nextId := by
      have := s.db.drawn v hmem
      omega
    exact Or.inl (System.mem_accounts.mpr ⟨hmem, (List.mem_cons.mp hcontrolled).resolve_left hold⟩)
  · refine Or.inr ⟨hu.role, ⟨a, ha, hu.rank⟩, ?_⟩
    intro m f hmay
    rcases hu.may m f hmay with hmay | ⟨hnone, p, hp, rfl, hflag⟩
    · exact ⟨a, ha, hmay⟩
    · simp only [defaultsHeld, hnone, Option.isSome_none, Bool.false_or, List.all_eq_true] at hdefaults
      have hheld := hdefaults p hp f f.mem_all
      simp only [hflag, Bool.not_true, Bool.false_or, List.any_eq_true] at hheld
      obtain ⟨w, hw, hmay⟩ := hheld
      exact ⟨w, hw, (checkPermission_iff (System.mem_accounts.mp hw).1 _ _).mp hmay⟩

theorem contained_of_updated {s : System} (hplain : ∀ u ∈ s.accounts, u.role ≠ .admin) {a : User}
    (ha : a ∈ s.accounts) {u u' : User} (hu : u ∈ s.db.users) (h : Updated a u u') (takeovers : List Takeover) :
    Contained s ⟨s.db.save u', (if contactChanged s.db (s.db.save u') u.id then [u.id] else []) ++ s.controlled,
      takeovers⟩ := by
  apply contained_of_cases hplain
  intro v hv
  obtain ⟨hmem, hcontrolled⟩ := System.mem_accounts.mp hv
  rcases Database.mem_save hmem with rfl | ⟨hmem, hne⟩
  · -- The account that was changed: controlled before, or taken over by this request.
    by_cases hbefore : u.id ∈ s.controlled
    · have hu' : u ∈ s.accounts := System.mem_accounts.mpr ⟨hu, hbefore⟩
      refine Or.inr ⟨h.role ▸ hplain u hu', ⟨u, hu', by rw [h.role]⟩, ?_⟩
      intro m f hmay
      exact (h.may m f hmay).elim (fun hmay => ⟨u, hu', hmay⟩) (fun hmay => ⟨a, ha, hmay⟩)
    · have hother : a.id ≠ u.id := by
        intro hid
        exact hbefore (hid ▸ (System.mem_accounts.mp ha).2)
      have hchanged : contactChanged s.db (s.db.save v) u.id = true := by
        by_contra hsame
        rw [if_neg hsame, List.nil_append, h.id] at hcontrolled
        exact hbefore hcontrolled
      have hcontact : ¬ SameContact u v := by
        simp only [contactChanged, Database.find_of_mem hu, Database.find_save hu h.id] at hchanged
        simpa [SameContact, imp_iff_not_or] using hchanged
      obtain ⟨hrole, hrank⟩ := h.reach hother
      refine Or.inr ⟨h.role ▸ hrole, ⟨a, ha, h.role ▸ hrank⟩, ?_⟩
      intro m f hmay
      exact ⟨a, ha, (h.may m f hmay).elim (h.contact hother hcontact m f) id⟩
  · refine Or.inl (System.mem_accounts.mpr ⟨hmem, ?_⟩)
    rcases List.mem_append.mp hcontrolled with hin | hin
    · split at hin
      · rw [List.mem_singleton, ← h.id] at hin
        exact absurd hin hne
      · simp at hin
    · exact hin

theorem contained_of_removed {s : System} (hplain : ∀ u ∈ s.accounts, u.role ≠ .admin) (userId : Nat)
    (takeovers : List Takeover) : Contained s ⟨s.db.remove userId, s.controlled, takeovers⟩ := by
  apply contained_of_cases hplain
  intro v hv
  obtain ⟨hmem, hcontrolled⟩ := System.mem_accounts.mp hv
  exact Or.inl (System.mem_accounts.mpr ⟨Database.mem_remove hmem, hcontrolled⟩)

/-- A request is made by a controlled account, and the default permissions it hands on are held. -/
def allowed (s : System) (a : Nat × Request) : Prop := a.1 ∈ s.controlled ∧ defaultsHeld s a.2 = true

theorem contained_of_step {cfg : Settings} {s s' : System} {a : Nat × Request}
    (hplain : ∀ u ∈ s.accounts, u.role ≠ .admin) (hallowed : allowed s a) (h : step cfg s a = some s') :
    Contained s s' := by
  obtain ⟨actorId, request⟩ := a
  obtain ⟨hactor, hdefaults⟩ := hallowed
  unfold step at h
  split at h
  · cases h
    exact Contained.refl hplain
  · rename_i db' hserve
    cases h
    cases hfind : s.db.find actorId with
    | none => simp [serve, hfind] at hserve
    | some actor =>
      obtain ⟨hmem, rfl⟩ := Database.find_some hfind
      have ha : actor ∈ s.accounts := System.mem_accounts.mpr ⟨hmem, hactor⟩
      obtain ⟨data, u, rfl, rfl, hu⟩ | ⟨data, u, u', rfl, hu, rfl, hupdated⟩ | ⟨userId, rfl, rfl⟩ :=
        serve_cases hmem (hplain actor ha) hserve
      · exact contained_of_created hplain ha hdefaults hu _
      · exact contained_of_updated hplain ha hu hupdated _
      · exact contained_of_removed hplain userId _

theorem contained_of_reach {cfg : Settings} {s s' : System} (hplain : ∀ u ∈ s.accounts, u.role ≠ .admin)
    (h : Reach (step cfg) allowed s s') : Contained s s' :=
  h.invariant (Contained.refl hplain) fun _ _ _ hbefore hallowed htaken =>
    hbefore.trans (contained_of_step hbefore.plain hallowed htaken)

/-- The group never rises: between any two states of a run no role of it is
higher than before, and all that it holds is accounted for. -/
theorem group_never_rises (cfg : Settings) (db : Database) (given : List Nat)
    (hgiven : ∀ u ∈ db.users, u.id ∈ given → u.role ≠ .admin) {s s' : System}
    (hs : Reach (step cfg) allowed (begin db given) s) (hs' : Reach (step cfg) allowed s s') :
    highestRole s' ≤ highestRole s ∧ ∀ u ∈ s'.accounts, ∀ m f, checkPermission s'.db u.id m f = true →
      Accounted (begin db given) s' m f := by
  have hplain : ∀ u ∈ (begin db given).accounts, u.role ≠ .admin := by
    intro u hu
    obtain ⟨hmem, hcontrolled⟩ := System.mem_accounts.mp hu
    exact hgiven u hmem hcontrolled
  have hbefore := contained_of_reach hplain hs
  refine ⟨(contained_of_reach hbefore.plain hs').highest, ?_⟩
  intro u hu m f hmay
  have hall := contained_of_reach hplain (hs.trans hs')
  obtain ⟨v, hv, hmay⟩ := hall.may u hu m f ((checkPermission_iff (System.mem_accounts.mp hu).1 m f).mp hmay)
  exact Or.inl ⟨v, hv, (checkPermission_iff (System.mem_accounts.mp hv).1 m f).mpr hmay⟩

def settings : Settings where
  getPasswordHash p := lit "$2b$12$" ++ p
  verifyPassword p hash := lit "$2b$12$" ++ p = hash
  lower := List.map Char.toLower

def account (id : Nat) (name : Str) (role : Role) (rows : Rows) : User :=
  ⟨id, name, some (name ++ lit "@example.org"), none, none, [], role, true, false, .localAccount, false, rows⟩

/-- An administrator, and a manager with some permissions. -/
theorem id_left : 0 < 3 := by decide

def office (rows : Rows) : Database :=
  ⟨[account 1 (lit "root") .admin Rows.none, account 2 (lit "maria") .manager rows], 3, by simp [account], by simp [account],
    by decide⟩

/-- The manager may create accounts and see the dashboard and the assets. -/
def delegateRows : Rows :=
  ⟨[⟨.userManagement, true, true, false⟩, ⟨.dashboard, true, false, false⟩, ⟨.assetList, true, false, false⟩],
    by decide⟩

/-- The manager may only create accounts. -/
def clerkRows : Rows := ⟨[⟨.userManagement, true, true, false⟩], by decide⟩

/-- A request that names no permissions. -/
def newcomer : Request :=
  .createUser ⟨lit "carol", lit "carol@example.org", none, lit "Chosen-4-her", lit "user", true, none⟩

theorem delegate_never_rises :
    ∃ s, Reach (step settings) allowed (begin (office delegateRows) [2]) s ∧ s.accounts.length = 2 ∧
      highestRole s ≤ highestRole (begin (office delegateRows) [2]) ∧
      ∀ u ∈ s.accounts, ∀ m f, checkPermission s.db u.id m f = true →
        Accounted (begin (office delegateRows) [2]) s m f := by
  have hrun : (step settings (begin (office delegateRows) [2]) (2, newcomer)).any
      (fun s => s.accounts.length = 2) = true := by with_unfolding_all decide
  obtain ⟨s, hstep, hlength⟩ := (Option.any_eq_true _ _).mp hrun
  have hreach : Reach (step settings) allowed (begin (office delegateRows) [2]) s :=
    .step .start ⟨by decide, by with_unfolding_all decide⟩ hstep
  have hgiven : ∀ u ∈ (office delegateRows).users, u.id ∈ [2] → u.role ≠ .admin := by simp [office, account]
  exact ⟨s, hreach, by simpa using hlength, group_never_rises settings _ [2] hgiven .start hreach⟩

/-- An account that may only create accounts gets one that sees the dashboard. -/
theorem default_rows_unguarded :
    (∀ u ∈ (office clerkRows).users, u.id ∈ [2] → u.role ≠ .admin) ∧
    ∃ s, Reach (step settings) (fun s a => a.1 ∈ s.controlled) (begin (office clerkRows) [2]) s ∧
      ∃ u ∈ s.accounts, checkPermission s.db u.id .dashboard .read = true ∧
        ¬ Accounted (begin (office clerkRows) [2]) s .dashboard .read := by
  refine ⟨by simp [office, account], ?_⟩
  have hrun : (step settings (begin (office clerkRows) [2]) (2, newcomer)).any
      (fun s => s.takeovers.isEmpty && s.accounts.any (fun u => checkPermission s.db u.id .dashboard .read)) = true := by
    with_unfolding_all decide
  obtain ⟨s, hstep, hs⟩ := (Option.any_eq_true _ _).mp hrun
  simp only [Bool.and_eq_true, List.isEmpty_iff, List.any_eq_true] at hs
  obtain ⟨htakeovers, u, hu, hmay⟩ := hs
  refine ⟨s, .step .start (by decide) hstep, u, hu, hmay, ?_⟩
  rintro (⟨v, hv, hheld⟩ | ⟨t, ht, -⟩)
  · have hnone : (begin (office clerkRows) [2]).accounts.all
        (fun v => !checkPermission (office clerkRows) v.id .dashboard .read) = true := by with_unfolding_all decide
    have := List.all_eq_true.mp hnone v hv
    simp only [begin] at hheld
    simp [hheld] at this
  · rw [htakeovers] at ht
    simp at ht

end Delegation
