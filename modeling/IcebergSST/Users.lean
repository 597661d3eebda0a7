import IcebergSST.Library.Machine
import IcebergSST.Library.WriteBack

/-!
# Users and their administrators

A user is created at the first login of a subject, and refreshed at every other. Only an
administrator changes the role of a user or disables one, never himself. A request works on
the copies it loaded of its administrator and its target, and writes the columns it changed
over the row as it is by then; only the guard of the last administrator locks rows.
-/

namespace IcebergSST.Identity

inductive UserRole
  | viewer
  | analyst
  | admin
  deriving DecidableEq, Repr

def UserRole.value : UserRole → String
  | .viewer => "viewer"
  | .analyst => "analyst"
  | .admin => "admin"

theorem UserRole.value_injective : Function.Injective UserRole.value := by
  intro r r' h
  cases r <;> cases r' <;> first | rfl | simp [value] at h

def roleRank : UserRole → ℕ
  | .viewer => 0
  | .analyst => 1
  | .admin => 2

structure User where
  id : ℕ
  oidcSubject : String
  email : String
  displayName : String
  role : UserRole := .viewer
  lastLoginAt : Option ℤ := none
  disabled : Bool := false
  deriving DecidableEq

/-- The claims of an ID token that was verified. -/
structure IdentityClaims where
  subject : String
  email : String := ""
  displayName : String
  emailVerified : Bool := false
  deriving DecidableEq

structure BootstrapSettings where
  subject : Option String := none
  email : Option String := none
  casefold : String → String

structure UserUpdate where
  role : Option UserRole := none
  disabled : Option Bool := none
  deriving DecidableEq

inductive UserAudit
  | roleChanged
  | disabled
  | enabled
  deriving DecidableEq, Repr

structure AuditEvent where
  actorId : ℕ
  action : UserAudit
  targetId : ℕ
  fromValue : String
  toValue : String
  deriving DecidableEq

def trustedEmail (claims : IdentityClaims) : String :=
  if claims.email ≠ "" ∧ claims.emailVerified then claims.email else ""

def initialRole (b : BootstrapSettings) (claims : IdentityClaims) : UserRole :=
  if b.subject.any fun subject => subject ≠ "" ∧ claims.subject = subject then .admin
  else if b.email.any fun email => email ≠ "" ∧ claims.email ≠ "" ∧ claims.emailVerified ∧
      b.casefold claims.email = b.casefold email then .admin
  else .viewer

namespace User

/-- The columns in which `assigned` differs from `loaded`, written over `stored`. -/
def writeBack (loaded assigned stored : User) : User where
  id := stored.id
  oidcSubject := stored.oidcSubject
  email := Column.writeBack loaded.email assigned.email stored.email
  displayName := Column.writeBack loaded.displayName assigned.displayName stored.displayName
  role := Column.writeBack loaded.role assigned.role stored.role
  lastLoginAt := Column.writeBack loaded.lastLoginAt assigned.lastLoginAt stored.lastLoginAt
  disabled := Column.writeBack loaded.disabled assigned.disabled stored.disabled

def refresh (claims : IdentityClaims) (now : ℤ) (u : User) : User :=
  { u with
    email := if trustedEmail claims ≠ "" then trustedEmail claims else u.email
    displayName := if claims.displayName ≠ "" then claims.displayName else u.displayName
    lastLoginAt := some now }

def create (b : BootstrapSettings) (claims : IdentityClaims) (id : ℕ) (now : ℤ) : User where
  id
  oidcSubject := claims.subject
  email := trustedEmail claims
  displayName := claims.displayName
  role := initialRole b claims
  lastLoginAt := some now

def changed (changes : UserUpdate) (u : User) : User :=
  { u with role := changes.role.getD u.role, disabled := changes.disabled.getD u.disabled }

def roleEvents (changes : UserUpdate) (actorId : ℕ) (u : User) : List AuditEvent :=
  let role := changes.role.getD u.role
  if role = u.role then []
  else
    [{ actorId, action := .roleChanged, targetId := u.id, fromValue := u.role.value,
       toValue := role.value }]

def flagEvents (changes : UserUpdate) (actorId : ℕ) (u : User) : List AuditEvent :=
  let disabled := changes.disabled.getD u.disabled
  if disabled = u.disabled then []
  else
    [{ actorId, action := if disabled then .disabled else .enabled, targetId := u.id,
       fromValue := toString u.disabled, toValue := toString disabled }]

/-- The events of a change; what is as it was makes none. -/
def audited (changes : UserUpdate) (actorId : ℕ) (u : User) : List AuditEvent :=
  u.roleEvents changes actorId ++ u.flagEvents changes actorId

def Seated (u : User) : Prop := u.role = .admin ∧ u.disabled = false

instance (u : User) : Decidable u.Seated := inferInstanceAs (Decidable (_ ∧ _))

end User

/-- A callback that looked for the user of its subject. -/
structure Provisioning where
  claims : IdentityClaims
  found : Option User
  deriving DecidableEq

/-- A `PATCH` with the copies it loaded. -/
structure UserPatch where
  admin : User
  targetId : ℕ
  changes : UserUpdate
  target : Option User := none
  deriving DecidableEq

/-- The change would take an administrator away, as far as the copy shows. -/
def UserPatch.removing (p : UserPatch) (target : User) : Prop :=
  target.role = .admin ∧
    (p.changes.role.any (· ≠ .admin) ∨ p.changes.disabled = some true)

instance (p : UserPatch) (target : User) : Decidable (p.removing target) :=
  inferInstanceAs (Decidable (_ ∧ _))

/-- The table of users, with what is on its way. -/
structure Directory where
  users : List User := []
  trail : List AuditEvent := []
  /-- What each row was created from. -/
  created : List (ℕ × IdentityClaims) := []
  logins : List IdentityClaims := []
  provisionings : List Provisioning := []
  patches : List UserPatch := []

inductive DirectoryAction
  | authenticated (claims : IdentityClaims)
  | provision (p : Provisioning) (id : ℕ) (now : ℤ)
  | accept (adminId targetId : ℕ) (changes : UserUpdate)
  | load (p : UserPatch)
  /-- `late` became administrators while the guard waited for its locks. -/
  | commit (p : UserPatch) (late : List ℕ)

def write (users : List User) (loaded assigned : User) : List User :=
  users.map fun u => if u.id = loaded.id then loaded.writeBack assigned u else u

namespace Directory
variable (b : BootstrapSettings) (s : Directory)

def user? (id : ℕ) : Option User := s.users.find? (·.id = id)

def subject? (subject : String) : Option User := s.users.find? (·.oidcSubject = subject)

/-- `provision_user`. A callback that loses the race to create the user finds him at the
second attempt. -/
def provision (p : Provisioning) (id : ℕ) (now : ℤ) : Directory :=
  let rest := { s with provisionings := s.provisionings.erase p }
  match p.found <|> s.subject? p.claims.subject with
  | none =>
      { rest with
        users := s.users ++ [.create b p.claims id now]
        created := s.created ++ [(id, p.claims)] }
  | some u =>
      if u.disabled then rest
      else { rest with users := write s.users u (u.refresh p.claims now) }

/-- The administrators the guard counts on. Of the rows it locked, those that the request has
loaded before are not loaded again. -/
def others (p : UserPatch) (target : User) (late : List ℕ) : List User :=
  ((s.users.filter fun u => u.role = .admin ∧ u.id ∉ late).map fun u =>
    if u.id = p.admin.id then p.admin else u).filter fun u => u.id ≠ target.id ∧ u.disabled = false

def commit (p : UserPatch) (target : User) (late : List ℕ) : Directory :=
  let rest := { s with patches := s.patches.erase p }
  if p.removing target ∧ s.others p target late = [] then rest
  else
    { rest with
      users := write s.users target (target.changed p.changes)
      trail := s.trail ++ target.audited p.changes p.admin.id }

def step (s : Directory) : DirectoryAction → Option Directory
  | .authenticated claims =>
      some { s with
        logins := s.logins ++ [claims]
        provisionings := s.provisionings ++ [{ claims, found := s.subject? claims.subject }] }
  | .provision p id now =>
      if p ∈ s.provisionings ∧ id ∉ s.users.map User.id then some (s.provision b p id now)
      else none
  | .accept adminId targetId changes =>
      (s.user? adminId).bind fun admin =>
        if admin.disabled = false ∧ roleRank .admin ≤ roleRank admin.role ∧ targetId ≠ adminId
        then some { s with patches := s.patches ++ [{ admin, targetId, changes }] }
        else none
  | .load p =>
      if p ∈ s.patches ∧ p.target = none then
        (s.user? p.targetId).map fun target =>
          { s with patches := s.patches.erase p ++ [{ p with target := some target }] }
      else none
  | .commit p late =>
      if p ∈ s.patches then p.target.map fun target => s.commit p target late else none

/-- The row of this user, as it is now. -/
def Holds (u : User) : Prop := ∃ v ∈ s.users, v.id = u.id ∧ v.oidcSubject = u.oidcSubject

def HasAdmin : Prop := ∃ u ∈ s.users, u.Seated

instance : Decidable s.HasAdmin := List.decidableBEx _ _

variable {b s} {s' : Directory} {u v loaded assigned : User} {users : List User}

theorem user?_spec {id : ℕ} (h : s.user? id = some u) : u ∈ s.users ∧ u.id = id :=
  ⟨List.mem_of_find?_eq_some h, by simpa using List.find?_some h⟩

theorem subject?_spec {subject : String} (h : s.subject? subject = some u) :
    u ∈ s.users ∧ u.oidcSubject = subject :=
  ⟨List.mem_of_find?_eq_some h, by simpa using List.find?_some h⟩

theorem holds_of_mem (h : u ∈ s.users) : s.Holds u := ⟨u, h, rfl, rfl⟩

@[simp] theorem ids_write : (write users loaded assigned).map User.id = users.map User.id := by
  rw [write, List.map_map]
  refine List.map_congr_left fun u _ => ?_
  by_cases h : u.id = loaded.id <;> simp [h, User.writeBack]

@[simp] theorem subjects_write :
    (write users loaded assigned).map User.oidcSubject = users.map User.oidcSubject := by
  rw [write, List.map_map]
  refine List.map_congr_left fun u _ => ?_
  by_cases h : u.id = loaded.id <;> simp [h, User.writeBack]

theorem mem_write (h : v ∈ write users loaded assigned) :
    ∃ u ∈ users, v.id = u.id ∧ v.oidcSubject = u.oidcSubject ∧
      (u.id ≠ loaded.id ∧ v = u ∨ u.id = loaded.id ∧ v = loaded.writeBack assigned u) := by
  obtain ⟨u, hu, rfl⟩ := List.mem_map.1 h
  by_cases hid : u.id = loaded.id
  · refine ⟨u, hu, ?_⟩
    simp [hid, User.writeBack]
  · exact ⟨u, hu, by simp [hid]⟩

theorem mem_write_of_ne (hu : u ∈ users) (hid : u.id ≠ loaded.id) :
    u ∈ write users loaded assigned :=
  List.mem_map.2 ⟨u, hu, if_neg hid⟩

/-- The rows of a user are the same person's for ever. -/
theorem Holds.write (h : s.Holds u) (hs' : s'.users = Identity.write s.users loaded assigned) :
    s'.Holds u := by
  obtain ⟨v, hv, hid, hsubject⟩ := h
  refine ⟨if v.id = loaded.id then loaded.writeBack assigned v else v, ?_, ?_⟩
  · rw [hs']
    exact List.mem_map_of_mem hv
  · split_ifs <;> exact ⟨hid, hsubject⟩

theorem Holds.mono (h : s.Holds u) (hs' : s.users ⊆ s'.users) : s'.Holds u := by
  obtain ⟨v, hv, hrow⟩ := h
  exact ⟨v, hs' hv, hrow⟩

end Directory

def UserAudit.isRole : UserAudit → Bool
  | .roleChanged => true
  | _ => false

/-- What the last of these events made of a user. -/
def lastValue (trail : List AuditEvent) (about : UserAudit → Bool) (id : ℕ) (initial : String) :
    String :=
  ((trail.filter fun e => about e.action ∧ e.targetId = id).getLast?.map
    AuditEvent.toValue).getD initial

theorem lastValue_append (trail events : List AuditEvent) (about : UserAudit → Bool) (id : ℕ)
    (initial : String) :
    lastValue (trail ++ events) about id initial =
      lastValue events about id (lastValue trail about id initial) := by
  unfold lastValue
  rw [List.filter_append, List.getLast?_append]
  cases (events.filter fun e => about e.action ∧ e.targetId = id).getLast? <;> rfl

theorem lastValue_of_not_about {events : List AuditEvent} {about : UserAudit → Bool}
    (h : ∀ e ∈ events, about e.action = false) (id : ℕ) (initial : String) :
    lastValue events about id initial = initial := by
  have hnone : (events.filter fun e => about e.action ∧ e.targetId = id) = [] :=
    List.filter_eq_nil_iff.2 fun e he => by simp [h e he]
  unfold lastValue
  rw [hnone]
  rfl

theorem lastValue_singleton (e : AuditEvent) (about : UserAudit → Bool) (id : ℕ)
    (initial : String) :
    lastValue [e] about id initial =
      if about e.action ∧ e.targetId = id then e.toValue else initial := by
  unfold lastValue
  by_cases h : about e.action = true ∧ e.targetId = id <;> simp [h]

namespace User
variable {changes : UserUpdate} {actorId : ℕ} {u : User} {e : AuditEvent}

theorem mem_roleEvents (h : e ∈ u.roleEvents changes actorId) :
    e.action.isRole = true ∧ e.targetId = u.id ∧ e.actorId = actorId ∧
      e.fromValue = u.role.value ∧ e.toValue = (u.changed changes).role.value ∧
      (u.changed changes).role ≠ u.role := by
  unfold roleEvents at h
  dsimp only at h
  split_ifs at h with hrole
  · cases h
  · rw [List.mem_singleton.1 h]
    exact ⟨rfl, rfl, rfl, rfl, rfl, hrole⟩

theorem mem_flagEvents (h : e ∈ u.flagEvents changes actorId) :
    e.action.isRole = false ∧ e.targetId = u.id ∧ e.actorId = actorId ∧
      e.fromValue = toString u.disabled ∧ e.toValue = toString (u.changed changes).disabled ∧
      (u.changed changes).disabled ≠ u.disabled := by
  unfold flagEvents at h
  dsimp only at h
  split_ifs at h with hflag
  · cases h
  -- disabled or enabled
  all_goals
    rw [List.mem_singleton.1 h]
    exact ⟨rfl, rfl, rfl, rfl, rfl, hflag⟩

variable (changes actorId u) (id : ℕ) (initial : String)

/-- The role that is written is the role that is told. -/
theorem lastValue_role :
    lastValue (u.audited changes actorId) UserAudit.isRole id initial =
      if (u.changed changes).role ≠ u.role ∧ u.id = id then (u.changed changes).role.value
      else initial := by
  rw [audited, lastValue_append, lastValue_of_not_about fun e he => (mem_flagEvents he).1]
  unfold roleEvents changed
  dsimp only
  by_cases hrole : changes.role.getD u.role = u.role
  · rw [if_pos hrole, if_neg fun h => h.1 hrole]
    rfl
  · rw [if_neg hrole, lastValue_singleton]
    simp [UserAudit.isRole, hrole]

theorem lastValue_flag :
    lastValue (u.audited changes actorId) (!·.isRole) id initial =
      if (u.changed changes).disabled ≠ u.disabled ∧ u.id = id
      then toString (u.changed changes).disabled else initial := by
  have hrole : lastValue (u.roleEvents changes actorId) (!·.isRole) id initial = initial :=
    lastValue_of_not_about (fun e he => by rw [(mem_roleEvents he).1]; rfl) id initial
  rw [audited, lastValue_append, hrole]
  unfold flagEvents changed
  dsimp only
  by_cases hflag : changes.disabled.getD u.disabled = u.disabled
  · rw [if_pos hflag, if_neg fun h => h.1 hflag]
    rfl
  · rw [if_neg hflag, lastValue_singleton]
    have haction : UserAudit.isRole
        (if changes.disabled.getD u.disabled = true then .disabled else .enabled) = false := by
      split_ifs <;> rfl
    simp [haction, hflag]

end User

namespace Directory
variable (b : BootstrapSettings) (s : Directory)

/-- Where the columns of a row come from. -/
structure Answerable (u : User) : Prop where
  /-- The provider vouched for the address, for this subject. -/
  email : u.email = "" ∨
    ∃ c ∈ s.logins, c.subject = u.oidcSubject ∧ c.email = u.email ∧ c.emailVerified = true
  /-- The role is the one the user was created with, or the last that was given to him. -/
  role : ∃ c ∈ s.logins, (u.id, c) ∈ s.created ∧ c.subject = u.oidcSubject ∧
    u.role.value = lastValue s.trail UserAudit.isRole u.id (initialRole b c).value
  disabled : toString u.disabled = lastValue s.trail (!·.isRole) u.id (toString false)

structure Sound : Prop where
  ids : (s.users.map User.id).Nodup
  subjects : (s.users.map User.oidcSubject).Nodup
  rows : ∀ u ∈ s.users, s.Answerable b u
  unborn : ∀ e ∈ s.trail, e.targetId ∈ s.users.map User.id
  provisionings : ∀ p ∈ s.provisionings, p.claims ∈ s.logins ∧
    ∀ u ∈ p.found, u.oidcSubject = p.claims.subject ∧ s.Holds u
  patches : ∀ p ∈ s.patches, (p.admin.Seated ∧ s.Holds p.admin ∧ p.admin.id ≠ p.targetId) ∧
    ∀ u ∈ p.target, u.id = p.targetId ∧ s.Holds u
  trail : ∀ e ∈ s.trail, e.actorId ≠ e.targetId ∧ e.fromValue ≠ e.toValue

variable {b s} {s' : Directory} {u v : User}

theorem Answerable.mono (h : s.Answerable b u) (hlogins : s.logins ⊆ s'.logins)
    (hcreated : s.created ⊆ s'.created) (htrail : s'.trail = s.trail) : s'.Answerable b u := by
  refine ⟨?_, ?_, ?_⟩
  · rcases h.email with hnone | ⟨c, hc, hrow⟩
    · exact .inl hnone
    · exact .inr ⟨c, hlogins hc, hrow⟩
  · obtain ⟨c, hc, hborn, hrow⟩ := h.role
    rw [htrail]
    exact ⟨c, hlogins hc, hcreated hborn, hrow⟩
  · rw [htrail]
    exact h.disabled

theorem Holds.subject (h : s.Holds u) (hids : (s.users.map User.id).Nodup) (hv : v ∈ s.users)
    (hid : v.id = u.id) : v.oidcSubject = u.oidcSubject := by
  obtain ⟨w, hw, hwid, hwsubject⟩ := h
  obtain rfl := List.inj_on_of_nodup_map hids hv hw (hid.trans hwid.symm)
  exact hwsubject

section Steps
variable {p : Provisioning} {id : ℕ} {now : ℤ}

theorem Sound.requests (h : s.Sound b) (s' : Directory) (hkept : ∀ u, s.Holds u → s'.Holds u)
    (hlogins : s'.logins = s.logins) (hprov : s'.provisionings ⊆ s.provisionings)
    (hpatches : s'.patches ⊆ s.patches) :
    (∀ p ∈ s'.provisionings, p.claims ∈ s'.logins ∧
      ∀ u ∈ p.found, u.oidcSubject = p.claims.subject ∧ s'.Holds u) ∧
    ∀ p ∈ s'.patches, (p.admin.Seated ∧ s'.Holds p.admin ∧ p.admin.id ≠ p.targetId) ∧
      ∀ u ∈ p.target, u.id = p.targetId ∧ s'.Holds u := by
  refine ⟨fun p hp => ?_, fun p hp => ?_⟩
  · obtain ⟨hclaims, hfound⟩ := h.provisionings p (hprov hp)
    rw [hlogins]
    exact ⟨hclaims, fun u hu => ⟨(hfound u hu).1, hkept u (hfound u hu).2⟩⟩
  · obtain ⟨⟨hseated, hholds, hne⟩, htarget⟩ := h.patches p (hpatches hp)
    exact ⟨⟨hseated, hkept _ hholds, hne⟩,
      fun u hu => ⟨(htarget u hu).1, hkept u (htarget u hu).2⟩⟩

theorem refresh_email (claims : IdentityClaims) (now : ℤ) (u w : User) :
    (u.writeBack (u.refresh claims now) w).email = w.email ∨
      (trustedEmail claims ≠ "" ∧
        (u.writeBack (u.refresh claims now) w).email = trustedEmail claims) := by
  by_cases htrusted : trustedEmail claims = ""
  · left
    simp [User.writeBack, User.refresh, htrusted]
  · rcases Column.writeBack_eq_or u.email (trustedEmail claims) w.email with hstored | hassigned
    · left
      simpa [User.writeBack, User.refresh, htrusted] using hstored
    · right
      refine ⟨htrusted, ?_⟩
      simpa [User.writeBack, User.refresh, htrusted] using hassigned

theorem trustedEmail_spec {claims : IdentityClaims} (h : trustedEmail claims ≠ "") :
    claims.emailVerified = true ∧ trustedEmail claims = claims.email := by
  unfold trustedEmail at h ⊢
  split_ifs at h ⊢ with htrusted
  · exact ⟨htrusted.2, rfl⟩
  · exact absurd rfl h

theorem Answerable.refresh (h : s.Answerable b v) {claims : IdentityClaims}
    (hclaims : claims ∈ s.logins) (hsubject : v.oidcSubject = claims.subject) (now : ℤ)
    (u : User) : s.Answerable b (u.writeBack (u.refresh claims now) v) := by
  have hrole : (u.writeBack (u.refresh claims now) v).role = v.role :=
    Column.writeBack_clean u.role v.role
  have hdisabled : (u.writeBack (u.refresh claims now) v).disabled = v.disabled :=
    Column.writeBack_clean u.disabled v.disabled
  refine ⟨?_, ?_, ?_⟩
  · rcases refresh_email claims now u v with heq | ⟨hne, heq⟩
    · rw [heq]
      exact h.email
    · obtain ⟨hverified, htrusted⟩ := trustedEmail_spec hne
      exact .inr ⟨claims, hclaims, hsubject.symm, by rw [heq, htrusted], hverified⟩
  · rw [hrole]
    exact h.role
  · rw [hdisabled]
    exact h.disabled

theorem Answerable.create (hs : s.Sound b) {claims : IdentityClaims} (hclaims : claims ∈ s.logins)
    (hid : id ∉ s.users.map User.id) (now : ℤ) (hcreated : (id, claims) ∈ s'.created)
    (hlogins : s'.logins = s.logins) (htrail : s'.trail = s.trail) :
    s'.Answerable b (.create b claims id now) := by
  have hsilent : ∀ (about : UserAudit → Bool) initial,
      lastValue s'.trail about id initial = initial := by
    intro about initial
    unfold lastValue
    rw [List.filter_eq_nil_iff.2 fun e he => ?_]
    · rfl
    · have hne : e.targetId ≠ id := fun heq => hid (heq ▸ hs.unborn e (htrail ▸ he))
      simp [hne]
  refine ⟨?_, ⟨claims, hlogins ▸ hclaims, hcreated, rfl, (hsilent _ _).symm⟩,
    (hsilent _ _).symm⟩
  by_cases hne : trustedEmail claims = ""
  · exact .inl hne
  · obtain ⟨hverified, htrusted⟩ := trustedEmail_spec hne
    exact .inr ⟨claims, hlogins ▸ hclaims, rfl, htrusted.symm, hverified⟩

theorem provision_cases (b : BootstrapSettings) (s : Directory) (p : Provisioning) (id : ℕ)
    (now : ℤ) :
    (s.subject? p.claims.subject = none ∧ s.provision b p id now =
      { s with
        provisionings := s.provisionings.erase p
        users := s.users ++ [.create b p.claims id now]
        created := s.created ++ [(id, p.claims)] }) ∨
    s.provision b p id now = { s with provisionings := s.provisionings.erase p } ∨
    ∃ u, (p.found = some u ∨ s.subject? p.claims.subject = some u) ∧ s.provision b p id now =
      { s with
        provisionings := s.provisionings.erase p
        users := write s.users u (u.refresh p.claims now) } := by
  unfold Directory.provision
  cases hu : p.found <|> s.subject? p.claims.subject with
  | none =>
      left
      cases hf : p.found with
      | none => exact ⟨by rw [hf] at hu; exact hu, rfl⟩
      | some u => rw [hf] at hu; cases hu
  | some u =>
      right
      dsimp only
      split_ifs with hdisabled
      · exact .inl rfl
      · refine .inr ⟨u, ?_, rfl⟩
        cases hf : p.found with
        | none => exact .inr (by rw [hf] at hu; exact hu)
        | some v => exact .inl (by rw [hf] at hu; exact hu)

theorem Sound.provision (h : s.Sound b) (hp : p ∈ s.provisionings)
    (hid : id ∉ s.users.map User.id) : (s.provision b p id now).Sound b := by
  obtain ⟨hclaims, hfound⟩ := h.provisionings p hp
  rcases provision_cases b s p id now with ⟨hnew, hs'⟩ | hs' | ⟨u, hu, hs'⟩
  · have hrequests := h.requests (s.provision b p id now)
      (fun u hu => hu.mono (by rw [hs']; exact List.subset_append_left _ _)) (by rw [hs'])
      (by rw [hs']; exact List.erase_subset) (by rw [hs']; exact List.Subset.refl _)
    rw [hs'] at hrequests ⊢
    refine ⟨?_, ?_, fun u hu => ?_, fun e he => ?_, hrequests.1, hrequests.2, h.trail⟩
    · rw [List.map_append, List.nodup_append']
      exact ⟨h.ids, List.nodup_singleton _, List.disjoint_singleton.2 hid⟩
    · rw [List.map_append, List.nodup_append']
      refine ⟨h.subjects, List.nodup_singleton _, List.disjoint_singleton.2 fun hmem => ?_⟩
      obtain ⟨u, hu, hsubject⟩ := List.mem_map.1 hmem
      exact List.find?_eq_none.1 hnew u hu (by simpa [User.create] using hsubject)
    · rcases List.mem_append.1 hu with hu | hu
      · exact (h.rows u hu).mono (List.Subset.refl _) (List.subset_append_left _ _) rfl
      · rw [List.mem_singleton.1 hu]
        exact .create h hclaims hid now (List.mem_append_right _ (List.mem_singleton_self _))
          rfl rfl
    · rw [List.map_append]
      exact List.mem_append_left _ (h.unborn e he)
  · have hrequests := h.requests (s.provision b p id now)
      (fun u hu => hu.mono (by rw [hs']; exact List.Subset.refl _)) (by rw [hs'])
      (by rw [hs']; exact List.erase_subset) (by rw [hs']; exact List.Subset.refl _)
    rw [hs'] at hrequests ⊢
    refine ⟨h.ids, h.subjects, fun u hu => ?_, h.unborn, hrequests.1, hrequests.2, h.trail⟩
    exact (h.rows u hu).mono (List.Subset.refl _) (List.Subset.refl _) rfl
  · have hrow : u.oidcSubject = p.claims.subject ∧ s.Holds u := by
      rcases hu with hu | hu
      · exact hfound u hu
      · obtain ⟨hmem, hsubject⟩ := subject?_spec hu
        exact ⟨hsubject, holds_of_mem hmem⟩
    have hrequests := h.requests (s.provision b p id now)
      (fun u hu => hu.write (by rw [hs'])) (by rw [hs'])
      (by rw [hs']; exact List.erase_subset) (by rw [hs']; exact List.Subset.refl _)
    rw [hs'] at hrequests ⊢
    refine ⟨?_, ?_, fun v hv => ?_, fun e he => ?_, hrequests.1, hrequests.2, h.trail⟩
    · exact ids_write.symm ▸ h.ids
    · exact subjects_write.symm ▸ h.subjects
    · obtain ⟨w, hw, -, -, ⟨-, rfl⟩ | ⟨hid, rfl⟩⟩ := mem_write hv
      · exact (h.rows _ hw).mono (List.Subset.refl _) (List.Subset.refl _) rfl
      · refine Answerable.mono (Answerable.refresh (h.rows w hw) hclaims ?_ now u)
          (List.Subset.refl _) (List.Subset.refl _) rfl
        exact (hrow.2.subject h.ids hw hid).trans hrow.1
    · exact ids_write.symm ▸ h.unborn e he

theorem commit_cases (s : Directory) (p : UserPatch) (target : User) (late : List ℕ) :
    (p.removing target ∧ s.others p target late = [] ∧
      s.commit p target late = { s with patches := s.patches.erase p }) ∨
    ((p.removing target → s.others p target late ≠ []) ∧ s.commit p target late =
      { s with
        patches := s.patches.erase p
        users := write s.users target (target.changed p.changes)
        trail := s.trail ++ target.audited p.changes p.admin.id }) := by
  unfold commit
  dsimp only
  split_ifs with hguard
  · exact .inl ⟨hguard.1, hguard.2, rfl⟩
  · exact .inr ⟨fun hremoving hnone => hguard ⟨hremoving, hnone⟩, rfl⟩

theorem Answerable.commit (h : s.Answerable b v) (target : User) (changes : UserUpdate)
    (actorId : ℕ) (hlogins : s'.logins = s.logins) (hcreated : s'.created = s.created)
    (htrail : s'.trail = s.trail ++ target.audited changes actorId) :
    s'.Answerable b (if v.id = target.id then target.writeBack (target.changed changes) v
      else v) := by
  have hid : (if v.id = target.id then target.writeBack (target.changed changes) v
      else v).id = v.id := by split_ifs <;> rfl
  have hsubject : (if v.id = target.id then target.writeBack (target.changed changes) v
      else v).oidcSubject = v.oidcSubject := by split_ifs <;> rfl
  have hemail : (if v.id = target.id then target.writeBack (target.changed changes) v
      else v).email = v.email := by
    split_ifs
    · exact Column.writeBack_clean target.email v.email
    · rfl
  refine ⟨?_, ?_, ?_⟩
  · rw [hemail, hsubject, hlogins]
    exact h.email
  · obtain ⟨c, hc, hborn, hcsubject, hrole⟩ := h.role
    refine ⟨c, hlogins ▸ hc, by rw [hid, hcreated]; exact hborn, hsubject ▸ hcsubject, ?_⟩
    rw [hid, htrail, lastValue_append, User.lastValue_role, ← hrole]
    by_cases htarget : v.id = target.id
    · by_cases hsame : (target.changed changes).role = target.role
      · simp [htarget, hsame, User.writeBack]
      · simp [htarget, hsame, User.writeBack, Column.writeBack_dirty hsame]
    · simp [htarget, Ne.symm htarget]
  · rw [hid, htrail, lastValue_append, User.lastValue_flag, ← h.disabled]
    by_cases htarget : v.id = target.id
    · by_cases hsame : (target.changed changes).disabled = target.disabled
      · simp [htarget, hsame, User.writeBack]
      · simp [htarget, hsame, User.writeBack, Column.writeBack_dirty hsame]
    · simp [htarget, Ne.symm htarget]

theorem audited_real {changes : UserUpdate} {actorId : ℕ} {target : User} {e : AuditEvent}
    (h : e ∈ target.audited changes actorId) :
    e.targetId = target.id ∧ e.actorId = actorId ∧ e.fromValue ≠ e.toValue := by
  rcases List.mem_append.1 h with h | h
  · obtain ⟨-, htarget, hactor, hfrom, hto, hne⟩ := User.mem_roleEvents h
    rw [hfrom, hto]
    exact ⟨htarget, hactor, fun heq => hne (UserRole.value_injective heq).symm⟩
  · obtain ⟨-, htarget, hactor, hfrom, hto, hne⟩ := User.mem_flagEvents h
    rw [hfrom, hto]
    refine ⟨htarget, hactor, fun heq => hne ?_⟩
    revert heq
    cases target.disabled <;> cases (target.changed changes).disabled <;> decide

theorem Sound.commit {p : UserPatch} {target : User} {late : List ℕ} (h : s.Sound b)
    (hp : p ∈ s.patches) (htarget : p.target = some target) :
    (s.commit p target late).Sound b := by
  obtain ⟨⟨-, -, hne⟩, hloaded⟩ := h.patches p hp
  obtain ⟨htargetId, hholds⟩ := hloaded target htarget
  rcases commit_cases s p target late with ⟨-, -, hs'⟩ | ⟨-, hs'⟩
  · have hrequests := h.requests (s.commit p target late)
      (fun u hu => hu.mono (by rw [hs']; exact List.Subset.refl _)) (by rw [hs'])
      (by rw [hs']; exact List.Subset.refl _) (by rw [hs']; exact List.erase_subset)
    rw [hs'] at hrequests ⊢
    refine ⟨h.ids, h.subjects, fun u hu => ?_, h.unborn, hrequests.1, hrequests.2, h.trail⟩
    exact (h.rows u hu).mono (List.Subset.refl _) (List.Subset.refl _) rfl
  · have hrequests := h.requests (s.commit p target late)
      (fun u hu => hu.write (by rw [hs'])) (by rw [hs'])
      (by rw [hs']; exact List.Subset.refl _) (by rw [hs']; exact List.erase_subset)
    rw [hs'] at hrequests ⊢
    refine ⟨?_, ?_, fun v hv => ?_, fun e he => ?_, hrequests.1, hrequests.2, fun e he => ?_⟩
    · exact ids_write.symm ▸ h.ids
    · exact subjects_write.symm ▸ h.subjects
    · obtain ⟨w, hw, rfl⟩ := List.mem_map.1 hv
      exact (h.rows w hw).commit target p.changes p.admin.id rfl rfl rfl
    · rw [ids_write]
      rcases List.mem_append.1 he with he | he
      · exact h.unborn e he
      · obtain ⟨v, hv, hvid, -⟩ := hholds
        rw [(audited_real he).1, ← hvid]
        exact List.mem_map_of_mem hv
    · rcases List.mem_append.1 he with he | he
      · exact h.trail e he
      · obtain ⟨htid, hactor, hreal⟩ := audited_real he
        rw [htid, hactor, htargetId]
        exact ⟨hne, hreal⟩

theorem Sound.step {a : DirectoryAction} (h : s.Sound b) (hstep : s.step b a = some s') :
    s'.Sound b := by
  cases a with
  | authenticated claims =>
      cases hstep
      refine ⟨h.ids, h.subjects, fun u hu => ?_, h.unborn, fun p hp => ?_, h.patches, h.trail⟩
      · exact (h.rows u hu).mono (List.subset_append_left _ _) (List.Subset.refl _) rfl
      · rcases List.mem_append.1 hp with hp | hp
        · exact ⟨List.mem_append_left _ (h.provisionings p hp).1, (h.provisionings p hp).2⟩
        · rw [List.mem_singleton.1 hp]
          refine ⟨List.mem_append_right _ (List.mem_singleton_self _), fun u hu => ?_⟩
          obtain ⟨hmem, hsubject⟩ := subject?_spec hu
          exact ⟨hsubject, holds_of_mem hmem⟩
  | provision p id now =>
      simp only [Directory.step] at hstep
      split_ifs at hstep with hp
      cases hstep
      exact h.provision hp.1 hp.2
  | accept adminId targetId changes =>
      obtain ⟨admin, hadmin, hstep⟩ := Option.bind_eq_some_iff.1 hstep
      split_ifs at hstep with hadmitted
      cases hstep
      obtain ⟨hmem, hid⟩ := user?_spec hadmin
      obtain ⟨henabled, hrank, hne⟩ := hadmitted
      refine ⟨h.ids, h.subjects, fun u hu => ?_, h.unborn, h.provisionings, fun p hp => ?_,
        h.trail⟩
      · exact (h.rows u hu).mono (List.Subset.refl _) (List.Subset.refl _) rfl
      · rcases List.mem_append.1 hp with hp | hp
        · exact h.patches p hp
        · rw [List.mem_singleton.1 hp]
          have hrole : admin.role = .admin := by
            cases hr : admin.role <;> simp [hr, roleRank] at hrank ⊢
          exact ⟨⟨⟨hrole, henabled⟩, holds_of_mem hmem, fun heq => hne (heq.symm.trans hid)⟩,
            nofun⟩
  | load p =>
      simp only [Directory.step] at hstep
      split_ifs at hstep with hp
      obtain ⟨target, htarget, rfl⟩ := Option.map_eq_some_iff.1 hstep
      obtain ⟨hmem, hid⟩ := user?_spec htarget
      refine ⟨h.ids, h.subjects, fun u hu => ?_, h.unborn, h.provisionings, fun q hq => ?_,
        h.trail⟩
      · exact (h.rows u hu).mono (List.Subset.refl _) (List.Subset.refl _) rfl
      · rcases List.mem_append.1 hq with hq | hq
        · exact h.patches q (List.erase_subset hq)
        · rw [List.mem_singleton.1 hq]
          refine ⟨(h.patches p hp.1).1, fun u hu => ?_⟩
          cases hu
          exact ⟨hid, holds_of_mem hmem⟩
  | commit p late =>
      simp only [Directory.step] at hstep
      split_ifs at hstep with hp
      obtain ⟨target, htarget, rfl⟩ := Option.map_eq_some_iff.1 hstep
      exact h.commit hp htarget

theorem Holds.step {a : DirectoryAction} (h : s.Holds u) (hstep : s.step b a = some s') :
    s'.Holds u := by
  cases a with
  | authenticated claims =>
      cases hstep
      exact h
  | provision p id now =>
      simp only [Directory.step] at hstep
      split_ifs at hstep
      cases hstep
      rcases provision_cases b s p id now with ⟨-, hs'⟩ | hs' | ⟨w, -, hs'⟩
      · exact h.mono (by rw [hs']; exact List.subset_append_left _ _)
      · exact h.mono (by rw [hs']; exact List.Subset.refl _)
      · exact h.write (by rw [hs'])
  | accept adminId targetId changes =>
      obtain ⟨admin, -, hstep⟩ := Option.bind_eq_some_iff.1 hstep
      split_ifs at hstep
      cases hstep
      exact h
  | load p =>
      simp only [Directory.step] at hstep
      split_ifs at hstep
      obtain ⟨target, -, rfl⟩ := Option.map_eq_some_iff.1 hstep
      exact h
  | commit p late =>
      simp only [Directory.step] at hstep
      split_ifs at hstep
      obtain ⟨target, -, rfl⟩ := Option.map_eq_some_iff.1 hstep
      rcases commit_cases s p target late with ⟨-, -, hs'⟩ | ⟨-, hs'⟩
      · exact h.mono (by rw [hs']; exact List.Subset.refl _)
      · exact h.write (by rw [hs'])

/-- A request is on its way from when it was admitted. -/
theorem patches_step {a : DirectoryAction} (hstep : s.step b a = some s') :
    ∀ p ∈ s'.patches, (∃ q ∈ s.patches, q.admin = p.admin ∧ q.targetId = p.targetId ∧
        q.changes = p.changes) ∨ a = .accept p.admin.id p.targetId p.changes := by
  intro p hp
  cases a with
  | authenticated claims =>
      cases hstep
      exact .inl ⟨p, hp, rfl, rfl, rfl⟩
  | provision q id now =>
      simp only [Directory.step] at hstep
      split_ifs at hstep
      cases hstep
      rcases provision_cases b s q id now with ⟨-, hs'⟩ | hs' | ⟨w, -, hs'⟩ <;>
        exact .inl ⟨p, by rw [hs'] at hp; exact hp, rfl, rfl, rfl⟩
  | accept adminId targetId changes =>
      obtain ⟨admin, hadmin, hstep⟩ := Option.bind_eq_some_iff.1 hstep
      split_ifs at hstep
      cases hstep
      rcases List.mem_append.1 hp with hp | hp
      · exact .inl ⟨p, hp, rfl, rfl, rfl⟩
      · rw [List.mem_singleton.1 hp]
        exact .inr (by rw [(user?_spec hadmin).2])
  | load q =>
      simp only [Directory.step] at hstep
      split_ifs at hstep with hq
      obtain ⟨target, -, rfl⟩ := Option.map_eq_some_iff.1 hstep
      rcases List.mem_append.1 hp with hp | hp
      · exact .inl ⟨p, List.erase_subset hp, rfl, rfl, rfl⟩
      · rw [List.mem_singleton.1 hp]
        exact .inl ⟨q, hq.1, rfl, rfl, rfl⟩
  | commit q late =>
      simp only [Directory.step] at hstep
      split_ifs at hstep
      obtain ⟨target, -, rfl⟩ := Option.map_eq_some_iff.1 hstep
      rcases commit_cases s q target late with ⟨-, -, hs'⟩ | ⟨-, hs'⟩ <;>
        exact .inl ⟨p, List.erase_subset (by rw [hs'] at hp; exact hp), rfl, rfl, rfl⟩

end Steps

def Reached (b : BootstrapSettings) (s : Directory) : Prop :=
  Machine.Reachable (Directory.step b) (fun _ _ => True) (· = {}) s

theorem Reached.sound (h : Reached b s) : s.Sound b := by
  refine Machine.Reachable.invariant ?_ (fun s a s' hs _ hstep => hs.step hstep) h
  rintro s rfl
  refine ⟨List.nodup_nil, List.nodup_nil, ?_, ?_, ?_, ?_, ?_⟩ <;> simp

/-- An administrator's change comes in time if he has not been disabled since his request
was admitted; nor lost his role, unless the guard is there to see it. -/
def Timely (s : Directory) : DirectoryAction → Prop
  | .commit p _ => ∀ u ∈ s.users, u.id = p.admin.id → u.disabled = false ∧
      (u.role = .admin ∨ p.target.any fun target => p.removing target)
  | _ => True

instance (s : Directory) : ∀ a, Decidable (s.Timely a)
  | .commit p _ => inferInstanceAs (Decidable (∀ u ∈ s.users, u.id = p.admin.id →
      u.disabled = false ∧ (u.role = .admin ∨ p.target.any fun target => p.removing target)))
  | .authenticated _ => .isTrue trivial
  | .provision _ _ _ => .isTrue trivial
  | .accept _ _ _ => .isTrue trivial
  | .load _ => .isTrue trivial

theorem HasAdmin.step {a : DirectoryAction} (h : s.Sound b) (hadmin : s.HasAdmin)
    (htimely : s.Timely a) (hstep : s.step b a = some s') : s'.HasAdmin := by
  obtain ⟨u, hu, hseated⟩ := hadmin
  cases a with
  | authenticated claims =>
      cases hstep
      exact ⟨u, hu, hseated⟩
  | provision p id now =>
      simp only [Directory.step] at hstep
      split_ifs at hstep
      cases hstep
      rcases provision_cases b s p id now with ⟨-, hs'⟩ | hs' | ⟨w, -, hs'⟩
      · rw [hs']
        exact ⟨u, List.mem_append_left _ hu, hseated⟩
      · rw [hs']
        exact ⟨u, hu, hseated⟩
      · rw [hs']
        refine ⟨_, List.mem_map_of_mem hu, ?_⟩
        split_ifs
        · -- a login changes neither
          exact ⟨(Column.writeBack_clean w.role u.role).trans hseated.1,
            (Column.writeBack_clean w.disabled u.disabled).trans hseated.2⟩
        · exact hseated
  | accept adminId targetId changes =>
      obtain ⟨admin, -, hstep⟩ := Option.bind_eq_some_iff.1 hstep
      split_ifs at hstep
      cases hstep
      exact ⟨u, hu, hseated⟩
  | load p =>
      simp only [Directory.step] at hstep
      split_ifs at hstep
      obtain ⟨target, -, rfl⟩ := Option.map_eq_some_iff.1 hstep
      exact ⟨u, hu, hseated⟩
  | commit p late =>
      simp only [Directory.step] at hstep
      split_ifs at hstep with hp
      obtain ⟨target, htarget, rfl⟩ := Option.map_eq_some_iff.1 hstep
      obtain ⟨⟨-, ⟨admin, hmem, hid, -⟩, hne⟩, hloaded⟩ := h.patches p hp
      obtain ⟨hdisabled, hrole⟩ := htimely admin hmem hid
      have hother : admin.id ≠ target.id := by
        rw [hid, (hloaded target htarget).1]
        exact hne
      rcases commit_cases s p target late with ⟨-, -, hs'⟩ | ⟨hguard, hs'⟩
      · rw [hs']
        exact ⟨u, hu, hseated⟩
      · rw [hs']
        rcases hrole with hrole | hremoving
        · exact ⟨admin, mem_write_of_ne hmem hother, hrole, hdisabled⟩
        · rw [htarget, Option.any_some, decide_eq_true_eq] at hremoving
          -- the guard has found someone else
          obtain ⟨o, ho⟩ := List.exists_mem_of_ne_nil _ (hguard hremoving)
          obtain ⟨ho, hkeep⟩ := List.mem_filter.1 ho
          obtain ⟨w, hw, rfl⟩ := List.mem_map.1 ho
          obtain ⟨hw, hwrole⟩ := List.mem_filter.1 hw
          simp only [Bool.decide_and, Bool.and_eq_true, decide_eq_true_eq] at hwrole
          by_cases hwid : w.id = p.admin.id
          · obtain rfl := List.inj_on_of_nodup_map h.ids hw hmem (hwid.trans hid.symm)
            exact ⟨w, mem_write_of_ne hmem hother, hwrole.1, hdisabled⟩
          · simp only [if_neg hwid, Bool.decide_and, Bool.and_eq_true, decide_eq_true_eq] at hkeep
            exact ⟨w, mem_write_of_ne hw hkeep.1, hwrole.1, hkeep.2⟩

/-- While all changes come in time, there is always an administrator left. -/
theorem administrator_remains (h : Reached b s) (hadmin : s.HasAdmin)
    (hrun : Machine.Reachable (Directory.step b) Timely (· = s) s') : s'.HasAdmin := by
  have hboth : s'.Sound b ∧ s'.HasAdmin := by
    refine Machine.Reachable.invariant (P := fun t => t.Sound b ∧ t.HasAdmin) ?_
      (fun t a t' ht htimely hstep => ?_) hrun
    · rintro t rfl
      exact ⟨h.sound, hadmin⟩
    · exact ⟨ht.1.step hstep, HasAdmin.step ht.1 ht.2 htimely hstep⟩
  exact hboth.2

def bootstrap : BootstrapSettings where
  subject := some "root"
  casefold := id

def rootClaims : IdentityClaims := { subject := "root", displayName := "Root" }
def aliceClaims : IdentityClaims := { subject := "alice", displayName := "Alice" }

def root : User := .create bootstrap rootClaims 1 0
def alice : User := .create bootstrap aliceClaims 2 0

def promotion : UserPatch := { admin := root, targetId := 2, changes := { role := some .admin } }

def founding : List DirectoryAction :=
  [.authenticated rootClaims, .provision { claims := rootClaims, found := none } 1 0,
   .authenticated aliceClaims, .provision { claims := aliceClaims, found := none } 2 0,
   .accept 1 2 { role := some .admin }, .load promotion,
   .commit { promotion with target := some alice } []]

def founded : Directory where
  users := [root, { alice with role := .admin }]
  trail := [{ actorId := 1, action := .roleChanged, targetId := 2, fromValue := "viewer",
              toValue := "admin" }]
  created := [(1, rootClaims), (2, aliceClaims)]
  logins := [rootClaims, aliceClaims]

theorem founded_reached : Reached bootstrap founded := by
  have hempty : Reached bootstrap {} := .start rfl
  have hrun : Machine.run (Directory.step bootstrap) (fun _ _ => True) {} founding = some founded :=
    rfl
  exact hempty.run hrun

def succession : UserPatch where
  admin := { alice with role := .admin }
  targetId := 1
  changes := { role := some .viewer }

def succeeded : Directory :=
  { founded with
    users := [{ root with role := .viewer }, { alice with role := .admin }]
    trail := founded.trail ++ [{ actorId := 2, action := .roleChanged, targetId := 1,
                                 fromValue := "admin", toValue := "viewer" }] }

theorem succeeded_hasAdmin : founded.HasAdmin ∧ succeeded.HasAdmin := by
  have hadmin : founded.HasAdmin := by decide
  have hstart : Machine.Reachable (Directory.step bootstrap) Timely (· = founded) founded :=
    .start rfl
  have hrun : Machine.run (Directory.step bootstrap) Timely founded
      [.accept 2 1 succession.changes, .load succession,
       .commit { succession with target := some root } []] = some succeeded := rfl
  exact ⟨hadmin, administrator_remains founded_reached hadmin (hstart.run hrun)⟩

def disabling (admin : User) (targetId : ℕ) : UserPatch where
  admin
  targetId
  changes := { disabled := some true }

/-- Not in time: two administrators who disable each other both pass the guard, which counts
on the copy that was loaded before the other's change. -/
theorem disabled_each_other : ∃ s, Reached bootstrap s ∧ s.users.length = 2 ∧ ¬ s.HasAdmin := by
  let first := disabling root 2
  let second := disabling { alice with role := .admin } 1
  have hrun : (Machine.run (Directory.step bootstrap) (fun _ _ => True) founded
      [.accept 1 2 first.changes, .load first, .accept 2 1 second.changes, .load second,
       .commit { first with target := some { alice with role := .admin } } [],
       .commit { second with target := some root } []]).any
        (fun s => s.users.length = 2 ∧ ¬ s.HasAdmin) = true := by decide
  exact Machine.Reachable.exists_of_run founded_reached hrun

end Directory
end IcebergSST.Identity
