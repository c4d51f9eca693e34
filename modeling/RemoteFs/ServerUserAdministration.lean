import RemoteFs.ServerTokens

/-! # User administration as a map

What the five calls on the users table should do to a map from ids to users, and when they do it. -/
namespace ServerUserAdministration

open SqlTable
open ServerDatabase
open ServerUsers
open ServerTokens

/-- A call; the salt is what the password library draws for it. -/
inductive Call where
  | create (username password salt : String) (userId groupId : Option UInt32)
  | delete (userId : UInt32)
  | editUsername (userId : UInt32) (username : String)
  | editPassword (userId : UInt32) (password salt : String)
  | editGroupId (userId groupId : UInt32)
  deriving DecidableEq, Repr

inductive Reply where
  | done
  | created (userId groupId : UInt32)
  deriving DecidableEq, Repr

def reply {α : Type} (f : α → Reply) (r : ServerUsers.Result α) : ServerUsers.Result Reply :=
  (r.1.map f, r.2)

def call (argon : PasswordHasher) (checks : Bool) (t : Users) : Call → ServerUsers.Result Reply
  | .create username password salt userId groupId =>
    reply (fun ids => .created ids.1 ids.2)
      (createUser argon checks t username password salt userId groupId)
  | .delete userId => reply (fun _ => .done) (deleteUser t userId)
  | .editUsername userId username => reply (fun _ => .done) (editUsername t userId username)
  | .editPassword userId password salt =>
    reply (fun _ => .done) (editPassword argon t userId password salt)
  | .editGroupId userId groupId => reply (fun _ => .done) (editGroupId t userId groupId)

def NamedElsewhere (u : UserMap) (userId : UInt32) (username : String) : Prop :=
  ∃ id r, u id = some r ∧ r.username = username ∧ id ≠ userId

def Named (u : UserMap) (username : String) : Prop := ∃ id r, u id = some r ∧ r.username = username

def Pre (u : UserMap) : Call → Prop
  | .create username _ _ (some userId) _ => u userId = none ∧ ¬Named u username
  | .create username _ _ none _ => (∃ userId, u userId = none) ∧ ¬Named u username
  | .delete userId => u userId ≠ none
  | .editUsername userId username => u userId ≠ none ∧ ¬NamedElsewhere u userId username
  | .editPassword userId _ _ => u userId ≠ none
  | .editGroupId userId _ => u userId ≠ none

def modify (u : UserMap) (userId : UInt32) (f : User → User) : UserMap :=
  Function.update u userId ((u userId).map f)

def Effect (argon : PasswordHasher) (u u' : UserMap) : Call → Reply → Prop
  | .create username password salt userId groupId, .created uid gid =>
    (∀ id, userId = some id → uid = id) ∧ gid = groupId.getD uid ∧ u uid = none ∧
      ∃ h, argon.hash salt password = some h ∧
        u' = Function.update u uid (some ⟨uid, gid, username, h⟩)
  | .delete userId, .done => u' = Function.update u userId none
  | .editUsername userId username, .done =>
    u' = modify u userId fun r => { r with username := username }
  | .editPassword userId password salt, .done =>
    ∃ h, argon.hash salt password = some h ∧
      u' = modify u userId fun r => { r with password := h }
  | .editGroupId userId groupId, .done =>
    u' = modify u userId fun r => { r with groupId := groupId }
  | _, _ => False

/-- The call succeeds just when it has to, and then does what it has to; else it answers with an
error and changes nothing. -/
def Meets (argon : PasswordHasher) (checks : Bool) (t : Users) (c : Call) : Prop :=
  match call argon checks t c with
  | (.ok r, t') => Pre (users t) c ∧ Effect argon (users t) (users t') c r
  | (.error (.error _), t') => ¬Pre (users t) c ∧ t' = t
  | (.error .panic, _) => False

/-- When a call does what it has to: a creation that cannot succeed, or that names its id, or
whose id can be computed; an edit to a name that another user has. -/
def Safe (checks : Bool) (t : Users) : Call → Prop
  | .create username password salt userId groupId =>
    ¬Pre (users t) (.create username password salt userId groupId) ∨ userId ≠ none ∨
      t.rows.length < 2 ^ 8 ∧ Increasable checks t
  | .editUsername userId username => NamedElsewhere (users t) userId username
  | .delete _ => False
  | .editPassword _ _ _ => False
  | .editGroupId _ _ => False

def Throughout (argon : PasswordHasher) (checks : Bool) (P : Users → Call → Prop) (t : Users) :
    List Call → Prop
  | [] => True
  | c :: cs => P t c ∧ Throughout argon checks P (call argon checks t c).2 cs

def Behaves (argon : PasswordHasher) (checks : Bool) : Users → List Call → Prop :=
  Throughout argon checks (Meets argon checks)

def AllSafe (argon : PasswordHasher) (checks : Bool) : Users → List Call → Prop :=
  Throughout argon checks (Safe checks)

section Steps

variable {argon : PasswordHasher} {checks : Bool} {t : Users} {userId : UInt32}
  {username password salt : String} {c : Call} {r : Reply} {e : DatabaseError}

theorem meets_of_ok (h : (call argon checks t c).1 = .ok r) :
    Meets argon checks t c ↔
      Pre (users t) c ∧ Effect argon (users t) (users (call argon checks t c).2) c r := by
  unfold Meets
  generalize call argon checks t c = res at h
  obtain ⟨_, t'⟩ := res
  cases h
  exact Iff.rfl

theorem meets_of_error (h : call argon checks t c = (.error (.error e), t)) :
    Meets argon checks t c ↔ ¬Pre (users t) c := by
  unfold Meets
  rw [h]
  exact and_iff_left rfl

theorem not_meets_of_panic (h : (call argon checks t c).1 = .error .panic) :
    ¬Meets argon checks t c := by
  unfold Meets
  generalize call argon checks t c = res at h
  obtain ⟨_, t'⟩ := res
  cases h
  exact id

/-- A call that succeeds just where its user is missing never does what it has to. -/
theorem not_meets_inverted (hpre : Pre (users t) c ↔ users t userId ≠ none)
    (hok : users t userId = none → ∃ r, (call argon checks t c).1 = .ok r)
    (herr : users t userId ≠ none → ∃ e, call argon checks t c = (.error (.error e), t)) :
    ¬Meets argon checks t c := by
  by_cases h : users t userId = none
  · obtain ⟨r, hr⟩ := hok h
    rw [meets_of_ok hr]
    exact fun hm => hpre.mp hm.1 h
  · obtain ⟨e, he⟩ := herr h
    rw [meets_of_error he, not_not]
    exact hpre.mpr h

theorem named_iff : Named (users t) username ↔ getUser t username ≠ none := by
  constructor
  · rintro ⟨id, r, hr, rfl⟩
    rw [users_getUser hr]
    exact Option.some_ne_none r
  · intro h
    obtain ⟨r, hr⟩ := Option.ne_none_iff_exists'.mp h
    exact ⟨r.userId, r, getUser_users hr, (getUser_eq_some.mp hr).2⟩

theorem not_named_iff : ¬Named (users t) username ↔ getUser t username = none :=
  not_iff_comm.mp named_iff.symm

theorem executeQuery_free (h : users t userId = none) (f : User → User) :
    executeQuery t (t.update (hasId userId) f) = (.ok (), t) := by
  have hup : t.update (hasId userId) f = some t := by
    refine Table.commit_eq_some.mpr ?_
    rw [Table.updated_none (users_eq_none.mp h)]
  rw [hup]
  rfl

theorem delete_fails (h : users t userId ≠ none) :
    deleteUser t userId = (.error (doesNotExist userId), t) := by
  unfold deleteUser
  rw [userExists_id, decide_eq_true h]

theorem delete_ok (h : users t userId = none) :
    (deleteUser t userId).1 = .ok () := by
  unfold deleteUser
  rw [userExists_id, decide_eq_false (not_not_intro h)]

theorem not_meets_delete : ¬Meets argon checks t (.delete userId) := by
  refine not_meets_inverted Iff.rfl (fun h => ?_) fun h => ?_
  · exact ⟨.done, congrArg (Except.map _) (delete_ok h)⟩
  · exact ⟨_, congrArg (reply _) (delete_fails h)⟩

theorem editGroupId_fails (groupId : UInt32) (h : users t userId ≠ none) :
    editGroupId t userId groupId = (.error (.error (.query .syntaxError)), t) := by
  unfold editGroupId
  rw [userExists_id, decide_eq_true h]

theorem editGroupId_ok (groupId : UInt32) (h : users t userId = none) :
    editGroupId t userId groupId = (.ok (), t) := by
  unfold editGroupId
  rw [userExists_id, decide_eq_false (not_not_intro h)]

theorem not_meets_editGroupId (groupId : UInt32) :
    ¬Meets argon checks t (.editGroupId userId groupId) := by
  refine not_meets_inverted Iff.rfl (fun h => ?_) fun h => ?_
  · exact ⟨.done, congrArg (Except.map _) (congrArg Prod.fst (editGroupId_ok groupId h))⟩
  · exact ⟨_, congrArg (reply _) (editGroupId_fails groupId h)⟩

theorem editPassword_fails (h : users t userId ≠ none) :
    editPassword argon t userId password salt = (.error (doesNotExist userId), t) := by
  unfold editPassword
  rw [userExists_id, decide_eq_true h]

theorem editPassword_ok {hash : String} (h : users t userId = none)
    (hh : argon.hash salt password = some hash) :
    editPassword argon t userId password salt = (.ok (), t) := by
  unfold editPassword hashPassword
  rw [userExists_id, decide_eq_false (not_not_intro h), hh]
  exact executeQuery_free h _

/-- The command finds the user whose password it is to change, and is then refused because the user
exists. -/
theorem userChangePasswordCommand_fails (newPassword : String) :
    ∃ e, userChangePasswordCommand argon t username newPassword salt =
      (.error (.executionFailed e), t) := by
  unfold userChangePasswordCommand withUser
  split
  · exact ⟨_, rfl⟩
  · rename_i user huser
    dsimp only
    rw [editPassword_fails (by rw [getUser_users huser]; exact Option.some_ne_none user)]
    exact ⟨_, rfl⟩

theorem not_meets_editPassword (hs : argon.Sound) :
    ¬Meets argon checks t (.editPassword userId password salt) := by
  refine not_meets_inverted Iff.rfl (fun h => ?_) fun h => ?_
  · obtain ⟨hash, hh⟩ := Option.ne_none_iff_exists'.mp (hs.hashes salt password)
    exact ⟨.done, congrArg (Except.map _) (congrArg Prod.fst (editPassword_ok h hh))⟩
  · exact ⟨_, congrArg (reply _) (editPassword_fails h)⟩

theorem editUsername_fails (h : users t userId ≠ none ∨ getUser t username ≠ none) :
    editUsername t userId username = (.error (doesNotExist userId), t) := by
  unfold editUsername
  rw [userExists_both, decide_eq_true h]

theorem editUsername_ok (h : ¬(users t userId ≠ none ∨ getUser t username ≠ none)) :
    editUsername t userId username = (.ok (), t) := by
  have hid : users t userId = none := not_not.mp fun hn => h (.inl hn)
  have hname : getUser t username = none := not_not.mp fun hn => h (.inr hn)
  have hrename : renameUser t userId username = (.ok (), t) := by
    unfold renameUser
    rw [hname]
    exact executeQuery_free hid _
  unfold editUsername
  rw [userExists_both, decide_eq_false h]
  dsimp only
  rw [hrename]
  exact hrename

theorem meets_editUsername :
    Meets argon checks t (.editUsername userId username) ↔
      NamedElsewhere (users t) userId username := by
  by_cases h : users t userId ≠ none ∨ getUser t username ≠ none
  · have hcall : call argon checks t (.editUsername userId username) =
        (.error (doesNotExist userId), t) := congrArg (reply _) (editUsername_fails h)
    rw [meets_of_error hcall]
    constructor
    · intro hpre
      by_contra helse
      rcases h with hid | hname
      · exact hpre ⟨hid, helse⟩
      · obtain ⟨id, r, hr, hn⟩ := named_iff.mpr hname
        by_cases he : id = userId
        · subst he
          exact hpre ⟨by rw [hr]; exact Option.some_ne_none r, helse⟩
        · exact helse ⟨id, r, hr, hn, he⟩
    · exact fun helse hpre => hpre.2 helse
  · have hcall : (call argon checks t (.editUsername userId username)).1 = .ok .done :=
      congrArg (Except.map _) (congrArg Prod.fst (editUsername_ok h))
    rw [meets_of_ok hcall]
    constructor
    · exact fun hm => (h (.inl hm.1.1)).elim
    · rintro ⟨id, r, hr, hn, -⟩
      exact (h (.inr (named_iff.mp ⟨id, r, hr, hn⟩))).elim

end Steps

section Create

variable {argon : PasswordHasher} {checks : Bool} {t : Users} {uid : UInt32}
  {userId groupId : Option UInt32} {username password salt hash : String}

theorem userExists_free (hid : ∀ id, userId = some id → users t id = none)
    (hname : getUser t username = none) :
    userExists t userId (some username) = .ok false := by
  cases userId with
  | none => rw [userExists_name, decide_eq_false (not_not_intro hname)]
  | some id =>
    rw [userExists_both, decide_eq_false]
    rintro (h | h)
    · exact h (hid id rfl)
    · exact h hname

theorem userExists_taken
    (h : (∃ id, userId = some id ∧ users t id ≠ none) ∨ getUser t username ≠ none) :
    userExists t userId (some username) = .ok true := by
  cases userId with
  | none =>
    have hname : getUser t username ≠ none := h.resolve_left fun ⟨_, hk, _⟩ => nomatch hk
    rw [userExists_name, decide_eq_true hname]
  | some id =>
    rw [userExists_both, decide_eq_true]
    exact h.imp_left fun ⟨_, hk, hid⟩ => Option.some.inj hk ▸ hid

theorem newUser_taken
    (h : (∃ id, userId = some id ∧ users t id ≠ none) ∨ getUser t username ≠ none) :
    newUser argon checks t username password salt userId groupId =
      .error (.error (.queryError (.text "User with given username or uid already exists!"))) := by
  unfold newUser
  rw [userExists_taken h]

theorem newUser_ok (groupId : Option UInt32) (hid : ∀ id, userId = some id → users t id = none)
    (hname : getUser t username = none) (huid : chosenUid checks t userId = .ok uid)
    (hh : argon.hash salt password = some hash) :
    newUser argon checks t username password salt userId groupId =
      .ok ⟨uid, groupId.getD uid, username, hash⟩ := by
  unfold newUser hashPassword
  rw [userExists_free hid hname]
  dsimp only
  rw [huid, hh]

theorem newUser_no_uid {f : Failure} (groupId : Option UInt32)
    (hid : ∀ id, userId = some id → users t id = none)
    (hname : getUser t username = none) (huid : chosenUid checks t userId = .error f) :
    newUser argon checks t username password salt userId groupId = .error f := by
  unfold newUser
  rw [userExists_free hid hname]
  dsimp only
  rw [huid]

theorem createUser_no_row {f : Failure}
    (h : newUser argon checks t username password salt userId groupId = .error f) :
    createUser argon checks t username password salt userId groupId = (.error f, t) := by
  unfold createUser
  rw [h]

theorem createUser_conflict {row : User}
    (h : newUser argon checks t username password salt userId groupId = .ok row)
    (htaken : users t row.userId ≠ none) :
    createUser argon checks t username password salt userId groupId =
      (.error (.error (.query .constraint)), t) := by
  obtain ⟨r, hr⟩ := Option.ne_none_iff_exists'.mp htaken
  obtain ⟨hmem, hsame⟩ := users_eq_some.mp hr
  unfold createUser executeQuery
  rw [h]
  dsimp only
  rw [Table.insert_conflict hmem (.inl hsame)]
  rfl

theorem createUser_ok {row : User}
    (h : newUser argon checks t username password salt userId groupId = .ok row)
    (hfree : users t row.userId = none) (hname : getUser t row.username = none) :
    ∃ t', createUser argon checks t username password salt userId groupId =
        (.ok (row.userId, row.groupId), t') ∧ t'.rows = t.rows ++ [row] ∧
      users t' = Function.update (users t) row.userId (some row) := by
  have hclash : ∀ r ∈ t.rows, ¬Clash r row := by
    rintro r hr (hsame | hsame)
    · have hno := users_eq_none.mp hfree r hr
      rw [Bool.eq_false_iff, Ne, hasId_iff] at hno
      exact hno hsame
    · have hno := getUser_eq_none.mp hname r hr
      rw [Bool.eq_false_iff, Ne, hasName_iff] at hno
      exact hno hsame
  obtain ⟨t', ht, hrows⟩ := Table.insert_ok hclash
  refine ⟨t', ?_, hrows, users_insert hrows hfree⟩
  unfold createUser executeQuery
  rw [h]
  dsimp only
  rw [ht]
  rfl

theorem pre_create : Pre (users t) (.create username password salt userId groupId) ↔
    (match userId with
      | some id => users t id = none
      | none => ∃ id, users t id = none) ∧ getUser t username = none := by
  cases userId with
  | none => exact and_congr_right' not_named_iff
  | some id => exact and_congr_right' not_named_iff

/-- A creation whose id comes out free does what it has to. -/
theorem meets_create_ok (hs : argon.Sound)
    (hid : ∀ id, userId = some id → users t id = none) (hname : getUser t username = none)
    (huid : chosenUid checks t userId = .ok uid) (hfree : users t uid = none) :
    Meets argon checks t (.create username password salt userId groupId) := by
  obtain ⟨hash, hh⟩ := Option.ne_none_iff_exists'.mp (hs.hashes salt password)
  obtain ⟨t', hc, -, hu⟩ :=
    createUser_ok (newUser_ok groupId hid hname huid hh) hfree hname
  have hcall : call argon checks t (.create username password salt userId groupId) =
      (.ok (.created uid (groupId.getD uid)), t') := congrArg (reply _) hc
  rw [meets_of_ok (congrArg Prod.fst hcall), hcall]
  refine ⟨pre_create.mpr ⟨?_, hname⟩, ?_, rfl, hfree, hash, hh, hu⟩
  · cases userId with
    | none => exact ⟨uid, hfree⟩
    | some id => exact hid id rfl
  · rintro id rfl
    exact (Except.ok.inj huid).symm

theorem meets_create_error {e : DatabaseError}
    (h : createUser argon checks t username password salt userId groupId =
      (.error (.error e), t)) :
    Meets argon checks t (.create username password salt userId groupId) ↔
      ¬Pre (users t) (.create username password salt userId groupId) :=
  meets_of_error (congrArg (reply _) h)

theorem not_pre_of_taken
    (h : (∃ id, userId = some id ∧ users t id ≠ none) ∨ getUser t username ≠ none) :
    ¬Pre (users t) (.create username password salt userId groupId) := by
  intro hpre
  obtain ⟨hid, hname⟩ := pre_create.mp hpre
  rcases h with ⟨id, rfl, hne⟩ | hne
  · exact hne hid
  · exact hne hname

theorem meets_create_new (hs : argon.Sound) (hname : getUser t username = none) :
    Meets argon checks t (.create username password salt none groupId) ↔
      Safe checks t (.create username password salt none groupId) := by
  have hnone : ∀ id, (none : Option UInt32) = some id → users t id = none := fun _ h => nomatch h
  have hsafe : Safe checks t (.create username password salt none groupId) ↔
      ¬Pre (users t) (.create username password salt none groupId) ∨
        t.rows.length < 2 ^ 8 ∧ Increasable checks t :=
    or_congr_right ⟨fun h => h.resolve_left fun hn => hn rfl, Or.inr⟩
  rw [hsafe]
  rcases getNewUid_cases checks t with
    ⟨hlen, huid⟩ | ⟨hlen, hinc, uid, huid, hfree⟩ | ⟨hlen, hinc, huid⟩
  · rw [meets_create_error (createUser_no_row (newUser_no_uid groupId hnone hname huid))]
    exact (or_iff_left fun h => hlen h.1).symm
  · exact iff_of_true (meets_create_ok hs hnone hname huid hfree) (.inr ⟨hlen, hinc⟩)
  · have hpre : Pre (users t) (.create username password salt none groupId) :=
      pre_create.mpr ⟨exists_free hlen, hname⟩
    refine iff_of_false ?_ fun h => h.elim (fun hn => hn hpre) fun h => hinc h.2
    rcases huid with hpanic | ⟨uid, huid, htaken⟩
    · exact not_meets_of_panic (congrArg (fun res => (reply _ res).1)
        (createUser_no_row (newUser_no_uid groupId hnone hname hpanic)))
    · obtain ⟨hash, hh⟩ := Option.ne_none_iff_exists'.mp (hs.hashes salt password)
      rw [meets_create_error (createUser_conflict (newUser_ok groupId hnone hname huid hh) htaken)]
      exact not_not_intro hpre

theorem meets_create (hs : argon.Sound) :
    Meets argon checks t (.create username password salt userId groupId) ↔
      Safe checks t (.create username password salt userId groupId) := by
  by_cases htaken : (∃ id, userId = some id ∧ users t id ≠ none) ∨ getUser t username ≠ none
  · have hpre : ¬Pre (users t) (.create username password salt userId groupId) :=
      not_pre_of_taken htaken
    rw [meets_create_error (createUser_no_row (newUser_taken htaken))]
    exact iff_of_true hpre (.inl hpre)
  · have hname : getUser t username = none := not_not.mp fun h => htaken (.inr h)
    cases userId with
    | none => exact meets_create_new hs hname
    | some id =>
      have hfree : users t id = none := not_not.mp fun h => htaken (.inl ⟨id, rfl, h⟩)
      exact iff_of_true
        (meets_create_ok hs (fun _ he => Option.some.inj he ▸ hfree) hname rfl hfree)
        (.inr (.inl (Option.some_ne_none id)))

end Create

section Runs

variable {argon : PasswordHasher} {checks : Bool} {jwt : Jwt} {t t' : Users} {c : Call}
  {P Q : Users → Call → Prop} {user : User} {userId : UInt32}

theorem meets_iff (hs : argon.Sound) : Meets argon checks t c ↔ Safe checks t c := by
  cases c with
  | create username password salt userId groupId => exact meets_create hs
  | delete userId => exact iff_of_false not_meets_delete id
  | editUsername userId username => exact meets_editUsername
  | editPassword userId password salt => exact iff_of_false (not_meets_editPassword hs) id
  | editGroupId userId groupId => exact iff_of_false (not_meets_editGroupId groupId) id

theorem throughout_imp (h : ∀ t c, P t c → Q t c) (calls : List Call)
    (ht : Throughout argon checks P t calls) : Throughout argon checks Q t calls := by
  induction calls generalizing t with
  | nil => trivial
  | cons c cs ih => exact ⟨h t c ht.1, ih ht.2⟩

/-! What follows for logins -/

theorem getUser_of_deleted (hu : users t userId = some user)
    (h : users t' = Function.update (users t) userId none) :
    getUser t' user.username = none := by
  by_contra hne
  obtain ⟨r, hr⟩ := Option.ne_none_iff_exists'.mp hne
  have hr' := getUser_users hr
  rw [h] at hr'
  by_cases hid : r.userId = userId
  · rw [hid, Function.update_self] at hr'
    cases hr'
  · rw [Function.update_of_ne hid] at hr'
    -- the name was the deleted user's
    have hname := users_getUser hr'
    rw [(getUser_eq_some.mp hr).2, users_getUser hu] at hname
    obtain rfl := Option.some.inj hname
    exact hid (users_eq_some.mp hu).2

theorem getUser_of_modified {f : User → User} (hu : users t userId = some user)
    (hname : (f user).username = user.username) (h : users t' = modify (users t) userId f) :
    getUser t' user.username = some (f user) := by
  have hid : users t' userId = some (f user) := by
    rw [h, modify, Function.update_self, hu]
    rfl
  have hget := users_getUser hid
  rwa [hname] at hget

/-- After a deletion the user's name yields no token; after a change of the password only the new
one yields one. -/
def LocksOut (argon : PasswordHasher) (jwt : Jwt) (t : Users) : Call → Prop
  | .delete userId => ∀ user, users t userId = some user →
    (userDeleteCommand t user.username).1 = .ok () →
    ∀ revoked p tokenId issued cleaned,
      (authenticateUser argon jwt ⟨(userDeleteCommand t user.username).2, revoked⟩ user.username p
        tokenId issued cleaned).1 = .ok none
  | .editPassword userId password salt => ∀ user, users t userId = some user →
    (editPassword argon t userId password salt).1 = .ok () →
    ∀ revoked p tokenId issued cleaned,
      (authenticateUser argon jwt ⟨(editPassword argon t userId password salt).2, revoked⟩
        user.username p tokenId issued cleaned).1 = .ok none ↔ p ≠ password
  | _ => True

theorem authenticateUser_none {db : DB} {username p tokenId : String} {issued cleaned : Time} :
    (authenticateUser argon jwt db username p tokenId issued cleaned).1 = .ok none ↔
      checkPassword argon db.users username p = none := by
  unfold authenticateUser
  split
  · rename_i hc
    exact iff_of_true rfl hc
  · rename_i u hc
    refine iff_of_false (fun h => ?_) (by rw [hc]; exact Option.some_ne_none u)
    split at h
    · cases h
    · cases h

theorem userDeleteCommand_ok (hu : users t userId = some user)
    (hok : (userDeleteCommand t user.username).1 = .ok ()) :
    (deleteUser t userId).1 = .ok () ∧
      (userDeleteCommand t user.username).2 = (deleteUser t userId).2 := by
  unfold userDeleteCommand withUser at *
  rw [users_getUser hu] at *
  dsimp only at *
  rw [(users_eq_some.mp hu).2] at *
  generalize deleteUser t userId = res at *
  obtain ⟨_ | _, t'⟩ := res
  · cases hok
  · exact ⟨rfl, rfl⟩

theorem locksOut_of_meets (hs : argon.Sound) (h : Meets argon checks t c) :
    LocksOut argon jwt t c := by
  cases c with
  | delete userId =>
    intro user hu hok revoked p tokenId issued cleaned
    obtain ⟨hdel, htable⟩ := userDeleteCommand_ok hu hok
    have hcall : (call argon checks t (.delete userId)).1 = .ok .done :=
      congrArg (Except.map fun _ => Reply.done) hdel
    have heffect := (meets_of_ok hcall).mp h
    have hget : getUser (deleteUser t userId).2 user.username = none :=
      getUser_of_deleted hu heffect.2
    rw [authenticateUser_none, htable]
    unfold checkPassword
    dsimp only
    rw [hget]
  | editPassword userId password salt =>
    intro user hu hok revoked p tokenId issued cleaned
    have hcall : (call argon checks t (.editPassword userId password salt)).1 = .ok .done :=
      congrArg (Except.map fun _ => Reply.done) hok
    obtain ⟨-, hash, hh, hmod⟩ := (meets_of_ok hcall).mp h
    have hget : getUser (editPassword argon t userId password salt).2 user.username =
        some { user with password := hash } := getUser_of_modified hu rfl hmod
    have hverify := hs.verifies salt password hash hh p
    rw [authenticateUser_none]
    unfold checkPassword
    dsimp only
    rw [hget]
    dsimp only
    split
    · rename_i hv
      exact iff_of_false (Option.some_ne_none _) (not_not_intro (hverify.mp hv))
    · rename_i hv
      exact iff_of_true rfl (mt hverify.mpr hv)
  | create username password salt userId groupId => trivial
  | editUsername userId username => trivial
  | editGroupId userId groupId => trivial

/-- The calls of a run do what they have to, and lock out whom they have to, just where every call
is safe. -/
theorem administration_iff (hs : argon.Sound) (t : Users) (calls : List Call) :
    (Behaves argon checks t calls ∧ Throughout argon checks (LocksOut argon jwt) t calls) ↔
      AllSafe argon checks t calls := by
  constructor
  · exact fun h => throughout_imp (fun _ _ => (meets_iff hs).mp) calls h.1
  · intro h
    have hb : Behaves argon checks t calls := throughout_imp (fun _ _ => (meets_iff hs).mpr) calls h
    exact ⟨hb, throughout_imp (fun _ _ => locksOut_of_meets hs) calls hb⟩

def plain : PasswordHasher := ⟨fun _ p => some p, fun p h => p = h⟩

theorem plain_sound : plain.Sound := by
  refine ⟨fun _ p => Option.some_ne_none p, ?_⟩
  intro _ password h he p
  obtain rfl := Option.some.inj he
  exact decide_eq_true_iff

theorem administration_iff_create :
    Behaves plain true (Table.empty Clash)
        [.create "user" "pass" "salt" none none, .editUsername 7 "user"] ∧
      Throughout plain true (LocksOut plain ⟨fun _ => none, fun _ _ => none, fun _ => none, nofun⟩)
        (Table.empty Clash) [.create "user" "pass" "salt" none none, .editUsername 7 "user"] := by
  refine (administration_iff plain_sound _ _).mpr ⟨.inr (.inr ⟨by decide, .inl (by decide)⟩), ?_⟩
  exact ⟨⟨1001, ⟨1001, 1001, "user", "pass"⟩, by decide, rfl, by decide⟩, trivial⟩

theorem delete_of_present_fails :
    let t : Users := ⟨[⟨1001, 1001, "user", "pass"⟩], by simp⟩
    deleteUser t 1001 = (.error (doesNotExist 1001), t) ∧
      ¬(Behaves plain true t [.delete 1001] ∧ Throughout plain true
        (LocksOut plain ⟨fun _ => none, fun _ _ => none, fun _ => none, nofun⟩) t
        [.delete 1001]) := by
  refine ⟨rfl, ?_⟩
  rintro ⟨⟨hdelete, _⟩, _⟩
  exact not_meets_delete hdelete

end Runs

end ServerUserAdministration
