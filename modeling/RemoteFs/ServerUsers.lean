import RemoteFs.ServerDatabase
import Mathlib.Data.List.Nodup
import Mathlib.Data.List.Perm.Subperm
import Mathlib.Logic.Function.Basic

/-! # The users of the server

A user's id and a user's name are unique. The edits ask `user_exists` first; three of them take
its answer the wrong way round, and the statement of the fourth does not parse. -/
namespace ServerUsers

open SqlTable
open ServerDatabase

structure User where
  userId : UInt32
  groupId : UInt32
  username : String
  password : String
  deriving DecidableEq, Repr

abbrev Clash (a b : User) : Prop := a.userId = b.userId ∨ a.username = b.username

abbrev Users := Table Clash

/-- The password library: a hash carries its salt, and hashing may fail. -/
structure PasswordHasher where
  hash : String → String → Option String
  verify : String → String → Bool

/-- Hashing succeeds, and a hash verifies the password it was made of and no other. -/
structure PasswordHasher.Sound (argon : PasswordHasher) : Prop where
  hashes : ∀ salt password, argon.hash salt password ≠ none
  verifies : ∀ salt password h, argon.hash salt password = some h →
    ∀ p, argon.verify p h = true ↔ p = password

inductive Failure where
  | error (e : DatabaseError)
  | panic
  deriving DecidableEq, Repr

abbrev Result (α : Type) := Except Failure α × Users

def hasId (userId : UInt32) (r : User) : Bool := decide (r.userId = userId)

def hasName (username : String) (r : User) : Bool := decide (r.username = username)

def executeQuery (t : Users) (written : Option Users) : Result Unit :=
  match execute t written with
  | (.ok (), t') => (.ok (), t')
  | (.error e, t') => (.error (.error (.query e)), t')

/-- `SELECT COUNT(*) …` as `u8` -/
def countUsers (t : Users) (p : User → Bool) : Except DatabaseError ℕ :=
  (decodeU8 (t.count p)).mapError .query

def countGiven {κ : Type} (t : Users) (key : Option κ) (p : κ → User → Bool) :
    Except DatabaseError ℕ :=
  match key with
  | some k => countUsers t (p k)
  | none => .ok 0

def userExists (t : Users) (userId : Option UInt32) (username : Option String) :
    Except DatabaseError Bool := do
  let byId ← countGiven t userId hasId
  let byName ← countGiven t username hasName
  return decide (0 < byId + byName)

def hashPassword (argon : PasswordHasher) (salt password : String) : Except String String :=
  match argon.hash salt password with
  | some h => .ok h
  | none => .error "Server error: problem during authentication!"

def hashError (e : String) : Failure :=
  .error (.other (.text ("Error while hashing the password: " ++ e)))

def maxUid (t : Users) : UInt32 := (t.rows.map User.userId).foldl max 0

/-- The `u32` addition of one: it panics in a build with overflow checks and wraps in one
without. -/
def addOne (checks : Bool) (n : UInt32) : Except Failure UInt32 :=
  if checks = true ∧ n.toNat + 1 = 2 ^ 32 then .error .panic else .ok (n + 1)

def getNewUid (checks : Bool) (t : Users) : Except Failure UInt32 :=
  match countUsers t fun _ => true with
  | .error e => .error (.error e)
  | .ok numUsers => if numUsers ≠ 0 then addOne checks (maxUid t) else .ok 1001

def chosenUid (checks : Bool) (t : Users) (userId : Option UInt32) : Except Failure UInt32 :=
  match userId with
  | some uid => .ok uid
  | none => getNewUid checks t

def newUser (argon : PasswordHasher) (checks : Bool) (t : Users)
    (username password salt : String) (userId groupId : Option UInt32) : Except Failure User :=
  match userExists t userId (some username) with
  | .error e => .error (.error e)
  | .ok true =>
    .error (.error (.queryError (.text "User with given username or uid already exists!")))
  | .ok false =>
    match chosenUid checks t userId with
    | .error e => .error e
    | .ok uid =>
      match hashPassword argon salt password with
      | .error e => .error (hashError e)
      | .ok pass => .ok ⟨uid, groupId.getD uid, username, pass⟩

def createUser (argon : PasswordHasher) (checks : Bool) (t : Users)
    (username password salt : String) (userId groupId : Option UInt32) :
    Result (UInt32 × UInt32) :=
  match newUser argon checks t username password salt userId groupId with
  | .error e => (.error e, t)
  | .ok row =>
    match executeQuery t (t.insert row) with
    | (.ok (), t') => (.ok (row.userId, row.groupId), t')
    | (.error e, t') => (.error e, t')

def getUser (t : Users) (username : String) : Option User := (t.select (hasName username)).head?

def doesNotExist (userId : UInt32) : Failure :=
  .error (.queryError (.text s!"User {userId} does not exist!"))

def isTaken (username : String) : Failure :=
  .error (.queryError (.text s!"Username '{username}' is already taken!"))

def deleteUser (t : Users) (userId : UInt32) : Result Unit :=
  match userExists t (some userId) none with
  | .error e => (.error (.error e), t)
  | .ok true => (.error (doesNotExist userId), t)
  | .ok false => (.ok (), t.delete (hasId userId))

/-- The check and the update that `edit_username` makes twice. -/
def renameUser (t : Users) (userId : UInt32) (username : String) : Result Unit :=
  match getUser t username with
  | some _ => (.error (isTaken username), t)
  | none => executeQuery t (t.update (hasId userId) fun r => { r with username := username })

def editUsername (t : Users) (userId : UInt32) (username : String) : Result Unit :=
  match userExists t (some userId) (some username) with
  | .error e => (.error (.error e), t)
  | .ok true => (.error (doesNotExist userId), t)
  | .ok false =>
    match renameUser t userId username with
    | (.error e, t') => (.error e, t')
    | (.ok (), t') => renameUser t' userId username

def editPassword (argon : PasswordHasher) (t : Users) (userId : UInt32)
    (password salt : String) : Result Unit :=
  match userExists t (some userId) none with
  | .error e => (.error (.error e), t)
  | .ok true => (.error (doesNotExist userId), t)
  | .ok false =>
    match hashPassword argon salt password with
    | .error e => (.error (hashError e), t)
    | .ok pass => executeQuery t (t.update (hasId userId) fun r => { r with password := pass })

/-- `UPDATE users WHERE user_id = ? SET group_id = ?` does not parse. -/
def editGroupId (t : Users) (userId : UInt32) (_groupId : UInt32) : Result Unit :=
  match userExists t (some userId) none with
  | .error e => (.error (.error e), t)
  | .ok true => (.error (.error (.query .syntaxError)), t)
  | .ok false => (.ok (), t)

/-- `ExecutionFailed` carries a message of the command or the text of the error it was given. -/
inductive CommandError where
  | executionFailed (reason : String ⊕ Failure)
  deriving DecidableEq, Repr

def withUser (t : Users) (username : String) (act : UInt32 → Result Unit) :
    Except CommandError Unit × Users :=
  match getUser t username with
  | none => (.error (.executionFailed (.inl s!"User '{username}' not found.")), t)
  | some user =>
    match act user.userId with
    | (.ok (), t') => (.ok (), t')
    | (.error e, t') => (.error (.executionFailed (.inr e)), t')

def userDeleteCommand (t : Users) (username : String) : Except CommandError Unit × Users :=
  withUser t username (deleteUser t)

def userChangePasswordCommand (argon : PasswordHasher) (t : Users)
    (username newPassword salt : String) : Except CommandError Unit × Users :=
  withUser t username fun userId => editPassword argon t userId newPassword salt

def checkPassword (argon : PasswordHasher) (t : Users) (username password : String) :
    Option User :=
  match getUser t username with
  | some user => if argon.verify password user.password then some user else none
  | none => none

/-! The users by their ids -/

abbrev UserMap := UInt32 → Option User

def users (t : Users) : UserMap := fun userId => (t.select (hasId userId)).head?

section Lookups

variable {t t' : Users} {r : User} {userId : UInt32} {username : String}

@[simp] theorem hasId_iff : hasId userId r = true ↔ r.userId = userId := decide_eq_true_iff

@[simp] theorem hasName_iff : hasName username r = true ↔ r.username = username :=
  decide_eq_true_iff

theorem hasId_clash (a b : User) (ha : hasId userId a = true) (hb : hasId userId b = true) :
    Clash a b := .inl ((hasId_iff.mp ha).trans (hasId_iff.mp hb).symm)

theorem hasName_clash (a b : User) (ha : hasName username a = true)
    (hb : hasName username b = true) : Clash a b :=
  .inr ((hasName_iff.mp ha).trans (hasName_iff.mp hb).symm)

theorem users_eq_some : users t userId = some r ↔ r ∈ t.rows ∧ r.userId = userId := by
  rw [users, Table.head_select_eq_some hasId_clash, hasId_iff]

theorem users_eq_none : users t userId = none ↔ ∀ r ∈ t.rows, hasId userId r = false :=
  Table.head_select_eq_none

theorem getUser_eq_some : getUser t username = some r ↔ r ∈ t.rows ∧ r.username = username := by
  rw [getUser, Table.head_select_eq_some hasName_clash, hasName_iff]

theorem getUser_eq_none : getUser t username = none ↔ ∀ r ∈ t.rows, hasName username r = false :=
  Table.head_select_eq_none

theorem users_self (h : r ∈ t.rows) : users t r.userId = some r := users_eq_some.mpr ⟨h, rfl⟩

theorem getUser_users (h : getUser t username = some r) : users t r.userId = some r :=
  users_self (getUser_eq_some.mp h).1

theorem users_getUser (h : users t userId = some r) : getUser t r.username = some r :=
  getUser_eq_some.mpr ⟨(users_eq_some.mp h).1, rfl⟩

theorem countUsers_hasId :
    countUsers t (hasId userId) = .ok (t.count (hasId userId)) := by
  rw [countUsers, decodeU8_le_one (Table.count_le_one hasId_clash)]
  rfl

theorem countUsers_hasName :
    countUsers t (hasName username) = .ok (t.count (hasName username)) := by
  rw [countUsers, decodeU8_le_one (Table.count_le_one hasName_clash)]
  rfl

theorem userExists_id :
    userExists t (some userId) none = .ok (decide (users t userId ≠ none)) := by
  unfold userExists countGiven
  dsimp only
  rw [countUsers_hasId]
  exact congrArg Except.ok (decide_eq_decide.mpr (by rw [Nat.add_zero]; exact Table.count_pos))

theorem userExists_name :
    userExists t none (some username) = .ok (decide (getUser t username ≠ none)) := by
  unfold userExists countGiven
  dsimp only
  rw [countUsers_hasName]
  exact congrArg Except.ok (decide_eq_decide.mpr (by rw [Nat.zero_add]; exact Table.count_pos))

theorem userExists_both :
    userExists t (some userId) (some username) =
      .ok (decide (users t userId ≠ none ∨ getUser t username ≠ none)) := by
  unfold userExists countGiven
  dsimp only
  rw [countUsers_hasId, countUsers_hasName]
  refine congrArg Except.ok (decide_eq_decide.mpr (Nat.add_pos_iff_pos_or_pos.trans ?_))
  exact or_congr Table.count_pos Table.count_pos

/-- One more user in the map where a row with a free id goes in. -/
theorem users_insert (h : t'.rows = t.rows ++ [r]) (hfree : users t r.userId = none) :
    users t' = Function.update (users t) r.userId (some r) := by
  funext userId
  by_cases hid : userId = r.userId
  · subst hid
    rw [Function.update_self]
    exact users_eq_some.mpr ⟨by rw [h]; exact List.mem_append_right _ (List.mem_singleton_self r),
      rfl⟩
  · rw [Function.update_of_ne hid]
    refine Option.ext fun s => ?_
    rw [users_eq_some, users_eq_some, h, List.mem_append, List.mem_singleton]
    constructor
    · rintro ⟨hs | rfl, he⟩
      · exact ⟨hs, he⟩
      · exact (hid he.symm).elim
    · exact fun ⟨hs, he⟩ => ⟨.inl hs, he⟩

end Lookups

section NewUid

variable {t : Users} {r : User}

theorem left_le_max (a b : UInt32) : a ≤ max a b := by
  change a ≤ if a ≤ b then b else a
  split
  · assumption
  · exact UInt32.le_refl a

theorem right_le_max (a b : UInt32) : b ≤ max a b := by
  change b ≤ if a ≤ b then b else a
  split
  · exact UInt32.le_refl b
  · exact (UInt32.le_total a b).resolve_left (by assumption)

theorem le_foldl_max (l : List UInt32) (a : UInt32) :
    a ≤ l.foldl max a ∧ ∀ n ∈ l, n ≤ l.foldl max a := by
  induction l generalizing a with
  | nil => exact ⟨UInt32.le_refl a, fun n hn => (List.not_mem_nil hn).elim⟩
  | cons m l ih =>
    obtain ⟨hmax, hl⟩ := ih (max a m)
    refine ⟨UInt32.le_trans (left_le_max a m) hmax, fun n hn => ?_⟩
    rcases List.mem_cons.mp hn with rfl | hn
    · exact UInt32.le_trans (right_le_max a n) hmax
    · exact hl n hn

theorem le_maxUid (h : r ∈ t.rows) : r.userId ≤ maxUid t :=
  (le_foldl_max _ 0).2 _ (List.mem_map_of_mem h)

/-- Where the maximum can be increased, what comes out is free. -/
theorem users_above_max (h : (maxUid t).toNat + 1 < 2 ^ 32) : users t (maxUid t + 1) = none := by
  refine users_eq_none.mpr fun r hr => ?_
  rw [Bool.eq_false_iff, Ne, hasId_iff]
  intro he
  have hle := UInt32.le_iff_toNat_le.mp (le_maxUid hr)
  rw [he, UInt32.toNat_add] at hle
  have hone : (1 : UInt32).toNat = 1 := rfl
  rw [hone, Nat.mod_eq_of_lt h] at hle
  omega

/-- With fewer rows than there are ids to choose from, some id is free. -/
theorem exists_free (h : t.rows.length < 2 ^ 8) : ∃ userId, users t userId = none := by
  by_contra hall
  push Not at hall
  have hsub : (List.range (2 ^ 8)).map UInt32.ofNat ⊆ t.rows.map User.userId := by
    intro userId _
    obtain ⟨r, hr⟩ := Option.ne_none_iff_exists'.mp (hall userId)
    obtain ⟨hmem, rfl⟩ := users_eq_some.mp hr
    exact List.mem_map_of_mem hmem
  have hnodup : ((List.range (2 ^ 8)).map UInt32.ofNat).Nodup := by
    refine List.Nodup.map_on (fun m hm n hn he => ?_) List.nodup_range
    have hm := List.mem_range.mp hm
    have hn := List.mem_range.mp hn
    have he := congrArg UInt32.toNat he
    have hsize : UInt32.size = 2 ^ 32 := rfl
    rwa [UInt32.toNat_ofNat_of_lt' (by omega), UInt32.toNat_ofNat_of_lt' (by omega)] at he
  have hlen := (hnodup.subperm hsub).length_le
  rw [List.length_map, List.length_map, List.length_range] at hlen
  omega

theorem countUsers_all (t : Users) :
    (countUsers t fun _ => true) = (decodeU8 t.rows.length).mapError .query := by
  rw [countUsers, Table.count, Table.select, List.filter_true]

/-- The new id: no id where the count does not decode; `1001` for the first user; else the
successor of the maximum. -/
theorem getNewUid_spec (checks : Bool) (t : Users) :
    getNewUid checks t =
      if t.rows.length < 2 ^ 8 then
        if t.rows = [] then .ok 1001 else addOne checks (maxUid t)
      else .error (.error (.query .decode)) := by
  unfold getNewUid
  rw [countUsers_all, decodeU8]
  by_cases hlen : t.rows.length < 2 ^ 8
  · rw [if_pos hlen, if_pos hlen]
    dsimp only [Except.mapError]
    by_cases hnil : t.rows = []
    · rw [if_pos hnil, hnil]
      rfl
    · rw [if_neg hnil, if_pos (mt List.length_eq_zero_iff.mp hnil)]
  · rw [if_neg hlen, if_neg hlen]
    rfl

/-- The successor of the maximum is a free id. In a build without overflow checks the successor of
the last id is zero. -/
def Increasable (checks : Bool) (t : Users) : Prop :=
  (maxUid t).toNat + 1 < 2 ^ 32 ∨ checks = false ∧ users t 0 = none

theorem addOne_spec (checks : Bool) (t : Users) :
    (Increasable checks t ∧ ∃ uid, addOne checks (maxUid t) = .ok uid ∧ users t uid = none) ∨
    (¬Increasable checks t ∧ (addOne checks (maxUid t) = .error .panic ∨
      ∃ uid, addOne checks (maxUid t) = .ok uid ∧ users t uid ≠ none)) := by
  unfold addOne
  by_cases hmax : (maxUid t).toNat + 1 = 2 ^ 32
  · have hnot : ¬(maxUid t).toNat + 1 < 2 ^ 32 := by omega
    cases checks with
    | true =>
      rw [if_pos ⟨rfl, hmax⟩]
      exact .inr ⟨fun h => h.elim hnot fun hc => (Bool.false_ne_true hc.1.symm), .inl rfl⟩
    | false =>
      rw [if_neg fun h => Bool.false_ne_true h.1]
      have hzero : maxUid t + 1 = 0 := by
        apply UInt32.toNat.inj
        rw [UInt32.toNat_add, show (1 : UInt32).toNat = 1 from rfl, hmax]
        rfl
      rw [hzero]
      by_cases hfree : users t 0 = none
      · exact .inl ⟨.inr ⟨rfl, hfree⟩, 0, rfl, hfree⟩
      · exact .inr ⟨fun h => h.elim hnot fun h => hfree h.2, .inr ⟨0, rfl, hfree⟩⟩
  · rw [if_neg (fun h => hmax h.2)]
    have hlt : (maxUid t).toNat + 1 < 2 ^ 32 := by
      have := (maxUid t).toNat_lt
      omega
    exact .inl ⟨.inl hlt, _, rfl, users_above_max hlt⟩

theorem getNewUid_cases (checks : Bool) (t : Users) :
    (¬t.rows.length < 2 ^ 8 ∧ getNewUid checks t = .error (.error (.query .decode))) ∨
    (t.rows.length < 2 ^ 8 ∧ Increasable checks t ∧
      ∃ uid, getNewUid checks t = .ok uid ∧ users t uid = none) ∨
    (t.rows.length < 2 ^ 8 ∧ ¬Increasable checks t ∧ (getNewUid checks t = .error .panic ∨
      ∃ uid, getNewUid checks t = .ok uid ∧ users t uid ≠ none)) := by
  rw [getNewUid_spec]
  by_cases hlen : t.rows.length < 2 ^ 8
  · rw [if_pos hlen]
    by_cases hnil : t.rows = []
    · rw [if_pos hnil]
      have hmax : maxUid t = 0 := by rw [maxUid, hnil]; rfl
      have hfree : users t 1001 = none := users_eq_none.mpr (by rw [hnil]; simp)
      exact .inr (.inl ⟨hlen, .inl (by rw [hmax]; decide), 1001, rfl, hfree⟩)
    · rw [if_neg hnil]
      rcases addOne_spec checks t with h | h
      · exact .inr (.inl ⟨hlen, h⟩)
      · exact .inr (.inr ⟨hlen, h⟩)
  · rw [if_neg hlen]
    exact .inl ⟨hlen, rfl⟩

end NewUid

end ServerUsers
