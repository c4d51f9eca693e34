import RemoteFs.ServerUsers
import Mathlib.Data.Int.Notation

/-! # Tokens and their revocation

A logout records the token's id with its expiration time. A login deletes the records whose
expiration time is the current second. A token is refused from the second of its expiration on,
so what a login deletes belongs to a token that is refused anyway. -/
namespace ServerTokens

open SqlTable
open ServerDatabase
open ServerUsers

/-- The seconds of a `SystemTime` since the epoch; the platform counts them in an `i64`. -/
structure Time where
  secs : ℕ
  bound : secs < 2 ^ 63
  deriving DecidableEq, Repr

def Time.toI64 (now : Time) : ℤ := now.secs

structure Claims where
  userId : UInt32
  groupId : UInt32
  tokenId : String
  exp : UInt64
  deriving DecidableEq, Repr

def Claims.expiration (c : Claims) : ℤ := c.exp.toBitVec.toInt

structure AuthenticatedUser where
  userId : UInt32
  groupId : UInt32
  tokenId : String
  expirationTime : ℤ
  deriving DecidableEq, Repr

/-- The token library under the server's key. Decoding checks the signature and, at the time of
the call, the expiration; the claims it returns are those that were signed. -/
structure Jwt where
  encode : Claims → Option String
  decode : Time → String → Option Claims
  signed : String → Option Claims
  decode_signed : ∀ now token claims, decode now token = some claims →
    signed token = some claims

structure RevokedToken where
  userId : UInt32
  tokenId : String
  expirationTime : ℤ
  deriving DecidableEq, Repr

abbrev SameToken (a b : RevokedToken) : Prop := a.userId = b.userId ∧ a.tokenId = b.tokenId

abbrev RevokedTokens := Table SameToken

structure DB where
  users : Users
  revokedTokens : RevokedTokens

def withId (userId : UInt32) (tokenId : String) (r : RevokedToken) : Bool :=
  decide (r.userId = userId ∧ r.tokenId = tokenId)

def expiringAt (now : Time) (r : RevokedToken) : Bool := decide (r.expirationTime = now.toI64)

/-- The claims of a new token. `checked_add` gives zero where the sum does not fit. -/
def newClaims (now : Time) (userId groupId : UInt32) (tokenId : String) : Claims :=
  ⟨userId, groupId, tokenId,
    if now.secs + 24 * 60 * 60 < 2 ^ 64 then .ofNat (now.secs + 24 * 60 * 60) else 0⟩

def generateToken (jwt : Jwt) (now : Time) (userId groupId : UInt32) (tokenId : String) :
    Except DatabaseError String :=
  match jwt.encode (newClaims now userId groupId tokenId) with
  | some token => .ok token
  | none => .error (.other .jwt)

def insertRevokedToken (db : DB) (user : AuthenticatedUser) : Except DatabaseError Unit × DB :=
  match execute db.revokedTokens
      (db.revokedTokens.insert ⟨user.userId, user.tokenId, user.expirationTime⟩) with
  | (.ok (), t') => (.ok (), { db with revokedTokens := t' })
  | (.error e, t') =>
    (.error (.queryError (.sql "Error inserting revoked token because of " e ".")),
      { db with revokedTokens := t' })

def cleanRevokedToken (db : DB) (now : Time) : Except DatabaseError Unit × DB :=
  (.ok (), { db with revokedTokens := db.revokedTokens.delete (expiringAt now) })

def isTokenRevoked (db : DB) (userId : UInt32) (tokenId : String) : Except DatabaseError Bool :=
  match decodeU32 (db.revokedTokens.count (withId userId tokenId)) with
  | .ok result => .ok (decide (result = 1))
  | .error e => .error (.queryError (.sql "Error retrieving token information because of " e "."))

/-- The library reads the clock at `decoded`, the server at `now`. -/
def verifyToken (jwt : Jwt) (db : DB) (decoded now : Time) (token : String) :
    Except DatabaseError AuthenticatedUser :=
  match jwt.decode decoded token with
  | none => .error (.other (.text "Token is invalid."))
  | some claims =>
    if now.toI64 ≥ claims.expiration then .error (.other (.text "Token is expired."))
    else
      match isTokenRevoked db claims.userId claims.tokenId with
      | .error _ => .error (.other (.text "Error while checking token revocation."))
      | .ok true => .error (.other (.text "Token has been revoked."))
      | .ok false => .ok ⟨claims.userId, claims.groupId, claims.tokenId, claims.expiration⟩

/-- The token is issued at `issued`, under a fresh id; the cleaning reads the clock again. -/
def authenticateUser (argon : PasswordHasher) (jwt : Jwt) (db : DB)
    (username password tokenId : String) (issued cleaned : Time) :
    Except DatabaseError (Option String) × DB :=
  match checkPassword argon db.users username password with
  | none => (.ok none, db)
  | some user =>
    match generateToken jwt issued user.userId user.groupId tokenId with
    | .error e => (.error e, db)
    | .ok token =>
      match cleanRevokedToken db cleaned with
      | (.error e, db') => (.error e, db')
      | (.ok (), db') => (.ok (some token), db')

inductive Event where
  | login (username password tokenId : String) (issued cleaned : Time)
  | logout (user : AuthenticatedUser)
  | verify (token : String) (decoded now : Time)
  | clean (now : Time)

def Event.readings : Event → List Time
  | .login _ _ _ issued cleaned => [issued, cleaned]
  | .logout _ => []
  | .verify _ decoded now => [decoded, now]
  | .clean now => [now]

def Event.after (argon : PasswordHasher) (jwt : Jwt) (db : DB) : Event → DB
  | .login username password tokenId issued cleaned =>
    (authenticateUser argon jwt db username password tokenId issued cleaned).2
  | .logout user => (insertRevokedToken db user).2
  | .verify _ _ _ => db
  | .clean now => (cleanRevokedToken db now).2

def run (argon : PasswordHasher) (jwt : Jwt) (db : DB) (events : List Event) : DB :=
  events.foldl (Event.after argon jwt) db

def NonDecreasing (events : List Event) : Prop :=
  (events.flatMap Event.readings).Pairwise fun a b => a.secs ≤ b.secs

/-! What a logout leaves -/

def AuthenticatedUser.row (user : AuthenticatedUser) : RevokedToken :=
  ⟨user.userId, user.tokenId, user.expirationTime⟩

def Revoked (db : DB) (user : AuthenticatedUser) : Prop := user.row ∈ db.revokedTokens.rows

def Lapsed (readings : List Time) (user : AuthenticatedUser) : Prop :=
  ∃ now ∈ readings, user.expirationTime ≤ now.toI64

section Revocation

variable {argon : PasswordHasher} {jwt : Jwt} {db : DB} {user : AuthenticatedUser}
  {token : String} {decoded now : Time}

theorem withId_same (a b : RevokedToken) (ha : withId user.userId user.tokenId a = true)
    (hb : withId user.userId user.tokenId b = true) : SameToken a b := by
  have ha := of_decide_eq_true ha
  have hb := of_decide_eq_true hb
  exact ⟨ha.1.trans hb.1.symm, ha.2.trans hb.2.symm⟩

theorem isTokenRevoked_of_revoked (h : Revoked db user) :
    isTokenRevoked db user.userId user.tokenId = .ok true := by
  have hone : db.revokedTokens.count (withId user.userId user.tokenId) = 1 :=
    Table.count_eq_one withId_same h (decide_eq_true ⟨rfl, rfl⟩)
  rw [isTokenRevoked, hone, decodeU32_le_one (Nat.le_refl 1)]
  rfl

theorem insertRevokedToken_ok (h : (insertRevokedToken db user).1 = .ok ()) :
    Revoked (insertRevokedToken db user).2 user := by
  unfold insertRevokedToken execute at *
  cases ht : db.revokedTokens.insert ⟨user.userId, user.tokenId, user.expirationTime⟩ with
  | none =>
    rw [ht] at h
    cases h
  | some t' =>
    have hrows := Table.insert_eq_some.mp ht
    unfold Revoked
    dsimp only
    rw [hrows]
    exact List.mem_append_right _ (List.mem_singleton_self _)

theorem insertRevokedToken_keeps (other : AuthenticatedUser) (h : Revoked db user) :
    Revoked (insertRevokedToken db other).2 user := by
  unfold insertRevokedToken execute
  cases ht : db.revokedTokens.insert ⟨other.userId, other.tokenId, other.expirationTime⟩ with
  | none => exact h
  | some t' =>
    have hrows := Table.insert_eq_some.mp ht
    unfold Revoked
    dsimp only
    rw [hrows]
    exact List.mem_append_left _ h

/-- A cleaning keeps a record, unless the record's token expires at that very second. -/
theorem cleanRevokedToken_keeps (now : Time) (h : Revoked db user) :
    Revoked (cleanRevokedToken db now).2 user ∨ user.expirationTime = now.toI64 := by
  by_cases he : user.expirationTime = now.toI64
  · exact .inr he
  · exact .inl (Table.mem_delete.mpr ⟨h, decide_eq_false he⟩)

/-- Valid credentials give a token, and the records of this second go. -/
theorem authenticateUser_ok {username password tokenId : String} {issued : Time} {u : User}
    (cleaned : Time) (hc : checkPassword argon db.users username password = some u)
    (he : jwt.encode (newClaims issued u.userId u.groupId tokenId) = some token) :
    authenticateUser argon jwt db username password tokenId issued cleaned =
      (.ok (some token), (cleanRevokedToken db cleaned).2) := by
  unfold authenticateUser generateToken
  rw [hc]
  dsimp only
  rw [he]
  rfl

theorem authenticateUser_keeps (username password tokenId : String) (issued cleaned : Time)
    (h : Revoked db user) :
    Revoked (authenticateUser argon jwt db username password tokenId issued cleaned).2 user ∨
      user.expirationTime = cleaned.toI64 := by
  unfold authenticateUser
  split
  · exact .inl h
  · split
    · exact .inl h
    · exact cleanRevokedToken_keeps cleaned h

theorem after_keeps (argon : PasswordHasher) (jwt : Jwt) (e : Event) (h : Revoked db user) :
    Revoked (e.after argon jwt db) user ∨ Lapsed e.readings user := by
  cases e with
  | login username password tokenId issued cleaned =>
    refine (authenticateUser_keeps username password tokenId issued cleaned h).imp_right ?_
    intro he
    exact ⟨cleaned, List.mem_cons_of_mem _ (List.mem_singleton_self _), Int.le_of_eq he⟩
  | logout other => exact .inl (insertRevokedToken_keeps other h)
  | verify token decoded now => exact .inl h
  | clean now =>
    refine (cleanRevokedToken_keeps now h).imp_right ?_
    intro he
    exact ⟨now, List.mem_singleton_self now, Int.le_of_eq he⟩

theorem run_keeps (argon : PasswordHasher) (jwt : Jwt) (events : List Event)
    (h : Revoked db user) :
    Revoked (run argon jwt db events) user ∨ Lapsed (events.flatMap Event.readings) user := by
  induction events generalizing db with
  | nil => exact .inl h
  | cons e events ih =>
    rw [List.flatMap_cons]
    rcases after_keeps argon jwt e h with hkept | ⟨now, hnow, hle⟩
    · rcases ih hkept with hkept | ⟨now, hnow, hle⟩
      · exact .inl hkept
      · exact .inr ⟨now, List.mem_append_right _ hnow, hle⟩
    · exact .inr ⟨now, List.mem_append_left _ hnow, hle⟩

/-- The user of a token is made of the claims that were signed. -/
theorem verifyToken_ok (h : verifyToken jwt db decoded now token = .ok user) :
    ∃ claims, jwt.signed token = some claims ∧
      user = ⟨claims.userId, claims.groupId, claims.tokenId, claims.expiration⟩ := by
  unfold verifyToken at h
  split at h
  · cases h
  · rename_i claims hd
    refine ⟨claims, jwt.decode_signed _ _ _ hd, ?_⟩
    split at h
    · cases h
    · split at h
      · cases h
      · cases h
      · injection h with h
        exact h.symm

theorem verifyToken_refused {claims : Claims} (hs : jwt.signed token = some claims)
    (h : Revoked db ⟨claims.userId, claims.groupId, claims.tokenId, claims.expiration⟩ ∨
      claims.expiration ≤ now.toI64) :
    ∃ e, verifyToken jwt db decoded now token = .error e := by
  unfold verifyToken
  split
  · exact ⟨_, rfl⟩
  · rename_i claims' hd
    obtain rfl := Option.some.inj ((jwt.decode_signed _ _ _ hd).symm.trans hs)
    split
    · exact ⟨_, rfl⟩
    · rename_i hexp
      have hrev := isTokenRevoked_of_revoked (h.resolve_right hexp)
      rw [hrev]
      exact ⟨_, rfl⟩

/-- After the logout of the user of a token, no later event of the run makes the token verify. -/
theorem revocation_permanent (before after : List Event) (decoded' now' : Time) {db₀ : DB}
    {decoded₀ now₀ : Time} (hv : verifyToken jwt db₀ decoded₀ now₀ token = .ok user)
    (hclock : NonDecreasing (before ++ .logout user :: after ++ [.verify token decoded' now']))
    (hok : (insertRevokedToken (run argon jwt db before) user).1 = .ok ()) :
    ∃ e, verifyToken jwt (run argon jwt db (before ++ .logout user :: after)) decoded' now' token =
      .error e := by
  have hrun : run argon jwt db (before ++ .logout user :: after) =
      run argon jwt (insertRevokedToken (run argon jwt db before) user).2 after :=
    List.foldl_append
  rw [hrun]
  obtain ⟨claims, hs, rfl⟩ := verifyToken_ok hv
  refine verifyToken_refused hs ?_
  rcases run_keeps argon jwt after (insertRevokedToken_ok hok) with
    hkept | ⟨t, ht, hle⟩
  · exact .inl hkept
  · refine .inr (Int.le_trans hle ?_)
    unfold NonDecreasing at hclock
    rw [List.flatMap_append, List.pairwise_append] at hclock
    have hlate := hclock.2.2 t (by
      rw [List.flatMap_append, List.flatMap_cons]
      exact List.mem_append_right _ (List.mem_append_right _ ht)) now'
      (List.mem_cons_of_mem _ (List.mem_singleton_self now'))
    exact Int.ofNat_le.mpr hlate

theorem revocation_permanent_logout :
    let claims : Claims := ⟨1001, 1001, "id", 86410⟩
    let user : AuthenticatedUser := ⟨1001, 1001, "id", 86410⟩
    let jwt : Jwt :=
      { encode := fun _ => some "token"
        decode := fun now token =>
          if token = "token" ∧ now.secs < 86410 then some claims else none
        signed := fun token => if token = "token" then some claims else none
        decode_signed := by
          intro now token c h
          split at h
          · rename_i hk
            rw [if_pos hk.1, h]
          · cases h }
    let argon : PasswordHasher := ⟨fun salt p => some (salt ++ p), fun p h => h = "salt" ++ p⟩
    let db : DB := ⟨⟨[⟨1001, 1001, "user", "saltpass"⟩], by simp⟩, Table.empty SameToken⟩
    let at10 : Time := ⟨10, by decide⟩
    let at86409 : Time := ⟨86409, by decide⟩
    ∃ e, verifyToken jwt (run argon jwt db ([.login "user" "pass" "id" at10 at10] ++
        .logout user :: [.clean at86409])) at86409 at86409 "token" = .error e := by
  intro claims user jwt argon db at10 at86409
  have hv : verifyToken jwt db at10 at10 "token" = .ok user := rfl
  have hclock : NonDecreasing ([.login "user" "pass" "id" at10 at10] ++
      .logout user :: [.clean at86409] ++ [.verify "token" at86409 at86409]) := by
    simp [NonDecreasing, Event.readings, at10, at86409]
  have hlogin : run argon jwt db [.login "user" "pass" "id" at10 at10] = db := by
    have hcheck : checkPassword argon db.users "user" "pass" =
        some ⟨1001, 1001, "user", "saltpass"⟩ := rfl
    exact congrArg Prod.snd (authenticateUser_ok at10 hcheck rfl)
  have hok : (insertRevokedToken (run argon jwt db [.login "user" "pass" "id" at10 at10])
      user).1 = .ok () := by
    rw [hlogin]
    rfl
  exact revocation_permanent [.login "user" "pass" "id" at10 at10] [.clean at86409] at86409
    at86409 hv hclock hok

end Revocation

end ServerTokens
