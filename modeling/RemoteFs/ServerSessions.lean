import RemoteFs.ServerTokens

/-! # The routes behind the token

A login is answered with a token. Every other request carries it in a header; the middleware
finds the user it was made for, and the handler runs as that user. -/
namespace ServerSessions

open SqlTable
open ServerDatabase
open ServerUsers
open ServerTokens

/-- `HeaderValue::from_str`: the bytes of a character are visible or above 127, or a tab. -/
def isValid (c : Char) : Bool := decide (32 ≤ c.toNat ∧ c.toNat ≠ 127) || c == '\t'

def isVisibleAscii (c : Char) : Bool := decide (32 ≤ c.toNat ∧ c.toNat < 127) || c == '\t'

def fromStr (s : String) : Option String := if s.toList.all isValid then some s else none

def toStr (header : String) : Option String :=
  if header.toList.all isVisibleAscii then some header else none

def authHeaderPrefix : String := "Bearer "

def stripPrefix (p s : String) : Option String :=
  if p.toList <+: s.toList then some (.ofList (s.toList.drop p.toList.length)) else none

theorem stripPrefix_append (p s : String) : stripPrefix p (p ++ s) = some s := by
  simp [stripPrefix, String.toList_append]

theorem stripPrefix_eq_some {p s t : String} (h : stripPrefix p s = some t) : s = p ++ t := by
  unfold stripPrefix at h
  split at h
  · rename_i hp
    obtain ⟨rest, hrest⟩ := hp
    obtain rfl := Option.some.inj h
    apply String.toList_injective
    simp [String.toList_append, ← hrest]
  · cases h

/-- The errors of the routes; those of a handler are its own. -/
inductive ApiError (ε : Type) where
  | unauthorized (message : String)
  | invalidInput (message : String)
  | internalError (e : DatabaseError)
  | handler (e : ε)
  deriving DecidableEq, Repr

/-- What a request reads of the world: the clock twice, a fresh id where it needs one, and what
its handler reads. -/
structure Moment (μ : Type) where
  started : Time
  read : Time
  tokenId : String
  inner : μ

structure Server (σ : Type) where
  db : DB
  files : σ

inductive Body (ρ : Type) where
  | login (username password : String)
  | logout
  | call (request : ρ)
  deriving DecidableEq, Repr

inductive Reply (α : Type) where
  | token (token : String)
  | loggedOut
  | done (a : α)
  deriving DecidableEq, Repr

abbrev Answer (α ε : Type) := Except (ApiError ε) (Reply α)

section Routes

variable {σ ρ μ α ε : Type}
variable (argon : PasswordHasher) (jwt : Jwt)
variable (handle : AuthenticatedUser → ρ → μ → σ → Except ε α × σ)

def authMiddleware (db : DB) (started read : Time) (header : Option String) :
    Except (ApiError ε) AuthenticatedUser :=
  match header with
  | none => .error (.unauthorized "Missing Authorization Header")
  | some header =>
    match toStr header with
    | none => .error (.invalidInput "Invalid Header")
    | some header =>
      match stripPrefix authHeaderPrefix header with
      | none => .error (.unauthorized "Invalid Token Format")
      | some token =>
        match verifyToken jwt db started read token with
        | .ok user => .ok user
        | .error _ => .error (.unauthorized "Invalid or expired token")

def login (s : Server σ) (username password : String) (m : Moment μ) :
    Answer α ε × Server σ :=
  match authenticateUser argon jwt s.db username password m.tokenId m.started m.read with
  | (.ok (some token), db) => (.ok (.token token), { s with db := db })
  | (.ok none, db) => (.error (.unauthorized "Invalid username or password"), { s with db := db })
  | (.error e, db) => (.error (.internalError e), { s with db := db })

def logout (s : Server σ) (user : AuthenticatedUser) : Answer α ε × Server σ :=
  match insertRevokedToken s.db user with
  | (.ok (), db) => (.ok .loggedOut, { s with db := db })
  | (.error e, db) => (.error (.internalError e), { s with db := db })

def protect (s : Server σ) (header : Option String) (m : Moment μ)
    (next : AuthenticatedUser → Answer α ε × Server σ) : Answer α ε × Server σ :=
  match authMiddleware jwt s.db m.started m.read header with
  | .ok user => next user
  | .error e => (.error e, s)

def answered (s : Server σ) : Except ε α × σ → Answer α ε × Server σ
  | (.ok a, files) => (.ok (.done a), { s with files := files })
  | (.error e, files) => (.error (.handler e), { s with files := files })

def serve (header : Option String) (m : Moment μ) (s : Server σ) :
    Body ρ → Answer α ε × Server σ
  | .login username password => login argon jwt s username password m
  | .logout => protect jwt s header m fun user => logout s user
  | .call request => protect jwt s header m fun user =>
      answered s (handle user request m.inner s.files)

end Routes

section Middleware

variable {σ ρ μ α ε : Type} {argon : PasswordHasher} {jwt : Jwt}
variable {handle : AuthenticatedUser → ρ → μ → σ → Except ε α × σ}
variable {db : DB} {s : Server σ} {user : AuthenticatedUser} {m : Moment μ} {body : Body ρ}
variable {started read : Time} {header : Option String}

theorem authMiddleware_ok
    (h : authMiddleware (ε := ε) jwt db started read header = .ok user) :
    ∃ token, header = some (authHeaderPrefix ++ token) ∧
      toStr (authHeaderPrefix ++ token) = some (authHeaderPrefix ++ token) ∧
      verifyToken jwt db started read token = .ok user := by
  unfold authMiddleware at h
  split at h
  · cases h
  · rename_i header
    split at h
    · cases h
    · rename_i text htext
      obtain rfl : header = text := by
        unfold toStr at htext
        split at htext
        · exact Option.some.inj htext
        · cases htext
      split at h
      · cases h
      · rename_i token htoken
        obtain rfl := stripPrefix_eq_some htoken
        refine ⟨token, rfl, htext, ?_⟩
        split at h
        · rename_i user' huser
          injection h with h
          rw [huser, h]
        · cases h

theorem verifyToken_unrevoked {token : String}
    (h : verifyToken jwt db started read token = .ok user) :
    isTokenRevoked db user.userId user.tokenId = .ok false := by
  unfold verifyToken at h
  split at h
  · cases h
  · split at h
    · cases h
    · split at h
      · cases h
      · cases h
      · rename_i hfresh
        injection h with h
        rw [← h]
        exact hfresh

theorem insertRevokedToken_fresh (h : isTokenRevoked db user.userId user.tokenId = .ok false) :
    (insertRevokedToken db user).1 = .ok () := by
  have hle : db.revokedTokens.count (withId user.userId user.tokenId) ≤ 1 :=
    Table.count_le_one withId_same
  have hzero : db.revokedTokens.count (withId user.userId user.tokenId) = 0 := by
    unfold isTokenRevoked at h
    rw [decodeU32_le_one hle] at h
    simp only [Except.ok.injEq, decide_eq_false_iff_not] at h
    omega
  have hno : ∀ r ∈ db.revokedTokens.rows,
      ¬SameToken r ⟨user.userId, user.tokenId, user.expirationTime⟩ := by
    intro r hr hsame
    have hfalse := Table.count_eq_zero.mp hzero r hr
    exact of_decide_eq_false hfalse hsame
  obtain ⟨t, ht, -⟩ := Table.insert_ok hno
  simp only [insertRevokedToken, ht, execute]

theorem authMiddleware_refused {token : String} {e : DatabaseError}
    (htext : toStr (authHeaderPrefix ++ token) = some (authHeaderPrefix ++ token))
    (he : verifyToken jwt db started read token = .error e) :
    authMiddleware (ε := ε) jwt db started read (some (authHeaderPrefix ++ token)) =
      .error (.unauthorized "Invalid or expired token") := by
  simp [authMiddleware, htext, stripPrefix_append, he]

theorem authMiddleware_signed {token : String}
    (h : authMiddleware (ε := ε) jwt db started read (some (authHeaderPrefix ++ token)) =
      .ok user) :
    ∃ claims, jwt.signed token = some claims ∧
      user = ⟨claims.userId, claims.groupId, claims.tokenId, claims.expiration⟩ := by
  obtain ⟨token', heq, -, hverify⟩ := authMiddleware_ok h
  have hstrip := congrArg (stripPrefix authHeaderPrefix) (Option.some.inj heq)
  rw [stripPrefix_append, stripPrefix_append] at hstrip
  obtain rfl := Option.some.inj hstrip
  exact verifyToken_ok hverify

end Middleware

end ServerSessions
