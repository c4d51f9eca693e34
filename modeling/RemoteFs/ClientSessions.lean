import RemoteFs.ServerSessions
import RemoteFs.Resending

/-! # The token a client holds

The client puts the token of its store into every request when it sends it, and changes the store
when an answer reaches it: a login stores a token, a logout clears the store. Requests and answers
are on their way in any number and any order, a request that is sent again is one more of them,
and both may be lost. Other clients use the same server. -/
namespace ClientSessions

open SqlTable
open ServerDatabase
open ServerUsers
open ServerTokens
open ServerSessions

structure Grant where
  users : Users
  username : String
  password : String
  user : User
  tokenId : String
  issued : Time
  token : String

def Grant.claims (g : Grant) : Claims := newClaims g.issued g.user.userId g.user.groupId g.tokenId

def Grant.identity (g : Grant) : AuthenticatedUser :=
  ⟨g.claims.userId, g.claims.groupId, g.claims.tokenId, g.claims.expiration⟩

theorem Grant.identity_expirationTime (g : Grant) :
    g.identity.expirationTime = g.claims.expiration := by
  simp only [Grant.identity]

def Grant.Proper (argon : PasswordHasher) (jwt : Jwt) (g : Grant) : Prop :=
  checkPassword argon g.users g.username g.password = some g.user ∧
    jwt.encode g.claims = some g.token

structure Request (ρ : Type) where
  number : ℕ
  header : Option String
  body : Body ρ

/-- `sent` counts the requests. `granted` and `ended` are histories: the logins of this client that
the server accepted, and the users whose logout it accepted, from whichever client. -/
structure State (σ ρ α ε : Type) where
  server : Server σ
  clock : ℕ
  store : Option String
  sent : ℕ
  requests : List (Request ρ)
  answers : List (Answer α ε)
  granted : List Grant
  ended : List AuthenticatedUser

inductive Event (ρ μ : Type) where
  | send (body : Body ρ)
  | arrive (i : ℕ) (m : Moment μ)
  | receive (i : ℕ)
  | loseRequest (i : ℕ)
  | loseAnswer (i : ℕ)
  | elsewhere (e : ServerTokens.Event) (now : Time)
  | administer (users : Users)

/-- The header of a request: none without a token, and no request where the token does not fit
into one. -/
def attach : Option String → Option (Option String)
  | none => some none
  | some token => (fromStr (authHeaderPrefix ++ token)).map some

def stored {α ε : Type} (store : Option String) : Answer α ε → Option String
  | .ok (.token token) => some token
  | .ok .loggedOut => none
  | _ => store

section System

variable {σ ρ μ α ε : Type}
variable (argon : PasswordHasher) (jwt : Jwt)
variable (handle : AuthenticatedUser → ρ → μ → σ → Except ε α × σ)

def grants (db : DB) (m : Moment μ) (answer : Answer α ε) : Body ρ → List Grant
  | .login username password =>
    match answer, checkPassword argon db.users username password with
    | .ok (.token token), some user =>
      [⟨db.users, username, password, user, m.tokenId, m.started, token⟩]
    | _, _ => []
  | _ => []

def ends (db : DB) (m : Moment μ) (header : Option String) (answer : Answer α ε) :
    Body ρ → List AuthenticatedUser
  | .logout =>
    match answer, authMiddleware (ε := ε) jwt db m.started m.read header with
    | .ok .loggedOut, .ok user => [user]
    | _, _ => []
  | _ => []

def endsElsewhere (db : DB) : ServerTokens.Event → List AuthenticatedUser
  | .logout user =>
    match (insertRevokedToken db user).1 with
    | .ok () => [user]
    | .error _ => []
  | _ => []

def Enabled (s : State σ ρ α ε) : Event ρ μ → Prop
  | .send _ => attach s.store ≠ none
  | .arrive i m =>
    i < s.requests.length ∧ s.clock ≤ m.started.secs ∧ m.started.secs ≤ m.read.secs
  | .receive i | .loseAnswer i => i < s.answers.length
  | .loseRequest i => i < s.requests.length
  | .elsewhere e now =>
    s.clock ≤ now.secs ∧ ∀ t ∈ e.readings, s.clock ≤ t.secs ∧ t.secs ≤ now.secs
  | .administer _ => True

def next (s : State σ ρ α ε) : Event ρ μ → State σ ρ α ε
  | .send body =>
    match attach s.store with
    | none => s
    | some header => { s with
        sent := s.sent + 1
        requests := s.requests ++ [⟨s.sent, header, body⟩] }
  | .arrive i m =>
    match s.requests[i]? with
    | none => s
    | some ⟨_, header, body⟩ =>
      let served := serve argon jwt handle header m s.server body
      { s with
        server := served.2
        clock := m.read.secs
        requests := s.requests.eraseIdx i
        answers := s.answers ++ [served.1]
        granted := s.granted ++ grants argon s.server.db m served.1 body
        ended := s.ended ++ ends jwt s.server.db m header served.1 body }
  | .receive i =>
    match s.answers[i]? with
    | none => s
    | some answer => { s with store := stored s.store answer, answers := s.answers.eraseIdx i }
  | .loseRequest i => { s with requests := s.requests.eraseIdx i }
  | .loseAnswer i => { s with answers := s.answers.eraseIdx i }
  | .elsewhere e now =>
    { s with
      server := { s.server with db := e.after argon jwt s.server.db }
      clock := now.secs
      ended := s.ended ++ endsElsewhere s.server.db e }
  | .administer users =>
    { s with server := { s.server with db := { s.server.db with users := users } } }

def Initial (s : State σ ρ α ε) : Prop :=
  s.store = none ∧ s.requests = [] ∧ s.answers = [] ∧ s.granted = [] ∧ s.ended = []

inductive Execution : State σ ρ α ε → State σ ρ α ε → Prop where
  | refl (s) : Execution s s
  | tail {s u e} : Execution s u → Enabled u e → Execution s (next argon jwt handle u e)

def Reachable (s : State σ ρ α ε) : Prop :=
  ∃ s₀, Initial s₀ ∧ Execution argon jwt handle s₀ s

def Quiet (s : State σ ρ α ε) (e : Event ρ μ) : Prop :=
  ∀ i token, e = .receive i → s.answers[i]? ≠ some (.ok (.token token))

inductive Waiting (s : State σ ρ α ε) : State σ ρ α ε → Prop where
  | refl : Waiting s s
  | tail {u e} : Waiting s u → Enabled u e → Quiet u e → Waiting s (next argon jwt handle u e)

def Given (granted : List Grant) (token : String) : Prop := ∃ g ∈ granted, g.token = token

def Finished (s : State σ ρ α ε) (user : AuthenticatedUser) : Prop :=
  Revoked s.server.db user ∨ user.expirationTime ≤ s.clock

structure Invariant (s : State σ ρ α ε) : Prop where
  stored : ∀ token, s.store = some token → Given s.granted token
  sent : ∀ r ∈ s.requests, ∀ header, r.header = some header →
    ∃ token, header = authHeaderPrefix ++ token ∧ Given s.granted token
  numbered : ∀ r ∈ s.requests, r.number < s.sent
  answered : ∀ token, .ok (.token token) ∈ s.answers → Given s.granted token
  proper : ∀ g ∈ s.granted, g.Proper argon jwt
  ended : ∀ user ∈ s.ended, Finished s user

/-- A session that is over: what the client has sent since, from a number on, carries its token or
none. -/
structure Over (number : ℕ) (token : String) (user : AuthenticatedUser) (s : State σ ρ α ε) :
    Prop where
  store : s.store = some token ∨ s.store = none
  later : number ≤ s.sent
  sent : ∀ r ∈ s.requests, number ≤ r.number →
    r.header = none ∨ r.header = some (authHeaderPrefix ++ token)
  finished : Finished s user

def refusal : Option String → String
  | none => "Missing Authorization Header"
  | some _ => "Invalid or expired token"

end System

section Steps

variable {σ ρ μ α ε : Type} {argon : PasswordHasher} {jwt : Jwt}
variable {handle : AuthenticatedUser → ρ → μ → σ → Except ε α × σ}
variable {s : State σ ρ α ε} {srv : Server σ} {m : Moment μ} {body : Body ρ}
variable {header : Option String} {user : AuthenticatedUser}

theorem authenticateUser_token {db : DB} {username password tokenId token : String}
    {issued cleaned : Time}
    (h : (authenticateUser argon jwt db username password tokenId issued cleaned).1 =
      .ok (some token)) :
    ∃ u, checkPassword argon db.users username password = some u ∧
      jwt.encode (newClaims issued u.userId u.groupId tokenId) = some token := by
  unfold authenticateUser at h
  split at h
  · cases h
  · rename_i u hu
    refine ⟨u, hu, ?_⟩
    unfold generateToken at h
    cases he : jwt.encode (newClaims issued u.userId u.groupId tokenId) with
    | none => simp [he] at h
    | some t => simpa [he, cleanRevokedToken] using h

theorem protect_token {next : AuthenticatedUser → Answer α ε × Server σ} {token : String}
    (hnext : ∀ user, (next user).1 ≠ .ok (.token token)) :
    (protect jwt srv header m next).1 ≠ .ok (.token token) := by
  unfold protect
  split
  · exact hnext _
  · simp

/-- Only a login is answered with a token, and a grant is its record. -/
theorem serve_token {token : String}
    (h : (serve argon jwt handle header m srv body).1 = .ok (.token token)) :
    ∃ g ∈ grants argon srv.db m (serve argon jwt handle header m srv body).1 body,
      g.token = token := by
  cases body with
  | login username password =>
    rw [h]
    simp only [serve, login] at h
    split at h
    · rename_i t db heq
      obtain ⟨u, hu, -⟩ := authenticateUser_token (congrArg Prod.fst heq)
      simp [grants, hu]
    · cases h
    · cases h
  | logout =>
    refine absurd h (protect_token fun user => ?_)
    unfold logout
    split <;> simp
  | call request =>
    refine absurd h (protect_token fun user => ?_)
    unfold ServerSessions.answered
    split <;> simp

theorem grants_proper {g : Grant}
    (h : g ∈ grants argon srv.db m (serve argon jwt handle header m srv body).1 body) :
    g.Proper argon jwt := by
  cases body with
  | login username password =>
    simp only [grants, serve, login] at h
    split at h
    · rename_i token user hanswer hcheck
      obtain rfl := List.mem_singleton.mp h
      refine ⟨hcheck, ?_⟩
      split at hanswer
      · rename_i t db heq
        obtain ⟨u, hu, he⟩ := authenticateUser_token (congrArg Prod.fst heq)
        obtain rfl := Option.some.inj (hu.symm.trans hcheck)
        simp only [Except.ok.injEq, Reply.token.injEq] at hanswer
        rw [← hanswer]
        exact he
      · cases hanswer
      · cases hanswer
    · cases h
  | logout => cases h
  | call request => cases h

/-- A request on the server keeps what logouts have left, up to what has expired. -/
theorem serve_keeps (h : Revoked srv.db user) :
    Revoked (serve argon jwt handle header m srv body).2.db user ∨
      user.expirationTime ≤ m.read.toI64 := by
  cases body with
  | login username password =>
    have hkeeps : Revoked (authenticateUser argon jwt srv.db username password m.tokenId
        m.started m.read).2 user ∨ user.expirationTime = m.read.toI64 :=
      authenticateUser_keeps username password m.tokenId m.started m.read h
    refine (hkeeps.imp_right Int.le_of_eq).imp_left fun hr => ?_
    simp only [serve, login]
    split <;> simp_all
  | logout =>
    left
    simp only [serve, protect]
    split
    · rename_i user' _
      have hkeeps := insertRevokedToken_keeps user' h
      simp only [logout]
      split <;> simp_all
    · exact h
  | call request =>
    left
    simp only [serve, protect]
    split
    · simp only [ServerSessions.answered]
      split <;> exact h
    · exact h

theorem ends_revoked
    (h : user ∈ ends jwt srv.db m header (serve argon jwt handle header m srv body).1 body) :
    Revoked (serve argon jwt handle header m srv body).2.db user := by
  cases body with
  | login username password => cases h
  | call request => cases h
  | logout =>
    simp only [ends] at h
    split at h
    · rename_i user' hanswer huser
      obtain rfl := List.mem_singleton.mp h
      simp only [serve, protect] at hanswer ⊢
      simp only [huser] at hanswer ⊢
      unfold logout at hanswer ⊢
      cases hins : insertRevokedToken srv.db user with
      | mk result db =>
        rw [hins] at hanswer
        cases result with
        | ok u =>
          have hrevoked := insertRevokedToken_ok (congrArg Prod.fst hins)
          rw [hins] at hrevoked
          exact hrevoked
        | error e => cases hanswer
    · cases h

theorem Given.append {granted more : List Grant} {token : String} (h : Given granted token) :
    Given (granted ++ more) token := by
  obtain ⟨g, hg, rfl⟩ := h
  exact ⟨g, List.mem_append_left _ hg, rfl⟩

theorem attach_eq_some {store : Option String} (h : attach store = some header) :
    (store = none ∧ header = none) ∨
      ∃ token, store = some token ∧ header = some (authHeaderPrefix ++ token) := by
  unfold attach at h
  split at h
  · exact .inl ⟨rfl, (Option.some.inj h).symm⟩
  · rename_i token
    refine .inr ⟨token, rfl, ?_⟩
    simp only [fromStr, Option.map_eq_some_iff] at h
    obtain ⟨text, htext, rfl⟩ := h
    split at htext
    · exact congrArg some (Option.some.inj htext).symm
    · cases htext

theorem stored_eq_some {store : Option String} {answer : Answer α ε} {token : String}
    (h : stored store answer = some token) : store = some token ∨ answer = .ok (.token token) := by
  unfold stored at h
  split at h
  · exact .inr (by rw [Option.some.inj h])
  · cases h
  · exact .inl h

theorem initial_invariant (h : Initial s) : Invariant argon jwt s := by
  obtain ⟨hstore, hrequests, hanswers, hgranted, hended⟩ := h
  constructor <;> simp [hstore, hrequests, hanswers, hgranted, hended]

theorem finished_next (h : Finished s user) {e : Event ρ μ} (he : Enabled s e) :
    Finished (next argon jwt handle s e) user := by
  cases e with
  | send body =>
    simp only [next]
    split <;> exact h
  | arrive i m =>
    obtain ⟨hi, hstarted, hread⟩ := he
    have hclock := Int.ofNat_le.mpr (Nat.le_trans hstarted hread)
    simp only [next, List.getElem?_eq_getElem hi]
    rcases h with hrevoked | hexpired
    · exact serve_keeps hrevoked
    · exact .inr (Int.le_trans hexpired hclock)
  | receive i =>
    simp only [next]
    split <;> exact h
  | loseRequest i => exact h
  | loseAnswer i => exact h
  | elsewhere e now =>
    rcases h with hrevoked | hexpired
    · refine (after_keeps argon jwt e hrevoked).imp_right ?_
      rintro ⟨t, ht, hle⟩
      exact Int.le_trans hle (Int.ofNat_le.mpr (he.2 t ht).2)
    · exact .inr (Int.le_trans hexpired (Int.ofNat_le.mpr he.1))
  | administer users => exact h

theorem endsElsewhere_revoked {db : DB} {e : ServerTokens.Event} (h : user ∈ endsElsewhere db e) :
    Revoked (e.after argon jwt db) user := by
  cases e with
  | logout user' =>
    simp only [endsElsewhere] at h
    split at h
    · rename_i hok
      obtain rfl := List.mem_singleton.mp h
      exact insertRevokedToken_ok hok
    · cases h
  | _ => cases h

theorem arrive_invariant (h : Invariant argon jwt s) {i n : ℕ} (he : Enabled s (.arrive i m))
    (hreq : s.requests[i]? = some ⟨n, header, body⟩) :
    Invariant argon jwt (next argon jwt handle s (.arrive i m)) := by
  have hfinished : ∀ user ∈ s.ended, Finished (next argon jwt handle s (.arrive i m)) user :=
    fun user huser => finished_next (h.ended user huser) he
  simp only [next, hreq] at hfinished ⊢
  constructor
  · intro token htoken
    exact (h.stored token htoken).append
  · intro r hr text hheader
    obtain ⟨token, htext, hgiven⟩ := h.sent r (List.mem_of_mem_eraseIdx hr) text hheader
    exact ⟨token, htext, hgiven.append⟩
  · exact fun r hr => h.numbered r (List.mem_of_mem_eraseIdx hr)
  · intro token hmem
    rcases List.mem_append.mp hmem with hmem | hmem
    · exact (h.answered token hmem).append
    · obtain ⟨g, hg, htoken⟩ := serve_token (List.mem_singleton.mp hmem).symm
      exact ⟨g, List.mem_append_right _ hg, htoken⟩
  · intro g hg
    rcases List.mem_append.mp hg with hg | hg
    · exact h.proper g hg
    · exact grants_proper hg
  · intro user huser
    rcases List.mem_append.mp huser with huser | huser
    · exact hfinished user huser
    · exact .inl (ends_revoked huser)

theorem step_preserves_invariant (h : Invariant argon jwt s) {e : Event ρ μ}
    (he : Enabled s e) : Invariant argon jwt (next argon jwt handle s e) := by
  cases e with
  | send body =>
    obtain ⟨header, hheader⟩ := Option.ne_none_iff_exists'.mp he
    simp only [next, hheader]
    refine ⟨h.stored, fun r hr text htext => ?_, fun r hr => ?_, h.answered, h.proper, h.ended⟩
    · rcases List.mem_append.mp hr with hr | hr
      · exact h.sent r hr text htext
      · obtain rfl := List.mem_singleton.mp hr
        rcases attach_eq_some hheader with ⟨-, hnone⟩ | ⟨token, hstore, htoken⟩
        · cases hnone.symm.trans htext
        · obtain rfl := Option.some.inj (htoken.symm.trans htext)
          exact ⟨token, rfl, h.stored token hstore⟩
    · rcases List.mem_append.mp hr with hr | hr
      · exact Nat.lt_succ_of_lt (h.numbered r hr)
      · obtain rfl := List.mem_singleton.mp hr
        exact Nat.lt_succ_self s.sent
  | arrive i m =>
    exact arrive_invariant h he (List.getElem?_eq_getElem he.1)
  | receive i =>
    have hi : s.answers[i]? = some _ := List.getElem?_eq_getElem he
    simp only [next, hi]
    refine ⟨?_, h.sent, h.numbered, ?_, h.proper, h.ended⟩
    · intro token htoken
      rcases stored_eq_some htoken with hstore | hanswer
      · exact h.stored token hstore
      · exact h.answered token (hanswer ▸ List.getElem_mem he)
    · intro token hmem
      exact h.answered token (List.mem_of_mem_eraseIdx hmem)
  | loseRequest i =>
    exact ⟨h.stored, fun r hr => h.sent r (List.mem_of_mem_eraseIdx hr),
      fun r hr => h.numbered r (List.mem_of_mem_eraseIdx hr), h.answered, h.proper, h.ended⟩
  | loseAnswer i =>
    refine ⟨h.stored, h.sent, h.numbered, ?_, h.proper, h.ended⟩
    intro token hmem
    exact h.answered token (List.mem_of_mem_eraseIdx hmem)
  | elsewhere e now =>
    refine ⟨h.stored, h.sent, h.numbered, h.answered, h.proper, ?_⟩
    intro user huser
    rcases List.mem_append.mp huser with huser | huser
    · exact finished_next (h.ended user huser) he
    · exact .inl (endsElsewhere_revoked huser)
  | administer users =>
    exact ⟨h.stored, h.sent, h.numbered, h.answered, h.proper, h.ended⟩

theorem reachable_invariant (h : Reachable argon jwt handle s) : Invariant argon jwt s := by
  obtain ⟨s₀, hinit, hexec⟩ := h
  induction hexec with
  | refl => exact initial_invariant hinit
  | tail hexec he ih => exact step_preserves_invariant ih he

theorem expiration_le (issued : Time) (userId groupId : UInt32) (tokenId : String) :
    (newClaims issued userId groupId tokenId).expiration ≤ issued.secs + 24 * 60 * 60 := by
  unfold newClaims Claims.expiration
  split
  · rw [BitVec.toInt_eq_toNat_cond]
    simp only [UInt64.toNat_toBitVec, UInt64.toNat_ofNat']
    have hle := Nat.mod_le (issued.secs + 24 * 60 * 60) (2 ^ 64)
    split <;> omega
  · simp only [UInt64.toBitVec_zero, BitVec.toInt_zero]
    omega

/-- Whoever a request of the client is served as, the client has logged in as that user with the
right password, less than a day ago, and the server has accepted no logout of that session. -/
theorem served_as_logged_in (h : Reachable argon jwt handle s)
    (hjwt : ∀ claims token, jwt.encode claims = some token → jwt.signed token = some claims)
    {i n : ℕ} (he : Enabled s (.arrive i m)) (hreq : s.requests[i]? = some ⟨n, header, body⟩)
    (hserved : authMiddleware (ε := ε) jwt s.server.db m.started m.read header = .ok user) :
    ∃ g ∈ s.granted, g.Proper argon jwt ∧ user = g.identity ∧
      m.read.secs < g.issued.secs + 24 * 60 * 60 ∧ user ∉ s.ended := by
  have hinv := reachable_invariant h
  obtain ⟨token, rfl, -, hverify⟩ := authMiddleware_ok hserved
  obtain ⟨token', htoken, g, hg, rfl⟩ := hinv.sent _ (List.mem_of_getElem? hreq) _ rfl
  have hproper := hinv.proper g hg
  have hsigned := hjwt _ _ hproper.2
  obtain ⟨claims, hclaims, huser⟩ := authMiddleware_signed (htoken ▸ hserved)
  obtain rfl := Option.some.inj (hsigned.symm.trans hclaims)
  obtain rfl : user = g.identity := huser
  have hstrip := congrArg (stripPrefix authHeaderPrefix) htoken
  rw [stripPrefix_append, stripPrefix_append] at hstrip
  obtain rfl := Option.some.inj hstrip
  have hvalid : ¬(Revoked s.server.db g.identity ∨ g.claims.expiration ≤ m.read.toI64) := by
    intro hbad
    obtain ⟨e, herror⟩ := verifyToken_refused hclaims hbad
    rw [herror] at hverify
    cases hverify
  rw [not_or] at hvalid
  refine ⟨g, hg, hproper, rfl, ?_, ?_⟩
  · have hexp := expiration_le g.issued g.user.userId g.user.groupId g.tokenId
    have hlt := Int.not_le.mp hvalid.2
    unfold Time.toI64 Grant.claims at hlt
    omega
  · intro hended
    rcases hinv.ended _ hended with hrevoked | hexpired
    · exact hvalid.1 hrevoked
    · have hlt := Int.not_le.mp hvalid.2
      rw [Grant.identity_expirationTime] at hexpired
      have hclock := Nat.le_trans he.2.1 he.2.2
      unfold Time.toI64 at hlt
      omega

theorem over_next {number : ℕ} {token : String} (h : Over number token user s) {e : Event ρ μ}
    (he : Enabled s e) (hq : Quiet s e) : Over number token user (next argon jwt handle s e) := by
  refine ⟨?_, ?_, ?_, finished_next h.finished he⟩
  · cases e with
    | send body =>
      simp only [next]
      split <;> exact h.store
    | arrive i m =>
      simp only [next]
      split <;> exact h.store
    | receive i =>
      have hi : s.answers[i]? = some _ := List.getElem?_eq_getElem he
      simp only [next, hi]
      cases hstored : stored s.store s.answers[i] with
      | none => exact .inr rfl
      | some token' =>
        rcases stored_eq_some hstored with hstore | hanswer
        · exact hstore ▸ h.store
        · exact absurd (hi.trans (congrArg some hanswer)) (hq i token' rfl)
    | _ => exact h.store
  · cases e with
    | send body =>
      obtain ⟨header, hheader⟩ := Option.ne_none_iff_exists'.mp he
      simp only [next, hheader]
      exact Nat.le_succ_of_le h.later
    | arrive i m =>
      simp only [next]
      split <;> exact h.later
    | receive i =>
      simp only [next]
      split <;> exact h.later
    | _ => exact h.later
  · intro r hr hnumber
    cases e with
    | send body =>
      obtain ⟨header, hheader⟩ := Option.ne_none_iff_exists'.mp he
      simp only [next, hheader] at hr
      rcases List.mem_append.mp hr with hr | hr
      · exact h.sent r hr hnumber
      · obtain rfl := List.mem_singleton.mp hr
        rcases attach_eq_some hheader with ⟨-, hnone⟩ | ⟨token', hstore, htoken⟩
        · exact .inl hnone
        · rcases h.store with hkept | hcleared
          · obtain rfl := Option.some.inj (hstore.symm.trans hkept)
            exact .inr htoken
          · rw [hcleared] at hstore
            cases hstore
    | arrive i m =>
      simp only [next] at hr
      split at hr
      · exact h.sent r hr hnumber
      · exact h.sent r (List.mem_of_mem_eraseIdx hr) hnumber
    | receive i =>
      simp only [next] at hr
      split at hr <;> exact h.sent r hr hnumber
    | loseRequest i => exact h.sent r (List.mem_of_mem_eraseIdx hr) hnumber
    | _ => exact h.sent r hr hnumber

theorem over_waiting {number : ℕ} {token : String} {s' : State σ ρ α ε}
    (h : Over number token user s) (hw : Waiting argon jwt handle s s') :
    Over number token user s' := by
  induction hw with
  | refl => exact h
  | tail hw he hq ih => exact over_next ih he hq

theorem protect_refused {e : ApiError ε} {next : AuthenticatedUser → Answer α ε × Server σ}
    (he : authMiddleware jwt srv.db m.started m.read header = .error e) :
    protect jwt srv header m next = (.error e, srv) := by
  simp only [protect, he]

theorem serve_refused {e : ApiError ε}
    (hbody : ∀ username password, body ≠ .login username password)
    (he : authMiddleware jwt srv.db m.started m.read header = .error e) :
    serve argon jwt handle header m srv body = (.error e, srv) := by
  cases body with
  | login username password => exact absurd rfl (hbody username password)
  | logout => exact protect_refused he
  | call request => exact protect_refused he

def claimsExample : Claims := ⟨1001, 1001, "id", 86410⟩

def jwtExample : Jwt where
  encode claims := if claims = claimsExample then some "token" else none
  decode now token := if token = "token" ∧ now.secs < 86410 then some claimsExample else none
  signed token := if token = "token" then some claimsExample else none
  decode_signed := by
    intro now token claims h
    split at h
    · rename_i hk
      rw [if_pos hk.1, h]
    · cases h

def argonExample : PasswordHasher := ⟨fun _ p => some p, fun p h => p = h⟩

def handleExample (user : AuthenticatedUser) (request : String) (_ : Unit)
    (log : List (UInt32 × String)) : Except Unit Unit × List (UInt32 × String) :=
  (.ok (), log ++ [(user.userId, request)])

theorem one_user :
    [(⟨1001, 1001, "user", "secret"⟩ : User)].Pairwise fun a b => ¬Clash a b :=
  List.pairwise_singleton _ _

def startExample : State (List (UInt32 × String)) String Unit Unit where
  server := ⟨⟨⟨[⟨1001, 1001, "user", "secret"⟩], one_user⟩, Table.empty SameToken⟩, []⟩
  clock := 0
  store := none
  sent := 0
  requests := []
  answers := []
  granted := []
  ended := []

def momentExample (secs : ℕ) (h : secs < 2 ^ 63) : Moment Unit := ⟨⟨secs, h⟩, ⟨secs, h⟩, "id", ()⟩

def nextExample := next argonExample jwtExample handleExample

def calledExample (request : Body String) : State (List (UInt32 × String)) String Unit Unit :=
  nextExample (nextExample (nextExample (nextExample startExample
    (.send (.login "user" "secret"))) (.arrive 0 (momentExample 10 (by decide)))) (.receive 0))
    (.send request)

theorem reachable_called (request : Body String) :
    Reachable argonExample jwtExample handleExample (calledExample request) := by
  refine ⟨startExample, ⟨rfl, rfl, rfl, rfl, rfl⟩, ?_⟩
  unfold calledExample nextExample
  refine .tail (.tail (.tail (.tail (.refl _) ?_) ?_) ?_) ?_
  · exact nofun
  · exact ⟨Nat.zero_lt_one, Nat.zero_le _, Nat.le_refl _⟩
  · exact Nat.zero_lt_one
  · exact nofun

theorem served_as_logged_in_call :
    ∃ g ∈ (calledExample (.call "read")).granted, g.Proper argonExample jwtExample ∧
      (⟨1001, 1001, "id", 86410⟩ : AuthenticatedUser) = g.identity ∧
      20 < g.issued.secs + 24 * 60 * 60 ∧
      ⟨1001, 1001, "id", 86410⟩ ∉ (calledExample (.call "read")).ended :=
  served_as_logged_in (m := momentExample 20 (by decide)) (reachable_called (.call "read"))
    (by
      intro claims token h
      simp only [jwtExample] at h ⊢
      split at h
      · rename_i hc
        rw [hc, ← Option.some.inj h, if_pos rfl]
      · cases h)
    ⟨Nat.zero_lt_one, by decide, Nat.le_refl _⟩ rfl rfl

/-- The answer to a logout may be lost. From when the server has accepted it, and the client still
has the token that it came with, everything that the client sends before it takes the answer of
another login is refused and changes nothing. -/
theorem ended_session_refused (h : Reachable argon jwt handle s) {token : String} {i n : ℕ}
    (hreq : s.requests[i]? = some ⟨n, some (authHeaderPrefix ++ token), .logout⟩)
    (hstore : s.store = some token)
    (haccepted : (serve argon jwt handle (some (authHeaderPrefix ++ token)) m s.server .logout).1 =
      .ok .loggedOut) {s' : State σ ρ α ε}
    (hw : Waiting argon jwt handle (next argon jwt handle s (.arrive i m)) s') :
    ∀ r ∈ s'.requests, s.sent ≤ r.number → ∀ m' : Moment μ, s'.clock ≤ m'.read.secs →
      (∀ username password, r.body ≠ .login username password) →
        serve argon jwt handle r.header m' s'.server r.body =
          (.error (.unauthorized (refusal r.header)), s'.server) := by
  have hmiddle : ∃ user, authMiddleware (ε := ε) jwt s.server.db m.started m.read
      (some (authHeaderPrefix ++ token)) = .ok user := by
    simp only [serve, protect] at haccepted
    split at haccepted
    · exact ⟨_, by assumption⟩
    · cases haccepted
  obtain ⟨user, huser⟩ := hmiddle
  obtain ⟨claims, hsigned, hclaims⟩ := authMiddleware_signed huser
  obtain ⟨token', heq, htext, -⟩ := authMiddleware_ok huser
  rw [← Option.some.inj heq] at htext
  have hend : user ∈ ends jwt s.server.db m (some (authHeaderPrefix ++ token))
      (serve argon jwt handle (some (authHeaderPrefix ++ token)) m s.server .logout).1
      (.logout : Body ρ) := by
    simp only [ends, haccepted, huser, List.mem_singleton]
  have hover : Over s.sent token user (next argon jwt handle s (.arrive i m)) := by
    simp only [next, hreq]
    refine ⟨.inl hstore, Nat.le_refl s.sent, fun r hr hnumber => ?_, .inl (ends_revoked hend)⟩
    have hearlier := (reachable_invariant h).numbered r (List.mem_of_mem_eraseIdx hr)
    exact absurd hnumber (Nat.not_le.mpr hearlier)
  have hlast := over_waiting hover hw
  intro r hr hnumber m' hclock hbody
  refine serve_refused hbody ?_
  rcases hlast.sent r hr hnumber with hnone | htoken
  · rw [hnone]
    rfl
  · rw [htoken]
    have hbad : Revoked s'.server.db user ∨ user.expirationTime ≤ m'.read.toI64 :=
      hlast.finished.imp_right fun hle => Int.le_trans hle (Int.ofNat_le.mpr hclock)
    rw [hclaims] at hbad
    obtain ⟨e, herror⟩ := verifyToken_refused hsigned hbad
    exact authMiddleware_refused htext herror

def endedExample : State (List (UInt32 × String)) String Unit Unit :=
  nextExample (nextExample (nextExample (calledExample .logout)
    (.arrive 0 (momentExample 20 (by decide)))) (.loseAnswer 0)) (.send (.call "read"))

theorem ended_session_refused_lost :
    serve argonExample jwtExample handleExample (some "Bearer token")
        (momentExample 30 (by decide)) endedExample.server (.call "read") =
      (.error (.unauthorized "Invalid or expired token"), endedExample.server) := by
  have hsent : (⟨2, some "Bearer token", .call "read"⟩ : Request String) ∈
      endedExample.requests := List.mem_singleton.mpr rfl
  have hwaiting : Waiting argonExample jwtExample handleExample (nextExample
      (calledExample .logout) (.arrive 0 (momentExample 20 (by decide)))) endedExample := by
    unfold endedExample nextExample
    refine .tail (.tail .refl ?_ ?_) ?_ ?_
    · exact Nat.zero_lt_one
    · exact nofun
    · exact nofun
    · exact nofun
  exact ended_session_refused (i := 0) (n := 1) (reachable_called .logout) rfl rfl rfl hwaiting _
    hsent (by decide) (momentExample 30 (by decide)) (by decide) nofun

end Steps

section Logout

open Resending

variable {σ ρ μ α ε : Type} {argon : PasswordHasher} {jwt : Jwt}
variable {handle : AuthenticatedUser → ρ → μ → σ → Except ε α × σ} {transient : ε → Bool}
variable {s : Server σ} {m : Moment μ} {header : Option String} {user : AuthenticatedUser}

def retried (transient : ε → Bool) : ApiError ε → Bool
  | .unauthorized _ | .invalidInput _ => false
  | .internalError _ => true
  | .handler e => transient e

def logouts (argon : PasswordHasher) (jwt : Jwt)
    (handle : AuthenticatedUser → ρ → μ → σ → Except ε α × σ) (header : Option String)
    (m : Moment μ) (s : Server σ) : Answer α ε × Server σ :=
  serve argon jwt handle header m s .logout

theorem logout_accepted
    (h : authMiddleware (ε := ε) jwt s.db m.started m.read header = .ok user) :
    ∃ s', logouts argon jwt handle header m s = (.ok .loggedOut, s') ∧ Revoked s'.db user := by
  obtain ⟨token, -, -, hverify⟩ := authMiddleware_ok h
  have hok := insertRevokedToken_fresh (verifyToken_unrevoked hverify)
  refine ⟨{ s with db := (insertRevokedToken s.db user).2 }, ?_, insertRevokedToken_ok hok⟩
  have hpair : insertRevokedToken s.db user = (.ok (), (insertRevokedToken s.db user).2) :=
    Prod.ext hok rfl
  simp only [logouts, serve, protect, h, logout]
  rw [hpair]

/-- A revoked token is refused at any time. -/
theorem logout_refused {token : String} {claims : Claims} (hsigned : jwt.signed token = some claims)
    (htext : toStr (authHeaderPrefix ++ token) = some (authHeaderPrefix ++ token))
    (h : Revoked s.db ⟨claims.userId, claims.groupId, claims.tokenId, claims.expiration⟩)
    (m : Moment μ) :
    logouts argon jwt handle (some (authHeaderPrefix ++ token)) m s =
      (.error (.unauthorized "Invalid or expired token"), s) := by
  obtain ⟨e, he⟩ : ∃ e, verifyToken jwt s.db m.started m.read token = .error e :=
    verifyToken_refused hsigned (.inl h)
  exact protect_refused (authMiddleware_refused htext he)

variable (argon handle transient) in
theorem logouts_again {token : String} {claims : Claims} (hsigned : jwt.signed token = some claims)
    (htext : toStr (authHeaderPrefix ++ token) = some (authHeaderPrefix ++ token))
    (h : Revoked s.db ⟨claims.userId, claims.groupId, claims.tokenId, claims.expiration⟩)
    (attempts : List (Fate × Moment μ)) :
    let sent := send (logouts argon jwt handle (some (authHeaderPrefix ++ token)))
      (retried transient) attempts s
    sent.state = s ∧ ∀ a, sent.answer = some a ↔
      a = .error (.unauthorized "Invalid or expired token") ∧ Heard attempts :=
  send_refusedWith (logout_refused hsigned htext h) rfl

def firstCopy (attempts : List (Fate × Moment μ)) : Option (Fate × Moment μ) :=
  attempts.find? fun a => a.1 ≠ .requestLost

/-- A logout whose token is good when its first copy arrives. The client hears of its success if
that copy is answered. Where that answer is lost and a later one comes, the client is told of an
error, and the session is over all the same. -/
theorem logout_outcome (attempts : List (Fate × Moment μ))
    (hgood : ∀ a ∈ firstCopy attempts,
      authMiddleware (ε := ε) jwt s.db a.2.started a.2.read header = .ok user) :
    let sent := send (logouts argon jwt handle header) (retried transient) attempts s
    (sent.answer = some (.ok .loggedOut) ↔ ∃ rest, arriving attempts = .answered :: rest) ∧
      (sent.answer = some (.error (.unauthorized "Invalid or expired token")) ↔
        Ambiguous attempts) ∧
      (sent.answer = none ↔ ¬Heard attempts) ∧
      (arriving attempts = [] ∧ sent.state = s ∨
        arriving attempts ≠ [] ∧ Revoked sent.state.db user) := by
  induction attempts with
  | nil => simp [send, arriving, Ambiguous, Heard]
  | cons attempt rest ih =>
    obtain ⟨fate, m⟩ := attempt
    have hlogout : authMiddleware (ε := ε) jwt s.db m.started m.read header = .ok user →
        ∃ s', logouts argon jwt handle header m s = (.ok .loggedOut, s') ∧ Revoked s'.db user :=
      logout_accepted
    cases fate with
    | requestLost => exact ih hgood
    | responseLost =>
      have hfirst := hgood (.responseLost, m) rfl
      obtain ⟨s', hrun, hrevoked⟩ := hlogout hfirst
      obtain ⟨token, rfl, htext, -⟩ := authMiddleware_ok hfirst
      obtain ⟨claims, hsigned, rfl⟩ := authMiddleware_signed hfirst
      obtain ⟨hstate, hanswer⟩ := logouts_again argon handle transient hsigned htext hrevoked rest
      have harriving : arriving ((.responseLost, m) :: rest) = .responseLost :: arriving rest := rfl
      simp only [send, hrun, Sent.after, harriving, ambiguous_cons_responseLost,
        heard_cons_responseLost, hstate]
      refine ⟨?_, ?_, ?_, .inr ⟨List.cons_ne_nil _ _, hrevoked⟩⟩
      · simp [hanswer]
      · simp [hanswer]
      · rw [Option.eq_none_iff_forall_ne_some]
        simp [hanswer]
    | answered =>
      obtain ⟨s', hrun, hrevoked⟩ := hlogout (hgood (.answered, m) rfl)
      have harriving : arriving ((.answered, m) :: rest) = .answered :: arriving rest := rfl
      simp only [send, hrun, harriving, not_ambiguous_answered, heard_cons_answered]
      exact ⟨by simp, by simp, by simp, .inr ⟨List.cons_ne_nil _ _, hrevoked⟩⟩

theorem logout_outcome_lost :
    let s := (calledExample .logout).server
    let attempts := [(Fate.responseLost, momentExample 20 (by decide)),
      (Fate.answered, momentExample 21 (by decide))]
    let sent := send (logouts (ρ := String) argonExample jwtExample handleExample
      (some "Bearer token")) (retried fun _ => false) attempts s
    (sent.answer = some (.ok .loggedOut) ↔ ∃ rest, arriving attempts = .answered :: rest) ∧
      (sent.answer = some (.error (.unauthorized "Invalid or expired token")) ↔
        Ambiguous attempts) ∧
      (sent.answer = none ↔ ¬Heard attempts) ∧
      (arriving attempts = [] ∧ sent.state = s ∨
        arriving attempts ≠ [] ∧ Revoked sent.state.db ⟨1001, 1001, "id", 86410⟩) := by
  intro s attempts
  refine logout_outcome attempts fun a ha => ?_
  obtain rfl := Option.some.inj ha
  rfl

end Logout

end ClientSessions
