import RemoteFs.ServerTokens

/-! # What stands in the table of revoked tokens

A row stands until a cleaning in the very second in which its token expires. -/
namespace ServerRevocation

open SqlTable
open ServerDatabase
open ServerUsers
open ServerTokens

variable (argon : PasswordHasher) (jwt : Jwt) (db : DB)

/-- The time of a successful login, at which it has cleaned the table. -/
def signIn (db : DB) : Event → Option Time
  | .login username password tokenId issued cleaned =>
    match (authenticateUser argon jwt db username password tokenId issued cleaned).1 with
    | .ok (some _) => some cleaned
    | _ => none
  | _ => none

def cleaning (db : DB) : Event → Option Time
  | .clean now => some now
  | e => signIn argon jwt db e

def CleansAt (e : Event) (expiration : ℤ) : Prop :=
  ∃ now, cleaning argon jwt db e = some now ∧ expiration = now.toI64

/-- The row is in the table, or is inserted by a logout; `after` is what happens from then on. -/
def Recorded (events : List Event) (r : RevokedToken) (after : List Event) : Prop :=
  r ∈ db.revokedTokens.rows ∧ after = events ∨
    ∃ before user, events = before ++ .logout user :: after ∧
      (insertRevokedToken (run argon jwt db before) user).1 = .ok () ∧ r = user.row

section Rows

variable {argon : PasswordHasher} {jwt : Jwt} {db db' : DB} {events : List Event} {e : Event}
  {r : RevokedToken} {t : Time}

theorem insertRevokedToken_rows {user : AuthenticatedUser} :
    r ∈ (insertRevokedToken db user).2.revokedTokens.rows ↔ r ∈ db.revokedTokens.rows ∨
      (insertRevokedToken db user).1 = .ok () ∧ r = user.row := by
  unfold insertRevokedToken execute
  cases ht : db.revokedTokens.insert ⟨user.userId, user.tokenId, user.expirationTime⟩ with
  | none => simp
  | some t' => simp [Table.insert_eq_some.mp ht, AuthenticatedUser.row]

theorem cleanRevokedToken_rows (now : Time) :
    r ∈ (cleanRevokedToken db now).2.revokedTokens.rows ↔
      r ∈ db.revokedTokens.rows ∧ r.expirationTime ≠ now.toI64 :=
  Table.mem_delete.trans (and_congr_right' decide_eq_false_iff_not)

theorem authenticateUser_after (username password tokenId : String) (issued cleaned : Time) :
    (authenticateUser argon jwt db username password tokenId issued cleaned).2 =
      (signIn argon jwt db (.login username password tokenId issued cleaned)).elim db fun now =>
        (cleanRevokedToken db now).2 := by
  simp only [signIn, authenticateUser]
  cases checkPassword argon db.users username password with
  | none => rfl
  | some user =>
    dsimp only
    cases generateToken jwt issued user.userId user.groupId tokenId <;> rfl

theorem after_eq (e : Event) : e.after argon jwt db = (cleaning argon jwt db e).elim
    (match e with
      | .logout user => (insertRevokedToken db user).2
      | _ => db)
    fun now => (cleanRevokedToken db now).2 := by
  cases e with
  | login username password tokenId issued cleaned => exact authenticateUser_after ..
  | logout user => rfl
  | verify token decoded now => rfl
  | clean now => rfl

theorem mem_after (e : Event) : r ∈ (e.after argon jwt db).revokedTokens.rows ↔
    (r ∈ db.revokedTokens.rows ∧ ¬CleansAt argon jwt db e r.expirationTime) ∨
      ∃ user, e = .logout user ∧ (insertRevokedToken db user).1 = .ok () ∧ r = user.row := by
  rw [after_eq]
  unfold CleansAt
  cases hclean : cleaning argon jwt db e with
  | some now =>
    have hnot : ∀ user, e ≠ .logout user := by
      rintro user rfl
      cases hclean
    simp [cleanRevokedToken_rows, hnot]
  | none =>
    cases e with
    | logout user => simp [insertRevokedToken_rows]
    | login username password tokenId issued cleaned => simp
    | verify token decoded now => simp
    | clean now => cases hclean

theorem after_users (e : Event) : (e.after argon jwt db).users = db.users := by
  rw [after_eq]
  cases cleaning argon jwt db e with
  | some now => rfl
  | none =>
    cases e with
    | logout user =>
      simp only [Option.elim_none, insertRevokedToken]
      cases execute db.revokedTokens
        (db.revokedTokens.insert ⟨user.userId, user.tokenId, user.expirationTime⟩) with
      | mk res t' => cases res <;> rfl
    | login username password tokenId issued cleaned => rfl
    | verify token decoded now => rfl
    | clean now => rfl

theorem signIn_congr (h : db'.users = db.users) (e : Event) :
    signIn argon jwt db' e = signIn argon jwt db e := by
  cases e with
  | login username password tokenId issued cleaned =>
    simp only [signIn, authenticateUser, h]
    cases checkPassword argon db.users username password with
    | none => rfl
    | some user =>
      dsimp only
      cases generateToken jwt issued user.userId user.groupId tokenId <;> rfl
  | logout user => rfl
  | verify token decoded now => rfl
  | clean now => rfl

theorem cleansAt_congr (h : db'.users = db.users) (e : Event) (expiration : ℤ) :
    CleansAt argon jwt db' e expiration ↔ CleansAt argon jwt db e expiration := by
  have hsame : cleaning argon jwt db' e = cleaning argon jwt db e := by
    cases e with
    | clean now => rfl
    | login username password tokenId issued cleaned =>
      exact signIn_congr h (.login username password tokenId issued cleaned)
    | logout user => rfl
    | verify token decoded now => rfl
  rw [CleansAt, hsame, CleansAt]

theorem recorded_nil {after : List Event} :
    Recorded argon jwt db [] r after ↔ r ∈ db.revokedTokens.rows ∧ after = [] := by
  refine or_iff_left ?_
  rintro ⟨before, user, hevents, -⟩
  cases List.append_eq_nil_iff.mp hevents.symm |>.2

theorem recorded_cons {after : List Event} : Recorded argon jwt db (e :: events) r after ↔
    (r ∈ db.revokedTokens.rows ∧ after = e :: events) ∨
    ((∃ user, e = .logout user ∧ (insertRevokedToken db user).1 = .ok () ∧ r = user.row) ∧
      after = events) ∨
    ∃ before user, events = before ++ .logout user :: after ∧
      (insertRevokedToken (run argon jwt (e.after argon jwt db) before) user).1 = .ok () ∧
      r = user.row := by
  refine or_congr_right ?_
  constructor
  · rintro ⟨before, user, hevents, hok, rfl⟩
    rcases List.cons_eq_append_iff.mp hevents with ⟨rfl, hsame⟩ | ⟨before', rfl, hrest⟩
    · obtain ⟨rfl, rfl⟩ := List.cons.inj hsame
      exact .inl ⟨⟨user, rfl, hok, rfl⟩, rfl⟩
    · exact .inr ⟨before', user, hrest, hok, rfl⟩
  · rintro (⟨⟨user, rfl, hok, rfl⟩, rfl⟩ | ⟨before, user, rfl, hok, rfl⟩)
    · exact ⟨[], user, rfl, hok, rfl⟩
    · exact ⟨e :: before, user, rfl, hok, rfl⟩

/-- What stands in the table: what was recorded, and not cleaned since. -/
theorem mem_run : r ∈ (run argon jwt db events).revokedTokens.rows ↔
    ∃ after, Recorded argon jwt db events r after ∧
      ∀ e ∈ after, ¬CleansAt argon jwt db e r.expirationTime := by
  induction events generalizing db with
  | nil =>
    simp only [recorded_nil]
    exact ⟨fun h => ⟨[], ⟨h, rfl⟩, fun e he => (List.not_mem_nil he).elim⟩, fun ⟨_, h, _⟩ => h.1⟩
  | cons e events ih =>
    have hclean : ∀ e', CleansAt argon jwt (e.after argon jwt db) e' r.expirationTime ↔
        CleansAt argon jwt db e' r.expirationTime := fun e' => cleansAt_congr (after_users e) e' _
    have hrun : run argon jwt db (e :: events) = run argon jwt (e.after argon jwt db) events := rfl
    rw [hrun, ih]
    simp only [hclean, recorded_cons]
    constructor
    · rintro ⟨after, hrecorded, hnot⟩
      rcases hrecorded with ⟨hmem, rfl⟩ | ⟨before, user, hevents, hok, hrow⟩
      · rcases (mem_after e).mp hmem with ⟨hold, he⟩ | hnew
        · exact ⟨e :: after, .inl ⟨hold, rfl⟩, List.forall_mem_cons.mpr ⟨he, hnot⟩⟩
        · exact ⟨after, .inr (.inl ⟨hnew, rfl⟩), hnot⟩
      · exact ⟨after, .inr (.inr ⟨before, user, hevents, hok, hrow⟩), hnot⟩
    · rintro ⟨after, ⟨hold, rfl⟩ | ⟨hnew, rfl⟩ | hlater, hnot⟩
      · obtain ⟨he, hnot⟩ := List.forall_mem_cons.mp hnot
        exact ⟨events, .inl ⟨(mem_after e).mpr (.inl ⟨hold, he⟩), rfl⟩, hnot⟩
      · exact ⟨after, .inl ⟨(mem_after e).mpr (.inr hnew), rfl⟩, hnot⟩
      · exact ⟨after, .inr hlater, hnot⟩

theorem cleaning_mem {now : Time} (h : cleaning argon jwt db e = some now) : now ∈ e.readings := by
  cases e with
  | login username password tokenId issued cleaned =>
    simp only [cleaning, signIn] at h
    split at h
    · rw [← Option.some.inj h]
      exact List.mem_cons_of_mem _ (List.mem_singleton_self _)
    · cases h
  | logout user => cases h
  | verify token decoded now' => cases h
  | clean now' =>
    rw [← Option.some.inj h]
    exact List.mem_singleton_self _

theorem signIn_last {now : Time} (h : signIn argon jwt db e = some now) :
    ∃ username password tokenId issued, e = .login username password tokenId issued now := by
  cases e with
  | login username password tokenId issued cleaned =>
    simp only [signIn] at h
    split at h
    · rw [← Option.some.inj h]
      exact ⟨username, password, tokenId, issued, rfl⟩
    · cases h
  | logout user => cases h
  | verify token decoded now' => cases h
  | clean now' => cases h

theorem Recorded.subset {after : List Event} (h : Recorded argon jwt db events r after) :
    ∀ e ∈ after, e ∈ events := by
  intro e he
  rcases h with ⟨-, rfl⟩ | ⟨before, user, rfl, -⟩
  · exact he
  · exact List.mem_append_right _ (List.mem_cons_of_mem _ he)

theorem recorded_snoc (hlogout : ∀ user, e ≠ .logout user) {after : List Event} :
    Recorded argon jwt db (events ++ [e]) r after ↔
      ∃ after', after = after' ++ [e] ∧ Recorded argon jwt db events r after' := by
  constructor
  · rintro (⟨hmem, rfl⟩ | ⟨before, user, hevents, hok, rfl⟩)
    · exact ⟨events, rfl, .inl ⟨hmem, rfl⟩⟩
    · rcases List.eq_nil_or_concat after with rfl | ⟨after', e', rfl⟩
      · exact (hlogout user (List.append_inj_right' hevents rfl |> List.singleton_inj.mp)).elim
      · rw [List.concat_eq_append, ← List.cons_append, ← List.append_assoc] at hevents
        obtain ⟨rfl, hlast⟩ := List.append_inj' hevents rfl
        rw [List.concat_eq_append, List.singleton_inj.mp hlast]
        exact ⟨after', rfl, .inr ⟨before, user, rfl, hok, rfl⟩⟩
  · rintro ⟨after', rfl, ⟨hmem, rfl⟩ | ⟨before, user, rfl, hok, rfl⟩⟩
    · exact .inl ⟨hmem, rfl⟩
    · exact .inr ⟨before, user, by simp, hok, rfl⟩

end Rows

/-- After the event, a login at this time, the table holds only live tokens and all revoked ones
that are live. -/
def Live (before : List Event) (e : Event) (now : Time) : Prop :=
  (∀ r ∈ (run argon jwt db (before ++ [e])).revokedTokens.rows, now.toI64 < r.expirationTime) ∧
    ∀ r after, Recorded argon jwt db before r after → now.toI64 < r.expirationTime →
      r ∈ (run argon jwt db (before ++ [e])).revokedTokens.rows

/-- Every revoked token that has expired met a cleaning in the second of its expiration. -/
def CleanedInTime (before : List Event) (e : Event) (now : Time) : Prop :=
  ∀ r after, Recorded argon jwt db before r after → r.expirationTime ≤ now.toI64 →
    ∃ e' ∈ after ++ [e], CleansAt argon jwt db e' r.expirationTime

theorem live_iff {before : List Event} {e : Event} {now : Time}
    (hclock : NonDecreasing (before ++ [e]))
    (hlogin : signIn argon jwt (run argon jwt db before) e = some now) :
    Live argon jwt db before e now ↔ CleanedInTime argon jwt db before e now := by
  obtain ⟨username, password, tokenId, issued, rfl⟩ := signIn_last hlogin
  have hlogout : ∀ user, Event.login username password tokenId issued now ≠ .logout user := by
    rintro user ⟨⟩
  obtain ⟨e, he⟩ : ∃ e, e = Event.login username password tokenId issued now := ⟨_, rfl⟩
  rw [← he] at hclock hlogout ⊢
  -- No event has read a later time.
  have hlast : ∀ e' ∈ before ++ [e], ∀ n ∈ e'.readings, n.secs ≤ now.secs := by
    intro e' he' n hn
    rw [NonDecreasing, List.flatMap_append, List.pairwise_append] at hclock
    obtain ⟨-, hown, hearlier⟩ := hclock
    rw [List.flatMap_singleton, he] at hown hearlier
    have hnow : now ∈ (Event.login username password tokenId issued now).readings :=
      List.mem_cons_of_mem _ (List.mem_singleton_self now)
    rcases List.mem_append.mp he' with hmem | hmem
    · exact hearlier n (List.mem_flatMap.mpr ⟨e', hmem, hn⟩) now hnow
    · rw [List.mem_singleton.mp hmem, he] at hn
      rcases List.mem_cons.mp hn with rfl | hn
      · exact (List.pairwise_cons.mp hown).1 now (List.mem_singleton_self now)
      · exact Nat.le_of_eq (congrArg Time.secs (List.mem_singleton.mp hn))
  unfold Live CleanedInTime
  simp only [mem_run, recorded_snoc hlogout]
  constructor
  · rintro ⟨hlive, -⟩ r after hrecorded hexpired
    by_contra hnone
    have hlt := hlive r ⟨after ++ [e], ⟨after, rfl, hrecorded⟩, fun e' he' hclean =>
      hnone ⟨e', he', hclean⟩⟩
    exact Int.not_lt.mpr hexpired hlt
  · intro hcleaned
    constructor
    · rintro r ⟨_, ⟨after, rfl, hrecorded⟩, hnot⟩
      by_contra hlt
      obtain ⟨e', he', hclean⟩ := hcleaned r after hrecorded (Int.not_lt.mp hlt)
      exact hnot e' he' hclean
    · intro r after hrecorded hlt
      refine ⟨after ++ [e], ⟨after, rfl, hrecorded⟩, ?_⟩
      rintro e' he' ⟨n, hn, hexp⟩
      have hmem : e' ∈ before ++ [e] := (List.mem_append.mp he').elim
        (fun h => List.mem_append_left _ (hrecorded.subset e' h))
        fun h => List.mem_append_right _ h
      have hle := hlast e' hmem n (cleaning_mem hn)
      rw [hexp] at hlt
      exact Int.not_le.mpr hlt (Int.ofNat_le.mpr hle)

/-- In a run with a clock that does not go back, the table holds after every successful login just
the live tokens that were revoked, exactly where every token that has expired by then met a cleaning
in the second of its expiration. -/
theorem live_tokens_iff (events : List Event) (hclock : NonDecreasing events) :
    (∀ before e after now, events = before ++ e :: after →
        signIn argon jwt (run argon jwt db before) e = some now → Live argon jwt db before e now) ↔
      ∀ before e after now, events = before ++ e :: after →
        signIn argon jwt (run argon jwt db before) e = some now →
        CleanedInTime argon jwt db before e now := by
  have hfront : ∀ before e after, events = before ++ e :: after →
      NonDecreasing (before ++ [e]) := by
    rintro before e after rfl
    rw [NonDecreasing, show before ++ e :: after = before ++ [e] ++ after by simp,
      List.flatMap_append, List.pairwise_append] at hclock
    exact hclock.1
  refine forall_congr' fun before => forall_congr' fun e => forall_congr' fun after =>
    forall_congr' fun now => forall_congr' fun hsplit => forall_congr' fun hlogin => ?_
  exact live_iff argon jwt db (hfront before e after hsplit) hlogin

def argonExample : PasswordHasher := ⟨fun _ p => some p, fun p h => p = h⟩

def jwtExample : Jwt where
  encode _ := some "token"
  decode _ _ := none
  signed _ := none
  decode_signed := by
    intro now token claims h
    cases h

def dbExample : DB :=
  ⟨⟨[⟨1001, 1001, "user", "secret"⟩], List.pairwise_singleton _ _⟩, Table.empty SameToken⟩

def loginAt (secs : ℕ) (h : secs < 2 ^ 63) : Event :=
  .login "user" "secret" "id" ⟨secs, h⟩ ⟨secs, h⟩

def tokenExample : AuthenticatedUser := ⟨1001, 1001, "id", 86410⟩

theorem live_tokens_iff_second :
    let events := [.logout tokenExample, loginAt 86410 (by decide)]
    (∀ before e after now, events = before ++ e :: after →
        signIn argonExample jwtExample (run argonExample jwtExample dbExample before) e = some now →
        Live argonExample jwtExample dbExample before e now) ↔
      ∀ before e after now, events = before ++ e :: after →
        signIn argonExample jwtExample (run argonExample jwtExample dbExample before) e = some now →
        CleanedInTime argonExample jwtExample dbExample before e now :=
  live_tokens_iff argonExample jwtExample dbExample _ (by
    simp [NonDecreasing, Event.readings, loginAt])

/-- No login falls into the second in which the token expires, and its row stays for good. -/
theorem expired_token_stays :
    let before := [loginAt 10 (by decide), .logout tokenExample]
    NonDecreasing (before ++ [loginAt 86411 (by decide)]) ∧
    signIn argonExample jwtExample (run argonExample jwtExample dbExample before)
      (loginAt 86411 (by decide)) = some ⟨86411, by decide⟩ ∧
    ¬Live argonExample jwtExample dbExample before (loginAt 86411 (by decide))
      ⟨86411, by decide⟩ := by
  intro before
  refine ⟨by simp [NonDecreasing, Event.readings, loginAt, before], by decide, ?_⟩
  rintro ⟨hlive, -⟩
  have hlater := hlive tokenExample.row (by decide)
  revert hlater
  decide

end ServerRevocation
