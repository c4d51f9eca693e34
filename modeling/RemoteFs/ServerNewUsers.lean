import RemoteFs.ServerUserAdministration

/-! # Ids for new users

A creation without an id counts the users as `u8` and takes the successor of the largest id. -/
namespace ServerNewUsers

open SqlTable
open ServerDatabase
open ServerUsers
open ServerUserAdministration

variable (argon : PasswordHasher) (checks : Bool) (t : Users)
  (username password salt : String) (groupId : Option UInt32)

/-- The answer is an id that no user has and that is not the superuser's, and just the row with
this id is inserted. -/
def Allocates : Prop :=
  ∃ uid hash t', createUser argon checks t username password salt none groupId =
      (.ok (uid, groupId.getD uid), t') ∧
    users t uid = none ∧ uid ≠ 0 ∧ argon.hash salt password = some hash ∧
    t'.rows = t.rows ++ [⟨uid, groupId.getD uid, username, hash⟩]

/-- The number of users is a `u8`, and the largest id is not the last one. -/
def Room : Prop := t.rows.length < 2 ^ 8 ∧ (maxUid t).toNat + 1 < 2 ^ 32

section Ids

variable {checks : Bool} {t : Users}

theorem getNewUid_of_room (h : Room t) :
    ∃ uid, getNewUid checks t = .ok uid ∧ users t uid = none ∧ uid ≠ 0 := by
  rw [getNewUid_spec, if_pos h.1]
  by_cases hnil : t.rows = []
  · rw [if_pos hnil]
    exact ⟨1001, rfl, users_eq_none.mpr (by rw [hnil]; simp), by decide⟩
  · have hlast : ¬(checks = true ∧ (maxUid t).toNat + 1 = 2 ^ 32) := fun hlast =>
      Nat.ne_of_lt h.2 hlast.2
    rw [if_neg hnil, addOne, if_neg hlast]
    refine ⟨maxUid t + 1, rfl, users_above_max h.2, fun hzero => ?_⟩
    have hnat := congrArg UInt32.toNat hzero
    rw [UInt32.toNat_add, show (1 : UInt32).toNat = 1 from rfl, Nat.mod_eq_of_lt h.2] at hnat
    cases hnat

theorem getNewUid_of_full (h : ¬Room t) :
    (∃ f, getNewUid checks t = .error f) ∨ getNewUid checks t = .ok 0 := by
  rw [getNewUid_spec]
  by_cases hlen : t.rows.length < 2 ^ 8
  · have hlast : (maxUid t).toNat + 1 = 2 ^ 32 := by
      have hlt := (maxUid t).toNat_lt
      have hge : ¬(maxUid t).toNat + 1 < 2 ^ 32 := fun hlt => h ⟨hlen, hlt⟩
      omega
    have hnil : t.rows ≠ [] := by
      intro hnil
      rw [maxUid, hnil] at hlast
      cases hlast
    have hzero : maxUid t + 1 = 0 := by
      apply UInt32.toNat.inj
      rw [UInt32.toNat_add, show (1 : UInt32).toNat = 1 from rfl, hlast]
      rfl
    rw [if_pos hlen, if_neg hnil, addOne, hzero]
    cases checks with
    | true => exact .inl ⟨.panic, if_pos ⟨rfl, hlast⟩⟩
    | false => exact .inr (if_neg fun hc => Bool.false_ne_true hc.1)
  · rw [if_neg hlen]
    exact .inl ⟨_, rfl⟩

end Ids

/-- A creation under a new name, for which hashing succeeds, allocates an id exactly where there is
room. -/
theorem allocates_iff (hname : getUser t username = none)
    (hhash : argon.hash salt password ≠ none) :
    Allocates argon checks t username password salt groupId ↔ Room t := by
  have hnone : ∀ id, (none : Option UInt32) = some id → users t id = none := fun id hid => by
    cases hid
  obtain ⟨hash, hh⟩ := Option.ne_none_iff_exists'.mp hhash
  constructor
  · rintro ⟨uid, hash', t', hcreate, -, hpositive, -⟩
    by_contra hfull
    rcases getNewUid_of_full hfull with ⟨f, hf⟩ | hzero
    · rw [createUser_no_row (newUser_no_uid groupId hnone hname hf)] at hcreate
      cases hcreate
    · have hrow := newUser_ok groupId hnone hname hzero hh
      by_cases hfree : users t 0 = none
      · obtain ⟨t'', hok, -⟩ := createUser_ok hrow hfree hname
        rw [hok] at hcreate
        exact hpositive (Prod.mk.inj (Except.ok.inj (Prod.mk.inj hcreate).1)).1.symm
      · rw [createUser_conflict hrow hfree] at hcreate
        cases hcreate
  · intro hroom
    obtain ⟨uid, huid, hfree, hpositive⟩ : ∃ uid, getNewUid checks t = .ok uid ∧ _ :=
      getNewUid_of_room hroom
    obtain ⟨t', hcreate, hrows, -⟩ :=
      createUser_ok (newUser_ok groupId hnone hname huid hh) hfree hname
    exact ⟨uid, hash, t', hcreate, hfree, hpositive, hh, hrows⟩

def oneUser (userId : UInt32) : Users :=
  ⟨[⟨userId, userId, "bob", "secret"⟩], List.pairwise_singleton _ _⟩

theorem allocates_iff_next : Allocates plain true (oneUser 1000) "ann" "secret" "salt" none :=
  (allocates_iff plain true (oneUser 1000) "ann" "secret" "salt" none rfl
    (Option.some_ne_none _)).mpr ⟨by decide, by decide⟩

def last : Users := oneUser 4294967295

/-- Beside the last id there is no new one with overflow checks, and the superuser's without. -/
theorem last_id_taken :
    (createUser plain true last "ann" "secret" "salt" none none).1 = .error .panic ∧
    (createUser plain false last "ann" "secret" "salt" none none).1 = .ok (0, 0) ∧
    getUser last "ann" = none ∧ users last 1 = none ∧
    ¬Allocates plain true last "ann" "secret" "salt" none := by
  refine ⟨by decide, by decide, by decide, by decide, ?_⟩
  rintro ⟨uid, hash, t', hcreate, -⟩
  have hpanic : (createUser plain true last "ann" "secret" "salt" none none).1 = .error .panic := by
    decide
  rw [hcreate] at hpanic
  cases hpanic

end ServerNewUsers
