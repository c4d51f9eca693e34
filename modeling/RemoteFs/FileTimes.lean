import RemoteFs.Timestamps

/-! # Windows file times

A FILETIME counts units of 100 nanoseconds from 1601, a `Timestamp` seconds and nanoseconds from
1970. A build with overflow checks panics where the others wrap around. -/
namespace FileTimes

open ClientAttributes
open Timestamps

/-- The result of an operation on `u64`; `none` is a panic. -/
def u64 (checks : Bool) (n : ℤ) : Option ℕ :=
  if 0 ≤ n ∧ n < 2 ^ 64 then some n.toNat
  else if checks then none
  else some (n % 2 ^ 64).toNat

def asI64 (n : ℕ) : ℤ := if n < 2 ^ 63 then n else n - 2 ^ 64

def asU32 (n : ℕ) : ℕ := n % 2 ^ 32

def windowsEpochDiff : ℕ := 11644473600

def unixToFiletime (checks : Bool) (ts : Timestamp) : Option ℕ := do
  let secs := asU64 ts.sec
  let shifted ← u64 checks (secs + windowsEpochDiff)
  u64 checks (shifted * 10000000)

def filetimeToUnix (checks : Bool) (t : ℕ) : Option (Option Timestamp) :=
  if t = 0 then some none
  else do
    let unix100ns ← u64 checks (t - (windowsEpochDiff * 10000000 : ℕ))
    let secs := unix100ns / 10000000
    let nanos := unix100ns % 10000000 * 100
    some (some ⟨asI64 secs, asU32 nanos⟩)

/-- The request of `set_basic_info`; `some none` where it sends none. -/
def setBasicInfo (checks : Bool) (lastAccessTime lastWriteTime lastChangeTime : ℕ) :
    Option (Option SetAttr) := do
  let atime ← filetimeToUnix checks lastAccessTime
  let mtime ← filetimeToUnix checks lastWriteTime
  let ctime ← filetimeToUnix checks lastChangeTime
  let setattr := { SetAttr.none with atime := atime, mtime := mtime, ctime := ctime }
  let needsCall := atime.isSome || mtime.isSome || ctime.isSome
  if needsCall then some (some setattr) else some none

def unixEpoch : ℕ := windowsEpochDiff * 10000000

/-- A time from 1970 on in the unit of a FILETIME, which has 64 bits for it. -/
structure Representable (ts : Timestamp) : Prop where
  sec_nonneg : 0 ≤ ts.sec
  sec_fits : (ts.sec + windowsEpochDiff) * 10000000 < 2 ^ 64
  nsec_lt : ts.nsec < 10 ^ 9
  nsec_unit : 100 ∣ ts.nsec

def RoundTrips (checks : Bool) (ts : Timestamp) : Prop :=
  (unixToFiletime checks ts).bind (filetimeToUnix checks) = some (some ts)

/-- The subtraction stays in range, and `unix_to_filetime` leads back. -/
structure LeadsBack (checks : Bool) (t : ℕ) : Prop where
  in_range : filetimeToUnix true t ≠ none
  back : ∃ ts, filetimeToUnix checks t = some (some ts) ∧ unixToFiletime checks ts = some t

variable {checks : Bool} {ts : Timestamp} {t : ℕ}

theorem u64_of_fits (checks : Bool) {z : ℤ} {n : ℕ} (hz : z = n) (h : n < 2 ^ 64) :
    u64 checks z = some n := by
  have hrange : (0 : ℤ) ≤ n ∧ (n : ℤ) < 2 ^ 64 := by omega
  rw [hz, u64, if_pos hrange, Int.toNat_natCast]

theorem u64_of_neg {z : ℤ} (h : z < 0) : u64 true z = none := by
  have hrange : ¬(0 ≤ z ∧ z < 2 ^ 64) := by omega
  rw [u64, if_neg hrange, if_pos rfl]

theorem windowsEpochDiff_eq : windowsEpochDiff = 11644473600 := rfl

theorem unixEpoch_eq : unixEpoch = 116444736000000000 := rfl

theorem unixToFiletime_bind (checks : Bool) (ts : Timestamp) : unixToFiletime checks ts =
    (u64 checks (asU64 ts.sec + windowsEpochDiff)).bind fun shifted =>
      u64 checks (shifted * 10000000) := rfl

theorem filetimeToUnix_bind (checks : Bool) (h : t ≠ 0) : filetimeToUnix checks t =
    (u64 checks (t - unixEpoch)).bind fun unix100ns =>
      some (some ⟨asI64 (unix100ns / 10000000), asU32 (unix100ns % 10000000 * 100)⟩) := by
  rw [filetimeToUnix, if_neg h]
  rfl

/-- A timestamp loses its nanoseconds. -/
theorem unixToFiletime_eq (checks : Bool) (sec nsec : ℕ)
    (hfits : (sec + windowsEpochDiff) * 10000000 < 2 ^ 64) :
    unixToFiletime checks ⟨sec, nsec⟩ = some ((sec + windowsEpochDiff) * 10000000) := by
  have hcast : asU64 (sec : ℤ) = sec := by
    unfold asU64
    omega
  have hshift : u64 checks ((sec : ℤ) + windowsEpochDiff) = some (sec + windowsEpochDiff) :=
    u64_of_fits checks (by omega) (by omega)
  have hscale : u64 checks (((sec + windowsEpochDiff : ℕ) : ℤ) * 10000000) =
      some ((sec + windowsEpochDiff) * 10000000) :=
    u64_of_fits checks (by omega) hfits
  rw [unixToFiletime_bind, hcast, hshift, Option.bind_some, hscale]

/-- From 1970 on a FILETIME is read to its last unit. -/
theorem filetimeToUnix_eq (checks : Bool) (units : ℕ) (hlt : units + unixEpoch < 2 ^ 64) :
    filetimeToUnix checks (units + unixEpoch) =
      some (some ⟨(units / 10000000 : ℕ), units % 10000000 * 100⟩) := by
  have hepoch := unixEpoch_eq
  have hne : units + unixEpoch ≠ 0 := by omega
  have hsub : u64 checks ((units + unixEpoch : ℕ) - unixEpoch) = some units :=
    u64_of_fits checks (by omega) (by omega)
  have hsecs : asI64 (units / 10000000) = (units / 10000000 : ℕ) := by
    rw [asI64, if_pos (by omega)]
  have hnanos : asU32 (units % 10000000 * 100) = units % 10000000 * 100 := by
    unfold asU32
    omega
  rw [filetimeToUnix_bind checks hne, hsub, Option.bind_some, hsecs, hnanos]

/-- Before 1970 the subtraction underflows. -/
theorem filetimeToUnix_before (hne : t ≠ 0) (h : t < unixEpoch) : filetimeToUnix true t = none := by
  rw [filetimeToUnix_bind true hne, u64_of_neg (by omega), Option.bind_none]

theorem roundTrips_iff (h : Representable ts) : RoundTrips checks ts ↔ ts.nsec = 0 := by
  obtain ⟨sec, nsec⟩ := ts
  obtain ⟨s, rfl⟩ : ∃ s : ℕ, sec = s := Int.eq_ofNat_of_zero_le h.sec_nonneg
  have hfits := h.sec_fits
  have hdiff := windowsEpochDiff_eq
  have hepoch := unixEpoch_eq
  dsimp only at hfits ⊢
  have hunits : (s + windowsEpochDiff) * 10000000 = s * 10000000 + unixEpoch := by omega
  have hsecs : s * 10000000 / 10000000 = s := by omega
  have hnanos : s * 10000000 % 10000000 * 100 = 0 := by omega
  rw [RoundTrips, unixToFiletime_eq checks s nsec (by omega), Option.bind_some, hunits,
    filetimeToUnix_eq checks _ (by omega), hsecs, hnanos]
  simp [eq_comm]

theorem leadsBack_iff (hne : t ≠ 0) (hlt : t < 2 ^ 64) :
    LeadsBack checks t ↔ unixEpoch ≤ t ∧ 10000000 ∣ t := by
  have hdiff := windowsEpochDiff_eq
  have hepoch := unixEpoch_eq
  by_cases h : unixEpoch ≤ t
  · obtain ⟨units, rfl⟩ : ∃ units, t = units + unixEpoch := ⟨t - unixEpoch, by omega⟩
    have hread := fun checks => filetimeToUnix_eq checks units hlt
    have hwrite := unixToFiletime_eq checks (units / 10000000) (units % 10000000 * 100) (by omega)
    constructor
    · rintro ⟨-, ts, hts, hback⟩
      rw [hread, Option.some_inj, Option.some_inj] at hts
      rw [← hts, hwrite, Option.some_inj] at hback
      omega
    · rintro ⟨-, hwhole⟩
      have hin : filetimeToUnix true (units + unixEpoch) ≠ none := by simp [hread]
      refine ⟨hin, _, hread checks, ?_⟩
      rw [hwrite, Option.some_inj]
      omega
  · constructor
    · intro hback
      exact (hback.in_range (filetimeToUnix_before hne (by omega))).elim
    · intro hback
      exact (h hback.1).elim

/-- The conversions are inverse on whole seconds from 1970 on, and nowhere else. -/
theorem filetime_inverse_iff (checks : Bool) :
    (∀ ts, Representable ts → (RoundTrips checks ts ↔ ts.nsec = 0)) ∧
      ∀ t, t ≠ 0 → t < 2 ^ 64 → (LeadsBack checks t ↔ unixEpoch ≤ t ∧ 10000000 ∣ t) := by
  constructor
  · intro ts h
    exact roundTrips_iff h
  · intro t hne hlt
    exact leadsBack_iff hne hlt

theorem filetime_inverse_second :
    (RoundTrips true ⟨1, 0⟩ ↔ (0 : ℕ) = 0) ∧
      (LeadsBack true 116444736010000000 ↔ unixEpoch ≤ 116444736010000000 ∧
        10000000 ∣ 116444736010000000) :=
  ⟨(filetime_inverse_iff true).1 ⟨1, 0⟩ ⟨by decide, by decide, by decide, by decide⟩,
    (filetime_inverse_iff true).2 116444736010000000 (by decide) (by decide)⟩

/-- One unit of a FILETIME past 1970 comes back as 1970, and a FILETIME of 1601 underflows. -/
theorem filetime_unit_lost : Representable ⟨0, 100⟩ ∧
    ∀ checks, ¬RoundTrips checks ⟨0, 100⟩ ∧ ¬LeadsBack checks 1 := by
  have hunit : Representable ⟨0, 100⟩ := ⟨by decide, by decide, by decide, by decide⟩
  refine ⟨hunit, fun checks => ⟨?_, ?_⟩⟩
  · rw [roundTrips_iff hunit]
    decide
  · intro h
    exact h.in_range (by decide)

/-- A request of Windows that sets times reaches the server unless a time is before 1970; where
no time is given there is no request. -/
theorem setBasicInfo_total {access write change : ℕ}
    (h : ∀ t ∈ [access, write, change], t < 2 ^ 64 ∧ (t = 0 ∨ unixEpoch ≤ t)) :
    ∃ request, setBasicInfo true access write change = some request ∧
      (request = none ↔ access = 0 ∧ write = 0 ∧ change = 0) := by
  have hread : ∀ t ∈ [access, write, change], ∃ time, filetimeToUnix true t = some time ∧
      (time.isSome = false ↔ t = 0) := by
    intro t ht
    obtain ⟨hlt, rfl | hge⟩ := h t ht
    · exact ⟨none, rfl, by simp⟩
    · obtain ⟨units, rfl⟩ : ∃ units, t = units + unixEpoch := ⟨t - unixEpoch, by omega⟩
      have hepoch := unixEpoch_eq
      exact ⟨_, filetimeToUnix_eq true units hlt, by simp; omega⟩
  obtain ⟨a, hatime, ha⟩ := hread access (by simp)
  obtain ⟨m, hmtime, hm⟩ := hread write (by simp)
  obtain ⟨c, hctime, hc⟩ := hread change (by simp)
  simp only [setBasicInfo, hatime, hmtime, hctime, Option.bind_eq_bind, Option.bind_some,
    ← ha, ← hm, ← hc]
  cases a.isSome <;> cases m.isSome <;> cases c.isSome <;> simp

end FileTimes
