import RemoteFs.ClientAttributes
import RemoteFs.SystemTimes
import Mathlib.Tactic.ByContra

/-! # Timestamps and clock times

Server and client convert with the same code. The seconds are cast to an unsigned number on the
way to a clock time, and a clock time before 1970 is taken for 1970. -/
namespace Timestamps

open ClientAttributes
open SystemTimes

def asU64 (sec : ℤ) : ℕ := (sec % 2 ^ 64).toNat

/-- `From<Timestamp> for SystemTime`; `none` where it panics. -/
def toSystemTime (t : Timestamp) : Option SystemTime :=
  (Duration.new (asU64 t.sec) t.nsec).bind SystemTime.epoch.checkedAdd

def clampI64 (n : ℕ) : ℤ := if n < 2 ^ 63 then n else 2 ^ 63 - 1

def ofSystemTime (s : SystemTime) : Timestamp :=
  let d := (s.durationSince .epoch).getD .zero
  ⟨clampI64 d.secs, d.nanos⟩

/-- What the types and the convention on nanoseconds allow, which fits a clock time. -/
structure Fits (t : Timestamp) : Prop where
  sec_ge : -2 ^ 63 ≤ t.sec
  sec_lt : t.sec < 2 ^ 63
  nsec_lt : t.nsec < 10 ^ 9

def Fits.time {t : Timestamp} (h : Fits t) : SystemTime :=
  ⟨t.sec, t.nsec, h.sec_ge, h.sec_lt, h.nsec_lt⟩

variable {t : Timestamp} {s : SystemTime}

theorem earlier_epoch : s.Earlier .epoch ↔ s.secs < 0 := by
  have hnanos : SystemTime.epoch.nanos = 0 := rfl
  have hsecs : SystemTime.epoch.secs = 0 := rfl
  unfold SystemTime.Earlier
  omega

/-- From 1970 on the conversion gives the seconds and nanoseconds as they are. -/
theorem ofSystemTime_eq (s : SystemTime) :
    ofSystemTime s = if s.secs < 0 then ⟨0, 0⟩ else ⟨s.secs, s.nanos⟩ := by
  unfold ofSystemTime
  cases hd : s.durationSince .epoch with
  | none =>
    rw [if_pos (earlier_epoch.mp (SystemTime.durationSince_eq_none.mp hd))]
    rfl
  | some d =>
    have hlate : ¬s.secs < 0 := by
      intro h
      rw [SystemTime.durationSince_eq_none.mpr (earlier_epoch.mpr h)] at hd
      cases hd
    obtain ⟨hsecs, hnanos⟩ :=
      SystemTime.checkedAdd_eq_some.mp (SystemTime.checkedAdd_durationSince hd)
    have hzero : SystemTime.epoch.nanos = 0 := rfl
    have hepoch : SystemTime.epoch.secs = 0 := rfl
    have hbound := d.nanos_lt
    have hfits := s.secs_lt
    have hd : d.secs < 2 ^ 63 ∧ (d.secs : ℤ) = s.secs ∧ d.nanos = s.nanos := by omega
    have hclamp : clampI64 d.secs = s.secs := (if_pos hd.1).trans hd.2.1
    rw [if_neg hlate, Option.getD_some]
    dsimp only
    rw [hclamp, hd.2.2]

def reported (t : Timestamp) : Timestamp := if t.sec < 0 then ⟨0, 0⟩ else t

theorem ofSystemTime_time (h : Fits t) : ofSystemTime h.time = reported t := ofSystemTime_eq _

theorem asU64_of_nonneg (h : Fits t) (hsec : 0 ≤ t.sec) : asU64 t.sec = t.sec.toNat := by
  have hlt := h.sec_lt
  unfold asU64
  omega

theorem asU64_of_neg (h : Fits t) (hsec : t.sec < 0) : 2 ^ 63 ≤ asU64 t.sec := by
  have hge := h.sec_ge
  unfold asU64
  omega

/-- From 1970 on a timestamp becomes the time it means. -/
theorem toSystemTime_of_nonneg (h : Fits t) (hsec : 0 ≤ t.sec) : toSystemTime t = some h.time := by
  have hlt := h.sec_lt
  have hnsec := h.nsec_lt
  have hcarry : t.nsec / 10 ^ 9 = 0 := Nat.div_eq_of_lt hnsec
  have hmod : t.nsec % 10 ^ 9 = t.nsec := Nat.mod_eq_of_lt hnsec
  unfold toSystemTime Duration.new
  rw [asU64_of_nonneg h hsec, dif_pos (by omega), Option.bind_some,
    SystemTime.checkedAdd_eq_some]
  have hzero : SystemTime.epoch.nanos = 0 := rfl
  have hepoch : SystemTime.epoch.secs = 0 := rfl
  dsimp only [Fits.time]
  omega

/-- The cast of negative seconds is too large for a clock time. -/
theorem toSystemTime_of_neg (h : Fits t) (hsec : t.sec < 0) : toSystemTime t = none := by
  have hlarge := asU64_of_neg h hsec
  rw [Option.eq_none_iff_forall_ne_some]
  intro s hs
  obtain ⟨d, hd, hadd⟩ := Option.bind_eq_some_iff.mp hs
  unfold Duration.new at hd
  split at hd
  · obtain rfl := Option.some.inj hd
    obtain ⟨hsecs, -⟩ := SystemTime.checkedAdd_eq_some.mp hadd
    have hepoch : SystemTime.epoch.secs = 0 := rfl
    have hfits := s.secs_lt
    dsimp only at hsecs
    omega
  · cases hd

theorem ofSystemTime_fits (s : SystemTime) : Fits (ofSystemTime s) := by
  rw [ofSystemTime_eq]
  split
  · constructor <;> decide
  · exact ⟨s.secs_ge, s.secs_lt, s.nanos_lt⟩

/-- A timestamp is converted there and back just when it is of 1970 or later. -/
theorem roundTrip_iff (h : Fits t) :
    (∃ s, toSystemTime t = some s ∧ ofSystemTime s = t) ↔ 0 ≤ t.sec := by
  constructor
  · rintro ⟨s, hs, -⟩
    by_contra hneg
    rw [toSystemTime_of_neg h (Int.not_le.mp hneg)] at hs
    cases hs
  · intro hsec
    refine ⟨h.time, toSystemTime_of_nonneg h hsec, ?_⟩
    exact (ofSystemTime_eq _).trans (if_neg (Int.not_lt.mpr hsec))

theorem systemTime_roundTrip_iff :
    toSystemTime (ofSystemTime s) = some s ↔ 0 ≤ s.secs := by
  constructor
  · intro hs
    by_contra hneg
    rw [ofSystemTime_eq, if_pos (Int.not_le.mp hneg)] at hs
    have hzero : toSystemTime ⟨0, 0⟩ = some SystemTime.epoch := by decide
    obtain rfl := Option.some.inj (hzero.symm.trans hs)
    exact hneg (by decide)
  · intro hsec
    have hof : ofSystemTime s = ⟨s.secs, s.nanos⟩ := by
      rw [ofSystemTime_eq, if_neg (Int.not_lt.mpr hsec)]
    have hfits := ofSystemTime_fits s
    rw [hof] at hfits ⊢
    exact toSystemTime_of_nonneg hfits hsec

end Timestamps
