import Mathlib.Algebra.Group.Int.Defs
import Mathlib.Algebra.Group.Nat.Defs

/-! # Durations and clock times of the standard library

A clock time is a count of seconds from the epoch, negative before it, and of nanoseconds that
go forward from there. Arithmetic is checked: `none` stands where the sum does not fit. -/
namespace SystemTimes

structure Duration where
  secs : ℕ
  nanos : ℕ
  secs_lt : secs < 2 ^ 64
  nanos_lt : nanos < 10 ^ 9
  deriving DecidableEq, Repr

/-- `Duration::new` panics where the carry of the nanoseconds does not fit. -/
def Duration.new (secs nanos : ℕ) : Option Duration :=
  if h : secs + nanos / 10 ^ 9 < 2 ^ 64 then
    some ⟨secs + nanos / 10 ^ 9, nanos % 10 ^ 9, h, Nat.mod_lt _ (by decide)⟩
  else none

def Duration.zero : Duration := ⟨0, 0, by decide, by decide⟩

structure SystemTime where
  secs : ℤ
  nanos : ℕ
  secs_ge : -2 ^ 63 ≤ secs
  secs_lt : secs < 2 ^ 63
  nanos_lt : nanos < 10 ^ 9
  deriving DecidableEq, Repr

namespace SystemTime

def epoch : SystemTime := ⟨0, 0, by decide, by decide, by decide⟩

def checkedAdd (s : SystemTime) (d : Duration) : Option SystemTime :=
  let secs := s.secs + d.secs + (s.nanos + d.nanos) / 10 ^ 9
  if h : secs < 2 ^ 63 then
    some ⟨secs, (s.nanos + d.nanos) % 10 ^ 9, by have := s.secs_ge; omega, h,
      Nat.mod_lt _ (by decide)⟩
  else none

def Earlier (t s : SystemTime) : Prop := t.secs < s.secs ∨ t.secs = s.secs ∧ t.nanos < s.nanos

instance (t s : SystemTime) : Decidable (Earlier t s) := inferInstanceAs (Decidable (_ ∨ _))

/-- `duration_since`, which fails where the time is the earlier one. -/
def durationSince (t s : SystemTime) : Option Duration :=
  if h : Earlier t s then none
  else if hn : s.nanos ≤ t.nanos then
    some ⟨(t.secs - s.secs).toNat, t.nanos - s.nanos,
      by have := t.secs_lt; have := s.secs_ge; omega, by have := t.nanos_lt; omega⟩
  else
    some ⟨(t.secs - s.secs - 1).toNat, t.nanos + 10 ^ 9 - s.nanos,
      by have := t.secs_lt; have := s.secs_ge; omega, by omega⟩

variable {s t : SystemTime} {d : Duration}

theorem ext_of (hs : s.secs = t.secs) (hn : s.nanos = t.nanos) : s = t := by
  cases s
  cases t
  cases hs
  cases hn
  rfl

theorem checkedAdd_eq_some : s.checkedAdd d = some t ↔
    t.secs = s.secs + d.secs + (s.nanos + d.nanos) / 10 ^ 9 ∧
      t.nanos = (s.nanos + d.nanos) % 10 ^ 9 := by
  unfold checkedAdd
  constructor
  · intro h
    dsimp only at h
    split at h
    · obtain rfl := Option.some.inj h
      exact ⟨rfl, rfl⟩
    · cases h
  · rintro ⟨hsecs, hnanos⟩
    have hfits := hsecs ▸ t.secs_lt
    rw [dif_pos hfits]
    exact congrArg some (ext_of hsecs.symm hnanos.symm)

theorem durationSince_eq_none : t.durationSince s = none ↔ Earlier t s := by
  unfold durationSince
  split
  · rename_i h
    simp [h]
  · rename_i h
    split <;> simp [h]

theorem checkedAdd_durationSince (h : t.durationSince s = some d) :
    s.checkedAdd d = some t := by
  rw [checkedAdd_eq_some]
  have hs := s.nanos_lt
  have ht := t.nanos_lt
  unfold durationSince at h
  split at h
  · cases h
  · rename_i hlate
    unfold Earlier at hlate
    split at h
    all_goals
      obtain rfl := Option.some.inj h
      dsimp only
      omega

end SystemTime

end SystemTimes
