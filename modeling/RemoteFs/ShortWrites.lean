import Mathlib.Data.List.Basic

/-! # Writing all bytes by short writes

One call may take some of the bytes only, may be interrupted, or may fail. The loop goes on until
all are taken; where it fails, what it has written stays. -/
namespace ShortWrites

inductive Outcome where
  | took (n : ℕ)
  | interrupted
  | failed
  deriving DecidableEq, Repr

section Loop

variable {σ τ α : Type*} (write : σ → ℕ → List α → σ)

/-- `write_all`, for which a call that takes nothing fails. Where no more outcomes are given, the
rest is taken at once. -/
def writeAll : List Outcome → σ → ℕ → List α → Bool × σ
  | [], s, pos, d => (true, if d.isEmpty then s else write s pos d)
  | outcome :: outcomes, s, pos, d =>
    if d.isEmpty then (true, s)
    else
      match outcome with
      | .took n =>
        if n = 0 then (false, s)
        else writeAll outcomes (write s pos (d.take n)) (pos + (d.take n).length) (d.drop n)
      | .interrupted => writeAll outcomes s pos d
      | .failed => (false, s)

def taken : List Outcome → ℕ → Bool × ℕ
  | [], n => (true, n)
  | outcome :: outcomes, n =>
    if n = 0 then (true, 0)
    else
      match outcome with
      | .took k =>
        if k = 0 then (false, 0)
        else ((taken outcomes (n - k)).1, min k n + (taken outcomes (n - k)).2)
      | .interrupted => taken outcomes n
      | .failed => (false, 0)

/-- What is seen of the state is the same as after one write of the bytes that were taken. -/
theorem writeAll_view {view : σ → τ} {put : τ → ℕ → List α → τ}
    (hview : ∀ s pos d, view (write s pos d) = put (view s) pos d)
    (hnil : ∀ t pos, put t pos [] = t)
    (happend : ∀ t pos a b, put (put t pos a) (pos + a.length) b = put t pos (a ++ b))
    (outcomes : List Outcome) (s : σ) (pos : ℕ) (d : List α) :
    (writeAll write outcomes s pos d).1 = (taken outcomes d.length).1 ∧
      view (writeAll write outcomes s pos d).2 =
        put (view s) pos (d.take (taken outcomes d.length).2) := by
  induction outcomes generalizing s pos d with
  | nil =>
    refine ⟨rfl, ?_⟩
    rw [writeAll, taken, List.take_length]
    cases d with
    | nil => exact (hnil _ _).symm
    | cons b d => exact hview ..
  | cons outcome outcomes ih =>
    by_cases hd : d = []
    · subst hd
      exact ⟨rfl, (hnil _ _).symm⟩
    have hempty : ¬d.isEmpty = true := by rwa [List.isEmpty_iff]
    have hlen : d.length ≠ 0 := by rwa [Ne, List.length_eq_zero_iff]
    unfold writeAll taken
    rw [if_neg hempty, if_neg hlen]
    cases outcome with
    | took k =>
      dsimp only
      by_cases hk : k = 0
      · rw [if_pos hk, if_pos hk]
        exact ⟨rfl, by rw [List.take_zero, hnil]⟩
      · obtain ⟨hall, hseen⟩ := ih (write s pos (d.take k)) (pos + (d.take k).length) (d.drop k)
        rw [List.length_drop] at hall hseen
        rw [if_neg hk, if_neg hk]
        refine ⟨hall, hseen.trans ?_⟩
        dsimp only
        rw [hview, happend]
        congr 1
        rcases Nat.le_total k d.length with hle | hle
        · rw [Nat.min_eq_left hle, List.take_add]
        · rw [Nat.min_eq_right hle, List.take_of_length_le hle, List.drop_eq_nil_of_le hle,
            List.take_nil, List.append_nil, List.take_of_length_le (Nat.le_add_right _ _)]
    | interrupted => exact ih s pos d
    | failed => exact ⟨rfl, by rw [List.take_zero, hnil]⟩

end Loop

end ShortWrites
