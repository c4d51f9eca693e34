import Mathlib.Data.List.Basic

/-! # Calls in a row, without undo

Each call goes on to a new state, or fails and changes nothing. The first that fails ends the
row, and what the calls before it have done stays. -/
namespace CallRows

variable {σ ε : Type*}

def row : List (σ → Except ε σ) → σ → Except ε Unit × σ
  | [], s => (.ok (), s)
  | call :: calls, s =>
    match call s with
    | .ok s' => row calls s'
    | .error e => (.error e, s)

variable {call : σ → Except ε σ} {calls : List (σ → Except ε σ)} {s s' : σ} {e : ε}

theorem row_cons_ok (h : call s = .ok s') : row (call :: calls) s = row calls s' := by
  rw [row, h]

theorem row_cons_error (h : call s = .error e) : row (call :: calls) s = (.error e, s) := by
  rw [row, h]

theorem row_append (before after : List (σ → Except ε σ)) (h : row before s = (.ok (), s')) :
    row (before ++ after) s = row after s' := by
  induction before generalizing s with
  | nil =>
    obtain rfl := (Prod.mk.inj h).2
    rfl
  | cons call before ih =>
    cases hc : call s with
    | ok s₁ =>
      rw [row_cons_ok hc] at h
      rw [List.cons_append, row_cons_ok hc]
      exact ih h
    | error e =>
      rw [row_cons_error hc] at h
      cases (Prod.mk.inj h).1

theorem row_append_error (before after : List (σ → Except ε σ))
    (h : row before s = (.error e, s')) : row (before ++ after) s = (.error e, s') := by
  induction before generalizing s with
  | nil => cases (Prod.mk.inj h).1
  | cons call before ih =>
    cases hc : call s with
    | ok s₁ =>
      rw [row_cons_ok hc] at h
      rw [List.cons_append, row_cons_ok hc]
      exact ih h
    | error e' =>
      rw [row_cons_error hc] at h
      rw [List.cons_append, row_cons_error hc]
      exact h

/-- Where a row has ended with an error: at a call that fails in the state that the calls before
it have left. -/
theorem row_error (calls : List (σ → Except ε σ)) (s : σ) (h : row calls s = (.error e, s')) :
    ∃ before call after, calls = before ++ call :: after ∧ row before s = (.ok (), s') ∧
      call s' = .error e := by
  induction calls generalizing s with
  | nil => cases (Prod.mk.inj h).1
  | cons call calls ih =>
    cases hc : call s with
    | ok s₁ =>
      rw [row_cons_ok hc] at h
      obtain ⟨before, call', after, rfl, hbefore, hcall⟩ := ih s₁ h
      exact ⟨call :: before, call', after, rfl, (row_cons_ok hc).trans hbefore, hcall⟩
    | error e' =>
      rw [row_cons_error hc] at h
      obtain ⟨herror, rfl⟩ := Prod.mk.inj h
      injection herror with herror
      exact ⟨[], call, calls, rfl, rfl, herror ▸ hc⟩

end CallRows
