import Mathlib.Data.List.Basic

/-! # A notification that tasks wait for

`notify_one` wakes the task that has waited longest, and if none waits leaves a permit for the
next one. `notify_waiters` wakes all tasks that wait and leaves nothing. -/
namespace Notification

inductive Wake where
  | one
  | all
  deriving DecidableEq, Repr

structure Notify (ι : Type) where
  permit : Bool
  waiters : List ι
  woken : List (ι × Wake)
  permit_unused : permit = true → waiters = []

variable {ι : Type}

namespace Notify

def new : Notify ι := ⟨false, [], [], fun _ => rfl⟩

def notifyOne (n : Notify ι) : Notify ι :=
  match hw : n.waiters with
  | [] => { n with permit := true, permit_unused := fun _ => hw }
  | i :: rest =>
    { n with
      waiters := rest
      woken := (i, .one) :: n.woken
      permit_unused := fun h => by cases hw.symm.trans (n.permit_unused h) }

def notifyWaiters (n : Notify ι) : Notify ι :=
  { n with
    waiters := []
    woken := n.waiters.map (·, .all) ++ n.woken
    permit_unused := fun _ => rfl }

/-- A task begins to wait: it takes the permit or a place in the queue. -/
def wait (n : Notify ι) (i : ι) : Notify ι :=
  if hp : n.permit = true then
    { n with permit := false, woken := (i, .one) :: n.woken, permit_unused := nofun }
  else { n with waiters := n.waiters ++ [i], permit_unused := fun h => (hp h).elim }

def Available (n : Notify ι) (i : ι) : Prop := ∃ wake, (i, wake) ∈ n.woken

variable [DecidableEq ι]

instance (n : Notify ι) (i : ι) : Decidable (n.Available i) :=
  decidable_of_iff ((i, .one) ∈ n.woken ∨ (i, .all) ∈ n.woken)
    ⟨fun h => h.elim (⟨_, ·⟩) (⟨_, ·⟩), fun ⟨wake, h⟩ => by cases wake; exacts [.inl h, .inr h]⟩

def leave (n : Notify ι) (i : ι) : Notify ι :=
  { n with
    waiters := n.waiters.erase i
    woken := n.woken.filter (·.1 ≠ i)
    permit_unused := fun h => by rw [n.permit_unused h, List.erase_nil] }

/-- The task gives up waiting. What `notify_one` gave it is passed on. -/
def cancel (n : Notify ι) (i : ι) : Notify ι :=
  if (i, .one) ∈ n.woken then (n.leave i).notifyOne else n.leave i

end Notify

section Facts

variable {n : Notify ι} {i : ι}

theorem available_wait (h : n.permit = true) : (n.wait i).Available i := by
  rw [Notify.wait, dif_pos h]
  exact ⟨.one, List.mem_cons_self⟩

theorem wait_waiters (h : ¬n.permit = true) :
    (n.wait i).waiters = n.waiters ++ [i] ∧ (n.wait i).woken = n.woken := by
  rw [Notify.wait, dif_neg h]
  exact ⟨rfl, rfl⟩

theorem available_notifyWaiters (h : i ∈ n.waiters ∨ n.Available i) :
    n.notifyWaiters.Available i := by
  rcases h with h | ⟨wake, h⟩
  · exact ⟨.all, List.mem_append_left _ (List.mem_map.mpr ⟨i, h, rfl⟩)⟩
  · exact ⟨wake, List.mem_append_right _ h⟩

theorem notifyOne_permit (h : n.waiters = []) :
    n.notifyOne.permit = true ∧ n.notifyOne.waiters = [] ∧ n.notifyOne.woken = n.woken := by
  unfold Notify.notifyOne
  split
  · exact ⟨rfl, h, rfl⟩
  · rename_i hw
    cases h.symm.trans hw

theorem available_notifyOne (h : n.waiters = [i] ∨ n.Available i) : n.notifyOne.Available i := by
  unfold Notify.notifyOne
  split
  · rename_i hw
    rcases h with h | h
    · cases h.symm.trans hw
    · exact h
  · rename_i j rest hw
    rcases h with h | ⟨wake, h⟩
    · obtain ⟨rfl, -⟩ := List.cons.inj (hw.symm.trans h)
      exact ⟨.one, List.mem_cons_self⟩
    · exact ⟨wake, List.mem_cons_of_mem _ h⟩

end Facts

end Notification
