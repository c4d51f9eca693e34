import Mathlib.Data.List.Nodup
import Mathlib.Order.Lattice.Nat

/-! # Recency lists

A bounded map as a list of pairs, the one used last in front. A map that stamps its entries with
the time of their last use is such a list, if the times fall strictly along it. -/
namespace RecencyList

variable {α β : Type}

abbrev Recency (α β : Type) := List (α × β)

def keys (l : Recency α β) : List α := l.map Prod.fst

def drop (l : Recency α β) (gone : α → Prop) [DecidablePred gone] : Recency α β :=
  l.filter (¬gone ·.1)

/-- The times of last use fall strictly along the list, and all lie in the past. -/
structure Timed (time : α → ℕ) (now : ℕ) (l : Recency α β) : Prop where
  falling : l.Pairwise fun a b => time b.1 < time a.1
  past : ∀ a ∈ l, time a.1 < now

variable {l : Recency α β} {k j : α} {v : β} {gone : α → Prop} [DecidablePred gone]
variable {time time' : α → ℕ} {now now' capacity : ℕ}

theorem keys_drop (l : Recency α β) (gone : α → Prop) [DecidablePred gone] :
    keys (drop l gone) = (keys l).filter (¬gone ·) := by
  rw [keys, keys, drop, List.filter_map]
  rfl

theorem mem_keys_drop : j ∈ keys (drop l gone) ↔ j ∈ keys l ∧ ¬gone j := by
  rw [keys_drop, List.mem_filter, decide_eq_true_iff]

theorem length_drop_le (l : Recency α β) (gone : α → Prop) [DecidablePred gone] :
    (drop l gone).length ≤ l.length := List.length_filter_le _ _

namespace Timed

theorem nodup (h : Timed time now l) : (keys l).Nodup := by
  rw [keys, List.nodup_iff_pairwise_ne, List.pairwise_map]
  refine h.falling.imp fun {a b} hlt heq => ?_
  rw [heq] at hlt
  exact Nat.lt_irrefl _ hlt

theorem mono (h : Timed time now l) (hle : now ≤ now') : Timed time now' l :=
  ⟨h.falling, fun a ha => (h.past a ha).trans_le hle⟩

theorem drop (h : Timed time now l) (gone : α → Prop) [DecidablePred gone] :
    Timed time now (drop l gone) :=
  ⟨h.falling.filter _, fun a ha => h.past a (List.mem_filter.mp ha).1⟩

theorem congr (h : Timed time now l) (hsame : ∀ j ∈ keys l, time' j = time j) :
    Timed time' now l := by
  have htime : ∀ a ∈ l, time' a.1 = time a.1 := fun a ha => hsame _ (List.mem_map_of_mem ha)
  constructor
  · refine h.falling.imp_of_mem fun {a b} ha hb hlt => ?_
    rwa [htime a ha, htime b hb]
  · intro a ha
    rw [htime a ha]
    exact h.past a ha

theorem last_least {a : α × β} (h : Timed time now l) (hlast : l.getLast? = some a)
    (hj : j ∈ keys l) (hle : time j ≤ time a.1) : j = a.1 := by
  obtain ⟨before, rfl⟩ := List.getLast?_eq_some_iff.mp hlast
  obtain ⟨b, hb, rfl⟩ := List.mem_map.mp hj
  rcases List.mem_append.mp hb with hb | hb
  · have hlt := (List.pairwise_append.mp h.falling).2.2 b hb a (List.mem_singleton_self a)
    omega
  · rw [List.mem_singleton.mp hb]

end Timed

variable [DecidableEq α]

def find (l : Recency α β) (k : α) : Option β := (l.find? (·.1 = k)).map Prod.snd

def use (l : Recency α β) (k : α) (v : β) : Recency α β := (k, v) :: drop l (· = k)

def get (l : Recency α β) (k : α) : Option β × Recency α β :=
  match find l k with
  | none => (none, l)
  | some v => (some v, use l k v)

/-- A present key has the new value merged into its own; a new key takes the place of the one
used least recently when the list is full. -/
def put (capacity : ℕ) (l : Recency α β) (k : α) (fresh : β) (merge : β → β) : Recency α β :=
  match find l k with
  | some v => use l k (merge v)
  | none => use (if capacity ≤ l.length then l.dropLast else l) k fresh

theorem find_isSome : (find l k).isSome ↔ k ∈ keys l := by
  simp [find, keys]

theorem find_eq_none : find l k = none ↔ k ∉ keys l := by
  rw [← find_isSome, ← Option.not_isSome_iff_eq_none]

theorem find_cons (l : Recency α β) (k j : α) (v : β) :
    find ((k, v) :: l) j = if k = j then some v else find l j := by
  by_cases h : k = j <;> simp [find, h]

theorem find_drop (h : ¬gone j) : find (drop l gone) j = find l j := by
  induction l with
  | nil => rfl
  | cons a l ih =>
    obtain ⟨k, v⟩ := a
    unfold drop at ih ⊢
    by_cases hk : gone k
    · have hne : k ≠ j := by
        rintro rfl
        exact h hk
      rw [List.filter_cons_of_neg (by simpa using hk), find_cons, if_neg hne, ih]
    · rw [List.filter_cons_of_pos (by simpa using hk), find_cons, find_cons, ih]

theorem find_dropped (h : gone j) : find (drop l gone) j = none := by
  rw [find_eq_none, mem_keys_drop]
  exact fun hj => hj.2 h

theorem find_use_self (l : Recency α β) (k : α) (v : β) : find (use l k v) k = some v := by
  rw [use, find_cons, if_pos rfl]

theorem find_use_ne (h : j ≠ k) (v : β) : find (use l k v) j = find l j := by
  have hkept : find (drop l (· = k)) j = find l j := find_drop h
  rw [use, find_cons, if_neg fun heq => h heq.symm, hkept]

theorem keys_use (l : Recency α β) (k : α) (v : β) :
    keys (use l k v) = k :: (keys l).filter (· ≠ k) := by
  rw [use, keys, List.map_cons]
  exact congrArg _ (keys_drop l _)

/-- A use at a later time brings its key to the front. -/
theorem Timed.use (h : Timed time now l) (hk : time' k = now)
    (hsame : ∀ j, j ≠ k → time' j = time j) (v : β) : Timed time' (now + 1) (use l k v) := by
  have hrest : Timed time' now (RecencyList.drop l (· = k)) := by
    refine (h.drop (· = k)).congr fun j hj => hsame j ?_
    exact (mem_keys_drop.mp hj).2
  constructor
  · refine List.pairwise_cons.mpr ⟨fun b hb => ?_, hrest.falling⟩
    rw [hk]
    exact hrest.past b hb
  · intro a ha
    rcases List.mem_cons.mp ha with rfl | ha
    · exact hk.trans_lt (Nat.lt_succ_self now)
    · exact (hrest.past a ha).trans (Nat.lt_succ_self now)

theorem Timed.dropLast {a : α × β} (h : Timed time now l) (hlast : l.getLast? = some a) :
    l.dropLast = RecencyList.drop l (· = a.1) := by
  have hnodup := h.nodup
  obtain ⟨before, rfl⟩ := List.getLast?_eq_some_iff.mp hlast
  rw [keys, List.map_append, List.nodup_append] at hnodup
  have hbefore : before.filter (fun b => ¬b.1 = a.1) = before := by
    refine List.filter_eq_self.mpr fun b hb => ?_
    rw [decide_eq_true_iff]
    exact hnodup.2.2 _ (List.mem_map_of_mem hb) _ (List.mem_map_of_mem (List.mem_singleton_self a))
  rw [List.dropLast_concat, RecencyList.drop, List.filter_append, hbefore]
  simp

theorem length_use_le (l : Recency α β) (k : α) (v : β) :
    (use l k v).length ≤ l.length + 1 := Nat.succ_le_succ (length_drop_le l _)

theorem length_use_mem (hk : k ∈ keys l) (v : β) : (use l k v).length ≤ l.length := by
  obtain ⟨a, ha, rfl⟩ := List.mem_map.mp hk
  have hlt : (drop l (· = a.1)).length < l.length := by
    refine List.length_filter_lt_length_iff_exists.mpr ⟨a, ha, ?_⟩
    simp
  exact hlt

theorem length_put (hcap : 1 ≤ capacity) (h : l.length ≤ capacity) (k : α) (fresh : β)
    (merge : β → β) : (put capacity l k fresh merge).length ≤ capacity := by
  unfold put
  cases hf : find l k with
  | some v =>
    have hk : k ∈ keys l := find_isSome.mp (by rw [hf]; rfl)
    exact (length_use_mem hk _).trans h
  | none =>
    refine (length_use_le _ _ _).trans ?_
    split
    · rw [List.length_dropLast]
      omega
    · omega

theorem length_get (l : Recency α β) (k : α) : (get l k).2.length ≤ l.length := by
  unfold get
  cases hf : find l k with
  | none => exact le_rfl
  | some v => exact length_use_mem (find_isSome.mp (by rw [hf]; rfl)) _

end RecencyList
