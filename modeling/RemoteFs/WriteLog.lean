import RemoteFs.FileBytes

/-! # Logs of positioned writes

A store maps keys to contents and accepts writes at an offset of a key. Two laws are
assumed: contiguous writes fuse, and writes to disjoint ranges commute. -/
namespace WriteLog

structure Write (κ α : Type*) where
  key : κ
  offset : ℕ
  data : List α
  deriving DecidableEq, Repr

variable {σ κ α : Type*}

def Write.stop (w : Write κ α) : ℕ := w.offset + w.data.length

def Write.Disjoint (w v : Write κ α) : Prop :=
  w.key ≠ v.key ∨ w.stop ≤ v.offset ∨ v.stop ≤ w.offset

instance [DecidableEq κ] (w v : Write κ α) : Decidable (w.Disjoint v) :=
  inferInstanceAs (Decidable (_ ∨ _ ∨ _))

structure Store (σ κ α : Type*) where
  write : σ → κ → ℕ → List α → σ
  write_append : ∀ s k off a b, a ≠ [] → b ≠ [] →
    write (write s k off a) k (off + a.length) b = write s k off (a ++ b)
  write_comm : ∀ s (w v : Write κ α), w.data ≠ [] → v.data ≠ [] → w.Disjoint v →
    write (write s w.key w.offset w.data) v.key v.offset v.data =
      write (write s v.key v.offset v.data) w.key w.offset w.data

/-- An empty write sends nothing. -/
def Store.apply (S : Store σ κ α) (s : σ) (w : Write κ α) : σ :=
  if w.data = [] then s else S.write s w.key w.offset w.data

def Store.applyAll (S : Store σ κ α) (s : σ) (ws : List (Write κ α)) : σ :=
  ws.foldl S.apply s

section Laws

variable (S : Store σ κ α)

@[simp] theorem apply_empty (s : σ) (k : κ) (off : ℕ) : S.apply s ⟨k, off, []⟩ = s := by
  simp [Store.apply]

theorem apply_of_ne (s : σ) {w : Write κ α} (h : w.data ≠ []) :
    S.apply s w = S.write s w.key w.offset w.data := if_neg h

@[simp] theorem applyAll_nil (s : σ) : S.applyAll s [] = s := rfl

@[simp] theorem applyAll_cons (s : σ) (w : Write κ α) (ws : List (Write κ α)) :
    S.applyAll s (w :: ws) = S.applyAll (S.apply s w) ws := rfl

theorem applyAll_append (s : σ) (ws vs : List (Write κ α)) :
    S.applyAll s (ws ++ vs) = S.applyAll (S.applyAll s ws) vs := List.foldl_append

/-- Sending two contiguous pieces at once equals sending them one after the other. -/
theorem apply_fuse (s : σ) (k : κ) (off : ℕ) (a b : List α) :
    S.apply (S.apply s ⟨k, off, a⟩) ⟨k, off + a.length, b⟩ = S.apply s ⟨k, off, a ++ b⟩ := by
  by_cases ha : a = []
  · subst ha; simp
  by_cases hb : b = []
  · subst hb; simp
  have hab : a ++ b ≠ [] := by simp [ha]
  simp only [Store.apply, ha, hb, hab, ↓reduceIte]
  exact S.write_append s k off a b ha hb

theorem apply_comm (s : σ) {w v : Write κ α} (h : w.Disjoint v) :
    S.apply (S.apply s w) v = S.apply (S.apply s v) w := by
  by_cases hw : w.data = []
  · simp [Store.apply, hw]
  by_cases hv : v.data = []
  · simp [Store.apply, hv]
  simp only [apply_of_ne S _ hw, apply_of_ne S _ hv]
  exact S.write_comm s w v hw hv h

/-- A write may be sent before older ones that it does not meet. -/
theorem applyAll_promote (s : σ) (pre post : List (Write κ α)) (w : Write κ α)
    (h : ∀ v ∈ pre, v.Disjoint w) :
    S.applyAll s (pre ++ w :: post) = S.applyAll (S.apply s w) (pre ++ post) := by
  induction pre generalizing s with
  | nil => rfl
  | cons v pre ih =>
    simp only [List.cons_append, applyAll_cons]
    rw [ih _ (fun u hu => h u (List.mem_cons_of_mem _ hu)),
      apply_comm S s (h v List.mem_cons_self)]

end Laws

section Positions

variable [DecidableEq κ]

def Write.get (w : Write κ α) (k : κ) (x : ℕ) : Option α :=
  if w.key = k ∧ w.offset ≤ x then w.data[x - w.offset]? else none

theorem Write.get_eq_none {w : Write κ α} {k : κ} {x : ℕ} :
    w.get k x = none ↔ w.key ≠ k ∨ x < w.offset ∨ w.stop ≤ x := by
  unfold Write.get Write.stop
  split
  · rename_i h
    rw [List.getElem?_eq_none_iff]
    constructor
    · exact fun hlen => Or.inr (Or.inr (by omega))
    · rintro (hk | hx | hx)
      · exact (hk h.1).elim
      · omega
      · omega
  · rename_i h
    simp only [true_iff]
    by_cases hk : w.key = k
    · exact Or.inr (Or.inl (Nat.lt_of_not_le fun hx => h ⟨hk, hx⟩))
    · exact Or.inl hk

theorem Write.get_append (k k' : κ) (off x : ℕ) (a b : List α) :
    (Write.mk k off (a ++ b)).get k' x =
      ((Write.mk k (off + a.length) b).get k' x).or ((Write.mk k off a).get k' x) := by
  unfold Write.get
  dsimp only
  by_cases hk : k = k'
  · by_cases h₁ : x < off
    · rw [if_neg (by omega), if_neg (by omega), if_neg (by omega), Option.none_or]
    · by_cases h₂ : x < off + a.length
      · rw [if_pos ⟨hk, by omega⟩, if_neg (by omega), if_pos ⟨hk, by omega⟩, Option.none_or,
          List.getElem?_append_left (by omega)]
      · rw [if_pos ⟨hk, by omega⟩, if_pos ⟨hk, by omega⟩, if_pos ⟨hk, by omega⟩,
          List.getElem?_append_right (by omega),
          List.getElem?_eq_none (by omega : a.length ≤ x - off), Option.or_none]
        congr 1
        omega
  · simp only [hk, false_and, ↓reduceIte, Option.or_none]

/-- Two writes that do not meet have no position in common. -/
theorem Write.Disjoint.get {w v : Write κ α} (h : w.Disjoint v) (k : κ) (x : ℕ) :
    w.get k x = none ∨ v.get k x = none := by
  simp only [Write.get_eq_none]
  rcases h with h | h | h
  · by_cases hw : w.key = k
    · exact Or.inr (Or.inl fun hv => h (hw.trans hv.symm))
    · exact Or.inl (Or.inl hw)
  · rcases Nat.lt_or_ge x w.stop with hx | hx
    · exact Or.inr (Or.inr (Or.inl (by omega)))
    · exact Or.inl (Or.inr (Or.inr hx))
  · rcases Nat.lt_or_ge x v.stop with hx | hx
    · exact Or.inl (Or.inr (Or.inl (by omega)))
    · exact Or.inr (Or.inr (Or.inr hx))

/-- What the last write that covers a position put there. -/
def positions (κ α : Type*) [DecidableEq κ] : Store (κ → ℕ → Option α) κ α where
  write s k off d := fun k' x => ((Write.mk k off d).get k' x).or (s k' x)
  write_append := by
    intro s k off a b _ _
    funext k' x
    rw [Write.get_append, Option.or_assoc]
  write_comm := by
    intro s w v _ _ h
    funext k x
    have hswap : (v.get k x).or ((w.get k x).or (s k x)) =
        (w.get k x).or ((v.get k x).or (s k x)) := by
      rcases h.get k x with hn | hn
      · rw [hn, Option.none_or, Option.none_or]
      · rw [hn, Option.none_or, Option.none_or]
    exact hswap

theorem positions_apply (s : κ → ℕ → Option α) (w : Write κ α) (k : κ) (x : ℕ) :
    (positions κ α).apply s w k x = (w.get k x).or (s k x) := by
  by_cases h : w.data = []
  · rw [Store.apply, if_pos h, Write.get, h]
    simp
  · rw [apply_of_ne _ _ h]
    rfl

/-- Writes that do not cover a position leave it as it was. -/
theorem positions_applyAll {ws : List (Write κ α)} {k : κ} {x : ℕ}
    (h : ∀ w ∈ ws, w.get k x = none) (s : κ → ℕ → Option α) :
    (positions κ α).applyAll s ws k x = s k x := by
  induction ws generalizing s with
  | nil => rfl
  | cons w ws ih =>
    rw [applyAll_cons, ih (fun v hv => h v (List.mem_cons_of_mem _ hv)), positions_apply,
      h w List.mem_cons_self, Option.none_or]

end Positions

end WriteLog
