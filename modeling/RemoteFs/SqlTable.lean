import Mathlib.Data.List.Basic
import Mathlib.Data.List.Pairwise

/-! # Tables with unique keys

A table is a list of rows, no two of which conflict; a key makes rows with equal key columns
conflict. A statement computes the new rows and fails as a whole where two of them would
conflict. -/
namespace SqlTable

variable {ρ : Type*} {conflict : ρ → ρ → Prop}

structure Table {ρ : Type*} (conflict : ρ → ρ → Prop) where
  rows : List ρ
  distinct : rows.Pairwise fun a b => ¬conflict a b

namespace Table

def empty (conflict : ρ → ρ → Prop) : Table conflict := ⟨[], List.Pairwise.nil⟩

def select (t : Table conflict) (p : ρ → Bool) : List ρ := t.rows.filter p

def count (t : Table conflict) (p : ρ → Bool) : ℕ := (t.select p).length

def commit [DecidableRel conflict] (rows : List ρ) : Option (Table conflict) :=
  if h : rows.Pairwise fun a b => ¬conflict a b then some ⟨rows, h⟩ else none

def insert [DecidableRel conflict] (t : Table conflict) (row : ρ) : Option (Table conflict) :=
  commit (t.rows ++ [row])

def updated (t : Table conflict) (p : ρ → Bool) (f : ρ → ρ) : List ρ :=
  t.rows.map fun r => if p r then f r else r

def update [DecidableRel conflict] (t : Table conflict) (p : ρ → Bool) (f : ρ → ρ) :
    Option (Table conflict) := commit (t.updated p f)

def delete (t : Table conflict) (p : ρ → Bool) : Table conflict :=
  ⟨t.rows.filter fun r => !p r, t.distinct.filter _⟩

section Lemmas

variable {t t' : Table conflict} {row r : ρ} {p q : ρ → Bool} {f : ρ → ρ}

theorem ext_rows (h : t.rows = t'.rows) : t = t' := by
  cases t
  cases t'
  cases h
  rfl

theorem mem_select : r ∈ t.select p ↔ r ∈ t.rows ∧ p r = true := List.mem_filter

@[simp] theorem mem_delete : r ∈ (t.delete p).rows ↔ r ∈ t.rows ∧ p r = false := by
  simp [delete]

theorem commit_eq_some [DecidableRel conflict] {rows : List ρ} :
    commit rows = some t ↔ t.rows = rows := by
  unfold commit
  constructor
  · intro h
    split at h
    · injection h with h
      rw [← h]
    · cases h
  · rintro rfl
    rw [dif_pos t.distinct]

theorem count_eq_zero : t.count p = 0 ↔ ∀ r ∈ t.rows, p r = false := by
  rw [count, List.length_eq_zero_iff, select, List.filter_eq_nil_iff]
  simp only [Bool.not_eq_true]

theorem insert_eq_some [DecidableRel conflict] :
    t.insert row = some t' ↔ t'.rows = t.rows ++ [row] := commit_eq_some

theorem insert_ok [DecidableRel conflict] (h : ∀ r ∈ t.rows, ¬conflict r row) :
    ∃ t', t.insert row = some t' ∧ t'.rows = t.rows ++ [row] := by
  refine ⟨⟨t.rows ++ [row], ?_⟩, insert_eq_some.mpr rfl, rfl⟩
  refine List.pairwise_append.mpr ⟨t.distinct, List.pairwise_singleton _ _, ?_⟩
  intro a ha b hb
  obtain rfl := List.mem_singleton.mp hb
  exact h a ha

theorem insert_conflict [DecidableRel conflict] (hr : r ∈ t.rows) (hc : conflict r row) :
    t.insert row = none := by
  rw [Option.eq_none_iff_forall_ne_some]
  intro t' h
  have hd := t'.distinct
  rw [insert_eq_some.mp h, List.pairwise_append] at hd
  exact hd.2.2 r hr row (List.mem_singleton_self row) hc

theorem update_ok [DecidableRel conflict]
    (h : ∀ a ∈ t.rows, ∀ b ∈ t.rows,
      conflict (if p a then f a else a) (if p b then f b else b) → conflict a b) :
    ∃ t', t.update p f = some t' ∧ t'.rows = t.updated p f := by
  have hd : (t.updated p f).Pairwise fun a b => ¬conflict a b :=
    List.pairwise_map.mpr (t.distinct.imp_of_mem fun ha hb hab hc => hab (h _ ha _ hb hc))
  exact ⟨⟨_, hd⟩, commit_eq_some.mpr rfl, rfl⟩

/-- An update that makes two rows conflict fails. -/
theorem update_eq_none [DecidableRel conflict] (hsymm : ∀ a b, conflict a b → conflict b a)
    {a b : ρ} (ha : a ∈ t.rows) (hb : b ∈ t.rows) (hne : a ≠ b)
    (hc : conflict (if p a then f a else a) (if p b then f b else b)) : t.update p f = none := by
  rw [Option.eq_none_iff_forall_ne_some]
  intro t' h
  have hd := t'.distinct
  rw [commit_eq_some.mp h, updated, List.pairwise_map] at hd
  have : Std.Symm fun a b => ¬conflict (if p a then f a else a) (if p b then f b else b) :=
    ⟨fun _ _ hab hba => hab (hsymm _ _ hba)⟩
  exact hd.forall ha hb hne hc

theorem updated_none (h : ∀ r ∈ t.rows, p r = false) : t.updated p f = t.rows := by
  rw [updated]
  conv_rhs => rw [← List.map_id t.rows]
  exact List.map_congr_left fun r hr => by rw [h r hr]; rfl

theorem select_of_key (hkey : ∀ a b, p a = true → p b = true → conflict a b)
    (hr : r ∈ t.rows) (hp : p r = true) : t.select p = [r] := by
  have hmem : r ∈ t.select p := mem_select.mpr ⟨hr, hp⟩
  have hd : (t.select p).Pairwise fun a b => ¬conflict a b := t.distinct.filter _
  have hall : ∀ a ∈ t.select p, p a = true := fun a ha => (mem_select.mp ha).2
  generalize t.select p = rows at hmem hd hall
  cases rows with
  | nil => cases hmem
  | cons a rest =>
    cases rest with
    | nil => rw [List.mem_singleton.mp hmem]
    | cons b rest =>
      have hb : b ∈ a :: b :: rest := List.mem_cons_of_mem _ List.mem_cons_self
      exact (List.rel_of_pairwise_cons hd List.mem_cons_self
        (hkey a b (hall a List.mem_cons_self) (hall b hb))).elim

theorem head_select_eq_some (hkey : ∀ a b, p a = true → p b = true → conflict a b) :
    (t.select p).head? = some r ↔ r ∈ t.rows ∧ p r = true := by
  constructor
  · exact fun h => mem_select.mp (List.mem_of_head? h)
  · rintro ⟨hr, hp⟩
    rw [select_of_key hkey hr hp]
    rfl

theorem head_select_eq_none : (t.select p).head? = none ↔ ∀ r ∈ t.rows, p r = false := by
  rw [List.head?_eq_none_iff, select, List.filter_eq_nil_iff]
  simp only [Bool.not_eq_true]

theorem count_pos : 0 < t.count p ↔ (t.select p).head? ≠ none := by
  rw [Nat.pos_iff_ne_zero, Ne, count_eq_zero, Ne, head_select_eq_none]

theorem count_le_one (hkey : ∀ a b, p a = true → p b = true → conflict a b) :
    t.count p ≤ 1 := by
  by_cases h : t.select p = []
  · rw [count, h]
    exact Nat.zero_le 1
  · obtain ⟨r, hr⟩ := List.exists_mem_of_ne_nil _ h
    obtain ⟨hmem, hp⟩ := mem_select.mp hr
    rw [count, select_of_key hkey hmem hp]
    exact Nat.le_refl _

theorem count_eq_one (hkey : ∀ a b, p a = true → p b = true → conflict a b) (hr : r ∈ t.rows)
    (hp : p r = true) : t.count p = 1 := by
  rw [count, select_of_key hkey hr hp]
  rfl

end Lemmas

end Table

end SqlTable
