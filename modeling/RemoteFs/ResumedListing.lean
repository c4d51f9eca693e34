import Mathlib.Data.List.Sort
import Mathlib.Data.Set.Basic

/-! # Listings that are resumed behind an element

A reader takes an ordered listing in turns. In between the listing may change, and every turn
starts behind the element that was given last. -/
namespace ResumedListing

variable {α : Type*} [LinearOrder α]

def place (last : Option α) (l : List α) : ℕ :=
  match last with
  | none => 0
  | some m =>
    match l.findIdx? (· == m) with
    | some i => i + 1
    | none => 0

def resumed (last : Option α) (l : List α) : List α := l.drop (place last l)

def Found (last : Option α) (l : List α) : Prop := ∀ m ∈ last, m ∈ l ∨ ∀ x ∈ l, m < x

/-- What has been given, what every listing so far had, and whether the last one has been given
to its end. -/
structure Session (α : Type*) where
  given : List α
  throughout : Set α
  ended : Bool

namespace Session

def start : Session α := ⟨[], Set.univ, false⟩

def turn (s : Session α) (l : List α) (n : ℕ) : Session α where
  given := s.given ++ (resumed s.given.getLast? l).take n
  throughout := {x | x ∈ s.throughout ∧ x ∈ l}
  ended := decide ((resumed s.given.getLast? l).length ≤ n)

/-- Nothing is given twice or out of order, and what has not been given is still to come. -/
structure Sound (s : Session α) : Prop where
  increasing : s.given.Pairwise (· < ·)
  complete : ∀ x ∈ s.throughout, x ∈ s.given ∨ s.ended = false ∧ ∀ y ∈ s.given, y < x

end Session

section Resuming

variable {l given : List α} {last : Option α} {m x : α} {n : ℕ} {s : Session α}

theorem resumed_none (l : List α) : resumed none l = l := rfl

theorem resumed_lost (h : m ∉ l) : resumed (some m) l = l := by
  have hnone : l.findIdx? (· == m) = none := by
    simp only [List.findIdx?_eq_none_iff, beq_eq_false_iff_ne]
    exact fun x hx he => h (he ▸ hx)
  rw [resumed, place, hnone]
  rfl

theorem resumed_of_lost (h : ¬Found last l) : resumed last l = l := by
  simp only [Found, not_forall, not_or] at h
  obtain ⟨m, hm, hlost, -⟩ := h
  rw [Option.mem_def.mp hm, resumed_lost hlost]

/-- In an ordered listing, what is behind an element comes after it. -/
theorem resumed_split (before rest : List α) (h : (before ++ m :: rest).Pairwise (· < ·)) :
    resumed (some m) (before ++ m :: rest) = rest := by
  have hbefore : before.findIdx? (· == m) = none := by
    simp only [List.findIdx?_eq_none_iff, beq_eq_false_iff_ne]
    exact fun x hx => ((List.pairwise_append.mp h).2.2 x hx m List.mem_cons_self).ne
  have hplace : (before ++ m :: rest).findIdx? (· == m) = some before.length := by
    rw [List.findIdx?_append, hbefore, List.findIdx?_cons, beq_self_eq_true]
    simp
  rw [resumed, place, hplace]
  simp

theorem mem_resumed (hl : l.Pairwise (· < ·)) (hfound : Found last l) :
    x ∈ resumed last l ↔ x ∈ l ∧ ∀ m ∈ last, m < x := by
  cases last with
  | none => simp [resumed_none]
  | some m =>
    simp only [Option.mem_some_iff, forall_eq']
    by_cases hm : m ∈ l
    · obtain ⟨before, rest, rfl⟩ := List.append_of_mem hm
      rw [resumed_split before rest hl]
      obtain ⟨-, hrest, hbefore⟩ := List.pairwise_append.mp hl
      constructor
      · intro hx
        exact ⟨by simp [hx], (List.pairwise_cons.mp hrest).1 x hx⟩
      · rintro ⟨hx, hlt⟩
        rcases List.mem_append.mp hx with hx | hx
        · exact absurd (hbefore x hx m List.mem_cons_self) hlt.asymm
        · exact (List.mem_cons.mp hx).resolve_left fun he => hlt.ne he.symm
    · rw [resumed_lost hm]
      have hfront := (hfound m rfl).resolve_left hm
      exact ⟨fun hx => ⟨hx, hfront x hx⟩, And.left⟩

theorem resumed_increasing (hl : l.Pairwise (· < ·)) :
    (resumed last l).Pairwise (· < ·) :=
  hl.sublist (List.drop_sublist _ l)

theorem le_last (h : given.Pairwise (· < ·)) (hm : m ∈ given.getLast?) (hx : x ∈ given) :
    x ≤ m := by
  obtain ⟨front, rfl⟩ := List.getLast?_eq_some_iff.mp hm
  rcases List.mem_append.mp hx with hx | hx
  · exact ((List.pairwise_append.mp h).2.2 x hx m (List.mem_singleton_self m)).le
  · exact (List.mem_singleton.mp hx).le

theorem Session.sound_start : (start : Session α).Sound :=
  ⟨List.Pairwise.nil, fun _ _ => Or.inr ⟨rfl, nofun⟩⟩

theorem Session.Sound.turn (h : s.Sound) (hl : l.Pairwise (· < ·))
    (hfound : Found s.given.getLast? l) (n : ℕ) : (s.turn l n).Sound := by
  obtain ⟨rest, hrest⟩ : ∃ rest, resumed s.given.getLast? l = rest := ⟨_, rfl⟩
  have hmem : ∀ x, x ∈ rest ↔ x ∈ l ∧ ∀ m ∈ s.given.getLast?, m < x :=
    fun x => hrest ▸ mem_resumed hl hfound
  have hsorted : rest.Pairwise (· < ·) := hrest ▸ resumed_increasing hl
  have hgiven : ∀ y ∈ s.given, ∀ x ∈ rest, y < x := by
    intro y hy x hx
    have hlast := List.getLast?_isSome.mpr (List.ne_nil_of_mem hy)
    obtain ⟨m, hm⟩ := Option.isSome_iff_exists.mp hlast
    exact (le_last h.increasing hm hy).trans_lt (((hmem x).mp hx).2 m hm)
  rw [Session.turn, hrest]
  constructor
  · have htaken := hsorted.sublist (List.take_sublist n rest)
    exact List.pairwise_append.mpr
      ⟨h.increasing, htaken, fun y hy x hx => hgiven y hy x (List.mem_of_mem_take hx)⟩
  · rintro x ⟨hthrough, hx⟩
    rcases h.complete x hthrough with hin | ⟨-, hlater⟩
    · exact Or.inl (List.mem_append_left _ hin)
    have hxrest : x ∈ rest :=
      (hmem x).mpr ⟨hx, fun m hm => hlater m (List.mem_of_getLast? hm)⟩
    rw [← List.take_append_drop n rest] at hxrest hsorted
    rcases List.mem_append.mp hxrest with htaken | hleft
    · exact Or.inl (List.mem_append_right _ htaken)
    have hlong : ¬rest.length ≤ n := by
      intro hle
      rw [List.drop_of_length_le hle] at hleft
      cases hleft
    refine Or.inr ⟨decide_eq_false hlong, fun y hy => ?_⟩
    rcases List.mem_append.mp hy with hy | hy
    · exact hlater y hy
    · exact (List.pairwise_append.mp hsorted).2.2 y hy x hleft

/-- A listing without the element, and with some before it, starts the reader over. -/
theorem turn_lost (hl : l.Pairwise (· < ·)) (hfound : ¬Found s.given.getLast? l) (hn : 0 < n) :
    ¬(s.turn l n).given.Pairwise (· < ·) := by
  simp only [Found, not_forall, not_or, not_lt] at hfound
  obtain ⟨m, hm, hlost, x, hx, hle⟩ := hfound
  obtain ⟨first, rest, rfl⟩ := List.exists_cons_of_ne_nil (List.ne_nil_of_mem hx)
  obtain ⟨n, rfl⟩ := Nat.exists_eq_add_of_lt hn
  have hfirst : first ≤ x := by
    rcases List.mem_cons.mp hx with rfl | hx
    · exact le_rfl
    · exact ((List.pairwise_cons.mp hl).1 x hx).le
  intro h
  rw [Session.turn, Option.mem_def.mp hm, resumed_lost hlost, Nat.zero_add, List.take_succ_cons]
    at h
  have hlt := (List.pairwise_append.mp h).2.2 m (List.mem_of_getLast? hm) first List.mem_cons_self
  exact absurd hlt (hfirst.trans hle).not_gt

end Resuming

end ResumedListing
