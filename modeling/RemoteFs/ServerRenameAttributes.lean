import RemoteFs.ServerAtomicity

/-! # The extended attributes of what a rename moves

The table knows a path only as the text of the request, so the statement of a rename moves the
attributes of that one text. -/
namespace ServerRenameAttributes

open OsPaths
open PosixTree
open PosixFileTree
open ServerStorage
open ServerFileSystem
open ServerExchange
open ServerXattributes
open ServerXattributeMoves
open ServerRequests

def Relative (s : String) : Prop := s.toList.head? ≠ some '/'

def joined (p s : String) : String :=
  if s = "" then p
  else if p = "" ∨ p.toList.getLast? = some '/' then p ++ s
  else p ++ "/" ++ s

structure Follows (x x' : AttrMap) (a b : String) : Prop where
  moved : ∀ s, Relative s → ∀ name, x' (joined b s) name = x (joined a s) name
  gone : ∀ s, Relative s → ∀ name, x' (joined a s) name = none
  kept : ∀ p, (∀ s, Relative s → p ≠ joined a s) → (∀ s, Relative s → p ≠ joined b s) →
    ∀ name, x' p name = x p name

/-- Nothing below `a` or `b` has attributes, nor has `b`; a path that is moved to itself has
none either. -/
structure Alone (x : AttrMap) (a b : String) : Prop where
  new : b ≠ a → ∀ name, x b name = none
  belowOld : ∀ s, Relative s → s ≠ "" → ∀ name, x (joined a s) name = none
  belowNew : ∀ s, Relative s → s ≠ "" → joined b s ≠ a → ∀ name, x (joined b s) name = none
  old : (∃ s, Relative s ∧ b = joined a s) → ∀ name, x a name = none

section Maps

variable {x : AttrMap} {a b p s : String}

theorem relative_empty : Relative "" := nofun

theorem joined_empty : joined p "" = p := if_pos rfl

theorem joined_length (h : s ≠ "") : p.length < (joined p s).length := by
  have hpos : s.length ≠ 0 := fun hz => h (String.length_eq_zero_iff.mp hz)
  unfold joined
  rw [if_neg h]
  split
  · rw [String.length_append]
    omega
  · rw [String.length_append, String.length_append]
    omega

theorem joined_ne (h : s ≠ "") : joined p s ≠ p := by
  intro he
  have hlen := joined_length (p := p) h
  rw [he] at hlen
  omega

theorem alone_of_follows (hc : ¬Clash x a b) (h : Follows x (pathMoved x b a) a b) :
    Alone x a b := by
  have hnew : b ≠ a → ∀ name, x b name = none := by
    intro hne name
    have hm := h.moved "" relative_empty name
    rw [joined_empty, joined_empty, pathMoved_new hne.symm] at hm
    by_contra hb
    have ha : x a name = none := by
      by_contra ha
      exact hc ⟨hne.symm, name, ha, hb⟩
    rw [ha, Option.none_or] at hm
    exact hb hm
  have hold : ∀ s, Relative s → s ≠ "" → ∀ name, x (joined a s) name = none := by
    intro s hs hne name
    have hg := h.gone s hs name
    by_cases hb : joined a s = b
    · rw [hb]
      exact hnew (fun he => joined_ne hne (hb.trans he)) name
    · rwa [pathMoved_other hb (joined_ne hne)] at hg
  refine ⟨hnew, hold, ?_, ?_⟩
  · intro s hs hne ha name
    have hm := h.moved s hs name
    rwa [hold s hs hne, pathMoved_other (joined_ne hne) ha] at hm
  · rintro ⟨s, hs, hb⟩ name
    have hm := h.moved "" relative_empty name
    have hg := h.gone s hs name
    rw [joined_empty, joined_empty] at hm
    rw [← hb] at hg
    exact hm.symm.trans hg

theorem follows_of_alone (h : Alone x a b) : Follows x (pathMoved x b a) a b := by
  refine ⟨?_, ?_, ?_⟩
  · intro s hs name
    by_cases hne : s = ""
    · rw [hne, joined_empty, joined_empty]
      by_cases hba : b = a
      · rw [hba, pathMoved_self]
      · rw [pathMoved_new (Ne.symm hba), h.new hba, Option.or_none]
    · rw [h.belowOld s hs hne]
      by_cases ha : joined b s = a
      · rw [ha]
        refine pathMoved_old (fun hab => ?_) name
        exact joined_ne hne (ha.trans hab)
      · rw [pathMoved_other (joined_ne hne) ha]
        exact h.belowNew s hs hne ha name
  · intro s hs name
    by_cases hne : s = ""
    · rw [hne, joined_empty]
      by_cases hba : b = a
      · rw [hba, pathMoved_self]
        exact h.old ⟨"", relative_empty, hba.trans joined_empty.symm⟩ name
      · exact pathMoved_old (Ne.symm hba) name
    · by_cases hb : joined a s = b
      · have hba : b ≠ a := fun he => joined_ne hne (hb.trans he)
        rw [hb, pathMoved_new hba.symm, h.new hba, h.old ⟨s, hs, hb.symm⟩]
        rfl
      · rw [pathMoved_other hb (joined_ne hne)]
        exact h.belowOld s hs hne name
  · intro p ha hb name
    refine pathMoved_other ?_ ?_ name
    · exact fun hp => hb "" relative_empty (hp.trans joined_empty.symm)
    · exact fun hp => ha "" relative_empty (hp.trans joined_empty.symm)

end Maps

/-- The attributes follow a rename that succeeds exactly if only the renamed path itself has
any. -/
theorem attributes_follow_iff (fs : FileSystem) (s : Server) (user : AuthenticatedUser)
    (m : Moment) (oldPath newPath : String) (flags : ℕ)
    (hx : (RenameFlags.fromBitsTruncate flags).exchange = false)
    (h : (serve fs s user m (.rename oldPath newPath flags)).1 = .ok .done) :
    Follows (attrs s.xattributes)
        (attrs (serve fs s user m (.rename oldPath newPath flags)).2.xattributes) oldPath newPath ↔
      Alone (attrs s.xattributes) oldPath newPath := by
  obtain ⟨t, x, -, htable, heq⟩ := rename_ok hx h
  have hserve : serve fs s user m (.rename oldPath newPath flags) = (.ok .done, ⟨t, x⟩) := heq
  rw [hserve]
  have hc : ¬Clash (attrs s.xattributes) oldPath newPath := by
    refine updatePath_ok ?_
    rw [renameXAttributes] at htable
    rw [htable]
  obtain ⟨x', hx', hattrs⟩ := updatePath_attrs hc
  obtain rfl : x' = x := by
    rw [renameXAttributes, hx'] at htable
    exact (Prod.mk.inj htable).2
  dsimp only
  rw [hattrs]
  exact ⟨alone_of_follows hc, follows_of_alone⟩

def nested (path : String) : Server :=
  ⟨.ofList [([], directoryInode), ([.text "srv"], directoryInode),
      ([.text "srv", .text "a"], fileInode [1]), ([.text "srv", .text "d"], directoryInode),
      ([.text "srv", .text "d", .text "f"], fileInode [2])] (by decide) (by decide),
    ⟨[⟨path, "user.tag", [1]⟩], List.pairwise_singleton _ _⟩⟩

/-- A directory is renamed; the attribute of the file in it stays at the old path. -/
theorem attributes_stay_behind :
    let s := nested "/d/f"
    let r := serve exported s ⟨0, 0⟩ ⟨⟨0, 0⟩, 4096⟩ (.rename "/d" "/e" 0)
    r.1 = .ok .done ∧ attrs r.2.xattributes "/d/f" "user.tag" = some [1] ∧
      ¬Follows (attrs s.xattributes) (attrs r.2.xattributes) "/d" "/e" := by
  have hstays : attrs (serve exported (nested "/d/f") ⟨0, 0⟩ ⟨⟨0, 0⟩, 4096⟩
      (.rename "/d" "/e" 0)).2.xattributes "/d/f" "user.tag" = some [1] := by decide
  refine ⟨by decide, hstays, fun h => ?_⟩
  have hgone := h.gone "f" (by unfold Relative; decide) "user.tag"
  have hpath : joined "/d" "f" = "/d/f" := by decide
  rw [hpath] at hgone
  cases hgone.symm.trans hstays

theorem attributes_follow_file :
    let s := nested "/a"
    let r := serve exported s ⟨7, 7⟩ ⟨⟨0, 0⟩, 4096⟩ (.rename "/a" "/c" 0)
    r.1 = .ok .done ∧ Follows (attrs s.xattributes) (attrs r.2.xattributes) "/a" "/c" := by
  have hok : (serve exported (nested "/a") ⟨7, 7⟩ ⟨⟨0, 0⟩, 4096⟩ (.rename "/a" "/c" 0)).1 =
      .ok .done := by decide
  have hnone : ∀ p, p ≠ "/a" → ∀ name, attrs (nested "/a").xattributes p name = none := by
    intro p hp name
    refine attrs_eq_none.mpr fun r hr => ?_
    obtain rfl := List.mem_singleton.mp hr
    exact decide_eq_false fun hk => hp hk.1.symm
  refine ⟨hok, (attributes_follow_iff exported (nested "/a") ⟨7, 7⟩ _ "/a" "/c" 0 (by decide)
    hok).mpr ⟨fun hne => hnone _ hne, fun s _ hs => hnone _ (joined_ne hs),
      fun s _ _ hne => hnone _ hne, ?_⟩⟩
  rintro ⟨s, -, hs⟩
  by_cases hempty : s = ""
  · rw [hempty, joined_empty] at hs
    exact absurd hs (by decide)
  · have hlen := joined_length (p := "/a") hempty
    rw [← hs] at hlen
    exact absurd hlen (by decide)

end ServerRenameAttributes
