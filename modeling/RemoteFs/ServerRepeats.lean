import RemoteFs.ServerGrowth

/-! # Creations and deletions that are executed again

A call that fails leaves the tree as it was, so it fails again. After a directory or a link was
made, or an object was deleted, a second call is refused. -/
namespace ServerRepeats

open ClientAttributes
open OsPaths
open PosixTree
open PosixFileTree
open PosixCalls
open PosixWays
open ServerPaths
open ServerAccess
open ServerStorage
open ServerFileSystem
open ServerGrowth

def Vacant (t : FileTree) (p : Path) : Prop :=
  ∃ l, place t.objects p = some l ∧ t.objects l = none

section Creations

variable {t t' : FileTree} {p : Path} {i : Inode} {l : Location} {now : Timestamp}

theorem lstat_vacant (h : Vacant t p) : lstat t.objects p = none := by
  obtain ⟨l, hl, hfree⟩ := h
  rw [lstat_of_place hl, hfree]
  rfl

theorem create_vacant (h : Vacant t p) : ∃ t', create t p i = .ok t' := by
  obtain ⟨l, hl, hfree⟩ := h
  unfold create
  split
  · rename_i hnone
    cases hnone.symm.trans hl
  · rename_i l' hl'
    obtain rfl := Option.some.inj (hl'.symm.trans hl)
    rw [dif_pos hfree]
    exact ⟨_, rfl⟩

theorem create_taken (h : ¬Vacant t p) : ∃ e, create t p i = .error e := by
  unfold create
  split
  · exact ⟨_, rfl⟩
  · rename_i l hl
    split
    · rename_i hfree
      exact (h ⟨l, hl, hfree⟩).elim
    · exact ⟨_, rfl⟩

theorem lstat_created (h : create t p i = .ok t') : ∃ l, lstat t'.objects p = some (l, i) := by
  obtain ⟨l, hl, hfree, ho⟩ := create_ok h
  have hl' := place_grows t.grounded t'.grounded (grows_of_free hfree ho) hl
  refine ⟨l, ?_⟩
  rw [lstat_of_place hl', ho, Function.update_self]
  rfl

theorem target_of_lstat {t : Tree} (h : lstat t p = some (l, i)) (hi : i.kind.look.isLink = false) :
    target t p = some (l, i) := by
  obtain ⟨hl, hobj⟩ := objectAt_some.mp h
  refine objectAt_some.mpr ⟨walk_follow ?_ _ _ _ hl, hobj⟩
  rwa [look_some hobj]

theorem setOwner_ok (user : AuthenticatedUser) (now : Timestamp)
    (h : target t.objects p = some (l, i)) :
    ∃ t', ServerFileSystem.setOwner t user p now = (.ok (), t') ∧ t'.objects =
      Function.update t.objects l
        (some (i.chown user.userId user.groupId now)) ∧
      Grows t.objects t'.objects := by
  unfold ServerFileSystem.setOwner
  split
  · rename_i t' ht'
    have hgrows := chown_grows ht'
    unfold chown at ht'
    split at ht'
    · cases ht'
    · rename_i l' i' htarget
      obtain ⟨rfl, rfl⟩ := Prod.mk.inj (Option.some.inj (htarget.symm.trans h))
      exact ⟨t', rfl, (congrArg FileTree.objects (Except.ok.inj ht')).symm, hgrows⟩
  · rename_i e he
    unfold chown at he
    split at he
    · rename_i hnone
      cases hnone.symm.trans h
    · cases he

end Creations

section Storage

variable {fs : FileSystem} {t : FileTree} {user : AuthenticatedUser} {path name : Path}
variable {len : ℕ} {now : Timestamp} {target : String}

theorem makeDir_vacant (fs : FileSystem) (user : AuthenticatedUser) (len : ℕ) (now : Timestamp)
    (h : Vacant t ((makeRealPath fs.realPath path).join name)) :
    ∃ t', makeDir fs t user path name len now = (.ok (), t') ∧ t'.objects ≠ t.objects ∧
      Named t'.objects ((makeRealPath fs.realPath path).join name) := by
  obtain ⟨t₁, ht₁⟩ := create_vacant (i := ⟨.directory len, 0o040755, 0, 0, now, now, now⟩) h
  obtain ⟨l, hl, hfree, -⟩ := create_ok ht₁
  obtain ⟨l', hl'⟩ := lstat_created ht₁
  obtain ⟨t₂, ht₂, ho₂, hgrows⟩ := setOwner_ok user now (target_of_lstat hl' rfl)
  have hnamed : Named t₂.objects ((makeRealPath fs.realPath path).join name) :=
    Named.grows (by rw [Named, hl']; exact nofun) hgrows
  refine ⟨t₂, ?_, fun he => ?_, hnamed⟩
  · unfold makeDir
    dsimp only
    rw [if_neg (by rw [lstat_vacant h]; exact nofun), mkdir, ht₁]
    exact ht₂
  · rw [he] at hnamed
    exact hnamed (lstat_vacant h)

theorem makeDir_taken (fs : FileSystem) (user : AuthenticatedUser) (len : ℕ) (now : Timestamp)
    (h : ¬Vacant t ((makeRealPath fs.realPath path).join name)) :
    ∃ e, makeDir fs t user path name len now = (.error e, t) := by
  unfold makeDir
  dsimp only
  split
  · exact ⟨_, rfl⟩
  · obtain ⟨e, he⟩ := create_taken (i := ⟨.directory len, 0o040755, 0, 0, now, now, now⟩) h
    rw [mkdir, he]
    exact ⟨_, rfl⟩

theorem makeDir_named (h : Named t.objects ((makeRealPath fs.realPath path).join name)) :
    makeDir fs t user path name len now = (.error .alreadyExists, t) := by
  unfold makeDir
  dsimp only
  rw [if_pos (Option.isSome_iff_ne_none.mpr h)]

theorem createSymlink_vacant (now : Timestamp) (htarget : target ≠ "")
    (h : Vacant t (makeRealPath fs.realPath path)) :
    ∃ a t', ServerFileSystem.createSymlink fs t path target now = (.ok a, t') ∧
      t'.objects ≠ t.objects ∧ Named t'.objects (makeRealPath fs.realPath path) := by
  obtain ⟨t', ht'⟩ := create_vacant (i := ⟨.symlink target, 0o120777, 0, 0, now, now, now⟩) h
  obtain ⟨l, hl⟩ := lstat_created ht'
  have hnamed : Named t'.objects (makeRealPath fs.realPath path) := by
    rw [Named, hl]
    exact nofun
  refine ⟨fileAttr ⟨.symlink target, 0o120777, 0, 0, now, now, now⟩, t', ?_, fun he => ?_,
    hnamed⟩
  · unfold ServerFileSystem.createSymlink
    dsimp only
    rw [if_neg (by rw [lstat_vacant h]; exact nofun), symlink, if_neg htarget, ht']
    dsimp only
    rw [getAttributesByPath, hl]
  · rw [he] at hnamed
    exact hnamed (lstat_vacant h)

theorem createSymlink_taken (target : String) (now : Timestamp)
    (h : ¬(target ≠ "" ∧ Vacant t (makeRealPath fs.realPath path))) :
    ∃ e, ServerFileSystem.createSymlink fs t path target now = (.error e, t) := by
  unfold ServerFileSystem.createSymlink
  dsimp only
  split
  · exact ⟨_, rfl⟩
  · by_cases htarget : target = ""
    · rw [symlink, if_pos htarget]
      exact ⟨_, rfl⟩
    · obtain ⟨e, he⟩ := create_taken (i := ⟨.symlink target, 0o120777, 0, 0, now, now, now⟩)
        fun hvacant => h ⟨htarget, hvacant⟩
      rw [symlink, if_neg htarget, he]
      exact ⟨_, rfl⟩

theorem createSymlink_named (h : Named t.objects (makeRealPath fs.realPath path)) :
    ServerFileSystem.createSymlink fs t path target now = (.error .alreadyExists, t) := by
  unfold ServerFileSystem.createSymlink
  dsimp only
  rw [if_pos (Option.isSome_iff_ne_none.mpr h)]

/-- An object that may be deleted: it has a name, and nothing in it. -/
def Removable (t : FileTree) (p : Path) : Prop :=
  ∃ l, place t.objects p = some l ∧ t.objects l ≠ none ∧
    (look t.objects l = .directory → t.entries l = [])

theorem delete_ok (h : Removable t (makeRealPath fs.realPath path)) :
    ∃ t', delete fs t path = (.ok (), t') := by
  obtain ⟨l, hl, hne, hempty⟩ := h
  obtain ⟨i, hi⟩ := Option.ne_none_iff_exists'.mp hne
  unfold delete
  dsimp only
  rw [lstat_of_place hl, hi, Option.map_some]
  dsimp only
  rw [look_some hi] at hempty
  cases hkind : i.kind with
  | directory len =>
    rw [hkind] at hempty
    dsimp only
    rw [if_neg (not_not.mpr (hempty rfl))]
    obtain ⟨t', ht'⟩ := rmdir_of_place hl hne (by rw [look_some hi, hkind]; rfl) (hempty rfl)
    exact ⟨t', by rw [ht']; rfl⟩
  | _ =>
    obtain ⟨t', ht'⟩ := unlink_of_place hl hne (by rw [look_some hi, hkind]; exact nofun)
    exact ⟨t', by rw [ht']; rfl⟩

theorem not_named_of_freed {p : Path} {l : Location} {t' : FileTree}
    (hl : place t.objects p = some l) (ho : t'.objects = Function.update t.objects l none) :
    ¬Named t'.objects p := by
  intro hnamed
  obtain ⟨k, hk, hobj⟩ := named_iff.mp hnamed
  have hagree : Agree (look t.objects) (look t'.objects) := by
    intro m _ hm
    by_cases hml : m = l
    · rw [hml, ho] at hm
      exact (hm (look_missing.mpr (Function.update_self ..))).elim
    · rw [ho, look, Function.update_of_ne hml, look]
  have hplace : place t'.objects p = some k := by
    obtain ⟨_, n, hn, -⟩ := (place_eq_some t.grounded).mp hl
    unfold place
    rw [hn]
    exact hk
  obtain rfl := place_agree t.grounded t'.grounded hagree hl hplace
  rw [ho, Function.update_self] at hobj
  exact hobj rfl

theorem delete_removable (h : Removable t (makeRealPath fs.realPath path)) :
    ∃ t', delete fs t path = (.ok (), t') ∧ t'.objects ≠ t.objects ∧
      ¬Named t'.objects (makeRealPath fs.realPath path) := by
  obtain ⟨t', ht'⟩ := delete_ok h
  rcases delete_cases fs t path with ⟨e, he⟩ | ⟨l, t₁, hl, hobj, ho, he⟩
  · cases he.symm.trans ht'
  obtain rfl := (Prod.mk.inj (he.symm.trans ht')).2
  refine ⟨t₁, ht', fun hsame => hobj ?_, not_named_of_freed hl ho⟩
  rw [← hsame, ho, Function.update_self]

theorem delete_unremovable (h : ¬Removable t (makeRealPath fs.realPath path)) :
    ∃ e, delete fs t path = (.error e, t) := by
  rcases delete_cases fs t path with he | ⟨l, t', hl, hne, ho, he⟩
  · exact he
  · refine (h ⟨l, hl, hne, fun hdir => ?_⟩).elim
    by_contra hfull
    unfold delete at he
    dsimp only at he
    obtain ⟨i, hi⟩ := Option.ne_none_iff_exists'.mp hne
    rw [lstat_of_place hl, hi, Option.map_some] at he
    dsimp only at he
    rw [look_some hi] at hdir
    cases hkind : i.kind with
    | directory len =>
      rw [hkind] at he
      dsimp only at he
      rw [if_pos hfull] at he
      cases he
    | file bytes =>
      rw [hkind] at hdir
      cases hdir
    | symlink target =>
      rw [hkind] at hdir
      cases hdir

theorem delete_unnamed (h : ¬Named t.objects (makeRealPath fs.realPath path)) :
    delete fs t path = (.error .notFound, t) := by
  unfold delete
  dsimp only
  rw [not_not.mp h]

end Storage

end ServerRepeats
