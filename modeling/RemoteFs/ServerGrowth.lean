import RemoteFs.PosixWays
import RemoteFs.ServerExchange
import RemoteFs.ServerRequests

/-! # What the storage calls do to the objects of a tree

Writing, making a directory and making a link keep all objects. A deletion frees one place, and
a rename moves one subtree. -/
namespace ServerGrowth

open ClientAttributes
open OsPaths
open PosixTree
open PosixFileTree
open PosixCalls
open PosixWays
open ServerPaths
open ServerStorage
open ServerFileSystem

section Calls

variable {t t' : FileTree} {l : Location} {i : Inode} {p : Path} {now : Timestamp}

theorem put_grows {home : look t.objects l.dropLast = .directory}
    {hkind : look t.objects l = .directory → i.kind.look = .directory}
    (h : look t.objects l ≠ .missing → i.kind.look = look t.objects l) :
    Grows t.objects (put t l i home hkind).objects := by
  intro k hk
  by_cases hkl : k = l
  · subst hkl
    rw [put, look_some (Function.update_self ..), h hk]
  · change look (Function.update t.objects l (some i)) k = look t.objects k
    rw [look, Function.update_of_ne hkl, look]

theorem amend_grows {j : Inode} {hl : t.objects l = some i} {hkind : j.kind.look = i.kind.look} :
    Grows t.objects (amend t l i j hl hkind).objects :=
  put_grows fun _ => hkind.trans (look_some hl).symm

theorem create_ok (h : create t p i = .ok t') : ∃ l, place t.objects p = some l ∧
    t.objects l = none ∧ t'.objects = Function.update t.objects l (some i) := by
  unfold create at h
  split at h
  · cases h
  · rename_i l hl
    split at h
    · rename_i hfree
      refine ⟨l, hl, hfree, ?_⟩
      rw [← Except.ok.inj h]
      rfl
    · cases h

theorem symlink_ok {target : String} (h : symlink t target p now = .ok t') :
    target ≠ "" ∧ ∃ l, place t.objects p = some l ∧ t.objects l = none ∧
      t'.objects = Function.update t.objects l
        (some ⟨.symlink target, 0o120777, 0, 0, now, now, now⟩) := by
  unfold symlink at h
  split at h
  · cases h
  · exact ⟨‹_›, create_ok h⟩

theorem grows_of_free (hfree : t.objects l = none)
    (h : t'.objects = Function.update t.objects l (some i)) : Grows t.objects t'.objects := by
  intro k hk
  have hkl : k ≠ l := by
    rintro rfl
    exact hk (look_missing.mpr hfree)
  rw [h, look, Function.update_of_ne hkl, look]

theorem openCreate_grows (h : PosixCalls.openCreate t p now = .ok (l, t')) :
    Grows t.objects t'.objects := by
  unfold PosixCalls.openCreate at h
  split at h
  · cases h
  · split at h
    · rename_i hfree
      obtain ⟨-, rfl⟩ := Prod.mk.inj (Except.ok.inj h)
      exact put_grows fun hmiss => (hmiss (look_missing.mpr hfree)).elim
    · split at h
      · obtain ⟨-, rfl⟩ := Prod.mk.inj (Except.ok.inj h)
        exact .refl _
      · cases h

theorem pwrite_grows (t : FileTree) (l : Location) (data : List UInt8) (offset : ℕ)
    (now : Timestamp) :
    Grows t.objects (pwrite t l data offset now).objects := by
  unfold pwrite
  split
  · exact .refl _
  · split
    · split
      · exact .refl _
      · exact amend_grows
    · exact .refl _

theorem chown_grows {uid gid : ℕ} (h : chown t p uid gid now = .ok t') :
    Grows t.objects t'.objects := by
  unfold chown at h
  split at h
  · cases h
  · rw [← Except.ok.inj h]
    exact amend_grows

end Calls

section Storage

variable {fs : FileSystem} {t : FileTree} {user : AuthenticatedUser} {path : Path}
variable {now : Timestamp}

theorem setOwner_grows : Grows t.objects (ServerFileSystem.setOwner t user path now).2.objects := by
  unfold ServerFileSystem.setOwner
  split
  · exact chown_grows (by assumption)
  · exact .refl _

theorem writeFile_grows {data : List UInt8} {offset : ℕ} :
    Grows t.objects (ServerFileSystem.writeFile fs t user path data offset now).2.objects := by
  unfold ServerFileSystem.writeFile
  dsimp only
  split
  · exact .refl _
  · rename_i l t₁ hopen
    have hwrite := (openCreate_grows hopen).trans (pwrite_grows t₁ l data offset now)
    split
    · exact openCreate_grows hopen
    · split
      · exact hwrite.trans setOwner_grows
      · exact hwrite

theorem makeDir_grows {name : Path} {len : ℕ} :
    Grows t.objects (makeDir fs t user path name len now).2.objects := by
  unfold makeDir
  dsimp only
  split
  · exact .refl _
  · split
    · exact .refl _
    · rename_i t' hmkdir
      obtain ⟨l, -, hfree, ho⟩ := create_ok hmkdir
      exact (grows_of_free hfree ho).trans setOwner_grows

theorem createSymlink_grows {target : String} :
    Grows t.objects (ServerFileSystem.createSymlink fs t path target now).2.objects := by
  unfold ServerFileSystem.createSymlink
  dsimp only
  split
  · exact .refl _
  · split
    · exact .refl _
    · rename_i t' hsymlink
      obtain ⟨-, l, -, hfree, ho⟩ := symlink_ok hsymlink
      exact grows_of_free hfree ho

theorem delete_cases (fs : FileSystem) (t : FileTree) (path : Path) :
    (∃ e, delete fs t path = (.error e, t)) ∨
    ∃ l t', place t.objects (makeRealPath fs.realPath path) = some l ∧ t.objects l ≠ none ∧
      t'.objects = Function.update t.objects l none ∧ delete fs t path = (.ok (), t') := by
  have hfinish : ∀ r : Except Errno FileTree,
      (∀ t', r = .ok t' → ∃ l, place t.objects (makeRealPath fs.realPath path) = some l ∧
        t.objects l ≠ none ∧ t'.objects = Function.update t.objects l none) →
      (∃ e, finish t r = (.error e, t)) ∨
      ∃ l t', place t.objects (makeRealPath fs.realPath path) = some l ∧ t.objects l ≠ none ∧
        t'.objects = Function.update t.objects l none ∧ finish t r = (.ok (), t') := by
    intro r hr
    cases r with
    | error e => exact .inl ⟨_, rfl⟩
    | ok t' =>
      obtain ⟨l, hl, hne, ho⟩ := hr t' rfl
      exact .inr ⟨l, t', hl, hne, ho, rfl⟩
  unfold delete
  dsimp only
  split
  · exact .inl ⟨_, rfl⟩
  · split
    · split
      · exact .inl ⟨_, rfl⟩
      · exact hfinish _ fun t' h => rmdir_ok h
    · exact hfinish _ fun t' h => unlink_ok h

theorem rename_cases (fs : FileSystem) (t : FileTree) (oldPath newPath : Path)
    {flags : RenameFlags} (hx : flags.exchange = false) :
    (∃ e, ServerFileSystem.rename fs t oldPath newPath flags = (.error e, t)) ∨
    ∃ t', (flags.noreplace = true → lstat t.objects (makeRealPath fs.realPath newPath) = none) ∧
      PosixCalls.rename t (makeRealPath fs.realPath oldPath) (makeRealPath fs.realPath newPath) =
        .ok t' ∧ ServerFileSystem.rename fs t oldPath newPath flags = (.ok (), t') := by
  unfold ServerFileSystem.rename
  dsimp only
  rw [if_neg (by simp [hx])]
  by_cases hno : (flags.noreplace && (lstat t.objects
      (makeRealPath fs.realPath newPath)).isSome) = true
  · rw [if_pos hno]
    exact .inl ⟨_, rfl⟩
  rw [if_neg hno]
  cases h : PosixCalls.rename t (makeRealPath fs.realPath oldPath)
      (makeRealPath fs.realPath newPath) with
  | error e => exact .inl ⟨_, rfl⟩
  | ok t' =>
    refine .inr ⟨t', fun hflag => ?_, rfl, rfl⟩
    rw [hflag, Bool.true_and] at hno
    exact Option.not_isSome_iff_eq_none.mp hno

end Storage

end ServerGrowth
