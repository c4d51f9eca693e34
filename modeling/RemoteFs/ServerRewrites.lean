import RemoteFs.ServerRepeats

/-! # A write that is executed again

The first copy opens or makes the file. From then on the user may write to it, and a further copy
finds its bytes where it puts them, so only times change. -/
namespace ServerRewrites

open ClientAttributes
open OsPaths
open PosixTree
open PosixFileTree
open PosixCalls
open PosixWays
open ServerPaths
open ServerAccess
open ServerStorage
open ServerFileSystem
open ServerGrowth
open ServerRepeats

section Writes

variable {fs : FileSystem} {t t' : FileTree} {user : AuthenticatedUser} {path : Path}
variable {data : List UInt8} {offset : ℕ} {now : Timestamp} {l k : Location} {i j : Inode}

def Writable (fs : FileSystem) (t : Tree) (user : AuthenticatedUser) (path : Path) : Prop :=
  ∃ l i, lstat t (makeRealPath fs.realPath path) = some (l, i) ∧
    (makeRealPath fs.realPath path = makeRealPath fs.realPath [.rootDir] ∨
      permits user i .write = true)

theorem checkPermission_named {t : Tree}
    (hl : lstat t (makeRealPath fs.realPath path) = some (l, i)) :
    Routes.checkPermission fs t user path .write = .ok () ↔ Writable fs t user path := by
  have hwritable : Writable fs t user path ↔
      makeRealPath fs.realPath path = makeRealPath fs.realPath [.rootDir] ∨
        permits user i .write = true := by
    constructor
    · rintro ⟨l', i', hl', h⟩
      obtain ⟨-, rfl⟩ := Prod.mk.inj (Option.some.inj (hl'.symm.trans hl))
      exact h
    · exact fun h => ⟨l, i, hl, h⟩
  rw [hwritable]
  by_cases hroot : makeRealPath fs.realPath path = makeRealPath fs.realPath [.rootDir]
  · refine iff_of_true ?_ (.inl hroot)
    have hallowed : fs.isAllowed t user path .write = .ok true := by
      rw [hroot] at hl
      unfold FileSystem.isAllowed
      simp only [hroot, hl, getAttributesByPath, Option.isNone_some, Bool.false_eq_true,
        ↓reduceIte, bind, Except.bind]
    rw [Routes.checkPermission, hallowed]
  · rw [or_iff_right hroot, Routes.checkPermission, isAllowed_permits hroot hl]
    cases permits user i .write with
    | true => exact iff_of_true rfl rfl
    | false => exact iff_of_false (by simp) Bool.false_ne_true

theorem pwrite_objects (data : List UInt8) (offset : ℕ) (now : Timestamp) {bytes : List UInt8}
    (hl : t.objects l = some i)
    (hkind : i.kind = .file bytes) :
    ∃ j, (pwrite t l data offset now).objects = Function.update t.objects l (some j) ∧
      j.kind = .file (FileBytes.writeAt 0 bytes offset data) ∧ j.mode = i.mode ∧
      j.uid = i.uid ∧ j.gid = i.gid := by
  unfold pwrite
  split
  · rename_i hnone
    cases hnone.symm.trans hl
  · rename_i i' hl'
    obtain rfl := Option.some.inj (hl'.symm.trans hl)
    split
    · rename_i bytes' hkind'
      obtain rfl : bytes' = bytes := by
        injection hkind'.symm.trans hkind
      split
      · rename_i hnil
        refine ⟨i', ?_, ?_, rfl, rfl, rfl⟩
        · rw [← hl', Function.update_eq_self]
        · rw [hnil, FileBytes.writeAt_nil, hkind]
      · exact ⟨_, rfl, rfl, rfl, rfl, rfl⟩
    · rename_i hno
      exact (hno bytes hkind).elim

def Openable (t : Tree) (p : Path) : Prop :=
  ∃ l, resolve t true p = some l ∧ ∀ i, t l = some i → ∃ bytes, i.kind = .file bytes

theorem openCreate_closed (now : Timestamp) {p : Path} (h : ¬Openable t.objects p) :
    ∃ e, PosixCalls.openCreate t p now = .error e := by
  unfold PosixCalls.openCreate
  split
  · exact ⟨_, rfl⟩
  · rename_i l hl
    split
    · rename_i hfree
      refine (h ⟨l, hl, fun i hi => ?_⟩).elim
      cases hfree.symm.trans hi
    · rename_i i hi
      split
      · rename_i bytes hkind
        refine (h ⟨l, hl, fun j hj => ⟨bytes, ?_⟩⟩).elim
        rw [← Option.some.inj (hi.symm.trans hj), hkind]
      · exact ⟨_, rfl⟩

theorem openCreate_open (now : Timestamp) {p : Path} (h : Openable t.objects p) :
    ∃ l t' i bytes, PosixCalls.openCreate t p now = .ok (l, t') ∧
      resolve t.objects true p = some l ∧ resolve t'.objects true p = some l ∧
      i.kind = .file bytes ∧ t'.objects = Function.update t.objects l (some i) ∧
      (t.objects l = some i ∨
        t.objects l = none ∧ i = ⟨.file [], 0o100644, 0, 0, now, now, now⟩) := by
  obtain ⟨l, hl, hfile⟩ := h
  unfold PosixCalls.openCreate
  split
  · rename_i hnone
    cases hnone.symm.trans hl
  · rename_i l' hl'
    obtain rfl := Option.some.inj (hl'.symm.trans hl)
    split
    · rename_i hfree
      refine ⟨l', _, _, [], rfl, hl, ?_, rfl, rfl, .inr ⟨hfree, rfl⟩⟩
      exact resolve_create hfree ⟨[], rfl⟩ hl
    · rename_i i hi
      obtain ⟨bytes, hkind⟩ := hfile i hi
      refine ⟨l', t, i, bytes, ?_, hl, hl, hkind, ?_, .inl hi⟩
      · rw [hkind]
      · rw [← hi, Function.update_eq_self]

theorem writeFile_far (data : List UInt8) (now : Timestamp) (hfar : 2 ^ 63 ≤ offset)
    (h : Openable t.objects (makeRealPath fs.realPath path)) :
    ∃ l t', ServerFileSystem.writeFile fs t user path data offset now = (.error .io, t') ∧
      PosixTree.resolve t.objects true (makeRealPath fs.realPath path) = some l ∧
      (t.objects l ≠ none ∧ t' = t ∨
        t.objects l = none ∧
          PosixTree.resolve t'.objects true (makeRealPath fs.realPath path) = some l ∧
          t'.objects = Function.update t.objects l
            (some ⟨.file [], 0o100644, 0, 0, now, now, now⟩)) := by
  obtain ⟨l, hl, hfile⟩ := h
  unfold ServerFileSystem.writeFile PosixCalls.openCreate
  dsimp only
  split
  · rename_i e hopen
    split at hopen
    · rename_i hnone
      cases hnone.symm.trans hl
    · rename_i l' hl'
      obtain rfl := Option.some.inj (hl'.symm.trans hl)
      split at hopen
      · cases hopen
      · rename_i i hi
        obtain ⟨bytes, hkind⟩ := hfile i hi
        rw [hkind] at hopen
        cases hopen
  · rename_i k t₁ hopen
    rw [if_pos hfar]
    refine ⟨l, t₁, rfl, hl, ?_⟩
    split at hopen
    · cases hopen
    · rename_i l' hl'
      obtain rfl := Option.some.inj (hl'.symm.trans hl)
      split at hopen
      · rename_i hfree
        obtain ⟨-, rfl⟩ := Prod.mk.inj (Except.ok.inj hopen)
        exact .inr ⟨hfree, resolve_create hfree ⟨[], rfl⟩ hl, rfl⟩
      · rename_i i hi
        obtain ⟨bytes, hkind⟩ := hfile i hi
        rw [hkind] at hopen
        obtain ⟨-, rfl⟩ := Prod.mk.inj (Except.ok.inj hopen)
        exact .inl ⟨by rw [hi]; exact Option.some_ne_none i, rfl⟩

theorem permits_congr {op : Operation} (hm : j.mode = i.mode) (hu : j.uid = i.uid)
    (hg : j.gid = i.gid) : permits user j op = permits user i op := by
  unfold permits
  rw [hm, hu, hg]

structure Placed (t : FileTree) (l : Location) (j : Inode) : Prop where
  file : ∃ bytes, j.kind = .file bytes
  same : ∀ i, t.objects l = some i → (∃ bytes, i.kind = .file bytes) ∧ j.mode = i.mode ∧
    j.uid = i.uid ∧ j.gid = i.gid

theorem Placed.grows (h : Placed t l j) (ho : t'.objects = Function.update t.objects l (some j)) :
    Grows t.objects t'.objects := by
  intro k hk
  rw [ho]
  by_cases hkl : k = l
  · subst hkl
    obtain ⟨i, hi⟩ := Option.ne_none_iff_exists'.mp (mt look_missing.mpr hk)
    obtain ⟨bytes, hj⟩ := h.file
    obtain ⟨⟨bytes', hkind⟩, -⟩ := h.same i hi
    rw [look_some (Function.update_self ..), look_some hi, hj, hkind]
    rfl
  · rw [look, Function.update_of_ne hkl, look]

theorem Placed.writable (h : Placed t l j)
    (ho : t'.objects = Function.update t.objects l (some j))
    (hw : Writable fs t.objects user path) : Writable fs t'.objects user path := by
  obtain ⟨k, i, hlstat, hperm⟩ := hw
  obtain ⟨hk, hi⟩ := objectAt_some.mp hlstat
  have hmiss : look t.objects k ≠ .missing := mt look_missing.mp (by simp [hi])
  have hk' : PosixTree.resolve t'.objects false (makeRealPath fs.realPath path) = some k :=
    walk_grows (h.grows ho) hmiss _ _ _ hk
  by_cases hkl : k = l
  · subst hkl
    obtain ⟨-, hm, hu, hg⟩ := h.same i hi
    refine ⟨k, j, objectAt_some.mpr ⟨hk', ?_⟩, ?_⟩
    · rw [ho, Function.update_self]
    · rwa [permits_congr hm hu hg]
  · refine ⟨k, i, objectAt_some.mpr ⟨hk', ?_⟩, hperm⟩
    rw [ho, Function.update_of_ne hkl, hi]

theorem resolve_new {p : Path} (hnone : lstat t.objects p = none)
    (hl : PosixTree.resolve t.objects true p = some l) (hg : Grows t.objects t'.objects)
    (hl' : PosixTree.resolve t'.objects true p = some l) :
    PosixTree.resolve t'.objects false p = some l := by
  cases hn : p.fileName with
  | none => exact (walk_nameless _ _ _ hn).trans hl'
  | some n =>
    obtain ⟨k, hk⟩ := walk_nofollow _ _ _ _ hl
    have hfree : t.objects k = none := by
      cases hobj : t.objects k with
      | none => rfl
      | some i => cases hnone.symm.trans (objectAt_some.mpr ⟨hk, hobj⟩)
    have hlink : (look t.objects k).isLink = false := by
      rw [look_missing.mpr hfree]
      rfl
    obtain rfl := Option.some.inj ((walk_follow hlink _ _ _ hk).symm.trans hl)
    have hplace : ∀ {t : Tree}, place t p = PosixTree.resolve t false p := by
      intro t
      rw [place, hn]
    rw [← hplace]
    exact place_grows t.grounded t'.grounded hg (hplace.trans hk)

/-- A write that has taken place, and may be repeated. -/
structure Written (fs : FileSystem) (t : Tree) (user : AuthenticatedUser) (path : Path)
    (data : List UInt8) (offset : ℕ) : Prop where
  writable : Writable fs t user path
  file : ∃ l i bytes, PosixTree.resolve t true (makeRealPath fs.realPath path) = some l ∧
    t l = some i ∧ i.kind = .file bytes ∧ FileBytes.writeAt 0 bytes offset data = bytes
  near : offset < 2 ^ 63

theorem writeFile_first (data : List UInt8) (hnear : offset < 2 ^ 63) (now : Timestamp)
    (hperm : Routes.checkPermission fs t.objects user path .write = .ok ())
    (h : Openable t.objects (makeRealPath fs.realPath path)) :
    ∃ t', ServerFileSystem.writeFile fs t user path data offset now = (.ok (), t') ∧
      Written fs t'.objects user path data offset := by
  obtain ⟨l, t₁, i, bytes, hopen, hl, hl₁, hkind, ho₁, hwas⟩ := openCreate_open now h
  have hi₁ : t₁.objects l = some i := by rw [ho₁, Function.update_self]
  obtain ⟨j, ho₂, hj, hm, hu, hg⟩ := pwrite_objects data offset now hi₁ hkind
  have hl₂ : PosixTree.resolve (pwrite t₁ l data offset now).objects true
      (makeRealPath fs.realPath path) = some l := by
    rw [PosixTree.resolve, ho₂, look_update hi₁ (by rw [hj, hkind]; rfl)]
    exact hl₁
  have ho : (pwrite t₁ l data offset now).objects = Function.update t.objects l (some j) := by
    rw [ho₂, ho₁, Function.update_idem]
  have hplaced : Placed t l j := by
    refine ⟨⟨_, hj⟩, fun i' hi' => ?_⟩
    rcases hwas with hwas | ⟨hfree, -⟩
    · obtain rfl := Option.some.inj (hwas.symm.trans hi')
      exact ⟨⟨bytes, hkind⟩, hm, hu, hg⟩
    · cases hfree.symm.trans hi'
  have hobj : (pwrite t₁ l data offset now).objects l = some j := by
    rw [ho₂, Function.update_self]
  unfold ServerFileSystem.writeFile
  dsimp only
  rw [hopen]
  dsimp only
  rw [if_neg (Nat.not_le.mpr hnear)]
  cases hlstat : lstat t.objects (makeRealPath fs.realPath path) with
  | some found =>
    obtain ⟨k, i₀⟩ := found
    rw [if_neg (by simp)]
    refine ⟨_, rfl, ?_, ⟨l, j, _, hl₂, hobj, hj, FileBytes.writeAt_writeAt ..⟩, hnear⟩
    exact hplaced.writable ho ((checkPermission_named hlstat).mp hperm)
  | none =>
    rw [if_pos Option.isNone_none]
    obtain ⟨t₃, ht₃, ho₃, hset⟩ := setOwner_ok user now
      (objectAt_some.mpr ⟨hl₂, hobj⟩)
    have hl₃ : PosixTree.resolve t₃.objects true (makeRealPath fs.realPath path) = some l := by
      have hlook : look t₃.objects = look (pwrite t₁ l data offset now).objects := by
        rw [ho₃]
        exact look_update hobj rfl
      rw [PosixTree.resolve, hlook]
      exact hl₂
    have hmode : i.mode = 0o100644 := by
      rcases hwas with hwas | ⟨-, rfl⟩
      · cases hwas.symm.trans (missing_of_lstat_none hlstat hl)
      · rfl
    have hnew : (j.chown user.userId user.groupId now).mode = 0o100644 := by
      rw [Inode.chown_file hj, hm, hmode]
      exact disowned_created
    have hown : (j.chown user.userId user.groupId now).uid = user.userId := rfl
    refine ⟨t₃, ht₃, ⟨l, j.chown user.userId user.groupId now, ?_, ?_⟩,
      ⟨l, j.chown user.userId user.groupId now, _, hl₃, ?_, hj,
        FileBytes.writeAt_writeAt ..⟩, hnear⟩
    · refine objectAt_some.mpr ⟨resolve_new hlstat hl ((hplaced.grows ho).trans hset) hl₃, ?_⟩
      rw [ho₃, Function.update_self]
    · right
      rw [permits, hnew, hown, if_pos rfl]
      decide
    · rw [ho₃, Function.update_self]

def timeless (t : Tree) (l : Location) : Option (Kind × ℕ × ℕ × ℕ) :=
  (t l).map fun i => (i.kind, i.mode, i.uid, i.gid)

theorem writeFile_again (now : Timestamp) (h : Written fs t.objects user path data offset) :
    ∃ t', ServerFileSystem.writeFile fs t user path data offset now = (.ok (), t') ∧
      Written fs t'.objects user path data offset ∧ timeless t'.objects = timeless t.objects := by
  obtain ⟨l, i, bytes, hl, hi, hkind, hbytes⟩ := h.file
  obtain ⟨k, i₀, hlstat, -⟩ := h.writable
  have hopenable : Openable t.objects (makeRealPath fs.realPath path) := by
    refine ⟨l, hl, fun i' hi' => ⟨bytes, ?_⟩⟩
    rw [← Option.some.inj (hi.symm.trans hi'), hkind]
  obtain ⟨l', t₁, i', bytes', hopen, hl', -, -, ho₁, hwas⟩ := openCreate_open now hopenable
  obtain rfl := Option.some.inj (hl.symm.trans hl')
  have hobj : t₁.objects = t.objects := by
    rcases hwas with hwas | ⟨hfree, -⟩
    · rw [ho₁, ← hwas, Function.update_eq_self]
    · cases hfree.symm.trans hi
  rw [← hobj] at hi
  obtain ⟨j, ho₂, hj, hm, hu, hg⟩ := pwrite_objects data offset now hi hkind
  have hlook : look (pwrite t₁ l data offset now).objects = look t.objects := by
    rw [ho₂, look_update hi (by rw [hj, hkind]; rfl), hobj]
  rw [hobj] at hi ho₂
  refine ⟨pwrite t₁ l data offset now, ?_,
    ⟨?_, ⟨l, j, bytes, ?_, ?_, hbytes ▸ hj, hbytes⟩, h.near⟩, ?_⟩
  · unfold ServerFileSystem.writeFile
    dsimp only
    rw [hopen]
    dsimp only
    rw [if_neg (Nat.not_le.mpr h.near), if_neg (by rw [hlstat]; exact nofun)]
  · refine Placed.writable ⟨⟨_, hj⟩, fun i' hi' => ?_⟩ ho₂ h.writable
    obtain rfl := Option.some.inj (hi.symm.trans hi')
    exact ⟨⟨bytes, hkind⟩, hm, hu, hg⟩
  · rw [PosixTree.resolve, hlook]
    exact hl
  · rw [ho₂, Function.update_self]
  · funext m
    rw [timeless, timeless, ho₂]
    by_cases hml : m = l
    · rw [hml, Function.update_self, hi, Option.map_some, Option.map_some, hj, hbytes, hkind, hm,
        hu, hg]
    · rw [Function.update_of_ne hml]

end Writes

end ServerRewrites
