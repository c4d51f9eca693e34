import RemoteFs.ServerGrowth

/-! # Who owns what a request has created

What the server process creates is its own. Making a directory and writing a file give the new
object to the user; the second takes it for new where `lstat` finds nothing. -/
namespace ServerOwnership

open ClientAttributes
open OsPaths
open PosixTree
open PosixFileTree
open PosixCalls
open PosixWays
open ServerPaths
open ServerStorage
open ServerFileSystem
open ServerGrowth
open ServerRequests

def ids (i : Inode) : ℕ × ℕ := (i.uid, i.gid)

def owners (t : Tree) : Location → Option (ℕ × ℕ) := fun l => (t l).map ids

def AuthenticatedUser.ids (user : AuthenticatedUser) : ℕ × ℕ := (user.userId, user.groupId)

structure CreatorOwns (user : AuthenticatedUser) (t t' : Tree) : Prop where
  created : ∀ l i, t l = none → t' l = some i → i.uid = user.userId ∧ i.gid = user.groupId
  kept : ∀ l i j, t l = some i → t' l = some j → j.uid = i.uid ∧ j.gid = i.gid

section Owners

variable {t t' : Tree} {l : Location} {i : Inode} {user : AuthenticatedUser} {o : ℕ × ℕ}

theorem owners_update (t : Tree) (l : Location) (i : Inode) :
    owners (Function.update t l (some i)) = Function.update (owners t) l (some (ids i)) := by
  funext k
  by_cases hk : k = l
  · subst hk
    rw [owners, Function.update_self, Function.update_self]
    rfl
  · rw [owners, Function.update_of_ne hk, Function.update_of_ne hk]
    rfl

theorem owners_of_some (h : t l = some i) : owners t l = some (ids i) := by rw [owners, h]; rfl

theorem creatorOwns_of_same (h : owners t' = owners t) : CreatorOwns user t t' := by
  have hkept : ∀ l i j, t l = some i → t' l = some j → ids j = ids i := by
    intro l i j hi hj
    have hl := congrFun h l
    rw [owners_of_some hi, owners_of_some hj] at hl
    exact Option.some.inj hl
  refine ⟨fun l i hnone hi => ?_, fun l i j hi hj => Prod.mk.inj (hkept l i j hi hj)⟩
  have hl := congrFun h l
  rw [owners_of_some hi, owners, hnone] at hl
  cases hl

theorem creatorOwns_iff (hfree : t l = none)
    (h : owners t' = Function.update (owners t) l (some o)) :
    CreatorOwns user t t' ↔ o = (user.userId, user.groupId) := by
  have hnew : owners t' l = some o := by rw [h, Function.update_self]
  have hold : ∀ k, k ≠ l → owners t' k = owners t k := fun k hk => by
    rw [h, Function.update_of_ne hk]
  obtain ⟨j, hj, rfl⟩ := Option.map_eq_some_iff.mp hnew
  constructor
  · intro howns
    obtain ⟨huid, hgid⟩ := howns.created l j hfree hj
    rw [ids, huid, hgid]
  · intro ho
    refine ⟨fun k i hk hi => ?_, fun k i i' hi hi' => ?_⟩
    · by_cases hkl : k = l
      · subst hkl
        obtain rfl := Option.some.inj (hj.symm.trans hi)
        exact Prod.mk.inj ho
      · have hsame := hold k hkl
        rw [owners_of_some hi, owners, hk] at hsame
        cases hsame
    · have hkl : k ≠ l := by
        rintro rfl
        cases hfree.symm.trans hi
      have hsame := hold k hkl
      rw [owners_of_some hi, owners_of_some hi'] at hsame
      exact Prod.mk.inj (Option.some.inj hsame)

end Owners

section Calls

variable {t t' : FileTree} {l : Location} {i : Inode} {p real : Path} {now : Timestamp}
  {user : AuthenticatedUser}

theorem pwrite_owners (t : FileTree) (l : Location) (data : List UInt8) (offset : ℕ)
    (now : Timestamp) : owners (pwrite t l data offset now).objects = owners t.objects := by
  unfold pwrite
  split
  · rfl
  · rename_i i hl
    split
    · split
      · rfl
      · rw [amend, put, owners_update]
        refine Function.update_eq_self_iff.mpr ?_
        exact (owners_of_some hl).symm
    · rfl

theorem pwrite_look (t : FileTree) (l : Location) (data : List UInt8) (offset : ℕ)
    (now : Timestamp) : look (pwrite t l data offset now).objects = look t.objects := by
  unfold pwrite
  split
  · rfl
  · split
    · split
      · rfl
      · rename_i i hl bytes hkind hdata
        exact look_update hl (by rw [hkind]; rfl)
    · rfl

theorem chown_ok {uid gid : ℕ} (h : chown t p uid gid now = .ok t') :
    ∃ l i, target t.objects p = some (l, i) ∧ t'.objects = Function.update t.objects l
      (some (i.chown uid gid now)) := by
  unfold chown at h
  split at h
  · cases h
  · rename_i l i htarget
    refine ⟨l, i, htarget, ?_⟩
    rw [← Except.ok.inj h]
    rfl

/-- `chown` gives away the object that the path leads to. -/
theorem setOwner_owners (h : ServerFileSystem.setOwner t user real now = (.ok (), t'))
    (hl : PosixTree.resolve t.objects true real = some l) :
    owners t'.objects =
      Function.update (owners t.objects) l (some (user.userId, user.groupId)) := by
  unfold ServerFileSystem.setOwner at h
  split at h
  · rename_i t'' hchown
    obtain rfl := (Prod.mk.inj h).2
    obtain ⟨k, i, htarget, ho⟩ := chown_ok hchown
    obtain rfl := Option.some.inj (hl.symm.trans (objectAt_some.mp htarget).1)
    rw [ho, owners_update]
    rfl
  · cases (Prod.mk.inj h).1

/-- A new object that is no link is where its path leads. -/
theorem created_resolve (h : create t p i = .ok t') (hdirect : i.kind.look.isLink = false) :
    ∃ l, t.objects l = none ∧ t'.objects = Function.update t.objects l (some i) ∧
      PosixTree.resolve t'.objects true p = some l := by
  obtain ⟨l, hl, hfree, ho⟩ := create_ok h
  refine ⟨l, hfree, ho, ?_⟩
  have hplace := place_grows t.grounded t'.grounded (grows_of_free hfree ho) hl
  refine walk_follow ?_ _ _ _ (place_resolve hplace)
  rw [ho, look_some (Function.update_self ..)]
  exact hdirect

end Calls

section Storage

variable {fs : FileSystem} {t t' : FileTree} {user : AuthenticatedUser} {path name : Path}
  {len : ℕ} {now : Timestamp}

theorem makeDir_owners (h : makeDir fs t user path name len now = (.ok (), t')) :
    ∃ l, t.objects l = none ∧ owners t'.objects =
      Function.update (owners t.objects) l (some (user.userId, user.groupId)) := by
  unfold makeDir at h
  dsimp only at h
  split at h
  · cases (Prod.mk.inj h).1
  · split at h
    · cases (Prod.mk.inj h).1
    · rename_i t₁ hmkdir
      obtain ⟨l, hfree, ho, hl⟩ := created_resolve hmkdir rfl
      refine ⟨l, hfree, ?_⟩
      rw [setOwner_owners h hl, ho, owners_update, Function.update_idem]

theorem createSymlink_owners {target : String} {a : Attributes}
    (h : ServerFileSystem.createSymlink fs t path target now = (.ok a, t')) :
    ∃ l, t.objects l = none ∧
      owners t'.objects = Function.update (owners t.objects) l (some (0, 0)) := by
  unfold ServerFileSystem.createSymlink at h
  dsimp only at h
  split at h
  · cases (Prod.mk.inj h).1
  · split at h
    · cases (Prod.mk.inj h).1
    · rename_i t₁ hsymlink
      obtain rfl := (Prod.mk.inj h).2
      obtain ⟨-, l, -, hfree, ho⟩ := symlink_ok hsymlink
      refine ⟨l, hfree, ?_⟩
      rw [ho, owners_update]
      rfl

/-- `open` with `create` makes a file of the server process, or opens one. -/
theorem openCreate_cases {real : Path} {l : Location} {t₁ : FileTree}
    (h : PosixCalls.openCreate t real now = .ok (l, t₁)) :
    PosixTree.resolve t.objects true real = some l ∧
      (t.objects l = none ∧ t₁.objects = Function.update t.objects l
          (some ⟨.file [], 0o100644, 0, 0, now, now, now⟩) ∨
        (∃ i bytes, t.objects l = some i ∧ i.kind = .file bytes) ∧ t₁ = t) := by
  unfold PosixCalls.openCreate at h
  split at h
  · cases h
  · rename_i k hk
    split at h
    · rename_i hfree
      obtain ⟨rfl, rfl⟩ := Prod.mk.inj (Except.ok.inj h)
      exact ⟨hk, .inl ⟨hfree, rfl⟩⟩
    · rename_i i hi
      split at h
      · rename_i bytes hkind
        obtain ⟨rfl, rfl⟩ := Prod.mk.inj (Except.ok.inj h)
        exact ⟨hk, .inr ⟨⟨i, bytes, hi, hkind⟩, rfl⟩⟩
      · cases h

/-- A link stands at the end of the path, and nothing where it leads. -/
def Dangling (t : Tree) (p : Path) : Prop := lstat t p ≠ none ∧ target t p = none

instance (t : Tree) (p : Path) : Decidable (Dangling t p) := inferInstanceAs (Decidable (_ ∧ _))

theorem writeFile_owners {data : List UInt8} {offset : ℕ}
    (h : ServerFileSystem.writeFile fs t user path data offset now = (.ok (), t')) :
    owners t'.objects = owners t.objects ∧ ¬Dangling t.objects (makeRealPath fs.realPath path) ∨
    ∃ l o, t.objects l = none ∧ owners t'.objects = Function.update (owners t.objects) l (some o) ∧
      o = if Dangling t.objects (makeRealPath fs.realPath path) then (0, 0)
        else (user.userId, user.groupId) := by
  unfold ServerFileSystem.writeFile at h
  dsimp only at h
  obtain ⟨real, hreal⟩ : ∃ real, real = makeRealPath fs.realPath path := ⟨_, rfl⟩
  rw [← hreal] at h ⊢
  split at h
  · cases (Prod.mk.inj h).1
  · rename_i l t₁ hopen
    obtain ⟨hl, hcase⟩ := openCreate_cases hopen
    by_cases hfar : 2 ^ 63 ≤ offset
    · rw [if_pos hfar] at h
      cases (Prod.mk.inj h).1
    rw [if_neg hfar] at h
    obtain ⟨t₂, ht₂⟩ : ∃ t₂, t₂ = pwrite t₁ l data offset now := ⟨_, rfl⟩
    have howners : owners t₂.objects = owners t₁.objects := ht₂ ▸ pwrite_owners t₁ l data offset now
    have hlook : look t₂.objects = look t₁.objects := ht₂ ▸ pwrite_look t₁ l data offset now
    rw [← ht₂] at h
    rcases hcase with ⟨hfree, ho⟩ | ⟨⟨i, bytes, hi, -⟩, rfl⟩
    · rw [ho, owners_update] at howners
      have hnothing : target t.objects real = none := by
        rw [target, objectAt, hl, Option.bind_some, hfree]
        rfl
      refine .inr ⟨l, _, hfree, ?_, rfl⟩
      cases hfound : lstat t.objects real with
      | none =>
        -- The file is new for the code as well.
        have hnew : ¬Dangling t.objects real := fun hd => hd.1 hfound
        rw [hfound, Option.isNone_none, if_pos rfl] at h
        have hthere : PosixTree.resolve t₂.objects true real = some l := by
          rw [PosixTree.resolve, hlook, ho]
          exact resolve_create hfree ⟨[], rfl⟩ hl
        rw [if_neg hnew, setOwner_owners h hthere, howners, Function.update_idem]
      | some found =>
        have hdangling : Dangling t.objects real :=
          ⟨by rw [hfound]; exact Option.some_ne_none found, hnothing⟩
        rw [hfound, Option.isNone_some, if_neg Bool.false_ne_true] at h
        obtain rfl := (Prod.mk.inj h).2
        rw [if_pos hdangling, howners]
        rfl
    · have hfound : (lstat t₁.objects real).isNone = false := by
        cases hfound : lstat t₁.objects real with
        | none => cases hi.symm.trans (missing_of_lstat_none hfound hl)
        | some found => rfl
      rw [hfound, if_neg Bool.false_ne_true] at h
      obtain rfl := (Prod.mk.inj h).2
      refine .inl ⟨howners, fun hd => ?_⟩
      cases hd.2.symm.trans (objectAt_some.mpr ⟨hl, hi⟩)

theorem superuser_ids : (0, 0) = (user.userId, user.groupId) ↔ user = ⟨0, 0⟩ := by
  obtain ⟨uid, gid⟩ := user
  simp [eq_comm]

/-- A written file is its creator's but where a link led to it. -/
theorem writeFile_creatorOwns {data : List UInt8} {offset : ℕ}
    (h : ServerFileSystem.writeFile fs t user path data offset now = (.ok (), t')) :
    CreatorOwns user t.objects t'.objects ↔
      user = ⟨0, 0⟩ ∨ ¬Dangling t.objects (makeRealPath fs.realPath path) := by
  rcases writeFile_owners h with ⟨hsame, hdirect⟩ | ⟨l, o, hfree, ho, howner⟩
  · exact iff_of_true (creatorOwns_of_same hsame) (.inr hdirect)
  · rw [creatorOwns_iff hfree ho, howner]
    by_cases hd : Dangling t.objects (makeRealPath fs.realPath path)
    · rw [if_pos hd, superuser_ids]
      exact ⟨.inl, fun hor => hor.resolve_right fun hn => hn hd⟩
    · rw [if_neg hd]
      exact iff_of_true rfl (.inr hd)

end Storage

def Creates : Request → Prop
  | .writeFile .. | .makeDirectory .. | .createSymlink .. => True
  | .rename .. | .deleteItem .. | .setXAttributes .. | .deleteXAttributes .. => False

/-- A new object is given to the user: a directory, and a file but where a link leads to it. -/
def GivesAway (fs : FileSystem) (t : Tree) : Request → Prop
  | .writeFile path _ _ => ¬Dangling t (makeRealPath fs.realPath (components path))
  | .makeDirectory _ => True
  | _ => False

theorem getAttributes_tree {fs : FileSystem} {path : Path} {s : Server} :
    (getAttributes fs path s).2 = s := by
  unfold getAttributes
  split <;> rfl

/-- A request that creates, and is answered with success, gives what is new to the user and leaves
the rest to whom it belongs, exactly where the user is the superuser or the request gives away. -/
theorem creator_owns_iff (fs : FileSystem) (s : Server) (user : AuthenticatedUser) (m : Moment)
    (request : ServerRequests.Request) (hcreates : Creates request) (a : Reply)
    (h : (serve fs s user m request).1 = .ok a) :
    CreatorOwns user s.tree.objects (serve fs s user m request).2.tree.objects ↔
      user = ⟨0, 0⟩ ∨ GivesAway fs s.tree.objects request := by
  cases request with
  | writeFile path body offset =>
    obtain ⟨-, heq⟩ := checked_ok h
    rw [serve, ServerRequests.writeFile, heq] at h ⊢
    obtain ⟨u, t, hwrite, heq⟩ := thenTree_ok h
    rw [heq, getAttributes_tree]
    exact writeFile_creatorOwns hwrite
  | makeDirectory path =>
    rw [serve, makeDirectory] at h ⊢
    cases hsplit : rsplitOnce path with
    | none =>
      rw [hsplit] at h
      cases h
    | some parts =>
      obtain ⟨p, name⟩ := parts
      rw [hsplit] at h
      dsimp only at h ⊢
      obtain ⟨-, heq⟩ := checked_ok h
      rw [heq] at h ⊢
      obtain ⟨u, t, hmake, heq⟩ := thenTree_ok h
      rw [heq, getAttributes_tree]
      obtain ⟨l, hfree, ho⟩ := makeDir_owners hmake
      exact iff_of_true ((creatorOwns_iff hfree ho).mpr rfl) (.inr trivial)
  | createSymlink path target =>
    obtain ⟨-, heq⟩ := checked_ok h
    rw [serve, ServerRequests.createSymlink, heq] at h ⊢
    obtain ⟨u, t, hsymlink, heq⟩ := thenTree_ok h
    rw [heq]
    obtain ⟨l, hfree, ho⟩ := createSymlink_owners hsymlink
    rw [creatorOwns_iff hfree ho, superuser_ids]
    exact ⟨.inl, fun hor => hor.resolve_right id⟩
  | rename oldPath newPath flags => exact hcreates.elim
  | deleteItem path => exact hcreates.elim
  | setXAttributes path name xattributes => exact hcreates.elim
  | deleteXAttributes path name => exact hcreates.elim

theorem creator_owns_iff_directory :
    let s : Server := ⟨ServerExchange.samples, SqlTable.Table.empty _⟩
    CreatorOwns ⟨1000, 1000⟩ s.tree.objects
      (serve ServerExchange.exported s ⟨1000, 1000⟩ ⟨⟨9, 0⟩, 4096⟩
        (.makeDirectory "/d")).2.tree.objects := by
  intro s
  obtain ⟨a, ha⟩ : ∃ a, (serve ServerExchange.exported s ⟨1000, 1000⟩ ⟨⟨9, 0⟩, 4096⟩
    (.makeDirectory "/d")).1 = .ok a := ⟨_, rfl⟩
  exact (creator_owns_iff ServerExchange.exported s ⟨1000, 1000⟩ ⟨⟨9, 0⟩, 4096⟩
    (.makeDirectory "/d") trivial a ha).mpr (.inr trivial)

/-- A link that a user makes belongs to the superuser, and so does the file that the user then
writes through it, which was not there. -/
theorem link_is_not_creators :
    let user : AuthenticatedUser := ⟨1000, 1000⟩
    let s : Server := ⟨ServerExchange.samples, SqlTable.Table.empty _⟩
    let linked := serve ServerExchange.exported s user ⟨⟨9, 0⟩, 4096⟩ (.createSymlink "/l" "new")
    let written := serve ServerExchange.exported linked.2 user ⟨⟨10, 0⟩, 4096⟩
      (.writeFile "/l" [1] 0)
    linked.1.isOk ∧ ¬CreatorOwns user s.tree.objects linked.2.tree.objects ∧
      written.1.isOk ∧ ¬CreatorOwns user linked.2.tree.objects written.2.tree.objects := by
  intro user s linked written
  refine ⟨by decide, fun howns => ?_, by decide, fun howns => ?_⟩
  · obtain ⟨i, hi, huid⟩ : ∃ i,
        linked.2.tree.objects [.text "srv", .text "l"] = some i ∧ i.uid = 0 := ⟨_, rfl, rfl⟩
    cases huid.symm.trans (howns.created _ i (by decide) hi).1
  · obtain ⟨i, hi, huid⟩ : ∃ i, written.2.tree.objects [.text "srv", .text "new"] = some i ∧
      i.uid = 0 := ⟨_, rfl, rfl⟩
    cases huid.symm.trans (howns.created _ i (by decide) hi).1

end ServerOwnership
