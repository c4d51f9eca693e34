import RemoteFs.Resending
import RemoteFs.ServerAtomicity
import RemoteFs.ServerOrphans
import RemoteFs.ServerRewrites

/-! # Requests that are executed again

What becomes of a copy of a request when the server is as an earlier copy has left it. -/
namespace ServerRepeatedRequests

open ClientAttributes
open OsPaths
open PosixTree
open PosixFileTree
open PosixCalls
open PosixWays
open Resending
open ServerPaths
open ServerDatabase
open ServerStorage
open ServerFileSystem
open ServerExchange
open ServerXattributes
open ServerXattributeMoves
open ServerRequests
open ServerGrowth
open ServerAtomicity
open ServerOrphans
open ServerRepeats
open ServerRewrites

def statusCode : ApiError → ℕ
  | .ioError => 500
  | .notFound => 404
  | .alreadyExists => 409
  | .permissionDenied _ => 403
  | .directoryNotEmpty => 409
  | .invalidInput _ => 400
  | .internalError _ => 500

/-- The client takes an error of the server for one that passes. -/
def transient (e : ApiError) : Bool := decide (500 ≤ statusCode e)

structure Alike (s s' : Server) : Prop where
  tree : timeless s'.tree.objects = timeless s.tree.objects
  xattributes : s'.xattributes = s.xattributes

theorem Alike.refl (s : Server) : Alike s s := ⟨rfl, rfl⟩

theorem Alike.trans (s₁ s₂ s₃ : Server) (h : Alike s₁ s₂) (h' : Alike s₂ s₃) : Alike s₁ s₃ :=
  ⟨h'.tree.trans h.tree, h'.xattributes.trans h.xattributes⟩

section Parts

variable {fs : FileSystem} {s : Server} {user : AuthenticatedUser} {path : Path}
variable {next : Answer} {e : ApiError}

theorem checked_of_ok (h : Routes.checkPermission fs s.tree.objects user path .write = .ok ()) :
    checked fs s user path next = next := by
  rw [checked, h]

theorem bind_error {ε α β : Type} {x : Except ε α} {f : α → Except ε β} {e : ε}
    (h : (x >>= f) = .error e) : x = .error e ∨ ∃ a, x = .ok a ∧ f a = .error e := by
  cases x with
  | error e' =>
    cases h
    exact .inl rfl
  | ok a => exact .inr ⟨a, rfl, h⟩

theorem isAllowed_error {t : Tree} {op : Operation} {e : StorageError}
    (h : fs.isAllowed t user path op = .error e) : e = .notFound := by
  unfold FileSystem.isAllowed at h
  dsimp only at h
  rcases bind_error h with h | ⟨checked, -, h⟩
  · split at h
    · split at h
      · cases h
        rfl
      · cases h
    · cases h
  · rcases bind_error h with h | ⟨attributes, -, h⟩
    · unfold getAttributesByPath at h
      split at h
      · cases h
      · cases h
        rfl
    · split at h
      · cases h
      · cases op <;> split at h <;> first | cases h | (split at h <;> cases h)

theorem checkPermission_final {t : Tree}
    (h : Routes.checkPermission fs t user path .write = .error e) : transient e = false := by
  unfold Routes.checkPermission at h
  split at h
  · cases h
  · cases h
    rfl
  · rename_i e' he'
    cases h
    rw [isAllowed_error he']
    rfl

theorem checked_refuses
    (h : Routes.checkPermission fs s.tree.objects user path .write = .ok () →
      ∃ e, next = (.error e, s)) : ∃ e, checked fs s user path next = (.error e, s) := by
  unfold checked
  split
  · exact h (by assumption)
  · exact ⟨_, rfl⟩

theorem checked_final (h : ∃ e, next = (.error e, s) ∧ transient e = false) :
    ∃ e, checked fs s user path next = (.error e, s) ∧ transient e = false := by
  unfold checked
  split
  · exact h
  · rename_i e he
    exact ⟨e, rfl, checkPermission_final he⟩

theorem getAttributes_named (fs : FileSystem) (s : Server) (path : String)
    (h : Named s.tree.objects (real fs path)) :
    ∃ a, getAttributes fs (components path) s = (.ok (.attributes a), s) := by
  obtain ⟨⟨l, i⟩, hl⟩ := Option.ne_none_iff_exists'.mp h
  refine ⟨fileAttr i, ?_⟩
  rw [real] at hl
  rw [getAttributes, getAttributesByPath, hl]

end Parts

theorem changed_of_tree {s : Server} {t : FileTree} (h : t.objects ≠ s.tree.objects) :
    ¬Unchanged s { s with tree := t } := fun hun => h hun.tree

def copies (fs : FileSystem) (user : AuthenticatedUser) (request : Request) (m : Moment)
    (s : Server) : Answer := serve fs s user m request

section Writes

variable {fs : FileSystem} {s : Server} {user : AuthenticatedUser} {path : String}
variable {body : List UInt8} {offset : ℕ}

theorem write_again (m : Moment)
    (h : Written fs s.tree.objects user (components path) body offset) :
    ∃ a s', copies fs user (.writeFile path body offset) m s = (.ok a, s') ∧
      Written fs s'.tree.objects user (components path) body offset ∧ Alike s s' := by
  obtain ⟨t, ht, hwritten, htimes⟩ := writeFile_again m.now h
  obtain ⟨l, i, hl, -⟩ := h.writable
  obtain ⟨k, j, hk, -⟩ := hwritten.writable
  obtain ⟨a, ha⟩ := getAttributes_named fs { s with tree := t } path
    (by simp [Named, real, hk])
  refine ⟨.attributes a, { s with tree := t }, ?_, hwritten, htimes, rfl⟩
  rw [copies, serve, ServerRequests.writeFile,
    checked_of_ok ((checkPermission_named hl).mpr h.writable), ht]
  exact ha

theorem write_refused
    (h : ¬(Permitted fs s user path ∧ Openable s.tree.objects (real fs path))) :
    Refuses (copies fs user (.writeFile path body offset)) s := by
  intro m
  refine checked_refuses fun hperm => ?_
  obtain ⟨e, he⟩ := openCreate_closed (t := s.tree) m.now fun hopen => h ⟨hperm, hopen⟩
  refine ⟨.ofStorage (ofErrno e), ?_⟩
  unfold ServerFileSystem.writeFile
  dsimp only
  rw [← real, he]
  rfl

theorem write_first (hnear : offset < 2 ^ 63) (m : Moment) (hperm : Permitted fs s user path)
    (hopen : Openable s.tree.objects (real fs path)) :
    ∃ a s', copies fs user (.writeFile path body offset) m s = (.ok a, s') ∧
      Written fs s'.tree.objects user (components path) body offset := by
  obtain ⟨t, ht, hwritten⟩ := writeFile_first body hnear m.now hperm hopen
  obtain ⟨k, j, hk, -⟩ := hwritten.writable
  obtain ⟨a, ha⟩ := getAttributes_named fs { s with tree := t } path
    (by simp [Named, real, hk])
  refine ⟨.attributes a, { s with tree := t }, ?_, hwritten⟩
  rw [copies, serve, ServerRequests.writeFile, checked_of_ok hperm, ht]
  exact ha

/-- Where there is a file, a write beyond its positions leaves it as it is. -/
theorem write_far_refused (hfar : 2 ^ 63 ≤ offset)
    (hthere : target s.tree.objects (real fs path) ≠ none) :
    Refuses (copies fs user (.writeFile path body offset)) s := by
  by_cases h : Permitted fs s user path ∧ Openable s.tree.objects (real fs path)
  swap
  · exact write_refused h
  intro m
  obtain ⟨l, t, ht, hl, ⟨-, rfl⟩ | ⟨hfree, -⟩⟩ := writeFile_far body m.now hfar h.2
  · refine ⟨.ofStorage .io, ?_⟩
    rw [copies, serve, ServerRequests.writeFile, checked_of_ok h.1, ht]
    rfl
  · refine (hthere ?_).elim
    rw [real, target, objectAt, hl, Option.bind_some, hfree]
    rfl

/-- A write that makes its file and then finds that no file has the position. -/
structure Strands (fs : FileSystem) (s : Server) (user : AuthenticatedUser) (path : String)
    (offset : ℕ) : Prop where
  far : 2 ^ 63 ≤ offset
  permitted : Permitted fs s user path
  openable : Openable s.tree.objects (real fs path)
  free : target s.tree.objects (real fs path) = none

def OpenAgain (fs : FileSystem) (s : Server) (user : AuthenticatedUser) (path : String) : Prop :=
  lstat s.tree.objects (real fs path) ≠ none ∨
    real fs path = makeRealPath fs.realPath [.rootDir] ∨ user.userId = 0

theorem permits_stranded (now : Timestamp) :
    ServerAccess.permits user ⟨.file [], 0o100644, 0, 0, now, now, now⟩ .write = true ↔
      user.userId = 0 := by
  unfold ServerAccess.permits
  dsimp only
  by_cases huid : user.userId = 0
  · rw [if_pos huid]
    exact iff_of_true (by decide) huid
  · rw [if_neg huid]
    split
    · exact iff_of_false (by decide) huid
    · exact iff_of_false (by decide) huid

theorem write_stranded (h : Strands fs s user path offset) (m : Moment) :
    ∃ e s', copies fs user (.writeFile path body offset) m s = (.error e, s') ∧
      transient e = true ∧ ¬Unchanged s s' ∧
      (OpenAgain fs s user path → ∀ m, ∃ e,
        copies fs user (.writeFile path body offset) m s' = (.error e, s') ∧
          transient e = true) ∧
      (¬OpenAgain fs s user path →
        RefusesFinally (copies fs user (.writeFile path body offset)) transient s') := by
  obtain ⟨l, t, ht, hl, ⟨hthere, -⟩ | ⟨hfree, hl', ho⟩⟩ :=
    writeFile_far body m.now h.far h.openable
  · obtain ⟨i, hi⟩ := Option.ne_none_iff_exists'.mp hthere
    cases h.free.symm.trans (objectAt_some.mpr ⟨hl, hi⟩)
  have hself : t.objects l = some ⟨.file [], 0o100644, 0, 0, m.now, m.now, m.now⟩ := by
    rw [ho, Function.update_self]
  have hplaced : Placed s.tree l ⟨.file [], 0o100644, 0, 0, m.now, m.now, m.now⟩ :=
    ⟨⟨[], rfl⟩, fun i hi => by cases hfree.symm.trans hi⟩
  have hopen : Openable t.objects (real fs path) := by
    refine ⟨l, hl', fun i hi => ⟨[], ?_⟩⟩
    rw [← Option.some.inj (hself.symm.trans hi)]
  refine ⟨.ofStorage .io, { s with tree := t }, ?_, rfl, changed_of_tree fun hsame => ?_, ?_, ?_⟩
  · rw [copies, serve, ServerRequests.writeFile, checked_of_ok h.permitted, ht]
    rfl
  · rw [hsame, hfree] at hself
    cases hself
  · intro hagain m'
    have hwritable : Writable fs t.objects user (components path) := by
      cases hlstat : lstat s.tree.objects (real fs path) with
      | some found =>
        obtain ⟨k, i⟩ := found
        exact hplaced.writable ho ((checkPermission_named hlstat).mp h.permitted)
      | none =>
        refine ⟨l, _, objectAt_some.mpr ⟨resolve_new hlstat hl (hplaced.grows ho) hl', hself⟩, ?_⟩
        rw [permits_stranded]
        exact hagain.resolve_left (not_not.mpr hlstat)
    have hpermitted : Permitted fs { s with tree := t } user path := by
      obtain ⟨k, i, hlstat, hright⟩ := hwritable
      exact (checkPermission_named hlstat).mpr ⟨k, i, hlstat, hright⟩
    obtain ⟨l', t', ht', hk, ⟨-, rfl⟩ | ⟨hgone, -⟩⟩ := writeFile_far body m'.now h.far hopen
    · refine ⟨.ofStorage .io, ?_, rfl⟩
      rw [copies, serve, ServerRequests.writeFile, checked_of_ok hpermitted, ht']
      rfl
    · obtain rfl := Option.some.inj (hl'.symm.trans hk)
      cases hgone.symm.trans hself
  · intro hno m'
    simp only [OpenAgain, not_or, not_not] at hno
    obtain ⟨hlstat, hroot, huid⟩ := hno
    have hnamed : lstat t.objects (real fs path) =
        some (l, ⟨.file [], 0o100644, 0, 0, m.now, m.now, m.now⟩) :=
      objectAt_some.mpr ⟨resolve_new hlstat hl (hplaced.grows ho) hl', hself⟩
    have hdenied : ¬Routes.checkPermission fs t.objects user (components path) .write = .ok () := by
      rw [checkPermission_named hnamed]
      rintro ⟨k, i, hk, hright⟩
      obtain ⟨-, rfl⟩ := Prod.mk.inj (Option.some.inj (hnamed.symm.trans hk))
      exact hright.elim hroot fun hp => huid ((permits_stranded m.now).mp hp)
    cases hcheck : Routes.checkPermission fs t.objects user (components path) .write with
    | ok u => exact (hdenied hcheck).elim
    | error e =>
      refine ⟨e, ?_, checkPermission_final hcheck⟩
      rw [copies, serve, ServerRequests.writeFile, checked, hcheck]

end Writes

section Creations

/-- A directory that the server makes: its parent may be written, and its name is free. -/
def Makes (root : List OsString) (s : Server) (user : AuthenticatedUser) (path : String) : Prop :=
  ∃ before name, rsplitOnce path = some (before, name) ∧
    Permitted ⟨absolute root⟩ s user (if before = "" then "/" else before) ∧
    Vacant s.tree (real ⟨absolute root⟩ path)

def Links (fs : FileSystem) (s : Server) (user : AuthenticatedUser) (path target : String) :
    Prop :=
  Permitted fs s user path ∧ target ≠ "" ∧ Vacant s.tree (real fs path)

def Deletes (fs : FileSystem) (s : Server) (user : AuthenticatedUser) (path : String) : Prop :=
  Permitted fs s user path ∧ Removable s.tree (real fs path)

variable {root : List OsString} {fs : FileSystem} {s : Server} {user : AuthenticatedUser}
variable {path target : String}

/-- A copy that is done, and after which the others are refused for good. -/
def Once (fs : FileSystem) (user : AuthenticatedUser) (request : Request) (s : Server) : Prop :=
  ∀ m, ∃ a s', copies fs user request m s = (.ok a, s') ∧ ¬Unchanged s s' ∧
    RefusesFinally (copies fs user request) transient s'

theorem makeDirectory_once (h : Makes root s user path) :
    Once ⟨absolute root⟩ user (.makeDirectory path) s := by
  obtain ⟨before, name, hsplit, hperm, hvacant⟩ := h
  have hpath : real ⟨absolute root⟩ path = _ := makeRealPath_rsplitOnce root hsplit
  intro m
  obtain ⟨t, ht, hne, hnamed⟩ := makeDir_vacant ⟨absolute root⟩ user m.len m.now
    (hpath ▸ hvacant)
  obtain ⟨a, ha⟩ := getAttributes_named ⟨absolute root⟩ { s with tree := t } path
    (hpath ▸ hnamed)
  refine ⟨.attributes a, { s with tree := t }, ?_, changed_of_tree hne, fun m' => ?_⟩
  · rw [copies, serve, makeDirectory, hsplit]
    dsimp only
    rw [checked_of_ok hperm, ht]
    exact ha
  · rw [copies, serve, makeDirectory, hsplit]
    refine checked_final ⟨.alreadyExists, ?_, rfl⟩
    rw [makeDir_named hnamed]
    rfl

theorem makeDirectory_refused (h : ¬Makes root s user path) :
    Refuses (copies ⟨absolute root⟩ user (.makeDirectory path)) s := by
  intro m
  rw [copies, serve, makeDirectory]
  split
  · exact ⟨_, rfl⟩
  · rename_i before name hsplit
    have hpath : real ⟨absolute root⟩ path = _ := makeRealPath_rsplitOnce root hsplit
    refine checked_refuses fun hperm => ?_
    obtain ⟨e, he⟩ := makeDir_taken (t := s.tree) ⟨absolute root⟩ user m.len m.now
      fun hvacant => h ⟨before, name, hsplit, hperm, hpath ▸ hvacant⟩
    rw [he]
    exact ⟨_, rfl⟩

theorem createSymlink_once (h : Links fs s user path target) :
    Once fs user (.createSymlink path target) s := by
  obtain ⟨hperm, htarget, hvacant⟩ := h
  intro m
  obtain ⟨a, t, ht, hne, hnamed⟩ := createSymlink_vacant m.now htarget hvacant
  refine ⟨.attributes a, { s with tree := t }, ?_, changed_of_tree hne, fun m' => ?_⟩
  · rw [copies, serve, ServerRequests.createSymlink, checked_of_ok hperm, ht]
    rfl
  · refine checked_final ⟨.alreadyExists, ?_, rfl⟩
    rw [createSymlink_named hnamed]
    rfl

theorem createSymlink_refused (h : ¬Links fs s user path target) :
    Refuses (copies fs user (.createSymlink path target)) s := by
  intro m
  refine checked_refuses fun hperm => ?_
  obtain ⟨e, he⟩ := createSymlink_taken target m.now
    fun htaken => h ⟨hperm, htaken⟩
  rw [he]
  exact ⟨_, rfl⟩

theorem deleteItem_once (h : Deletes fs s user path) : Once fs user (.deleteItem path) s := by
  obtain ⟨hperm, hremovable⟩ := h
  intro m
  obtain ⟨t, ht, hne, hnamed⟩ := delete_removable hremovable
  refine ⟨.done, ⟨t, s.xattributes.delete (atPath path)⟩, ?_, fun hun => hne hun.tree,
    fun m' => ?_⟩
  · rw [copies, serve, deleteItem, checked_of_ok hperm, ht]
    rfl
  · refine checked_final ⟨.notFound, ?_, rfl⟩
    rw [delete_unnamed hnamed]
    rfl

theorem deleteItem_refused (h : ¬Deletes fs s user path) :
    Refuses (copies fs user (.deleteItem path)) s := by
  intro m
  refine checked_refuses fun hperm => ?_
  obtain ⟨e, he⟩ := delete_unremovable fun hremovable => h ⟨hperm, hremovable⟩
  rw [he]
  exact ⟨_, rfl⟩

end Creations

end ServerRepeatedRequests
