import RemoteFs.Interleaving
import RemoteFs.ServerRequests

/-! # A request as its file-system calls

A handler reads and changes the tree by one system call after another, and other requests run in
between. A file that was opened may have been renamed before it is written, so where it stands
then is given. -/
namespace ServerCallSteps

open ClientAttributes
open Interleaving
open OsPaths
open PosixTree
open PosixFileTree
open PosixCalls
open ServerPaths
open ServerStorage
open ServerFileSystem
open ServerRequests

inductive SysCall where
  | look
  | mkdir (p : Path) (len : ℕ) (now : Timestamp)
  | symlink (target : String) (p : Path) (now : Timestamp)
  | rename (old new : Path)
  | openCreate (p : Path) (now : Timestamp)
  | pwrite (file : Option Location) (data : List UInt8) (offset : ℕ) (now : Timestamp)
  | chown (p : Path) (uid gid : ℕ) (now : Timestamp)
  | unlink (p : Path)
  | rmdir (p : Path)

def SysCall.result (t : FileTree) : SysCall → Except Errno FileTree
  | .look => .ok t
  | .mkdir p len now => PosixCalls.mkdir t p len now
  | .symlink target p now => PosixCalls.symlink t target p now
  | .rename old new => PosixCalls.rename t old new
  | .openCreate p now => (PosixCalls.openCreate t p now).map Prod.snd
  | .pwrite none _ _ _ => .ok t
  | .pwrite (some l) data offset now => .ok (PosixCalls.pwrite t l data offset now)
  | .chown p uid gid now => PosixCalls.chown t p uid gid now
  | .unlink p => PosixCalls.unlink t p
  | .rmdir p => PosixCalls.rmdir t p

def SysCall.apply (c : SysCall) (t : FileTree) : FileTree :=
  match c.result t with
  | .ok t' => t'
  | .error _ => t

abbrev Steps := Program FileTree SysCall (Except ApiError Unit)

def fails (e : StorageError) : Steps := .pure (.error (.ofStorage e))

def inspect (f : FileTree → Steps) : Steps := .step (fun _ => .look) f

def attempt (c : SysCall) (ofError : Errno → StorageError) (next : Steps) : Steps :=
  .step (fun _ => c) fun t =>
    match c.result t with
    | .ok _ => next
    | .error e => fails (ofError e)

variable (fs : FileSystem) (user : AuthenticatedUser)

def mayWrite (checked : Path) (attributes : Attributes) : Bool :=
  let permissions := Permission.ofMode attributes.perm
  if checked = makeRealPath fs.realPath [.rootDir] then true
  else if user.userId = attributes.uid then permissions.user.write
  else if user.groupId = attributes.gid then permissions.group.write
  else permissions.other.write

def checkSteps (path : Path) (next : Steps) : Steps :=
  let real := makeRealPath fs.realPath path
  inspect fun t =>
    match if (lstat t.objects real).isNone then real.parent else some real with
    | none => fails .notFound
    | some checked =>
      inspect fun t =>
        match getAttributesByPath t.objects checked with
        | .error e => fails e
        | .ok attributes =>
          if mayWrite fs user checked attributes then next
          else .pure (.error (.permissionDenied "You do not have the needed permissions."))

def getAttributesSteps (path : Path) : Steps :=
  inspect fun t =>
    match getAttributesByPath t.objects (makeRealPath fs.realPath path) with
    | .error e => fails e
    | .ok _ => .pure (.ok ())

def setOwnerSteps (real : Path) (now : Timestamp) (next : Steps) : Steps :=
  attempt (.chown real user.userId user.groupId now) (fun _ => .other) next

def makeDirSteps (path name : Path) (m : Moment) (next : Steps) : Steps :=
  let target := (makeRealPath fs.realPath path).join name
  inspect fun t =>
    if (lstat t.objects target).isSome then fails .alreadyExists
    else
      attempt (.mkdir target m.len m.now) ofErrno <|
        setOwnerSteps user target m.now next

/-- `handle` says where the opened file stands when it is written. -/
def writeFileSteps (handle : FileTree → Location → Option Location) (path : Path)
    (data : List UInt8) (offset : ℕ) (now : Timestamp) (next : Steps) : Steps :=
  let real := makeRealPath fs.realPath path
  inspect fun t =>
    let created := (lstat t.objects real).isNone
    .step (fun _ => .openCreate real now) fun t =>
      match PosixCalls.openCreate t real now with
      | .error e => fails (ofErrno e)
      | .ok (l, _) =>
        if 2 ^ 63 ≤ offset then fails .io
        else
          .step (fun t => .pwrite (handle t l) data offset now) fun _ =>
            if created then setOwnerSteps user real now next else next

def createSymlinkSteps (path : Path) (target : String) (now : Timestamp) : Steps :=
  let real := makeRealPath fs.realPath path
  inspect fun t =>
    if (lstat t.objects real).isSome then fails .alreadyExists
    else
      attempt (.symlink target real now) ofErrno <|
        inspect fun t =>
          match getAttributesByPath t.objects real with
          | .error e => fails e
          | .ok _ => .pure (.ok ())

def renameStep (old new : Path) : Steps := attempt (.rename old new) ofErrno (.pure (.ok ()))

def renameSteps (oldPath newPath : Path) (flags : RenameFlags) : Steps :=
  let old := makeRealPath fs.realPath oldPath
  let new := makeRealPath fs.realPath newPath
  if flags.exchange then
    let tmp := old.withExtension ".swap_tmp"
    attempt (.rename old tmp) ofErrno <| attempt (.rename new old) ofErrno <| renameStep tmp new
  else if flags.noreplace then
    inspect fun t =>
      if (lstat t.objects new).isSome then fails .alreadyExists else renameStep old new
  else renameStep old new

def deleteSteps (path : Path) : Steps :=
  let real := makeRealPath fs.realPath path
  inspect fun t =>
    match lstat t.objects real with
    | none => fails .notFound
    | some (_, i) =>
      match i.kind with
      | .directory _ =>
        inspect fun t =>
          match directoryAt t.objects real with
          | none =>
            fails (if (PosixTree.resolve t.objects true real).isSome then .io else .notFound)
          | some l =>
            if t.entries l ≠ [] then fails .directoryNotEmpty
            else attempt (.rmdir real) ofErrno (.pure (.ok ()))
      | _ => attempt (.unlink real) ofErrno (.pure (.ok ()))

def steps (handle : FileTree → Location → Option Location) (m : Moment) : Request → Steps
  | .writeFile path body offset =>
    checkSteps fs user (components path) <|
      writeFileSteps fs user handle (components path) body offset m.now <|
        getAttributesSteps fs (components path)
  | .makeDirectory path =>
    match rsplitOnce path with
    | none => .pure (.error (.invalidInput "Invalid path"))
    | some (p, name) =>
      let parent := components (if p = "" then "/" else p)
      checkSteps fs user parent <|
        makeDirSteps fs user parent (components name) m <|
          getAttributesSteps fs (components path)
  | .createSymlink path target =>
    checkSteps fs user (components path) <|
      createSymlinkSteps fs (components path) target m.now
  | .rename oldPath newPath flags =>
    checkSteps fs user (components oldPath) <| checkSteps fs user (components newPath) <|
      renameSteps fs (components oldPath) (components newPath) (.fromBitsTruncate flags)
  | .deleteItem path => checkSteps fs user (components path) <| deleteSteps fs (components path)
  | .setXAttributes path _ _ => checkSteps fs user (components path) (.pure (.ok ()))
  | .deleteXAttributes path _ => checkSteps fs user (components path) (.pure (.ok ()))

/-! Without other requests the calls leave the tree that the handler leaves -/

section Alone

variable {fs : FileSystem} {user : AuthenticatedUser} {t : FileTree} {path : Path}
variable {next : Steps} {handle : FileTree → Location → Option Location} {m : Moment}

def followed {α : Type} (r : ServerFileSystem.Result α) (next : Steps) :
    Except ApiError Unit × FileTree :=
  match r with
  | (.ok _, t) => next.run SysCall.apply t
  | (.error e, t) => (.error (.ofStorage e), t)

theorem inspect_run (f : FileTree → Steps) (t : FileTree) :
    (inspect f).run SysCall.apply t = (f t).run SysCall.apply t := rfl

theorem attempt_ok {c : SysCall} {ofError : Errno → StorageError} {t' : FileTree}
    (h : c.result t = .ok t') :
    (attempt c ofError next).run SysCall.apply t = next.run SysCall.apply t' := by
  rw [attempt, Program.run, SysCall.apply, h]

theorem attempt_error {c : SysCall} {ofError : Errno → StorageError} {e : Errno}
    (h : c.result t = .error e) : (attempt c ofError next).run SysCall.apply t =
      (.error (.ofStorage (ofError e)), t) := by
  rw [attempt, Program.run, SysCall.apply, h]
  rfl

/-- The check looks twice, and then decides. -/
theorem isAllowed_eq : fs.isAllowed t.objects user path .write =
    match if (lstat t.objects (makeRealPath fs.realPath path)).isNone then
        (makeRealPath fs.realPath path).parent else some (makeRealPath fs.realPath path) with
    | none => .error .notFound
    | some checked =>
      (getAttributesByPath t.objects checked).map (mayWrite fs user checked) := by
  have hread : ∀ checked, (do
      let attributes ← getAttributesByPath t.objects checked
      let permissions := Permission.ofMode attributes.perm
      if checked = makeRealPath fs.realPath [.rootDir] then .ok true
      else if user.userId = attributes.uid then .ok permissions.user.write
      else if user.groupId = attributes.gid then .ok permissions.group.write
      else .ok permissions.other.write) =
        (getAttributesByPath t.objects checked).map (mayWrite fs user checked) := by
    intro checked
    cases getAttributesByPath t.objects checked with
    | error e => rfl
    | ok attributes =>
      change (if _ then _ else if _ then _ else if _ then _ else _) = Except.ok (mayWrite ..)
      unfold mayWrite
      dsimp only
      split
      · rfl
      · split
        · rfl
        · split <;> rfl
  unfold FileSystem.isAllowed
  dsimp only
  split
  · cases hparent : (makeRealPath fs.realPath path).parent with
    | none => rfl
    | some checked => exact hread checked
  · exact hread _

theorem checkSteps_run (next : Steps) : (checkSteps fs user path next).run SysCall.apply t =
    match Routes.checkPermission fs t.objects user path .write with
    | .ok () => next.run SysCall.apply t
    | .error e => (.error e, t) := by
  unfold checkSteps Routes.checkPermission
  rw [isAllowed_eq, inspect_run]
  split
  · rfl
  · rename_i checked _
    rw [inspect_run]
    cases getAttributesByPath t.objects checked with
    | error e => rfl
    | ok attributes =>
      dsimp only [Except.map]
      cases mayWrite fs user checked attributes <;> rfl

theorem setOwnerSteps_run (real : Path) (now : Timestamp) (next : Steps) :
    (setOwnerSteps user real now next).run SysCall.apply t =
      followed (ServerFileSystem.setOwner t user real now) next := by
  unfold setOwnerSteps ServerFileSystem.setOwner
  cases h : chown t real user.userId user.groupId now with
  | ok t' => exact attempt_ok h
  | error e => exact attempt_error h

theorem makeDirSteps_run (name : Path) :
    (makeDirSteps fs user path name m next).run SysCall.apply t =
      followed (makeDir fs t user path name m.len m.now) next := by
  unfold makeDirSteps makeDir
  dsimp only
  rw [inspect_run]
  split
  · rfl
  · cases h : mkdir t ((makeRealPath fs.realPath path).join name) m.len m.now with
    | ok t' => exact (attempt_ok (c := .mkdir _ _ _) h).trans (setOwnerSteps_run ..)
    | error e => exact attempt_error h

theorem createSymlinkSteps_run (target : String) (now : Timestamp) :
    (createSymlinkSteps fs path target now).run SysCall.apply t =
      followed (ServerFileSystem.createSymlink fs t path target now) (.pure (.ok ())) := by
  unfold createSymlinkSteps ServerFileSystem.createSymlink
  dsimp only
  rw [inspect_run]
  split
  · rfl
  · cases h : symlink t target (makeRealPath fs.realPath path) now with
    | ok t' =>
      refine (attempt_ok (c := .symlink _ _ _) h).trans ?_
      rw [inspect_run]
      dsimp only
      cases getAttributesByPath t'.objects (makeRealPath fs.realPath path) <;> rfl
    | error e => exact attempt_error h

theorem renameStep_run (old new : Path) : (renameStep old new).run SysCall.apply t =
    followed (finish t (PosixCalls.rename t old new)) (.pure (.ok ())) := by
  unfold renameStep
  cases h : PosixCalls.rename t old new with
  | ok t' => exact attempt_ok h
  | error e => exact attempt_error h

theorem renameSteps_run (oldPath newPath : Path) (flags : RenameFlags) :
    (renameSteps fs oldPath newPath flags).run SysCall.apply t =
      followed (ServerFileSystem.rename fs t oldPath newPath flags) (.pure (.ok ())) := by
  unfold renameSteps ServerFileSystem.rename
  dsimp only
  by_cases hx : flags.exchange = true
  · rw [if_pos hx, if_pos hx, renameExchange]
    cases h₁ : PosixCalls.rename t (makeRealPath fs.realPath oldPath)
        ((makeRealPath fs.realPath oldPath).withExtension ".swap_tmp") with
    | error e => exact attempt_error h₁
    | ok t₁ =>
      refine (attempt_ok (c := .rename _ _) h₁).trans ?_
      dsimp only
      cases h₂ : PosixCalls.rename t₁ (makeRealPath fs.realPath newPath)
          (makeRealPath fs.realPath oldPath) with
      | error e => exact attempt_error (c := .rename _ _) h₂
      | ok t₂ => exact (attempt_ok (c := .rename _ _) h₂).trans (renameStep_run ..)
  rw [if_neg hx, if_neg hx]
  by_cases hno : flags.noreplace = true
  · rw [if_pos hno, hno, Bool.true_and, inspect_run]
    split
    · rfl
    · exact renameStep_run ..
  · rw [if_neg hno, Bool.eq_false_iff.mpr hno, Bool.false_and, if_neg Bool.false_ne_true]
    exact renameStep_run ..

theorem writeFileSteps_run (hhandle : ∀ t l, handle t l = some l) (data : List UInt8)
    (offset : ℕ) (now : Timestamp) :
    (writeFileSteps fs user handle path data offset now next).run SysCall.apply t =
      followed (ServerFileSystem.writeFile fs t user path data offset now) next := by
  unfold writeFileSteps ServerFileSystem.writeFile
  dsimp only
  rw [inspect_run, Program.run, SysCall.apply, SysCall.result]
  cases h : PosixCalls.openCreate t (makeRealPath fs.realPath path) now with
  | error e => rfl
  | ok opened =>
    obtain ⟨l, t₁⟩ := opened
    dsimp only [Except.map]
    by_cases hfar : 2 ^ 63 ≤ offset
    · rw [if_pos hfar, if_pos hfar]
      rfl
    rw [if_neg hfar, if_neg hfar, Program.run, hhandle]
    split
    · exact setOwnerSteps_run ..
    · rfl

theorem deleteSteps_run : (deleteSteps fs path).run SysCall.apply t =
    followed (delete fs t path) (.pure (.ok ())) := by
  unfold deleteSteps delete
  dsimp only
  rw [inspect_run]
  cases hl : lstat t.objects (makeRealPath fs.realPath path) with
  | none => rfl
  | some found =>
    obtain ⟨l, i⟩ := found
    dsimp only
    cases hkind : i.kind with
    | directory len =>
      dsimp only
      obtain ⟨hresolve, hobj⟩ := objectAt_some.mp hl
      have hlook : look t.objects l = .directory := by
        rw [PosixTree.look_some hobj, hkind]
        rfl
      have hdir : directoryAt t.objects (makeRealPath fs.realPath path) = some l := by
        refine directoryAt_eq_some.mpr ⟨walk_follow ?_ _ _ _ hresolve, hlook⟩
        rw [hlook]
        rfl
      rw [inspect_run, hdir]
      dsimp only
      split
      · rfl
      · cases h : rmdir t (makeRealPath fs.realPath path) with
        | ok t' => exact attempt_ok (c := .rmdir _) h
        | error e => exact attempt_error (c := .rmdir _) h
    | _ =>
      dsimp only
      cases h : unlink t (makeRealPath fs.realPath path) with
      | ok t' => exact attempt_ok (c := .unlink _) h
      | error e => exact attempt_error (c := .unlink _) h

theorem steps_run (s : Server) (hhandle : ∀ t l, handle t l = some l) (request : Request) :
    ((steps fs user handle m request).run SysCall.apply s.tree).2 =
      (serve fs s user m request).2.tree := by
  have hchecked : ∀ {path : Path} {next : Steps} {answer : Answer},
      (next.run SysCall.apply s.tree).2 = answer.2.tree →
        ((checkSteps fs user path next).run SysCall.apply s.tree).2 =
          (checked fs s user path answer).2.tree := by
    intro path next answer h
    rw [checkSteps_run, checked]
    cases Routes.checkPermission fs s.tree.objects user path .write with
    | ok u => exact h
    | error e => rfl
  have hthen : ∀ {α : Type} (r : ServerFileSystem.Result α) (next : Steps)
      (rest : α → Server → Answer), (∀ a t, (next.run SysCall.apply t).2 =
        (rest a { s with tree := t }).2.tree) →
          (followed r next).2 = (thenTree s r rest).2.tree := by
    rintro α ⟨res, t⟩ next rest h
    cases res with
    | ok a => exact h a t
    | error e => rfl
  have hattributes : ∀ (path : Path) (s : Server),
      ((getAttributesSteps fs path).run SysCall.apply s.tree).2 =
        (getAttributes fs path s).2.tree := by
    intro path s
    rw [getAttributesSteps, inspect_run, getAttributes]
    cases getAttributesByPath s.tree.objects (makeRealPath fs.realPath path) <;> rfl
  have htable : ∀ (s : Server) (r : ServerXattributes.Result Unit),
      (thenTable s r).2.tree = s.tree := by
    rintro s ⟨res, x⟩
    cases res <;> rfl
  cases request with
  | writeFile path body offset =>
    refine hchecked ?_
    rw [writeFileSteps_run hhandle]
    exact hthen _ _ _ fun _ t => hattributes _ ⟨t, s.xattributes⟩
  | makeDirectory path =>
    rw [serve, makeDirectory, steps]
    cases rsplitOnce path with
    | none => rfl
    | some parts =>
      refine hchecked ?_
      rw [makeDirSteps_run]
      exact hthen _ _ _ fun _ t => hattributes _ ⟨t, s.xattributes⟩
  | createSymlink path target =>
    refine hchecked ?_
    rw [createSymlinkSteps_run]
    exact hthen _ _ _ fun _ _ => rfl
  | rename oldPath newPath flags =>
    refine hchecked (hchecked ?_)
    rw [renameSteps_run]
    refine hthen _ _ _ fun _ t => ?_
    split <;> exact (htable ⟨t, s.xattributes⟩ _).symm
  | deleteItem path =>
    refine hchecked ?_
    rw [deleteSteps_run]
    exact hthen _ _ _ fun _ t => (htable ⟨t, s.xattributes⟩ _).symm
  | setXAttributes path name xattributes => exact hchecked (htable s _).symm
  | deleteXAttributes path name => exact hchecked (htable s _).symm

end Alone

end ServerCallSteps
