import RemoteFs.FileBytes
import RemoteFs.PosixTree
import RemoteFs.ServerDatabase
import RemoteFs.ServerPaths
import RemoteFs.Timestamps

/-! # The server's storage and its permission check

The server process opens whatever a path leads to; what a user may do is decided before, by
`is_allowed`. Every call also reports the objects it touched, each with the owner and mode
it had then, so that the check can be compared with the access. Texts that come from the
operating system are left out of the errors. -/
namespace ServerStorage

open ClientAttributes
open FileBytes
open OsPaths
open PosixTree
open ServerPaths
open Timestamps

inductive Operation where
  | read
  | write
  | execute
  | ownerOnly
  deriving DecidableEq, Repr

structure PermissionType where
  read : Bool
  write : Bool
  execute : Bool
  deriving DecidableEq, Repr

structure Permission where
  user : PermissionType
  group : PermissionType
  other : PermissionType
  deriving DecidableEq, Repr

def PermissionType.ofBits (value : ℕ) : PermissionType :=
  ⟨value.testBit 2, value.testBit 1, value.testBit 0⟩

def Permission.ofMode (mode : ℕ) : Permission :=
  let value := mode % 2 ^ 16
  ⟨.ofBits (value >>> 6), .ofBits (value >>> 3), .ofBits value⟩

inductive StorageError where
  | io
  | notFound
  | alreadyExists
  | permissionDenied
  | directoryNotEmpty
  | other
  deriving DecidableEq, Repr

inductive ApiError where
  | ioError
  | notFound
  | alreadyExists
  | permissionDenied (message : String)
  | directoryNotEmpty
  | invalidInput (message : String)
  | internalError (m : ServerDatabase.Message)
  deriving DecidableEq, Repr

def ApiError.ofStorage : StorageError → ApiError
  | .io => .ioError
  | .notFound => .notFound
  | .alreadyExists => .alreadyExists
  | .permissionDenied => .permissionDenied "Permission denied"
  | .directoryNotEmpty => .directoryNotEmpty
  | .other => .internalError (.text "Other storage error")

inductive Act where
  | readBytes
  | writeBytes
  | setMode
  | setOwner
  | setSize
  | setMtime
  | setAtime
  deriving DecidableEq, Repr

structure Access where
  object : Location
  info : Inode
  act : Act
  deriving DecidableEq, Repr

structure Done (α : Type) where
  result : α
  tree : Tree
  accesses : List Access

structure FileSystem where
  realPath : Path

structure AuthenticatedUser where
  userId : ℕ
  groupId : ℕ
  deriving DecidableEq, Repr

def fileAttr (i : Inode) : Attributes where
  size := match i.kind with
    | .file bytes => bytes.length
    | .directory len => len
    | .symlink target => target.utf8ByteSize
  blocks := 0
  atime := reported i.atime
  mtime := reported i.mtime
  ctime := i.ctime
  kind := match i.kind with
    | .file _ => .regularFile
    | .directory _ => .directory
    | .symlink _ => .symlink
  perm := i.mode
  nlink := match i.kind with
    | .directory _ => 2
    | _ => 1
  uid := i.uid
  gid := i.gid
  rdev := 0
  blksize := 0

def getAttributesByPath (t : Tree) (p : Path) : Except StorageError Attributes :=
  match lstat t p with
  | some (_, i) => .ok (fileAttr i)
  | none => .error .notFound

/-- `From<std::io::Error>` where the path of a call leads to no object. -/
def lost (t : Tree) (follow : Bool) (real : Path) : StorageError :=
  if blocked t follow real then .io else .notFound

/-- A system call that acts on what the path leads to; it may refuse the object. -/
def change (t : Tree) (real : Path) (act : Act) (f : Inode → Option Inode) :
    Except StorageError (Tree × List Access) :=
  match target t real with
  | none => .error (if act = .setOwner then .other else lost t true real)
  | some (l, i) =>
    match f i with
    | none => .error .io
    | some j => .ok (Function.update t l (some j), [⟨l, i, act⟩])

/-- `open` for writing with `create`: a new file belongs to the server process. -/
def openCreate (t : Tree) (real : Path) (now : Timestamp) :
    Except StorageError (Location × Inode × List UInt8) :=
  match resolve t true real with
  | none => .error (lost t true real)
  | some l =>
    match t l with
    | none => .ok (l, ⟨.file [], 0o100644, 0, 0, now, now, now⟩, [])
    | some i =>
      match i.kind with
      | .file bytes => .ok (l, i, bytes)
      | _ => .error .io

def setOwner (user : AuthenticatedUser) (t : Tree) (real : Path) (now : Timestamp) :
    Except StorageError Tree := do
  let done ← change t real .setOwner fun i =>
    some (i.chown user.userId user.groupId now)
  .ok done.1

namespace FileSystem

variable (fs : FileSystem) (t : Tree) (user : AuthenticatedUser)

def isAllowed (path : Path) (operation : Operation) : Except StorageError Bool := do
  let real := makeRealPath fs.realPath path
  let checked ← (if (lstat t real).isNone then
      match real.parent with
      | none => .error .notFound
      | some parent => .ok parent
    else .ok real)
  let attributes ← getAttributesByPath t checked
  let permissions := Permission.ofMode attributes.perm
  if checked = makeRealPath fs.realPath [.rootDir] then .ok true
  else if user.userId = attributes.uid then
    match operation with
    | .read => .ok permissions.user.read
    | .write => .ok permissions.user.write
    | .execute => .ok permissions.user.execute
    | .ownerOnly => .ok true
  else if user.groupId = attributes.gid then
    match operation with
    | .read => .ok permissions.group.read
    | .write => .ok permissions.group.write
    | .execute => .ok permissions.group.execute
    | .ownerOnly => .ok false
  else
    match operation with
    | .read => .ok permissions.other.read
    | .write => .ok permissions.other.write
    | .execute => .ok permissions.other.execute
    | .ownerOnly => .ok false

def readFile (path : Path) (offset size : ℕ) : Except StorageError (Done (List UInt8)) :=
  match target t (makeRealPath fs.realPath path) with
  | none => .error (lost t true (makeRealPath fs.realPath path))
  | some (l, i) =>
    match i.kind with
    | .file bytes => .ok ⟨slice bytes offset size, t, [⟨l, i, .readBytes⟩]⟩
    | _ => .error .io

/-- The access is to the file as it is left: a new one is the user's by then. -/
def writeFile (path : Path) (data : List UInt8) (offset : ℕ) (now : Timestamp) :
    Except StorageError (Done Unit) := do
  let real := makeRealPath fs.realPath path
  let created := (lstat t real).isNone
  let (l, i, bytes) ← openCreate t real now
  let written := if data = [] then i
    else { i with kind := .file (writeAt 0 bytes offset data), mtime := now, ctime := now }
  let t := Function.update t l (some written)
  let t ← (if created then setOwner user t real now else .ok t)
  .ok ⟨(), t, ((t l).map fun i => ⟨l, i, .writeBytes⟩).toList⟩

def setAttributesMode (path : Path) (new : SetAttr) (now : Timestamp) :
    Except StorageError (Tree × List Access) :=
  match new.mode with
  | none => .ok (t, [])
  | some mode => do
    if ← fs.isAllowed t user path .ownerOnly then
      change t (makeRealPath fs.realPath path) .setMode fun i =>
        some { i with mode := i.mode / 0o10000 * 0o10000 + mode % 0o10000, ctime := now }
    else .error .permissionDenied

/-- Only root changes the owner; the group must be the user's own. -/
def resolveId (request : Option ℕ) (current : ℕ) (isMember : Bool) :
    Except StorageError (Option ℕ) :=
  match request with
  | some r =>
    if r = current then .ok none
    else if user.userId = 0 || isMember then .ok (some r)
    else .error .permissionDenied
  | none => .ok none

def setAttributesOwner (path : Path) (new : SetAttr) (now : Timestamp) :
    Except StorageError (Tree × List Access) := do
  if new.uid.isSome || new.gid.isSome then
    if !(← fs.isAllowed t user path .ownerOnly) then .error .permissionDenied
    else
      let real := makeRealPath fs.realPath path
      let metadata ← getAttributesByPath t real
      let uid ← resolveId user new.uid metadata.uid false
      let gid ← resolveId user new.gid metadata.gid (new.gid = some user.groupId)
      if uid.isSome || gid.isSome then
        change t real .setOwner fun i =>
          some (i.chown (uid.getD i.uid) (gid.getD i.gid) now)
      else .ok (t, [])
  else .ok (t, [])

def setAttributesSize (path : Path) (new : SetAttr) (now : Timestamp) :
    Except StorageError (Tree × List Access) :=
  match new.size with
  | none => .ok (t, [])
  | some size => do
    if ← fs.isAllowed t user path .write then
      change t (makeRealPath fs.realPath path) .setSize fun i =>
        match i.kind with
        | .file bytes =>
          some { i with kind := .file (resize 0 bytes size), mtime := now, ctime := now }
        | _ => none
    else .error .permissionDenied

/-- Both times are always set; one that was not asked for to what `lstat` reports. Where a time
does not convert, the call panics; that is left out here. -/
def setAttributesTimes (path : Path) (new : SetAttr) (now : Timestamp) :
    Except StorageError (Tree × List Access) := do
  let allowed ← (if new.mtime.isSome then fs.isAllowed t user path .write else .ok true)
  if !allowed then .error .permissionDenied
  else
    let real := makeRealPath fs.realPath path
    match lstat t real with
    | none => .error (lost t false real)
    | some (_, metadata) =>
      change t real (if new.mtime.isSome then .setMtime else .setAtime) fun i =>
        some { i with
          atime := new.atime.getD metadata.atime
          mtime := new.mtime.getD metadata.mtime
          ctime := now }

/-- The four parts of `set_attributes`, each on the tree that the one before has left. -/
def setAttributes (path : Path) (new : SetAttr) (now : Timestamp) :
    Except StorageError (Done Attributes) := do
  let mode ← fs.setAttributesMode t user path new now
  let owner ← fs.setAttributesOwner mode.1 user path new now
  let size ← fs.setAttributesSize owner.1 user path new now
  let times ← fs.setAttributesTimes size.1 user path new now
  let attributes ← getAttributesByPath times.1 (makeRealPath fs.realPath path)
  .ok ⟨attributes, times.1, mode.2 ++ owner.2 ++ size.2 ++ times.2⟩

def createSymlink (path : Path) (target : String) (now : Timestamp) :
    Except StorageError (Attributes × Tree) := do
  let real := makeRealPath fs.realPath path
  if (lstat t real).isSome then .error .alreadyExists
  else if target = "" then .error .notFound
  else
    match resolve t false real with
    | none => .error (lost t false real)
    | some l =>
      let t := Function.update t l (some ⟨.symlink target, 0o120777, 0, 0, now, now, now⟩)
      let attributes ← getAttributesByPath t real
      .ok (attributes, t)

end FileSystem

namespace Routes

variable (fs : FileSystem) (t : Tree) (user : AuthenticatedUser)

def ofStorage {α : Type} : Except StorageError α → Except ApiError α
  | .ok a => .ok a
  | .error e => .error (.ofStorage e)

def checkPermission (path : Path) (op : Operation) : Except ApiError Unit :=
  match fs.isAllowed t user path op with
  | .ok true => .ok ()
  | .ok false => .error (.permissionDenied "You do not have the needed permissions.")
  | .error e => .error (.ofStorage e)

def getFileContent (path : Path) (offset size : ℕ) : Except ApiError (Done (List UInt8)) := do
  checkPermission fs t user path .read
  ofStorage (fs.readFile t path offset size)

def writeFile (path : Path) (data : List UInt8) (offset : ℕ) (now : Timestamp) :
    Except ApiError (Done Attributes) := do
  checkPermission fs t user path .write
  let done ← ofStorage (fs.writeFile t user path data offset now)
  let attributes ← ofStorage (getAttributesByPath done.tree (makeRealPath fs.realPath path))
  .ok ⟨attributes, done.tree, done.accesses⟩

def setAttributes (path : Path) (new : SetAttr) (now : Timestamp) :
    Except ApiError (Done Attributes) := ofStorage (fs.setAttributes t user path new now)

def createSymlink (path : Path) (target : String) (now : Timestamp) :
    Except ApiError (Attributes × Tree) := do
  checkPermission fs t user path .write
  ofStorage (fs.createSymlink t path target now)

end Routes

end ServerStorage
