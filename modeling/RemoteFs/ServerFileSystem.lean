import RemoteFs.PosixCalls
import RemoteFs.ServerAccess

/-! # The storage calls that change which objects there are

Each is a few system calls in a row; after a failing one the tree stays as the calls before it
have left it. -/
namespace ServerFileSystem

open ClientAttributes
open OsPaths
open PosixTree
open PosixFileTree
open PosixCalls
open ServerPaths
open ServerStorage

structure RenameFlags where
  noreplace : Bool
  exchange : Bool
  whiteout : Bool
  deriving DecidableEq, Repr

def RenameFlags.fromBitsTruncate (bits : ℕ) : RenameFlags :=
  ⟨bits.testBit 0, bits.testBit 1, bits.testBit 2⟩

def ofErrno : Errno → StorageError
  | .noEntry => .notFound
  | .alreadyExists => .alreadyExists
  | .notEmpty => .directoryNotEmpty
  | .busy | .invalid | .notDirectory | .isDirectory => .io

abbrev Result (α : Type) := Except StorageError α × FileTree

def finish (t : FileTree) : Except Errno FileTree → Result Unit
  | .ok t' => (.ok (), t')
  | .error e => (.error (ofErrno e), t)

variable (fs : FileSystem) (t : FileTree) (user : AuthenticatedUser)

/-- What `chown` does not allow is `StorageError::Other`. -/
def setOwner (real : Path) (now : Timestamp) : Result Unit :=
  match chown t real user.userId user.groupId now with
  | .ok t' => (.ok (), t')
  | .error _ => (.error .other, t)

def makeDir (path name : Path) (len : ℕ) (now : Timestamp) : Result Unit :=
  let target := (makeRealPath fs.realPath path).join name
  if (lstat t.objects target).isSome then (.error .alreadyExists, t)
  else
    match mkdir t target len now with
    | .error e => (.error (ofErrno e), t)
    | .ok t' => setOwner t' user target now

def renameExchange (a b : Path) : Result Unit :=
  let tmp := a.withExtension ".swap_tmp"
  match PosixCalls.rename t a tmp with
  | .error e => (.error (ofErrno e), t)
  | .ok t₁ =>
    match PosixCalls.rename t₁ b a with
    | .error e => (.error (ofErrno e), t₁)
    | .ok t₂ => finish t₂ (PosixCalls.rename t₂ tmp b)

def rename (oldPath newPath : Path) (flags : RenameFlags) : Result Unit :=
  let old := makeRealPath fs.realPath oldPath
  let new := makeRealPath fs.realPath newPath
  if flags.exchange then renameExchange t old new
  else if flags.noreplace && (lstat t.objects new).isSome then (.error .alreadyExists, t)
  else finish t (PosixCalls.rename t old new)

def delete (path : Path) : Result Unit :=
  let real := makeRealPath fs.realPath path
  match lstat t.objects real with
  | none => (.error .notFound, t)
  | some (l, i) =>
    match i.kind with
    | .directory _ =>
      if t.entries l ≠ [] then (.error .directoryNotEmpty, t) else finish t (rmdir t real)
    | _ => finish t (unlink t real)

/-- `seek` takes the offset as an `i64`; the file is open by then. -/
def writeFile (path : Path) (data : List UInt8) (offset : ℕ) (now : Timestamp) : Result Unit :=
  let real := makeRealPath fs.realPath path
  let created := (lstat t.objects real).isNone
  match PosixCalls.openCreate t real now with
  | .error e => (.error (ofErrno e), t)
  | .ok (l, t₁) =>
    if 2 ^ 63 ≤ offset then (.error .io, t₁)
    else
      let t₂ := pwrite t₁ l data offset now
      if created then setOwner t₂ user real now else (.ok (), t₂)

def createSymlink (path : Path) (target : String) (now : Timestamp) : Result Attributes :=
  let real := makeRealPath fs.realPath path
  if (lstat t.objects real).isSome then (.error .alreadyExists, t)
  else
    match symlink t target real now with
    | .error e => (.error (ofErrno e), t)
    | .ok t' => (getAttributesByPath t'.objects real, t')

end ServerFileSystem
