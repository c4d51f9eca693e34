import Mathlib.Data.Int.Notation
import Mathlib.Data.Nat.Notation

/-! # Attributes as the client sees them -/
namespace ClientAttributes

structure Timestamp where
  sec : ℤ
  nsec : ℕ
  deriving DecidableEq, Repr

inductive FileType where
  | namedPipe
  | charDevice
  | blockDevice
  | directory
  | regularFile
  | symlink
  | socket
  deriving DecidableEq, Repr

structure Attributes where
  size : ℕ
  blocks : ℕ
  atime : Timestamp
  mtime : Timestamp
  ctime : Timestamp
  kind : FileType
  perm : ℕ
  nlink : ℕ
  uid : ℕ
  gid : ℕ
  rdev : ℕ
  blksize : ℕ
  deriving DecidableEq, Repr

/-- Every field is optional; an absent one is left as it is. -/
structure SetAttr where
  mode : Option ℕ
  uid : Option ℕ
  gid : Option ℕ
  size : Option ℕ
  atime : Option Timestamp
  mtime : Option Timestamp
  ctime : Option Timestamp
  deriving DecidableEq, Repr

def SetAttr.none : SetAttr := ⟨.none, .none, .none, .none, .none, .none, .none⟩

def SetAttr.ofSize (n : ℕ) : SetAttr := { SetAttr.none with size := some n }

/-- `chown` takes the set-user-ID bit from a file, and the set-group-ID bit with it where the
group may execute the file. -/
def disowned (mode : ℕ) : ℕ := mode ^^^ (mode &&& if mode.testBit 3 then 0o6000 else 0o4000)

theorem disowned_created : disowned 0o100644 = 0o100644 := by decide

end ClientAttributes
