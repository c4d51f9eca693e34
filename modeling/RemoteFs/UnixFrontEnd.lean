import RemoteFs.ClientCopyRange
import RemoteFs.ClientModeBits
import RemoteFs.ClientPagedListing

/-! # The mount on Unix

The kernel's calls on the mounted file system. A call on an open file may come without its path,
and then the table of open files has it. -/
namespace UnixFrontEnd

open ClientAttributes
open ClientCopyRange
open ClientFileSystem
open ClientModeBits
open ClientPageCache
open ClientPagedListing
open OsPaths
open RemoteTree

variable {L : PageLimits}

inductive Failure where
  | stale
  | invalidFileHandle (fh : UInt64)
  | invalidInput (message : String)
  | conversionFailed (message : String)
  | fsModel (e : FsModelError)
  deriving DecidableEq, Repr

/-- The file system with `CURRENT_FH` and the table of open files. -/
structure Fs (L : PageLimits) where
  fs : FileSystem L
  currentFh : UInt64
  fileHandlers : UInt64 → Option Path

abbrev Result (L : PageLimits) (α : Type) := Except Failure α × Fs L

def fileAttr (a : Attributes) : Attributes :=
  { a with perm := (FileType.fromTarget a.kind).toNat ||| a.perm }

/-- The bits of `NOREPLACE`, `EXCHANGE` and `WHITEOUT`; the others are dropped. -/
def renameFlags (flags : UInt32) : RenameFlags :=
  ⟨has flags.toBitVec 1, has flags.toBitVec 2, has flags.toBitVec 4⟩

/-- What the parts of a call meet: the rounds that read, a size change, and the rest. -/
structure Parts where
  rounds : ℕ → Env
  resize : Env
  rest : Env

namespace Fs

def openPath (s : Fs L) (p : Path) : UInt64 × Fs L :=
  (s.currentFh, { s with
    currentFh := s.currentFh + 1
    fileHandlers := Function.update s.fileHandlers s.currentFh (some p) })

def releaseHandle (s : Fs L) (fh : UInt64) : Fs L :=
  { s with fileHandlers := Function.update s.fileHandlers fh none }

def on {α : Type} (s : Fs L) (done : Except FsModelError α × FileSystem L) : Result L α :=
  (done.1.mapError .fsModel, { s with fs := done.2 })

def andThen {α β : Type} (r : Result L α) (next : α → Fs L → Result L β) : Result L β :=
  match r with
  | (.ok a, s) => next a s
  | (.error e, s) => (.error e, s)

def filePath (s : Fs L) (path : Option Path) (fh : UInt64) (missing : Failure) :
    Except Failure Path :=
  match path with
  | some p => .ok p
  | none =>
    match s.fileHandlers fh with
    | some p => .ok p
    | none => .error missing

def attrPath (s : Fs L) (path : Option Path) (fh : Option UInt64) : Except Failure Path :=
  match path, fh with
  | some p, _ => .ok p
  | none, none => .error .stale
  | none, some fh => s.filePath none fh (.invalidFileHandle fh)

def atPath {α : Type} (s : Fs L) (path : Except Failure Path) (next : Path → Result L α) :
    Result L α :=
  match path with
  | .ok p => next p
  | .error e => (.error e, s)

def getattr (s : Fs L) (path : Option Path) (fh : Option UInt64) (env : Env) :
    Result L Attributes :=
  s.atPath (s.attrPath path fh) fun p =>
    let done := s.on (s.fs.getAttributes p env)
    (done.1.map fileAttr, done.2)

def setattr (s : Fs L) (path : Option Path) (fh : Option UInt64) (new : SetAttr)
    (env : Env) : Result L Attributes :=
  s.atPath (s.attrPath path fh) fun p =>
    let done := s.on (s.fs.setAttributes p new env)
    (done.1.map fileAttr, done.2)

def lookup (s : Fs L) (parent : Path) (name : OsString) (env : Env) : Result L Attributes :=
  let done := s.on (s.fs.getAttributes (parent.child name) env)
  (done.1.map fileAttr, done.2)

def forget (s : Fs L) (p : Path) : Fs L := { s with fs := s.fs.cacheInvalidate p }

def batchForget (s : Fs L) (paths : List Path) : Fs L := paths.foldl forget s

def withType {α : Type} (s : Fs L) (mode : UInt32) (next : Result L α) : Result L α :=
  match FileType.tryToTarget mode.toBitVec with
  | none => (.error (.conversionFailed "Error during convertion."), s)
  | some _ => next

def createFile (s : Fs L) (p : Path) (offset : ℕ) (env : Env) : Result L Attributes :=
  let done := s.on (s.fs.createFile p offset [] env)
  (done.1.map fileAttr, done.2)

def mknod (s : Fs L) (parent : Path) (name : OsString) (mode : UInt32) (env : Env) :
    Result L Attributes :=
  s.withType mode (s.createFile (parent.child name) 0 env)

def create (s : Fs L) (parent : Path) (name : OsString) (mode flags : UInt32) (env : Env) :
    Result L (Attributes × UInt64) :=
  s.withType mode <|
    if (Flags.tryToTarget flags.toBitVec).noctt then
      (.error (.invalidInput "`O_NOCTTY` flag not supported"), s)
    else
      andThen (s.createFile (parent.child name) 0 env) fun attr s =>
        let opened := s.openPath (parent.child name)
        (.ok (attr, opened.1), opened.2)

def opened (s : Fs L) (p : Path) : Result L UInt64 := (.ok (s.openPath p).1, (s.openPath p).2)

def openFile (s : Fs L) (p : Path) (flags : UInt32) (env : Env) : Result L UInt64 :=
  let fsFlags := Flags.tryToTarget flags.toBitVec
  if fsFlags.create || fsFlags.excl || fsFlags.noctt then
    (.error (.invalidInput "Invalid open flags"), s)
  else if fsFlags.trunc then
    andThen (s.on (s.fs.setAttributes p (SetAttr.ofSize 0) env)) fun _ s => s.opened p
  else s.opened p

def opendir (s : Fs L) (p : Path) : Result L UInt64 := s.opened p

def read (s : Fs L) (path : Option Path) (fh : UInt64) (offset : ℕ) (size : UInt32)
    (rounds : ℕ → Env) : Result L (List UInt8) :=
  s.atPath (s.filePath path fh (.invalidInput "Invalid file handle")) fun p =>
    s.on (ClientFrontEnds.PathFilesystem.readLoop p offset size.toNat rounds s.fs [])

def write (s : Fs L) (path : Option Path) (fh : UInt64) (offset : ℕ) (data : List UInt8)
    (env : Env) : Result L ℕ :=
  s.atPath (s.filePath path fh (.invalidInput "Invalid file handle")) fun p =>
    let done := s.on (s.fs.writeFile p offset data env)
    (done.1.map (· % 2 ^ 32), done.2)

def flushBuffer (s : Fs L) (env : Env) : Result L Unit := s.on (s.fs.flushWriteBuffer env)

def flush (s : Fs L) (path : Option Path) (fh : UInt64) (env : Env) : Result L Unit :=
  s.atPath (s.filePath path fh (.invalidInput "Invalid file handle")) fun _ => s.flushBuffer env

def release (s : Fs L) (path : Option Path) (fh : UInt64) (flush : Bool) (env : Env) :
    Result L Unit :=
  s.atPath (s.filePath path fh (.invalidFileHandle fh)) fun _ =>
    if flush then (s.releaseHandle fh).flushBuffer env else (.ok (), s.releaseHandle fh)

def releasedir (s : Fs L) (fh : UInt64) : Fs L := s.releaseHandle fh

/-- The buffer is written out before the path is looked for. -/
def fsync (s : Fs L) (path : Option Path) (fh : UInt64) (env : Env) : Result L Unit :=
  andThen (s.flushBuffer env) fun _ s =>
    s.atPath (s.filePath path fh (.invalidFileHandle fh)) fun p => (.ok (), s.forget p)

def copyFileRange (s : Fs L) (fromPath : Option Path) (fhIn : UInt64) (offsetIn : ℕ)
    (toPath : Option Path) (fhOut : UInt64) (offsetOut length : ℕ) (parts : Parts) : Result L ℕ :=
  s.atPath (s.filePath fromPath fhIn (.invalidFileHandle fhIn)) fun p =>
    s.atPath (s.filePath toPath fhOut (.invalidFileHandle fhOut)) fun q =>
      s.on (ClientCopyRange.PathFilesystem.copyBytes s.fs p q
        { fileHandlers := fun fh => s.fileHandlers (.ofNat fh), fromPath, fhIn := fhIn.toNat,
          offsetIn, toPath, fhOut := fhOut.toNat, offsetOut, length, rounds := parts.rounds,
          resize := parts.resize, write := parts.rest })

/-- `Vec::with_capacity(length)` has no elements. -/
def fallocate (s : Fs L) (path : Option Path) (fh : UInt64) (offset : ℕ) (mode : UInt32)
    (env : Env) : Result L Unit :=
  s.atPath (s.filePath path fh (.invalidFileHandle fh)) fun p =>
    s.withType mode <| andThen (s.createFile p offset env) fun _ s => (.ok (), s)

def mkdir (s : Fs L) (parent : Path) (name : OsString) (env : Env) : Result L Attributes :=
  let done := s.on (s.fs.mkdir (parent.child name) env)
  (done.1.map fileAttr, done.2)

def remove (s : Fs L) (parent : Path) (name : OsString) (env : Env) : Result L Unit :=
  s.on (s.fs.remove (parent.child name) env)

def rename2 (s : Fs L) (originParent : Path) (originName : OsString) (parent : Path)
    (name : OsString) (flags : UInt32) (env : Env) : Result L Unit :=
  s.on (s.fs.rename (originParent.child originName) (parent.child name) (renameFlags flags) env)

def rename (s : Fs L) (originParent : Path) (originName : OsString) (parent : Path)
    (name : OsString) (env : Env) : Result L Unit :=
  s.rename2 originParent originName parent name 0 env

def symlink (s : Fs L) (parent : Path) (name linkPath : OsString) (env : Env) :
    Result L Attributes :=
  match linkPath with
  | .raw _ => (.error (.invalidInput "Invalid symlink target"), s)
  | .text target =>
    let done := s.on (s.fs.createSymlink (parent.child name) target env)
    (done.1.map fileAttr, done.2)

def readlink (s : Fs L) (p : Path) (env : Env) : Result L String := s.on (s.fs.readSymlink p env)

def readdir (s : Fs L) (p : Path) (offset : ℕ) (env : Env) : Result L (List DirectoryEntry) :=
  s.on (ClientPagedListing.Fs.readdir s.fs p offset env)

def readdirplus (s : Fs L) (p : Path) (offset : ℕ) (env : Env) :
    Result L (List DirectoryEntryPlus) :=
  let done := s.on (ClientPagedListing.Fs.readdirplus s.fs p offset env)
  (done.1.map fun entries => entries.map fun e => { e with attr := fileAttr e.attr }, done.2)

end Fs

inductive Reply where
  | done
  | attr (attr : Attributes)
  | created (attr : Attributes) (fh : UInt64)
  | opened (fh : UInt64)
  | data (data : List UInt8)
  | written (written : ℕ)
  | copied (copied : ℕ)
  | target (target : String)
  | entries (entries : List DirectoryEntry)
  | entriesPlus (entries : List DirectoryEntryPlus)
  deriving DecidableEq, Repr

inductive Call where
  | lookup (parent : Path) (name : OsString)
  | forget (path : Path)
  | batchForget (paths : List Path)
  | getattr (path : Option Path) (fh : Option UInt64)
  | setattr (path : Option Path) (fh : Option UInt64) (new : SetAttr)
  | mknod (parent : Path) (name : OsString) (mode : UInt32)
  | create (parent : Path) (name : OsString) (mode flags : UInt32)
  | openFile (path : Path) (flags : UInt32)
  | opendir (path : Path)
  | read (path : Option Path) (fh : UInt64) (offset : ℕ) (size : UInt32)
  | write (path : Option Path) (fh : UInt64) (offset : ℕ) (data : List UInt8)
  | flush (path : Option Path) (fh : UInt64)
  | release (path : Option Path) (fh : UInt64) (flushes : Bool)
  | releasedir (path : Path) (fh : UInt64)
  | fsync (path : Option Path) (fh : UInt64)
  | fsyncdir (path : Path) (fh : UInt64)
  | copyFileRange (fromPath : Option Path) (fhIn : UInt64) (offsetIn : ℕ)
      (toPath : Option Path) (fhOut : UInt64) (offsetOut length : ℕ)
  | fallocate (path : Option Path) (fh : UInt64) (offset : ℕ) (mode : UInt32)
  | mkdir (parent : Path) (name : OsString)
  | remove (parent : Path) (name : OsString)
  | rename (originParent : Path) (originName : OsString) (parent : Path) (name : OsString)
  | rename2 (originParent : Path) (originName : OsString) (parent : Path) (name : OsString)
      (flags : UInt32)
  | symlink (parent : Path) (name linkPath : OsString)
  | readlink (path : Path)
  | readdir (path : Path) (offset : ℕ)
  | readdirplus (path : Path) (offset : ℕ)
  deriving DecidableEq, Repr

def replied {α : Type} (reply : α → Reply) (r : Result L α) : Result L Reply :=
  (r.1.map reply, r.2)

def Call.run (s : Fs L) (parts : Parts) : Call → Result L Reply
  | lookup parent name => replied .attr (s.lookup parent name parts.rest)
  | forget path => (.ok .done, s.forget path)
  | batchForget paths => (.ok .done, s.batchForget paths)
  | getattr path fh => replied .attr (s.getattr path fh parts.rest)
  | setattr path fh new => replied .attr (s.setattr path fh new parts.rest)
  | mknod parent name mode => replied .attr (s.mknod parent name mode parts.rest)
  | create parent name mode flags =>
    replied (fun made => .created made.1 made.2) (s.create parent name mode flags parts.rest)
  | openFile path flags => replied .opened (s.openFile path flags parts.rest)
  | opendir path => replied .opened (s.opendir path)
  | read path fh offset size => replied .data (s.read path fh offset size parts.rounds)
  | write path fh offset data => replied .written (s.write path fh offset data parts.rest)
  | flush path fh => replied (fun _ => .done) (s.flush path fh parts.rest)
  | release path fh flushes => replied (fun _ => .done) (s.release path fh flushes parts.rest)
  | releasedir _ fh => (.ok .done, s.releasedir fh)
  | fsync path fh => replied (fun _ => .done) (s.fsync path fh parts.rest)
  | fsyncdir path _ => (.ok .done, s.forget path)
  | copyFileRange fromPath fhIn offsetIn toPath fhOut offsetOut length => replied .copied
      (s.copyFileRange fromPath fhIn offsetIn toPath fhOut offsetOut length parts)
  | fallocate path fh offset mode =>
    replied (fun _ => .done) (s.fallocate path fh offset mode parts.rest)
  | mkdir parent name => replied .attr (s.mkdir parent name parts.rest)
  | remove parent name => replied (fun _ => .done) (s.remove parent name parts.rest)
  | rename originParent originName parent name => replied (fun _ => .done)
      (s.rename originParent originName parent name parts.rest)
  | rename2 originParent originName parent name flags => replied (fun _ => .done)
      (s.rename2 originParent originName parent name flags parts.rest)
  | symlink parent name linkPath => replied .attr (s.symlink parent name linkPath parts.rest)
  | readlink path => replied .target (s.readlink path parts.rest)
  | readdir path offset => replied .entries (s.readdir path offset parts.rest)
  | readdirplus path offset => replied .entriesPlus (s.readdirplus path offset parts.rest)

def runCalls : Fs L → List (Call × Parts) → List (Except Failure Reply) × Fs L
  | s, [] => ([], s)
  | s, (call, parts) :: calls =>
    let done := call.run s parts
    let rest := runCalls done.2 calls
    (done.1 :: rest.1, rest.2)

end UnixFrontEnd
