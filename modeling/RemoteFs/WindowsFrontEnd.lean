import RemoteFs.ClientFrontEnds
import RemoteFs.ClientMarkedListing
import RemoteFs.WindowsNames

/-! # The mount on Windows

The calls of WinFsp on the mounted file system. Every open file has a context of its own, with the
path it was opened under and the mark that it is to be deleted when it is cleaned up. -/
namespace WindowsFrontEnd

open ClientAttributes
open ClientFileSystem
open ClientMarkedListing (DirInfo FileInfo Page ReadDirectoryError Winfsp fileAttributeDirectory
  fileAttributeNormal fillFileInfo)
open ClientPageCache
open FileTimes
open OsPaths
open RemoteTree
open WindowsNames

variable {L : PageLimits}

def fileOpen : UInt32 := 1

def fileCreate : UInt32 := 2

def fileOpenIf : UInt32 := 3

def fileDirectoryFile : UInt32 := 0x1

def fileNonDirectoryFile : UInt32 := 0x40

def statusFileIsADirectory : UInt32 := 0xC00000BA

def fileAttributeReparsePoint : ℕ := 0x400

def hasAny (createOptions flags : UInt32) : Bool := createOptions &&& flags != 0

/-- `create || open_if`: the object is to be made. -/
def makes (createOptions : UInt32) : Bool :=
  hasAny createOptions fileCreate || hasAny createOptions fileOpenIf

structure Handle where
  path : Path
  deleteOnClose : Bool
  deriving DecidableEq, Repr

/-- The file system with the contexts that WinFsp has, and how many it has got so far. -/
structure Mount (L : PageLimits) where
  fs : FileSystem L
  contexts : ℕ → Option Handle
  given : ℕ

/-- What a call answers in place of a reply. WinFsp calls with contexts that it has. -/
inductive Failure where
  | fsp (e : FspError)
  | fsModel (e : FsModelError)
  | setName
  | panic
  | noContext
  | undefined
  deriving DecidableEq, Repr

def Failure.ofBuffer : BufferFailure → Failure
  | .fsp e => .fsp e
  | .undefined => .undefined

abbrev Result (L : PageLimits) (α : Type) := Except Failure α × Mount L

/-- What WinFsp and the build bring: its entries of directories, whether overflows are checked, and
the hash of a path. -/
structure Host where
  winfsp : Winfsp
  checks : Bool
  indexFromPath : Path → ℕ

/-- What `open` and `create` fill in; no `create` but that of a link sets the tag. -/
structure OpenFileInfo where
  fileAttributes : ℕ
  reparseTag : Option ℕ
  fileSize : ℕ
  allocationSize : ℕ
  deriving DecidableEq, Repr

def openAttributes (kind : FileType) : ℕ :=
  if kind = .directory then fileAttributeDirectory else fileAttributeNormal

def securityAttributes (kind : FileType) : ℕ :=
  match kind with
  | .directory => fileAttributeDirectory
  | .symlink => fileAttributeReparsePoint
  | _ => fileAttributeNormal

/-- `From<Attributes> for FileInfo`; `none` is a panic. -/
def ofAttributes (checks : Bool) (attr : Attributes) : Option FileInfo := do
  let allocationSize ← u64 checks (attr.blocks * attr.blksize)
  let creationTime ← unixToFiletime checks attr.ctime
  let lastAccessTime ← unixToFiletime checks attr.atime
  let lastWriteTime ← unixToFiletime checks attr.mtime
  let changeTime ← unixToFiletime checks attr.ctime
  some {
    fileAttributes := securityAttributes attr.kind
    fileSize := attr.size
    allocationSize := allocationSize
    creationTime := creationTime
    lastAccessTime := lastAccessTime
    lastWriteTime := lastWriteTime
    changeTime := changeTime
    indexNumber := 0
    hardLinks := 0
    eaSize := 0 }

namespace Mount

def on {α : Type} (s : Mount L) (done : Except FsModelError α × FileSystem L) : Result L α :=
  (done.1.mapError .fsModel, { s with fs := done.2 })

def found {α β : Type} (s : Mount L) (r : Except Failure α) (next : α → Result L β) :
    Result L β :=
  match r with
  | .ok a => next a
  | .error e => (.error e, s)

def andThen {α β : Type} (r : Result L α) (next : α → Mount L → Result L β) : Result L β :=
  match r with
  | (.ok a, s) => next a s
  | (.error e, s) => (.error e, s)

def context (s : Mount L) (c : ℕ) : Except Failure Handle :=
  match s.contexts c with
  | some handle => .ok handle
  | none => .error .noContext

end Mount

def orPanic {α : Type} : Option α → Except Failure α
  | some a => .ok a
  | none => .error .panic

/-- The entry has the whole path for its name. -/
def entryOf (H : Host) (path : String) (attr : Attributes) : Except Failure DirInfo := do
  let info ← orPanic (ofAttributes H.checks attr)
  let entry : DirInfo := ⟨path, info⟩
  if H.winfsp.setName entry.fileName then .ok entry else .error .setName

def pathOf (name : List UInt16) : Except Failure Path :=
  ((winfspPathToPathbuf name).mapError .fsp).map components

namespace Mount

def opened (s : Mount L) (p : Path) (info : OpenFileInfo) : Result L (ℕ × OpenFileInfo) :=
  (.ok (s.given, info), { s with
    contexts := Function.update s.contexts s.given (some ⟨p, false⟩)
    given := s.given + 1 })

def openFile (s : Mount L) (name : List UInt16) (createOptions : UInt32) (env : Env) :
    Result L (ℕ × OpenFileInfo) :=
  s.found (pathOf name) fun p =>
    andThen (s.on (s.fs.getAttributes p env)) fun attr s =>
      if attr.kind = .directory ∧ hasAny createOptions fileNonDirectoryFile then
        (.error (.fsp (.ntstatus statusFileIsADirectory)), s)
      else s.opened p ⟨openAttributes attr.kind, none, attr.size, attr.size⟩

def prepare (s : Mount L) (createOptions : UInt32)
    (make look : Except FsModelError Attributes × FileSystem L) : Result L Unit :=
  if makes createOptions then andThen (s.on make) fun _ s => (.ok (), s)
  else if hasAny createOptions fileOpen then andThen (s.on look) fun _ s => (.ok (), s)
  else (.ok (), s)

def create (s : Mount L) (name : List UInt16) (createOptions : UInt32)
    (extraBuffer : Option (List UInt8)) (isReparsePoint : Bool) (env : Env) :
    Result L (ℕ × OpenFileInfo) :=
  s.found (pathOf name) fun p =>
    if isReparsePoint then
      s.found ((parseSymlinkTarget extraBuffer).mapError .ofBuffer) fun target =>
        andThen (s.on (s.fs.createSymlink p target env)) fun _ s =>
          s.opened p ⟨fileAttributeReparsePoint, some ioReparseTagSymlink, 0, 0⟩
    else if hasAny createOptions fileDirectoryFile then
      andThen (s.prepare createOptions (s.fs.mkdir p env) (s.fs.getAttributes p env)) fun _ s =>
        s.opened p ⟨fileAttributeDirectory, none, 0, 0⟩
    else if hasAny createOptions fileNonDirectoryFile then
      andThen (s.prepare createOptions (s.fs.createFile p 0 [] env)
        (s.fs.getAttributes p env)) fun _ s =>
        s.opened p ⟨fileAttributeNormal, none, 0, 0⟩
    else (.error (.fsp .invalidInput), s)

def getSecurityByName (s : Mount L) (name : List UInt16) (env : Env) : Result L ℕ :=
  s.found (pathOf name) fun p =>
    let done := s.on (s.fs.getAttributes p env)
    (done.1.map fun attr => securityAttributes attr.kind, done.2)

def getFileInfo (H : Host) (s : Mount L) (c : ℕ) (env : Env) : Result L FileInfo :=
  s.found (s.context c) fun handle =>
    andThen (s.on (s.fs.getAttributes handle.path env)) fun attr s =>
      (orPanic ((fillFileInfo H.checks attr).map fun info =>
        { info with indexNumber := H.indexFromPath handle.path }), s)

def getDirInfoByName (H : Host) (s : Mount L) (c : ℕ) (name : List UInt16) (env : Env) :
    Result L DirInfo :=
  s.found (s.context c) fun handle =>
    s.found ((winfspPathToPathbuf name).mapError .fsp) fun text =>
      andThen (s.on (s.fs.getAttributes (handle.path.join (components text)) env)) fun attr s =>
        (entryOf H text attr, s)

def ofReadDirectory : ReadDirectoryError → Failure
  | .fsModel e => .fsModel e
  | .setName => .setName
  | .panic => .panic

def readDirectory (H : Host) (s : Mount L) (c : ℕ) (marker : Option (List UInt16)) (length : ℕ)
    (env : Env) : Result L Page :=
  s.found (s.context c) fun handle =>
    let done := ClientMarkedListing.FileSystemContext.readDirectory H.winfsp H.checks s.fs
      handle.path marker length env
    (done.1.mapError ofReadDirectory, { s with fs := done.2 })

def read (s : Mount L) (c : ℕ) (buffer : List UInt8) (offset : ℕ) (env : Env) :
    Result L (UInt32 × List UInt8) :=
  s.found (s.context c) fun handle =>
    s.on (ClientFrontEnds.FileSystemContext.read s.fs handle.path buffer offset env)

/-- The size of the file in the reply is at least the end of what was written. -/
def writeAt (H : Host) (s : Mount L) (p : Path) (data : List UInt8) (offset fileSize : ℕ)
    (env : Env) : Result L (UInt32 × ℕ) :=
  andThen (s.on (s.fs.writeFile p offset data env)) fun written s =>
    (orPanic ((u64 H.checks (offset + written)).map fun stop =>
      (.ofNat written, max fileSize stop)), s)

/-- A file whose attributes cannot be had is made first. -/
def write (H : Host) (s : Mount L) (c : ℕ) (data : List UInt8) (offset fileSize : ℕ)
    (envs : ℕ → Env) : Result L (UInt32 × ℕ) :=
  s.found (s.context c) fun handle =>
    let looked := s.fs.getAttributes handle.path (envs 0)
    let s := { s with fs := looked.2 }
    match looked.1 with
    | .ok _ => writeAt H s handle.path data offset fileSize (envs 2)
    | .error _ => andThen (s.on (s.fs.createFile handle.path 0 [] (envs 1))) fun _ s =>
        writeAt H s handle.path data offset fileSize (envs 2)

def flush (s : Mount L) (env : Env) : Result L Unit := s.on (s.fs.flushWriteBuffer env)

def setSize (s : Mount L) (c : ℕ) (size allocationSize : ℕ) (env : Env) : Result L (ℕ × ℕ) :=
  s.found (s.context c) fun handle =>
    andThen (s.on (s.fs.setAttributes handle.path (.ofSize size) env)) fun _ s =>
      (.ok (size, allocationSize), s)

def overwrite (s : Mount L) (c : ℕ) (allocationSize : ℕ) (env : Env) : Result L (ℕ × ℕ) :=
  s.setSize c 0 allocationSize env

def setFileSize (s : Mount L) (c : ℕ) (newSize : ℕ) (env : Env) : Result L (ℕ × ℕ) :=
  s.setSize c newSize newSize env

def setBasicInfo (H : Host) (s : Mount L) (c : ℕ)
    (lastAccessTime lastWriteTime lastChangeTime : ℕ) (env : Env) : Result L (Option FileInfo) :=
  s.found (s.context c) fun handle =>
    s.found (orPanic (FileTimes.setBasicInfo H.checks lastAccessTime lastWriteTime
      lastChangeTime)) fun new =>
      match new with
      | none => (.ok none, s)
      | some new => andThen (s.on (s.fs.setAttributes handle.path new env)) fun attr s =>
          (orPanic ((ofAttributes H.checks attr).map some), s)

def rename (s : Mount L) (c : ℕ) (newName : List UInt16) (replaceIfExists : Bool) (env : Env) :
    Result L Unit :=
  s.found (s.context c) fun handle =>
    s.found (pathOf newName) fun newPath =>
      s.on (s.fs.rename handle.path newPath ⟨!replaceIfExists, false, false⟩ env)

def setDelete (s : Mount L) (c : ℕ) (deleteFile : Bool) : Result L Unit :=
  s.found (s.context c) fun handle =>
    (.ok (), { s with
      contexts := Function.update s.contexts c (some { handle with deleteOnClose := deleteFile }) })

/-- What `cleanup` has done before it deletes; that the flush fails goes unnoticed. -/
def flushed (s : Mount L) (name : Option (List UInt16)) (env : Env) : Mount L :=
  let fs := (s.fs.flushWriteBuffer env).2
  match name.map pathOf with
  | some (.ok p) => { s with fs := fs.cacheInvalidate p }
  | _ => { s with fs := fs }

def cleanup (s : Mount L) (c : ℕ) (name : Option (List UInt16)) (envs : ℕ → Env) :
    Result L Unit :=
  s.found (s.context c) fun handle =>
    let s := s.flushed name (envs 0)
    if handle.deleteOnClose then
      (.ok (), { s with fs := (s.fs.remove handle.path (envs 1)).2 })
    else (.ok (), s)

def close (s : Mount L) (c : ℕ) (env : Env) : Result L Unit :=
  s.found (s.context c) fun _ =>
    (.ok (), {
      fs := (s.fs.flushWriteBuffer env).2
      contexts := Function.update s.contexts c none
      given := s.given })

end Mount

inductive Reply where
  | done
  | opened (c : ℕ) (info : OpenFileInfo)
  | security (attributes : ℕ)
  | info (info : FileInfo)
  | entry (entry : DirInfo)
  | page (page : Page)
  | data (read : UInt32) (buffer : List UInt8)
  | written (written : UInt32) (fileSize : ℕ)
  | sized (fileSize allocationSize : ℕ)
  deriving DecidableEq, Repr

inductive Call where
  | openFile (name : List UInt16) (createOptions : UInt32)
  | create (name : List UInt16) (createOptions : UInt32) (extraBuffer : Option (List UInt8))
      (isReparsePoint : Bool)
  | getSecurityByName (name : List UInt16)
  | getFileInfo (c : ℕ)
  | getDirInfoByName (c : ℕ) (name : List UInt16)
  | readDirectory (c : ℕ) (marker : Option (List UInt16)) (length : ℕ)
  | read (c : ℕ) (buffer : List UInt8) (offset : ℕ)
  | write (c : ℕ) (data : List UInt8) (offset fileSize : ℕ)
  | flush
  | overwrite (c : ℕ) (allocationSize : ℕ)
  | setFileSize (c : ℕ) (newSize : ℕ)
  | setBasicInfo (c : ℕ) (lastAccessTime lastWriteTime lastChangeTime : ℕ)
  | rename (c : ℕ) (newName : List UInt16) (replaceIfExists : Bool)
  | setDelete (c : ℕ) (deleteFile : Bool)
  | cleanup (c : ℕ) (name : Option (List UInt16))
  | close (c : ℕ)
  deriving DecidableEq, Repr

def replied {α : Type} (reply : α → Reply) (r : Result L α) : Result L Reply :=
  (r.1.map reply, r.2)

def Call.run (H : Host) (s : Mount L) (envs : ℕ → Env) : Call → Result L Reply
  | openFile name createOptions =>
    replied (fun made => .opened made.1 made.2) (s.openFile name createOptions (envs 0))
  | create name createOptions extraBuffer isReparsePoint =>
    replied (fun made => .opened made.1 made.2)
      (s.create name createOptions extraBuffer isReparsePoint (envs 0))
  | getSecurityByName name => replied .security (s.getSecurityByName name (envs 0))
  | getFileInfo c => replied .info (Mount.getFileInfo H s c (envs 0))
  | getDirInfoByName c name => replied .entry (Mount.getDirInfoByName H s c name (envs 0))
  | readDirectory c marker length =>
    replied .page (Mount.readDirectory H s c marker length (envs 0))
  | read c buffer offset =>
    replied (fun done => .data done.1 done.2) (s.read c buffer offset (envs 0))
  | write c data offset fileSize =>
    replied (fun done => .written done.1 done.2) (Mount.write H s c data offset fileSize envs)
  | flush => replied (fun _ => .done) (s.flush (envs 0))
  | overwrite c allocationSize =>
    replied (fun sizes => .sized sizes.1 sizes.2) (s.overwrite c allocationSize (envs 0))
  | setFileSize c newSize =>
    replied (fun sizes => .sized sizes.1 sizes.2) (s.setFileSize c newSize (envs 0))
  | setBasicInfo c lastAccessTime lastWriteTime lastChangeTime =>
    replied (fun info => info.elim .done .info)
      (Mount.setBasicInfo H s c lastAccessTime lastWriteTime lastChangeTime (envs 0))
  | rename c newName replaceIfExists =>
    replied (fun _ => .done) (s.rename c newName replaceIfExists (envs 0))
  | setDelete c deleteFile => replied (fun _ => .done) (s.setDelete c deleteFile)
  | cleanup c name => replied (fun _ => .done) (s.cleanup c name envs)
  | close c => replied (fun _ => .done) (s.close c (envs 0))

def runCalls (H : Host) : Mount L → List (Call × (ℕ → Env)) →
    List (Except Failure Reply) × Mount L
  | s, [] => ([], s)
  | s, (call, envs) :: calls =>
    let done := call.run H s envs
    let rest := runCalls H done.2 calls
    (done.1 :: rest.1, rest.2)

/-! What the source makes of its flags and names -/

theorem hasAny_fileOpen {createOptions : UInt32} (h : makes createOptions = false) :
    hasAny createOptions fileOpen = false := by
  have hboth : hasAny createOptions fileOpenIf = false := (Bool.or_eq_false_iff.mp h).2
  unfold hasAny at hboth ⊢
  rw [bne_eq_false_iff_eq] at hboth ⊢
  calc createOptions &&& fileOpen = createOptions &&& (fileOpenIf &&& fileOpen) := rfl
    _ = createOptions &&& fileOpenIf &&& fileOpen := (UInt32.and_assoc _ _ _).symm
    _ = 0 &&& fileOpen := by rw [hboth]
    _ = 0 := rfl

/-- The bit of `FILE_OPEN` is one of those of `FILE_OPEN_IF`, so `create` never looks anything
up. -/
theorem prepare_eq (s : Mount L) (createOptions : UInt32)
    (make look : Except FsModelError Attributes × FileSystem L) :
    s.prepare createOptions make look =
      if makes createOptions then Mount.andThen (s.on make) fun _ s => (.ok (), s)
      else (.ok (), s) := by
  unfold Mount.prepare
  cases h : makes createOptions with
  | true => rfl
  | false => rw [if_neg Bool.false_ne_true, if_neg Bool.false_ne_true, hasAny_fileOpen h]; rfl

/-- The bit of a directory is one of them too, so `create` makes a directory in any case. -/
theorem makes_of_directory {createOptions : UInt32}
    (h : hasAny createOptions fileDirectoryFile = true) : makes createOptions = true := by
  by_contra hmakes
  have hopen := hasAny_fileOpen (Bool.eq_false_iff.mpr hmakes)
  rw [show fileOpen = fileDirectoryFile from rfl, h] at hopen
  cases hopen

theorem winfspPathToPathbuf_absolute {name : List UInt16} {text : String}
    (h : winfspPathToPathbuf name = .ok text) : (components text).head? = some .rootDir := by
  have habsolute : text.toList.head? = some '/' := by
    unfold winfspPathToPathbuf at h
    split at h
    · cases h
    · dsimp only at h
      split at h
      · obtain rfl := Except.ok.inj h
        rfl
      · split at h
        · rename_i hhead
          obtain rfl := Except.ok.inj h
          rw [String.toList_ofList]
          exact hhead
        · obtain rfl := Except.ok.inj h
          rw [String.toList_ofList]
          rfl
  unfold components
  dsimp only
  rw [if_pos habsolute]
  rfl

/-- The name becomes an absolute path, so the directory that is asked does not count. -/
theorem getDirInfoByName_eq (H : Host) (s : Mount L) {c : ℕ} {handle : Handle}
    (hc : s.contexts c = some handle) (name : List UInt16) (env : Env) :
    Mount.getDirInfoByName H s c name env =
      s.found ((winfspPathToPathbuf name).mapError .fsp) fun text =>
        Mount.andThen (s.on (s.fs.getAttributes (components text) env)) fun attr s =>
          (entryOf H text attr, s) := by
  unfold Mount.getDirInfoByName Mount.context
  rw [hc]
  cases hname : winfspPathToPathbuf name with
  | error err => rfl
  | ok text =>
    have hjoin : handle.path.join (components text) = components text :=
      if_pos (winfspPathToPathbuf_absolute hname)
    simp only [Mount.found, Except.mapError, hjoin]

end WindowsFrontEnd
