import RemoteFs.ClientCache
import RemoteFs.ClientReadBuffer
import RemoteFs.ClientWriteBuffer
import RemoteFs.RemoteTree

/-! # The client's file system

The calls of `FileSystem`, each a function from the state it finds to its result and the
state it leaves. Offsets are natural numbers: the kernel and the server bound positions by
`i64`, so `usize` sums do not wrap. -/
namespace ClientFileSystem

open ClientAttributes
open ClientCache
open ClientPageCache
open ClientReadBuffer
open ClientWriteBuffer
open OsPaths
open RemoteTree
open WriteLog

inductive FsModelError where
  | invalidInput (message : String)
  | serverError (message : String)
  deriving DecidableEq, Repr

/-- What a step of a call meets: the moment, and how a request made then ends. -/
structure Tick extends Moment where
  reply : Option FsModelError
  serverTime : Timestamp
  listing : List String

abbrev Env := ℕ → Tick

def Env.drop (env : Env) (k : ℕ) : Env := fun i => env (k + i)

def Env.steady (now : ℕ) (reply : Option FsModelError) : Env := fun _ =>
  { now := now, victims := HashOrder.id Path, pages := HashOrder.id ℕ, reply := reply,
    serverTime := ⟨0, 0⟩, listing := [] }

/-- No call starts before an earlier one, and no step of a call before its first. -/
def Clocked : ℕ → List Env → Prop
  | _, [] => True
  | t, env :: envs => t ≤ (env 0).now ∧ (∀ i, (env 0).now ≤ (env i).now) ∧
      Clocked (env 0).now envs

variable {L : PageLimits}

structure FileSystem (L : PageLimits) where
  remote : Remote
  readBuffer : ReadBuffer
  writeBuffer : WriteBuffer
  cache : Option (Cache L)

def pathToString (p : Path) : Except FsModelError Unit :=
  if p.isUtf8 then .ok () else .error (.invalidInput "Path is not valid UTF-8")

/-- A request the server does not answer, or refuses, has no outcome. -/
def request {α : Type} (t : Tick) (outcome : Option α) : Except FsModelError α :=
  match t.reply, outcome with
  | some e, _ => .error e
  | none, none => .error (.serverError "refused")
  | none, some a => .ok a

def withAttributes (p : Path) (r : Option Remote) : Option (Attributes × Remote) :=
  r.bind fun r => (r.getAttributes p).map fun a => (a, r)

def getParentPath (p : Path) : Path :=
  match p.parent with
  | none | some [] | some [.curDir] => [.rootDir]
  | some parent => parent

namespace FileSystem

def new (remote : Remote) (capacity now : ℕ) (cache : Option (Cache L)) : FileSystem L :=
  ⟨remote, ReadBuffer.new capacity now, WriteBuffer.new capacity, cache⟩

def onCache (fs : FileSystem L) (f : Cache L → Cache L) : FileSystem L :=
  { fs with cache := fs.cache.map f }

def cacheGet (fs : FileSystem L) (p : Path) (m : Moment) :
    Option (CacheItem L) × FileSystem L :=
  match fs.cache with
  | none => (none, fs)
  | some c => ((c.get p m).1, { fs with cache := some (c.get p m).2 })

def getAttributes (fs : FileSystem L) (p : Path) (env : Env) :
    Except FsModelError Attributes × FileSystem L :=
  let got := fs.cacheGet p (env 0).toMoment
  match got.1.bind CacheItem.getAttributes with
  | some a => (.ok a, got.2)
  | none =>
    match pathToString p >>= fun _ => request (env 1) (got.2.remote.getAttributes p) with
    | .error e => (.error e, got.2)
    | .ok a => (.ok a, got.2.onCache fun c => cachePutAttr c p a (env 2).toMoment)

/-- Cache and buffer miss: the buffer's capacity is fetched, whatever the request's size. -/
def readRemote (fs : FileSystem L) (p : Path) (offset size : ℕ) (env : Env) :
    Except FsModelError (List UInt8) × FileSystem L :=
  match pathToString p >>= fun _ =>
    request (env 0) (fs.remote.readFile p offset fs.readBuffer.capacity) with
  | .error e => (.error e, fs)
  | .ok data =>
    let filled := { fs with readBuffer := fs.readBuffer.fill p offset data (env 1).now }
    (.ok (data.take size),
      filled.onCache fun c => cacheWriteFile c p offset data false (env 2).toMoment)

def readBuffered (fs : FileSystem L) (p : Path) (offset size : ℕ) (env : Env) :
    Except FsModelError (List UInt8) × FileSystem L :=
  let data := fs.readBuffer.read p offset size (env 0).now
  if data ≠ [] then
    (.ok data, fs.onCache fun c => cacheWriteFile c p offset data false (env 1).toMoment)
  else fs.readRemote p offset size (env.drop 1)

def cachedBytes (item : Option (CacheItem L)) (offset size : ℕ) : List UInt8 :=
  match item with
  | some (.file f) => f.read offset size
  | _ => []

def readCached (fs : FileSystem L) (p : Path) (offset size : ℕ) (env : Env) :
    Except FsModelError (List UInt8) × FileSystem L :=
  let got := fs.cacheGet p (env 0).toMoment
  let data := cachedBytes got.1 offset size
  if data ≠ [] then (.ok data, got.2) else got.2.readBuffered p offset size (env.drop 1)

def readFile (fs : FileSystem L) (p : Path) (offset size : ℕ) (env : Env) :
    Except FsModelError (List UInt8) × FileSystem L :=
  let attr := fs.getAttributes p env
  match attr.1 with
  | .ok a =>
    if a.size ≤ offset then (.ok [], attr.2)
    else attr.2.readCached p offset size (env.drop 3)
  | .error _ => attr.2.readCached p offset size (env.drop 3)

def upload (fs : FileSystem L) (w : Chunk) (env : Env) :
    Except FsModelError Unit × FileSystem L :=
  match pathToString w.key >>= fun _ =>
    request (env 0) (fs.remote.writeFile w.key w.offset w.data (env 0).serverTime) with
  | .error e => (.error e, fs)
  | .ok r => (.ok (), { fs with remote := r }.onCache fun c =>
      cacheWriteFile c w.key w.offset w.data true (env 1).toMoment)

/-- The first failure ends the call; the chunks behind it are dropped. -/
def uploadAll (fs : FileSystem L) : List Chunk → Env → Except FsModelError Unit × FileSystem L
  | [], _ => (.ok (), fs)
  | w :: ws, env =>
    match fs.upload w env with
    | (.error e, fs) => (.error e, fs)
    | (.ok (), fs) => fs.uploadAll ws (env.drop 2)

def writeFile (fs : FileSystem L) (p : Path) (offset : ℕ) (data : List UInt8) (env : Env) :
    Except FsModelError ℕ × FileSystem L :=
  let staged := fs.writeBuffer.stageWrite p offset data
  let sent := { fs with writeBuffer := staged.buffer }.uploadAll staged.uploads env
  (sent.1.map fun _ => staged.written, sent.2)

def flushWriteBuffer (fs : FileSystem L) (env : Env) : Except FsModelError Unit × FileSystem L :=
  let staged := fs.writeBuffer.stageFlush
  { fs with writeBuffer := staged.2 }.uploadAll staged.1.toList env

def putNamed (fs : FileSystem L) (p : Path) (item : OsString → CacheItem L) (m : Moment) :
    FileSystem L :=
  match p.fileName with
  | none => fs
  | some name => fs.onCache fun c => c.putNew p (item name) m

def createFile (fs : FileSystem L) (p : Path) (offset : ℕ) (data : List UInt8) (env : Env) :
    Except FsModelError Attributes × FileSystem L :=
  match pathToString p >>= fun _ => request (env 0) (withAttributes p
    (fs.remote.writeFile p offset data (env 0).serverTime)) with
  | .error e => (.error e, fs)
  | .ok (a, r) => (.ok a, { fs with remote := r }.putNamed p
      (fun name => .file (CachedFile.new name (some a))) (env 1).toMoment)

def mkdir (fs : FileSystem L) (p : Path) (env : Env) :
    Except FsModelError Attributes × FileSystem L :=
  match pathToString p >>= fun _ => request (env 0) (withAttributes p
    (fs.remote.mkdir p (env 0).serverTime)) with
  | .error e => (.error e, fs)
  | .ok (a, r) => (.ok a, { fs with remote := r }.putNamed p
      (fun name => .directory ⟨name, some a, some []⟩) (env 1).toMoment)

def createSymlink (fs : FileSystem L) (p : Path) (target : String) (env : Env) :
    Except FsModelError Attributes × FileSystem L :=
  match pathToString p >>= fun _ => request (env 0) (withAttributes p
    (fs.remote.createSymlink p target (env 0).serverTime)) with
  | .error e => (.error e, fs)
  | .ok (a, r) => (.ok a, { fs with remote := r }.putNamed p
      (fun name => .symLink ⟨name, some a, some target⟩) (env 1).toMoment)

/-- What `rename` does to the cache: it carries the one item at the old path over. -/
def renameCached (c : Cache L) (a b : Path) (flags : RenameFlags) (m : Moment) : Cache L :=
  if flags.exchange then ((c.remove a).2.remove b).2
  else
    match b.fileName, (c.remove a).1 with
    | some name, some item => (c.remove a).2.putNew b (item.rename name) m
    | _, _ => (c.remove a).2

def rename (fs : FileSystem L) (a b : Path) (flags : RenameFlags) (env : Env) :
    Except FsModelError Unit × FileSystem L :=
  match pathToString a >>= fun _ => pathToString b >>= fun _ =>
    request (env 0) (fs.remote.rename a b flags) with
  | .error e => (.error e, fs)
  | .ok r => (.ok (), { fs with remote := r }.onCache fun c =>
      renameCached c a b flags (env 1).toMoment)

def remove (fs : FileSystem L) (p : Path) (env : Env) : Except FsModelError Unit × FileSystem L :=
  match pathToString p >>= fun _ => request (env 0) (fs.remote.remove p) with
  | .error e => (.error e, fs)
  | .ok r => (.ok (), { fs with remote := r }.onCache fun c => (c.remove p).2)

def setAttributes (fs : FileSystem L) (p : Path) (new : SetAttr) (env : Env) :
    Except FsModelError Attributes × FileSystem L :=
  match pathToString p >>= fun _ => request (env 0) (withAttributes p
    (fs.remote.setAttributes p new (env 0).serverTime)) with
  | .error e => (.error e, fs)
  | .ok (a, r) => (.ok a, { fs with remote := r }.onCache fun c =>
      cachePutAttr c p a (env 1).toMoment)

def readSymlink (fs : FileSystem L) (p : Path) (env : Env) :
    Except FsModelError String × FileSystem L :=
  let got := fs.cacheGet p (env 0).toMoment
  match got.1 with
  | some (.symLink ⟨_, _, some target⟩) => (.ok target, got.2)
  | _ =>
    match pathToString p >>= fun _ => request (env 1) (got.2.remote.readSymlink p) with
    | .error e => (.error e, got.2)
    | .ok target => (.ok target, match p.fileName with
      | none => got.2
      | some name => got.2.onCache fun c =>
          c.put p (.symLink ⟨name, none, some target⟩) false (env 2).toMoment)

def cacheInvalidate (fs : FileSystem L) (p : Path) : FileSystem L :=
  fs.onCache fun c => c.invalidate p

def listed : CacheItem L → Option Item
  | .directory d => d.attributes.map fun a => ⟨d.name, .directory, a⟩
  | .symLink l => l.attributes.map fun a => ⟨l.name, .symLink, a⟩
  | .file f => f.file.attributes.map fun a => ⟨f.file.name, .file, a⟩

def ofListed (item : Item) : CacheItem L :=
  match item.itemType with
  | .directory => .directory ⟨item.name, some item.attributes, none⟩
  | .symLink => .symLink ⟨item.name, some item.attributes, none⟩
  | .file => .file (CachedFile.new item.name (some item.attributes))

def cachedChildren (fs : FileSystem L) (p : Path) :
    List OsString → Env → Option (List Item) × FileSystem L
  | [], _ => (some [], fs)
  | child :: children, env =>
    let got := fs.cacheGet (p.child child) (env 0).toMoment
    match got.1.bind listed with
    | none => (none, got.2)
    | some item =>
      let rest := got.2.cachedChildren p children (env.drop 1)
      (rest.1.map (item :: ·), rest.2)

def withDots (fs : FileSystem L) (p : Path) (items : List Item) (env : Env) :
    Except FsModelError (List Item) × FileSystem L :=
  let self := fs.getAttributes p env
  match self.1 with
  | .error e => (.error e, self.2)
  | .ok a =>
    let parent := self.2.getAttributes (getParentPath p) (env.drop 3)
    match parent.1 with
    | .error e => (.error e, parent.2)
    | .ok b => (.ok (⟨.text ".", .directory, a⟩ :: ⟨.text "..", .directory, b⟩ :: items),
        parent.2)

def putListed (p : Path) : Cache L → List Item → Env → Cache L
  | c, [], _ => c
  | c, item :: items, env =>
    putListed p (c.put (p.child item.name) (ofListed item) false (env 0).toMoment) items
      (env.drop 1)

def readdirRemote (fs : FileSystem L) (p : Path) (env : Env) :
    Except FsModelError (List Item) × FileSystem L :=
  match pathToString p >>= fun _ => request (env 0) (fs.remote.listPath p (env 0).listing) with
  | .error e => (.error e, fs)
  | .ok items =>
    let self := fs.getAttributes p (env.drop 1)
    match self.1 with
    | .error e => (.error e, self.2)
    | .ok a =>
      let dir : Directory := ⟨p.fileName.getD (.text ""), some a, some (items.map Item.name)⟩
      let stored := self.2.onCache fun c =>
        putListed p (c.put p (.directory dir) false (env 4).toMoment) items (env.drop 5)
      stored.withDots p items (env.drop (5 + items.length))

def readdir (fs : FileSystem L) (p : Path) (env : Env) :
    Except FsModelError (List Item) × FileSystem L :=
  let got := fs.cacheGet p (env 0).toMoment
  match got.1 with
  | some (.directory ⟨_, _, some children⟩) =>
    let hit := got.2.cachedChildren p children (env.drop 1)
    match hit.1 with
    | some items => hit.2.withDots p items (env.drop (1 + children.length))
    | none => hit.2.readdirRemote p (env.drop (1 + children.length))
  | _ => got.2.readdirRemote p (env.drop 1)

section Specs

variable {fs : FileSystem L} {p q : Path} {env : Env}

@[simp] theorem onCache_remote (f : Cache L → Cache L) : (fs.onCache f).remote = fs.remote := rfl

@[simp] theorem onCache_readBuffer (f : Cache L → Cache L) :
    (fs.onCache f).readBuffer = fs.readBuffer := rfl

@[simp] theorem onCache_writeBuffer (f : Cache L → Cache L) :
    (fs.onCache f).writeBuffer = fs.writeBuffer := rfl

@[simp] theorem onCache_cache (f : Cache L → Cache L) : (fs.onCache f).cache = fs.cache.map f := rfl

theorem sent_ok {α : Type} {t : Tick} {outcome : Option α} {a : α} :
    (pathToString p >>= fun _ => request t outcome) = .ok a ↔
      p.isUtf8 = true ∧ t.reply = none ∧ outcome = some a := by
  unfold pathToString request
  cases hp : p.isUtf8 with
  | false =>
    simp only [Bool.false_eq_true, ↓reduceIte, false_and, iff_false]
    intro h; cases h
  | true =>
    cases ht : t.reply with
    | some e =>
      simp only [↓reduceIte, reduceCtorEq, false_and, and_false, iff_false]
      intro h; cases h
    | none =>
      cases outcome with
      | none =>
        simp only [↓reduceIte, reduceCtorEq, and_false, iff_false]
        intro h; cases h
      | some b =>
        simp only [↓reduceIte, true_and, Option.some.injEq]
        exact ⟨fun h => by injection h, fun h => by rw [h]; rfl⟩

theorem upload_ok {w : Chunk} (h : (fs.upload w env).1 = .ok ()) :
    ∃ r, fs.remote.writeFile w.key w.offset w.data (env 0).serverTime = some r ∧
      fs.upload w env = (.ok (), { fs with remote := r }.onCache fun c =>
        cacheWriteFile c w.key w.offset w.data true (env 1).toMoment) := by
  unfold upload at h ⊢
  split at h
  · cases h
  · rename_i r hr
    exact ⟨r, (sent_ok.mp hr).2.2, rfl⟩

theorem upload_error {w : Chunk} {e : FsModelError} (h : (fs.upload w env).1 = .error e) :
    (fs.upload w env).2 = fs := by
  unfold upload at h ⊢
  split at h
  · rfl
  · cases h

theorem writeFile_ok {offset n : ℕ} {data : List UInt8}
    (h : (fs.writeFile p offset data env).1 = .ok n) :
    n = (fs.writeBuffer.stageWrite p offset data).written ∧
      ({ fs with writeBuffer := (fs.writeBuffer.stageWrite p offset data).buffer }.uploadAll
        (fs.writeBuffer.stageWrite p offset data).uploads env).1 = .ok () := by
  simp only [writeFile] at h
  generalize uploadAll { fs with
    writeBuffer := (fs.writeBuffer.stageWrite p offset data).buffer } _ env = sent at h ⊢
  obtain ⟨e | u, fs'⟩ := sent
  · cases h
  · injection h with h
    exact ⟨h.symm, rfl⟩

theorem withAttributes_some {outcome : Option Remote} {a : Attributes} {r : Remote}
    (h : withAttributes p outcome = some (a, r)) :
    outcome = some r ∧ r.getAttributes p = some a := by
  obtain ⟨r', hout, hattr⟩ := Option.bind_eq_some_iff.mp h
  obtain ⟨b, hb, heq⟩ := Option.map_eq_some_iff.mp hattr
  injection heq with ha hr
  subst ha hr
  exact ⟨hout, hb⟩

theorem setAttributes_ok {new : SetAttr} {a : Attributes}
    (h : (fs.setAttributes p new env).1 = .ok a) :
    ∃ r, fs.remote.setAttributes p new (env 0).serverTime = some r ∧
      r.getAttributes p = some a ∧
      fs.setAttributes p new env = (.ok a, { fs with remote := r }.onCache fun c =>
        cachePutAttr c p a (env 1).toMoment) := by
  unfold setAttributes at h ⊢
  split at h
  · cases h
  · rename_i b r hr
    injection h with h
    obtain ⟨hset, hattr⟩ := withAttributes_some (sent_ok.mp hr).2.2
    exact ⟨r, hset, h ▸ hattr, by rw [h]⟩

theorem setAttributes_error {new : SetAttr} {e : FsModelError}
    (h : (fs.setAttributes p new env).1 = .error e) : (fs.setAttributes p new env).2 = fs := by
  unfold setAttributes at h ⊢
  split at h
  · rfl
  · cases h

theorem rename_ok {a b : Path} {flags : RenameFlags} (h : (fs.rename a b flags env).1 = .ok ()) :
    ∃ r, fs.remote.rename a b flags = some r ∧
      fs.rename a b flags env = (.ok (), { fs with remote := r }.onCache fun c =>
        renameCached c a b flags (env 1).toMoment) := by
  unfold rename at h ⊢
  split at h
  · cases h
  · rename_i r hr
    refine ⟨r, ?_, rfl⟩
    unfold pathToString at hr
    split at hr
    · exact (sent_ok.mp hr).2.2
    · cases hr

theorem rename_replied {a b : Path} {flags : RenameFlags}
    (h : (fs.rename a b flags env).1 = .ok ()) : (env 0).reply = none := by
  unfold rename at h
  split at h
  · cases h
  · rename_i r hr
    unfold pathToString at hr
    split at hr
    · exact (sent_ok.mp hr).2.1
    · cases hr

theorem rename_error {a b : Path} {flags : RenameFlags} {e : FsModelError}
    (h : (fs.rename a b flags env).1 = .error e) : (fs.rename a b flags env).2 = fs := by
  unfold rename at h ⊢
  split at h
  · rfl
  · cases h

theorem remove_ok (h : (fs.remove p env).1 = .ok ()) :
    ∃ r, fs.remote.remove p = some r ∧
      fs.remove p env = (.ok (), { fs with remote := r }.onCache fun c => (c.remove p).2) := by
  unfold remove at h ⊢
  split at h
  · cases h
  · rename_i r hr
    exact ⟨r, (sent_ok.mp hr).2.2, rfl⟩

theorem remove_error {e : FsModelError} (h : (fs.remove p env).1 = .error e) :
    (fs.remove p env).2 = fs := by
  unfold remove at h ⊢
  split at h
  · rfl
  · cases h

end Specs

end FileSystem

end ClientFileSystem
