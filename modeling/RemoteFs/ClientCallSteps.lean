import RemoteFs.ClientKnowledgeReads
import RemoteFs.Interleaving

/-! # The atomic steps of the calls that fill the cache and of those that change the server

Between two of them, other calls of the client may take theirs. A lookup in the cache, a put,
a look at the read buffer and its filling are one step each, since each holds its lock, and so
is a request, at the moment at which the server answers it. -/
namespace ClientCallSteps

open ClientAttributes
open ClientCache
open ClientCalls
open ClientFileSystem
open ClientMemory
open ClientPageCache
open ClientReadBuffer
open ClientWriteBuffer
open OsPaths
open RemoteTree
open Interleaving
open WriteLog

variable {L : PageLimits}

inductive Change (L : PageLimits) where
  | written (chunk : Chunk)
  | created (path : Path) (attributes : Attributes)
  | attributes (path : Path) (attributes : Attributes)
  | removed (path : Path)
  /-- A rename takes the old item out, to put it under the new path. -/
  | taken (oldPath newPath : Path)
  | carried (path : Path) (item : CacheItem L)

def Change.apply (m : Moment) (c : Cache L) : Change L → Cache L
  | written w => cacheWriteFile c w.key w.offset w.data true m
  | created p a =>
    match p.fileName with
    | none => c
    | some name => c.putNew p (.file (CachedFile.new name (some a))) m
  | attributes p a => cachePutAttr c p a m
  | removed p => (c.remove p).2
  | taken a _ => (c.remove a).2
  | carried p item => c.putNew p item m

inductive Effect (L : PageLimits) where
  | look
  | get (path : Path) (m : Moment)
  | put (path : Path) (item : CacheItem L) (m : Moment)
  | fill (path : Path) (offset : ℕ) (data : List UInt8) (now : ℕ)
  | serve (remote : Remote)
  | change (c : Change L) (m : Moment)

def Effect.apply : Effect L → FileSystem L → FileSystem L
  | look, fs => fs
  | get p m, fs => (fs.cacheGet p m).2
  | put p item m, fs => fs.onCache fun c => c.put p item false m
  | fill p offset data now, fs => { fs with readBuffer := fs.readBuffer.fill p offset data now }
  | serve r, fs => { fs with remote := r }
  | change c m, fs => fs.onCache fun cache => c.apply m cache

abbrev Steps (L : PageLimits) (α : Type) := Program (FileSystem L) (Effect L) α

/-- `cache_put_attr` and `cache_write_file` put nothing under a path without a final name. -/
def putNamed (p : Path) (item : OsString → CacheItem L) (m : Moment) : Effect L :=
  match p.fileName with
  | none => .look
  | some name => .put p (item name) m

/-! The calls that fill the cache -/

def getAttributes (p : Path) (env : Env) : Steps L (Except FsModelError Attributes) :=
  .step (fun _ => .get p (env 0).toMoment) fun fs =>
    match (fs.cacheGet p (env 0).toMoment).1.bind CacheItem.getAttributes with
    | some a => .pure (.ok a)
    | none => .step (fun _ => .look) fun fs =>
      match pathToString p >>= fun _ => request (env 1) (fs.remote.getAttributes p) with
      | .error e => .pure (.error e)
      | .ok a => .step (fun _ => putNamed p (fun name => .ofAttributes name a) (env 2).toMoment)
          fun _ => .pure (.ok a)

def putBytes (p : Path) (offset : ℕ) (data : List UInt8) (m : Moment) : Effect L :=
  putNamed p (fun name => .file ((CachedFile.new name none).writeContent offset data)) m

def readRemote (p : Path) (offset size : ℕ) (env : Env) :
    Steps L (Except FsModelError (List UInt8)) :=
  .step (fun _ => .look) fun fs =>
    match pathToString p >>= fun _ =>
      request (env 0) (fs.remote.readFile p offset fs.readBuffer.capacity) with
    | .error e => .pure (.error e)
    | .ok data => .step (fun _ => .fill p offset data (env 1).now) fun _ =>
        .step (fun _ => putBytes p offset data (env 2).toMoment) fun _ =>
          .pure (.ok (data.take size))

def readBuffered (p : Path) (offset size : ℕ) (env : Env) :
    Steps L (Except FsModelError (List UInt8)) :=
  .step (fun _ => .look) fun fs =>
    let data := fs.readBuffer.read p offset size (env 0).now
    if data ≠ [] then
      .step (fun _ => putBytes p offset data (env 1).toMoment) fun _ => .pure (.ok data)
    else readRemote p offset size (env.drop 1)

def readCached (p : Path) (offset size : ℕ) (env : Env) :
    Steps L (Except FsModelError (List UInt8)) :=
  .step (fun _ => .get p (env 0).toMoment) fun fs =>
    let data := FileSystem.cachedBytes (fs.cacheGet p (env 0).toMoment).1 offset size
    if data ≠ [] then .pure (.ok data) else readBuffered p offset size (env.drop 1)

def readFile (p : Path) (offset size : ℕ) (env : Env) :
    Steps L (Except FsModelError (List UInt8)) :=
  (getAttributes p env).bind fun attr =>
    match attr with
    | .ok a =>
      if a.size ≤ offset then .pure (.ok []) else readCached p offset size (env.drop 3)
    | .error _ => readCached p offset size (env.drop 3)

def readSymlink (p : Path) (env : Env) : Steps L (Except FsModelError String) :=
  .step (fun _ => .get p (env 0).toMoment) fun fs =>
    match (fs.cacheGet p (env 0).toMoment).1 with
    | some (.symLink ⟨_, _, some target⟩) => .pure (.ok target)
    | _ => .step (fun _ => .look) fun fs =>
      match pathToString p >>= fun _ => request (env 1) (fs.remote.readSymlink p) with
      | .error e => .pure (.error e)
      | .ok target => .step (fun _ => putNamed p (fun name => .symLink ⟨name, none, some target⟩)
          (env 2).toMoment) fun _ => .pure (.ok target)

def cachedChildren (p : Path) : List OsString → Env → Steps L (Option (List Item))
  | [], _ => .pure (some [])
  | child :: children, env =>
    .step (fun _ => .get (p.child child) (env 0).toMoment) fun fs =>
      match (fs.cacheGet (p.child child) (env 0).toMoment).1.bind FileSystem.listed with
      | none => .pure none
      | some item => (cachedChildren p children (env.drop 1)).bind fun rest =>
          .pure (rest.map (item :: ·))

def withDots (p : Path) (items : List Item) (env : Env) :
    Steps L (Except FsModelError (List Item)) :=
  (getAttributes p env).bind fun self =>
    match self with
    | .error e => .pure (.error e)
    | .ok a => (getAttributes (getParentPath p) (env.drop 3)).bind fun parent =>
      match parent with
      | .error e => .pure (.error e)
      | .ok b => .pure (.ok
          (⟨.text ".", .directory, a⟩ :: ⟨.text "..", .directory, b⟩ :: items))

def putListed (p : Path) : List Item → Env → Steps L Unit
  | [], _ => .pure ()
  | item :: items, env =>
    .step (fun _ => .put (p.child item.name) (FileSystem.ofListed item) (env 0).toMoment)
      fun _ => putListed p items (env.drop 1)

def readdirRemote (p : Path) (env : Env) : Steps L (Except FsModelError (List Item)) :=
  .step (fun _ => .look) fun fs =>
    match pathToString p >>= fun _ => request (env 0) (fs.remote.listPath p (env 0).listing) with
    | .error e => .pure (.error e)
    | .ok items => (getAttributes p (env.drop 1)).bind fun self =>
      match self with
      | .error e => .pure (.error e)
      | .ok a => .step (fun _ => .put p (.directory ⟨p.fileName.getD (.text ""), some a,
          some (items.map Item.name)⟩) (env 4).toMoment) fun _ =>
            (putListed p items (env.drop 5)).bind fun _ =>
              withDots p items (env.drop (5 + items.length))

def readdir (p : Path) (env : Env) : Steps L (Except FsModelError (List Item)) :=
  .step (fun _ => .get p (env 0).toMoment) fun fs =>
    match (fs.cacheGet p (env 0).toMoment).1 with
    | some (.directory ⟨_, _, some children⟩) =>
      (cachedChildren p children (env.drop 1)).bind fun hit =>
        match hit with
        | some items => withDots p items (env.drop (1 + children.length))
        | none => readdirRemote p (env.drop (1 + children.length))
    | _ => readdirRemote p (env.drop 1)

inductive Filler where
  | getAttributes
  | readFile (offset size : ℕ)
  | readdir
  | readSymlink
  deriving DecidableEq, Repr

def discard {α : Type} (t : Steps L (Except FsModelError α)) : Steps L (Except FsModelError Unit) :=
  t.bind fun res => .pure (res.map fun _ => ())

def Filler.steps (p : Path) (env : Env) : Filler → Steps L (Except FsModelError Unit)
  | getAttributes => discard (ClientCallSteps.getAttributes p env)
  | readFile offset size => discard (ClientCallSteps.readFile p offset size env)
  | readdir => discard (ClientCallSteps.readdir p env)
  | readSymlink => discard (ClientCallSteps.readSymlink p env)

def Filler.op (p : Path) : Filler → Op
  | getAttributes => .getAttributes p
  | readFile offset size => .read p offset size
  | readdir => .readdir p
  | readSymlink => .readSymlink p

/-! One after the other, the steps of a call are the call -/

section Runs

variable {fs : FileSystem L} {p : Path} {env : Env} {m : Moment}

theorem onCache_self (fs : FileSystem L) : (fs.onCache fun c => c) = fs := by
  cases fs with
  | mk remote readBuffer writeBuffer cache => cases cache <;> rfl

theorem putAttr_apply (p : Path) (a : Attributes) (m : Moment) :
    (putNamed p (fun name => .ofAttributes name a) m).apply fs =
      fs.onCache fun c => cachePutAttr c p a m := by
  unfold putNamed cachePutAttr
  cases p.fileName with
  | none => exact (onCache_self fs).symm
  | some name => rfl

theorem putBytes_apply (p : Path) (offset : ℕ) (data : List UInt8) (m : Moment) :
    (putBytes p offset data m).apply fs =
      fs.onCache fun c => cacheWriteFile c p offset data false m := by
  unfold putBytes putNamed cacheWriteFile
  cases p.fileName with
  | none => exact (onCache_self fs).symm
  | some name => rfl

theorem getAttributes_run (p : Path) (env : Env) (fs : FileSystem L) :
    (getAttributes p env).run Effect.apply fs = fs.getAttributes p env := by
  unfold getAttributes FileSystem.getAttributes
  dsimp only [Program.run, Effect.apply]
  cases (fs.cacheGet p (env 0).toMoment).1.bind CacheItem.getAttributes with
  | some a => rfl
  | none =>
    dsimp only [Program.run, Effect.apply]
    cases pathToString p >>= fun _ =>
      request (env 1) ((fs.cacheGet p (env 0).toMoment).2.remote.getAttributes p) with
    | error e => rfl
    | ok a =>
      dsimp only [Program.run]
      rw [putAttr_apply]

theorem readRemote_run (p : Path) (offset size : ℕ) (env : Env) (fs : FileSystem L) :
    (readRemote p offset size env).run Effect.apply fs = fs.readRemote p offset size env := by
  unfold readRemote FileSystem.readRemote
  dsimp only [Program.run, Effect.apply]
  cases pathToString p >>= fun _ =>
    request (env 0) (fs.remote.readFile p offset fs.readBuffer.capacity) with
  | error e => rfl
  | ok data =>
    dsimp only [Program.run]
    rw [putBytes_apply]
    rfl

theorem readBuffered_run (p : Path) (offset size : ℕ) (env : Env) (fs : FileSystem L) :
    (readBuffered p offset size env).run Effect.apply fs = fs.readBuffered p offset size env := by
  unfold readBuffered FileSystem.readBuffered
  dsimp only [Program.run, Effect.apply]
  by_cases hne : fs.readBuffer.read p offset size (env 0).now ≠ []
  · rw [if_pos hne, if_pos hne, Program.run, Program.run, putBytes_apply]
  · rw [if_neg hne, if_neg hne]
    exact readRemote_run p offset size _ fs

theorem readCached_run (p : Path) (offset size : ℕ) (env : Env) (fs : FileSystem L) :
    (readCached p offset size env).run Effect.apply fs = fs.readCached p offset size env := by
  unfold readCached FileSystem.readCached
  dsimp only [Program.run, Effect.apply]
  by_cases hne : FileSystem.cachedBytes (fs.cacheGet p (env 0).toMoment).1 offset size ≠ []
  · rw [if_pos hne, if_pos hne]
    rfl
  · rw [if_neg hne, if_neg hne]
    exact readBuffered_run p offset size _ _

theorem readFile_run (p : Path) (offset size : ℕ) (env : Env) (fs : FileSystem L) :
    (readFile p offset size env).run Effect.apply fs = fs.readFile p offset size env := by
  unfold readFile FileSystem.readFile
  rw [Program.run_bind, getAttributes_run]
  dsimp only
  cases (fs.getAttributes p env).1 with
  | error e => exact readCached_run p offset size _ _
  | ok a =>
    dsimp only
    by_cases hle : a.size ≤ offset
    · rw [if_pos hle, if_pos hle]
      rfl
    · rw [if_neg hle, if_neg hle]
      exact readCached_run p offset size _ _

theorem readSymlink_run (p : Path) (env : Env) (fs : FileSystem L) :
    (readSymlink p env).run Effect.apply fs = fs.readSymlink p env := by
  unfold readSymlink FileSystem.readSymlink
  dsimp only [Program.run, Effect.apply]
  rcases (fs.cacheGet p (env 0).toMoment).1 with _ | (file | ⟨name, attributes, _ | target⟩ | dir)
  case some.symLink.some => rfl
  -- no link with a target: the server is asked, whatever the item
  all_goals
    dsimp only [Program.run, Effect.apply]
    cases pathToString p >>= fun _ =>
      request (env 1) ((fs.cacheGet p (env 0).toMoment).2.remote.readSymlink p) with
    | error e => rfl
    | ok target =>
      dsimp only [Program.run, putNamed]
      cases p.fileName <;> rfl

theorem cachedChildren_run (p : Path) (children : List OsString) : ∀ (env : Env)
    (fs : FileSystem L), (cachedChildren p children env).run Effect.apply fs =
      fs.cachedChildren p children env := by
  induction children with
  | nil => exact fun _ _ => rfl
  | cons child children ih =>
    intro env fs
    rw [cachedChildren, FileSystem.cachedChildren]
    dsimp only [Program.run, Effect.apply]
    cases (fs.cacheGet (p.child child) (env 0).toMoment).1.bind FileSystem.listed with
    | none => rfl
    | some item =>
      dsimp only
      rw [Program.run_bind, ih]
      rfl

theorem withDots_run (p : Path) (items : List Item) (env : Env) (fs : FileSystem L) :
    (withDots p items env).run Effect.apply fs = fs.withDots p items env := by
  unfold withDots FileSystem.withDots
  rw [Program.run_bind, getAttributes_run]
  dsimp only
  cases (fs.getAttributes p env).1 with
  | error e => rfl
  | ok a =>
    dsimp only
    rw [Program.run_bind, getAttributes_run]
    cases ((fs.getAttributes p env).2.getAttributes (getParentPath p) (env.drop 3)).1 <;> rfl

theorem putListed_run (p : Path) (items : List Item) : ∀ (env : Env) (fs : FileSystem L),
    ((putListed p items env).run Effect.apply fs).2 =
      fs.onCache fun c => FileSystem.putListed p c items env := by
  induction items with
  | nil => exact fun _ fs => (onCache_self fs).symm
  | cons item items ih =>
    intro env fs
    refine (ih _ _).trans ?_
    exact onCache_onCache fs _ _

theorem readdirRemote_run (p : Path) (env : Env) (fs : FileSystem L) :
    (readdirRemote p env).run Effect.apply fs = fs.readdirRemote p env := by
  unfold readdirRemote FileSystem.readdirRemote
  dsimp only [Program.run, Effect.apply]
  cases pathToString p >>= fun _ =>
    request (env 0) (fs.remote.listPath p (env 0).listing) with
  | error e => rfl
  | ok items =>
    rw [Program.run_bind, getAttributes_run]
    dsimp only
    cases (fs.getAttributes p (env.drop 1)).1 with
    | error e => rfl
    | ok a =>
      dsimp only
      rw [Program.run, Program.run_bind, putListed_run, withDots_run, Effect.apply,
        onCache_onCache]

theorem readdir_run (p : Path) (env : Env) (fs : FileSystem L) :
    (readdir p env).run Effect.apply fs = fs.readdir p env := by
  unfold readdir FileSystem.readdir
  dsimp only [Program.run, Effect.apply]
  rcases (fs.cacheGet p (env 0).toMoment).1 with
    _ | (file | link | ⟨name, attributes, _ | children⟩)
  case some.directory.some =>
    rw [Program.run_bind, cachedChildren_run]
    dsimp only
    cases ((fs.cacheGet p (env 0).toMoment).2.cachedChildren p children (env.drop 1)).1 with
    | none => exact readdirRemote_run p _ _
    | some items => exact withDots_run p _ _ _
  all_goals exact readdirRemote_run p _ _

theorem discard_run {α : Type} (t : Steps L (Except FsModelError α)) (fs : FileSystem L) :
    (discard t).run Effect.apply fs = outcome (t.run Effect.apply fs) :=
  Program.run_bind t _ fs

/-- The steps of a filling call, one after the other, are the call. -/
theorem filler_run (filler : Filler) (p : Path) (env : Env) (fs : FileSystem L) :
    (filler.steps p env).run Effect.apply fs = (filler.op p).run fs env := by
  cases filler with
  | getAttributes => exact (discard_run _ fs).trans (by rw [getAttributes_run]; rfl)
  | readFile offset size => exact (discard_run _ fs).trans (by rw [readFile_run]; rfl)
  | readdir => exact (discard_run _ fs).trans (by rw [readdir_run]; rfl)
  | readSymlink => exact (discard_run _ fs).trans (by rw [readSymlink_run]; rfl)

end Runs

/-! The calls that change the server -/

/-- The calls that change the server; a flush has taken its chunk out of the write buffer. -/
inductive Mutator where
  | flush (chunk : Chunk)
  | createFile (path : Path) (offset : ℕ) (data : List UInt8)
  | setAttributes (path : Path) (new : SetAttr)
  | remove (path : Path)
  | rename (oldPath newPath : Path) (flags : RenameFlags)
  deriving DecidableEq, Repr

inductive Grant where
  | written (chunk : Chunk)
  | created (path : Path) (attributes : Attributes)
  | attributes (path : Path) (attributes : Attributes)
  | removed (path : Path)
  | renamed (oldPath newPath : Path) (flags : RenameFlags)
  deriving DecidableEq, Repr

def changeLast (c : Change L) (m : Moment) : Steps L (Except FsModelError Unit) :=
  .step (fun _ => .change c m) fun _ => .pure (.ok ())

/-- A rename goes to the cache twice: it removes both items, or takes the old one out and puts
it under the new path. -/
def renameSteps (a b : Path) (flags : RenameFlags) (m : Moment) :
    Steps L (Except FsModelError Unit) :=
  if flags.exchange then
    .step (fun _ => .change (.removed a) m) fun _ => changeLast (.removed b) m
  else
    .step (fun _ => .change (.taken a b) m) fun fs =>
      match b.fileName, fs.cache.bind fun c => (c.remove a).1 with
      | some name, some item => changeLast (.carried b (item.rename name)) m
      | _, _ => .pure (.ok ())

def Grant.steps (m : Moment) : Grant → Steps L (Except FsModelError Unit)
  | written w => changeLast (.written w) m
  | created p a => changeLast (.created p a) m
  | attributes p a => changeLast (.attributes p a) m
  | removed p => changeLast (.removed p) m
  | renamed a b flags => renameSteps a b flags m

def Mutator.granted (t : Tick) (r : Remote) : Mutator → Except FsModelError (Grant × Remote)
  | flush w => (pathToString w.key >>= fun _ =>
      request t (r.writeFile w.key w.offset w.data t.serverTime)).map fun r => (.written w, r)
  | createFile p off d => (pathToString p >>= fun _ =>
      request t (withAttributes p (r.writeFile p off d t.serverTime))).map
        fun ar => (.created p ar.1, ar.2)
  | setAttributes p new => (pathToString p >>= fun _ =>
      request t (withAttributes p (r.setAttributes p new t.serverTime))).map
        fun ar => (.attributes p ar.1, ar.2)
  | remove p => (pathToString p >>= fun _ => request t (r.remove p)).map fun r => (.removed p, r)
  | rename a b flags => (pathToString a >>= fun _ => pathToString b >>= fun _ =>
      request t (r.rename a b flags)).map fun r => (.renamed a b flags, r)

inductive Granted (r r' : Remote) (now : Timestamp) : Mutator → Grant → Prop where
  | flush {w : Chunk} (h : r.writeFile w.key w.offset w.data now = some r') :
      Granted r r' now (.flush w) (.written w)
  | createFile {p : Path} {off : ℕ} {d : List UInt8} {a : Attributes}
      (h : r.writeFile p off d now = some r') (ha : r'.getAttributes p = some a) :
      Granted r r' now (.createFile p off d) (.created p a)
  | setAttributes {p : Path} {new : SetAttr} {a : Attributes}
      (h : r.setAttributes p new now = some r') (ha : r'.getAttributes p = some a) :
      Granted r r' now (.setAttributes p new) (.attributes p a)
  | remove {p : Path} (h : r.remove p = some r') : Granted r r' now (.remove p) (.removed p)
  | rename {a b : Path} {flags : RenameFlags} (h : r.rename a b flags = some r') :
      Granted r r' now (.rename a b flags) (.renamed a b flags)

theorem map_ok {ε α β : Type} {f : α → β} {sent : Except ε α} {b : β} (h : sent.map f = .ok b) :
    ∃ a, sent = .ok a ∧ f a = b := by
  cases sent with
  | error e => cases h
  | ok a => exact ⟨a, rfl, Except.ok.inj h⟩

theorem granted_of_ok {t : Tick} {r r' : Remote} {mutator : Mutator} {g : Grant}
    (h : mutator.granted t r = .ok (g, r')) : Granted r r' t.serverTime mutator g := by
  cases mutator with
  | flush w =>
    obtain ⟨a, hsent, heq⟩ := map_ok h
    injection heq with hc hr
    subst hc hr
    exact .flush (FileSystem.sent_ok.mp hsent).2.2
  | createFile p off d =>
    obtain ⟨a, hsent, heq⟩ := map_ok h
    injection heq with hc hr
    subst hc hr
    obtain ⟨hw, ha⟩ := FileSystem.withAttributes_some (FileSystem.sent_ok.mp hsent).2.2
    exact .createFile hw ha
  | setAttributes p new =>
    obtain ⟨a, hsent, heq⟩ := map_ok h
    injection heq with hc hr
    subst hc hr
    obtain ⟨hset, ha⟩ := FileSystem.withAttributes_some (FileSystem.sent_ok.mp hsent).2.2
    exact .setAttributes hset ha
  | remove p =>
    obtain ⟨a, hsent, heq⟩ := map_ok h
    injection heq with hc hr
    subst hc hr
    exact .remove (FileSystem.sent_ok.mp hsent).2.2
  | rename a b flags =>
    obtain ⟨a, hsent, heq⟩ := map_ok h
    injection heq with hc hr
    subst hc hr
    unfold pathToString at hsent
    split at hsent
    · exact .rename (FileSystem.sent_ok.mp hsent).2.2
    · cases hsent

def Mutator.steps (env : Env) (mutator : Mutator) : Steps L (Except FsModelError Unit) :=
  .step (fun fs =>
      match mutator.granted (env 0) fs.remote with
      | .error _ => .look
      | .ok (_, r) => .serve r)
    fun fs =>
      match mutator.granted (env 0) fs.remote with
      | .error e => .pure (.error e)
      | .ok (g, _) => g.steps (env 1).toMoment

def Mutator.call (fs : FileSystem L) (env : Env) :
    Mutator → Except FsModelError Unit × FileSystem L
  | flush w => fs.upload w env
  | createFile p off d => outcome (fs.createFile p off d env)
  | setAttributes p new => outcome (fs.setAttributes p new env)
  | remove p => fs.remove p env
  | rename a b flags => fs.rename a b flags env

theorem changeLast_run (c : Change L) (m : Moment) (fs : FileSystem L) :
    (changeLast c m).run Effect.apply fs = (.ok (), fs.onCache fun cache => c.apply m cache) := rfl

theorem renameSteps_run (a b : Path) (flags : RenameFlags) (m : Moment) (fs : FileSystem L) :
    (renameSteps a b flags m).run Effect.apply fs =
      (.ok (), fs.onCache fun c => FileSystem.renameCached c a b flags m) := by
  unfold renameSteps FileSystem.renameCached
  by_cases hflag : flags.exchange = true
  · simp only [if_pos hflag]
    exact congrArg (Prod.mk _) (onCache_onCache fs _ _)
  · simp only [if_neg hflag]
    dsimp only [Program.run, Effect.apply]
    obtain ⟨remote, readBuffer, writeBuffer, cache⟩ := fs
    cases b.fileName with
    | none => rfl
    | some name =>
      cases cache with
      | none => rfl
      | some c =>
        dsimp only [FileSystem.onCache, Option.bind_some, Option.map_some]
        cases (c.remove a).1 <;> rfl

/-- The steps of a mutating call, one after the other, are the call. -/
theorem mutator_run (mutator : Mutator) (env : Env) (fs : FileSystem L) :
    (mutator.steps env).run Effect.apply fs = mutator.call fs env := by
  unfold Mutator.steps
  dsimp only [Program.run]
  cases mutator with
  | flush w =>
    simp only [Mutator.granted, Mutator.call, FileSystem.upload]
    generalize (pathToString w.key >>= fun _ => request (env 0)
      (fs.remote.writeFile w.key w.offset w.data (env 0).serverTime)) = sent
    cases sent <;> rfl
  | createFile p off d =>
    simp only [Mutator.granted, Mutator.call, FileSystem.createFile]
    generalize (pathToString p >>= fun _ => request (env 0) (withAttributes p
      (fs.remote.writeFile p off d (env 0).serverTime))) = sent
    cases sent with
    | error e => rfl
    | ok ar =>
      cases hn : p.fileName with
      | none =>
        simp only [Except.map, Grant.steps, changeLast_run, Effect.apply, Change.apply, outcome,
          FileSystem.putNamed, hn, onCache_self]
      | some name =>
        simp only [Except.map, Grant.steps, changeLast_run, Effect.apply, Change.apply, outcome,
          FileSystem.putNamed, hn]
  | setAttributes p new =>
    simp only [Mutator.granted, Mutator.call, FileSystem.setAttributes]
    generalize (pathToString p >>= fun _ => request (env 0) (withAttributes p
      (fs.remote.setAttributes p new (env 0).serverTime))) = sent
    cases sent <;> rfl
  | remove p =>
    simp only [Mutator.granted, Mutator.call, FileSystem.remove]
    generalize (pathToString p >>= fun _ => request (env 0) (fs.remote.remove p)) = sent
    cases sent <;> rfl
  | rename a b flags =>
    simp only [Mutator.granted, Mutator.call, FileSystem.rename]
    generalize (pathToString a >>= fun _ => pathToString b >>= fun _ =>
      request (env 0) (fs.remote.rename a b flags)) = sent
    cases sent with
    | error e => rfl
    | ok r => exact renameSteps_run a b flags _ _

theorem flushWriteBuffer_eq (fs : FileSystem L) (env : Env) : fs.flushWriteBuffer env =
    match fs.writeBuffer.stageFlush.1 with
    | none => (.ok (), { fs with writeBuffer := fs.writeBuffer.stageFlush.2 })
    | some w => (Mutator.flush w).call
        { fs with writeBuffer := fs.writeBuffer.stageFlush.2 } env := by
  unfold FileSystem.flushWriteBuffer
  dsimp only
  cases fs.writeBuffer.stageFlush.1 with
  | none => rfl
  | some w =>
    rw [Option.toList_some, FileSystem.uploadAll]
    simp only [Mutator.call]
    generalize FileSystem.upload { fs with writeBuffer := fs.writeBuffer.stageFlush.2 } w env = sent
    obtain ⟨_ | _, _⟩ := sent <;> rfl

end ClientCallSteps
