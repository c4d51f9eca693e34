import RemoteFs.ClientMemory

/-! # The calls of the file system and what each leaves alone

A call either fetches, and then changes the cache alone, or it changes one place of the
server, or it sends what it takes out of the write buffer. -/
namespace ClientCalls

open ClientAttributes
open ClientCache
open ClientFileSystem
open ClientMemory
open ClientPageCache
open ClientWriteBuffer
open OsPaths
open RemoteTree
open WriteLog

variable {L : PageLimits}

inductive Op where
  | read (path : Path) (offset size : ℕ)
  | write (path : Path) (offset : ℕ) (data : List UInt8)
  | flush
  | getAttributes (path : Path)
  | setAttributes (path : Path) (new : SetAttr)
  | createFile (path : Path) (offset : ℕ) (data : List UInt8)
  | mkdir (path : Path)
  | createSymlink (path : Path) (target : String)
  | readSymlink (path : Path)
  | readdir (path : Path)
  | rename (oldPath newPath : Path) (flags : RenameFlags)
  | remove (path : Path)
  | invalidate (path : Path)
  deriving DecidableEq, Repr

def outcome {α : Type} (done : Except FsModelError α × FileSystem L) :
    Except FsModelError Unit × FileSystem L := (done.1.map fun _ => (), done.2)

def Op.run (fs : FileSystem L) : Op → Env → Except FsModelError Unit × FileSystem L
  | read p o s, env => outcome (fs.readFile p o s env)
  | write p off d, env => outcome (fs.writeFile p off d env)
  | flush, env => fs.flushWriteBuffer env
  | getAttributes p, env => outcome (fs.getAttributes p env)
  | setAttributes p new, env => outcome (fs.setAttributes p new env)
  | createFile p off d, env => outcome (fs.createFile p off d env)
  | mkdir p, env => outcome (fs.mkdir p env)
  | createSymlink p target, env => outcome (fs.createSymlink p target env)
  | readSymlink p, env => outcome (fs.readSymlink p env)
  | readdir p, env => outcome (fs.readdir p env)
  | rename a b flags, env => fs.rename a b flags env
  | remove p, env => fs.remove p env
  | invalidate p, _ => (.ok (), fs.cacheInvalidate p)

def runOps : FileSystem L → List (Op × Env) → FileSystem L
  | fs, [] => fs
  | fs, (op, env) :: ops => runOps (op.run fs env).2 ops

/-- What a call takes out of the write buffer, and what it leaves there. -/
def Op.staged (b : WriteBuffer) : Op → List Chunk × WriteBuffer
  | write p off d => ((b.stageWrite p off d).uploads, (b.stageWrite p off d).buffer)
  | flush => (b.stageFlush.1.toList, b.stageFlush.2)
  | _ => ([], b)

def Op.accepted (b : WriteBuffer) : Op → Chunk
  | write p off d => ⟨p, off, d.take (b.stageWrite p off d).written⟩
  | _ => ⟨[], 0, []⟩

/-- For any store, sending what a call takes out and what it leaves equals sending what was
held and what the call accepted. -/
theorem staged_view {σ : Type*} (S : Store σ Path UInt8) (b : WriteBuffer) (op : Op) (s : σ) :
    (op.staged b).2.view S (S.applyAll s (op.staged b).1) =
      S.apply (b.view S s) (op.accepted b) := by
  cases op with
  | write p off d => exact WriteBuffer.stageWrite_view S b p off d s
  | flush =>
    simp only [Op.staged, Op.accepted, apply_empty]
    rw [WriteBuffer.view_of_empty S (WriteBuffer.stageFlush_content b)]
    exact WriteBuffer.stageFlush_view S b s
  | _ => simp only [Op.staged, Op.accepted, apply_empty, applyAll_nil]

section Fetching

variable {p q : Path} {t : ℕ} {R : CachedFile L → Prop} {A : Attributes → Prop}
variable {fs fs₁ fs₂ : FileSystem L} {env : Env}

/-- The cache alone may have changed, and the cached item of `p` stayed good. -/
structure Fetched (p : Path) (t : ℕ) (R : CachedFile L → Prop) (A : Attributes → Prop)
    (fs done : FileSystem L) : Prop where
  remote : done.remote = fs.remote
  readBuffer : done.readBuffer = fs.readBuffer
  writeBuffer : done.writeBuffer = fs.writeBuffer
  entries : Entries fs p t (Good R A) → Entries done p t (Good R A)

theorem Fetched.refl (fs : FileSystem L) : Fetched p t R A fs fs := ⟨rfl, rfl, rfl, id⟩

theorem Fetched.trans (h : Fetched p t R A fs fs₁) (h' : Fetched p t R A fs₁ fs₂) :
    Fetched p t R A fs fs₂ :=
  ⟨h'.remote.trans h.remote, h'.readBuffer.trans h.readBuffer,
    h'.writeBuffer.trans h.writeBuffer, fun he => h'.entries (h.entries he)⟩

theorem fetched_onCache {f : Cache L → Cache L}
    (h : Entries fs p t (Good R A) → Entries (fs.onCache f) p t (Good R A)) :
    Fetched p t R A fs (fs.onCache f) := ⟨rfl, rfl, rfl, h⟩

theorem fetched_cacheGet (fs : FileSystem L) (q : Path) (m : Moment) :
    Fetched p t R A fs (fs.cacheGet q m).2 :=
  ⟨(cacheGet_frame fs q m).1, (cacheGet_frame fs q m).2.1, (cacheGet_frame fs q m).2.2,
    fun h => h.cacheGet q m⟩

theorem fetched_getAttributes (hR : AboutPages R) (ht : ∀ i, t ≤ (env i).now)
    (ha : ∀ a, fs.remote.getAttributes p = some a → A a) (q : Path) :
    Fetched p t R A fs (fs.getAttributes q env).2 :=
  ⟨(getAttributes_frame fs q env).1, (getAttributes_frame fs q env).2.1,
    (getAttributes_frame fs q env).2.2, fun h => h.getAttributes hR ht ha q⟩

theorem fetched_readSymlink (hR : AboutPages R) (ht : ∀ i, t ≤ (env i).now) (q : Path) :
    Fetched p t R A fs (fs.readSymlink q env).2 := by
  have hget := fetched_cacheGet (p := p) (t := t) (R := R) (A := A) fs q (env 0).toMoment
  unfold FileSystem.readSymlink
  dsimp only
  split
  · exact hget
  · split
    · exact hget
    · refine hget.trans ?_
      dsimp only
      split
      · exact Fetched.refl _
      · refine fetched_onCache fun h => h.put_bare hR (ht 2) trivial ?_
        intro _ a hnone
        cases hnone

theorem fetched_cachedChildren (q : Path) (children : List OsString) :
    ∀ (fs : FileSystem L) (env : Env),
      Fetched p t R A fs (fs.cachedChildren q children env).2 := by
  induction children with
  | nil => exact fun fs _ => Fetched.refl fs
  | cons child children ih =>
    intro fs env
    have hget := fetched_cacheGet (p := p) (t := t) (R := R) (A := A) fs (q.child child)
      (env 0).toMoment
    rw [FileSystem.cachedChildren]
    dsimp only
    split
    · exact hget
    · exact hget.trans (ih _ _)

theorem fetched_withDots (hR : AboutPages R) (ht : ∀ i, t ≤ (env i).now)
    (ha : ∀ a, fs.remote.getAttributes p = some a → A a) (q : Path) (items : List Item) :
    Fetched p t R A fs (fs.withDots q items env).2 := by
  have hself := fetched_getAttributes hR ht ha q
  unfold FileSystem.withDots
  dsimp only
  split
  · exact hself
  · have hparent := fetched_getAttributes hR (fun i => ht (3 + i))
      (by rw [hself.remote]; exact ha) (getParentPath q)
    split
    · exact hself.trans hparent
    · exact hself.trans hparent

theorem onCache_onCache (fs : FileSystem L) (f g : Cache L → Cache L) :
    (fs.onCache f).onCache g = fs.onCache fun c => g (f c) := by
  unfold FileSystem.onCache
  cases fs.cache <;> rfl

theorem fetched_putListed (hR : AboutPages R) (items : List Item) :
    ∀ (fs : FileSystem L) (env : Env), (∀ i, t ≤ (env i).now) →
      (∀ item ∈ items, q.child item.name = p → A item.attributes) →
      Fetched p t R A fs (fs.onCache fun c => FileSystem.putListed q c items env) := by
  induction items with
  | nil => exact fun fs _ _ _ => fetched_onCache fun h => h.onCache_sub Cache.Sub.refl
  | cons item items ih =>
    intro fs env ht hitems
    have hput : Fetched p t R A fs (fs.onCache fun c =>
        c.put (q.child item.name) (FileSystem.ofListed item) false (env 0).toMoment) := by
      obtain ⟨hb, hattr⟩ := bare_ofListed (L := L) item
      refine fetched_onCache fun h => h.put_bare hR (ht 0) hb ?_
      intro hq a ha
      rw [hattr] at ha
      injection ha with ha
      exact ha ▸ hitems item List.mem_cons_self hq
    have hrest := ih (fs.onCache fun c =>
      c.put (q.child item.name) (FileSystem.ofListed item) false (env 0).toMoment) (env.drop 1)
      (fun i => ht (1 + i)) (fun i hi => hitems i (List.mem_cons_of_mem _ hi))
    rw [onCache_onCache] at hrest
    exact hput.trans hrest

/-- A listing of `p` itself is no concern if `p` is not a directory. -/
theorem fetched_readdirRemote (hR : AboutPages R) (ht : ∀ i, t ≤ (env i).now)
    (ha : ∀ a, fs.remote.getAttributes p = some a → A a)
    (hp : ∀ len, fs.remote.nodes p = some (.directory len) → ∀ a, A a) (q : Path) :
    Fetched p t R A fs (fs.readdirRemote q env).2 := by
  unfold FileSystem.readdirRemote
  split
  · exact Fetched.refl fs
  · rename_i items hsent
    have hlist := (FileSystem.sent_ok.mp hsent).2.2
    have hself := fetched_getAttributes hR (fun i => ht (1 + i)) ha q
    dsimp only
    split
    · exact hself
    · rename_i a _
      have hq : q = p → ∀ a, A a := by
        rintro rfl
        unfold Remote.listPath at hlist
        split at hlist
        · rename_i len hdir
          exact hp len hdir
        · cases hlist
      have hdir : Fetched p t R A (fs.getAttributes q (env.drop 1)).2
          ((fs.getAttributes q (env.drop 1)).2.onCache fun c => c.put q
            (.directory ⟨q.fileName.getD (.text ""), some a, some (items.map Item.name)⟩) false
            (env 4).toMoment) :=
        fetched_onCache fun h => h.put_bare hR (ht 4) trivial fun hqp b _ => hq hqp b
      have hlisted := fetched_putListed (p := p) (q := q) (A := A) hR items
        ((fs.getAttributes q (env.drop 1)).2.onCache fun c => c.put q
            (.directory ⟨q.fileName.getD (.text ""), some a, some (items.map Item.name)⟩) false
            (env 4).toMoment) (env.drop 5) (fun i => ht (5 + i)) (by
          intro item hi hchild
          exact ha _ (hchild ▸ Remote.listPath_attributes hlist hi))
      rw [onCache_onCache] at hlisted
      have hstored := hself.trans (hdir.trans hlisted)
      exact hstored.trans (fetched_withDots hR (fun i => ht _)
        (by rw [hstored.remote]; exact ha) q items)

theorem fetched_readdir (hR : AboutPages R) (ht : ∀ i, t ≤ (env i).now)
    (ha : ∀ a, fs.remote.getAttributes p = some a → A a)
    (hp : ∀ len, fs.remote.nodes p = some (.directory len) → ∀ a, A a) (q : Path) :
    Fetched p t R A fs (fs.readdir q env).2 := by
  have hget := fetched_cacheGet (p := p) (t := t) (R := R) (A := A) fs q (env 0).toMoment
  unfold FileSystem.readdir
  dsimp only
  split
  · rename_i children _
    have hchildren := hget.trans (fetched_cachedChildren q children _ (env.drop 1))
    split
    · exact hchildren.trans (fetched_withDots hR (fun i => ht _)
        (by rw [hchildren.remote]; exact ha) q _)
    · exact hchildren.trans (fetched_readdirRemote hR (fun i => ht _)
        (by rw [hchildren.remote]; exact ha) (by rw [hchildren.remote]; exact hp) q)
  · exact hget.trans (fetched_readdirRemote hR (fun i => ht _)
      (by rw [hget.remote]; exact ha) (by rw [hget.remote]; exact hp) q)

structure ReadElsewhere (p : Path) (t : ℕ) (R : CachedFile L → Prop) (A : Attributes → Prop)
    (fs done : FileSystem L) : Prop where
  remote : done.remote = fs.remote
  buffer : ∀ later x b, done.readBuffer.byteAt later p x = some b →
    fs.readBuffer.byteAt later p x = some b
  entries : Entries fs p t (Good R A) → Entries done p t (Good R A)

theorem Fetched.readElsewhere (h : Fetched p t R A fs fs₁) : ReadElsewhere p t R A fs fs₁ :=
  ⟨h.remote, fun later x b hb => by rwa [h.readBuffer] at hb, h.entries⟩

theorem ReadElsewhere.trans (h : ReadElsewhere p t R A fs fs₁)
    (h' : ReadElsewhere p t R A fs₁ fs₂) : ReadElsewhere p t R A fs fs₂ :=
  ⟨h'.remote.trans h.remote, fun later x b hb => h.buffer later x b (h'.buffer later x b hb),
    fun he => h'.entries (h.entries he)⟩

theorem fetched_cacheWriteFile {off : ℕ} {d : List UInt8} {inv : Bool} {m : Moment}
    (hq : q ≠ p) :
    Fetched p t R A fs (fs.onCache fun c => cacheWriteFile c q off d inv m) :=
  fetched_onCache fun he => he.cacheWriteFile_ne hq

theorem readRemote_elsewhere {o s : ℕ} (hq : q ≠ p) :
    ReadElsewhere p t R A fs (fs.readRemote q o s env).2 := by
  unfold FileSystem.readRemote
  split
  · exact (Fetched.refl fs).readElsewhere
  · rename_i data _
    have hfilled : ReadElsewhere p t R A fs { fs with
        readBuffer := fs.readBuffer.fill q o data (env 1).now } :=
      ⟨rfl, fun _ _ _ hb => (hq (ClientReadBuffer.ReadBuffer.byteAt_fill hb).1.symm).elim, id⟩
    exact hfilled.trans (fetched_cacheWriteFile hq).readElsewhere

theorem readFile_elsewhere {o s : ℕ} (hR : AboutPages R) (ht : ∀ i, t ≤ (env i).now)
    (ha : ∀ a, fs.remote.getAttributes p = some a → A a) (hq : q ≠ p) :
    ReadElsewhere p t R A fs (fs.readFile q o s env).2 := by
  have hattr := fetched_getAttributes hR ht ha q
  have hcached : ReadElsewhere p t R A fs
      ((fs.getAttributes q env).2.readCached q o s (env.drop 3)).2 := by
    have hget := hattr.trans (fetched_cacheGet _ q ((env.drop 3) 0).toMoment)
    unfold FileSystem.readCached
    dsimp only
    split
    · exact hget.readElsewhere
    · unfold FileSystem.readBuffered
      dsimp only
      split
      · exact (hget.trans (fetched_cacheWriteFile hq)).readElsewhere
      · exact hget.readElsewhere.trans (readRemote_elsewhere hq)
  unfold FileSystem.readFile
  dsimp only
  split
  · split
    · exact hattr.readElsewhere
    · exact hcached
  · exact hcached

end Fetching

section Buffers

variable {fs : FileSystem L} {q : Path} {env : Env} {ws : List Chunk} {w : Chunk}

theorem uploadAll_cons_ok (h : (fs.upload w env).1 = .ok ()) :
    fs.uploadAll (w :: ws) env = (fs.upload w env).2.uploadAll ws (env.drop 2) := by
  rw [FileSystem.uploadAll]
  split
  · rename_i e _ he
    rw [he] at h
    cases h
  · rename_i he
    rw [he]

theorem uploadAll_cons_error {e : FsModelError} (h : (fs.upload w env).1 = .error e) :
    fs.uploadAll (w :: ws) env = (.error e, fs) := by
  have hfs := FileSystem.upload_error h
  rw [FileSystem.uploadAll, show fs.upload w env = (.error e, fs) from Prod.ext h hfs]

/-- What every upload keeps, uploads one after another keep, also when one fails. -/
theorem uploadAll_keeps {I : FileSystem L → Prop}
    (hI : ∀ (fs : FileSystem L) (w : Chunk) (env : Env), I fs → I (fs.upload w env).2)
    (ws : List Chunk) : ∀ (fs : FileSystem L) (env : Env), I fs → I (fs.uploadAll ws env).2 := by
  induction ws with
  | nil => exact fun _ _ h => h
  | cons w ws ih =>
    intro fs env h
    cases hres : (fs.upload w env).1 with
    | error e =>
      rw [uploadAll_cons_error hres]
      exact h
    | ok u =>
      rw [uploadAll_cons_ok hres]
      exact ih _ _ (hI fs w env h)

theorem upload_frame (fs : FileSystem L) (w : Chunk) (env : Env) :
    (fs.upload w env).2.readBuffer = fs.readBuffer ∧
      (fs.upload w env).2.writeBuffer = fs.writeBuffer := by
  unfold FileSystem.upload
  split <;> exact ⟨rfl, rfl⟩

theorem uploadAll_frame (ws : List Chunk) (fs : FileSystem L) (env : Env) :
    (fs.uploadAll ws env).2.readBuffer = fs.readBuffer ∧
      (fs.uploadAll ws env).2.writeBuffer = fs.writeBuffer := by
  refine uploadAll_keeps (I := fun fs' => fs'.readBuffer = fs.readBuffer ∧
    fs'.writeBuffer = fs.writeBuffer) (fun fs' w env h => ?_) ws fs env ⟨rfl, rfl⟩
  obtain ⟨hread, hwrite⟩ := upload_frame fs' w env
  exact ⟨hread.trans h.1, hwrite.trans h.2⟩

theorem aboutPages_true : AboutPages fun _ : CachedFile L => True :=
  ⟨fun _ _ => trivial, fun _ _ _ _ => trivial⟩

theorem created_frame {r : Remote} {item : OsString → CacheItem L} {m : Moment} :
    ({ fs with remote := r }.putNamed q item m).readBuffer = fs.readBuffer ∧
      ({ fs with remote := r }.putNamed q item m).writeBuffer = fs.writeBuffer :=
  (putNamed_frame _ q item m).2

theorem read_frame (fs : FileSystem L) (q : Path) (o s : ℕ) (env : Env) :
    (fs.readFile q o s env).2.writeBuffer = fs.writeBuffer ∧
      (fs.readFile q o s env).2.readBuffer.capacity = fs.readBuffer.capacity := by
  have hok : ReadOk fs q 0 (fun _ _ => True) (fun _ => True) (fs.readFile q o s env).2 :=
    readFile_ok (fun _ => Nat.zero_le _)
      (fun _ _ => ⟨fun _ _ => ⟨fun _ _ _ => trivial, fun _ _ _ _ _ => trivial⟩,
        fun _ _ => trivial⟩)
      (fun _ _ _ => trivial) (fun _ _ _ _ _ _ _ => trivial) (fun _ _ => trivial)
  exact ⟨hok.writeBuffer, hok.capacity⟩

/-- No call changes a buffer but by what it stages, and the read buffer's room stays. -/
theorem run_buffers (fs : FileSystem L) (op : Op) (env : Env) :
    (op.run fs env).2.writeBuffer = (op.staged fs.writeBuffer).2 ∧
      (op.run fs env).2.readBuffer.capacity = fs.readBuffer.capacity := by
  have fetched : ∀ {done : FileSystem L}, Fetched [] 0 (fun _ => True) (fun _ => True) fs done →
      done.writeBuffer = fs.writeBuffer ∧
        done.readBuffer.capacity = fs.readBuffer.capacity := fun h =>
    ⟨h.writeBuffer, by rw [h.readBuffer]⟩
  have hclock : ∀ i, 0 ≤ (env i).now := fun _ => Nat.zero_le _
  cases op with
  | read p o s => exact read_frame fs p o s env
  | write p off d =>
    obtain ⟨hrb, hwb⟩ := uploadAll_frame (fs.writeBuffer.stageWrite p off d).uploads
      { fs with writeBuffer := (fs.writeBuffer.stageWrite p off d).buffer } env
    exact ⟨hwb, congrArg ClientReadBuffer.ReadBuffer.capacity hrb⟩
  | flush =>
    obtain ⟨hrb, hwb⟩ := uploadAll_frame fs.writeBuffer.stageFlush.1.toList
      { fs with writeBuffer := fs.writeBuffer.stageFlush.2 } env
    exact ⟨hwb, congrArg ClientReadBuffer.ReadBuffer.capacity hrb⟩
  | getAttributes p =>
    exact fetched (fetched_getAttributes aboutPages_true hclock (fun _ _ => trivial) p)
  | readSymlink p => exact fetched (fetched_readSymlink aboutPages_true hclock p)
  | readdir p =>
    exact fetched (fetched_readdir aboutPages_true hclock (fun _ _ => trivial)
      (fun _ _ _ => trivial) p)
  | invalidate p => exact ⟨rfl, rfl⟩
  | createFile p off d =>
    simp only [Op.run, outcome, FileSystem.createFile]
    split
    · exact ⟨rfl, rfl⟩
    · exact ⟨created_frame.2, by rw [created_frame.1]⟩
  | mkdir p =>
    simp only [Op.run, outcome, FileSystem.mkdir]
    split
    · exact ⟨rfl, rfl⟩
    · exact ⟨created_frame.2, by rw [created_frame.1]⟩
  | createSymlink p target =>
    simp only [Op.run, outcome, FileSystem.createSymlink]
    split
    · exact ⟨rfl, rfl⟩
    · exact ⟨created_frame.2, by rw [created_frame.1]⟩
  | setAttributes p new =>
    simp only [Op.run, outcome, FileSystem.setAttributes]
    split <;> exact ⟨rfl, rfl⟩
  | rename a b flags =>
    simp only [Op.run, FileSystem.rename]
    split <;> exact ⟨rfl, rfl⟩
  | remove p =>
    simp only [Op.run, FileSystem.remove]
    split <;> exact ⟨rfl, rfl⟩

theorem staged_capacity (b : WriteBuffer) (op : Op) :
    (op.staged b).2.capacity = b.capacity := by
  cases op with
  | write p off d => simp [Op.staged, WriteBuffer.stageWrite]
  | flush => exact WriteBuffer.stageFlush_capacity b
  | _ => rfl

theorem runOps_capacity (ops : List (Op × Env)) : ∀ fs : FileSystem L,
    (runOps fs ops).readBuffer.capacity = fs.readBuffer.capacity ∧
      (runOps fs ops).writeBuffer.capacity = fs.writeBuffer.capacity := by
  induction ops with
  | nil => exact fun _ => ⟨rfl, rfl⟩
  | cons head ops ih =>
    intro fs
    obtain ⟨hwb, hrb⟩ := run_buffers fs head.1 head.2
    obtain ⟨hr, hw⟩ := ih (head.1.run fs head.2).2
    exact ⟨hr.trans hrb, hw.trans (by rw [hwb, staged_capacity])⟩

end Buffers

end ClientCalls
