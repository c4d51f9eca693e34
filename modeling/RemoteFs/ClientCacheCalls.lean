import RemoteFs.ClientCalls

/-! # What the calls of the file system ask of the cache

Whatever a call does to the cache, it does by calls of the cache itself, at the times of its
steps. What holds along any calls of the cache then holds along any calls of the client. -/
namespace ClientCacheCalls

open ClientAttributes
open ClientCache
open ClientCalls
open ClientFileSystem
open ClientPageCache
open ClientWriteBuffer
open OsPaths
open RemoteTree

inductive CacheCall (L : PageLimits) where
  | get (p : Path)
  | put (p : Path) (item : CacheItem L) (invalidateAttributes : Bool)
  | putNew (p : Path) (item : CacheItem L)
  | remove (p : Path)
  | invalidate (p : Path)

variable {L : PageLimits}

def CacheCall.next (c : Cache L) (m : Moment) : CacheCall L → Cache L
  | get p => (c.get p m).2
  | put p item inv => c.put p item inv m
  | putNew p item => c.putNew p item m
  | remove p => (c.remove p).2
  | invalidate p => c.invalidate p

def nextCalls : Cache L → List (CacheCall L × Moment) → Cache L
  | c, [] => c
  | c, (call, m) :: calls => nextCalls (call.next c m) calls

/-- From the one state to the other the cache goes by calls up to the time. -/
def Driven (latest : ℕ) (fs done : FileSystem L) : Prop :=
  ∃ calls : List (CacheCall L × Moment), (∀ call ∈ calls, call.2.now ≤ latest) ∧
    done.cache = fs.cache.map fun c => nextCalls c calls

variable {fs done fs₁ fs₂ : FileSystem L} {p q : Path} {m : Moment} {env : Env} {latest : ℕ}

theorem nextCalls_append (calls rest : List (CacheCall L × Moment)) : ∀ c : Cache L,
    nextCalls c (calls ++ rest) = nextCalls (nextCalls c calls) rest := by
  induction calls with
  | nil => exact fun _ => rfl
  | cons call calls ih => exact fun c => ih _

namespace Driven

theorem of_cache (h : done.cache = fs.cache) : Driven latest fs done := by
  refine ⟨[], by simp, ?_⟩
  rw [h]
  cases fs.cache <;> rfl

theorem refl (fs : FileSystem L) : Driven latest fs fs := of_cache rfl

theorem served {r : Remote} (h : Driven latest { fs with remote := r } done) :
    Driven latest fs done := h

theorem trans (h : Driven latest fs fs₁) (h' : Driven latest fs₁ fs₂) : Driven latest fs fs₂ := by
  obtain ⟨calls, hcalls, hcache⟩ := h
  obtain ⟨rest, hrest, hcache'⟩ := h'
  refine ⟨calls ++ rest, fun call hc => ?_, ?_⟩
  · rcases List.mem_append.mp hc with hc | hc
    · exact hcalls call hc
    · exact hrest call hc
  · rw [hcache', hcache, Option.map_map]
    exact congrArg (Option.map · fs.cache) (funext fun c => (nextCalls_append calls rest c).symm)

theorem call (hm : m.now ≤ latest) (k : CacheCall L)
    (h : done.cache = fs.cache.map fun c => k.next c m) : Driven latest fs done := by
  refine ⟨[(k, m)], ?_, h⟩
  simp [hm]

theorem onCache (hm : m.now ≤ latest) (k : CacheCall L) :
    Driven latest fs (fs.onCache fun c => k.next c m) := call hm k rfl

theorem cacheGet (hm : m.now ≤ latest) (p : Path) : Driven latest fs (fs.cacheGet p m).2 := by
  refine call hm (.get p) ?_
  unfold FileSystem.cacheGet
  cases hc : fs.cache with
  | none => exact hc
  | some c => rfl

theorem cacheWriteFile (hm : m.now ≤ latest) (p : Path) (offset : ℕ) (data : List UInt8)
    (inv : Bool) :
    Driven latest fs (fs.onCache fun c => cacheWriteFile c p offset data inv m) := by
  unfold ClientCache.cacheWriteFile
  cases p.fileName with
  | none => exact of_cache (by simp)
  | some name => exact onCache hm (.put p _ inv)

theorem cachePutAttr (hm : m.now ≤ latest) (p : Path) (a : Attributes) :
    Driven latest fs (fs.onCache fun c => cachePutAttr c p a m) := by
  unfold ClientCache.cachePutAttr
  cases p.fileName with
  | none => exact of_cache (by simp)
  | some name => exact onCache hm (.put p _ false)

theorem putNamed (hm : m.now ≤ latest) (p : Path) (item : OsString → CacheItem L) :
    Driven latest fs (fs.putNamed p item m) := by
  unfold FileSystem.putNamed
  cases p.fileName with
  | none => exact refl fs
  | some name => exact onCache hm (.putNew p (item name))

theorem getAttributes (ht : ∀ i, (env i).now ≤ latest) (p : Path) :
    Driven latest fs (fs.getAttributes p env).2 := by
  have hget : Driven latest fs (fs.cacheGet p (env 0).toMoment).2 := cacheGet (ht 0) p
  unfold FileSystem.getAttributes
  dsimp only
  split
  · exact hget
  · split
    · exact hget
    · exact hget.trans (cachePutAttr (ht 2) p _)

theorem readRemote (ht : ∀ i, (env i).now ≤ latest) (p : Path) (offset size : ℕ) :
    Driven latest fs (fs.readRemote p offset size env).2 := by
  unfold FileSystem.readRemote
  split
  · exact refl fs
  · rename_i data _
    have hfilled : Driven latest fs
        { fs with readBuffer := fs.readBuffer.fill p offset data (env 1).now } := of_cache rfl
    exact hfilled.trans (cacheWriteFile (ht 2) p offset data false)

theorem readCached (ht : ∀ i, (env i).now ≤ latest) (p : Path) (offset size : ℕ) :
    Driven latest fs (fs.readCached p offset size env).2 := by
  have hget : Driven latest fs (fs.cacheGet p (env 0).toMoment).2 := cacheGet (ht 0) p
  unfold FileSystem.readCached
  dsimp only
  split
  · exact hget
  · refine hget.trans ?_
    unfold FileSystem.readBuffered
    dsimp only
    split
    · exact cacheWriteFile (ht 2) p offset _ false
    · exact readRemote (fun i => ht (1 + (1 + i))) p offset size

theorem readFile (ht : ∀ i, (env i).now ≤ latest) (p : Path) (offset size : ℕ) :
    Driven latest fs (fs.readFile p offset size env).2 := by
  have hattr : Driven latest fs (fs.getAttributes p env).2 := getAttributes ht p
  have hcached := hattr.trans (readCached (fun i => ht (3 + i)) p offset size)
  unfold FileSystem.readFile
  dsimp only
  split
  · split
    · exact hattr
    · exact hcached
  · exact hcached

theorem upload (ht : ∀ i, (env i).now ≤ latest) (w : Chunk) :
    Driven latest fs (fs.upload w env).2 := by
  unfold FileSystem.upload
  split
  · exact refl fs
  · rename_i r _
    have hserved : Driven latest fs { fs with remote := r } := of_cache rfl
    exact hserved.trans (cacheWriteFile (ht 1) w.key w.offset w.data true)

theorem uploadAll (chunks : List Chunk) : ∀ (fs : FileSystem L) (env : Env),
    (∀ i, (env i).now ≤ latest) → Driven latest fs (fs.uploadAll chunks env).2 := by
  induction chunks with
  | nil => exact fun fs _ _ => refl fs
  | cons w chunks ih =>
    intro fs env ht
    have hup : Driven latest fs (fs.upload w env).2 := upload ht w
    rw [FileSystem.uploadAll]
    rcases hsent : fs.upload w env with ⟨e | _, left⟩
    · rwa [hsent] at hup
    · rw [hsent] at hup
      exact hup.trans (ih left _ fun i => ht (2 + i))

theorem readSymlink (ht : ∀ i, (env i).now ≤ latest) (p : Path) :
    Driven latest fs (fs.readSymlink p env).2 := by
  have hget : Driven latest fs (fs.cacheGet p (env 0).toMoment).2 := cacheGet (ht 0) p
  unfold FileSystem.readSymlink
  dsimp only
  split
  · exact hget
  · split
    · exact hget
    · refine hget.trans ?_
      dsimp only
      split
      · exact refl _
      · exact onCache (ht 2) (.put p _ false)

theorem cachedChildren (p : Path) (children : List OsString) : ∀ (fs : FileSystem L) (env : Env),
    (∀ i, (env i).now ≤ latest) → Driven latest fs (fs.cachedChildren p children env).2 := by
  induction children with
  | nil => exact fun fs _ _ => refl fs
  | cons child children ih =>
    intro fs env ht
    have hget : Driven latest fs (fs.cacheGet (p.child child) (env 0).toMoment).2 :=
      cacheGet (ht 0) _
    rw [FileSystem.cachedChildren]
    dsimp only
    split
    · exact hget
    · exact hget.trans (ih _ _ fun i => ht (1 + i))

theorem withDots (ht : ∀ i, (env i).now ≤ latest) (p : Path) (items : List Item) :
    Driven latest fs (fs.withDots p items env).2 := by
  have hself : Driven latest fs (fs.getAttributes p env).2 := getAttributes ht p
  have hparent := hself.trans (getAttributes (fun i => ht (3 + i)) (getParentPath p))
  unfold FileSystem.withDots
  dsimp only
  split
  · exact hself
  · split
    · exact hparent
    · exact hparent

theorem putListed (p : Path) (items : List Item) : ∀ (fs : FileSystem L) (env : Env),
    (∀ i, (env i).now ≤ latest) →
      Driven latest fs (fs.onCache fun c => FileSystem.putListed p c items env) := by
  induction items with
  | nil => exact fun fs _ _ => of_cache (by simp [FileSystem.putListed])
  | cons item items ih =>
    intro fs env ht
    have hput : Driven latest fs (fs.onCache fun c =>
        c.put (p.child item.name) (FileSystem.ofListed item) false (env 0).toMoment) :=
      onCache (ht 0) (.put (p.child item.name) (FileSystem.ofListed item) false)
    have hrest := hput.trans (ih _ (env.drop 1) fun i => ht (1 + i))
    rwa [onCache_onCache] at hrest

theorem readdirRemote (ht : ∀ i, (env i).now ≤ latest) (p : Path) :
    Driven latest fs (fs.readdirRemote p env).2 := by
  unfold FileSystem.readdirRemote
  split
  · exact refl fs
  · rename_i items _
    have hself : Driven latest fs (fs.getAttributes p (env.drop 1)).2 :=
      getAttributes (fun i => ht (1 + i)) p
    dsimp only
    split
    · exact hself
    · rename_i a _
      have hdir := hself.trans (onCache (ht 4) (.put p (.directory ⟨p.fileName.getD (.text ""),
        some a, some (items.map Item.name)⟩) false))
      have hlisted := hdir.trans (putListed p items _ (env.drop 5) fun i => ht (5 + i))
      rw [onCache_onCache] at hlisted
      exact hlisted.trans (withDots (fun i => ht _) p items)

theorem readdir (ht : ∀ i, (env i).now ≤ latest) (p : Path) :
    Driven latest fs (fs.readdir p env).2 := by
  have hget : Driven latest fs (fs.cacheGet p (env 0).toMoment).2 := cacheGet (ht 0) p
  unfold FileSystem.readdir
  dsimp only
  split
  · rename_i children _
    have hchildren := hget.trans (cachedChildren p children _ (env.drop 1) fun i => ht (1 + i))
    split
    · exact hchildren.trans (withDots (fun i => ht _) p _)
    · exact hchildren.trans (readdirRemote (fun i => ht _) p)
  · exact hget.trans (readdirRemote (fun i => ht _) p)

theorem renameCached (hm : m.now ≤ latest) (a b : Path) (flags : RenameFlags) :
    Driven latest fs (fs.onCache fun c => FileSystem.renameCached c a b flags m) := by
  have hremove : Driven latest fs (fs.onCache fun c => (c.remove a).2) := onCache hm (.remove a)
  obtain ⟨remote, readBuffer, writeBuffer, cache⟩ := fs
  cases cache with
  | none => exact of_cache rfl
  | some c =>
    unfold FileSystem.renameCached
    by_cases hflag : flags.exchange = true
    · have hboth := hremove.trans (onCache hm (.remove b))
      simpa [hflag, onCache_onCache, CacheCall.next] using hboth
    · simp only [if_neg hflag]
      cases hname : b.fileName with
      | none => exact hremove
      | some name =>
        cases hitem : (c.remove a).1 with
        | none => simpa [Driven, FileSystem.onCache, hitem] using hremove
        | some item =>
          have hput := hremove.trans (onCache hm (.putNew b (item.rename name)))
          simpa [Driven, FileSystem.onCache, hitem, CacheCall.next] using hput

/-- What a call of the file system does to the cache is done by calls of the cache. -/
theorem run (ht : ∀ i, (env i).now ≤ latest) (op : Op) : Driven latest fs (op.run fs env).2 := by
  cases op with
  | read p o s => exact readFile ht p o s
  | write p off d =>
    have hstaged : Driven latest fs
        { fs with writeBuffer := (fs.writeBuffer.stageWrite p off d).buffer } := of_cache rfl
    exact hstaged.trans (uploadAll _ _ env ht)
  | flush =>
    have hstaged : Driven latest fs
        { fs with writeBuffer := fs.writeBuffer.stageFlush.2 } := of_cache rfl
    exact hstaged.trans (uploadAll _ _ env ht)
  | getAttributes p => exact getAttributes ht p
  | setAttributes p new =>
    simp only [Op.run, outcome, FileSystem.setAttributes]
    split
    · exact refl fs
    · exact served (cachePutAttr (ht 1) p _)
  | createFile p off d =>
    simp only [Op.run, outcome, FileSystem.createFile]
    split
    · exact refl fs
    · exact served (putNamed (ht 1) p _)
  | mkdir p =>
    simp only [Op.run, outcome, FileSystem.mkdir]
    split
    · exact refl fs
    · exact served (putNamed (ht 1) p _)
  | createSymlink p target =>
    simp only [Op.run, outcome, FileSystem.createSymlink]
    split
    · exact refl fs
    · exact served (putNamed (ht 1) p _)
  | readSymlink p => exact readSymlink ht p
  | readdir p => exact readdir ht p
  | rename a b flags =>
    simp only [Op.run, FileSystem.rename]
    split
    · exact refl fs
    · exact served (renameCached (ht 1) a b flags)
  | remove p =>
    simp only [Op.run, FileSystem.remove]
    split
    · exact refl fs
    · exact served (onCache (ht 1) (.remove p))
  | invalidate p => exact onCache (ht 0) (.invalidate p)

end Driven

end ClientCacheCalls
