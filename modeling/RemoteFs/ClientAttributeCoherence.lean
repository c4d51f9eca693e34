import RemoteFs.ClientCalls

/-! # The attributes the cache holds for regular files

One client alone, and no renames. A call that changes an object of the server puts the
server's attributes in the cache before it returns, or takes them out. -/
namespace ClientAttributeCoherence

open ClientAttributes
open ClientCache
open ClientCalls
open ClientFileSystem
open ClientMemory
open ClientPageCache
open ClientWriteBuffer
open OsPaths
open RemoteTree
open WriteLog

variable {L : PageLimits}

inductive FileOp where
  | createFile (path : Path) (offset : ℕ) (data : List UInt8)
  | write (path : Path) (offset : ℕ) (data : List UInt8)
  | flush
  | read (path : Path) (offset size : ℕ)
  | getAttributes (path : Path)
  | setAttributes (path : Path) (new : SetAttr)
  | readdir (path : Path)
  | mkdir (path : Path)
  | remove (path : Path)
  | invalidate (path : Path)
  deriving DecidableEq, Repr

def FileOp.toOp : FileOp → Op
  | createFile p off d => .createFile p off d
  | write p off d => .write p off d
  | flush => .flush
  | read p o s => .read p o s
  | getAttributes p => .getAttributes p
  | setAttributes p new => .setAttributes p new
  | readdir p => .readdir p
  | mkdir p => .mkdir p
  | remove p => .remove p
  | invalidate p => .invalidate p

def runFileOps (fs : FileSystem L) (ops : List (FileOp × Env)) : FileSystem L :=
  runOps fs (ops.map fun op => (op.1.toOp, op.2))

structure SameAttributes (a b : Attributes) : Prop where
  size : a.size = b.size
  kind : a.kind = b.kind
  perm : a.perm = b.perm
  uid : a.uid = b.uid
  gid : a.gid = b.gid
  mtime : a.mtime = b.mtime

theorem SameAttributes.refl (a : Attributes) : SameAttributes a a := ⟨rfl, rfl, rfl, rfl, rfl, rfl⟩

def RegularFileAt (r : Remote) (p : Path) : Prop :=
  p.fileName ≠ none ∧ ∃ bytes, r.nodes p = some (.file bytes)

def Current (r : Remote) (p : Path) (a : Attributes) : Prop :=
  RegularFileAt r p → ∃ b, r.getAttributes p = some b ∧ SameAttributes a b

def AnyBytes (_ : ℕ) (_ : UInt8) : Prop := True

/-- The invariant. At time zero nothing has expired, so it is about all the cache holds. -/
def Coherent (fs : FileSystem L) : Prop :=
  ∀ p, Entries fs p 0 (Good (BytesAre AnyBytes) (Current fs.remote p))

section Items

variable {r r' : Remote} {p : Path} {a : Attributes} {it : CacheItem L}

theorem current_of_server (h : r.getAttributes p = some a) : Current r p a :=
  fun _ => ⟨a, h, SameAttributes.refl a⟩

theorem Current.agrees (h : Current r p a) (hr : r.AgreesAt r' p) : Current r' p a := by
  rintro ⟨hname, bytes, hp⟩
  rw [hr.getAttributes]
  exact h ⟨hname, bytes, hr.nodes.symm.trans hp⟩

theorem good_of_attributes (h : ∀ a, it.getAttributes = some a → Current r p a) :
    Good (BytesAre AnyBytes) (Current r p) it :=
  ⟨fun _ _ _ _ _ => trivial, h⟩

theorem good_of_not_regular (h : ¬RegularFileAt r p) :
    Good (BytesAre AnyBytes) (Current r p) it :=
  good_of_attributes fun _ _ hp => (h hp).elim

theorem not_regular_of_nodes {c : Option Content} (h : r.nodes p = c)
    (hc : ∀ bytes, c ≠ some (.file bytes)) : ¬RegularFileAt r p := by
  rintro ⟨-, bytes, hp⟩
  exact hc bytes (h.symm.trans hp)

end Items

section Calls

variable {fs done : FileSystem L} {p q : Path} {env : Env} {m : Moment}

theorem Coherent.fetched (h : Coherent fs)
    (hf : ∀ p, Fetched p 0 (BytesAre AnyBytes) (Current fs.remote p) fs done) :
    Coherent done := by
  intro p
  rw [(hf p).remote]
  exact (hf p).entries (h p)

theorem Coherent.changed (h : Coherent fs) (q : Path)
    (hr : ∀ p, q ≠ p → fs.remote.AgreesAt done.remote p)
    (hne : ∀ p Q, q ≠ p → Entries fs p 0 Q → Entries done p 0 Q)
    (hq : RegularFileAt done.remote q →
      Entries done q 0 (Good (BytesAre AnyBytes) (Current done.remote q))) :
    Coherent done := by
  intro p
  by_cases hpq : q = p
  · subst hpq
    by_cases hreg : RegularFileAt done.remote q
    · exact hq hreg
    · exact fun it _ => good_of_not_regular hreg
  · refine hne p _ hpq fun it he => ⟨fun _ _ _ _ _ => trivial, fun a ha => ?_⟩
    exact ((h p it he).attributes a ha).agrees (hr p hpq)

theorem Coherent.putNamed {r : Remote} {a : Attributes} {item : OsString → CacheItem L}
    (h : Coherent fs) (hr : ∀ p, q ≠ p → fs.remote.AgreesAt r p)
    (ha : r.getAttributes q = some a) (hitem : ∀ name, (item name).getAttributes = some a) :
    Coherent ({ fs with remote := r }.putNamed q item m) := by
  obtain ⟨hremote, -⟩ := putNamed_frame { fs with remote := r } q item m
  refine h.changed q (fun p hp => by rw [hremote]; exact hr p hp) ?_ ?_
  · intro p Q hp he
    exact Entries.putNamed_ne he hp
  · rw [hremote]
    rintro ⟨hname, -⟩
    obtain ⟨name, hname⟩ := Option.ne_none_iff_exists'.mp hname
    refine putNamed_self hname (good_of_attributes fun b hb => ?_)
    rw [hitem name] at hb
    injection hb with hb
    exact hb ▸ current_of_server ha

theorem Coherent.createFile {off : ℕ} {d : List UInt8} (h : Coherent fs) :
    Coherent (fs.createFile q off d env).2 := by
  unfold FileSystem.createFile
  split
  · exact h
  · rename_i a r hsent
    obtain ⟨hw, ha⟩ := FileSystem.withAttributes_some (FileSystem.sent_ok.mp hsent).2.2
    exact h.putNamed (fun p hp => Remote.writeFile_agrees hp hw) ha fun _ => rfl

theorem Coherent.mkdir (h : Coherent fs) : Coherent (fs.mkdir q env).2 := by
  unfold FileSystem.mkdir
  split
  · exact h
  · rename_i a r hsent
    obtain ⟨hm, ha⟩ := FileSystem.withAttributes_some (FileSystem.sent_ok.mp hsent).2.2
    exact h.putNamed (fun p hp => Remote.mkdir_agrees hp hm) ha fun _ => rfl

/-- Where the old item is kept, its attributes are not. -/
theorem Coherent.setAttributes {new : SetAttr} (h : Coherent fs) :
    Coherent (fs.setAttributes q new env).2 := by
  cases hres : (fs.setAttributes q new env).1 with
  | error e =>
    rw [FileSystem.setAttributes_error hres]
    exact h
  | ok a =>
    obtain ⟨r, hset, ha, hrun⟩ := FileSystem.setAttributes_ok hres
    rw [hrun]
    refine h.changed q (fun p hp => Remote.setAttributes_agrees hp hset) ?_ ?_
    · intro p Q hp he
      have hbefore : Entries { fs with remote := r } p 0 Q := he
      exact hbefore.cachePutAttr_ne hp
    · rintro ⟨hname, -⟩ it he
      obtain ⟨name, hname⟩ := Option.ne_none_iff_exists'.mp hname
      refine good_of_attributes fun b hb => ?_
      obtain ⟨c, -, hfresh⟩ := entry_onCache he
      obtain ⟨-, hattr⟩ := bare_ofAttributes (L := L) name a
      have hb : (CacheItem.ofAttributes name a : CacheItem L).getAttributes = some b := by
        rw [cachePutAttr, hname] at hfresh
        rcases Cache.put_self hfresh with rfl | ⟨old, -, rfl⟩
        · exact hb
        · refine (attributes_update hb).resolve_right fun hnone => ?_
          rw [hattr] at hnone
          cases hnone.1
      rw [hattr] at hb
      injection hb with hb
      exact hb ▸ current_of_server ha

theorem Coherent.remove (h : Coherent fs) : Coherent (fs.remove q env).2 := by
  cases hres : (fs.remove q env).1 with
  | error e =>
    rw [FileSystem.remove_error hres]
    exact h
  | ok u =>
    obtain ⟨r, hrem, hrun⟩ := FileSystem.remove_ok hres
    rw [hrun]
    refine h.changed q (fun p hp => Remote.remove_agrees hp hrem) ?_ ?_
    · intro p Q _ he
      have hbefore : Entries { fs with remote := r } p 0 Q := he
      exact hbefore.onCache_sub fun c => Cache.remove_sub c q
    · have hgone : r.nodes q = none := by
        rw [Remote.remove_nodes hrem, Nodes.remove, Function.update_self]
      exact fun hreg =>
        (not_regular_of_nodes hgone (fun _ => (Option.some_ne_none _).symm) hreg).elim

theorem Coherent.upload {w : Chunk} (h : Coherent fs) : Coherent (fs.upload w env).2 := by
  cases hres : (fs.upload w env).1 with
  | error e =>
    rw [FileSystem.upload_error hres]
    exact h
  | ok u =>
    obtain ⟨r, hw, hrun⟩ := FileSystem.upload_ok hres
    rw [hrun]
    refine h.changed w.key (fun p hp => Remote.writeFile_agrees hp hw) ?_ ?_
    · intro p Q hp he
      have hbefore : Entries { fs with remote := r } p 0 Q := he
      exact hbefore.cacheWriteFile_ne hp
    · rintro ⟨hname, -⟩
      refine Entries.cacheWriteFile (Nat.zero_le _) (fun _ _ _ _ _ => Or.inl trivial)
        (fun _ _ _ _ => trivial) (fun _ _ _ _ => trivial) ?_
      rintro (hinv | hnone)
      · cases hinv
      · exact (hname hnone).elim

theorem Coherent.uploadAll (ws : List Chunk) (fs : FileSystem L) (env : Env) (h : Coherent fs) :
    Coherent (fs.uploadAll ws env).2 :=
  uploadAll_keeps (fun _ _ _ h => h.upload) ws fs env h

theorem Coherent.read {o s : ℕ} (h : Coherent fs) : Coherent (fs.readFile q o s env).2 := by
  have hclock : ∀ i, 0 ≤ (env i).now := fun _ => Nat.zero_le _
  intro p
  by_cases hpq : q = p
  · subst hpq
    have hok : ReadOk fs q 0 AnyBytes (Current fs.remote q) (fs.readFile q o s env).2 :=
      readFile_ok hclock
        (fun it he => ⟨fun _ _ => ⟨fun _ _ _ => trivial, fun _ _ _ _ _ => trivial⟩,
          (h q it he).attributes⟩)
        (fun _ _ _ => trivial) (fun _ _ _ _ _ _ _ => trivial) fun _ => current_of_server
    rw [hok.remote]
    exact hok.entries
  · have hread : ReadElsewhere p 0 (BytesAre AnyBytes) (Current fs.remote p) fs
        (fs.readFile q o s env).2 :=
      readFile_elsewhere bytesAre_aboutPages hclock (fun _ => current_of_server) hpq
    rw [hread.remote]
    exact hread.entries (h p)

theorem Coherent.withBuffer {b : WriteBuffer} (h : Coherent fs) :
    Coherent { fs with writeBuffer := b } := h

theorem run_coherent (h : Coherent fs) (op : FileOp) (env : Env) :
    Coherent (op.toOp.run fs env).2 := by
  have hclock : ∀ i, 0 ≤ (env i).now := fun _ => Nat.zero_le _
  cases op with
  | createFile q off d => exact h.createFile
  | write q off d => exact Coherent.uploadAll _ _ env h.withBuffer
  | flush => exact Coherent.uploadAll _ _ env h.withBuffer
  | read q o s => exact h.read
  | getAttributes q =>
    exact h.fetched fun p => fetched_getAttributes bytesAre_aboutPages hclock
      (fun _ => current_of_server) q
  | setAttributes q new => exact h.setAttributes
  | readdir q =>
    refine h.fetched fun p => fetched_readdir bytesAre_aboutPages hclock
      (fun _ => current_of_server) ?_ q
    exact fun len hdir a hreg =>
      (not_regular_of_nodes hdir nofun hreg).elim
  | mkdir q => exact h.mkdir
  | remove q => exact h.remove
  | invalidate q =>
    exact h.fetched fun p => fetched_onCache fun he =>
      he.onCache_sub fun c => Cache.erase_sub c q

end Calls

theorem runFileOps_coherent (ops : List (FileOp × Env)) :
    ∀ fs : FileSystem L, Coherent fs → Coherent (runFileOps fs ops) := by
  induction ops with
  | nil => exact fun _ h => h
  | cons head ops ih => exact fun fs h => ih _ (run_coherent h head.1 head.2)

theorem entry_of_lookup {fs : FileSystem L} {c : Cache L} {p : Path} {e : CacheEntry L}
    (hc : fs.cache = some c) (he : AList.lookup p c.entries = some e) :
    entry fs p 0 = some e.item := by
  refine Option.bind_eq_some_iff.mpr ⟨c, hc, ?_⟩
  rw [Cache.freshAt, he]
  simp [Cache.expired]

/-- In every reachable state, fresh or expired, the cached attributes of a regular file are
those the server holds. -/
theorem cached_attributes_current (remote : Remote) (capacity now : ℕ)
    (cacheCapacity ttl : ℕ) (useTtl : Bool) (policy : CachePolicy) (ops : List (FileOp × Env))
    (fs : FileSystem L)
    (hfs : fs = runFileOps (.new remote capacity now
      (some ⟨∅, cacheCapacity, ttl, useTtl, policy⟩)) ops)
    (c : Cache L) (hc : fs.cache = some c) (p : Path) (e : CacheEntry L)
    (he : AList.lookup p c.entries = some e) (a : Attributes)
    (ha : e.item.getAttributes = some a) (hp : RegularFileAt fs.remote p) :
    ∃ b, fs.remote.getAttributes p = some b ∧ SameAttributes a b := by
  have hstart : Coherent (.new remote capacity now
      (some ⟨∅, cacheCapacity, ttl, useTtl, policy⟩) : FileSystem L) := by
    intro q it hit
    cases hit
  have hend := runFileOps_coherent ops _ hstart
  rw [← hfs] at hend
  exact (hend p e.item (entry_of_lookup hc he)).attributes a ha hp

theorem cached_attributes_current_after_flush :
    let L : PageLimits := ⟨4, 4, by decide⟩
    let p : Path := [.rootDir, .normal (.text "f")]
    let env := Env.steady 0 none
    let fs : FileSystem L := runFileOps (.new (.empty 7 8) 4 0 (some ⟨∅, 4, 10, true, .lru⟩))
      [(.createFile p 0 [], env), (.write p 0 [9, 8], env), (.flush, env), (.getAttributes p, env)]
    ∃ c e a b, fs.cache = some c ∧ AList.lookup p c.entries = some e ∧
      e.item.getAttributes = some a ∧ fs.remote.getAttributes p = some b ∧
        SameAttributes a b ∧ b.size = 2 := by
  intro L p env fs
  have hcached : (fs.cache.bind fun c => (AList.lookup p c.entries).bind fun e =>
    e.item.getAttributes).isSome = true := by decide
  have hsize : fs.remote.getAttributes p = some
    ⟨2, 0, ⟨0, 0⟩, ⟨0, 0⟩, ⟨0, 0⟩, .regularFile, 0o100644, 1, 7, 8, 0, 0⟩ := by decide
  obtain ⟨a, ha⟩ := Option.isSome_iff_exists.mp hcached
  obtain ⟨c, hc, ha⟩ := Option.bind_eq_some_iff.mp ha
  obtain ⟨e, he, ha⟩ := Option.bind_eq_some_iff.mp ha
  obtain ⟨b, hb, hsame⟩ := cached_attributes_current (.empty 7 8) 4 0 4 10 true .lru
    [(.createFile p 0 [], env), (.write p 0 [9, 8], env), (.flush, env), (.getAttributes p, env)]
    fs rfl c hc p e he a ha ⟨by decide, [9, 8], by decide⟩
  refine ⟨c, e, a, b, hc, he, ha, hb, hsame, ?_⟩
  rw [← Option.some.inj (hsize.symm.trans hb)]

end ClientAttributeCoherence
