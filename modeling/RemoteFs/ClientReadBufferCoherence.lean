import RemoteFs.ClientReadYourWrites
import RemoteFs.ClientTurns

/-! # The read buffer of a client without a cache

The buffer is filled with the server's bytes and keeps them for its time, whatever the calls
in between do to the file. A run is coherent as long as no call changes a byte that the
buffer would still serve, be it answered with success or with an error. -/
namespace ClientReadBufferCoherence

open ClientAttributes
open ClientCache
open ClientCalls
open ClientFileSystem
open ClientMemory
open ClientPageCache
open ClientReadBuffer
open ClientReadYourWrites
open ClientTurns
open ClientWriteBuffer
open FileBytes
open OsPaths
open RemoteTree
open WriteLog

variable {L : PageLimits}

/-- What a rename brings to the path has the byte, or it brings nothing and takes nothing. -/
def RenameSpares (r : Remote) (a b : Path) (flags : RenameFlags) (p : Path) (x : ℕ)
    (v : UInt8) : Prop :=
  a = b ∨ (b <+: p → r.Holds (a ++ p.drop b.length) x v) ∧
    (¬b <+: p → a <+: p → flags.exchange = true ∧ r.Holds (b ++ p.drop a.length) x v)

def SparesByte (fs : FileSystem L) (p : Path) (x : ℕ) (v : UInt8) : Op → Prop
  | .createFile q off d => ((Write.mk q off d).get p x).getD v = v
  | .setAttributes q new => q = p → ∀ m, new.size = some m → x < m
  | .rename a b flags => RenameSpares fs.remote a b flags p x v
  | .remove q => q ≠ p
  | op => ((positions Path UInt8).applyAll (fun _ _ => none)
      (op.staged fs.writeBuffer).1 p x).getD v = v

/-- The call changes no byte that the read buffer serves when it starts, and where it is to change
something and fails, the server has these bytes behind it. -/
structure Spares (fs : FileSystem L) (turn : Turn) : Prop where
  granted : (turn.op.run fs turn.env).1 = .ok () → ∀ p x v,
    fs.readBuffer.byteAt (turn.env 0).now p x = some v → SparesByte fs p x v turn.op
  failed : turn.fails fs → changes turn.op = true → ∀ p x v,
    fs.readBuffer.byteAt (turn.env 0).now p x = some v → turn.left.Holds p x v

/-- The invariant: no cache, and what the read buffer still serves is what the server holds. -/
structure Coherent (fs : FileSystem L) (t : ℕ) : Prop where
  cache : fs.cache = none
  buffer : ∀ p, BufferIs fs p t (fs.remote.Holds p)

section NoCache

variable {fs : FileSystem L} {q : Path} {env : Env}

theorem onCache_none (h : fs.cache = none) (f : Cache L → Cache L) : fs.onCache f = fs := by
  cases fs
  cases h
  rfl

theorem cacheGet_none (h : fs.cache = none) (m : Moment) : fs.cacheGet q m = (none, fs) := by
  rw [FileSystem.cacheGet, h]

theorem getAttributes_none (h : fs.cache = none) : (fs.getAttributes q env).2 = fs := by
  unfold FileSystem.getAttributes
  rw [cacheGet_none h]
  dsimp only [Option.bind_none]
  split
  · rfl
  · exact onCache_none h _

theorem readSymlink_none (h : fs.cache = none) : (fs.readSymlink q env).2 = fs := by
  unfold FileSystem.readSymlink
  rw [cacheGet_none h]
  dsimp only
  split
  · rfl
  · split
    · rfl
    · exact onCache_none h _

theorem withDots_none (h : fs.cache = none) (items : List Item) :
    (fs.withDots q items env).2 = fs := by
  unfold FileSystem.withDots
  dsimp only
  rw [getAttributes_none h]
  split
  · rfl
  · split
    · exact getAttributes_none h
    · exact getAttributes_none h

theorem readdir_none (h : fs.cache = none) : (fs.readdir q env).2 = fs := by
  unfold FileSystem.readdir
  rw [cacheGet_none h]
  dsimp only
  unfold FileSystem.readdirRemote
  split
  · rfl
  · dsimp only
    rw [getAttributes_none h]
    split
    · rfl
    · rw [onCache_none h]
      exact withDots_none h _

theorem putNamed_none (h : fs.cache = none) (item : OsString → CacheItem L) (m : Moment) :
    fs.putNamed q item m = fs := by
  unfold FileSystem.putNamed
  split
  · rfl
  · exact onCache_none h _

theorem entries_none {p : Path} {t : ℕ} {Q : CacheItem L → Prop} (h : fs.cache = none) :
    Entries fs p t Q := by
  intro it he
  rw [entry, h] at he
  cases he

theorem uploadAll_none {ws : List Chunk} {b : WriteBuffer} (h : fs.cache = none) :
    ({ fs with writeBuffer := b }.uploadAll ws env).2.cache = none := by
  refine uploadAll_keeps (I := fun fs => fs.cache = none) (fun fs w env hc => ?_) ws _ env h
  unfold FileSystem.upload
  split
  · exact hc
  · rw [FileSystem.onCache_cache, hc]
    rfl

/-- Without a cache a read changes the read buffer alone. -/
theorem readFile_none (h : fs.cache = none) (o s : ℕ) :
    (fs.readFile q o s env).2.cache = none := by
  unfold FileSystem.readFile
  dsimp only
  rw [getAttributes_none h]
  have hcached : (fs.readCached q o s (env.drop 3)).2.cache = none := by
    unfold FileSystem.readCached
    rw [cacheGet_none h]
    unfold FileSystem.readBuffered FileSystem.readRemote
    dsimp only
    split
    · exact h
    · split
      · rw [onCache_none h]
        exact h
      · split
        · exact h
        · rw [FileSystem.onCache_cache, h]
          rfl
  split
  · split
    · exact h
    · exact hcached
  · exact hcached

theorem outcome_ok {α : Type} {done : Except FsModelError α × FileSystem L}
    (h : (outcome done).1 = .ok ()) : ∃ a, done.1 = .ok a := by
  obtain ⟨e | a, fs⟩ := done
  · cases h
  · exact ⟨a, rfl⟩

theorem run_none {op : Op} (h : fs.cache = none) : (op.run fs env).2.cache = none ∧
    (changes op = true → (op.run fs env).2.readBuffer = fs.readBuffer) := by
  cases op with
  | read q o s => exact ⟨readFile_none h o s, fun hno => (Bool.false_ne_true hno).elim⟩
  | getAttributes q =>
    simp only [Op.run, outcome, getAttributes_none h]
    exact ⟨h, fun hno => (Bool.false_ne_true hno).elim⟩
  | readSymlink q =>
    simp only [Op.run, outcome, readSymlink_none h]
    exact ⟨h, fun hno => (Bool.false_ne_true hno).elim⟩
  | readdir q =>
    simp only [Op.run, outcome, readdir_none h]
    exact ⟨h, fun hno => (Bool.false_ne_true hno).elim⟩
  | invalidate q =>
    simp only [Op.run, FileSystem.cacheInvalidate, onCache_none h]
    exact ⟨h, fun hno => (Bool.false_ne_true hno).elim⟩
  | write q off d => exact ⟨uploadAll_none h, fun _ => (uploadAll_frame _ _ env).1⟩
  | flush => exact ⟨uploadAll_none h, fun _ => (uploadAll_frame _ _ env).1⟩
  | createFile q off d =>
    simp only [Op.run, outcome, FileSystem.createFile]
    split
    · exact ⟨h, fun _ => rfl⟩
    · rw [putNamed_none (by exact h)]
      exact ⟨h, fun _ => rfl⟩
  | mkdir q =>
    simp only [Op.run, outcome, FileSystem.mkdir]
    split
    · exact ⟨h, fun _ => rfl⟩
    · rw [putNamed_none (by exact h)]
      exact ⟨h, fun _ => rfl⟩
  | createSymlink q target =>
    simp only [Op.run, outcome, FileSystem.createSymlink]
    split
    · exact ⟨h, fun _ => rfl⟩
    · rw [putNamed_none (by exact h)]
      exact ⟨h, fun _ => rfl⟩
  | setAttributes q new =>
    simp only [Op.run, outcome, FileSystem.setAttributes]
    split
    · exact ⟨h, fun _ => rfl⟩
    · rw [onCache_none (by exact h)]
      exact ⟨h, fun _ => rfl⟩
  | rename a b flags =>
    simp only [Op.run, FileSystem.rename]
    split
    · exact ⟨h, fun _ => rfl⟩
    · rw [onCache_none (by exact h)]
      exact ⟨h, fun _ => rfl⟩
  | remove q =>
    simp only [Op.run, FileSystem.remove]
    split
    · exact ⟨h, fun _ => rfl⟩
    · rw [onCache_none (by exact h)]
      exact ⟨h, fun _ => rfl⟩

end NoCache

section Server

variable {r r' : Remote} {p : Path} {x : ℕ} {v : UInt8} {now : Timestamp}

theorem holds_readFile {o size : ℕ} {data : List UInt8} {i : ℕ} {b : UInt8}
    (h : r.readFile p o size = some data) (hb : data[i]? = some b) : r.Holds p (o + i) b := by
  unfold Remote.readFile at h
  split at h
  · rename_i bytes hp
    injection h with h
    subst h
    rw [getElem?_slice] at hb
    split at hb
    · exact ⟨bytes, hp, hb⟩
    · cases hb
  · cases h

/-- Afterwards the server has the chunk's byte, or the one it had. -/
theorem holds_writeFile {w : Chunk} (h : r.Holds p x v)
    (hw : r.writeFile w.key w.offset w.data now = some r') :
    r'.Holds p x ((w.get p x).getD v) := by
  cases hget : w.get p x with
  | none => exact h.writeFile hget hw
  | some b => exact Remote.writeFile_holds hget hw

theorem holds_rename {a b : Path} {flags : RenameFlags} (h : r.Holds p x v)
    (hs : RenameSpares r a b flags p x v) (hr : r.rename a b flags = some r') :
    r'.Holds p x v := by
  by_cases hb : b <+: p
  · have hsource : a = b ∨ r.Holds (a ++ p.drop b.length) x v := hs.imp_right fun h => h.1 hb
    rcases (Remote.rename_cases hr).2 with ⟨-, -, hab, -, rfl⟩ | ⟨-, -, -, rfl⟩
    · have hne : a ≠ b := fun he => hab (he ▸ List.prefix_refl a)
      obtain ⟨bytes, hn, hx⟩ := hsource.resolve_left hne
      exact ⟨bytes, (if_pos hb).trans hn, hx⟩
    · rcases hsource with rfl | ⟨bytes, hn, hx⟩
      · exact h.congr (congrFun (relocate_self r.nodes none a) p)
      · by_cases hab : a = b
        · subst hab
          exact h.congr (congrFun (relocate_self r.nodes none a) p)
        · exact ⟨bytes, (relocate_target hab hb).trans hn, hx⟩
  · by_cases ha : a <+: p
    · have hab : a ≠ b := fun he => hb (he ▸ ha)
      obtain ⟨hflag, bytes, hn, hx⟩ := (hs.resolve_left hab).2 hb ha
      rcases (Remote.rename_cases hr).2 with ⟨-, -, -, -, rfl⟩ | ⟨hflag', -⟩
      · exact ⟨bytes, ((if_neg hb).trans (if_pos ha)).trans hn, hx⟩
      · cases hflag.symm.trans hflag'
    · exact h.rename ha hb hr

/-- The last chunk that covers it decides about a byte. -/
theorem holds_uploadAll (ws : List Chunk) : ∀ (fs : FileSystem L) (env : Env)
    (s : Path → ℕ → Option UInt8), (fs.uploadAll ws env).1 = .ok () →
      fs.remote.Holds p x ((s p x).getD v) → (fs.uploadAll ws env).2.remote.Holds p x
        (((positions Path UInt8).applyAll s ws p x).getD v) := by
  induction ws with
  | nil => exact fun _ _ _ _ h => h
  | cons w ws ih =>
    intro fs env s hok h
    cases hsent : (fs.upload w env).1 with
    | error e =>
      rw [uploadAll_cons_error hsent] at hok
      cases hok
    | ok u =>
      obtain ⟨r, hw, hrun⟩ := FileSystem.upload_ok hsent
      have hput := holds_writeFile h hw
      rw [uploadAll_cons_ok hsent] at hok ⊢
      refine ih _ _ ((positions Path UInt8).apply s w) hok ?_
      rw [hrun, FileSystem.onCache_remote, positions_apply]
      cases hget : w.get p x with
      | none => rwa [hget] at hput
      | some b => rwa [hget] at hput

end Server

section Calls

variable {fs : FileSystem L} {t : ℕ} {env : Env} {op : Op}

theorem Coherent.later {t' : ℕ} (h : Coherent fs t) (ht : t ≤ t') : Coherent fs t' where
  cache := h.cache
  buffer p x b hb := h.buffer p x b (ReadBuffer.byteAt_later ht hb)

theorem Coherent.changed {done : FileSystem L} (h : Coherent fs t) (hc : done.cache = none)
    (hb : done.readBuffer = fs.readBuffer)
    (hr : ∀ p x v, fs.readBuffer.byteAt t p x = some v → fs.remote.Holds p x v →
      done.remote.Holds p x v) : Coherent done t where
  cache := hc
  buffer p x v hx := by
    rw [hb] at hx
    exact hr p x v hx (h.buffer p x v hx)

theorem Coherent.read {q : Path} {o s : ℕ} (h : Coherent fs t) (ht : ∀ i, t ≤ (env i).now) :
    Coherent (fs.readFile q o s env).2 t where
  cache := readFile_none h.cache o s
  buffer p := by
    by_cases hq : q = p
    · subst hq
      have hok : ReadOk fs q t (fs.remote.Holds q) (fun _ => True) (fs.readFile q o s env).2 :=
        readFile_ok ht (entries_none h.cache) (h.buffer q)
          (fun _ _ _ hread _ _ hb => holds_readFile hread hb) fun _ _ => trivial
      rw [hok.remote]
      exact hok.buffer
    · have hread : ReadElsewhere p t (fun _ => True) (fun _ => True) fs
          (fs.readFile q o s env).2 :=
        readFile_elsewhere aboutPages_true ht (fun _ _ => trivial) hq
      rw [hread.remote]
      exact fun x b hb => h.buffer p x b (hread.buffer t x b hb)

theorem Coherent.uploadAll {ws : List Chunk} {b : WriteBuffer} (h : Coherent fs t)
    (hok : ({ fs with writeBuffer := b }.uploadAll ws env).1 = .ok ())
    (hs : ∀ p x v, fs.readBuffer.byteAt t p x = some v → ((positions Path UInt8).applyAll
      (fun _ _ => none) ws p x).getD v = v) :
    Coherent ({ fs with writeBuffer := b }.uploadAll ws env).2 t := by
  refine h.changed (uploadAll_none h.cache) (uploadAll_frame ws _ env).1 ?_
  intro p x v hx hold
  have hsent := holds_uploadAll (v := v) ws { fs with writeBuffer := b } env (fun _ _ => none)
    hok hold
  rwa [hs p x v hx] at hsent

theorem Coherent.answered {r : Remote} (f : Cache L → Cache L) (h : Coherent fs t)
    (hr : ∀ p x v, fs.readBuffer.byteAt t p x = some v →
      fs.remote.Holds p x v → r.Holds p x v) :
    Coherent ({ fs with remote := r }.onCache f) t := by
  have hcache : { fs with remote := r }.cache = none := h.cache
  rw [onCache_none hcache]
  exact h.changed h.cache rfl hr

theorem Coherent.putNamed {r : Remote} {q : Path} {item : OsString → CacheItem L} {m : Moment}
    (h : Coherent fs t) (hr : ∀ p x v, fs.readBuffer.byteAt t p x = some v →
      fs.remote.Holds p x v → r.Holds p x v) :
    Coherent ({ fs with remote := r }.putNamed q item m) t := by
  have hcache : { fs with remote := r }.cache = none := h.cache
  rw [putNamed_none hcache]
  exact h.changed h.cache rfl hr

theorem Coherent.createFile {q : Path} {off : ℕ} {d : List UInt8} (h : Coherent fs t)
    (hs : (∃ a, (fs.createFile q off d env).1 = .ok a) → ∀ p x v,
      fs.readBuffer.byteAt t p x = some v → ((Write.mk q off d).get p x).getD v = v) :
    Coherent (fs.createFile q off d env).2 t := by
  unfold FileSystem.createFile at hs ⊢
  split
  · exact h
  · rename_i a r hsent
    obtain ⟨hw, -⟩ := FileSystem.withAttributes_some (FileSystem.sent_ok.mp hsent).2.2
    rw [hsent] at hs
    refine h.putNamed fun p x v hx hold => ?_
    have hput := holds_writeFile (w := ⟨q, off, d⟩) hold hw
    rwa [hs ⟨a, rfl⟩ p x v hx] at hput

theorem run_coherent (h : Coherent fs (env 0).now) (ht : ∀ i, (env 0).now ≤ (env i).now)
    (hgranted : changes op = true → (op.run fs env).1 = .ok ())
    (hs : (op.run fs env).1 = .ok () → ∀ p x v,
      fs.readBuffer.byteAt (env 0).now p x = some v → SparesByte fs p x v op) :
    Coherent (op.run fs env).2 (env 0).now := by
  cases op with
  | read q o s => exact h.read ht
  | write q off d =>
    have hok := hgranted rfl
    obtain ⟨n, hn⟩ := outcome_ok hok
    exact h.uploadAll (FileSystem.writeFile_ok hn).2 (hs hok)
  | flush => exact h.uploadAll (hgranted rfl) (hs (hgranted rfl))
  | getAttributes q =>
    simp only [Op.run, outcome, getAttributes_none h.cache]
    exact h
  | readSymlink q =>
    simp only [Op.run, outcome, readSymlink_none h.cache]
    exact h
  | readdir q =>
    simp only [Op.run, outcome, readdir_none h.cache]
    exact h
  | invalidate q =>
    simp only [Op.run, FileSystem.cacheInvalidate, onCache_none h.cache]
    exact h
  | createFile q off d =>
    exact h.createFile fun _ => hs (hgranted rfl)
  | mkdir q =>
    simp only [Op.run, outcome, FileSystem.mkdir]
    split
    · exact h
    · rename_i a r hsent
      obtain ⟨hm, -⟩ := FileSystem.withAttributes_some (FileSystem.sent_ok.mp hsent).2.2
      exact h.putNamed fun p x v _ hold => hold.mkdir hm
  | createSymlink q target =>
    simp only [Op.run, outcome, FileSystem.createSymlink]
    split
    · exact h
    · rename_i a r hsent
      obtain ⟨hl, -⟩ := FileSystem.withAttributes_some (FileSystem.sent_ok.mp hsent).2.2
      exact h.putNamed fun p x v _ hold => hold.createSymlink hl
  | setAttributes q new =>
    have hok := hgranted rfl
    obtain ⟨a, ha⟩ := outcome_ok hok
    obtain ⟨r, hset, -, hrun⟩ := FileSystem.setAttributes_ok ha
    simp only [Op.run, outcome, hrun]
    exact h.answered _ fun p x v hx hold => hold.setAttributes (hs hok p x v hx) hset
  | rename a b flags =>
    have hok := hgranted rfl
    obtain ⟨r, hren, hrun⟩ := FileSystem.rename_ok hok
    simp only [Op.run, hrun]
    exact h.answered _ fun p x v hx hold => holds_rename hold (hs hok p x v hx) hren
  | remove q =>
    have hok := hgranted rfl
    obtain ⟨r, hrem, hrun⟩ := FileSystem.remove_ok hok
    simp only [Op.run, hrun]
    exact h.answered _ fun p x v hx hold => hold.remove (hs hok p x v hx) hrem

/-- The server may differ in what the buffer does not serve. -/
theorem Coherent.left {left : Remote} (h : Coherent fs t)
    (hleft : ∀ q x v, fs.remote.Holds q x v → left.Holds q x v) :
    Coherent { fs with remote := left } t :=
  ⟨h.cache, fun q x v hx => hleft q x v (h.buffer q x v hx)⟩

theorem turn_coherent {turn : Turn} (h : Coherent fs (turn.env 0).now)
    (ht : ∀ i, (turn.env 0).now ≤ (turn.env i).now) (hleaves : Leaves fs turn)
    (hs : Spares fs turn) : Coherent (turn.run fs) (turn.env 0).now := by
  by_cases hfail : turn.fails fs ∧ changes turn.op = true
  · refine ⟨(run_none h.cache).1, fun p x v hx => ?_⟩
    have hsame : (turn.op.run fs turn.env).2.readBuffer = fs.readBuffer :=
      (run_none h.cache).2 hfail.2
    have hx : (turn.op.run fs turn.env).2.readBuffer.byteAt (turn.env 0).now p x = some v := hx
    rw [hsame] at hx
    exact hs.failed hfail.1 hfail.2 p x v hx
  · refine (run_coherent h ht (fun hchanges => ?_) hs.granted).left
      fun q x v hold => (hleaves.holds hfail q x v).mpr hold
    cases hres : (turn.op.run fs turn.env).1 with
    | ok u => rfl
    | error e => exact (hfail ⟨⟨e, hres⟩, hchanges⟩).elim

theorem runTurns_coherent (turns : List Turn) : ∀ (fs : FileSystem L) (t : ℕ)
    (later : List Env), Coherent fs t → Clocked t (turns.map Turn.env ++ later) →
      Along Leaves fs turns → Along Spares fs turns →
        ∃ t', Clocked t' later ∧ Coherent (runTurns fs turns) t' := by
  induction turns with
  | nil => exact fun fs t later h hclock _ _ => ⟨t, hclock, h⟩
  | cons turn turns ih =>
    rintro fs t later h ⟨hle, ht, hclock⟩ ⟨hleaves, hrest⟩ ⟨hs, hspare⟩
    exact ih _ _ later (turn_coherent (h.later hle) ht hleaves hs) hclock hrest hspare

end Calls

theorem coherent_new (remote : Remote) (capacity now : ℕ) :
    Coherent (.new remote capacity now none : FileSystem L) now where
  cache := rfl
  buffer p x v hx := by cases ReadBuffer.byteAt_new.symm.trans hx

end ClientReadBufferCoherence
