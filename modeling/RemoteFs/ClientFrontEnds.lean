import RemoteFs.ClientRounds

/-! # Reading through the two front ends

On Unix the mount reads a range in rounds, each of them a `read_file`, until it has the range or
a round brings nothing. On Windows it makes one round. A round takes its bytes from one place,
the cached pages, the read buffer or one request, and ends where that place does. -/
namespace ClientFrontEnds

open ClientAttributes
open ClientCache
open ClientFileSystem
open ClientMemory
open ClientPageCache
open ClientPageCacheLoops
open ClientReadBuffer
open ClientRounds
open FileBytes
open OsPaths
open RemoteTree

variable {L : PageLimits}

inductive FuseError where
  | invalidInput (message : String)
  | fsModel (error : FsModelError)
  deriving DecidableEq, Repr

namespace PathFilesystem

def filePath (fileHandlers : ℕ → Option Path) (path : Option Path) (fh : ℕ) :
    Except FuseError Path :=
  match path with
  | some p => .ok p
  | none =>
    match fileHandlers fh with
    | some p => .ok p
    | none => .error (.invalidInput "Invalid file handle")

/-- The rounds of `read`. What a round meets is told by the bytes read before it. -/
def readLoop (p : Path) (offset size : ℕ) (envs : ℕ → Env) (fs : FileSystem L)
    (data : List UInt8) : Except FsModelError (List UInt8) × FileSystem L :=
  if data.length < size then
    match fs.readFile p (offset + data.length) (size - data.length) (envs data.length) with
    | (.error e, fs) => (.error e, fs)
    | (.ok [], fs) => (.ok data, fs)
    | (.ok (b :: bs), fs) => readLoop p offset size envs fs (data ++ b :: bs)
  else (.ok data, fs)
termination_by size - data.length
decreasing_by
  rw [List.length_append, List.length_cons]
  omega

def read (fs : FileSystem L) (fileHandlers : ℕ → Option Path) (path : Option Path)
    (fh offset : ℕ) (size : UInt32) (envs : ℕ → Env) :
    Except FuseError (List UInt8) × FileSystem L :=
  match filePath fileHandlers path fh with
  | .error e => (.error e, fs)
  | .ok p =>
    let done := readLoop p offset size.toNat envs fs []
    (done.1.mapError .fsModel, done.2)

end PathFilesystem

namespace FileSystemContext

def read (fs : FileSystem L) (p : Path) (buffer : List UInt8) (offset : ℕ) (env : Env) :
    Except FsModelError (UInt32 × List UInt8) × FileSystem L :=
  match fs.readFile p offset buffer.length env with
  | (.error e, fs) => (.error e, fs)
  | (.ok res, fs) => (.ok (.ofNat res.length, copyInto buffer 0 res), fs)

end FileSystemContext

def delivered {ε : Type} : Except ε (List UInt8) → List UInt8
  | .ok bytes => bytes
  | .error _ => []

def FileSystemContext.placed (r : Except FsModelError (UInt32 × List UInt8)) :
    Except FsModelError (List UInt8) :=
  r.map fun (n, buffer) => buffer.take n.toNat

/-- How many positions in a row, of so many, have a byte. -/
def run (serves : ℕ → Option UInt8) (offset : ℕ) : ℕ → ℕ
  | 0 => 0
  | size + 1 => if (serves offset).isSome then run serves (offset + 1) size + 1 else 0

section Round

variable {fs : FileSystem L} {p : Path} {offset size : ℕ} {env : Env}

/-- The attributes that a round finds say that the file ends before the offset. -/
def Ended (fs : FileSystem L) (p : Path) (offset : ℕ) (env : Env) : Prop :=
  ∃ a, (fs.getAttributes p env).1 = .ok a ∧ a.size ≤ offset

def requested (fs : FileSystem L) (p : Path) (offset : ℕ) (env : Env) :
    Except FsModelError (List UInt8) :=
  pathToString p >>= fun _ =>
    request (env 5) (fs.remote.readFile p offset fs.readBuffer.capacity)

def cachedByte (fs : FileSystem L) (p : Path) (env : Env) (x : ℕ) : Option UInt8 :=
  (entry (fs.getAttributes p env).2 p (env 3).now).bind fun it => it.byteAt x

def bufferedByte (fs : FileSystem L) (p : Path) (env : Env) (x : ℕ) : Option UInt8 :=
  fs.readBuffer.byteAt (env 4).now p x

def requestedByte (fs : FileSystem L) (p : Path) (offset : ℕ) (env : Env) (x : ℕ) :
    Option UInt8 :=
  match requested fs p offset env with
  | .error _ => none
  | .ok data => data[x - offset]?

/-- The place that has the byte at the offset: the cached pages before the read buffer, and
that before a request. -/
def place (fs : FileSystem L) (p : Path) (offset : ℕ) (env : Env) : ℕ → Option UInt8 :=
  if (cachedByte fs p env offset).isSome then cachedByte fs p env
  else if (bufferedByte fs p env offset).isSome then bufferedByte fs p env
  else requestedByte fs p offset env

/-- A round at the offset would bring nothing: the file ends there, or no place has a byte. -/
def NothingLeft (fs : FileSystem L) (p : Path) (offset : ℕ) (env : Env) : Prop :=
  Ended fs p offset env ∨
    place fs p offset env offset = none ∧ ∃ data, requested fs p offset env = .ok data

theorem run_eq {serves : ℕ → Option UInt8} {n : ℕ} (hle : n ≤ size)
    (hserved : ∀ i < n, (serves (offset + i)).isSome)
    (hstop : n < size → serves (offset + n) = none) : run serves offset size = n := by
  induction size generalizing offset n with
  | zero => exact (Nat.le_zero.mp hle).symm
  | succ size ih =>
    rw [run]
    cases n with
    | zero =>
      have hnone : serves offset = none := hstop (Nat.succ_pos size)
      rw [hnone]
      rfl
    | succ n =>
      have hfirst : (serves offset).isSome := hserved 0 (Nat.succ_pos n)
      rw [if_pos hfirst]
      refine congrArg (· + 1) (ih (Nat.le_of_succ_le_succ hle) (fun i hi => ?_) fun hlt => ?_)
      · rw [Nat.add_assoc, Nat.add_comm 1]
        exact hserved (i + 1) (Nat.succ_lt_succ hi)
      · rw [Nat.add_assoc, Nat.add_comm 1]
        exact hstop (Nat.succ_lt_succ hlt)

theorem run_length {serves : ℕ → Option UInt8} {r : List UInt8} (hle : r.length ≤ size)
    (hserved : ∀ i < r.length, serves (offset + i) = r[i]?)
    (hstop : r.length < size → serves (offset + r.length) = none) :
    run serves offset size = r.length := by
  refine run_eq hle (fun i hi => ?_) hstop
  rw [hserved i hi, List.getElem?_eq_getElem hi]
  rfl

theorem run_isSome {serves : ℕ → Option UInt8} {i : ℕ} (h : i < run serves offset size) :
    (serves (offset + i)).isSome := by
  induction size generalizing offset i with
  | zero => cases h
  | succ size ih =>
    rw [run] at h
    split at h
    · rename_i hsome
      cases i with
      | zero => exact hsome
      | succ i =>
        rw [Nat.add_comm i 1, ← Nat.add_assoc]
        exact ih (Nat.lt_of_succ_lt_succ h)
    · cases h

theorem run_pos {serves : ℕ → Option UInt8} (hs : 0 < size) :
    0 < run serves offset size ↔ (serves offset).isSome := by
  obtain ⟨size, rfl⟩ := Nat.exists_eq_succ_of_ne_zero hs.ne'
  rw [run]
  split
  · rename_i h
    exact iff_of_true (Nat.succ_pos _) h
  · rename_i h
    exact iff_of_false (Nat.lt_irrefl 0) h

theorem run_stop {serves : ℕ → Option UInt8} (h : run serves offset size < size) :
    serves (offset + run serves offset size) = none := by
  induction size generalizing offset with
  | zero => cases h
  | succ size ih =>
    rw [run] at h ⊢
    split at h
    · rename_i hsome
      rw [if_pos hsome, Nat.add_comm _ 1, ← Nat.add_assoc]
      exact ih (Nat.lt_of_succ_lt_succ h)
    · rename_i hnone
      rw [if_neg hnone]
      exact Option.not_isSome_iff_eq_none.mp hnone

theorem run_eq_zero {serves : ℕ → Option UInt8} (h : serves offset = none) :
    run serves offset size = 0 :=
  run_eq (Nat.zero_le _) nofun fun _ => h

theorem buffer_read_run (b : ReadBuffer) (p : Path) (offset size now : ℕ) :
    run (b.byteAt now p) offset size = (b.read p offset size now).length := by
  refine run_length ?_ (fun i hi => ?_) ReadBuffer.read_stop
  · refine Nat.le_of_not_lt fun hlt => ?_
    exact Nat.lt_irrefl _ (ReadBuffer.read_getElem? (List.getElem?_eq_getElem hlt)).2
  · rw [List.getElem?_eq_getElem hi]
    exact (ReadBuffer.read_getElem? (List.getElem?_eq_getElem hi)).1

theorem cached_read_run (item : Option (CacheItem L)) (offset size : ℕ) :
    run (fun x => item.bind fun it => it.byteAt x) offset size =
      (FileSystem.cachedBytes item offset size).length := by
  match item with
  | some (.file f) =>
    have hspec := read_served f offset size
    exact run_length hspec.length_le hspec.served hspec.stop
  | none => exact run_eq_zero rfl
  | some (.symLink _) => exact run_eq_zero rfl
  | some (.directory _) => exact run_eq_zero rfl

theorem requested_read_run (size : ℕ) {data : List UInt8}
    (h : requested fs p offset env = .ok data) :
    run (requestedByte fs p offset env) offset size = (data.take size).length := by
  have hbyte : ∀ i, requestedByte fs p offset env (offset + i) = data[i]? := by
    intro i
    rw [requestedByte, h, Nat.add_sub_cancel_left]
  refine run_length (List.length_take_le _ _) (fun i hi => ?_) fun hlt => ?_
  · rw [List.length_take] at hi
    rw [hbyte, List.getElem?_take_of_lt (by omega)]
  · rw [List.length_take] at hlt ⊢
    rw [hbyte, List.getElem?_eq_none (by omega)]

/-- What a round brings from one place, or the answer it got where no place has a byte. -/
def Brings (serves : ℕ → Option UInt8) (offset size : ℕ)
    (answer r : Except FsModelError (List UInt8)) : Prop :=
  (∃ bytes, bytes ≠ [] ∧ r = .ok bytes ∧ bytes.length = run serves offset size) ∨
    serves offset = none ∧ r = answer.map fun _ => []

theorem brings_bytes {serves : ℕ → Option UInt8} {answer : Except FsModelError (List UInt8)}
    {bytes : List UInt8} (hne : bytes ≠ []) (hrun : run serves offset size = bytes.length) :
    Brings serves offset size answer (.ok bytes) :=
  .inl ⟨bytes, hne, rfl, hrun.symm⟩

theorem isSome_of_run {serves : ℕ → Option UInt8} {bytes : List UInt8} (hs : 0 < size)
    (hrun : run serves offset size = bytes.length) :
    (serves offset).isSome ↔ bytes ≠ [] := by
  rw [← run_pos hs, hrun, List.length_pos_iff]

theorem readRemote_brings {fs' : FileSystem L} (hs : 0 < size) (hremote : fs'.remote = fs.remote)
    (hbuffer : fs'.readBuffer = fs.readBuffer) :
    Brings (requestedByte fs p offset env) offset size (requested fs p offset env)
      (fs'.readRemote p offset size (env.drop 5)).1 := by
  have hrequested : (pathToString p >>= fun _ => request (env.drop 5 0)
      (fs'.remote.readFile p offset fs'.readBuffer.capacity)) = requested fs p offset env := by
    rw [hremote, hbuffer]
    rfl
  unfold FileSystem.readRemote
  rw [hrequested]
  cases hr : requested fs p offset env with
  | error e => exact .inr ⟨by rw [requestedByte, hr], rfl⟩
  | ok data =>
    have hrun := requested_read_run size hr
    by_cases hdata : data.take size = []
    · refine .inr ⟨?_, congrArg Except.ok hdata⟩
      rw [← Option.not_isSome_iff_eq_none, isSome_of_run hs hrun]
      exact not_not.mpr hdata
    · exact brings_bytes hdata hrun

def behindLooks (fs : FileSystem L) (p : Path) (env : Env) : FileSystem L :=
  ((fs.getAttributes p env).2.cacheGet p (env 3).toMoment).2

theorem behindLooks_frame (fs : FileSystem L) (p : Path) (env : Env) :
    (behindLooks fs p env).remote = fs.remote ∧
      (behindLooks fs p env).readBuffer = fs.readBuffer := by
  obtain ⟨hremote, hbuffer, -⟩ := getAttributes_frame fs p env
  obtain ⟨hremote', hbuffer', -⟩ := cacheGet_frame (fs.getAttributes p env).2 p (env 3).toMoment
  exact ⟨hremote'.trans hremote, hbuffer'.trans hbuffer⟩

theorem readFile_looks (size : ℕ) (hne : ¬Ended fs p offset env) :
    fs.readFile p offset size env =
      (let data := FileSystem.cachedBytes (entry (fs.getAttributes p env).2 p (env 3).now)
        offset size
      if data ≠ [] then (.ok data, behindLooks fs p env)
      else (behindLooks fs p env).readBuffered p offset size (env.drop 4)) := by
  have hread : fs.readFile p offset size env =
      (fs.getAttributes p env).2.readCached p offset size (env.drop 3) := by
    unfold FileSystem.readFile
    dsimp only
    split
    · rename_i a ha
      rw [if_neg fun hle => hne ⟨a, ha, hle⟩]
    · rfl
  rw [hread, FileSystem.readCached, cacheGet_entry]
  rfl

theorem cachedByte_run (fs : FileSystem L) (p : Path) (offset size : ℕ) (env : Env) :
    run (cachedByte fs p env) offset size = (FileSystem.cachedBytes
      (entry (fs.getAttributes p env).2 p (env 3).now) offset size).length :=
  cached_read_run (entry (fs.getAttributes p env).2 p (env 3).now) offset size

theorem readFile_cached (hs : 0 < size) (hne : ¬Ended fs p offset env)
    (hc : (cachedByte fs p env offset).isSome) : fs.readFile p offset size env =
      (.ok (FileSystem.cachedBytes (entry (fs.getAttributes p env).2 p (env 3).now) offset size),
        behindLooks fs p env) := by
  rw [readFile_looks size hne]
  exact if_pos ((isSome_of_run hs (cachedByte_run fs p offset size env)).mp hc)

theorem readFile_behind (hs : 0 < size) (hne : ¬Ended fs p offset env)
    (hc : ¬(cachedByte fs p env offset).isSome) : fs.readFile p offset size env =
      (behindLooks fs p env).readBuffered p offset size (env.drop 4) := by
  rw [readFile_looks size hne]
  exact if_neg ((isSome_of_run hs (cachedByte_run fs p offset size env)).not.mp hc)

theorem readFile_buffered (hs : 0 < size) (hne : ¬Ended fs p offset env)
    (hc : ¬(cachedByte fs p env offset).isSome) (hb : (bufferedByte fs p env offset).isSome) :
    fs.readFile p offset size env = (.ok (fs.readBuffer.read p offset size (env 4).now),
      (behindLooks fs p env).onCache fun c => cacheWriteFile c p offset
        (fs.readBuffer.read p offset size (env 4).now) false (env 5).toMoment) := by
  obtain ⟨-, hbuffer⟩ := behindLooks_frame fs p env
  have hrun := buffer_read_run fs.readBuffer p offset size (env 4).now
  change run (bufferedByte fs p env) offset size = _ at hrun
  rw [readFile_behind hs hne hc, FileSystem.readBuffered, hbuffer]
  exact if_pos ((isSome_of_run hs hrun).mp hb)

theorem readFile_remote (hs : 0 < size) (hne : ¬Ended fs p offset env)
    (hc : ¬(cachedByte fs p env offset).isSome) (hb : ¬(bufferedByte fs p env offset).isSome) :
    fs.readFile p offset size env =
      (behindLooks fs p env).readRemote p offset size (env.drop 5) := by
  obtain ⟨-, hbuffer⟩ := behindLooks_frame fs p env
  have hrun := buffer_read_run fs.readBuffer p offset size (env 4).now
  change run (bufferedByte fs p env) offset size = _ at hrun
  rw [readFile_behind hs hne hc, FileSystem.readBuffered, hbuffer]
  exact if_neg ((isSome_of_run hs hrun).not.mp hb)

/-- A round that the attributes do not end takes its bytes from one place. -/
theorem readFile_brings (hs : 0 < size) (hne : ¬Ended fs p offset env) :
    Brings (place fs p offset env) offset size (requested fs p offset env)
      (fs.readFile p offset size env).1 := by
  unfold place
  by_cases hc : (cachedByte fs p env offset).isSome
  · have hrun := cachedByte_run fs p offset size env
    rw [if_pos hc, readFile_cached hs hne hc]
    exact brings_bytes ((isSome_of_run hs hrun).mp hc) hrun
  · rw [if_neg hc]
    by_cases hb : (bufferedByte fs p env offset).isSome
    · have hrun := buffer_read_run fs.readBuffer p offset size (env 4).now
      change run (bufferedByte fs p env) offset size = _ at hrun
      rw [if_pos hb, readFile_buffered hs hne hc hb]
      exact brings_bytes ((isSome_of_run hs hrun).mp hb) hrun
    · obtain ⟨hremote, hbuffer⟩ := behindLooks_frame fs p env
      rw [if_neg hb, readFile_remote hs hne hc hb]
      exact readRemote_brings hs hremote hbuffer

/-- No step comes before an earlier one. -/
def Forward (env : Env) : Prop := Monotone fun i => (env i).now

theorem entry_behindLooks (hclock : Forward env) {t : ℕ} (ht : (env 3).now ≤ t) :
    entry (behindLooks fs p env) p t = looked fs p env t := by
  have h₀ : (env 0).now ≤ t := (hclock (Nat.zero_le 3)).trans ht
  exact (entry_cacheGet ht).trans (entry_getAttributes (hclock (Nat.zero_le 2)) h₀)

def lookedByte (fs : FileSystem L) (p : Path) (env : Env) (x : ℕ) : Option UInt8 :=
  (looked fs p env (env 3).now).bind fun it => it.byteAt x

theorem cachedByte_eq (hclock : Forward env) : cachedByte fs p env = lookedByte fs p env := by
  funext x
  rw [cachedByte, entry_getAttributes (hclock (Nat.zero_le 2)) (hclock (Nat.zero_le 3)), lookedByte]

inductive Place where
  | pages
  | buffer
  | request
  deriving DecidableEq, Repr

/-- Where a round takes its bytes from. -/
def Place.first (fs : FileSystem L) (p : Path) (offset : ℕ) (env : Env) : Place :=
  if (lookedByte fs p env offset).isSome then .pages
  else if (bufferedByte fs p env offset).isSome then .buffer
  else .request

def Place.byteAt (fs : FileSystem L) (p : Path) (offset : ℕ) (env : Env) :
    Place → ℕ → Option UInt8
  | .pages => lookedByte fs p env
  | .buffer => bufferedByte fs p env
  | .request => requestedByte fs p offset env

theorem place_eq (hclock : Forward env) :
    place fs p offset env = (Place.first fs p offset env).byteAt fs p offset env := by
  unfold place Place.first
  rw [cachedByte_eq hclock]
  split
  · rfl
  · split <;> rfl

/-- The attributes that a second round finds: those that the first one has left, or the server's. -/
def foundAgain (fs : FileSystem L) (p : Path) (env env' : Env) : Except FsModelError Attributes :=
  match (looked fs p env (env' 0).now).bind (keptAttributes p) with
  | some a => .ok a
  | none => asked fs p env'

/-- Where a first round has ended at `x`, the client has no byte there. After pages it may be in
the read buffer. After other bytes, which were put, it may be in the pages. -/
def Spent (fs : FileSystem L) (p : Path) (offset size : ℕ) (env env' : Env) (x : ℕ) : Prop :=
  match Place.first fs p offset env with
  | .pages => bufferedByte fs p env' x = none
  | .buffer => ¬Adjoins (looked fs p env (env' 3).now) p
      (written L p offset (fs.readBuffer.read p offset size (env 4).now)) (env 5).pages x
  | .request => ∀ data, requested fs p offset env = .ok data →
      ¬Adjoins (looked fs p env (env' 3).now) p (written L p offset data) (env 7).pages x

def Over (fs : FileSystem L) (p : Path) (offset size : ℕ) (env env' : Env) (x : ℕ) : Prop :=
  (∃ a, foundAgain fs p env env' = .ok a ∧ a.size ≤ x) ∨
    Spent fs p offset size env env' x ∧ requested fs p x env' = .ok []

structure Leaves (fs : FileSystem L) (p : Path) (offset size : ℕ) (env env' : Env) (x : ℕ)
    (left : FileSystem L) : Prop where
  remote : left.remote = fs.remote
  capacity : left.readBuffer.capacity = fs.readBuffer.capacity
  attributes : (entry left p (env' 0).now).bind CacheItem.getAttributes =
    (looked fs p env (env' 0).now).bind (keptAttributes p)
  bytes : ((entry left p (env' 3).now).bind fun it => it.byteAt x) = none ∧
    left.readBuffer.byteAt (env' 4).now p x = none ↔ Spent fs p offset size env env' x

section Second

variable {env' : Env} {left : FileSystem L} {x : ℕ}

theorem Leaves.ended_iff (h : Leaves fs p offset size env env' x left) :
    Ended left p x env' ↔ ∃ a, foundAgain fs p env env' = .ok a ∧ a.size ≤ x := by
  have hasked : asked left p env' = asked fs p env' := by rw [asked, asked, h.remote]
  rw [Ended, getAttributes_found, h.attributes, hasked]
  rfl

theorem Leaves.requested_eq (h : Leaves fs p offset size env env' x left) :
    requested left p x env' = requested fs p x env' := by
  rw [requested, requested, h.remote, h.capacity]

/-- Where a read is answered there is a file. -/
theorem asked_file {data : List UInt8} {a : Attributes} (h : requested fs p x env = .ok data)
    (ha : asked fs p env' = .ok a) : a.kind ≠ .directory ∧ a.kind ≠ .symlink := by
  have hread := (FileSystem.sent_ok.mp h).2.2
  unfold Remote.readFile at hread
  split at hread
  · rename_i content hnode
    exact asked_kind hnode ha
  · cases hread

theorem place_eq_none : place fs p offset env offset = none ↔
    cachedByte fs p env offset = none ∧ bufferedByte fs p env offset = none ∧
      requestedByte fs p offset env offset = none := by
  unfold place
  by_cases hc : (cachedByte fs p env offset).isSome
  · rw [if_pos hc]
    exact ⟨fun h => (Option.not_isSome_iff_eq_none.mpr h hc).elim, fun h => h.1⟩
  · rw [if_neg hc, and_iff_right (Option.not_isSome_iff_eq_none.mp hc)]
    by_cases hb : (bufferedByte fs p env offset).isSome
    · rw [if_pos hb]
      exact ⟨fun h => (Option.not_isSome_iff_eq_none.mpr h hb).elim, fun h => h.1⟩
    · rw [if_neg hb, and_iff_right (Option.not_isSome_iff_eq_none.mp hb)]

theorem requestedByte_eq_none {data : List UInt8} (h : requested fs p offset env = .ok data) :
    requestedByte fs p offset env offset = none ↔ data = [] := by
  rw [requestedByte, h]
  dsimp only
  rw [Nat.sub_self, List.getElem?_eq_none_iff, Nat.le_zero, List.length_eq_zero_iff]

theorem Leaves.nothingLeft_iff (h : Leaves fs p offset size env env' x left)
    (hclock : Forward env') : NothingLeft left p x env' ↔ Over fs p offset size env env' x := by
  rw [NothingLeft, Over, h.ended_iff, place_eq_none, cachedByte_eq hclock, h.requested_eq,
    ← h.bytes]
  refine or_congr_right ?_
  have hcached : ∀ data, requested fs p x env' = .ok data →
      lookedByte left p env' x = (entry left p (env' 3).now).bind fun it => it.byteAt x :=
    fun data hdata => looked_byteAt (hclock (by decide : 2 ≤ 3)) fun a ha =>
      asked_file (h.requested_eq.trans hdata) ha
  constructor
  · rintro ⟨⟨hnone, hbuffer, hrequest⟩, data, hdata⟩
    rw [hcached data hdata] at hnone
    rw [requestedByte_eq_none (h.requested_eq.trans hdata)] at hrequest
    exact ⟨⟨hnone, hbuffer⟩, hrequest ▸ hdata⟩
  · rintro ⟨⟨hnone, hbuffer⟩, hdata⟩
    rw [hcached [] hdata, requestedByte_eq_none (h.requested_eq.trans hdata)]
    exact ⟨⟨hnone, hbuffer, rfl⟩, [], hdata⟩

variable (hclock : Forward env) (hnext : ∀ i j, (env i).now ≤ (env' j).now)

include hclock hnext

/-- What a round leaves that has put bytes. -/
theorem leaves_put {left : FileSystem L} {data : List UInt8} {k : ℕ}
    (hremote : left.remote = fs.remote)
    (hcapacity : left.readBuffer.capacity = fs.readBuffer.capacity)
    (hentry : entry left p = Held.write (entry (behindLooks fs p env) p)
      (lasts (behindLooks fs p env)) p offset data (env k).toMoment)
    (hbuffer : left.readBuffer.byteAt (env' 4).now p (offset + data.length) = none)
    (hspent : Spent fs p offset size env env' (offset + data.length) ↔
      ¬Adjoins (looked fs p env (env' 3).now) p (written L p offset data) (env k).pages
        (offset + data.length)) :
    Leaves fs p offset size env env' (offset + data.length) left := by
  have hfresh : ∀ j, entry (behindLooks fs p env) p (env' j).now ≠ none →
      entry (behindLooks fs p env) p (env k).toMoment.now ≠ none := by
    intro j h
    obtain ⟨it, hit⟩ := Option.ne_none_iff_exists'.mp h
    rw [entry_earlier (hnext k j) hit]
    exact Option.some_ne_none it
  refine ⟨hremote, hcapacity, ?_, ?_⟩
  · rw [hentry, write_attributes (hfresh 0), entry_behindLooks hclock (hnext 3 0)]
  · have hbehind : (written L p offset data).byteAt (offset + data.length) = none := by
      by_contra hsome
      obtain ⟨b, hb⟩ := Option.ne_none_iff_exists'.mp hsome
      obtain ⟨-, hdata⟩ := written_byteAt hb
      rw [Nat.add_sub_cancel_left, List.getElem?_eq_none le_rfl] at hdata
      cases hdata
    rw [and_iff_left hbuffer, hspent, ← entry_behindLooks hclock (hnext 3 3), hentry,
      ← not_iff_not, not_not, ← Ne, write_byteAt_iff (hfresh 3) hbehind]

variable (hs : 0 < size) (hne : ¬Ended fs p offset env)

include hs hne

theorem leaves_pages (hplace : (lookedByte fs p env offset).isSome)
    (hn : run (lookedByte fs p env) offset size < size) :
    Leaves fs p offset size env env' (offset + run (lookedByte fs p env) offset size)
      (fs.readFile p offset size env).2 := by
  have hfirst : Place.first fs p offset env = .pages := if_pos hplace
  have hstop := run_stop hn
  generalize offset + run (lookedByte fs p env) offset size = x at hstop ⊢
  obtain ⟨hremote, hbuffer⟩ := behindLooks_frame fs p env
  rw [readFile_cached hs hne (cachedByte_eq hclock ▸ hplace)]
  have hsame : ∀ t it, (env 3).now ≤ t → looked fs p env t = some it →
      looked fs p env (env 3).now = some it := fun t it ht =>
    looked_earlier (hclock (Nat.zero_le 2)) (hclock (Nat.zero_le 3)) ht
  refine ⟨hremote, congrArg ReadBuffer.capacity hbuffer, ?_, ?_⟩
  · rw [entry_behindLooks hclock (hnext 3 0)]
    cases hlooked : looked fs p env (env' 0).now with
    | none => rfl
    | some it =>
      rw [lookedByte, hsame _ it (hnext 3 0) hlooked] at hplace
      cases it with
      | file f => exact (if_pos (.inr rfl)).symm
      | symLink l => cases hplace
      | directory d => cases hplace
  · rw [entry_behindLooks hclock (hnext 3 3), Spent, hfirst, hbuffer]
    refine and_iff_right ?_
    cases hlooked : looked fs p env (env' 3).now with
    | none => rfl
    | some it =>
      rw [lookedByte, hsame _ it (hnext 3 3) hlooked] at hstop
      exact hstop

theorem leaves_buffer (hpages : ¬(lookedByte fs p env offset).isSome)
    (hplace : (bufferedByte fs p env offset).isSome)
    (hn : run (bufferedByte fs p env) offset size < size) :
    Leaves fs p offset size env env' (offset + run (bufferedByte fs p env) offset size)
      (fs.readFile p offset size env).2 := by
  have hfirst : Place.first fs p offset env = .buffer := by
    rw [Place.first, if_neg hpages, if_pos hplace]
  have hstop := run_stop hn
  have hrun : run (bufferedByte fs p env) offset size =
      (fs.readBuffer.read p offset size (env 4).now).length := buffer_read_run ..
  rw [hrun] at hstop ⊢
  obtain ⟨hremote, hbuffer⟩ := behindLooks_frame fs p env
  rw [readFile_buffered hs hne (cachedByte_eq hclock ▸ hpages) hplace]
  refine leaves_put (k := 5) hclock hnext hremote (congrArg ReadBuffer.capacity hbuffer)
    (entry_write ..) ?_ (by rw [Spent, hfirst])
  show (behindLooks fs p env).readBuffer.byteAt _ _ _ = none
  rw [hbuffer]
  by_contra hsome
  obtain ⟨b, hb⟩ := Option.ne_none_iff_exists'.mp hsome
  have hearlier := ReadBuffer.byteAt_later (hnext 4 4) hb
  exact Option.some_ne_none b (hearlier.symm.trans hstop)

theorem leaves_request {data : List UInt8} (hpages : ¬(lookedByte fs p env offset).isSome)
    (hbuffer : ¬(bufferedByte fs p env offset).isSome)
    (hdata : requested fs p offset env = .ok data) :
    Leaves fs p offset size env env' (offset + data.length)
      (fs.readFile p offset size env).2 := by
  have hfirst : Place.first fs p offset env = .request := by
    rw [Place.first, if_neg hpages, if_neg hbuffer]
  obtain ⟨hremote, hsame⟩ := behindLooks_frame fs p env
  have hanswer : (pathToString p >>= fun _ => request (env.drop 5 0)
      ((behindLooks fs p env).remote.readFile p offset
        (behindLooks fs p env).readBuffer.capacity)) = .ok data := by
    rw [hremote, hsame]
    exact hdata
  rw [readFile_remote hs hne (cachedByte_eq hclock ▸ hpages) hbuffer, FileSystem.readRemote,
    hanswer]
  have hcapacity : (behindLooks fs p env).readBuffer.capacity = fs.readBuffer.capacity :=
    congrArg ReadBuffer.capacity hsame
  refine leaves_put (k := 7) hclock hnext hremote hcapacity (entry_write ..) ?_ ?_
  · exact ReadBuffer.byteAt_fill_end le_rfl
  · rw [Spent, hfirst, hdata]
    exact ⟨fun h => h data rfl, fun h data' hdata' => Except.ok.inj hdata' ▸ h⟩

theorem second_round_nothing_iff (hforward : Forward env') {n : ℕ}
    (hrun : run ((Place.first fs p offset env).byteAt fs p offset env) offset size = n)
    (hpos : 0 < n) (hn : n < size) :
    NothingLeft (fs.readFile p offset size env).2 p (offset + n) env' ↔
      Over fs p offset size env env' (offset + n) := by
  subst hrun
  by_cases hpages : (lookedByte fs p env offset).isSome
  · have hfirst : Place.first fs p offset env = .pages := if_pos hpages
    rw [hfirst] at hpos hn ⊢
    exact (leaves_pages hclock hnext hs hne hpages hn).nothingLeft_iff hforward
  · by_cases hbuffer : (bufferedByte fs p env offset).isSome
    · have hfirst : Place.first fs p offset env = .buffer := by
        rw [Place.first, if_neg hpages, if_pos hbuffer]
      rw [hfirst] at hpos hn ⊢
      exact (leaves_buffer hclock hnext hs hne hpages hbuffer hn).nothingLeft_iff hforward
    · have hfirst : Place.first fs p offset env = .request := by
        rw [Place.first, if_neg hpages, if_neg hbuffer]
      rw [hfirst] at hpos hn ⊢
      have hserved : (requestedByte fs p offset env offset).isSome := (run_pos hs).mp hpos
      cases hdata : requested fs p offset env with
      | error e =>
        rw [requestedByte, hdata] at hserved
        cases hserved
      | ok data =>
        have hlength := requested_read_run size hdata
        rw [Place.byteAt, hlength, List.length_take] at hn ⊢
        rw [Nat.min_eq_right (by omega)]
        exact (leaves_request hclock hnext hs hne hpages hbuffer hdata).nothingLeft_iff hforward

end Second

theorem readFile_ended (size : ℕ) (h : Ended fs p offset env) :
    (fs.readFile p offset size env).1 = .ok [] := by
  obtain ⟨a, ha, hle⟩ := h
  unfold FileSystem.readFile
  simp only [ha, if_pos hle]

theorem readFile_nil_iff (hs : 0 < size) :
    (fs.readFile p offset size env).1 = .ok [] ↔ NothingLeft fs p offset env := by
  by_cases hne : Ended fs p offset env
  · exact iff_of_true (readFile_ended size hne) (.inl hne)
  rw [NothingLeft, or_iff_right hne]
  rcases readFile_brings hs hne with ⟨bytes, hbytes, hok, hrun⟩ | ⟨hnone, hread⟩
  · rw [hok]
    refine iff_of_false (fun heq => hbytes (Except.ok.inj heq)) fun h => ?_
    exact hbytes (List.length_eq_zero_iff.mp (hrun.trans (run_eq_zero h.1)))
  · rw [hread, and_iff_right hnone]
    cases requested fs p offset env with
    | error e => exact iff_of_false nofun nofun
    | ok data => exact iff_of_true rfl ⟨data, rfl⟩

/-- No round brings more than it is asked for, so none overruns the buffer it is copied to. -/
theorem readFile_length {r : List UInt8} (h : (fs.readFile p offset size env).1 = .ok r) :
    r.length ≤ size := by
  rcases readFile_result (t := 0) (P := fun _ _ => True) (A := fun _ => True)
      (fun _ => Nat.zero_le _) (fun _ _ => ⟨fun _ _ _ _ _ => trivial, fun _ _ => trivial⟩)
      (fun _ _ _ => trivial) (fun _ _ _ _ _ _ _ => trivial) (fun _ _ => trivial) h with
    ⟨rfl, -⟩ | hres
  · exact Nat.zero_le size
  · exact hres.length_le

end Round

section Rounds

variable {fs : FileSystem L} {p : Path} {offset size : ℕ} {data : List UInt8} {envs : ℕ → Env}

theorem readLoop_full (h : size ≤ data.length) :
    PathFilesystem.readLoop p offset size envs fs data = (.ok data, fs) := by
  rw [PathFilesystem.readLoop, if_neg (Nat.not_lt_of_le h)]

theorem readLoop_error {e : FsModelError} {left : FileSystem L} (h : data.length < size)
    (hr : fs.readFile p (offset + data.length) (size - data.length) (envs data.length) =
      (.error e, left)) :
    PathFilesystem.readLoop p offset size envs fs data = (.error e, left) := by
  rw [PathFilesystem.readLoop, if_pos h, hr]

theorem readLoop_end {left : FileSystem L} (h : data.length < size)
    (hr : fs.readFile p (offset + data.length) (size - data.length) (envs data.length) =
      (.ok [], left)) :
    PathFilesystem.readLoop p offset size envs fs data = (.ok data, left) := by
  rw [PathFilesystem.readLoop, if_pos h, hr]

theorem readLoop_more {bytes : List UInt8} {left : FileSystem L} (hne : bytes ≠ [])
    (h : data.length < size)
    (hr : fs.readFile p (offset + data.length) (size - data.length) (envs data.length) =
      (.ok bytes, left)) :
    PathFilesystem.readLoop p offset size envs fs data =
      PathFilesystem.readLoop p offset size envs left (data ++ bytes) := by
  obtain ⟨b, bs, rfl⟩ := List.exists_cons_of_ne_nil hne
  rw [PathFilesystem.readLoop, if_pos h, hr]

/-- Later rounds add to what has been read. -/
theorem readLoop_adds {r : List UInt8}
    (h : (PathFilesystem.readLoop p offset size envs fs data).1 = .ok r) : data <+: r := by
  fun_induction PathFilesystem.readLoop p offset size envs fs data with
  | case1 => cases h
  | case2 => cases h; exact List.prefix_rfl
  | case3 _ _ _ b bs _ _ ih => exact (List.prefix_append _ _).trans (ih h)
  | case4 => cases h; exact List.prefix_rfl

theorem readLoop_length {r : List UInt8} (hle : data.length ≤ size)
    (h : (PathFilesystem.readLoop p offset size envs fs data).1 = .ok r) : r.length ≤ size := by
  fun_induction PathFilesystem.readLoop p offset size envs fs data with
  | case1 => cases h
  | case2 => cases h; exact hle
  | case3 fs data _ b bs left hr ih =>
    have hlen := readFile_length (congrArg Prod.fst hr)
    refine ih ?_ h
    rw [List.length_append]
    omega
  | case4 => cases h; exact hle

/-- The rounds end with what they have exactly if the range is full or the next brings nothing. -/
theorem readLoop_ends (hdata : data ≠ []) :
    delivered (PathFilesystem.readLoop p offset size envs fs data).1 = data ↔
      size ≤ data.length ∨ (fs.readFile p (offset + data.length) (size - data.length)
        (envs data.length)).1 = .ok [] := by
  by_cases hfull : size ≤ data.length
  · rw [readLoop_full hfull]
    exact iff_of_true rfl (.inl hfull)
  · have hlt := Nat.lt_of_not_le hfull
    rw [or_iff_right hfull]
    obtain ⟨r, hr⟩ : ∃ r, r = fs.readFile p (offset + data.length) (size - data.length)
      (envs data.length) := ⟨_, rfl⟩
    rw [← hr]
    obtain ⟨e | bytes, left⟩ := r
    · rw [readLoop_error hlt hr.symm]
      exact iff_of_false hdata.symm nofun
    · by_cases hbytes : bytes = []
      · subst hbytes
        rw [readLoop_end hlt hr.symm]
        exact iff_of_true rfl rfl
      · rw [readLoop_more hbytes hlt hr.symm]
        refine iff_of_false (fun heq => ?_) fun hok => hbytes (Except.ok.inj hok)
        cases hdone : (PathFilesystem.readLoop p offset size envs left (data ++ bytes)).1 with
        | error e => exact hdata (by rw [← heq, hdone]; rfl)
        | ok r =>
          rw [hdone] at heq
          have hlength := (readLoop_adds hdone).length_le
          have hpos := List.length_pos_iff.mpr hbytes
          rw [show r = data from heq, List.length_append] at hlength
          omega

end Rounds

def Current (fs : FileSystem L) (p : Path) (content : List UInt8) (env : Env) : Prop :=
  fs.remote.nodes p = some (.file content) ∧ ∀ it a, entry fs p (env 0).now = some it →
    it.getAttributes = some a → a.size = content.length

/-- Both front ends hand over the same bytes, and with current attributes all that the file has
of the range. -/
structure SameBytes {ε ε' : Type} (fs : FileSystem L) (p : Path) (offset size : ℕ) (env : Env)
    (windows : Except ε (List UInt8)) (unix : Except ε' (List UInt8)) : Prop where
  same : delivered windows = delivered unix
  whole : ∀ content, Current fs p content env →
    (∀ bytes, windows = .ok bytes → bytes.length = min size (content.length - offset)) ∧
    ∀ bytes, unix = .ok bytes → bytes.length = min size (content.length - offset)

/-- The clock does not go back, within a round or from one to the next. -/
structure Clocks (envs : ℕ → Env) : Prop where
  rounds : ∀ n, Forward (envs n)
  next : ∀ k n, k < n → ∀ i j, (envs k i).now ≤ (envs n j).now

/-- The first place has what the file has of the range, and no more: the pages have each of these
positions but not the end of the file, the read buffer ends where they do, or a request brings as
many bytes. -/
def HasRange (fs : FileSystem L) (p : Path) (offset size : ℕ) (content : List UInt8) (env : Env) :
    Prop :=
  match Place.first fs p offset env with
  | .pages =>
    (∀ x, offset ≤ x → x < min (offset + size) content.length → lookedByte fs p env x ≠ none) ∧
      (content.length < offset + size →
        lookedByte fs p env (max offset content.length) = none)
  | .buffer =>
    min (offset + size) (fs.readBuffer.offset + fs.readBuffer.validUpTo) =
      min (offset + size) content.length
  | .request =>
    (∃ e, requested fs p offset env = .error e) ∨
      min size (content.length - offset) ≤ fs.readBuffer.capacity

/-- The place that has the byte at the offset has the range, or there is nothing more where it
ends. With current attributes it has what the file has of the range. -/
structure OneRound (fs : FileSystem L) (p : Path) (offset size : ℕ) (envs : ℕ → Env) : Prop where
  settled : Ended fs p offset (envs 0) ∨
    let n := run ((Place.first fs p offset (envs 0)).byteAt fs p offset (envs 0)) offset size
    n = 0 ∨ n = size ∨ Over fs p offset size (envs 0) (envs n) (offset + n)
  whole : 0 < size → ∀ content, Current fs p content (envs 0) → Ended fs p offset (envs 0) ∨
    HasRange fs p offset size content (envs 0)

section FrontEnds

variable {fs : FileSystem L} {p : Path} {offset size : ℕ} {envs : ℕ → Env} {env : Env}

theorem ended_current {content : List UInt8} (h : Ended fs p offset env)
    (hc : Current fs p content env) : content.length ≤ offset := by
  obtain ⟨a, ha, hle⟩ := h
  rcases getAttributes_result ha with ⟨it, hit, hita⟩ | hserver
  · rw [← hc.2 it a hit hita]
    exact hle
  · rw [Remote.getAttributes, hc.1] at hserver
    obtain rfl := Option.some.inj hserver
    exact hle

theorem placed_read {buffer : List UInt8} (hsize : size < 2 ^ 32) (hb : buffer.length = size) :
    FileSystemContext.placed (FileSystemContext.read fs p buffer offset env).1 =
      (fs.readFile p offset size env).1 := by
  obtain ⟨r, hr⟩ : ∃ r, r = fs.readFile p offset size env := ⟨_, rfl⟩
  rw [FileSystemContext.read, hb, ← hr]
  obtain ⟨e | bytes, left⟩ := r
  · rfl
  · have hle : bytes.length ≤ size := readFile_length (congrArg Prod.fst hr).symm
    have hn : (UInt32.ofNat bytes.length).toNat = bytes.length :=
      UInt32.toNat_ofNat_of_lt' (hle.trans_lt hsize)
    have htake := take_copyInto (Nat.zero_le buffer.length) bytes
    rw [Nat.zero_add, List.take_zero, List.nil_append] at htake
    refine congrArg Except.ok ?_
    dsimp only
    rw [hn, htake]

section Alike

variable {ε ε' : Type} {windows : Except ε (List UInt8)} {unix : Except ε' (List UInt8)}

theorem sameBytes_mapError {ε'' : Type} {f : ε' → ε''} :
    SameBytes fs p offset size env windows (unix.mapError f) ↔
      SameBytes fs p offset size env windows unix := by
  have hok : ∀ bytes, unix.mapError f = .ok bytes ↔ unix = .ok bytes := by
    intro bytes
    cases unix with
    | error e => exact iff_of_false nofun nofun
    | ok r => exact ⟨fun h => congrArg _ (Except.ok.inj h), fun h => congrArg _ (Except.ok.inj h)⟩
  have hdelivered : delivered (unix.mapError f) = delivered unix := by
    cases unix <;> rfl
  constructor
  · rintro ⟨hsame, hwhole⟩
    rw [hdelivered] at hsame
    exact ⟨hsame, fun content hc => (hwhole content hc).imp_right fun h bytes hb =>
      h bytes ((hok bytes).mpr hb)⟩
  · rintro ⟨hsame, hwhole⟩
    rw [← hdelivered] at hsame
    exact ⟨hsame, fun content hc => (hwhole content hc).imp_right fun h bytes hb =>
      h bytes ((hok bytes).mp hb)⟩

theorem sameBytes_nothing (hw : delivered windows = []) (hu : delivered unix = [])
    (h : ∀ content, Current fs p content env → (∃ bytes, windows = .ok bytes) ∨
      (∃ bytes, unix = .ok bytes) → min size (content.length - offset) = 0) :
    SameBytes fs p offset size env windows unix := by
  refine ⟨hw.trans hu.symm, fun content hc => ⟨fun bytes hb => ?_, fun bytes hb => ?_⟩⟩
  · rw [h content hc (.inl ⟨bytes, hb⟩), ← List.length_nil, ← hw, hb]
    rfl
  · rw [h content hc (.inr ⟨bytes, hb⟩), ← List.length_nil, ← hu, hb]
    rfl

end Alike

theorem sameBytes_bytes {bytes : List UInt8} {left : FileSystem L} (hbytes : bytes ≠ [])
    (hread : fs.readFile p offset size (envs 0) = (.ok bytes, left)) :
    SameBytes fs p offset size (envs 0) (fs.readFile p offset size (envs 0)).1
        (PathFilesystem.readLoop p offset size envs fs []).1 ↔
      (bytes.length = size ∨ NothingLeft left p (offset + bytes.length) (envs bytes.length)) ∧
        ∀ content, Current fs p content (envs 0) →
          bytes.length = min size (content.length - offset) := by
  have hle : bytes.length ≤ size := readFile_length (congrArg Prod.fst hread)
  have hpos := List.length_pos_iff.mpr hbytes
  have hloop : PathFilesystem.readLoop p offset size envs fs [] =
      PathFilesystem.readLoop p offset size envs left bytes :=
    readLoop_more hbytes (hpos.trans_le hle) hread
  have hends : delivered (PathFilesystem.readLoop p offset size envs left bytes).1 = bytes ↔
      bytes.length = size ∨ NothingLeft left p (offset + bytes.length) (envs bytes.length) := by
    rw [readLoop_ends hbytes]
    by_cases hfull : bytes.length = size
    · exact iff_of_true (.inl hfull.ge) (.inl hfull)
    · rw [or_iff_right hfull, or_iff_right fun h => hfull (hle.antisymm h),
        readFile_nil_iff (by omega)]
  rw [hloop, hread, ← hends]
  constructor
  · rintro ⟨hsame, hwhole⟩
    exact ⟨hsame.symm, fun content hc => (hwhole content hc).1 bytes rfl⟩
  · rintro ⟨hsame, hwhole⟩
    refine ⟨hsame.symm, fun content hc => ⟨fun r hr => ?_, fun r hr => ?_⟩⟩
    · rw [← Except.ok.inj hr]
      exact hwhole content hc
    · rw [hr] at hsame
      rw [show r = bytes from hsame]
      exact hwhole content hc

section Ranges

variable {content : List UInt8}

theorem run_eq_min_iff {serves : ℕ → Option UInt8} {length : ℕ} (hpos : 0 < size) :
    run serves offset size = min size (length - offset) ↔
      (∀ x, offset ≤ x → x < min (offset + size) length → serves x ≠ none) ∧
        (length < offset + size → serves (max offset length) = none) := by
  constructor
  · intro hrun
    refine ⟨fun x hle hlt => ?_, fun hlt => ?_⟩
    · have hinside : x - offset < run serves offset size := by omega
      have hsome := run_isSome hinside
      rw [Nat.add_sub_cancel' hle] at hsome
      exact Option.isSome_iff_ne_none.mp hsome
    · have hshort : run serves offset size < size := by omega
      have hstop := run_stop hshort
      rw [hrun] at hstop
      rwa [show max offset length = offset + min size (length - offset) by omega]
  · rintro ⟨hserved, hstop⟩
    refine run_eq (Nat.min_le_left _ _) (fun i hi => ?_) fun hlt => ?_
    · exact Option.isSome_iff_ne_none.mpr (hserved (offset + i) (Nat.le_add_right _ _) (by omega))
    · rw [show offset + min size (length - offset) = max offset length by omega]
      exact hstop (by omega)

theorem buffered_run (h : (bufferedByte fs p env offset).isSome) :
    run (bufferedByte fs p env) offset size =
      min size (fs.readBuffer.offset + fs.readBuffer.validUpTo - offset) := by
  have hcapacity := fs.readBuffer.validUpTo_le
  have hlength := fs.readBuffer.buffer_length
  have hrun : run (bufferedByte fs p env) offset size =
      (fs.readBuffer.read p offset size (env 4).now).length := buffer_read_run ..
  rw [hrun]
  unfold bufferedByte ReadBuffer.byteAt at h
  split at h
  · rename_i hc
    obtain ⟨hp, ho, hv, ht⟩ := hc
    unfold ReadBuffer.read
    rw [if_neg (by simp only [hp, ne_eq, not_true_eq_false, false_or]; omega)]
    simp only [slice, List.length_take, List.length_drop]
    omega
  · cases h

theorem requested_content {data : List UInt8} (hc : Current fs p content env)
    (h : requested fs p offset env = .ok data) :
    data.length = min fs.readBuffer.capacity (content.length - offset) := by
  have hread := (FileSystem.sent_ok.mp h).2.2
  rw [Remote.readFile, hc.1] at hread
  obtain rfl := Option.some.inj hread
  rw [slice, List.length_take, List.length_drop]

theorem hasRange_iff (hpos : 0 < size) (hc : Current fs p content env) :
    HasRange fs p offset size content env ↔
      ((Place.first fs p offset env).byteAt fs p offset env offset = none ∧
        ∃ e, requested fs p offset env = .error e) ∨
      run ((Place.first fs p offset env).byteAt fs p offset env) offset size =
        min size (content.length - offset) := by
  have hserved : ∀ {serves : ℕ → Option UInt8}, (serves offset).isSome →
      ¬(serves offset = none ∧ ∃ e, requested fs p offset env = .error e) := fun hsome h =>
    Option.not_isSome_iff_eq_none.mpr h.1 hsome
  unfold HasRange
  by_cases hpages : (lookedByte fs p env offset).isSome
  · have hfirst : Place.first fs p offset env = .pages := if_pos hpages
    rw [hfirst]
    exact (run_eq_min_iff hpos).symm.trans (or_iff_right (hserved hpages)).symm
  · by_cases hbuffer : (bufferedByte fs p env offset).isSome
    · have hfirst : Place.first fs p offset env = .buffer := by
        rw [Place.first, if_neg hpages, if_pos hbuffer]
      have hinside : offset < fs.readBuffer.offset + fs.readBuffer.validUpTo := by
        unfold bufferedByte ReadBuffer.byteAt at hbuffer
        split at hbuffer
        · rename_i h
          exact h.2.2.1
        · cases hbuffer
      rw [hfirst]
      refine Iff.trans ?_ (or_iff_right (hserved hbuffer)).symm
      rw [Place.byteAt, buffered_run hbuffer]
      dsimp only
      omega
    · have hfirst : Place.first fs p offset env = .request := by
        rw [Place.first, if_neg hpages, if_neg hbuffer]
      rw [hfirst, Place.byteAt]
      cases hdata : requested fs p offset env with
      | error e =>
        refine iff_of_true (.inl ⟨e, rfl⟩) (.inl ⟨?_, e, rfl⟩)
        rw [requestedByte, hdata]
      | ok data =>
        have hok : ¬∃ e, (Except.ok data : Except FsModelError (List UInt8)) = .error e := nofun
        rw [requested_read_run size hdata, List.length_take, requested_content hc hdata]
        refine (or_iff_right hok).trans (Iff.trans ?_ (or_iff_right fun h => hok h.2).symm)
        omega

end Ranges

section FirstRound

variable {left : FileSystem L} {bytes : List UInt8} (hclock : Clocks envs)

include hclock

theorem one_round_bytes (hpos : 0 < size) (hended : ¬Ended fs p offset (envs 0))
    (hbytes : bytes ≠ []) (hread : fs.readFile p offset size (envs 0) = (.ok bytes, left))
    (hrun : bytes.length = run (place fs p offset (envs 0)) offset size) :
    SameBytes fs p offset size (envs 0) (fs.readFile p offset size (envs 0)).1
        (PathFilesystem.readLoop p offset size envs fs []).1 ↔
      OneRound fs p offset size envs := by
  have hlength : 0 < bytes.length := List.length_pos_iff.mpr hbytes
  rw [place_eq (hclock.rounds 0)] at hrun
  have hserved := (run_pos hpos).mp (hrun ▸ hlength)
  have hsecond : bytes.length < size → (NothingLeft left p (offset + bytes.length)
      (envs bytes.length) ↔ Over fs p offset size (envs 0) (envs bytes.length)
        (offset + bytes.length)) := by
    intro hlt
    have hiff := second_round_nothing_iff (hclock.rounds 0) (hclock.next 0 _ hlength) hpos hended
      (hclock.rounds bytes.length) hrun.symm hlength hlt
    rwa [hread] at hiff
  have hwhole : ∀ content, Current fs p content (envs 0) →
      (bytes.length = min size (content.length - offset) ↔
        Ended fs p offset (envs 0) ∨ HasRange fs p offset size content (envs 0)) := by
    intro content hc
    rw [or_iff_right hended, hasRange_iff hpos hc, or_iff_right, hrun]
    exact fun h => Option.not_isSome_iff_eq_none.mpr h.1 hserved
  have hle : bytes.length ≤ size := readFile_length (congrArg Prod.fst hread)
  rw [sameBytes_bytes hbytes hread]
  constructor
  · rintro ⟨hsettled, hall⟩
    refine ⟨.inr (.inr ?_), fun _ content hc => (hwhole content hc).mp (hall content hc)⟩
    rw [← hrun]
    rcases Nat.lt_or_eq_of_le hle with hlt | hfull
    · exact hsettled.imp_right (hsecond hlt).mp
    · exact .inl hfull
  · rintro ⟨hsettled, hall⟩
    refine ⟨?_, fun content hc => (hwhole content hc).mpr (hall hpos content hc)⟩
    rw [or_iff_right hended, ← hrun] at hsettled
    rcases hsettled with hzero | hfull | hover
    · exact (hlength.ne' hzero).elim
    · exact .inl hfull
    · rcases Nat.lt_or_eq_of_le hle with hlt | hfull
      · exact .inr ((hsecond hlt).mpr hover)
      · exact .inl hfull

theorem one_round_nothing (hpos : 0 < size) (hended : ¬Ended fs p offset (envs 0))
    (hnone : place fs p offset (envs 0) offset = none)
    (hread : fs.readFile p offset size (envs 0) =
      ((requested fs p offset (envs 0)).map fun _ => [], left)) :
    SameBytes fs p offset size (envs 0) (fs.readFile p offset size (envs 0)).1
        (PathFilesystem.readLoop p offset size envs fs []).1 ↔
      OneRound fs p offset size envs := by
  rw [place_eq (hclock.rounds 0)] at hnone
  have hrun :
      run ((Place.first fs p offset (envs 0)).byteAt fs p offset (envs 0)) offset size = 0 :=
    run_eq_zero hnone
  have hwhole : ∀ content, Current fs p content (envs 0) →
      (HasRange fs p offset size content (envs 0) ↔
        (∃ e, requested fs p offset (envs 0) = .error e) ∨
          0 = min size (content.length - offset)) := by
    intro content hc
    rw [hasRange_iff hpos hc, and_iff_right hnone, hrun]
  rw [hread]
  cases hrequested : requested fs p offset (envs 0) with
  | error e =>
    rw [hrequested] at hread
    have hloop : PathFilesystem.readLoop p offset size envs fs [] = (.error e, left) :=
      readLoop_error hpos hread
    rw [hloop]
    refine iff_of_true (sameBytes_nothing rfl rfl fun _ _ h => ?_)
      ⟨.inr (.inl hrun), fun _ content hc =>
        .inr ((hwhole content hc).mpr (.inl ⟨e, hrequested⟩))⟩
    rcases h with ⟨bytes, h⟩ | ⟨bytes, h⟩ <;> cases h
  | ok data =>
    rw [hrequested] at hread
    have hloop : PathFilesystem.readLoop p offset size envs fs [] = (.ok [], left) :=
      readLoop_end hpos hread
    rw [hloop]
    constructor
    · rintro ⟨-, hall⟩
      refine ⟨.inr (.inl hrun), fun _ content hc => .inr ((hwhole content hc).mpr (.inr ?_))⟩
      exact (hall content hc).1 [] rfl
    · rintro ⟨-, hall⟩
      refine sameBytes_nothing rfl rfl fun content hc _ => ?_
      rcases (hwhole content hc).mp ((hall hpos content hc).resolve_left hended) with ⟨e, h⟩ | h
      · cases hrequested.symm.trans h
      · exact h.symm

end FirstRound

/-- The two reads for the states in which one round brings all that there is, and no others. -/
theorem one_round_iff (hclock : Clocks envs) : SameBytes fs p offset size (envs 0)
      (fs.readFile p offset size (envs 0)).1 (PathFilesystem.readLoop p offset size envs fs []).1 ↔
    OneRound fs p offset size envs := by
  rcases Nat.eq_zero_or_pos size with rfl | hpos
  · refine iff_of_true (sameBytes_nothing ?_ ?_ fun _ _ _ => Nat.zero_min _)
      ⟨.inr (.inl rfl), fun h => (Nat.lt_irrefl 0 h).elim⟩
    · cases hr : (fs.readFile p offset 0 (envs 0)).1 with
      | error e => rfl
      | ok bytes => exact List.length_eq_zero_iff.mp (Nat.le_zero.mp (readFile_length hr))
    · rw [readLoop_full (Nat.zero_le _)]
      rfl
  by_cases hended : Ended fs p offset (envs 0)
  · have hread : fs.readFile p offset size (envs 0) = (.ok [], _) :=
      Prod.ext (readFile_ended size hended) rfl
    have hloop : PathFilesystem.readLoop p offset size envs fs [] = (.ok [], _) :=
      readLoop_end hpos hread
    rw [hread, hloop]
    refine iff_of_true (sameBytes_nothing rfl rfl fun content hc _ => ?_)
      ⟨.inl hended, fun _ _ _ => .inl hended⟩
    have := ended_current hended hc
    omega
  · rcases readFile_brings hpos hended with ⟨bytes, hbytes, hok, hrun⟩ | ⟨hnone, hnothing⟩
    · exact one_round_bytes hclock hpos hended hbytes (Prod.ext hok rfl) hrun
    · exact one_round_nothing hclock hpos hended hnone (Prod.ext hnothing rfl)

theorem read_rounds {fileHandlers : ℕ → Option Path} {path : Option Path} {fh : ℕ}
    {size : UInt32} (hp : PathFilesystem.filePath fileHandlers path fh = .ok p) :
    (PathFilesystem.read fs fileHandlers path fh offset size envs).1 =
      (PathFilesystem.readLoop p offset size.toNat envs fs []).1.mapError .fsModel := by
  rw [PathFilesystem.read, hp]

/-- Where the two front ends read alike: where one round is enough. -/
theorem front_ends_read_alike_iff (fs : FileSystem L) (fileHandlers : ℕ → Option Path)
    (path : Option Path) (fh offset : ℕ) (size : UInt32) (buffer : List UInt8) (envs : ℕ → Env)
    (p : Path) (hp : PathFilesystem.filePath fileHandlers path fh = .ok p)
    (hb : buffer.length = size.toNat) (hclock : Clocks envs) :
    SameBytes fs p offset size.toNat (envs 0)
        (FileSystemContext.placed (FileSystemContext.read fs p buffer offset (envs 0)).1)
        (PathFilesystem.read fs fileHandlers path fh offset size envs).1 ↔
      OneRound fs p offset size.toNat envs := by
  rw [read_rounds hp, placed_read size.toNat_lt hb, sameBytes_mapError]
  exact one_round_iff hclock

def reader (capacity : ℕ) : FileSystem ⟨4, 4, by decide⟩ :=
  let p : Path := [.rootDir, .normal (.text "f")]
  .new { Remote.withFiles [p] with
    nodes := Nodes.write (fun _ => none) p 0 [1, 2, 3, 4, 5, 6, 7, 8] } capacity 0 none

/-- The read buffer has the first half of a range. -/
theorem windows_reads_less :
    let p : Path := [.rootDir, .normal (.text "f")]
    let env := Env.steady 0 none
    let fs := ((reader 4).readFile p 0 4 env).2
    let windows := FileSystemContext.placed (FileSystemContext.read fs p [0, 0, 0, 0] 2 env).1
    let unix := (PathFilesystem.read fs (fun _ => none) (some p) 0 2 4 fun _ => env).1
    windows = .ok [3, 4] ∧ unix = .ok [3, 4, 5, 6] ∧
      ¬SameBytes fs p 2 4 env windows unix := by
  intro p env fs windows unix
  have hwindows : windows = .ok [3, 4] := by decide
  have hfirst : (fs.readFile p 2 4 env).1 = .ok [3, 4] := by decide
  have hsecond : ((fs.readFile p 2 4 env).2.readFile p 4 2 env).1 = .ok [5, 6] := by decide
  generalize hleft : (fs.readFile p 2 4 env).2 = left at hsecond
  have hrounds : PathFilesystem.readLoop p 2 4 (fun _ => env) fs [] =
      PathFilesystem.readLoop p 2 4 (fun _ => env) left [3, 4] :=
    readLoop_more (by decide) (by decide) (Prod.ext hfirst hleft)
  have hloop : PathFilesystem.readLoop p 2 4 (fun _ => env) left [3, 4] =
      PathFilesystem.readLoop p 2 4 (fun _ => env) (left.readFile p 4 2 env).2 [3, 4, 5, 6] :=
    readLoop_more (by decide) (by decide) (Prod.ext hsecond rfl)
  have hunix : unix = .ok [3, 4, 5, 6] := by
    refine (read_rounds rfl).trans ?_
    rw [show (4 : UInt32).toNat = 4 from rfl, hrounds, hloop, readLoop_full (by decide)]
    rfl
  refine ⟨hwindows, hunix, fun h => ?_⟩
  have hsame := h.same
  rw [hwindows, hunix] at hsame
  revert hsame
  decide

theorem front_ends_read_alike_reader :
    let p : Path := [.rootDir, .normal (.text "f")]
    let env := Env.steady 0 none
    SameBytes (reader 8) p 2 4 env
      (FileSystemContext.placed (FileSystemContext.read (reader 8) p [0, 0, 0, 0] 2 env).1)
      (PathFilesystem.read (reader 8) (fun _ => none) (some p) 0 2 4 fun _ => env).1 := by
  intro p env
  have hfirst : Place.first (reader 8) p 2 env = .request := by decide
  have hrun : run ((Place.first (reader 8) p 2 env).byteAt (reader 8) p 2 env) 2 4 = 4 := by decide
  refine (front_ends_read_alike_iff (reader 8) (fun _ => none) (some p) 0 2 4 [0, 0, 0, 0]
    (fun _ => env) p rfl rfl ⟨fun _ => monotone_const, fun _ _ _ _ _ => le_rfl⟩).mpr
    ⟨.inr (.inr (.inl hrun)), fun _ content hc => .inr ?_⟩
  have hcontent : (reader 8).remote.nodes p = some (.file [1, 2, 3, 4, 5, 6, 7, 8]) := by decide
  cases hcontent.symm.trans hc.1
  rw [HasRange, hfirst]
  exact .inr (by decide)

end FrontEnds

end ClientFrontEnds
