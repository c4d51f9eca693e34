import RemoteFs.ClientFrontEnds
import RemoteFs.ClientReadBufferCoherence

/-! # Reading without a cache

Every round of a read takes its bytes from the read buffer or from one request. While the files
of the server stay as they are, whatever the buffer holds of any of them is right at any time. -/
namespace ClientBufferedReads

open ClientAttributes
open ClientCache
open ClientFileSystem
open ClientFrontEnds
open ClientMemory
open ClientPageCache
open ClientReadBuffer
open ClientReadBufferCoherence
open FileBytes
open OsPaths
open RemoteTree

variable {L : PageLimits}

/-- The invariant: no cache, and a buffer that serves only what the server's files hold. -/
structure Faithful (fs : FileSystem L) : Prop where
  cache : fs.cache = none
  capacity : 1 ≤ fs.readBuffer.capacity
  buffer : ∀ now p x v, fs.readBuffer.byteAt now p x = some v → fs.remote.Holds p x v

structure OnServer (r : Remote) (p : Path) (content : List UInt8) : Prop where
  text : p.isUtf8 = true
  file : r.nodes p = some (.file content)

/-- A round brings a part of the range from its front on, and some of it if there is any. -/
structure Brought (content : List UInt8) (offset size : ℕ) (r : List UInt8) : Prop where
  front : r <+: slice content offset size
  progress : r = [] → slice content offset size = []

section Slices

variable {content r : List UInt8} {offset size n : ℕ}

theorem prefix_slice (h : ∀ i b, r[i]? = some b → content[offset + i]? = some b ∧ i < size) :
    r <+: slice content offset size := by
  rw [List.prefix_iff_getElem?]
  intro i hi
  obtain ⟨hb, hlt⟩ := h i r[i] (List.getElem?_eq_getElem hi)
  rw [getElem?_slice, if_pos hlt, hb]

theorem slice_past (h : content.length ≤ offset) : slice content offset size = [] := by
  simp [slice, List.drop_eq_nil_of_le h]

theorem slice_split (h : r <+: slice content offset size) :
    slice content offset size = r ++ slice content (offset + r.length) (size - r.length) := by
  obtain ⟨rest, hrest⟩ := h
  have hdrop : (slice content offset size).drop r.length = rest := by rw [← hrest, List.drop_left]
  rw [slice, slice, ← List.drop_drop, ← List.drop_take, ← slice, hdrop, hrest]

theorem take_slice : (slice content offset n).take size <+: slice content offset size := by
  rw [slice, slice, List.take_take]
  exact List.take_prefix_take_left (Nat.min_le_left _ _)

theorem Brought.past (h : content.length ≤ offset) : Brought content offset size [] :=
  ⟨List.nil_prefix, fun _ => slice_past h⟩

theorem brought_take (h : 1 ≤ n) :
    Brought content offset size ((slice content offset n).take size) := by
  refine ⟨take_slice, fun hnil => ?_⟩
  rcases Nat.eq_zero_or_pos size with rfl | hsize
  · rfl
  · refine slice_past (List.drop_eq_nil_iff.mp ?_)
    simpa [slice, Nat.ne_of_gt h, Nat.ne_of_gt hsize] using hnil

end Slices

section Round

variable {fs : FileSystem L} {p : Path} {content : List UInt8} {offset size : ℕ} {env : Env}

theorem faithful_new (remote : Remote) {capacity : ℕ} (h : 1 ≤ capacity) (now : ℕ) :
    Faithful (FileSystem.new remote capacity now none : FileSystem L) := by
  refine ⟨rfl, h, fun later p x v hb => ?_⟩
  cases hb.symm.trans ReadBuffer.byteAt_new

theorem Faithful.read (h : Faithful fs) (hp : OnServer fs.remote p content) (now : ℕ) :
    fs.readBuffer.read p offset size now <+: slice content offset size := by
  refine prefix_slice fun i b hb => ?_
  obtain ⟨hserved, hlt⟩ := ReadBuffer.read_getElem? hb
  obtain ⟨bytes, hfile, hx⟩ := h.buffer now p _ b hserved
  cases hp.file.symm.trans hfile
  exact ⟨hx, hlt⟩

theorem Faithful.fill (h : Faithful fs) (hp : OnServer fs.remote p content) (offset now : ℕ) :
    Faithful { fs with
      readBuffer :=
        fs.readBuffer.fill p offset (slice content offset fs.readBuffer.capacity) now } := by
  refine ⟨h.cache, h.capacity, fun later q x v hb => ?_⟩
  obtain ⟨rfl, hle, hx⟩ := ReadBuffer.byteAt_fill hb
  refine ⟨content, hp.file, ?_⟩
  rw [getElem?_slice] at hx
  split at hx
  · rwa [Nat.add_sub_cancel' hle] at hx
  · cases hx

def Round (fs : FileSystem L) (content : List UInt8) (offset size : ℕ)
    (done : Except FsModelError (List UInt8) × FileSystem L) : Prop :=
  (∃ r, done.1 = .ok r ∧ Brought content offset size r) ∧
    Faithful done.2 ∧ done.2.remote = fs.remote

theorem readRemote_round (h : Faithful fs) (hp : OnServer fs.remote p content)
    (hreply : (env 0).reply = none) (offset size : ℕ) :
    Round fs content offset size (fs.readRemote p offset size env) := by
  have hsent : (pathToString p >>= fun _ =>
      request (env 0) (fs.remote.readFile p offset fs.readBuffer.capacity)) =
        .ok (slice content offset fs.readBuffer.capacity) := by
    refine FileSystem.sent_ok.mpr ⟨hp.text, hreply, ?_⟩
    simp [Remote.readFile, hp.file]
  have hfilled := h.fill hp offset (env 1).now
  unfold FileSystem.readRemote
  rw [hsent]
  dsimp only
  rw [onCache_none hfilled.cache]
  exact ⟨⟨_, rfl, brought_take h.capacity⟩, hfilled, rfl⟩

theorem readCached_round (h : Faithful fs) (hp : OnServer fs.remote p content)
    (hreply : (env 2).reply = none) (offset size : ℕ) :
    Round fs content offset size (fs.readCached p offset size env) := by
  unfold FileSystem.readCached
  rw [cacheGet_none h.cache]
  simp only [FileSystem.cachedBytes, ne_eq, not_true_eq_false, if_false]
  unfold FileSystem.readBuffered
  dsimp only
  rw [onCache_none h.cache]
  by_cases hdata : fs.readBuffer.read p offset size (env.drop 1 0).now = []
  · simp only [hdata, ne_eq, not_true_eq_false, if_false]
    exact readRemote_round h hp hreply offset size
  · simp only [ne_eq, hdata, not_false_eq_true, if_true]
    exact ⟨⟨_, rfl, h.read hp _, fun hnil => (hdata hnil).elim⟩, h, rfl⟩

theorem readFile_round (h : Faithful fs) (hp : OnServer fs.remote p content)
    (hreply : (env 5).reply = none) (offset size : ℕ) :
    Round fs content offset size (fs.readFile p offset size env) := by
  have hcached : Round fs content offset size (fs.readCached p offset size (env.drop 3)) :=
    readCached_round h hp hreply offset size
  unfold FileSystem.readFile
  dsimp only
  rw [getAttributes_none h.cache]
  cases hattr : (fs.getAttributes p env).1 with
  | error e => exact hcached
  | ok a =>
    dsimp only
    split
    · rename_i hle
      have hsize : a.size = content.length := by
        rcases getAttributes_result hattr with ⟨it, hit, -⟩ | hserver
        · simp [entry, h.cache] at hit
        · rw [Remote.getAttributes, hp.file] at hserver
          cases hserver
          rfl
      exact ⟨⟨[], rfl, .past (hsize ▸ hle)⟩, h, rfl⟩
    · exact hcached

end Round

/-- A read fails only if `E` holds, and ends otherwise as `J` says. -/
def Ends (E : Prop) (J : List UInt8 → FileSystem L → Prop) :
    Except FsModelError (List UInt8) × FileSystem L → Prop
  | (.ok r, fs) => J r fs
  | (.error _, _) => E

section Rounds

variable {p : Path} {content : List UInt8} {offset size : ℕ} {envs : ℕ → Env}

/-- Rounds that each bring a part from the front on bring the range: `I` holds at the position
that a round goes on from. -/
theorem readLoop_brings {E : Prop} {I : ℕ → FileSystem L → Prop}
    (hround : ∀ n fs, I (offset + n) fs → Ends E
      (fun r left => Brought content (offset + n) (size - n) r ∧ I (offset + n + r.length) left)
      (fs.readFile p (offset + n) (size - n) (envs n)))
    (fs : FileSystem L) (data : List UInt8) (h : I (offset + data.length) fs) :
    Ends E (fun r left => r = data ++ slice content (offset + data.length) (size - data.length) ∧
      ∃ o, I o left) (PathFilesystem.readLoop p offset size envs fs data) := by
  fun_induction PathFilesystem.readLoop p offset size envs fs data with
  | case1 fs data hlt e left hr =>
    have hdone := hround _ _ h
    rwa [hr] at hdone
  | case2 fs data hlt left hr =>
    have hdone := hround _ _ h
    rw [hr] at hdone
    refine ⟨?_, _, hdone.2⟩
    rw [hdone.1.progress rfl, List.append_nil]
  | case3 fs data hlt b bs left hr ih =>
    have hdone := hround _ _ h
    rw [hr] at hdone
    obtain ⟨hbrought, hleft⟩ := hdone
    rw [Nat.add_assoc, ← List.length_append] at hleft
    rw [slice_split hbrought.front, Nat.add_assoc, Nat.sub_sub, ← List.append_assoc,
      ← List.length_append]
    exact ih hleft
  | case4 fs data hfull =>
    have hzero : size - data.length = 0 := by omega
    refine ⟨?_, _, h⟩
    simp [hzero, slice]

theorem readLoop_exact {fs : FileSystem L} (offset size : ℕ) (h : Faithful fs)
    (hp : OnServer fs.remote p content) (hreply : ∀ n, (envs n 5).reply = none) :
    (PathFilesystem.readLoop p offset size envs fs []).1 = .ok (slice content offset size) ∧
      Faithful (PathFilesystem.readLoop p offset size envs fs []).2 ∧
      (PathFilesystem.readLoop p offset size envs fs []).2.remote = fs.remote := by
  have hround : ∀ n (left : FileSystem L), Faithful left ∧ left.remote = fs.remote → Ends False
      (fun r left' => Brought content (offset + n) (size - n) r ∧
        Faithful left' ∧ left'.remote = fs.remote)
      (left.readFile p (offset + n) (size - n) (envs n)) := by
    rintro n left ⟨hleft, hremote⟩
    obtain ⟨⟨r, hr, hbrought⟩, hleft', hremote'⟩ := readFile_round hleft (hremote ▸ hp) (hreply n)
      (offset + n) (size - n)
    have hdone : left.readFile p (offset + n) (size - n) (envs n) =
        (.ok r, (left.readFile p (offset + n) (size - n) (envs n)).2) := Prod.ext hr rfl
    rw [hdone]
    exact ⟨hbrought, hleft', hremote'.trans hremote⟩
  have hends := readLoop_brings (I := fun _ left => Faithful left ∧ left.remote = fs.remote)
    hround fs [] ⟨h, rfl⟩
  generalize PathFilesystem.readLoop p offset size envs fs [] = done at hends ⊢
  obtain ⟨e | r, left⟩ := done
  · exact hends.elim
  · obtain ⟨rfl, -, hleft, hremote⟩ := hends
    exact ⟨rfl, hleft, hremote⟩

end Rounds

structure ReadCall where
  fileHandlers : ℕ → Option Path
  path : Option Path
  fh : ℕ
  offset : ℕ
  size : UInt32
  envs : ℕ → Env

def reads : FileSystem L → List ReadCall → List (Except FuseError (List UInt8))
  | _, [] => []
  | fs, c :: cs =>
    let done := PathFilesystem.read fs c.fileHandlers c.path c.fh c.offset c.size c.envs
    done.1 :: reads done.2 cs

structure Answered (r : Remote) (c : ReadCall) (content : List UInt8) : Prop where
  file : ∃ p, PathFilesystem.filePath c.fileHandlers c.path c.fh = .ok p ∧ OnServer r p content
  reply : ∀ n, (c.envs n 5).reply = none

theorem read_exact {fs : FileSystem L} {c : ReadCall} {content : List UInt8} (h : Faithful fs)
    (hc : Answered fs.remote c content) :
    let done := PathFilesystem.read fs c.fileHandlers c.path c.fh c.offset c.size c.envs
    done.1 = .ok (slice content c.offset c.size.toNat) ∧ Faithful done.2 ∧
      done.2.remote = fs.remote := by
  obtain ⟨p, hp, hserver⟩ := hc.file
  obtain ⟨hok, hleft, hremote⟩ := readLoop_exact c.offset c.size.toNat h hserver hc.reply
  simp only [PathFilesystem.read, hp]
  refine ⟨?_, hleft, hremote⟩
  rw [hok]
  rfl

theorem reads_exact {remote : Remote} (calls : List (ReadCall × List UInt8))
    (hcalls : ∀ c ∈ calls, Answered remote c.1 c.2) : ∀ fs : FileSystem L, Faithful fs →
      fs.remote = remote → reads fs (calls.map Prod.fst) =
        calls.map fun c => .ok (slice c.2 c.1.offset c.1.size.toNat) := by
  induction calls with
  | nil => exact fun _ _ _ => rfl
  | cons c calls ih =>
    intro fs h hremote
    have hc := hcalls c List.mem_cons_self
    obtain ⟨hok, hleft, hsame⟩ := read_exact h (hremote ▸ hc)
    rw [List.map_cons, List.map_cons, reads, hok,
      ih (fun c hc => hcalls c (List.mem_cons_of_mem _ hc)) _ hleft (hsame.trans hremote)]

/-- Reads of any files in any order return what the files have of the ranges. -/
theorem unix_reads_exact (remote : Remote) (capacity now : ℕ) (hcap : 1 ≤ capacity)
    (calls : List (ReadCall × List UInt8))
    (hcalls : ∀ c ∈ calls, Answered remote c.1 c.2) :
    reads (FileSystem.new remote capacity now none : FileSystem L) (calls.map Prod.fst) =
      calls.map fun c => .ok (slice c.2 c.1.offset c.1.size.toNat) :=
  reads_exact calls hcalls _ (faithful_new remote hcap now) rfl

def eightBytes : List UInt8 := [1, 2, 3, 4, 5, 6, 7, 8]
def eightPath : Path := [.rootDir, .normal (.text "f")]

def fiveBytes (offset now : ℕ) : ReadCall :=
  ⟨fun _ => none, some eightPath, 0, offset, 5, fun _ => Env.steady now none⟩

theorem unix_reads_exact_two :
    reads (reader 4) [fiveBytes 1 0, fiveBytes 5 1000] = [.ok [2, 3, 4, 5, 6], .ok [6, 7, 8]] := by
  have hfile : OnServer (reader 4).remote eightPath eightBytes := ⟨by decide, by decide⟩
  exact unix_reads_exact (reader 4).remote 4 0 (by decide)
    [(fiveBytes 1 0, eightBytes), (fiveBytes 5 1000, eightBytes)] (by
      intro c hc
      rcases List.mem_pair.mp hc with rfl | rfl
      · exact ⟨⟨_, rfl, hfile⟩, fun _ => rfl⟩
      · exact ⟨⟨_, rfl, hfile⟩, fun _ => rfl⟩)

end ClientBufferedReads
