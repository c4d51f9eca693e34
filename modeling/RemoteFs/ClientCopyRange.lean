import RemoteFs.ClientCalls
import RemoteFs.ClientReadStages
import RemoteFs.ClientSequentialReads
import RemoteFs.ClientWriteBack

/-! # Copying a range within the mount

The call reads the range in rounds, as `read` does, and hands it to `write_file`, which may take
less. Where the range begins at the front of the destination, its size is set to zero before. -/
namespace ClientCopyRange

open ClientAttributes
open ClientBufferedReads
open ClientCalls
open ClientFileSystem
open ClientFrontEnds
open ClientMemory
open ClientPageCache
open ClientReadBufferCoherence
open ClientReadStages
open ClientRounds
open ClientSequentialReads
open ClientWriteBack
open ClientWriteBuffer
open FileBytes
open OsPaths
open RemoteTree
open WriteLog

variable {L : PageLimits}

/-- The variants of `FuseError` that the call returns. -/
inductive CopyError where
  | invalidFileHandle (fh : ℕ)
  | fsModel (error : FsModelError)
  deriving DecidableEq, Repr

/-- The arguments of the call, and what its rounds, its size change and its write meet. The
flags are left out: every value has some on Unix, and `write_file` has no use for them. -/
structure Copy where
  fileHandlers : ℕ → Option Path
  fromPath : Option Path
  fhIn : ℕ
  offsetIn : ℕ
  toPath : Option Path
  fhOut : ℕ
  offsetOut : ℕ
  length : ℕ
  rounds : ℕ → Env
  resize : Env
  write : Env

namespace PathFilesystem

def handlePath (fileHandlers : ℕ → Option Path) (path : Option Path) (fh : ℕ) :
    Except CopyError Path :=
  match path with
  | some p => .ok p
  | none =>
    match fileHandlers fh with
    | some p => .ok p
    | none => .error (.invalidFileHandle fh)

def clearTarget (fs : FileSystem L) (q : Path) (offsetOut : ℕ) (env : Env) :
    Except FsModelError Unit × FileSystem L :=
  if offsetOut = 0 then
    let done := fs.setAttributes q (SetAttr.ofSize 0) env
    (done.1.map fun _ => (), done.2)
  else (.ok (), fs)

def putCopied (fs : FileSystem L) (q : Path) (c : Copy) (data : List UInt8) :
    Except FsModelError ℕ × FileSystem L :=
  match clearTarget fs q c.offsetOut c.resize with
  | (.error e, fs) => (.error e, fs)
  | (.ok (), fs) => fs.writeFile q c.offsetOut data c.write

def copyBytes (fs : FileSystem L) (p q : Path) (c : Copy) :
    Except FsModelError ℕ × FileSystem L :=
  match ClientFrontEnds.PathFilesystem.readLoop p c.offsetIn c.length c.rounds fs [] with
  | (.error e, fs) => (.error e, fs)
  | (.ok data, fs) => putCopied fs q c data

def copyFileRange (fs : FileSystem L) (c : Copy) : Except CopyError ℕ × FileSystem L :=
  match handlePath c.fileHandlers c.fromPath c.fhIn with
  | .error e => (.error e, fs)
  | .ok p =>
    match handlePath c.fileHandlers c.toPath c.fhOut with
    | .error e => (.error e, fs)
    | .ok q =>
      let done := copyBytes fs p q c
      (done.1.mapError .fsModel, done.2)

end PathFilesystem

/-- The range of the destination has the bytes of the source's range, and the rest of it is as
it was, with zeros where it ended before the range. -/
structure TouchesRange (src dst after : List UInt8) (offsetIn offsetOut n : ℕ) : Prop where
  copied : ∀ i < n, ∃ b, src[offsetIn + i]? = some b ∧ after[offsetOut + i]? = some b
  frame : ∀ x, x < offsetOut ∨ offsetOut + n ≤ x →
    after[x]? = dst[x]?.or (if x < offsetOut ∧ 0 < n then some 0 else none)

section Target

variable {src dst data : List UInt8} {offsetIn offsetOut n : ℕ}

def target (dst : List UInt8) (offsetOut : ℕ) : List UInt8 := if offsetOut = 0 then [] else dst

theorem target_getElem? (x : ℕ) : (target dst offsetOut)[x]? =
    if offsetOut = 0 then none else dst[x]? := by
  unfold target
  split <;> simp

theorem touches_copied (hn : data.length = n) (h : data <+: src.drop offsetIn) :
    ∀ i < n, ∃ b, src[offsetIn + i]? = some b ∧
      (writeAt 0 (target dst offsetOut) offsetOut data)[offsetOut + i]? = some b := by
  intro i hi
  have hi' : i < data.length := hn ▸ hi
  have hdata : data ≠ [] := List.ne_nil_of_length_pos (by omega)
  have hsrc := List.prefix_iff_getElem?.mp h i hi'
  rw [List.getElem?_drop] at hsrc
  refine ⟨data[i], hsrc, ?_⟩
  rw [getElem?_writeAt 0 _ _ hdata, if_neg (by omega), if_pos (by omega),
    Nat.add_sub_cancel_left, List.getElem?_eq_getElem hi']

theorem touchesRange_iff (hn : data.length = n) :
    TouchesRange src dst (writeAt 0 (target dst offsetOut) offsetOut data) offsetIn offsetOut n ↔
      data <+: src.drop offsetIn ∧ (offsetOut ≠ 0 ∨ dst.length ≤ n) := by
  have hrest : ∀ x, x < offsetOut ∨ offsetOut + n ≤ x →
      (writeAt 0 (target dst offsetOut) offsetOut data)[x]? =
        (target dst offsetOut)[x]?.or (if x < offsetOut ∧ 0 < n then some 0 else none) := by
    intro x hx
    by_cases hdata : data = []
    · have hzero : n = 0 := by rw [← hn, hdata, List.length_nil]
      simp [hdata, hzero]
    · have hpos := List.length_pos_of_ne_nil hdata
      rw [getElem?_writeAt 0 _ _ hdata]
      by_cases hlt : x < offsetOut
      · rw [if_pos hlt, if_pos ⟨hlt, by omega⟩]
        cases (target dst offsetOut)[x]? <;> rfl
      · rw [if_neg hlt, if_neg (by omega), if_neg fun h => hlt h.1, Option.or_none]
  constructor
  · intro h
    refine ⟨List.prefix_iff_getElem?.mpr fun i hi => ?_, ?_⟩
    · obtain ⟨b, hb, hafter⟩ := h.copied i (hn ▸ hi)
      rw [getElem?_writeAt 0 _ _ (List.ne_nil_of_length_pos (by omega)), if_neg (by omega),
        if_pos (by omega), Nat.add_sub_cancel_left, List.getElem?_eq_getElem hi] at hafter
      rw [List.getElem?_drop, hb, ← hafter]
    · by_contra hcut
      rw [not_or, not_not, not_le] at hcut
      obtain ⟨rfl, hlt⟩ := hcut
      have hframe := h.frame n (Or.inr (by omega))
      rw [hrest n (Or.inr (by omega)), target_getElem?, List.getElem?_eq_getElem hlt] at hframe
      simp at hframe
  · rintro ⟨hcopied, hkeep⟩
    refine ⟨touches_copied hn hcopied, fun x hx => ?_⟩
    rw [hrest x hx, target_getElem?]
    by_cases hzero : offsetOut = 0
    · have hlen := hkeep.resolve_left (not_not.mpr hzero)
      rw [if_pos hzero, List.getElem?_eq_none (by omega : dst.length ≤ x)]
    · rw [if_neg hzero]

end Target

section Effects

variable {fs : FileSystem L} {p q : Path} {offset size : ℕ} {data base dst : List UInt8} {n : ℕ}
variable {env : Env} {ws : List Chunk}

theorem readFile_frame (fs : FileSystem L) (p : Path) (offset size : ℕ) (env : Env) :
    (fs.readFile p offset size env).2.remote = fs.remote ∧
      (fs.readFile p offset size env).2.writeBuffer = fs.writeBuffer := by
  have hok : ReadOk fs p 0 (fun _ _ => True) (fun _ => True) (fs.readFile p offset size env).2 :=
    readFile_ok (fun _ => Nat.zero_le _)
      (fun _ _ => ⟨fun _ _ => ⟨fun _ _ _ => trivial, fun _ _ _ _ _ => trivial⟩, fun _ _ => trivial⟩)
      (fun _ _ _ => trivial) (fun _ _ _ _ _ _ _ => trivial) fun _ _ => trivial
  exact ⟨hok.remote, hok.writeBuffer⟩

theorem readLoop_frame (p : Path) (offset size : ℕ) (envs : ℕ → Env) (fs : FileSystem L)
    (data : List UInt8) :
    (ClientFrontEnds.PathFilesystem.readLoop p offset size envs fs data).2.remote = fs.remote ∧
      (ClientFrontEnds.PathFilesystem.readLoop p offset size envs fs data).2.writeBuffer =
        fs.writeBuffer := by
  fun_induction ClientFrontEnds.PathFilesystem.readLoop p offset size envs fs data with
  | case1 fs data _ e left hr =>
    have hframe := readFile_frame fs p (offset + data.length) (size - data.length)
      (envs data.length)
    rwa [hr] at hframe
  | case2 fs data _ left hr =>
    have hframe := readFile_frame fs p (offset + data.length) (size - data.length)
      (envs data.length)
    rwa [hr] at hframe
  | case3 fs data _ b bs left hr ih =>
    have hframe := readFile_frame fs p (offset + data.length) (size - data.length)
      (envs data.length)
    rw [hr] at hframe
    exact ⟨ih.1.trans hframe.1, ih.2.trans hframe.2⟩
  | case4 => exact ⟨rfl, rfl⟩

theorem apply_file {t : Nodes} (h : t q = some (.file base)) (offset : ℕ) (data : List UInt8) :
    fileStore.apply t ⟨q, offset, data⟩ =
      Function.update t q (some (.file (writeAt 0 base offset data))) := by
  by_cases hdata : data = []
  · rw [hdata, apply_empty, writeAt_nil, ← h, Function.update_eq_self]
  · have happly := apply_of_ne fileStore t (w := ⟨q, offset, data⟩) hdata
    have hwrite : Nodes.write t q offset data =
        Function.update t q (some (.file (writeAt 0 base offset data))) := by
      rw [Nodes.write, h]
      rfl
    exact happly.trans hwrite

/-- Chunks for a file that is there arrive as they are, empty ones too. -/
theorem uploadAll_target (ws : List Chunk) : ∀ (fs : FileSystem L) (env : Env)
    (base : List UInt8), (∀ w ∈ ws, w.key = q) → fs.remote.nodes q = some (.file base) →
    (fs.uploadAll ws env).1 = .ok () →
      (fs.uploadAll ws env).2.remote.nodes = fileStore.applyAll fs.remote.nodes ws ∧
        ∃ base', (fs.uploadAll ws env).2.remote.nodes q = some (.file base') := by
  induction ws with
  | nil => exact fun _ _ base _ hbase _ => ⟨rfl, base, hbase⟩
  | cons w ws ih =>
    intro fs env base hkeys hbase hok
    obtain ⟨key, offset, data⟩ := w
    obtain rfl : key = q := hkeys _ List.mem_cons_self
    cases hup : (fs.upload ⟨key, offset, data⟩ env).1 with
    | error e =>
      rw [uploadAll_cons_error hup] at hok
      cases hok
    | ok u =>
      rw [uploadAll_cons_ok hup] at hok ⊢
      obtain ⟨hnodes, -⟩ := upload_sent hup
      have happly : (fs.upload ⟨key, offset, data⟩ env).2.remote.nodes =
          fileStore.apply fs.remote.nodes ⟨key, offset, data⟩ := by
        rw [hnodes, apply_file hbase, Nodes.write, hbase]
        rfl
      have hfile : (fs.upload ⟨key, offset, data⟩ env).2.remote.nodes key =
          some (.file (writeAt 0 base offset data)) := by
        rw [happly, apply_file hbase, Function.update_self]
      obtain ⟨hrest, hleft⟩ := ih _ _ _ (fun v hv => hkeys v (List.mem_cons_of_mem _ hv)) hfile hok
      exact ⟨by rw [hrest, happly, applyAll_cons], hleft⟩

theorem stageWrite_written_of_empty {b : WriteBuffer} (h : b.content = []) (q : Path)
    (offset : ℕ) (data : List UInt8) :
    (b.stageWrite q offset data).written = min data.length b.capacity := by
  have hlen := b.length_content
  rw [h, List.length_nil] at hlen
  have hzero : (b.evict q offset).2.validUpTo = 0 := by
    unfold WriteBuffer.evict
    split
    · exact hlen.symm
    · rfl
  simp only [WriteBuffer.stageWrite, WriteBuffer.write]
  split
  · simp [hzero]
  · simp

theorem write_flush {env' : Env} (hempty : fs.writeBuffer.content = [])
    (hbase : fs.remote.nodes q = some (.file base))
    (hwrite : (fs.writeFile q offset data env).1 = .ok n)
    (hflush : ((fs.writeFile q offset data env).2.flushWriteBuffer env').1 = .ok ()) :
    n = min data.length fs.writeBuffer.capacity ∧
      ((fs.writeFile q offset data env).2.flushWriteBuffer env').2.remote.nodes =
        Function.update fs.remote.nodes q (some (.file (writeAt 0 base offset (data.take n)))) := by
  obtain ⟨hn, hsent⟩ := FileSystem.writeFile_ok hwrite
  obtain ⟨b, hb⟩ : ∃ b, b = fs.writeBuffer := ⟨_, rfl⟩
  have hkeys : ∀ w ∈ (b.stageWrite q offset data).uploads ++
      (b.stageWrite q offset data).buffer.stageFlush.1.toList, w.key = q := by
    intro w hw
    rw [WriteBuffer.stageWrite_flush_of_empty (hb ▸ hempty) q offset data hw]
  have hview := WriteBuffer.stageWrite_view fileStore b q offset data fs.remote.nodes
  have hrun : (fs.writeFile q offset data env).2 = ({ fs with
      writeBuffer := (b.stageWrite q offset data).buffer }.uploadAll
        (b.stageWrite q offset data).uploads env).2 := by rw [hb]; rfl
  rw [← hb] at hn hsent
  rw [hrun] at hflush ⊢
  obtain ⟨hnodes, base', hfile⟩ := uploadAll_target _
    { fs with writeBuffer := (b.stageWrite q offset data).buffer } env base
    (fun w hw => hkeys w (List.mem_append_left _ hw)) hbase hsent
  obtain ⟨-, hbuffer⟩ := uploadAll_frame (b.stageWrite q offset data).uploads
    { fs with writeBuffer := (b.stageWrite q offset data).buffer } env
  generalize FileSystem.uploadAll { fs with writeBuffer := (b.stageWrite q offset data).buffer }
    (b.stageWrite q offset data).uploads env = sent at hflush hnodes hfile hbuffer ⊢
  obtain ⟨hlast, -⟩ := uploadAll_target (sent.2.writeBuffer.stageFlush.1.toList)
    { sent.2 with writeBuffer := sent.2.writeBuffer.stageFlush.2 } env' base'
    (fun w hw => hkeys w (List.mem_append_right _ (by rwa [hbuffer] at hw))) hfile hflush
  refine ⟨?_, ?_⟩
  · rw [hn, stageWrite_written_of_empty (hb ▸ hempty), hb]
  · calc (sent.2.flushWriteBuffer env').2.remote.nodes
      _ = fileStore.applyAll sent.2.remote.nodes sent.2.writeBuffer.stageFlush.1.toList := hlast
      _ = (b.stageWrite q offset data).buffer.view fileStore
            (fileStore.applyAll fs.remote.nodes (b.stageWrite q offset data).uploads) := by
          rw [WriteBuffer.stageFlush_view, hbuffer, hnodes]
      _ = fileStore.apply (b.view fileStore fs.remote.nodes) ⟨q, offset, data.take n⟩ := by
          rw [hview, hn]
      _ = _ := by
          rw [WriteBuffer.view_of_empty fileStore (hb ▸ hempty), apply_file hbase]

theorem clearTarget_ok (offsetOut : ℕ) (env : Env) (hdst : fs.remote.nodes q = some (.file dst))
    (h : (PathFilesystem.clearTarget fs q offsetOut env).1 = .ok ()) :
    (PathFilesystem.clearTarget fs q offsetOut env).2.remote.nodes =
        Function.update fs.remote.nodes q (some (.file (target dst offsetOut))) ∧
      (PathFilesystem.clearTarget fs q offsetOut env).2.writeBuffer = fs.writeBuffer := by
  unfold PathFilesystem.clearTarget target at *
  by_cases hzero : offsetOut = 0
  · simp only [if_pos hzero] at h ⊢
    cases hset : (fs.setAttributes q (SetAttr.ofSize 0) env).1 with
    | error e =>
      rw [hset] at h
      cases h
    | ok a =>
      obtain ⟨r, hr, -, hrun⟩ := FileSystem.setAttributes_ok hset
      obtain ⟨hnodes, -⟩ := Remote.setAttributes_size (n := 0) rfl hr
      rw [hrun]
      refine ⟨?_, rfl⟩
      rw [FileSystem.onCache_remote, hnodes, Nodes.setSize, hdst]
      simp [Content.setSize, resize]
  · simp only [if_neg hzero]
    exact ⟨by rw [← hdst, Function.update_eq_self], trivial⟩

/-- After a copy and a flush the destination has what was taken of the bytes that were read. -/
theorem copyBytes_flush {c : Copy} {env' : Env} (hempty : fs.writeBuffer.content = [])
    (hdst : fs.remote.nodes q = some (.file dst))
    (hcopy : (PathFilesystem.copyBytes fs p q c).1 = .ok n)
    (hflush : ((PathFilesystem.copyBytes fs p q c).2.flushWriteBuffer env').1 = .ok ()) :
    ∃ data, (ClientFrontEnds.PathFilesystem.readLoop p c.offsetIn c.length c.rounds fs []).1 =
        .ok data ∧ data.length ≤ c.length ∧ n = min data.length fs.writeBuffer.capacity ∧
      ((PathFilesystem.copyBytes fs p q c).2.flushWriteBuffer env').2.remote.nodes =
        Function.update fs.remote.nodes q
          (some (.file (writeAt 0 (target dst c.offsetOut) c.offsetOut (data.take n)))) := by
  obtain ⟨hremote, hbuffer⟩ := readLoop_frame p c.offsetIn c.length c.rounds fs []
  have hlength : ∀ r, (ClientFrontEnds.PathFilesystem.readLoop p c.offsetIn c.length c.rounds
      fs []).1 = .ok r → r.length ≤ c.length := fun r => readLoop_length (Nat.zero_le _)
  unfold PathFilesystem.copyBytes at hcopy hflush ⊢
  generalize ClientFrontEnds.PathFilesystem.readLoop p c.offsetIn c.length c.rounds fs [] = done
    at *
  obtain ⟨e | data, read⟩ := done
  · cases hcopy
  dsimp only [PathFilesystem.putCopied] at *
  have hclear := clearTarget_ok c.offsetOut c.resize (hremote ▸ hdst)
  generalize PathFilesystem.clearTarget read q c.offsetOut c.resize = cleared at *
  obtain ⟨e | u, cleared⟩ := cleared
  · cases hcopy
  obtain ⟨hnodes, hbuffer'⟩ := hclear rfl
  dsimp only at *
  have htarget : cleared.remote.nodes q = some (.file (target dst c.offsetOut)) := by
    rw [hnodes, Function.update_self]
  obtain ⟨hn, hput⟩ := write_flush (by rw [hbuffer', hbuffer, hempty]) htarget hcopy hflush
  refine ⟨data, rfl, hlength data rfl, by rw [hn, hbuffer', hbuffer], ?_⟩
  rw [hput, hnodes, Function.update_idem, hremote]

end Effects

section Calls

variable {fs : FileSystem L} {c : Copy} {p q : Path} {src dst : List UInt8} {n t : ℕ} {env : Env}

/-- A call for two files, which may be one, with nothing held back. Both buffers have the
capacity that the configuration names. -/
structure Between (fs : FileSystem L) (c : Copy) (p q : Path) (src dst : List UInt8) : Prop where
  from_path : PathFilesystem.handlePath c.fileHandlers c.fromPath c.fhIn = .ok p
  to_path : PathFilesystem.handlePath c.fileHandlers c.toPath c.fhOut = .ok q
  source : fs.remote.nodes p = some (.file src)
  destination : fs.remote.nodes q = some (.file dst)
  empty : fs.writeBuffer.content = []
  capacity : fs.readBuffer.capacity = fs.writeBuffer.capacity

def TouchesOnly (before after : Nodes) (c : Copy) (q : Path) (src dst : List UInt8) (n : ℕ) :
    Prop :=
  n ≤ c.length ∧ ∃ bytes, after = Function.update before q (some (.file bytes)) ∧
    TouchesRange src dst bytes c.offsetIn c.offsetOut n

/-- The read of the source's range. -/
def Copy.reading (c : Copy) (fs : FileSystem L) (p : Path) : Reading L where
  fs := fs
  path := p
  offset := c.offsetIn
  size := c.length
  envs := c.rounds

theorem copyFileRange_run (h : Between fs c p q src dst) :
    PathFilesystem.copyFileRange fs c = ((PathFilesystem.copyBytes fs p q c).1.mapError .fsModel,
      (PathFilesystem.copyBytes fs p q c).2) := by
  simp [PathFilesystem.copyFileRange, h.from_path, h.to_path]

theorem copyBytes_of_copy (h : Between fs c p q src dst)
    (hcopy : (PathFilesystem.copyFileRange fs c).1 = .ok n) :
    (PathFilesystem.copyBytes fs p q c).1 = .ok n := by
  rw [copyFileRange_run h] at hcopy
  cases hrun : (PathFilesystem.copyBytes fs p q c).1 with
  | error e =>
    rw [hrun] at hcopy
    cases hcopy
  | ok m =>
    rw [hrun] at hcopy
    exact congrArg _ (Except.ok.inj hcopy)

theorem touchesOnly_iff {data : List UInt8} {after : Nodes} (src dst : List UInt8)
    (hlen : data.length ≤ c.length)
    (hn : n = min data.length fs.writeBuffer.capacity)
    (hafter : after = Function.update fs.remote.nodes q
      (some (.file (writeAt 0 (target dst c.offsetOut) c.offsetOut (data.take n))))) :
    TouchesOnly fs.remote.nodes after c q src dst n ↔
      data.take fs.writeBuffer.capacity <+: src.drop c.offsetIn ∧
        (c.offsetOut ≠ 0 ∨ dst.length ≤ n) := by
  have htake : data.take fs.writeBuffer.capacity = data.take n := by
    rw [hn, Nat.min_comm, ← List.take_eq_take_min]
  have hlength : (data.take n).length = n := by
    rw [List.length_take]
    omega
  rw [htake, ← touchesRange_iff hlength]
  constructor
  · rintro ⟨-, bytes, hbytes, htouches⟩
    have hsame := congrFun (hafter.symm.trans hbytes) q
    rw [Function.update_self, Function.update_self] at hsame
    cases hsame
    exact htouches
  · exact fun htouches => ⟨by omega, _, hafter, htouches⟩

theorem copy_touches_only_current (hc : Between fs c p q src dst) (hdate : UpToDate fs p t src
    c.offsetIn) (ht : ∀ k i, t ≤ (c.rounds k i).now)
    (hcopy : (PathFilesystem.copyFileRange fs c).1 = .ok n)
    (hflush : ((PathFilesystem.copyFileRange fs c).2.flushWriteBuffer env).1 = .ok ()) :
    TouchesOnly fs.remote.nodes
        ((PathFilesystem.copyFileRange fs c).2.flushWriteBuffer env).2.remote.nodes c q src dst n ↔
      c.offsetOut ≠ 0 ∨
        dst.length ≤ min (min c.length (src.length - c.offsetIn)) fs.writeBuffer.capacity := by
  have hcopied := copyBytes_of_copy hc hcopy
  rw [copyFileRange_run hc] at hflush ⊢
  obtain ⟨data, hdata, hlen, hn, hafter⟩ := copyBytes_flush hc.empty hc.destination hcopied hflush
  rw [touchesOnly_iff src dst hlen hn hafter]
  rcases Nat.eq_zero_or_pos fs.writeBuffer.capacity with hzero | hpos
  · rw [hn, hzero]
    simp
  · have hslice := hdate.reads ht (hc.capacity ▸ hpos) hdata
    have hright : data.take fs.writeBuffer.capacity <+: src.drop c.offsetIn := by
      rw [hslice, slice]
      exact (List.take_prefix _ _).trans (List.take_prefix _ _)
    have hcount : data.length = min c.length (src.length - c.offsetIn) := by
      rw [hslice, slice, List.length_take, List.length_drop]
    rw [and_iff_right hright, hn, hcount]

/-- The copy keeps to its range exactly if the stages of its read take what is the source's, and
the destination was not cut or had nothing behind the range. -/
theorem copy_touches_only_iff (hc : Between fs c p q src dst) (hclock : Clocks c.rounds)
    (hcopy : (PathFilesystem.copyFileRange fs c).1 = .ok n)
    (hflush : ((PathFilesystem.copyFileRange fs c).2.flushWriteBuffer env).1 = .ok ()) :
    TouchesOnly fs.remote.nodes
        ((PathFilesystem.copyFileRange fs c).2.flushWriteBuffer env).2.remote.nodes c q src dst n ↔
      (c.reading fs p).TakesSource src ∧ (c.offsetOut ≠ 0 ∨
        dst.length ≤ min ((c.reading fs p).fourth src).taken fs.readBuffer.capacity) := by
  have hcopied := copyBytes_of_copy hc hcopy
  rw [copyFileRange_run hc] at hflush ⊢
  obtain ⟨data, hdata, hlen, hn, hafter⟩ := copyBytes_flush hc.empty hc.destination hcopied hflush
  have hsource := Reading.loop_source_iff (r := c.reading fs p) hclock hc.source hdata
  have hcount := Reading.loop_count (r := c.reading fs p) hclock hc.source hdata
  rw [← hc.capacity] at hn
  rw [touchesOnly_iff src dst hlen (hc.capacity ▸ hn) hafter, ← hc.capacity, hn]
  refine (and_congr_left fun _ => hsource).trans (and_congr_right fun htakes => ?_)
  exact or_congr_right (iff_of_eq (congrArg (dst.length ≤ ·) (hcount htakes)))

theorem copierPage_pos : 0 < 4 := by decide

def copier : FileSystem ⟨4, 4, copierPage_pos⟩ :=
  .new { Remote.empty 0 0 with
    nodes := Nodes.write (Nodes.write (fun _ => none) [.rootDir, .normal (.text "f")] 0 [1, 2, 3])
      [.rootDir, .normal (.text "g")] 0 [4, 5, 6, 7, 8] } 4 0 none

def copyTwo (offsetOut : ℕ) : Copy where
  fileHandlers _ := none
  fromPath := some [.rootDir, .normal (.text "f")]
  fhIn := 0
  offsetIn := 1
  toPath := some [.rootDir, .normal (.text "g")]
  fhOut := 0
  offsetOut := offsetOut
  length := 2
  rounds _ := .steady 0 none
  resize := .steady 0 none
  write := .steady 0 none

theorem copier_between (offsetOut : ℕ) :
    Between copier (copyTwo offsetOut) [.rootDir, .normal (.text "f")]
      [.rootDir, .normal (.text "g")] [1, 2, 3] [4, 5, 6, 7, 8] :=
  ⟨rfl, rfl, by decide, by decide, by decide, rfl⟩

theorem copier_reads : ClientFrontEnds.PathFilesystem.readLoop [.rootDir, .normal (.text "f")] 1 2
    (fun _ => .steady 0 none) copier [] = (.ok [2, 3],
      (copier.readFile [.rootDir, .normal (.text "f")] 1 2 (.steady 0 none)).2) := by
  have hround : (copier.readFile [.rootDir, .normal (.text "f")] 1 2 (.steady 0 none)).1 =
      .ok [2, 3] := by decide
  rw [readLoop_more (by simp) (by simp) (Prod.ext hround rfl), readLoop_full (by simp)]
  rfl

theorem copier_run (offsetOut : ℕ) :
    PathFilesystem.copyFileRange copier (copyTwo offsetOut) =
      let read := (copier.readFile [.rootDir, .normal (.text "f")] 1 2 (.steady 0 none)).2
      let done := PathFilesystem.putCopied read [.rootDir, .normal (.text "g")]
        (copyTwo offsetOut) [2, 3]
      (done.1.mapError .fsModel, done.2) := by
  rw [copyFileRange_run (copier_between offsetOut), PathFilesystem.copyBytes]
  simp only [copyTwo, copier_reads]

theorem copy_touches_only_two :
    let after := ((PathFilesystem.copyFileRange copier (copyTwo 2)).2.flushWriteBuffer
      (.steady 0 none)).2.remote.nodes
    TouchesOnly copier.remote.nodes after (copyTwo 2) [.rootDir, .normal (.text "g")]
      [1, 2, 3] [4, 5, 6, 7, 8] 2 := by
  have hcopy : (PathFilesystem.copyFileRange copier (copyTwo 2)).1 = .ok 2 := by
    rw [copier_run]
    decide
  have hflush : ((PathFilesystem.copyFileRange copier (copyTwo 2)).2.flushWriteBuffer
      (.steady 0 none)).1 = .ok () := by
    rw [copier_run]
    decide
  obtain ⟨r, hr⟩ : ∃ r, r = (copyTwo 2).reading copier [.rootDir, .normal (.text "f")] := ⟨_, rfl⟩
  have hfirst : r.first.taken = 0 := by
    rw [hr]
    decide
  have hsecond : r.second.taken = 0 := by
    rw [hr]
    decide
  have hthird : r.third.taken = 0 := by
    rw [hr]
    decide
  have hfull : r.ended (r.fourth [1, 2, 3]) = true := by
    rw [hr]
    decide
  have htakes : r.TakesSource [1, 2, 3] :=
    ⟨fun i _ hi => by omega, fun i _ _ hi => by omega, fun i _ _ hi => by omega,
      fun _ => .inl hfull⟩
  exact (copy_touches_only_iff (copier_between 2) ⟨fun _ => monotone_const, fun _ _ _ _ _ => le_rfl⟩
    hcopy hflush).mpr ⟨hr ▸ htakes, .inl (by decide)⟩

/-- Two bytes copied to the front of a file of five leave a file of two. -/
theorem copy_to_front_cuts :
    let done := PathFilesystem.copyFileRange copier (copyTwo 0)
    let flushed := done.2.flushWriteBuffer (.steady 0 none)
    done.1 = .ok 2 ∧ flushed.1 = .ok () ∧
      ¬TouchesOnly copier.remote.nodes flushed.2.remote.nodes (copyTwo 0)
        [.rootDir, .normal (.text "g")] [1, 2, 3] [4, 5, 6, 7, 8] 2 := by
  intro done flushed
  have hcut : flushed.2.remote.nodes [.rootDir, .normal (.text "g")] = some (.file [2, 3]) := by
    simp only [flushed, done, copier_run]
    decide
  refine ⟨?_, ?_, ?_⟩
  · simp only [done, copier_run]
    decide
  · simp only [flushed, done, copier_run]
    decide
  · rintro ⟨-, bytes, hbytes, htouches⟩
    have hframe := htouches.frame 2 (.inr (by decide))
    rw [hbytes, Function.update_self] at hcut
    cases hcut
    revert hframe
    decide

end Calls

end ClientCopyRange
