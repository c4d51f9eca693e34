import RemoteFs.OsPaths
import RemoteFs.WriteLog

/-! # The shared write buffer

One buffer serves all files. It holds one contiguous range of one path; the blocks of
`write_file` and `flush_write_buffer` that run under its lock are modelled here. -/
namespace ClientWriteBuffer

open FileBytes
open OsPaths
open WriteLog

abbrev Chunk := Write Path UInt8

structure WriteBuffer where
  path : Path
  offset : ℕ
  validUpTo : ℕ
  buffer : List UInt8
  capacity : ℕ
  buffer_length : buffer.length = capacity
  validUpTo_le : validUpTo ≤ capacity

namespace WriteBuffer

theorem length_zeros (capacity : ℕ) : (List.replicate capacity (0 : UInt8)).length = capacity :=
  List.length_replicate

def new (capacity : ℕ) : WriteBuffer where
  path := []
  offset := 0
  validUpTo := 0
  buffer := List.replicate capacity 0
  capacity := capacity
  buffer_length := length_zeros capacity
  validUpTo_le := Nat.zero_le _

def isAppending (b : WriteBuffer) (path : Path) (offset : ℕ) : Bool :=
  b.path = path && b.offset + b.validUpTo = offset

def isFull (b : WriteBuffer) : Bool := b.capacity ≤ b.validUpTo

def clean (b : WriteBuffer) : WriteBuffer :=
  { b with path := [], offset := 0, validUpTo := 0, validUpTo_le := Nat.zero_le _ }

def content (b : WriteBuffer) : List UInt8 := b.buffer.take b.validUpTo

def getContent (b : WriteBuffer) : Chunk := ⟨b.path, b.offset, b.content⟩

theorem copy_fits {f : List UInt8} {start room : ℕ} (data : List UInt8)
    (h : start + room ≤ f.length) :
    start + (data.take (min data.length room)).length ≤ f.length := by
  rw [List.length_take]; omega

/-- Appends to the held range, or starts a new one; as much is taken as fits. -/
def write (b : WriteBuffer) (path : Path) (offset : ℕ) (data : List UInt8) :
    ℕ × WriteBuffer :=
  if b.isAppending path offset then
    let available := b.capacity - b.validUpTo
    let toCopy := min data.length available
    (toCopy, { b with
      validUpTo := b.validUpTo + toCopy
      buffer := copyInto b.buffer b.validUpTo (data.take toCopy)
      buffer_length := by
        have := b.buffer_length
        have := b.validUpTo_le
        rw [length_copyInto (copy_fits data (by omega)), b.buffer_length]
      validUpTo_le := by have := b.validUpTo_le; omega })
  else
    let toCopy := min data.length b.capacity
    (toCopy, { b with
      path := path
      offset := offset
      validUpTo := toCopy
      buffer := copyInto b.buffer 0 (data.take toCopy)
      buffer_length := by
        have := b.buffer_length
        rw [length_copyInto (copy_fits data (by omega)), b.buffer_length]
      validUpTo_le := Nat.min_le_right _ _ })

/-- The first half of the block in `write_file`: a write elsewhere evicts what is held. -/
def evict (b : WriteBuffer) (path : Path) (offset : ℕ) : List Chunk × WriteBuffer :=
  if b.isAppending path offset then ([], b)
  else (if b.content = [] then [] else [b.getContent], b.clean)

/-- The second half: a full buffer is handed over at once. -/
def drainFull (b : WriteBuffer) : List Chunk × WriteBuffer :=
  if b.isFull then ([b.getContent], b.clean) else ([], b)

/-- What one call takes out of the buffer, what it accepts, and what it leaves. -/
structure Staged where
  uploads : List Chunk
  written : ℕ
  buffer : WriteBuffer

def stageWrite (b : WriteBuffer) (path : Path) (offset : ℕ) (data : List UInt8) : Staged :=
  let evicted := b.evict path offset
  let written := evicted.2.write path offset data
  let drained := written.2.drainFull
  ⟨evicted.1 ++ drained.1, written.1, drained.2⟩

def stageFlush (b : WriteBuffer) : Option Chunk × WriteBuffer :=
  if b.content = [] then (none, b) else (some b.getContent, b.clean)

/-- Between calls the buffer always has room for a byte. -/
def HasRoom (b : WriteBuffer) : Prop := b.validUpTo < b.capacity

theorem length_content (b : WriteBuffer) : b.content.length = b.validUpTo := by
  have := b.buffer_length
  have := b.validUpTo_le
  rw [content, List.length_take]
  omega

theorem isAppending_iff {b : WriteBuffer} {path : Path} {offset : ℕ} :
    b.isAppending path offset = true ↔ b.path = path ∧ b.offset + b.validUpTo = offset := by
  simp [isAppending]

@[simp] theorem content_clean (b : WriteBuffer) : b.clean.content = [] := by
  simp [content, clean]

@[simp] theorem capacity_clean (b : WriteBuffer) : b.clean.capacity = b.capacity := rfl

theorem clean_hasRoom {b : WriteBuffer} (h : 0 < b.capacity) : b.clean.HasRoom := h

theorem write_count_le (b : WriteBuffer) (path : Path) (offset : ℕ) (data : List UInt8) :
    (b.write path offset data).1 ≤ data.length := by
  unfold write
  split <;> exact Nat.min_le_left _ _

theorem write_count_pos {b : WriteBuffer} (hb : b.HasRoom) (path : Path) (offset : ℕ)
    {data : List UInt8} (hd : data ≠ []) : 1 ≤ (b.write path offset data).1 := by
  have hlen : 0 < data.length := List.length_pos_of_ne_nil hd
  unfold HasRoom at hb
  unfold write
  split
  · dsimp only; omega
  · dsimp only; omega

@[simp] theorem write_capacity (b : WriteBuffer) (path : Path) (offset : ℕ)
    (data : List UInt8) : (b.write path offset data).2.capacity = b.capacity := by
  unfold write
  split <;> rfl

/-- Whatever is accepted ends up behind the held bytes, if the write appends. -/
theorem write_appending {b : WriteBuffer} {path : Path} {offset : ℕ} {data : List UInt8}
    (h : b.isAppending path offset = true) :
    (b.write path offset data).2.getContent =
      ⟨b.path, b.offset, b.content ++ data.take (b.write path offset data).1⟩ := by
  have hlen := b.buffer_length
  have hle := b.validUpTo_le
  have hc : b.validUpTo + min data.length (b.capacity - b.validUpTo) =
      b.validUpTo + (data.take (min data.length (b.capacity - b.validUpTo))).length := by
    rw [List.length_take]; omega
  simp only [write, h, ↓reduceIte, getContent, content]
  congr 1
  rw [hc]
  exact take_copyInto (by omega) _

/-- A write into an emptied buffer holds exactly what it accepted, at its own place. -/
theorem write_clean (b : WriteBuffer) (path : Path) (offset : ℕ) (data : List UInt8) :
    (b.clean.write path offset data).2.getContent =
      ⟨path, offset, data.take (b.clean.write path offset data).1⟩ := by
  by_cases h : b.clean.isAppending path offset = true
  · rw [write_appending h]
    obtain ⟨hp, ho⟩ := isAppending_iff.mp h
    simp only [content_clean, List.nil_append, hp]
    congr 1
  · have hc : min data.length b.clean.capacity =
        0 + (data.take (min data.length b.clean.capacity)).length := by
      rw [List.length_take]; omega
    simp only [write, h, Bool.false_eq_true, ↓reduceIte, getContent, content]
    congr 1
    rw [hc]
    simpa using take_copyInto (Nat.zero_le b.clean.buffer.length)
      (data.take (min data.length b.clean.capacity))

section Refinement

variable {σ : Type*} (S : Store σ Path UInt8)

def view (b : WriteBuffer) (s : σ) : σ := S.apply s b.getContent

@[simp] theorem view_clean (b : WriteBuffer) (s : σ) : b.clean.view S s = s := by
  simp [view, getContent]

theorem view_of_empty {b : WriteBuffer} (h : b.content = []) (s : σ) : b.view S s = s := by
  simp [view, getContent, h]

theorem evict_view (b : WriteBuffer) (path : Path) (offset : ℕ) (s : σ) :
    (b.evict path offset).2.view S (S.applyAll s (b.evict path offset).1) = b.view S s := by
  unfold evict
  split
  · rfl
  · split
    · rename_i h
      rw [view_clean, view_of_empty S h, applyAll_nil]
    · rw [view_clean]; rfl

theorem drainFull_view (b : WriteBuffer) (s : σ) :
    b.drainFull.2.view S (S.applyAll s b.drainFull.1) = b.view S s := by
  unfold drainFull
  split
  · rw [view_clean]; rfl
  · rfl

theorem evict_write_view (b : WriteBuffer) (path : Path) (offset : ℕ) (data : List UInt8)
    (s : σ) :
    ((b.evict path offset).2.write path offset data).2.view S s =
      S.apply ((b.evict path offset).2.view S s)
        ⟨path, offset, data.take ((b.evict path offset).2.write path offset data).1⟩ := by
  unfold evict
  by_cases h : b.isAppending path offset = true
  · obtain ⟨hp, ho⟩ := isAppending_iff.mp h
    have hfuse := apply_fuse S s b.path b.offset b.content
      (data.take (b.write path offset data).1)
    simp only [h, ↓reduceIte, view]
    rw [write_appending h, ← hfuse, length_content, ho, hp]
    simp only [getContent, hp]
  · simp only [h, Bool.false_eq_true, ↓reduceIte]
    rw [view_clean, view, write_clean]

/-- Sending what a call takes out and what it leaves equals sending the held bytes and
then the accepted ones: the step of the refinement. -/
theorem stageWrite_view (b : WriteBuffer) (path : Path) (offset : ℕ) (data : List UInt8)
    (s : σ) :
    (b.stageWrite path offset data).buffer.view S
        (S.applyAll s (b.stageWrite path offset data).uploads) =
      S.apply (b.view S s)
        ⟨path, offset, data.take (b.stageWrite path offset data).written⟩ := by
  simp only [stageWrite, applyAll_append]
  rw [drainFull_view, evict_write_view, evict_view]

theorem stageFlush_view (b : WriteBuffer) (s : σ) :
    S.applyAll s b.stageFlush.1.toList = b.view S s := by
  unfold stageFlush
  split
  · rename_i h
    rw [view_of_empty S h]; rfl
  · rfl

end Refinement

theorem stageFlush_content (b : WriteBuffer) : b.stageFlush.2.content = [] := by
  unfold stageFlush
  split
  · assumption
  · exact content_clean b

@[simp] theorem stageFlush_capacity (b : WriteBuffer) :
    b.stageFlush.2.capacity = b.capacity := by
  unfold stageFlush
  split <;> rfl

theorem stageFlush_hasRoom {b : WriteBuffer} (h : b.HasRoom) : b.stageFlush.2.HasRoom := by
  have hp : 0 < b.capacity := Nat.lt_of_le_of_lt (Nat.zero_le _) h
  unfold stageFlush
  split
  · exact h
  · exact clean_hasRoom hp

theorem evict_hasRoom {b : WriteBuffer} (h : b.HasRoom) (path : Path) (offset : ℕ) :
    (b.evict path offset).2.HasRoom := by
  have hp : 0 < b.capacity := Nat.lt_of_le_of_lt (Nat.zero_le _) h
  unfold evict
  split
  · exact h
  · exact clean_hasRoom hp

@[simp] theorem evict_capacity (b : WriteBuffer) (path : Path) (offset : ℕ) :
    (b.evict path offset).2.capacity = b.capacity := by
  unfold evict
  split <;> rfl

@[simp] theorem drainFull_capacity (b : WriteBuffer) :
    b.drainFull.2.capacity = b.capacity := by
  unfold drainFull
  split <;> rfl

theorem drainFull_hasRoom {b : WriteBuffer} (h : 0 < b.capacity) : b.drainFull.2.HasRoom := by
  unfold drainFull isFull
  split
  · exact clean_hasRoom h
  · rename_i hf
    simpa [HasRoom] using hf

theorem stageWrite_hasRoom {b : WriteBuffer} (h : b.HasRoom) (path : Path) (offset : ℕ)
    (data : List UInt8) : (b.stageWrite path offset data).buffer.HasRoom := by
  have hp : 0 < b.capacity := Nat.lt_of_le_of_lt (Nat.zero_le _) h
  exact drainFull_hasRoom (by simpa using hp)

theorem evict_nonempty {b : WriteBuffer} {path : Path} {offset : ℕ} {w : Chunk}
    (h : w ∈ (b.evict path offset).1) : w.data ≠ [] := by
  unfold evict at h
  split at h
  · cases h
  · split at h
    · cases h
    · rename_i hc
      obtain rfl := List.mem_singleton.mp h
      exact hc

theorem drainFull_nonempty {b : WriteBuffer} (hp : 0 < b.capacity) {w : Chunk}
    (h : w ∈ b.drainFull.1) : w.data ≠ [] := by
  unfold drainFull isFull at h
  split at h
  · rename_i hf
    obtain rfl := List.mem_singleton.mp h
    apply List.ne_nil_of_length_pos
    simp only [decide_eq_true_eq] at hf
    have := b.length_content
    simp only [getContent]
    omega
  · cases h

theorem stageFlush_nonempty {b : WriteBuffer} {w : Chunk} (h : w ∈ b.stageFlush.1.toList) :
    w.data ≠ [] := by
  unfold stageFlush at h
  split at h
  · cases h
  · rename_i hc
    obtain rfl := List.mem_singleton.mp h
    exact hc

theorem evict_key {b : WriteBuffer} {path : Path} {offset : ℕ} {w : Chunk}
    (h : w ∈ (b.evict path offset).1) : w.key = b.path ∧ b.content ≠ [] := by
  unfold evict at h
  split at h
  · cases h
  · split at h
    · cases h
    · rename_i hc
      obtain rfl := List.mem_singleton.mp h
      exact ⟨rfl, hc⟩

theorem stageFlush_key {b : WriteBuffer} {w : Chunk} (h : w ∈ b.stageFlush.1.toList) :
    w.key = b.path ∧ b.content ≠ [] := by
  unfold stageFlush at h
  split at h
  · cases h
  · rename_i hc
    obtain rfl := List.mem_singleton.mp h
    exact ⟨rfl, hc⟩

/-- After a write the buffer is about the path of that write. -/
theorem evict_write_path (b : WriteBuffer) (path : Path) (offset : ℕ) (data : List UInt8) :
    ((b.evict path offset).2.write path offset data).2.path = path := by
  unfold evict
  by_cases h : b.isAppending path offset = true
  · have hkey : (b.write path offset data).2.path = b.path :=
      congrArg Write.key (write_appending h)
    simp only [h, ↓reduceIte]
    exact hkey.trans (isAppending_iff.mp h).1
  · simp only [h, Bool.false_eq_true, ↓reduceIte]
    exact congrArg Write.key (write_clean b path offset data)

theorem drainFull_key {b : WriteBuffer} {w : Chunk} (h : w ∈ b.drainFull.1) :
    w.key = b.path := by
  unfold drainFull at h
  split at h
  · obtain rfl := List.mem_singleton.mp h; rfl
  · cases h

theorem drainFull_path {b : WriteBuffer} (h : b.drainFull.2.content ≠ []) :
    b.drainFull.2.path = b.path := by
  unfold drainFull at h ⊢
  split
  · rename_i hf
    rw [if_pos hf] at h
    exact (h (content_clean b)).elim
  · rfl

/-- A full buffer that is drained is left empty. -/
theorem drainFull_cases (b : WriteBuffer) :
    (b.drainFull.1.length = 1 ∧ b.drainFull.2.content = []) ∨ b.drainFull = ([], b) := by
  unfold drainFull
  split
  · exact Or.inl ⟨rfl, content_clean b⟩
  · exact Or.inr rfl

/-- A write into an empty buffer and a flush behind it take out what was accepted. -/
theorem stageWrite_flush_of_empty {b : WriteBuffer} (h : b.content = []) (path : Path)
    (offset : ℕ) (data : List UInt8) {w : Chunk}
    (hw : w ∈ (b.stageWrite path offset data).uploads ++
      (b.stageWrite path offset data).buffer.stageFlush.1.toList) :
    w = ⟨path, offset, data.take (b.stageWrite path offset data).written⟩ := by
  have hev : (b.evict path offset).1 = [] := by
    unfold evict
    rw [h]
    split <;> rfl
  have hheld : ((b.evict path offset).2.write path offset data).2.getContent =
      ⟨path, offset, data.take ((b.evict path offset).2.write path offset data).1⟩ := by
    unfold evict
    by_cases ha : b.isAppending path offset = true
    · have hlen := b.length_content
      rw [h, List.length_nil] at hlen
      obtain ⟨hp, ho⟩ := isAppending_iff.mp ha
      rw [if_pos ha, write_appending ha, h, List.nil_append, hp, ← ho, ← hlen, Nat.add_zero]
    · rw [if_neg ha]
      exact write_clean b path offset data
  simp only [stageWrite, drainFull, hev, List.nil_append] at hw ⊢
  rcases List.mem_append.mp hw with hw | hw
  · split at hw
    · exact (List.mem_singleton.mp hw).trans hheld
    · cases hw
  · split at hw
    · exact ((stageFlush_key hw).2 (content_clean _)).elim
    · unfold stageFlush at hw
      split at hw
      · cases hw
      · exact (List.mem_singleton.mp hw).trans hheld

theorem stageWrite_nonempty {b : WriteBuffer} (hp : 0 < b.capacity) {path : Path} {offset : ℕ}
    {data : List UInt8} {w : Chunk} (h : w ∈ (b.stageWrite path offset data).uploads) :
    w.data ≠ [] := by
  rcases List.mem_append.mp h with h | h
  · exact evict_nonempty h
  · exact drainFull_nonempty (by simpa using hp) h

theorem stageWrite_written_le (b : WriteBuffer) (path : Path) (offset : ℕ)
    (data : List UInt8) : (b.stageWrite path offset data).written ≤ data.length :=
  write_count_le _ _ _ _

theorem stageWrite_written_le_capacity (b : WriteBuffer) (path : Path) (offset : ℕ)
    (data : List UInt8) : (b.stageWrite path offset data).written ≤ b.capacity := by
  rw [← b.evict_capacity path offset]
  simp only [stageWrite, write]
  split
  · dsimp only; omega
  · dsimp only; omega

theorem stageWrite_written_pos {b : WriteBuffer} (h : b.HasRoom) (path : Path) (offset : ℕ)
    {data : List UInt8} (hd : data ≠ []) : 1 ≤ (b.stageWrite path offset data).written :=
  write_count_pos (evict_hasRoom h path offset) path offset hd

end WriteBuffer

end ClientWriteBuffer
