import RemoteFs.FileBytes
import RemoteFs.OsPaths

/-! # The shared read buffer

One range of one path, filled by the last request and served for a tenth of a second. -/
namespace ClientReadBuffer

open FileBytes
open OsPaths

structure ReadBuffer where
  path : Path
  offset : ℕ
  validUpTo : ℕ
  filledAt : ℕ
  buffer : List UInt8
  capacity : ℕ
  buffer_length : buffer.length = capacity
  validUpTo_le : validUpTo ≤ capacity

namespace ReadBuffer

/-- Milliseconds. -/
def ttl : ℕ := 100

def new (capacity now : ℕ) : ReadBuffer where
  path := []
  offset := 0
  validUpTo := 0
  filledAt := now
  buffer := List.replicate capacity 0
  capacity := capacity
  buffer_length := List.length_replicate
  validUpTo_le := Nat.zero_le _

theorem fill_fits (b : ReadBuffer) (data : List UInt8) :
    0 + (data.take (min data.length b.capacity)).length ≤ b.buffer.length := by
  rw [List.length_take, b.buffer_length]
  omega

def fill (b : ReadBuffer) (path : Path) (offset : ℕ) (data : List UInt8) (now : ℕ) :
    ReadBuffer :=
  let toCopy := min data.length b.capacity
  { b with
    path := path
    offset := offset
    validUpTo := toCopy
    filledAt := now
    buffer := copyInto b.buffer 0 (data.take toCopy)
    buffer_length := by rw [length_copyInto (b.fill_fits data), b.buffer_length]
    validUpTo_le := Nat.min_le_right _ _ }

def read (b : ReadBuffer) (path : Path) (offset len now : ℕ) : List UInt8 :=
  if path ≠ b.path ∨ offset < b.offset ∨ b.offset + b.validUpTo ≤ offset ∨
      b.filledAt + ttl < now then []
  else
    let realOffset := offset - b.offset
    let realEnd := min (realOffset + len) b.validUpTo
    slice b.buffer realOffset (realEnd - realOffset)

def byteAt (b : ReadBuffer) (now : ℕ) (path : Path) (p : ℕ) : Option UInt8 :=
  if path = b.path ∧ b.offset ≤ p ∧ p < b.offset + b.validUpTo ∧ now ≤ b.filledAt + ttl then
    b.buffer[p - b.offset]?
  else none

variable {b : ReadBuffer} {path q : Path} {offset len now later p i : ℕ}
variable {data : List UInt8} {byte : UInt8}

theorem read_getElem? (h : (b.read path offset len now)[i]? = some byte) :
    b.byteAt now path (offset + i) = some byte ∧ i < len := by
  unfold read at h
  split at h
  · cases h
  · rename_i hc
    simp only [not_or, not_not] at hc
    obtain ⟨hp, ho, hv, ht⟩ := hc
    rw [getElem?_slice] at h
    split at h
    · rename_i hi
      rw [byteAt, if_pos ⟨hp, by omega, by omega, by omega⟩]
      refine ⟨?_, by omega⟩
      rw [← h]
      congr 1
      omega
    · cases h

theorem read_stop (h : (b.read path offset len now).length < len) :
    b.byteAt now path (offset + (b.read path offset len now).length) = none := by
  have hcapacity := b.validUpTo_le
  have hbuffer := b.buffer_length
  rw [byteAt, if_neg]
  rintro ⟨hp, ho, hv, ht⟩
  unfold read at h ho hv
  split at h
  · rename_i hc
    rw [if_pos hc, List.length_nil] at ho hv
    rcases hc with hc | hc | hc | hc
    · exact hc hp
    all_goals omega
  · rename_i hc
    rw [if_neg hc] at ho hv
    simp only [not_or, not_not] at hc
    simp only [slice, List.length_take, List.length_drop] at h ho hv
    omega

/-- Behind a position that it lacks the buffer has nothing, if it has one before. -/
theorem byteAt_beyond {q x : ℕ} (hb : b.byteAt now path p = some byte)
    (hnone : b.byteAt now path q = none) (hpq : p ≤ q) (hqx : q ≤ x) :
    b.byteAt later path x = none := by
  have hcapacity := b.validUpTo_le
  have hbuffer := b.buffer_length
  unfold byteAt at hb hnone ⊢
  split at hb
  · rename_i hc
    have hend : b.offset + b.validUpTo ≤ q := by
      by_contra hlt
      rw [if_pos ⟨hc.1, by omega, by omega, hc.2.2.2⟩,
        List.getElem?_eq_getElem (by omega)] at hnone
      cases hnone
    exact if_neg fun hx => by omega
  · cases hb

theorem byteAt_later (h : now ≤ later) (hb : b.byteAt later path p = some byte) :
    b.byteAt now path p = some byte := by
  unfold byteAt at hb ⊢
  split at hb
  · rename_i hc
    rw [if_pos ⟨hc.1, hc.2.1, hc.2.2.1, by omega⟩]
    exact hb
  · cases hb

theorem byteAt_new {capacity filledAt : ℕ} :
    (ReadBuffer.new capacity filledAt).byteAt now path p = none := by
  unfold byteAt
  rw [if_neg]
  rintro ⟨-, ho, hv, -⟩
  exact Nat.not_lt_of_le ho hv

theorem byteAt_expired (h : b.filledAt + ttl < now) : b.byteAt now path p = none := by
  unfold byteAt
  rw [if_neg]
  rintro ⟨-, -, -, ht⟩
  exact Nat.not_lt_of_le ht h

theorem byteAt_fill (h : (b.fill path offset data now).byteAt later q p = some byte) :
    q = path ∧ offset ≤ p ∧ data[p - offset]? = some byte := by
  unfold byteAt at h
  split at h
  · rename_i hc
    obtain ⟨hq, ho, hv, -⟩ := hc
    simp only [fill] at ho hv h
    rw [getElem?_copyInto (show 0 ≤ b.buffer.length by omega), if_neg (by omega), Nat.zero_add,
      Nat.sub_zero, List.length_take, if_pos (by omega), List.getElem?_take_of_lt (by omega)] at h
    exact ⟨hq, ho, h⟩
  · cases h

theorem byteAt_fill_end (h : offset + data.length ≤ p) :
    (b.fill path offset data now).byteAt later q p = none := by
  by_contra hsome
  obtain ⟨byte, hb⟩ := Option.ne_none_iff_exists'.mp hsome
  obtain ⟨-, -, hlast⟩ := byteAt_fill hb
  have hinside := (List.getElem?_eq_some_iff.mp hlast).1
  omega

theorem byteAt_fill_recent (h : (b.fill path offset data now).byteAt later q p = some byte) :
    later ≤ now + ttl := by
  unfold byteAt at h
  split at h
  · rename_i hc
    exact hc.2.2.2
  · cases h

end ReadBuffer

end ClientReadBuffer
