import Mathlib.Data.List.Basic
import Mathlib.Tactic.Common

/-! # Positioned writes on finite byte sequences

A file is a finite sequence over an arbitrary alphabet with a distinguished filler.
The laws are stated position by position and lifted to whole sequences by extensionality. -/
namespace FileBytes

variable {α : Type*}

/-- Overwrites from `off` on and fills a gap past the end with `zero`. An empty
write changes nothing, not even the length. -/
def writeAt (zero : α) (f : List α) (off : ℕ) (d : List α) : List α :=
  if d = [] then f
  else f.take off ++ List.replicate (off - f.length) zero ++ d ++ f.drop (off + d.length)

/-- Cuts at `n`, or extends with `zero` up to `n`. -/
def resize (zero : α) (f : List α) (n : ℕ) : List α :=
  f.take n ++ List.replicate (n - f.length) zero

def copyInto (f : List α) (off : ℕ) (d : List α) : List α :=
  f.take off ++ d ++ f.drop (off + d.length)

/-- At most `size` bytes from `off` on, cut at the end of the file. -/
def slice (f : List α) (off size : ℕ) : List α := (f.drop off).take size

@[simp] theorem writeAt_nil (zero : α) (f : List α) (off : ℕ) :
    writeAt zero f off [] = f := by simp [writeAt]

theorem getElem?_writeAt (zero : α) (f : List α) (off : ℕ) {d : List α} (hd : d ≠ [])
    (i : ℕ) : (writeAt zero f off d)[i]? =
      if i < off then some (f[i]?.getD zero)
      else if i < off + d.length then d[i - off]? else f[i]? := by
  have hlen : (f.take off ++ List.replicate (off - f.length) zero).length = off := by
    simp only [List.length_append, List.length_take, List.length_replicate]
    omega
  rw [writeAt, if_neg hd, List.append_assoc]
  by_cases h₁ : i < off
  · rw [if_pos h₁, List.getElem?_append_left (by omega)]
    by_cases hf : i < f.length
    · rw [List.getElem?_append_left (by rw [List.length_take]; omega),
        List.getElem?_take_of_lt h₁, List.getElem?_eq_getElem hf, Option.getD_some]
    · rw [List.getElem?_append_right (by rw [List.length_take]; omega),
        List.getElem?_replicate_of_lt (by rw [List.length_take]; omega),
        List.getElem?_eq_none (by omega), Option.getD_none]
  · rw [if_neg h₁, List.getElem?_append_right (by omega), hlen]
    by_cases h₂ : i < off + d.length
    · rw [if_pos h₂, List.getElem?_append_left (by omega)]
    · rw [if_neg h₂, List.getElem?_append_right (by omega), List.getElem?_drop]
      congr 1
      omega

theorem getElem?_resize (zero : α) (f : List α) (n i : ℕ) :
    (resize zero f n)[i]? = if i < n then some (f[i]?.getD zero) else none := by
  rw [resize]
  by_cases hi : i < n
  · rw [if_pos hi]
    by_cases hf : i < f.length
    · rw [List.getElem?_append_left (by rw [List.length_take]; omega),
        List.getElem?_take_of_lt hi, List.getElem?_eq_getElem hf, Option.getD_some]
    · rw [List.getElem?_append_right (by rw [List.length_take]; omega),
        List.getElem?_replicate_of_lt (by rw [List.length_take]; omega),
        List.getElem?_eq_none (by omega), Option.getD_none]
  · rw [if_neg hi, List.getElem?_eq_none]
    simp only [List.length_append, List.length_take, List.length_replicate]
    omega

theorem getElem?_copyInto {f : List α} {off : ℕ} (h : off ≤ f.length) (d : List α) (i : ℕ) :
    (copyInto f off d)[i]? =
      if i < off then f[i]? else if i < off + d.length then d[i - off]? else f[i]? := by
  have hlen : (f.take off).length = off := by rw [List.length_take]; omega
  rw [copyInto, List.append_assoc]
  by_cases h₁ : i < off
  · rw [if_pos h₁, List.getElem?_append_left (by omega), List.getElem?_take_of_lt h₁]
  · rw [if_neg h₁, List.getElem?_append_right (by omega), hlen]
    by_cases h₂ : i < off + d.length
    · rw [if_pos h₂, List.getElem?_append_left (by omega)]
    · rw [if_neg h₂, List.getElem?_append_right (by omega), List.getElem?_drop]
      congr 1
      omega

theorem length_copyInto {f : List α} {off : ℕ} {d : List α} (h : off + d.length ≤ f.length) :
    (copyInto f off d).length = f.length := by
  simp only [copyInto, List.length_append, List.length_take, List.length_drop]
  omega

theorem take_copyInto {f : List α} {off : ℕ} (h : off ≤ f.length) (d : List α) :
    (copyInto f off d).take (off + d.length) = f.take off ++ d := by
  have hlen : (f.take off ++ d).length = off + d.length := by
    rw [List.length_append, List.length_take]; omega
  rw [copyInto, ← hlen]
  exact List.take_left

theorem getElem?_slice (f : List α) (off size i : ℕ) :
    (slice f off size)[i]? = if i < size then f[off + i]? else none := by
  rw [slice]
  by_cases hi : i < size
  · rw [if_pos hi, List.getElem?_take_of_lt hi, List.getElem?_drop]
  · rw [if_neg hi, List.getElem?_eq_none]
    simp only [List.length_take]
    omega

@[simp] theorem length_resize (zero : α) (f : List α) (n : ℕ) :
    (resize zero f n).length = n := by
  simp only [resize, List.length_append, List.length_take, List.length_replicate]
  omega

theorem length_writeAt (zero : α) (f : List α) (off : ℕ) {d : List α} (hd : d ≠ []) :
    (writeAt zero f off d).length = max f.length (off + d.length) := by
  have hp : 0 < d.length := List.length_pos_of_ne_nil hd
  simp only [writeAt, if_neg hd, List.length_append, List.length_take,
    List.length_replicate, List.length_drop]
  omega

/-- The law a write buffer rests on: contiguous writes may be sent as one. -/
theorem writeAt_append (zero : α) (f : List α) (off : ℕ) (a b : List α) :
    writeAt zero (writeAt zero f off a) (off + a.length) b =
      writeAt zero f off (a ++ b) := by
  by_cases ha : a = []
  · subst ha; simp
  by_cases hb : b = []
  · subst hb; simp
  have hab : a ++ b ≠ [] := by simp [ha]
  apply List.ext_getElem?
  intro i
  simp only [getElem?_writeAt zero _ _ hb, getElem?_writeAt zero _ _ ha,
    getElem?_writeAt zero _ _ hab, List.length_append]
  by_cases h₁ : i < off
  · have h₂ : i < off + a.length := by omega
    simp only [h₁, h₂, ↓reduceIte, Option.getD_some]
  by_cases h₂ : i < off + a.length
  · have h₃ : i < off + (a.length + b.length) := by omega
    have h₄ : i - off < a.length := by omega
    simp only [h₁, h₂, h₃, ↓reduceIte, List.getElem?_append_left h₄]
    rw [List.getElem?_eq_getElem h₄, Option.getD_some]
  by_cases h₃ : i < off + a.length + b.length
  · have h₄ : i < off + (a.length + b.length) := by omega
    simp only [h₁, h₂, h₃, h₄, ↓reduceIte]
    rw [List.getElem?_append_right (by omega)]
    congr 1
    omega
  · have h₄ : ¬ i < off + (a.length + b.length) := by omega
    simp only [h₁, h₂, h₃, h₄, ↓reduceIte]

theorem writeAt_writeAt (zero : α) (f : List α) (off : ℕ) (d : List α) :
    writeAt zero (writeAt zero f off d) off d = writeAt zero f off d := by
  by_cases hd : d = []
  · rw [hd, writeAt_nil, writeAt_nil]
  refine List.ext_getElem? fun i => ?_
  rw [getElem?_writeAt zero _ _ hd, getElem?_writeAt zero _ _ hd]
  split
  · rw [Option.getD_some]
  · split <;> rfl

theorem writeAt_comm (zero : α) (f : List α) {off off' : ℕ} {a b : List α}
    (h : off + a.length ≤ off') :
    writeAt zero (writeAt zero f off a) off' b =
      writeAt zero (writeAt zero f off' b) off a := by
  by_cases ha : a = []
  · subst ha; simp
  by_cases hb : b = []
  · subst hb; simp
  apply List.ext_getElem?
  intro i
  simp only [getElem?_writeAt zero _ _ hb, getElem?_writeAt zero _ _ ha]
  by_cases h₁ : i < off
  · have h₂ : i < off' := by omega
    simp only [h₁, h₂, ↓reduceIte, Option.getD_some]
  by_cases h₂ : i < off + a.length
  · have h₃ : i < off' := by omega
    have h₄ : i - off < a.length := by omega
    simp only [h₁, h₂, h₃, ↓reduceIte]
    rw [List.getElem?_eq_getElem h₄, Option.getD_some]
  · simp only [h₁, h₂, ↓reduceIte]

theorem resize_writeAt (zero : α) (f : List α) {off n : ℕ} {d : List α}
    (h : off + d.length ≤ n) :
    resize zero (writeAt zero f off d) n = writeAt zero (resize zero f n) off d := by
  by_cases hd : d = []
  · subst hd; simp
  apply List.ext_getElem?
  intro i
  simp only [getElem?_resize, getElem?_writeAt zero _ _ hd]
  by_cases h₁ : i < off
  · have h₂ : i < n := by omega
    simp only [h₁, h₂, ↓reduceIte, Option.getD_some]
  by_cases h₂ : i < off + d.length
  · have h₃ : i < n := by omega
    have h₄ : i - off < d.length := by omega
    simp only [h₁, h₂, h₃, ↓reduceIte]
    rw [List.getElem?_eq_getElem h₄, Option.getD_some]
  · simp only [h₁, h₂, ↓reduceIte]

end FileBytes
