import RemoteFs.ClientAttributes
import RemoteFs.FileBytes
import RemoteFs.OsPaths
import Mathlib.Data.List.AList

/-! # The page cache of one file

A page records a single interval of valid bytes, widened by every write. Slices that
would leave a page are modelled as panics; a well-formed file never reaches one. -/
namespace ClientPageCache

open ClientAttributes
open FileBytes
open OsPaths

/-- `PAGE_SIZE` and `MAX_PAGES`. `FileSystem::new` divides by the page size. -/
structure PageLimits where
  pageSize : ℕ
  maxPages : ℕ
  pageSize_pos : 0 < pageSize

inductive Panic where
  | sliceOutOfRange
  deriving DecidableEq, Repr

structure HashOrder (α : Type) where
  order : List α → List α
  perm : ∀ l, (order l).Perm l

def HashOrder.id (α : Type) : HashOrder α := ⟨fun l => l, fun _ => List.Perm.refl _⟩

structure FilePage where
  content : List UInt8
  validUpTo : ℕ
  validFrom : ℕ
  deriving DecidableEq, Repr

abbrev Pages := AList (fun _ : ℕ => FilePage)

structure File where
  name : OsString
  attributes : Option Attributes
  content : Pages

variable (L : PageLimits)

namespace FilePage

def new : FilePage := ⟨List.replicate L.pageSize 0, 0, L.pageSize⟩

/-- `copy_from_slice` panics on a target outside the page or of another length. -/
def write (page : FilePage) (data : List UInt8) (offset : ℕ) : Except Panic FilePage :=
  let realEnd := min (offset + data.length) L.pageSize
  if realEnd < offset then .ok page
  else if page.content.length < realEnd ∨ data.length ≠ realEnd - offset then
    .error .sliceOutOfRange
  else .ok
    { content := copyInto page.content offset data
      validUpTo := max page.validUpTo realEnd
      validFrom := min page.validFrom offset }

def read (page : FilePage) (offset size : ℕ) : Except Panic (Option (List UInt8)) :=
  let realEnd := min (min (offset + size) L.pageSize) page.validUpTo
  if offset < page.validFrom then .ok none
  else if realEnd < offset then .ok none
  else if page.content.length < realEnd then .error .sliceOutOfRange
  else .ok (some (slice page.content offset (realEnd - offset)))

def byteAt (page : FilePage) (i : ℕ) : Option UInt8 :=
  if page.validFrom ≤ i ∧ i < page.validUpTo then page.content[i]? else none

end FilePage

namespace File

def new (name : OsString) (attributes : Option Attributes) : File := ⟨name, attributes, ∅⟩

def pageCount (f : File) : ℕ := f.content.keys.length

def entryOrDefault (f : File) (k : ℕ) : FilePage :=
  (AList.lookup k f.content).getD (FilePage.new L)

def insertPage (f : File) (k : ℕ) (page : FilePage) : File :=
  { f with content := AList.insert k page f.content }

/-- The loop of `write_content` with the bytes it leaves when it stops early. Every
round takes at least one byte, so the length of the data is fuel enough. -/
def writeLoop : ℕ → File → List UInt8 → ℕ → Except Panic (File × List UInt8)
  | 0, f, remaining, _ => .ok (f, remaining)
  | fuel + 1, f, remaining, curr =>
    if remaining = [] then .ok (f, remaining)
    else if L.maxPages = 0 then .ok (f, remaining)
    else if L.maxPages ≤ f.pageCount then .ok (f, remaining)
    else
      let pageOffset := curr % L.pageSize
      let toWrite := min remaining.length (L.pageSize - pageOffset)
      match (f.entryOrDefault L (curr / L.pageSize)).write L (remaining.take toWrite)
          pageOffset with
      | .error e => .error e
      | .ok page => writeLoop fuel (f.insertPage (curr / L.pageSize) page)
          (remaining.drop toWrite) (curr + toWrite)

def writeContent (f : File) (offset : ℕ) (data : List UInt8) : Except Panic File :=
  (f.writeLoop L data.length data offset).map Prod.fst

def readLoop (f : File) : ℕ → ℕ → ℕ → List UInt8 → Except Panic (List UInt8)
  | 0, _, _, buffer => .ok buffer
  | fuel + 1, remaining, curr, buffer =>
    if remaining = 0 then .ok buffer
    else match AList.lookup (curr / L.pageSize) f.content with
      | none => .ok buffer
      | some page =>
        let maxRead := min remaining (L.pageSize - curr % L.pageSize)
        match page.read L (curr % L.pageSize) maxRead with
        | .error e => .error e
        | .ok none => .ok buffer
        | .ok (some bytes) =>
          if bytes.length < maxRead then .ok (buffer ++ bytes)
          else readLoop f fuel (remaining - bytes.length) (curr + maxRead) (buffer ++ bytes)

def read (f : File) (offset size : ℕ) : Except Panic (List UInt8) :=
  f.readLoop L size size offset []

def mergeLoop (other : File) : List ℕ → File → Except Panic File
  | [], f => .ok f
  | key :: keys, f =>
    match AList.lookup key other.content with
    | none => mergeLoop other keys f
    | some page =>
      if L.maxPages = 0 then .ok f
      else if L.maxPages ≤ f.pageCount then .ok f
      else if page.validUpTo < page.validFrom ∨ page.content.length < page.validUpTo then
        .error .sliceOutOfRange
      else
        match f.writeContent L (key * L.pageSize + page.validFrom)
            (slice page.content page.validFrom (page.validUpTo - page.validFrom)) with
        | .error e => .error e
        | .ok f => mergeLoop other keys f

def merge (f other : File) (walk : HashOrder ℕ) : Except Panic File :=
  mergeLoop L other (walk.order other.content.keys)
    { f with attributes := if other.attributes.isSome then other.attributes else f.attributes }

def byteAt (f : File) (p : ℕ) : Option UInt8 :=
  (AList.lookup (p / L.pageSize) f.content).bind fun page => page.byteAt (p % L.pageSize)

end File

/-- A page as the code creates it; outside the valid interval it still holds zeros. -/
structure FilePage.Sound (page : FilePage) : Prop where
  length : page.content.length = L.pageSize
  upTo_le : page.validUpTo ≤ L.pageSize
  from_le : page.validFrom ≤ L.pageSize
  zero : ∀ i < L.pageSize, i < page.validFrom ∨ page.validUpTo ≤ i → page.content[i]? = some 0

/-- A page of a file has been written at least once. -/
structure FilePage.WellFormed (page : FilePage) : Prop extends FilePage.Sound L page where
  valid : page.validFrom < page.validUpTo

def File.WellFormed (f : File) : Prop :=
  ∀ k page, AList.lookup k f.content = some page → page.WellFormed L

section Page

variable {L}
variable {page page' : FilePage} {data : List UInt8} {offset i : ℕ}

theorem FilePage.new_sound : (FilePage.new L).Sound L := by
  refine ⟨List.length_replicate, Nat.zero_le _, le_rfl, ?_⟩
  intro i hi _
  exact List.getElem?_replicate_of_lt hi

theorem FilePage.byteAt_new (i : ℕ) : (FilePage.new L).byteAt i = none := by
  simp [byteAt, new]

theorem FilePage.byteAt_valid (h : page.byteAt i ≠ none) :
    page.validFrom ≤ i ∧ i < page.validUpTo := by
  by_contra hn
  exact h (if_neg hn)

theorem FilePage.byteAt_isSome (hs : page.Sound L) (h₁ : page.validFrom ≤ i)
    (h₂ : i < page.validUpTo) : ∃ b, page.byteAt i = some b ∧ page.content[i]? = some b := by
  have hi : i < page.content.length := by
    rw [hs.length]; exact Nat.lt_of_lt_of_le h₂ hs.upTo_le
  refine ⟨page.content[i], ?_, List.getElem?_eq_getElem hi⟩
  rw [byteAt, if_pos ⟨h₁, h₂⟩, List.getElem?_eq_getElem hi]

theorem FilePage.write_room (hlen : page.content.length = L.pageSize)
    (hfit : offset + data.length ≤ L.pageSize) : page.write L data offset = .ok
      { content := copyInto page.content offset data
        validUpTo := max page.validUpTo (offset + data.length)
        validFrom := min page.validFrom offset } := by
  have hmin : min (offset + data.length) L.pageSize = offset + data.length := by omega
  simp only [write, hmin]
  rw [if_neg (by omega), if_neg (by omega)]

/-- A write that fits its page succeeds and stores every byte. -/
theorem FilePage.write_fits (hs : page.Sound L) (hfit : offset + data.length ≤ L.pageSize) :
    page.write L data offset = .ok
      { content := copyInto page.content offset data
        validUpTo := max page.validUpTo (offset + data.length)
        validFrom := min page.validFrom offset } :=
  write_room hs.length hfit

theorem FilePage.write_wellFormed (hs : page.Sound L) (hd : data ≠ [])
    (hfit : offset + data.length ≤ L.pageSize) (hw : page.write L data offset = .ok page') :
    page'.WellFormed L := by
  have hpos : 0 < data.length := List.length_pos_of_ne_nil hd
  have hlen := hs.length
  have hup := hs.upTo_le
  have hfrom := hs.from_le
  rw [write_fits hs hfit] at hw
  injection hw with hw
  subst hw
  constructor
  · constructor
    · dsimp only
      rw [length_copyInto (by omega), hlen]
    · dsimp only; omega
    · dsimp only; omega
    · intro i hi hout
      dsimp only at hout ⊢
      rw [getElem?_copyInto (by omega)]
      by_cases h₁ : i < offset
      · rw [if_pos h₁]
        exact hs.zero i hi (by omega)
      · rw [if_neg h₁, if_neg (by omega)]
        exact hs.zero i hi (by omega)
  · dsimp only; omega

/-- What a page serves after a write: the new bytes in the written range, and elsewhere
whatever the page holds within the widened interval. -/
theorem FilePage.byteAt_write (hs : page.Sound L)
    (hfit : offset + data.length ≤ L.pageSize) (hw : page.write L data offset = .ok page') :
    page'.byteAt i =
      if offset ≤ i ∧ i < offset + data.length then data[i - offset]?
      else if min page.validFrom offset ≤ i ∧ i < max page.validUpTo (offset + data.length)
        then page.content[i]? else none := by
  have hlen := hs.length
  rw [write_fits hs hfit] at hw
  injection hw with hw
  subst hw
  simp only [byteAt]
  by_cases h₁ : offset ≤ i ∧ i < offset + data.length
  · rw [if_pos (by omega), if_pos h₁, getElem?_copyInto (by omega), if_neg (by omega),
      if_pos h₁.2]
  · rw [if_neg h₁]
    congr 1
    rw [getElem?_copyInto (by omega)]
    by_cases h₂ : i < offset
    · rw [if_pos h₂]
    · rw [if_neg h₂, if_neg (by omega)]

def FilePage.Bridged (page : FilePage) (offset len i : ℕ) : Prop :=
  (page.validUpTo ≤ i ∧ i < offset) ∨ (offset + len ≤ i ∧ i < page.validFrom)

theorem FilePage.byteAt_write_inside (hs : page.Sound L)
    (hfit : offset + data.length ≤ L.pageSize) (hw : page.write L data offset = .ok page')
    (h₁ : offset ≤ i) (h₂ : i < offset + data.length) : page'.byteAt i = data[i - offset]? := by
  rw [byteAt_write hs hfit hw, if_pos ⟨h₁, h₂⟩]

theorem FilePage.byteAt_write_kept (hs : page.Sound L)
    (hfit : offset + data.length ≤ L.pageSize) (hw : page.write L data offset = .ok page')
    (hout : ¬(offset ≤ i ∧ i < offset + data.length)) {b : UInt8} (hb : page.byteAt i = some b) :
    page'.byteAt i = some b := by
  have hv : page.validFrom ≤ i ∧ i < page.validUpTo :=
    byteAt_valid (by rw [hb]; exact Option.some_ne_none b)
  rw [byteAt_write hs hfit hw, if_neg hout, if_pos (by omega)]
  rw [byteAt, if_pos hv] at hb
  exact hb

/-- A byte served outside the written range was served before, or it is the zero of a
position that the widened interval bridges. -/
theorem FilePage.byteAt_write_outside (hs : page.Sound L)
    (hfit : offset + data.length ≤ L.pageSize) (hw : page.write L data offset = .ok page')
    (hout : ¬(offset ≤ i ∧ i < offset + data.length)) {b : UInt8}
    (hb : page'.byteAt i = some b) :
    page.byteAt i = some b ∨ b = 0 ∧ page.Bridged offset data.length i := by
  have hup := hs.upTo_le
  have hfrom := hs.from_le
  rw [byteAt_write hs hfit hw, if_neg hout] at hb
  by_cases hh : min page.validFrom offset ≤ i ∧ i < max page.validUpTo (offset + data.length)
  · rw [if_pos hh] at hb
    by_cases hv : page.validFrom ≤ i ∧ i < page.validUpTo
    · left; rw [byteAt, if_pos hv]; exact hb
    · right
      rw [hs.zero i (by omega) (by omega)] at hb
      injection hb with hb
      exact ⟨hb.symm, by unfold Bridged; omega⟩
  · rw [if_neg hh] at hb
    cases hb

theorem FilePage.byteAt_write_new (hfit : offset + data.length ≤ L.pageSize)
    (hw : (FilePage.new L).write L data offset = .ok page')
    (hout : ¬(offset ≤ i ∧ i < offset + data.length)) : page'.byteAt i = none := by
  rw [byteAt_write new_sound hfit hw, if_neg hout, if_neg]
  simp only [new]
  omega

end Page

section Positions

variable {L}
variable {f : File} {k p q : ℕ}

theorem page_step (h : q ≤ p) (hp : p - q < L.pageSize - q % L.pageSize) :
    p / L.pageSize = q / L.pageSize ∧ p % L.pageSize = q % L.pageSize + (p - q) := by
  have hq := Nat.div_add_mod q L.pageSize
  exact (Nat.div_mod_unique L.pageSize_pos).mpr ⟨by omega, by omega⟩

theorem page_order (h : p / L.pageSize = q / L.pageSize) :
    p + q % L.pageSize = q + p % L.pageSize := by
  have hp := Nat.div_add_mod p L.pageSize
  have hq := Nat.div_add_mod q L.pageSize
  rw [h] at hp
  omega

theorem page_of_parts {i : ℕ} (hi : i < L.pageSize) :
    (k * L.pageSize + i) / L.pageSize = k ∧ (k * L.pageSize + i) % L.pageSize = i := by
  refine (Nat.div_mod_unique L.pageSize_pos).mpr ⟨?_, hi⟩
  rw [Nat.mul_comm, Nat.add_comm]

theorem File.byteAt_of_lookup {page : FilePage}
    (h : AList.lookup (p / L.pageSize) f.content = some page) :
    f.byteAt L p = page.byteAt (p % L.pageSize) := by
  simp [byteAt, h]

theorem File.byteAt_of_missing (h : AList.lookup (p / L.pageSize) f.content = none) :
    f.byteAt L p = none := by
  simp [byteAt, h]

theorem File.byteAt_congr {g : File}
    (h : AList.lookup (p / L.pageSize) f.content = AList.lookup (p / L.pageSize) g.content) :
    f.byteAt L p = g.byteAt L p := by
  simp [byteAt, h]

theorem File.lookup_insertPage_self (page : FilePage) :
    AList.lookup k (f.insertPage k page).content = some page := AList.lookup_insert _

theorem File.lookup_insertPage_ne {j : ℕ} (page : FilePage) (h : j ≠ k) :
    AList.lookup j (f.insertPage k page).content = AList.lookup j f.content :=
  AList.lookup_insert_ne h

theorem File.byteAt_insertPage_self (page : FilePage) (h : p / L.pageSize = k) :
    (f.insertPage k page).byteAt L p = page.byteAt (p % L.pageSize) := by
  subst h
  exact byteAt_of_lookup (lookup_insertPage_self page)

theorem File.byteAt_insertPage_ne (page : FilePage) (h : p / L.pageSize ≠ k) :
    (f.insertPage k page).byteAt L p = f.byteAt L p :=
  byteAt_congr (lookup_insertPage_ne page h)

theorem File.insertPage_wellFormed (hf : f.WellFormed L) {page : FilePage}
    (hp : page.WellFormed L) : (f.insertPage k page).WellFormed L := by
  intro j pg hj
  by_cases h : j = k
  · subst h
    rw [lookup_insertPage_self] at hj
    injection hj with hj
    exact hj ▸ hp
  · rw [lookup_insertPage_ne page h] at hj
    exact hf j pg hj

theorem File.entryOrDefault_sound (hf : f.WellFormed L) :
    (f.entryOrDefault L k).Sound L := by
  unfold entryOrDefault
  cases h : AList.lookup k f.content with
  | none => exact FilePage.new_sound
  | some page => exact (hf k page h).toSound

theorem File.byteAt_entryOrDefault (p : ℕ) :
    (f.entryOrDefault L (p / L.pageSize)).byteAt (p % L.pageSize) = f.byteAt L p := by
  unfold entryOrDefault byteAt
  cases h : AList.lookup (p / L.pageSize) f.content with
  | none => exact FilePage.byteAt_new _
  | some page => rfl

theorem File.new_wellFormed (name : OsString) (attributes : Option Attributes) :
    (File.new name attributes).WellFormed L := by
  intro k page h
  simp [new] at h

@[simp] theorem File.byteAt_new (name : OsString) (attributes : Option Attributes) :
    (File.new name attributes).byteAt L p = none := by
  simp [new, byteAt]

end Positions

end ClientPageCache
