import RemoteFs.ClientPageCache
import Mathlib.Data.Finset.Card
import Mathlib.Order.Interval.Finset.Nat
import Mathlib.Order.Interval.Finset.SuccPred

/-! # What the loops of the page cache do

One specification for each loop, position by position: `write_content` stores a prefix
of its data and stops only at the page limit, `read` returns the served bytes up to the
first position that is not served, and `merge` writes whole pages in any order. -/
namespace ClientPageCacheLoops

open ClientPageCache
open FileBytes
open OsPaths

variable {L : PageLimits}

/-- The position lies in a cached page, outside the written range, and between that
range and the page's valid interval. -/
def Bridged (L : PageLimits) (f : File) (off len p : ℕ) : Prop :=
  0 < len ∧ ∃ page, AList.lookup (p / L.pageSize) f.content = some page ∧
    ((page.validUpTo ≤ p % L.pageSize ∧ p < off ∧ p / L.pageSize = off / L.pageSize) ∨
      (p % L.pageSize < page.validFrom ∧ off + len ≤ p ∧
        p / L.pageSize = (off + len - 1) / L.pageSize))

structure Stored (L : PageLimits) (f : File) (off : ℕ) (d : List UInt8) (f' : File) :
    Prop where
  inside : ∀ p, off ≤ p → p < off + d.length → f'.byteAt L p = d[p - off]?
  kept : ∀ p b, p < off ∨ off + d.length ≤ p → f.byteAt L p = some b →
    f'.byteAt L p = some b
  origin : ∀ p b, p < off ∨ off + d.length ≤ p → f'.byteAt L p = some b →
    f.byteAt L p = some b ∨ b = 0 ∧ Bridged L f off d.length p

def pages (f : File) : Finset ℕ := f.content.keys.toFinset

/-- The pages there are when a write from `off` on comes to the page of `p`. -/
def pagesBefore (L : PageLimits) (f : File) (off p : ℕ) : Finset ℕ :=
  pages f ∪ Finset.Ico (off / L.pageSize) (p / L.pageSize)

theorem card_pages (f : File) : (pages f).card = f.pageCount :=
  List.toFinset_card_of_nodup f.content.keys_nodup

theorem pages_insertPage (f : File) (k : ℕ) (page : FilePage) :
    pages (f.insertPage k page) = insert k (pages f) := by
  ext j
  simp only [pages, File.insertPage, List.mem_toFinset, Finset.mem_insert, ← AList.mem_keys,
    AList.mem_insert]

theorem stored_nil (f : File) (off : ℕ) : Stored L f off [] f := by
  refine ⟨?_, fun _ _ _ h => h, fun _ _ _ h => Or.inl h⟩
  intro p h₁ h₂
  simp only [List.length_nil] at h₂
  omega

theorem Stored.nil_byteAt {f f' : File} {off : ℕ} (h : Stored L f off [] f') (p : ℕ) :
    f'.byteAt L p = f.byteAt L p := by
  have hout : p < off ∨ off + ([] : List UInt8).length ≤ p := by
    rw [List.length_nil]; omega
  cases hf : f.byteAt L p with
  | some b => exact h.kept p b hout hf
  | none =>
    cases hf' : f'.byteAt L p with
    | none => rfl
    | some b =>
      rcases h.origin p b hout hf' with hb | ⟨_, hlen, _⟩
      · rw [hf] at hb; cases hb
      · rw [List.length_nil] at hlen; omega

theorem Stored.congr {f f₁ f₂ : File} {off : ℕ} {d : List UInt8} (h : Stored L f off d f₁)
    (he : ∀ p, f₂.byteAt L p = f₁.byteAt L p) : Stored L f off d f₂ := by
  refine ⟨?_, ?_, ?_⟩
  · intro p h₁ h₂; rw [he]; exact h.inside p h₁ h₂
  · intro p b hp hb; rw [he]; exact h.kept p b hp hb
  · intro p b hp hb; rw [he] at hb; exact h.origin p b hp hb

/-- One page written at its place within the file. -/
theorem stored_page {f : File} (hf : f.WellFormed L) {off : ℕ} {d : List UInt8}
    (hd : d ≠ []) (hfit : off % L.pageSize + d.length ≤ L.pageSize) :
    ∃ page, (f.entryOrDefault L (off / L.pageSize)).write L d (off % L.pageSize) = .ok page ∧
      (f.insertPage (off / L.pageSize) page).WellFormed L ∧
      Stored L f off d (f.insertPage (off / L.pageSize) page) := by
  have hs := File.entryOrDefault_sound (k := off / L.pageSize) hf
  have hw := FilePage.write_fits hs hfit
  have hpos : 0 < d.length := List.length_pos_of_ne_nil hd
  refine ⟨_, hw, File.insertPage_wellFormed hf (FilePage.write_wellFormed hs hd hfit hw),
    ?_, ?_, ?_⟩
  · intro p h₁ h₂
    obtain ⟨hk, ho⟩ := page_step (L := L) h₁ (by omega)
    rw [File.byteAt_insertPage_self _ hk, FilePage.byteAt_write_inside hs hfit hw
      (by omega) (by omega)]
    congr 1
    omega
  · intro p b hout hb
    by_cases hk : p / L.pageSize = off / L.pageSize
    · have hord := page_order hk
      rw [File.byteAt_insertPage_self _ hk]
      refine FilePage.byteAt_write_kept hs hfit hw (by omega) ?_
      rw [← hk, File.byteAt_entryOrDefault]
      exact hb
    · rw [File.byteAt_insertPage_ne _ hk]
      exact hb
  · intro p b hout hb
    by_cases hk : p / L.pageSize = off / L.pageSize
    · have hord := page_order hk
      rw [File.byteAt_insertPage_self _ hk] at hb
      cases hpage : AList.lookup (off / L.pageSize) f.content with
      | none =>
        have hnew : f.entryOrDefault L (off / L.pageSize) = FilePage.new L := by
          rw [File.entryOrDefault, hpage, Option.getD_none]
        rw [hnew] at hb hw
        rw [FilePage.byteAt_write_new hfit hw (by omega)] at hb
        cases hb
      | some page =>
        have hold : f.entryOrDefault L (off / L.pageSize) = page := by
          rw [File.entryOrDefault, hpage, Option.getD_some]
        rcases FilePage.byteAt_write_outside hs hfit hw (by omega) hb with h | ⟨h0, h⟩
        · left
          rw [← hk, File.byteAt_entryOrDefault] at h
          exact h
        · rw [hold] at h
          refine Or.inr ⟨h0, hpos, page, hk ▸ hpage, ?_⟩
          have hlast := page_step (L := L) (q := off) (p := off + d.length - 1) (by omega)
            (by omega)
          rcases h with ⟨h₁, h₂⟩ | ⟨h₁, h₂⟩
          · exact Or.inl ⟨h₁, by omega, hk⟩
          · exact Or.inr ⟨h₂, by omega, hk.trans hlast.1.symm⟩
    · left
      rw [File.byteAt_insertPage_ne _ hk] at hb
      exact hb

/-- A piece that ends at a page boundary, followed by the next piece. -/
theorem Stored.append {f f₁ f₂ : File} {off : ℕ} {d₁ d₂ : List UInt8}
    (h₁ : Stored L f off d₁ f₁) (h₂ : Stored L f₁ (off + d₁.length) d₂ f₂)
    (hd₁ : d₁ ≠ []) (hd₂ : d₂ ≠ [])
    (hk : ∀ k, k ≠ off / L.pageSize → AList.lookup k f₁.content = AList.lookup k f.content)
    (hb : off + d₁.length = L.pageSize * (off / L.pageSize + 1)) :
    Stored L f off (d₁ ++ d₂) f₂ := by
  have hlen₁ : 0 < d₁.length := List.length_pos_of_ne_nil hd₁
  have hlen₂ : 0 < d₂.length := List.length_pos_of_ne_nil hd₂
  have hstart : ∀ p, p / L.pageSize = off / L.pageSize + 1 → off + d₁.length ≤ p := by
    intro p hp
    have hm := Nat.div_add_mod p L.pageSize
    rw [hp] at hm
    omega
  refine ⟨?_, ?_, ?_⟩
  · intro p hp₁ hp₂
    rw [List.length_append] at hp₂
    by_cases hp : p < off + d₁.length
    · have hlt : p - off < d₁.length := by omega
      have hin := h₁.inside p hp₁ hp
      rw [List.getElem?_append_left hlt]
      rw [List.getElem?_eq_getElem hlt] at hin ⊢
      exact h₂.kept p _ (Or.inl hp) hin
    · rw [List.getElem?_append_right (by omega), h₂.inside p (by omega) (by omega)]
      congr 1
      omega
  · intro p b hp hpb
    rw [List.length_append] at hp
    exact h₂.kept p b (by omega) (h₁.kept p b (by omega) hpb)
  · intro p b hp hpb
    rw [List.length_append] at hp ⊢
    rcases h₂.origin p b (by omega) hpb with h | ⟨h0, _, page, hl, h⟩
    · rcases h₁.origin p b (by omega) h with h | ⟨h0, _, page, hl, h⟩
      · exact Or.inl h
      · refine Or.inr ⟨h0, by omega, page, hl, ?_⟩
        rcases h with h | ⟨_, h₄, h₅⟩
        · exact Or.inl h
        · have hlast : (off + d₁.length - 1) / L.pageSize < off / L.pageSize + 1 := by
            rw [Nat.div_lt_iff_lt_mul L.pageSize_pos, Nat.mul_comm]
            omega
          have hp' : off / L.pageSize + 1 ≤ p / L.pageSize := by
            rw [Nat.le_div_iff_mul_le L.pageSize_pos, Nat.mul_comm]
            omega
          omega
    · refine Or.inr ⟨h0, ?_⟩
      rcases h with ⟨_, h₄, h₅⟩ | ⟨h₃, h₄, h₅⟩
      · rw [hb, Nat.mul_div_cancel_left _ L.pageSize_pos] at h₅
        have := hstart p h₅
        omega
      · have hlast : off / L.pageSize + 1 ≤ (off + d₁.length + d₂.length - 1) / L.pageSize := by
          rw [Nat.le_div_iff_mul_le L.pageSize_pos, Nat.mul_comm]
          omega
        rw [hk _ (by omega)] at hl
        refine ⟨by omega, page, hl, Or.inr ⟨h₃, by omega, ?_⟩⟩
        rw [h₅]
        congr 1
        omega

/-- What `write_content` does: it stores a prefix of the data, and a position is stored
exactly when the pages cached or written before it leave room under the limit. -/
structure WriteSpec (L : PageLimits) (f : File) (off : ℕ) (data stored : List UInt8)
    (f' : File) : Prop where
  wellFormed : f'.WellFormed L
  stores : Stored L f off stored f'
  room : ∀ p, off ≤ p → p < off + data.length →
    (p < off + stored.length ↔ (pagesBefore L f off p).card < L.maxPages)
  name : f'.name = f.name
  attributes : f'.attributes = f.attributes

theorem pagesBefore_insertPage {f : File} {page : FilePage} {off n p : ℕ}
    (hb : off + n = L.pageSize * (off / L.pageSize + 1)) (hp : off + n ≤ p) :
    pagesBefore L (f.insertPage (off / L.pageSize) page) (off + n) p =
      pagesBefore L f off p := by
  have hp' : off / L.pageSize + 1 ≤ p / L.pageSize := by
    rw [Nat.le_div_iff_mul_le L.pageSize_pos, Nat.mul_comm]
    omega
  rw [pagesBefore, pagesBefore, pages_insertPage, hb, Nat.mul_div_cancel_left _ L.pageSize_pos]
  ext j
  simp only [Finset.mem_union, Finset.mem_insert, Finset.mem_Ico]
  constructor
  · rintro ((rfl | h) | h)
    · exact Or.inr (by omega)
    · exact Or.inl h
    · exact Or.inr (by omega)
  · rintro (h | h)
    · exact Or.inl (Or.inr h)
    · by_cases hj : j = off / L.pageSize
      · exact Or.inl (Or.inl hj)
      · exact Or.inr (by omega)

theorem pageCount_le_pagesBefore (f : File) (off p : ℕ) :
    f.pageCount ≤ (pagesBefore L f off p).card := by
  rw [← card_pages]
  exact Finset.card_le_card Finset.subset_union_left

theorem writeSpec_stop {f : File} (hf : f.WellFormed L) {off : ℕ} {data : List UInt8}
    (h : data = [] ∨ L.maxPages ≤ f.pageCount) : WriteSpec L f off data [] f := by
  refine ⟨hf, stored_nil f off, ?_, rfl, rfl⟩
  intro p h₁ h₂
  simp only [List.length_nil]
  rcases h with h | h
  · subst h
    simp only [List.length_nil] at h₂
    omega
  · have := pageCount_le_pagesBefore (L := L) f off p
    omega

/-- A piece that ends with its page or with the data, and what the loop stores after it. -/
theorem WriteSpec.cons {f f' : File} {page : FilePage} {off : ℕ}
    {piece more stored rest : List UInt8} (hne : piece ≠ [])
    (hpiece : piece.length =
      min (piece ++ more).length (L.pageSize - off % L.pageSize))
    (hroom : f.pageCount < L.maxPages) (hmore : more = stored ++ rest)
    (hs : Stored L f off piece (f.insertPage (off / L.pageSize) page))
    (h : WriteSpec L (f.insertPage (off / L.pageSize) page) (off + piece.length) more stored f') :
    WriteSpec L f off (piece ++ more) (piece ++ stored) f' := by
  have hdiv := Nat.div_add_mod off L.pageSize
  have hmod := Nat.mod_lt off L.pageSize_pos
  have hall := congrArg List.length hmore
  rw [List.length_append] at hpiece hall
  -- If there is more data, the piece fills its page.
  have hpage : 0 < more.length → off + piece.length = L.pageSize * (off / L.pageSize + 1) := by
    intro hlt
    rw [Nat.mul_add]
    omega
  refine ⟨h.wellFormed, ?_, ?_, h.name, h.attributes⟩
  · by_cases hst : stored = []
    · have hsame := h.stores
      subst hst
      rw [List.append_nil]
      exact hs.congr hsame.nil_byteAt
    · have hlt : 0 < stored.length := List.length_pos_of_ne_nil hst
      exact Stored.append hs h.stores hne hst
        (fun k hk => File.lookup_insertPage_ne page hk) (hpage (by omega))
  · intro p h₁ h₂
    rw [List.length_append] at h₂ ⊢
    by_cases hp : p < off + piece.length
    · have hk := (page_step (L := L) h₁ (by omega)).1
      rw [pagesBefore, hk, Finset.Ico_self, Finset.union_empty, card_pages]
      omega
    · have hafter := h.room p (by omega) (by omega)
      rw [pagesBefore_insertPage (hpage (by omega)) (by omega)] at hafter
      omega

theorem writeLoop_spec (fuel : ℕ) : ∀ (f : File) (remaining : List UInt8) (curr : ℕ),
    f.WellFormed L → remaining.length ≤ fuel →
    ∃ f' stored rest, f.writeLoop L fuel remaining curr = .ok (f', rest) ∧
      remaining = stored ++ rest ∧ WriteSpec L f curr remaining stored f' := by
  induction fuel with
  | zero =>
    intro f remaining curr hf hfuel
    have hnil : remaining = [] := List.length_eq_zero_iff.mp (by omega)
    subst hnil
    exact ⟨f, [], [], rfl, rfl, writeSpec_stop hf (Or.inl rfl)⟩
  | succ fuel ih =>
    intro f remaining curr hf hfuel
    rw [File.writeLoop]
    by_cases hnil : remaining = []
    · rw [if_pos hnil]
      exact ⟨f, [], remaining, rfl, rfl, writeSpec_stop hf (Or.inl hnil)⟩
    rw [if_neg hnil]
    by_cases hzero : L.maxPages = 0
    · rw [if_pos hzero]
      exact ⟨f, [], remaining, rfl, rfl, writeSpec_stop hf (Or.inr (by omega))⟩
    rw [if_neg hzero]
    by_cases hfull : L.maxPages ≤ f.pageCount
    · rw [if_pos hfull]
      exact ⟨f, [], remaining, rfl, rfl, writeSpec_stop hf (Or.inr hfull)⟩
    rw [if_neg hfull]
    have hlen : 0 < remaining.length := List.length_pos_of_ne_nil hnil
    have hmod := Nat.mod_lt curr L.pageSize_pos
    obtain ⟨n, hn⟩ : ∃ n, n = min remaining.length (L.pageSize - curr % L.pageSize) :=
      ⟨_, rfl⟩
    have hpiece : (remaining.take n).length = n := by rw [List.length_take]; omega
    have hne : remaining.take n ≠ [] := by
      intro h; rw [h, List.length_nil] at hpiece; omega
    obtain ⟨page, hw, hf₁, hs₁⟩ :=
      stored_page hf hne (show curr % L.pageSize + _ ≤ _ by rw [hpiece]; omega)
    simp only [← hn, hw]
    obtain ⟨f', stored, rest, hrun, hsplit, hspec⟩ :=
      ih _ (remaining.drop n) (curr + n) hf₁ (by rw [List.length_drop]; omega)
    refine ⟨f', remaining.take n ++ stored, rest, hrun, ?_, ?_⟩
    · rw [List.append_assoc, ← hsplit, List.take_append_drop]
    · have hcons := WriteSpec.cons hne (by rw [List.take_append_drop, hpiece, hn]) (by omega)
        hsplit hs₁ (by rw [hpiece]; exact hspec)
      rw [List.take_append_drop] at hcons
      exact hcons

theorem writeContent_spec {f : File} (hf : f.WellFormed L) (off : ℕ) (data : List UInt8) :
    ∃ f' stored rest, f.writeContent L off data = .ok f' ∧ data = stored ++ rest ∧
      WriteSpec L f off data stored f' := by
  obtain ⟨f', stored, rest, hrun, hsplit, hspec⟩ :=
    writeLoop_spec data.length f data off hf le_rfl
  refine ⟨f', stored, rest, ?_, hsplit, hspec⟩
  rw [File.writeContent, hrun]
  rfl

/-- A position of the data is served as written exactly when the write comes to it; a
position it does not come to keeps what it served. -/
theorem WriteSpec.reached {f f' : File} {off : ℕ} {data stored rest : List UInt8}
    (h : WriteSpec L f off data stored f') (hs : data = stored ++ rest) {p : ℕ}
    (h₁ : off ≤ p) (h₂ : p < off + data.length)
    (hroom : (pagesBefore L f off p).card < L.maxPages) :
    f'.byteAt L p = data[p - off]? := by
  have hp := (h.room p h₁ h₂).mpr hroom
  rw [h.stores.inside p h₁ hp, hs, List.getElem?_append_left (by omega)]

/-- A page that lies within one page of a file with room is stored whole. -/
theorem writeContent_page {f : File} (hf : f.WellFormed L) {off : ℕ} {d : List UInt8}
    (hd : d ≠ []) (hfit : off % L.pageSize + d.length ≤ L.pageSize)
    (hroom : f.pageCount < L.maxPages) :
    ∃ page, (f.entryOrDefault L (off / L.pageSize)).write L d (off % L.pageSize) = .ok page ∧
      f.writeContent L off d = .ok (f.insertPage (off / L.pageSize) page) := by
  obtain ⟨page, hw, -, -⟩ := stored_page hf hd hfit
  refine ⟨page, hw, ?_⟩
  have hlen : 0 < d.length := List.length_pos_of_ne_nil hd
  have hmin : min d.length (L.pageSize - off % L.pageSize) = d.length := by omega
  obtain ⟨n, hn⟩ : ∃ n, d.length = n + 1 := ⟨d.length - 1, by omega⟩
  rw [File.writeContent, hn, File.writeLoop, if_neg hd, if_neg (by omega), if_neg (by omega)]
  simp only [hmin, List.take_length, hw, List.drop_length]
  cases n <;> rfl

/-- The returned bytes are served from the first position on, and reading stops early
only at a position that is not served. -/
structure ReadSpec (L : PageLimits) (f : File) (off size : ℕ) (r : List UInt8) : Prop where
  length_le : r.length ≤ size
  served : ∀ i < r.length, f.byteAt L (off + i) = r[i]?
  stop : r.length < size → f.byteAt L (off + r.length) = none

theorem page_read_spec {page : FilePage} (hs : page.Sound L) {o m : ℕ}
    (hm : o + m ≤ L.pageSize) :
    (page.read L o m = .ok none ∧ page.byteAt o = none) ∨
      ∃ bytes, page.read L o m = .ok (some bytes) ∧ bytes.length ≤ m ∧
        (∀ i < bytes.length, page.byteAt (o + i) = bytes[i]?) ∧
        (bytes.length < m → page.byteAt (o + bytes.length) = none) := by
  have hlen := hs.length
  have hup := hs.upTo_le
  have hmin : min (min (o + m) L.pageSize) page.validUpTo = min (o + m) page.validUpTo := by
    omega
  simp only [FilePage.read, hmin]
  by_cases h₁ : o < page.validFrom
  · left
    rw [if_pos h₁, FilePage.byteAt, if_neg (by omega)]
    exact ⟨rfl, rfl⟩
  rw [if_neg h₁]
  by_cases h₂ : min (o + m) page.validUpTo < o
  · left
    rw [if_pos h₂, FilePage.byteAt, if_neg (by omega)]
    exact ⟨rfl, rfl⟩
  rw [if_neg h₂, if_neg (by omega)]
  have hb : (slice page.content o (min (o + m) page.validUpTo - o)).length =
      min (o + m) page.validUpTo - o := by
    simp only [slice, List.length_take, List.length_drop]
    omega
  refine Or.inr ⟨_, rfl, by omega, ?_, ?_⟩
  · intro i hi
    rw [hb] at hi
    rw [getElem?_slice, if_pos hi, FilePage.byteAt, if_pos (by omega)]
  · intro hshort
    rw [FilePage.byteAt, if_neg (by omega)]

theorem ReadSpec.nil {f : File} {off size : ℕ} (h : 0 < size → f.byteAt L off = none) :
    ReadSpec L f off size [] := by
  refine ⟨Nat.zero_le _, ?_, ?_⟩
  · intro i hi
    simp only [List.length_nil, Nat.not_lt_zero] at hi
  · intro hlt
    rw [List.length_nil] at hlt
    simpa using h hlt

/-- A run of served bytes, and what reading goes on with after it. -/
theorem ReadSpec.append {f : File} {off size : ℕ} {bytes r : List UInt8}
    (hle : bytes.length ≤ size)
    (hserved : ∀ i < bytes.length, f.byteAt L (off + i) = bytes[i]?)
    (h : ReadSpec L f (off + bytes.length) (size - bytes.length) r) :
    ReadSpec L f off size (bytes ++ r) := by
  have hlen := h.length_le
  refine ⟨?_, ?_, ?_⟩
  · rw [List.length_append]
    omega
  · intro i hi
    rw [List.length_append] at hi
    by_cases hlt : i < bytes.length
    · rw [hserved i hlt, List.getElem?_append_left hlt]
    · rw [List.getElem?_append_right (by omega), ← h.served _ (by omega)]
      congr 1
      omega
  · intro hlt
    rw [List.length_append] at hlt ⊢
    rw [← h.stop (by omega)]
    congr 1
    omega

theorem readLoop_spec {f : File} (hf : f.WellFormed L) (fuel : ℕ) :
    ∀ (remaining curr : ℕ) (buffer : List UInt8), remaining ≤ fuel →
    ∃ r, f.readLoop L fuel remaining curr buffer = .ok (buffer ++ r) ∧
      ReadSpec L f curr remaining r := by
  induction fuel with
  | zero =>
    intro remaining curr buffer hfuel
    exact ⟨[], by rw [List.append_nil]; rfl, ReadSpec.nil fun h => by omega⟩
  | succ fuel ih =>
    intro remaining curr buffer hfuel
    rw [File.readLoop]
    by_cases hz : remaining = 0
    · rw [if_pos hz]
      exact ⟨[], by rw [List.append_nil], ReadSpec.nil fun h => by omega⟩
    rw [if_neg hz]
    cases hpage : AList.lookup (curr / L.pageSize) f.content with
    | none =>
      exact ⟨[], by rw [List.append_nil], ReadSpec.nil fun _ => File.byteAt_of_missing hpage⟩
    | some page =>
      have hs := (hf _ _ hpage).toSound
      have hmod := Nat.mod_lt curr L.pageSize_pos
      obtain ⟨m, hm⟩ : ∃ m, m = min remaining (L.pageSize - curr % L.pageSize) := ⟨_, rfl⟩
      have hcur : f.byteAt L curr = page.byteAt (curr % L.pageSize) :=
        File.byteAt_of_lookup hpage
      have hnext : ∀ i, i < m → f.byteAt L (curr + i) = page.byteAt (curr % L.pageSize + i) := by
        intro i hi
        obtain ⟨hk, ho⟩ := page_step (L := L) (q := curr) (p := curr + i) (by omega) (by omega)
        rw [← hk] at hpage
        rw [File.byteAt_of_lookup hpage, ho]
        congr 1
        omega
      rcases page_read_spec hs (show curr % L.pageSize + m ≤ L.pageSize by omega) with
        ⟨hr, hb⟩ | ⟨bytes, hr, hle, hserved, hstop⟩
      · simp only [← hm, hr]
        exact ⟨[], by rw [List.append_nil], ReadSpec.nil fun _ => hcur.trans hb⟩
      · simp only [← hm, hr]
        have hbytes : ∀ i < bytes.length, f.byteAt L (curr + i) = bytes[i]? := by
          intro i hi
          rw [hnext i (by omega), hserved i hi]
        by_cases hshort : bytes.length < m
        · rw [if_pos hshort]
          refine ⟨bytes, rfl, by omega, hbytes, ?_⟩
          intro _
          rw [hnext _ hshort, hstop hshort]
        · rw [if_neg hshort]
          have hfull : bytes.length = m := by omega
          obtain ⟨r, hrun, hspec⟩ :=
            ih (remaining - bytes.length) (curr + m) (buffer ++ bytes) (by omega)
          refine ⟨bytes ++ r, by rw [hrun, List.append_assoc], ?_⟩
          exact ReadSpec.append (by omega) hbytes (hfull ▸ hspec)

theorem read_spec {f : File} (hf : f.WellFormed L) (off size : ℕ) :
    ∃ r, f.read L off size = .ok r ∧ ReadSpec L f off size r := by
  obtain ⟨r, hrun, hspec⟩ := readLoop_spec hf size size off [] le_rfl
  exact ⟨r, by rw [File.read, hrun, List.nil_append], hspec⟩

def Serves (L : PageLimits) (f : File) (p : ℕ) (b : UInt8) : Prop :=
  ∃ offset size r i, f.read L offset size = .ok r ∧ offset + i = p ∧ r[i]? = some b

theorem serves_iff {f : File} (hf : f.WellFormed L) {p : ℕ} {b : UInt8} :
    Serves L f p b ↔ f.byteAt L p = some b := by
  constructor
  · rintro ⟨offset, size, r, i, hr, rfl, hb⟩
    obtain ⟨r', hr', hspec⟩ := read_spec hf offset size
    rw [hr] at hr'
    injection hr' with hr'
    subst hr'
    rw [hspec.served i (List.getElem?_eq_some_iff.mp hb).1, hb]
  · intro hb
    obtain ⟨r, hr, hspec⟩ := read_spec hf p 1
    have hlen : 0 < r.length := by
      by_contra h
      have hstop := hspec.stop (by omega)
      rw [Nat.le_zero.mp (Nat.not_lt.mp h), Nat.add_zero, hb] at hstop
      cases hstop
    exact ⟨p, 1, r, 0, hr, rfl, by rw [← hspec.served 0 hlen]; exact hb⟩

/-- The pages there are when a merge in the given order comes to page `k`. -/
def pagesMerged (f : File) (keys : List ℕ) (k : ℕ) : Finset ℕ :=
  pages f ∪ (keys.takeWhile (· ≠ k)).toFinset

def validBytes (page : FilePage) : List UInt8 :=
  slice page.content page.validFrom (page.validUpTo - page.validFrom)

/-- What `merge` does, page by page: a page is written exactly when the pages cached or
merged before it leave room under the limit, and otherwise left alone. -/
structure MergeSpec (L : PageLimits) (f other : File) (keys : List ℕ) (f' : File) :
    Prop where
  wellFormed : f'.WellFormed L
  skipped : ∀ k, k ∉ keys ∨ L.maxPages ≤ (pagesMerged f keys k).card →
    AList.lookup k f'.content = AList.lookup k f.content
  written : ∀ k page, k ∈ keys → (pagesMerged f keys k).card < L.maxPages →
    AList.lookup k other.content = some page →
    ∃ page', (f.entryOrDefault L k).write L (validBytes page) page.validFrom = .ok page' ∧
      AList.lookup k f'.content = some page'

theorem validBytes_length {page : FilePage} (h : page.WellFormed L) :
    (validBytes page).length = page.validUpTo - page.validFrom := by
  have := h.length
  have := h.upTo_le
  simp only [validBytes, slice, List.length_take, List.length_drop]
  omega

theorem mergeSpec_stop {f other : File} (hf : f.WellFormed L) {keys : List ℕ}
    (h : keys = [] ∨ L.maxPages ≤ f.pageCount) : MergeSpec L f other keys f := by
  refine ⟨hf, fun _ _ => rfl, ?_⟩
  intro k page hk hroom _
  rcases h with rfl | h
  · cases hk
  · have : (pages f).card ≤ (pagesMerged f keys k).card :=
      Finset.card_le_card Finset.subset_union_left
    rw [card_pages] at this
    omega

theorem MergeSpec.cons {f other f' : File} {key : ℕ} {keys : List ℕ} {page page' : FilePage}
    (hroom : f.pageCount < L.maxPages) (hkey : key ∉ keys)
    (hpage : AList.lookup key other.content = some page)
    (hw : (f.entryOrDefault L key).write L (validBytes page) page.validFrom = .ok page')
    (h : MergeSpec L (f.insertPage key page') other keys f') :
    MergeSpec L f other (key :: keys) f' := by
  have hpages : ∀ k, k ≠ key → pagesMerged (f.insertPage key page') keys k =
      pagesMerged f (key :: keys) k := by
    intro k hk
    rw [pagesMerged, pagesMerged, pages_insertPage,
      List.takeWhile_cons_of_pos (by simpa using hk.symm), List.toFinset_cons,
      Finset.insert_union, Finset.union_insert]
  have hfirst : pagesMerged f (key :: keys) key = pages f := by
    rw [pagesMerged, List.takeWhile_cons_of_neg (by simp), List.toFinset_nil,
      Finset.union_empty]
  refine ⟨h.wellFormed, ?_, ?_⟩
  · intro k hk
    by_cases he : k = key
    · subst he
      rcases hk with hk | hk
      · exact (hk List.mem_cons_self).elim
      · rw [hfirst, card_pages] at hk
        omega
    · have hsame := h.skipped k (by
        rw [hpages k he]
        exact hk.imp_left fun h hm => h (List.mem_cons_of_mem _ hm))
      rw [hsame]
      exact File.lookup_insertPage_ne page' he
  · intro k pg hk hlt hpg
    by_cases he : k = key
    · subst he
      rw [hpage] at hpg
      injection hpg with hpg
      subst hpg
      refine ⟨page', hw, ?_⟩
      rw [h.skipped k (Or.inl hkey)]
      exact File.lookup_insertPage_self page'
    · rw [← hpages k he] at hlt
      obtain ⟨pg', hw', hl'⟩ := h.written k pg ((List.mem_cons.mp hk).resolve_left he) hlt hpg
      refine ⟨pg', ?_, hl'⟩
      rw [File.entryOrDefault, File.lookup_insertPage_ne page' he] at hw'
      exact hw'

theorem mergeLoop_spec {other : File} (ho : other.WellFormed L) (keys : List ℕ) :
    ∀ f : File, f.WellFormed L → keys.Nodup → (∀ k ∈ keys, k ∈ other.content) →
    ∃ f', File.mergeLoop L other keys f = .ok f' ∧
      (f'.name = f.name ∧ f'.attributes = f.attributes) ∧ MergeSpec L f other keys f' := by
  induction keys with
  | nil =>
    intro f hf _ _
    exact ⟨f, rfl, ⟨rfl, rfl⟩, mergeSpec_stop hf (Or.inl rfl)⟩
  | cons key keys ih =>
    intro f hf hnd hmem
    rw [File.mergeLoop]
    obtain ⟨page, hpage⟩ : ∃ page, AList.lookup key other.content = some page :=
      Option.isSome_iff_exists.mp (AList.lookup_isSome.mpr (hmem key List.mem_cons_self))
    have hwf := ho key page hpage
    have hvlen := validBytes_length hwf
    have hvalid := hwf.valid
    have hup := hwf.upTo_le
    simp only [hpage]
    by_cases hzero : L.maxPages = 0
    · rw [if_pos hzero]
      exact ⟨f, rfl, ⟨rfl, rfl⟩, mergeSpec_stop hf (Or.inr (by omega))⟩
    rw [if_neg hzero]
    by_cases hfull : L.maxPages ≤ f.pageCount
    · rw [if_pos hfull]
      exact ⟨f, rfl, ⟨rfl, rfl⟩, mergeSpec_stop hf (Or.inr hfull)⟩
    rw [if_neg hfull, if_neg (by have := hwf.length; omega)]
    obtain ⟨hdiv, hmod⟩ := page_of_parts (L := L) (k := key)
      (show page.validFrom < L.pageSize by omega)
    obtain ⟨hkey, hnd'⟩ := List.nodup_cons.mp hnd
    obtain ⟨page', hw, hrun⟩ := writeContent_page hf
      (show validBytes page ≠ [] by
        intro h; rw [h, List.length_nil] at hvlen; omega)
      (show (key * L.pageSize + page.validFrom) % L.pageSize + _ ≤ _ by rw [hmod]; omega)
      (by omega)
    rw [hdiv, hmod] at hw
    rw [hdiv] at hrun
    have hsound := File.entryOrDefault_sound (k := key) hf
    have hf₁ : (f.insertPage key page').WellFormed L :=
      File.insertPage_wellFormed hf (FilePage.write_wellFormed hsound
        (by intro h; rw [h, List.length_nil] at hvlen; omega) (by omega) hw)
    obtain ⟨f', hrest, hkept, hspec⟩ := ih _ hf₁ hnd' fun k hk => hmem k (List.mem_cons_of_mem _ hk)
    rw [validBytes] at hrun
    simp only [hrun]
    exact ⟨f', hrest, hkept, MergeSpec.cons (by omega) hkey hpage hw hspec⟩

theorem merge_spec {f other : File} (hf : f.WellFormed L) (ho : other.WellFormed L)
    (walk : HashOrder ℕ) :
    ∃ f', f.merge L other walk = .ok f' ∧ (f'.name = f.name ∧
      f'.attributes = (if other.attributes.isSome then other.attributes else f.attributes)) ∧
      MergeSpec L f other (walk.order other.content.keys) f' := by
  have hperm := walk.perm other.content.keys
  obtain ⟨f', hrun, hkept, hspec⟩ := mergeLoop_spec ho (walk.order other.content.keys)
    { f with attributes := if other.attributes.isSome then other.attributes else f.attributes }
    hf (hperm.nodup_iff.mpr other.content.keys_nodup)
    (fun k hk => AList.mem_keys.mpr (hperm.mem_iff.mp hk))
  exact ⟨f', hrun, hkept, hspec.wellFormed, hspec.skipped, hspec.written⟩

theorem mem_of_byteAt {f : File} {p : ℕ} {b : UInt8} (h : f.byteAt L p = some b) :
    ∃ page, AList.lookup (p / L.pageSize) f.content = some page ∧
      page.byteAt (p % L.pageSize) = some b := by
  cases hl : AList.lookup (p / L.pageSize) f.content with
  | none => rw [File.byteAt_of_missing hl] at h; cases h
  | some page =>
    rw [File.byteAt_of_lookup hl] at h
    exact ⟨page, rfl, h⟩

theorem validBytes_getElem? {page : FilePage} {i : ℕ}
    (h₁ : page.validFrom ≤ i) (h₂ : i < page.validUpTo) :
    (validBytes page)[i - page.validFrom]? = page.byteAt i := by
  rw [validBytes, getElem?_slice, if_pos (by omega), FilePage.byteAt, if_pos ⟨h₁, h₂⟩]
  congr 1
  omega

/-- The position lies in a page of both files, is served by neither, and lies between
their valid intervals. -/
def BridgedByMerge (L : PageLimits) (f other : File) (p : ℕ) : Prop :=
  ∃ page pg, AList.lookup (p / L.pageSize) f.content = some page ∧
    AList.lookup (p / L.pageSize) other.content = some pg ∧
    page.Bridged pg.validFrom (pg.validUpTo - pg.validFrom) (p % L.pageSize)

section MergePositions

variable {f other f' : File} {keys : List ℕ} {p : ℕ} {b : UInt8}

theorem MergeSpec.reached (h : MergeSpec L f other keys f') (hf : f.WellFormed L)
    (ho : other.WellFormed L) (hk : p / L.pageSize ∈ keys)
    (hroom : (pagesMerged f keys (p / L.pageSize)).card < L.maxPages)
    (hb : other.byteAt L p = some b) : f'.byteAt L p = some b := by
  obtain ⟨page, hl, hpb⟩ := mem_of_byteAt hb
  have hwf := ho _ _ hl
  obtain ⟨hv₁, hv₂⟩ := FilePage.byteAt_valid (by rw [hpb]; exact Option.some_ne_none b)
  obtain ⟨page', hw, hl'⟩ := h.written _ page hk hroom hl
  have hlen := validBytes_length hwf
  have hup := hwf.upTo_le
  have hvalid := hwf.valid
  rw [File.byteAt_of_lookup hl', FilePage.byteAt_write_inside
    (File.entryOrDefault_sound hf) (by omega) hw hv₁ (by omega),
    validBytes_getElem? hv₁ hv₂, hpb]

theorem MergeSpec.unreached (h : MergeSpec L f other keys f')
    (hroom : p / L.pageSize ∉ keys ∨
      L.maxPages ≤ (pagesMerged f keys (p / L.pageSize)).card) :
    f'.byteAt L p = f.byteAt L p :=
  File.byteAt_congr (h.skipped _ hroom)

theorem MergeSpec.origin (h : MergeSpec L f other keys f') (hf : f.WellFormed L)
    (ho : other.WellFormed L) (hmem : ∀ k ∈ keys, k ∈ other.content)
    (hb : f'.byteAt L p = some b) :
    (other.byteAt L p = some b ∧ p / L.pageSize ∈ keys ∧
        (pagesMerged f keys (p / L.pageSize)).card < L.maxPages) ∨
      f.byteAt L p = some b ∨
      b = 0 ∧ BridgedByMerge L f other p ∧ p / L.pageSize ∈ keys ∧
        (pagesMerged f keys (p / L.pageSize)).card < L.maxPages := by
  by_cases hroom : p / L.pageSize ∉ keys ∨
      L.maxPages ≤ (pagesMerged f keys (p / L.pageSize)).card
  · rw [h.unreached hroom] at hb
    exact Or.inr (Or.inl hb)
  · obtain ⟨hk, hlt⟩ : p / L.pageSize ∈ keys ∧
        (pagesMerged f keys (p / L.pageSize)).card < L.maxPages := by
      rw [not_or, not_not, not_le] at hroom; exact hroom
    obtain ⟨page, hl⟩ : ∃ page, AList.lookup (p / L.pageSize) other.content = some page :=
      Option.isSome_iff_exists.mp (AList.lookup_isSome.mpr (hmem _ hk))
    have hwf := ho _ _ hl
    obtain ⟨page', hw, hl'⟩ := h.written _ page hk hlt hl
    have hlen := validBytes_length hwf
    have hup := hwf.upTo_le
    have hvalid := hwf.valid
    have hs := File.entryOrDefault_sound (k := p / L.pageSize) hf
    rw [File.byteAt_of_lookup hl'] at hb
    by_cases hin : page.validFrom ≤ p % L.pageSize ∧ p % L.pageSize < page.validUpTo
    · left
      rw [FilePage.byteAt_write_inside hs (by omega) hw hin.1 (by omega),
        validBytes_getElem? hin.1 hin.2] at hb
      rw [File.byteAt_of_lookup hl]
      exact ⟨hb, hk, hlt⟩
    · right
      cases hpage : AList.lookup (p / L.pageSize) f.content with
      | none =>
        have hnew : f.entryOrDefault L (p / L.pageSize) = FilePage.new L := by
          rw [File.entryOrDefault, hpage, Option.getD_none]
        rw [hnew] at hw
        rw [FilePage.byteAt_write_new (by omega) hw (by omega)] at hb
        cases hb
      | some pg =>
        have hold : f.entryOrDefault L (p / L.pageSize) = pg := by
          rw [File.entryOrDefault, hpage, Option.getD_some]
        rcases FilePage.byteAt_write_outside hs (by omega) hw (by omega) hb with h | ⟨h0, h⟩
        · left
          rw [File.byteAt_entryOrDefault] at h
          exact h
        · rw [hold, hlen] at h
          exact Or.inr ⟨h0, ⟨pg, page, hpage, hl, h⟩, hk, hlt⟩

end MergePositions

end ClientPageCacheLoops
