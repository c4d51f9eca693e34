import RemoteFs.ClientPageCacheLoops

/-! # One contiguous write

What a single write leaves in a file, byte by byte for an empty file and page by page for any
file with room. The cached path writes into a file of its own and merges that, page by page. -/
namespace ClientPageCacheWrites

open ClientAttributes
open ClientPageCache
open ClientPageCacheLoops
open FileBytes
open OsPaths

variable {L : PageLimits}

inductive Reachable (L : PageLimits) : File → Prop where
  | new (name : OsString) (attributes : Option Attributes) : Reachable L (File.new name attributes)
  | written {f f' : File} {offset : ℕ} {data : List UInt8} (h : Reachable L f)
      (hw : f.writeContent L offset data = .ok f') : Reachable L f'
  | merged {f other f' : File} {walk : HashOrder ℕ} (h : Reachable L f)
      (ho : Reachable L other) (hm : f.merge L other walk = .ok f') : Reachable L f'
  | relabelled {f : File} (name : OsString) (attributes : Option Attributes) (h : Reachable L f) :
      Reachable L { f with name := name, attributes := attributes }

theorem Reachable.wellFormed {f : File} (h : Reachable L f) : f.WellFormed L := by
  induction h with
  | new name attributes => exact File.new_wellFormed name attributes
  | @written f f' offset data _ hw ih =>
    obtain ⟨g, _, _, hrun, -, hspec⟩ := writeContent_spec ih offset data
    rw [hw] at hrun
    injection hrun with hrun
    exact hrun ▸ hspec.wellFormed
  | @merged f other f' walk _ _ hm ih iho =>
    obtain ⟨g, hrun, -, hspec⟩ := merge_spec ih iho walk
    rw [hm] at hrun
    injection hrun with hrun
    exact hrun ▸ hspec.wellFormed
  | relabelled name attributes _ ih => exact ih

section EmptyFile

variable {name : OsString} {attributes : Option Attributes} {off len o s p : ℕ}
variable {f : File} {data d : List UInt8}

def keptBytes (L : PageLimits) (offset len : ℕ) : ℕ :=
  min len (L.maxPages * L.pageSize - offset % L.pageSize)

theorem pagesBefore_new (off p : ℕ) : pagesBefore L (File.new name attributes) off p =
    Finset.Ico (off / L.pageSize) (p / L.pageSize) := by
  simp [pagesBefore, pages, File.new]

/-- The page limit as a position of the file. -/
theorem pagesBefore_new_card (h : off ≤ p) :
    (pagesBefore L (File.new name attributes) off p).card < L.maxPages ↔
      p + off % L.pageSize < off + L.maxPages * L.pageSize := by
  have hdiv := Nat.div_add_mod off L.pageSize
  have hmono : off / L.pageSize ≤ p / L.pageSize := Nat.div_le_div_right h
  have hcard : p / L.pageSize - off / L.pageSize < L.maxPages ↔
      p / L.pageSize < off / L.pageSize + L.maxPages := by omega
  rw [pagesBefore_new, Nat.card_Ico, hcard, Nat.div_lt_iff_lt_mul L.pageSize_pos, Nat.add_mul,
    Nat.mul_comm (off / L.pageSize)]
  omega

theorem stored_length {stored rest : List UInt8} (hsplit : data = stored ++ rest)
    (h : WriteSpec L (File.new name attributes) off data stored f) :
    stored.length = keptBytes L off data.length := by
  have hlen : data.length = stored.length + rest.length := by rw [hsplit, List.length_append]
  have hroom : ∀ i < data.length,
      i < stored.length ↔ i + off % L.pageSize < L.maxPages * L.pageSize := by
    intro i hi
    have := h.room (off + i) (by omega) (by omega)
    rw [pagesBefore_new_card (by omega)] at this
    omega
  unfold keptBytes
  rcases Nat.lt_trichotomy stored.length
    (min data.length (L.maxPages * L.pageSize - off % L.pageSize)) with hlt | heq | hgt
  · have := hroom stored.length (by omega)
    omega
  · exact heq
  · have := hroom (L.maxPages * L.pageSize - off % L.pageSize) (by omega)
    omega

def Window (L : PageLimits) (f : File) (off : ℕ) (d : List UInt8) : Prop :=
  ∀ p, f.byteAt L p = if off ≤ p ∧ p < off + d.length then d[p - off]? else none

theorem one_write (name : OsString) (attributes : Option Attributes) (off : ℕ)
    (data : List UInt8) : ∃ f, (File.new name attributes).writeContent L off data = .ok f ∧
      f.WellFormed L ∧ Window L f off (data.take (keptBytes L off data.length)) := by
  obtain ⟨f, stored, rest, hrun, hsplit, h⟩ :=
    writeContent_spec (File.new_wellFormed name attributes) off data
  refine ⟨f, hrun, h.wellFormed, ?_⟩
  have hstored : data.take (keptBytes L off data.length) = stored := by
    rw [← stored_length hsplit h, hsplit, List.take_left]
  rw [hstored]
  intro p
  by_cases hp : off ≤ p ∧ p < off + stored.length
  · rw [if_pos hp]
    exact h.stores.inside p hp.1 hp.2
  · rw [if_neg hp, Option.eq_none_iff_forall_ne_some]
    intro b hb
    rcases h.stores.origin p b (by omega) hb with hnew | ⟨-, -, page, hpage, -⟩
    · simp at hnew
    · simp [File.new] at hpage

theorem Window.byte (h : Window L f off d) {i : ℕ} (hi : i < d.length) :
    f.byteAt L (off + i) = some d[i] := by
  rw [h, if_pos (by omega), Nat.add_sub_cancel_left, List.getElem?_eq_getElem hi]

theorem Window.outside (h : Window L f off d) (hp : ¬(off ≤ p ∧ p < off + d.length)) :
    f.byteAt L p = none := by
  rw [h, if_neg hp]

/-- Reading returns the part of the window that was asked for, across all its pages. -/
theorem Window.read (h : Window L f off d) (hf : f.WellFormed L) (o s : ℕ) :
    f.read L o s = .ok (if off ≤ o ∧ o < off + d.length then slice d (o - off) s else []) := by
  obtain ⟨r, hrun, hspec⟩ := read_spec hf o s
  rw [hrun]
  congr 1
  by_cases ho : off ≤ o ∧ o < off + d.length
  · obtain ⟨i, rfl⟩ : ∃ i, o = off + i := ⟨o - off, by omega⟩
    have hle := hspec.length_le
    have hinside : i + r.length ≤ d.length := by
      by_contra hlong
      have hserved := hspec.served (d.length - i) (by omega)
      rw [h.outside (by omega), List.getElem?_eq_getElem (by omega)] at hserved
      cases hserved
    have hstop : r.length = min s (d.length - i) := by
      by_contra hshort
      have hnone := hspec.stop (by omega)
      rw [Nat.add_assoc, h.byte (by omega)] at hnone
      cases hnone
    rw [if_pos ho, Nat.add_sub_cancel_left]
    refine List.ext_getElem? fun j => ?_
    rw [getElem?_slice]
    by_cases hj : j < r.length
    · rw [← hspec.served j hj, if_pos (by omega), Nat.add_assoc, h.byte (by omega),
        List.getElem?_eq_getElem]
    · rw [List.getElem?_eq_none (by omega)]
      by_cases hjs : j < s
      · rw [if_pos hjs, List.getElem?_eq_none (by omega)]
      · rw [if_neg hjs]
  · rw [if_neg ho]
    by_contra hne
    have hpos := List.length_pos_of_ne_nil hne
    have hserved := hspec.served 0 hpos
    rw [Nat.add_zero, h.outside ho, List.getElem?_eq_getElem hpos] at hserved
    cases hserved

/-- A file with one write serves what the page limit let it keep, at every offset and size. -/
theorem one_write_read (name : OsString) (attributes : Option Attributes)
    (offset : ℕ) (data : List UInt8) :
    ∃ f, (File.new name attributes).writeContent L offset data = .ok f ∧ ∀ o s,
      f.read L o s = .ok
        (if offset ≤ o ∧ o < offset + keptBytes L offset data.length then
          slice data (o - offset)
            (min (o - offset + s) (keptBytes L offset data.length) - (o - offset))
        else []) := by
  obtain ⟨f, hrun, hwf, hwindow⟩ := one_write (L := L) name attributes offset data
  refine ⟨f, hrun, fun o s => ?_⟩
  obtain ⟨k, hk⟩ : ∃ k, k = keptBytes L offset data.length := ⟨_, rfl⟩
  have hle : k ≤ data.length := by
    rw [hk]
    exact Nat.min_le_left _ _
  rw [← hk] at hwindow ⊢
  rw [hwindow.read hwf, List.length_take, Nat.min_eq_left hle]
  congr 2
  rw [slice, slice, List.drop_take, List.take_take]
  congr 1
  omega

end EmptyFile

section Pages

variable {f f' other : File} {off k n : ℕ} {data : List UInt8}

def touched (L : PageLimits) (off len : ℕ) : Finset ℕ :=
  (Finset.range len).image fun i => (off + i) / L.pageSize

/-- The bytes of the data that belong to a page, and where they start in it. -/
def part (L : PageLimits) (off : ℕ) (data : List UInt8) (k : ℕ) : List UInt8 :=
  slice data (k * L.pageSize - off) (L.pageSize - (off - k * L.pageSize))
def partStart (L : PageLimits) (off k : ℕ) : ℕ := off - k * L.pageSize

structure PagesWritten (L : PageLimits) (f : File) (off : ℕ) (data : List UInt8) (f' : File) :
    Prop where
  kept : ∀ k, k ∉ touched L off data.length →
    AList.lookup k f'.content = AList.lookup k f.content
  written : ∀ k, k ∈ touched L off data.length → ∃ page,
    (f.entryOrDefault L k).write L (part L off data k) (partStart L off k) = .ok page ∧
      AList.lookup k f'.content = some page

theorem mem_touched {len : ℕ} : k ∈ touched L off len ↔
    0 < len ∧ off < (k + 1) * L.pageSize ∧ k * L.pageSize < off + len := by
  have hps := L.pageSize_pos
  have hnext : (k + 1) * L.pageSize = k * L.pageSize + L.pageSize := Nat.add_one_mul _ _
  simp only [touched, Finset.mem_image, Finset.mem_range]
  constructor
  · rintro ⟨i, hi, rfl⟩
    have hdiv := Nat.div_add_mod' (off + i) L.pageSize
    have hmod := Nat.mod_lt (off + i) hps
    omega
  · rintro ⟨hlen, hstart, hend⟩
    refine ⟨k * L.pageSize - off, by omega, ?_⟩
    rw [Nat.div_eq_iff hps]
    omega

theorem first_touched {len : ℕ} (h : 0 < len) : off / L.pageSize ∈ touched L off len := by
  have hdiv := Nat.div_add_mod' off L.pageSize
  have hmod := Nat.mod_lt off L.pageSize_pos
  rw [mem_touched, Nat.add_one_mul]
  omega

/-- The first page takes what is written in the first round. -/
theorem part_first (off : ℕ) (data : List UInt8) :
    part L off data (off / L.pageSize) =
        data.take (min data.length (L.pageSize - off % L.pageSize)) ∧
      partStart L off (off / L.pageSize) = off % L.pageSize := by
  have hdiv := Nat.div_add_mod' off L.pageSize
  have hstart : off - off / L.pageSize * L.pageSize = off % L.pageSize := by omega
  have hzero : off / L.pageSize * L.pageSize - off = 0 := by omega
  refine ⟨?_, hstart⟩
  rw [part, hstart, hzero, slice, List.drop_zero, Nat.min_comm, ← List.take_take,
    List.take_length]

/-- The pages after the first take the same from the data that remain. -/
theorem part_rest (h : off + n ≤ k * L.pageSize) (data : List UInt8) :
    part L (off + n) (data.drop n) k = part L off data k ∧
      partStart L (off + n) k = partStart L off k := by
  have hstart : off + n - k * L.pageSize = off - k * L.pageSize := by omega
  have hskip : n + (k * L.pageSize - (off + n)) = k * L.pageSize - off := by omega
  refine ⟨?_, hstart⟩
  rw [part, part, hstart, slice, slice, List.drop_drop, hskip]

theorem PagesWritten.cons {page : FilePage} (hlen : 0 < data.length)
    (hn : n = min data.length (L.pageSize - off % L.pageSize))
    (hw : (f.entryOrDefault L (off / L.pageSize)).write L (data.take n) (off % L.pageSize) =
      .ok page)
    (h : PagesWritten L (f.insertPage (off / L.pageSize) page) (off + n) (data.drop n) f') :
    PagesWritten L f off data f' := by
  have hdiv := Nat.div_add_mod' off L.pageSize
  have hmod := Nat.mod_lt off L.pageSize_pos
  have hrest : ∀ k, k ∈ touched L (off + n) (data.drop n).length ↔
      k ≠ off / L.pageSize ∧ k ∈ touched L off data.length := by
    intro k
    rw [mem_touched, mem_touched, List.length_drop]
    have horder : k < off / L.pageSize ∨ k = off / L.pageSize ∨ off / L.pageSize < k := by omega
    rcases horder with hlt | rfl | hgt
    · have hle := Nat.mul_le_mul_right L.pageSize (show k + 1 ≤ off / L.pageSize by omega)
      omega
    · have hsucc := Nat.add_one_mul (off / L.pageSize) L.pageSize
      omega
    · have hle := Nat.mul_le_mul_right L.pageSize (show off / L.pageSize + 1 ≤ k by omega)
      have hsucc := Nat.add_one_mul (off / L.pageSize) L.pageSize
      have hnext := Nat.add_one_mul k L.pageSize
      omega
  constructor
  · intro k hk
    have hne : k ≠ off / L.pageSize := by
      rintro rfl
      exact hk (first_touched hlen)
    rw [h.kept k fun hmem => hk ((hrest k).mp hmem).2, File.lookup_insertPage_ne _ hne]
  · intro k hk
    by_cases hne : k = off / L.pageSize
    · subst hne
      refine ⟨page, ?_, ?_⟩
      · rw [(part_first off data).1, (part_first off data).2, ← hn]
        exact hw
      · rw [h.kept _ fun hmem => ((hrest _).mp hmem).1 rfl, File.lookup_insertPage_self]
    · obtain ⟨pg, hpg, hl⟩ := h.written k ((hrest k).mpr ⟨hne, hk⟩)
      have hbelow : off + n ≤ k * L.pageSize := by
        have hmem := mem_touched.mp ((hrest k).mpr ⟨hne, hk⟩)
        have hin := mem_touched.mp hk
        rw [List.length_drop] at hmem
        have hgt : off / L.pageSize < k := by
          by_contra hle
          have hle := Nat.mul_le_mul_right L.pageSize (show k + 1 ≤ off / L.pageSize by omega)
          omega
        have hle := Nat.mul_le_mul_right L.pageSize (show off / L.pageSize + 1 ≤ k by omega)
        have hsucc := Nat.add_one_mul (off / L.pageSize) L.pageSize
        omega
      have hentry : (f.insertPage (off / L.pageSize) page).entryOrDefault L k =
          f.entryOrDefault L k := by
        rw [File.entryOrDefault, File.lookup_insertPage_ne _ hne, File.entryOrDefault]
      rw [hentry, (part_rest hbelow data).1, (part_rest hbelow data).2] at hpg
      exact ⟨pg, hpg, hl⟩

theorem writeLoop_pages (fuel : ℕ) : ∀ (f : File) (remaining : List UInt8) (curr : ℕ),
    f.WellFormed L → remaining.length ≤ fuel →
    (pages f ∪ touched L curr remaining.length).card < L.maxPages →
    ∃ f', f.writeLoop L fuel remaining curr = .ok (f', []) ∧
      PagesWritten L f curr remaining f' := by
  induction fuel with
  | zero =>
    intro f remaining curr _ hfuel _
    obtain rfl : remaining = [] := List.length_eq_zero_iff.mp (by omega)
    exact ⟨f, rfl, fun _ _ => rfl, fun k hk => by simp [touched] at hk⟩
  | succ fuel ih =>
    intro f remaining curr hf hfuel hroom
    rw [File.writeLoop]
    by_cases hnil : remaining = []
    · subst hnil
      rw [if_pos rfl]
      exact ⟨f, rfl, fun _ _ => rfl, fun k hk => by simp [touched] at hk⟩
    have hcount : f.pageCount < L.maxPages := by
      rw [← card_pages]
      exact (Finset.card_le_card Finset.subset_union_left).trans_lt hroom
    rw [if_neg hnil, if_neg (by omega), if_neg (by omega)]
    have hlen : 0 < remaining.length := List.length_pos_of_ne_nil hnil
    have hmod := Nat.mod_lt curr L.pageSize_pos
    obtain ⟨n, hn⟩ : ∃ n, n = min remaining.length (L.pageSize - curr % L.pageSize) := ⟨_, rfl⟩
    have hpiece : (remaining.take n).length = n := by rw [List.length_take]; omega
    have hne : remaining.take n ≠ [] := by
      intro h; rw [h, List.length_nil] at hpiece; omega
    obtain ⟨page, hw, hf₁, -⟩ :=
      stored_page hf hne (show curr % L.pageSize + _ ≤ _ by rw [hpiece]; omega)
    simp only [← hn, hw]
    have hsub : pages (f.insertPage (curr / L.pageSize) page) ∪
        touched L (curr + n) (remaining.drop n).length ⊆
          pages f ∪ touched L curr remaining.length := by
      rw [pages_insertPage]
      intro k hk
      rw [Finset.mem_union, Finset.mem_insert, mem_touched, List.length_drop] at hk
      rw [Finset.mem_union]
      rcases hk with (rfl | hk) | hk
      · exact Or.inr (first_touched hlen)
      · exact Or.inl hk
      · refine Or.inr (mem_touched.mpr ?_)
        omega
    obtain ⟨f', hrun, hpages⟩ := ih _ (remaining.drop n) (curr + n) hf₁
      (by rw [List.length_drop]; omega) ((Finset.card_le_card hsub).trans_lt hroom)
    exact ⟨f', hrun, hpages.cons hlen hn hw⟩

theorem writeContent_pages (hf : f.WellFormed L) (off : ℕ) (data : List UInt8)
    (hroom : (pages f ∪ touched L off data.length).card < L.maxPages) :
    ∃ f', f.writeContent L off data = .ok f' ∧ PagesWritten L f off data f' := by
  obtain ⟨f', hrun, hpages⟩ := writeLoop_pages data.length f data off hf le_rfl hroom
  refine ⟨f', ?_, hpages⟩
  rw [File.writeContent, hrun]
  rfl

theorem part_fits (h : k ∈ touched L off data.length) :
    part L off data k ≠ [] ∧ partStart L off k + (part L off data k).length ≤ L.pageSize := by
  obtain ⟨hlen, hstart, hend⟩ := mem_touched.mp h
  have hps := L.pageSize_pos
  rw [Nat.add_one_mul] at hstart
  have hpart : (part L off data k).length =
      min (L.pageSize - (off - k * L.pageSize)) (data.length - (k * L.pageSize - off)) := by
    simp [part, slice]
  refine ⟨List.ne_nil_of_length_pos ?_, ?_⟩
  · omega
  · unfold partStart
    omega

/-- The first write of a page can be read off its valid interval. -/
theorem validBytes_new {page : FilePage} {d : List UInt8} (hfit : off + d.length ≤ L.pageSize)
    (hw : (FilePage.new L).write L d off = .ok page) :
    page.validFrom = off ∧ validBytes page = d := by
  rw [FilePage.write_fits FilePage.new_sound hfit] at hw
  injection hw with hw
  subst hw
  have hfrom : min L.pageSize off = off := by omega
  have hupto : max 0 (off + d.length) - off = d.length := by omega
  refine ⟨hfrom, ?_⟩
  simp only [validBytes, FilePage.new, hfrom, hupto, slice, copyInto]
  rw [List.append_assoc, List.drop_left' (by simp; omega), List.take_left]

/-- Merging a file made by one write gives the pages that writing in place gives, whatever the
order in which they are walked. -/
theorem merge_eq_write_in_place (hf : Reachable L f) (name : OsString)
    (attributes : Option Attributes) (offset : ℕ) (data : List UInt8) (walk : HashOrder ℕ)
    (hroom : (pages f ∪ touched L offset data.length).card < L.maxPages) :
    ∃ other merged written,
      (File.new name attributes).writeContent L offset data = .ok other ∧
      f.merge L other walk = .ok merged ∧ f.writeContent L offset data = .ok written ∧
      (∀ k, AList.lookup k merged.content = AList.lookup k written.content) ∧
      (attributes = none → merged.attributes = f.attributes) := by
  have hnew : (pages (File.new name attributes) ∪ touched L offset data.length).card <
      L.maxPages := by
    refine (Finset.card_le_card ?_).trans_lt hroom
    exact Finset.union_subset_union_left (by simp [pages, File.new])
  obtain ⟨other, hother, hparts⟩ :=
    writeContent_pages (File.new_wellFormed name attributes) offset data hnew
  obtain ⟨written, hwritten, hpages⟩ := writeContent_pages hf.wellFormed offset data hroom
  obtain ⟨g, _, _, hg, -, hspec⟩ :=
    writeContent_spec (L := L) (File.new_wellFormed name attributes) offset data
  obtain rfl : other = g := Except.ok.inj (hother.symm.trans hg)
  obtain ⟨merged, hmerged, ⟨-, hattributes⟩, hmerge⟩ :=
    merge_spec hf.wellFormed hspec.wellFormed walk
  have hkeys : ∀ k, k ∈ walk.order other.content.keys ↔ k ∈ touched L offset data.length := by
    intro k
    rw [(walk.perm _).mem_iff, ← AList.mem_keys, ← AList.lookup_isSome]
    by_cases hk : k ∈ touched L offset data.length
    · obtain ⟨page, -, hl⟩ := hparts.written k hk
      simp [hl, hk]
    · simp [hparts.kept k hk, File.new, hk]
  refine ⟨other, merged, written, hother, hmerged, hwritten, fun k => ?_, fun hnone => ?_⟩
  · by_cases hk : k ∈ touched L offset data.length
    · obtain ⟨part', hpart, hl⟩ := hparts.written k hk
      have hentry : (File.new name attributes).entryOrDefault L k = FilePage.new L := by
        simp [File.entryOrDefault, File.new]
      rw [hentry] at hpart
      obtain ⟨hfrom, hbytes⟩ := validBytes_new (part_fits hk).2 hpart
      have hcard : (pagesMerged f (walk.order other.content.keys) k).card < L.maxPages := by
        refine (Finset.card_le_card (Finset.union_subset_union_right ?_)).trans_lt hroom
        intro j hj
        exact (hkeys j).mp ((List.takeWhile_sublist _).subset (List.mem_toFinset.mp hj))
      obtain ⟨page', hpage', hl'⟩ := hmerge.written k part' ((hkeys k).mpr hk) hcard hl
      obtain ⟨page, hpage, hl''⟩ := hpages.written k hk
      rw [hfrom, hbytes, hpage] at hpage'
      injection hpage' with hpage'
      rw [hl', hl'', hpage']
    · rw [hmerge.skipped k (Or.inl fun hmem => hk ((hkeys k).mp hmem)), hpages.kept k hk]
  · rw [hattributes]
    have hsame : other.attributes = none := hspec.attributes.trans hnone
    rw [hsame]
    rfl

theorem merge_eq_write_in_place_two_pages :
    ∃ other merged written,
      (File.new (.text "f") none).writeContent ⟨4, 3, by decide⟩ 1 [1, 2, 3, 4, 5, 6, 7] =
          .ok other ∧
      (File.new (.text "f") none).merge ⟨4, 3, by decide⟩ other (HashOrder.id ℕ) = .ok merged ∧
      (File.new (.text "f") none).writeContent ⟨4, 3, by decide⟩ 1 [1, 2, 3, 4, 5, 6, 7] =
          .ok written ∧
      (∀ k, AList.lookup k merged.content = AList.lookup k written.content) ∧
      ((none : Option Attributes) = none →
        merged.attributes = (File.new (.text "f") none).attributes) :=
  merge_eq_write_in_place (L := ⟨4, 3, by decide⟩) (.new (.text "f") none) (.text "f") none 1
    [1, 2, 3, 4, 5, 6, 7] (HashOrder.id ℕ) (by decide)

end Pages

end ClientPageCacheWrites
