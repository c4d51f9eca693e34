import RemoteFs.ClientBufferedReads

/-! # Reading on from a position

A cached page keeps one interval, so a merge fills what lies between two with zeros. A read goes
on from where its last round ended: it meets no such zeros as long as no cached page ahead of it
begins within itself. -/
namespace ClientSequentialReads

open ClientAttributes
open ClientBufferedReads
open ClientCache
open ClientFileSystem
open ClientFrontEnds
open ClientMemory
open ClientPageCache
open ClientPageCacheLoops
open ClientReadBuffer
open ClientRounds
open FileBytes
open OsPaths
open RemoteTree

variable {L : PageLimits}

/-- Ahead of the position a byte is served with the one before it in its page. -/
def Unbroken (o : ℕ) (f : CachedFile L) : Prop :=
  ∀ x, o < x → x % L.pageSize ≠ 0 → f.byteAt x ≠ none → f.byteAt (x - 1) ≠ none

section Pages

variable {f g : CachedFile L} {p : Path} {o o' x k : ℕ} {data : List UInt8}
variable {walk : HashOrder ℕ}

theorem Unbroken.later (h : Unbroken o f) (ho : o ≤ o') : Unbroken o' f :=
  fun x hx => h x (Nat.lt_of_le_of_lt ho hx)

theorem unbroken_aboutPages : AboutPages fun f : CachedFile L => Unbroken o f where
  bare _ hf _ _ _ hx := (hx (byteAt_bare hf)).elim
  same f g hs hf x := by
    rw [hs.byteAt, hs.byteAt]
    exact hf x

theorem unbroken_written : Unbroken o (written L p o data) := by
  intro x hx _ hserved
  obtain ⟨stored, rest, -, hspec⟩ := writeContent_stored
    (CachedFile.new (L := L) (p.fileName.getD (.text "")) none) o data
  have hinside : x < o + stored.length := by
    by_contra hout
    obtain ⟨b, hb⟩ := Option.ne_none_iff_exists'.mp hserved
    rcases hspec.stores.origin x b (by omega) hb with hold | ⟨-, -, page, hpage, -⟩
    · simp [CachedFile.new] at hold
    · simp [CachedFile.new, File.new] at hpage
  have hbyte := hspec.stores.inside (x - 1) (by omega) (by omega)
  rw [List.getElem?_eq_getElem (by omega)] at hbyte
  exact fun hnone => Option.some_ne_none _ (hbyte.symm.trans hnone)

theorem page_pred (h : x % L.pageSize ≠ 0) : (x - 1) / L.pageSize = x / L.pageSize := by
  have hmod := Nat.mod_lt x L.pageSize_pos
  have hdm := Nat.div_add_mod x L.pageSize
  obtain ⟨hk, -⟩ := page_of_parts (L := L) (k := x / L.pageSize)
    (show x % L.pageSize - 1 < L.pageSize by omega)
  rw [Nat.mul_comm] at hk
  rwa [show x - 1 = L.pageSize * (x / L.pageSize) + (x % L.pageSize - 1) by omega]

/-- A page that begins ahead of the position begins at its own front. -/
theorem Unbroken.front (h : Unbroken o f) {page : FilePage}
    (hl : AList.lookup k f.file.content = some page)
    (ho : o < k * L.pageSize + page.validFrom) : page.validFrom = 0 := by
  by_contra hne
  have hwf := f.wellFormed _ _ hl
  have hvalid := hwf.valid
  have hup := hwf.upTo_le
  have hserves : ∀ i, i < L.pageSize → f.byteAt (k * L.pageSize + i) = page.byteAt i := by
    intro i hi
    obtain ⟨hk, hmod⟩ := page_of_parts (L := L) (k := k) hi
    rw [CachedFile.byteAt, File.byteAt_of_lookup (by rw [hk]; exact hl), hmod]
  obtain ⟨b, hb, -⟩ := FilePage.byteAt_isSome hwf.toSound le_rfl hvalid
  obtain ⟨-, hmod⟩ := page_of_parts (L := L) (k := k) (show page.validFrom < L.pageSize by omega)
  refine h (k * L.pageSize + page.validFrom) ho (by rwa [hmod]) ?_ ?_
  · rw [hserves _ (by omega), hb]
    exact Option.some_ne_none b
  · rw [Nat.add_sub_assoc (by omega), hserves _ (by omega), FilePage.byteAt, if_neg (by omega)]

/-- A merge leaves gaps behind the position only. -/
theorem Unbroken.bridged (hf : Unbroken o f) (hg : Unbroken o g)
    (h : BridgedByMerge L f.file g.file x) : x < o := by
  by_contra hx
  obtain ⟨page, pg, hl, hl', hside⟩ := h
  have hdm := Nat.div_add_mod x L.pageSize
  rw [Nat.mul_comm] at hdm
  rcases hside with ⟨-, hlt⟩ | ⟨-, hlt⟩
  · have := hg.front hl' (by omega)
    omega
  · have := hf.front hl (by omega)
    omega

theorem Unbroken.merge (hf : Unbroken o f) (hg : Unbroken o g) :
    Unbroken o (f.merge g walk) := by
  intro x ho hx hserved
  obtain ⟨-, hspec⟩ := merge_merged f g walk
  obtain ⟨b, hb⟩ := Option.ne_none_iff_exists'.mp hserved
  rcases hspec.origin f.wellFormed g.wellFormed
    (fun k hk => AList.mem_keys.mpr ((walk.perm _).mem_iff.mp hk)) hb with
    ⟨hother, hk, hroom⟩ | hold | ⟨-, hgap, -⟩
  · obtain ⟨c, hc⟩ := Option.ne_none_iff_exists'.mp
      (hg x ho hx fun hnone => Option.some_ne_none b (hother.symm.trans hnone))
    rw [← page_pred hx] at hk hroom
    rw [CachedFile.byteAt, hspec.reached f.wellFormed g.wellFormed hk hroom hc]
    exact Option.some_ne_none c
  · exact merge_kept (hf x ho hx fun hnone => Option.some_ne_none b (hold.symm.trans hnone))
  · have := hf.bridged hg hgap
    omega

end Pages

section Entries

variable {fs : FileSystem L} {p : Path} {t o s : ℕ} {env : Env}
variable {R : CachedFile L → Prop} {A : Attributes → Prop} {data : List UInt8} {m : Moment}

structure Closed (p : Path) (o : ℕ) (R : CachedFile L → Prop) : Prop where
  pages : AboutPages R
  put : ∀ data, R (written L p o data)
  merge : ∀ f data walk, R f → R (f.merge (written L p o data) walk)

theorem closed_unbroken : Closed p o fun f : CachedFile L => Unbroken o f where
  pages := unbroken_aboutPages
  put _ := unbroken_written
  merge _ _ _ hf := hf.merge unbroken_written

theorem Closed.cacheWriteFile (hR : Closed p o R) (h : Entries fs p t (Good R A))
    (ht : t ≤ m.now) :
    Entries (fs.onCache fun c => cacheWriteFile c p o data false m) p t (Good R A) := by
  refine h.onCache fun c it hc hfresh => ?_
  unfold ClientCache.cacheWriteFile at hfresh
  cases hname : p.fileName with
  | none =>
    rw [hname] at hfresh
    exact .inl hfresh
  | some name =>
    rw [hname] at hfresh
    have hw : (CachedFile.new name none).writeContent o data = written L p o data := by
      rw [written, hname, Option.getD_some]
    dsimp only at hfresh
    rw [hw] at hfresh
    right
    have hnone : ∀ a, (CacheItem.file (written L p o data)).getAttributes = some a → A a := by
      intro a ha
      cases written_attributes.symm.trans ha
    rcases Cache.put_self hfresh with rfl | ⟨old, hold, rfl⟩
    · exact ⟨fun f hf => CacheItem.file.inj hf ▸ hR.put data, hnone⟩
    · have hgood := h old (Option.bind_eq_some_iff.mpr ⟨c, hc, Cache.freshAt_earlier ht hold⟩)
      refine ⟨?_, fun a ha => hgood.attributes a (update_file_attributes written_attributes ha)⟩
      cases old with
      | file f =>
        rintro _ ⟨⟩
        exact hR.merge f data _ (hgood.file f rfl)
      | symLink l =>
        rintro _ ⟨⟩
        exact hR.put data
      | directory d =>
        rintro _ ⟨⟩
        exact hR.put data

theorem Closed.readBuffered (hR : Closed p o R) (h : Entries fs p t (Good R A))
    (ht : ∀ i, t ≤ (env i).now) : Entries (fs.readBuffered p o s env).2 p t (Good R A) := by
  unfold FileSystem.readBuffered
  dsimp only
  split
  · exact hR.cacheWriteFile h (ht 1)
  · unfold FileSystem.readRemote
    split
    · exact h
    · have hfilled : Entries { fs with readBuffer := _ } p t (Good R A) := h
      exact hR.cacheWriteFile hfilled (ht 3)

theorem Closed.readFile (hR : Closed p o R) (h : Entries fs p t (Good R A))
    (ht : ∀ i, t ≤ (env i).now) (ha : ∀ a, fs.remote.getAttributes p = some a → A a) :
    Entries (fs.readFile p o s env).2 p t (Good R A) := by
  have hattr := h.getAttributes hR.pages ht ha p
  have hcached : Entries ((fs.getAttributes p env).2.readCached p o s (env.drop 3)).2 p t
      (Good R A) := by
    have hget := hattr.cacheGet p (env.drop 3 0).toMoment
    unfold FileSystem.readCached
    dsimp only
    split
    · exact hget
    · exact hR.readBuffered hget fun i => ht (3 + (1 + i))
  unfold FileSystem.readFile
  dsimp only
  split
  · split
    · exact hattr
    · exact hcached
  · exact hcached

end Entries

section Rounds

variable {fs : FileSystem L} {p : Path} {content : List UInt8} {t o s : ℕ} {env : Env}

def From (content : List UInt8) (o x : ℕ) (b : UInt8) : Prop := o ≤ x → content[x]? = some b

/-- What the client holds of the file from the position on is what the server has. -/
structure UpToDate (fs : FileSystem L) (p : Path) (t : ℕ) (content : List UInt8) (o : ℕ) :
    Prop where
  node : fs.remote.nodes p = some (.file content)
  bytes : Entries fs p t (Good (BytesAre (From content o)) fun a => a.size = content.length)
  pages : Entries fs p t (Good (Unbroken o) fun _ => True)
  buffer : BufferIs fs p t (From content o)

theorem UpToDate.later {o' : ℕ} (h : UpToDate fs p t content o) (ho : o ≤ o') :
    UpToDate fs p t content o' where
  node := h.node
  bytes it he := ⟨fun f hf x b hb hx => (h.bytes it he).file f hf x b hb (ho.trans hx),
    (h.bytes it he).attributes⟩
  pages it he := ⟨fun f hf => ((h.pages it he).file f hf).later ho, fun _ _ => trivial⟩
  buffer x b hb hx := h.buffer x b hb (ho.trans hx)

theorem UpToDate.attributes (h : UpToDate fs p t content o) :
    ∀ a, fs.remote.getAttributes p = some a → a.size = content.length := by
  intro a ha
  rw [Remote.getAttributes, h.node] at ha
  obtain rfl := Option.some.inj ha
  rfl

theorem UpToDate.serverIs (h : UpToDate fs p t content o) : ServerIs fs p (From content o) := by
  intro from_ size data hread i b hb _
  rw [Remote.readFile, h.node] at hread
  obtain rfl := Option.some.inj hread
  rw [getElem?_slice] at hb
  split at hb
  · exact hb
  · cases hb

/-- A round leaves the client with what the server has, and takes nothing to the server. -/
theorem UpToDate.readFile (h : UpToDate fs p t content o) (ht : ∀ i, t ≤ (env i).now) :
    UpToDate (fs.readFile p o s env).2 p t content o ∧
      (fs.readFile p o s env).2.readBuffer.capacity = fs.readBuffer.capacity := by
  have hpages := closed_unbroken.readFile (s := s) h.pages ht fun _ _ => trivial
  have hgaps : ∀ f, (∃ it, entry fs p t = some it ∧ it = .file f) →
      MissGaps fs p o s (env 4).now (From content o) f := by
    rintro f ⟨it, he, hf⟩ - data - x hgap hx
    have := ((h.pages it he).file f hf).bridged unbroken_written hgap.1
    omega
  have hok := readFile_ok ht (fun it he => ⟨fun f hf => ⟨(h.bytes it he).file f hf,
    hgaps f ⟨it, he, hf⟩⟩, (h.bytes it he).attributes⟩) h.buffer h.serverIs h.attributes
  exact ⟨⟨by rw [hok.remote]; exact h.node, hok.entries, hpages, hok.buffer⟩, hok.capacity⟩

theorem UpToDate.round {r : List UInt8} (h : UpToDate fs p t content o)
    (ht : ∀ i, t ≤ (env i).now) (hcap : 1 ≤ fs.readBuffer.capacity)
    (hr : (fs.readFile p o s env).1 = .ok r) : Brought content o s r := by
  rcases readFile_result ht h.bytes h.buffer h.serverIs h.attributes hr with
    ⟨rfl, a, ha, hle⟩ | hres
  · exact .past (ha ▸ hle)
  · refine ⟨prefix_slice fun i b hb => ⟨hres.bytes i b hb (Nat.le_add_right o i), ?_⟩, ?_⟩
    · exact (List.getElem?_eq_some_iff.mp hb).1.trans_le hres.length_le
    · intro hnil
      by_cases hpast : content.length ≤ o
      · exact slice_past hpast
      · rcases Nat.eq_zero_or_pos s with rfl | hs
        · rfl
        · refine (hres.nonempty (fun data hread hdata => ?_) hs hnil).elim
          rw [Remote.readFile, h.node] at hread
          obtain rfl := Option.some.inj hread
          have hlen := congrArg List.length hdata
          simp only [slice, List.length_take, List.length_drop, List.length_nil] at hlen
          omega

/-- A read that succeeds returns what the file has of the range. -/
theorem UpToDate.reads {offset size : ℕ} {envs : ℕ → Env} {r : List UInt8}
    (h : UpToDate fs p t content offset) (ht : ∀ n i, t ≤ (envs n i).now)
    (hcap : 1 ≤ fs.readBuffer.capacity)
    (hr : (PathFilesystem.readLoop p offset size envs fs []).1 = .ok r) :
    r = slice content offset size := by
  have hround : ∀ n (left : FileSystem L),
      UpToDate left p t content (offset + n) ∧ 1 ≤ left.readBuffer.capacity → Ends True
      (fun r left' => Brought content (offset + n) (size - n) r ∧
        UpToDate left' p t content (offset + n + r.length) ∧ 1 ≤ left'.readBuffer.capacity)
      (left.readFile p (offset + n) (size - n) (envs n)) := by
    rintro n left ⟨hleft, hcapacity⟩
    obtain ⟨hkept, hsame⟩ := hleft.readFile (s := size - n) (ht n)
    have hbrings := fun r => hleft.round (s := size - n) (r := r) (ht n) hcapacity
    generalize left.readFile p (offset + n) (size - n) (envs n) = done at hkept hsame hbrings ⊢
    obtain ⟨e | r, left'⟩ := done
    · trivial
    · exact ⟨hbrings r rfl, hkept.later (Nat.le_add_right _ _), hsame.symm ▸ hcapacity⟩
  have hends := readLoop_brings
    (I := fun o left => UpToDate left p t content o ∧ 1 ≤ left.readBuffer.capacity)
    hround fs [] ⟨h, hcap⟩
  generalize PathFilesystem.readLoop p offset size envs fs [] = done at hends hr
  obtain ⟨e | r', left⟩ := done
  · cases hr
  · cases hr
    exact hends.1

end Rounds

end ClientSequentialReads
