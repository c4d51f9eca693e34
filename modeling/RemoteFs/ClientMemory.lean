import RemoteFs.ClientFileSystem
import RemoteFs.ClientPageCacheReads

/-! # What the client serves about one path from its own memory

The sources are the fresh cache item of the path and the read buffer. Calls that fetch
attributes only put items without pages, so what is said about the pages of the cached
file survives them; pages enter with the bytes of a read and of an upload. -/
namespace ClientMemory

open ClientAttributes
open ClientCache
open ClientFileSystem
open ClientPageCache
open ClientPageCacheLoops
open ClientPageCacheReads
open ClientReadBuffer
open ClientWriteBuffer
open OsPaths
open RemoteTree
open WriteLog

variable {L : PageLimits}

def entry (fs : FileSystem L) (p : Path) (t : ℕ) : Option (CacheItem L) :=
  fs.cache.bind fun c => c.freshAt p t

def Entries (fs : FileSystem L) (p : Path) (t : ℕ) (Q : CacheItem L → Prop) : Prop :=
  ∀ it, entry fs p t = some it → Q it

def Bare : CacheItem L → Prop
  | .file f => f.file.content.keys = []
  | _ => True

def SamePages (f g : CachedFile L) : Prop :=
  ∀ k, AList.lookup k g.file.content = AList.lookup k f.file.content

structure AboutPages (R : CachedFile L → Prop) : Prop where
  bare : ∀ f, f.file.content.keys = [] → R f
  same : ∀ f g, SamePages f g → R f → R g

structure Good (R : CachedFile L → Prop) (A : Attributes → Prop) (it : CacheItem L) : Prop where
  file : ∀ f, it = .file f → R f
  attributes : ∀ a, it.getAttributes = some a → A a

section Items

variable {R : CachedFile L → Prop} {A : Attributes → Prop} {old item : CacheItem L}
variable {walk : HashOrder ℕ}

theorem merge_bare {f g : CachedFile L} (hg : g.file.content.keys = []) :
    SamePages f (f.merge g walk) := by
  intro k
  refine (merge_merged f g walk).2.skipped k (Or.inl ?_)
  rw [(walk.perm _).mem_iff, hg]
  exact List.not_mem_nil

theorem merge_attributes {f g : CachedFile L} {a : Attributes}
    (h : (f.merge g walk).file.attributes = some a) :
    g.file.attributes = some a ∨ f.file.attributes = some a := by
  rw [(merge_merged f g walk).1] at h
  split at h
  · exact Or.inl h
  · exact Or.inr h

/-- A merge keeps the old attributes only where the new item has none. -/
theorem attributes_update {a : Attributes} (h : (old.update walk item).getAttributes = some a) :
    item.getAttributes = some a ∨ item.getAttributes = none ∧ old.getAttributes = some a := by
  have hmerge : ∀ {o n : Option Attributes}, (if n.isSome then n else o) = some a →
      n = some a ∨ n = none ∧ o = some a := by
    intro o n h
    cases n with
    | none => exact Or.inr ⟨rfl, h⟩
    | some b => exact Or.inl h
  cases old with
  | file f =>
    cases item with
    | file g => exact hmerge ((merge_merged f g walk).1.symm.trans h)
    | symLink l => exact Or.inl h
    | directory d => exact Or.inl h
  | symLink l =>
    cases item with
    | file g => exact Or.inl h
    | symLink l' => exact hmerge h
    | directory d => exact Or.inl h
  | directory d =>
    cases item with
    | file g => exact Or.inl h
    | symLink l => exact Or.inl h
    | directory d' => exact hmerge h

theorem good_bare (hR : AboutPages R) (hi : Bare item)
    (ha : ∀ a, item.getAttributes = some a → A a) : Good R A item := by
  refine ⟨?_, ha⟩
  rintro f rfl
  exact hR.bare f hi

/-- An item without pages, merged into a good one or put in its place. -/
theorem good_update (hR : AboutPages R) (hold : Good R A old) (hi : Bare item)
    (ha : ∀ a, item.getAttributes = some a → A a) : Good R A (old.update walk item) := by
  have hnew := good_bare hR hi ha
  cases old with
  | file f =>
    cases item with
    | file g =>
      refine ⟨?_, ?_⟩
      · rintro _ ⟨⟩
        exact hR.same f _ (merge_bare hi) (hold.file f rfl)
      · intro a h
        rcases merge_attributes h with h | h
        · exact ha a h
        · exact hold.attributes a h
    | symLink l => exact hnew
    | directory d => exact hnew
  | symLink l =>
    cases item with
    | file g => exact hnew
    | symLink l' =>
      refine ⟨?_, ?_⟩
      · intro f h; cases h
      intro a h
      simp only [CacheItem.update, CacheItem.getAttributes, SymLink.merge] at h
      split at h
      · exact ha a h
      · exact hold.attributes a h
    | directory d => exact hnew
  | directory d =>
    cases item with
    | file g => exact hnew
    | symLink l => exact hnew
    | directory d' =>
      refine ⟨?_, ?_⟩
      · intro f h; cases h
      intro a h
      simp only [CacheItem.update, CacheItem.getAttributes, Directory.merge] at h
      split at h
      · exact ha a h
      · exact hold.attributes a h

theorem bare_new (name : OsString) (a : Option Attributes) :
    Bare (.file (CachedFile.new name a) : CacheItem L) := rfl

theorem bare_ofAttributes (name : OsString) (a : Attributes) :
    Bare (CacheItem.ofAttributes name a : CacheItem L) ∧
      (CacheItem.ofAttributes name a : CacheItem L).getAttributes = some a := by
  unfold CacheItem.ofAttributes
  split
  · exact ⟨trivial, rfl⟩
  · exact ⟨trivial, rfl⟩
  · exact ⟨rfl, rfl⟩

theorem bare_ofListed (item : Item) :
    Bare (FileSystem.ofListed item : CacheItem L) ∧
      (FileSystem.ofListed item : CacheItem L).getAttributes = some item.attributes := by
  unfold FileSystem.ofListed
  split
  · exact ⟨trivial, rfl⟩
  · exact ⟨trivial, rfl⟩
  · exact ⟨rfl, rfl⟩

end Items

section Frames

variable {fs : FileSystem L} {p q : Path} {t : ℕ} {Q : CacheItem L → Prop}
variable {R : CachedFile L → Prop} {A : Attributes → Prop} {env : Env} {m : Moment}

theorem entry_earlier {t' : ℕ} {it : CacheItem L} (h : t ≤ t') (he : entry fs p t' = some it) :
    entry fs p t = some it := by
  unfold entry at he ⊢
  obtain ⟨c, hc, hf⟩ := Option.bind_eq_some_iff.mp he
  exact Option.bind_eq_some_iff.mpr ⟨c, hc, Cache.freshAt_earlier h hf⟩

theorem entry_new {remote : Remote} {capacity now : ℕ} {cache : Option (Cache L)}
    (hempty : ∀ c, cache = some c → c.entries = ∅) :
    entry (.new remote capacity now cache) p t = none := by
  rw [entry, Option.bind_eq_none_iff]
  intro c hc
  rw [Cache.freshAt, hempty c hc]
  rfl

theorem entry_onCache {f : Cache L → Cache L} {it : CacheItem L}
    (he : entry (fs.onCache f) p t = some it) :
    ∃ c, fs.cache = some c ∧ (f c).freshAt p t = some it := by
  obtain ⟨c', hc', hfresh⟩ := Option.bind_eq_some_iff.mp he
  obtain ⟨c, hc, rfl⟩ := Option.map_eq_some_iff.mp hc'
  exact ⟨c, hc, hfresh⟩

theorem Entries.later {t' : ℕ} (h : Entries fs p t Q) (ht : t ≤ t') : Entries fs p t' Q :=
  fun it he => h it (entry_earlier ht he)

theorem Entries.onCache {f : Cache L → Cache L} (h : Entries fs p t Q)
    (hf : ∀ c it, fs.cache = some c → (f c).freshAt p t = some it →
      c.freshAt p t = some it ∨ Q it) : Entries (fs.onCache f) p t Q := by
  intro it he
  obtain ⟨c, hc, hfresh⟩ := entry_onCache he
  rcases hf c it hc hfresh with hold | hq
  · exact h it (Option.bind_eq_some_iff.mpr ⟨c, hc, hold⟩)
  · exact hq

theorem Entries.onCache_sub {f : Cache L → Cache L} (h : Entries fs p t Q)
    (hf : ∀ c, (f c).Sub c) : Entries (fs.onCache f) p t Q :=
  h.onCache fun c it _ he => Or.inl (hf c p t it he)

theorem cacheGet_entry (fs : FileSystem L) (p : Path) (m : Moment) :
    (fs.cacheGet p m).1 = entry fs p m.now := by
  unfold FileSystem.cacheGet entry
  cases fs.cache with
  | none => rfl
  | some c => exact Cache.get_eq_freshAt c p m

theorem cacheGet_left {it : CacheItem L} (h : entry (fs.cacheGet p m).2 p t = some it) :
    (fs.cacheGet p m).1 = some it := by
  unfold FileSystem.cacheGet at h ⊢
  cases hc : fs.cache with
  | none =>
    rw [hc, entry, hc] at h
    cases h
  | some c =>
    rw [hc] at h
    exact Cache.get_left h

theorem cacheGet_frame (fs : FileSystem L) (q : Path) (m : Moment) :
    (fs.cacheGet q m).2.remote = fs.remote ∧ (fs.cacheGet q m).2.readBuffer = fs.readBuffer ∧
      (fs.cacheGet q m).2.writeBuffer = fs.writeBuffer := by
  unfold FileSystem.cacheGet
  cases fs.cache <;> exact ⟨rfl, rfl, rfl⟩

theorem Entries.cacheGet (h : Entries fs p t Q) (q : Path) (m : Moment) :
    Entries (fs.cacheGet q m).2 p t Q := by
  intro it he
  apply h
  unfold FileSystem.cacheGet at he
  cases hc : fs.cache with
  | none => rw [hc] at he; exact he
  | some c =>
    rw [hc] at he
    exact Option.bind_eq_some_iff.mpr ⟨c, hc, Cache.get_sub c q m p t it he⟩

theorem Entries.put_ne {item : CacheItem L} {inv : Bool} (h : Entries fs p t Q) (hq : q ≠ p) :
    Entries (fs.onCache fun c => c.put q item inv m) p t Q :=
  h.onCache fun _ _ _ he => Or.inl (Cache.put_ne (Ne.symm hq) he)

theorem Entries.cachePutAttr_ne {a : Attributes} (h : Entries fs p t Q) (hq : q ≠ p) :
    Entries (fs.onCache fun c => ClientCache.cachePutAttr c q a m) p t Q := by
  unfold ClientCache.cachePutAttr
  cases q.fileName with
  | none => exact h.onCache_sub Cache.Sub.refl
  | some name => exact h.put_ne hq

theorem Entries.putNamed_ne {item : OsString → CacheItem L} (h : Entries fs p t Q)
    (hq : q ≠ p) : Entries (fs.putNamed q item m) p t Q := by
  unfold FileSystem.putNamed
  cases q.fileName with
  | none => exact h
  | some name => exact h.onCache fun _ _ _ he => Or.inl (Cache.putNew_ne (Ne.symm hq) he)

theorem putNamed_self {item : OsString → CacheItem L} {name : OsString}
    (hname : p.fileName = some name) (hi : Q (item name)) :
    Entries (fs.putNamed p item m) p t Q := by
  intro it he
  unfold FileSystem.putNamed at he
  rw [hname] at he
  obtain ⟨c, -, hfresh⟩ := entry_onCache he
  rw [Cache.putNew_self hfresh]
  exact hi

theorem Entries.put_bare (hR : AboutPages R) (h : Entries fs p t (Good R A)) (ht : t ≤ m.now)
    {item : CacheItem L} (hi : Bare item)
    (ha : q = p → ∀ a, item.getAttributes = some a → A a) :
    Entries (fs.onCache fun c => c.put q item false m) p t (Good R A) := by
  refine h.onCache ?_
  intro c it hc he
  by_cases hq : p = q
  · right
    subst hq
    rcases Cache.put_self he with rfl | ⟨old, hold, rfl⟩
    · exact good_bare hR hi (ha rfl)
    · have hgood := h old (Option.bind_eq_some_iff.mpr
        ⟨c, hc, Cache.freshAt_earlier ht hold⟩)
      exact good_update hR hgood hi (ha rfl)
  · exact Or.inl (Cache.put_ne hq he)

theorem Entries.cachePutAttr (hR : AboutPages R) (h : Entries fs p t (Good R A))
    (ht : t ≤ m.now) {a : Attributes} (ha : q = p → A a) :
    Entries (fs.onCache fun c => cachePutAttr c q a m) p t (Good R A) := by
  unfold ClientCache.cachePutAttr
  cases q.fileName with
  | none => exact h.onCache_sub Cache.Sub.refl
  | some name =>
    obtain ⟨hb, hattr⟩ := bare_ofAttributes (L := L) name a
    refine h.put_bare hR ht hb ?_
    intro hq b hbattr
    rw [hattr] at hbattr
    injection hbattr with hbattr
    exact hbattr ▸ ha hq

theorem Entries.putNamed (hR : AboutPages R) (h : Entries fs p t (Good R A))
    {item : OsString → CacheItem L} (hi : ∀ name, Bare (item name))
    (ha : q = p → ∀ name a, (item name).getAttributes = some a → A a) :
    Entries (fs.putNamed q item m) p t (Good R A) := by
  unfold FileSystem.putNamed
  cases q.fileName with
  | none => exact h
  | some name =>
    refine h.onCache ?_
    intro c it _ he
    by_cases hq : p = q
    · right
      subst hq
      rw [Cache.putNew_self he]
      exact good_bare hR (hi name) (ha rfl name)
    · exact Or.inl (Cache.putNew_ne hq he)

theorem putNamed_frame (fs : FileSystem L) (q : Path) (item : OsString → CacheItem L)
    (m : Moment) : (fs.putNamed q item m).remote = fs.remote ∧
      (fs.putNamed q item m).readBuffer = fs.readBuffer ∧
      (fs.putNamed q item m).writeBuffer = fs.writeBuffer := by
  unfold FileSystem.putNamed
  cases q.fileName <;> exact ⟨rfl, rfl, rfl⟩

theorem getAttributes_frame (fs : FileSystem L) (q : Path) (env : Env) :
    (fs.getAttributes q env).2.remote = fs.remote ∧
      (fs.getAttributes q env).2.readBuffer = fs.readBuffer ∧
      (fs.getAttributes q env).2.writeBuffer = fs.writeBuffer := by
  have hget := cacheGet_frame fs q (env 0).toMoment
  unfold FileSystem.getAttributes
  dsimp only
  split
  · exact hget
  · split
    · exact hget
    · exact hget

theorem Entries.getAttributes (hR : AboutPages R) (h : Entries fs p t (Good R A))
    (ht : ∀ i, t ≤ (env i).now) (ha : ∀ a, fs.remote.getAttributes p = some a → A a) (q : Path) :
    Entries (fs.getAttributes q env).2 p t (Good R A) := by
  have hget := h.cacheGet q (env 0).toMoment
  unfold FileSystem.getAttributes
  dsimp only
  split
  · exact hget
  · split
    · exact hget
    · rename_i a hsent
      refine hget.cachePutAttr hR (ht 2) ?_
      rintro rfl
      have hsome := (FileSystem.sent_ok.mp hsent).2.2
      rw [(cacheGet_frame fs q (env 0).toMoment).1] at hsome
      exact ha a hsome

/-- The attributes a caller gets are those of the fresh item or of the server. -/
theorem getAttributes_result {a : Attributes} (h : (fs.getAttributes p env).1 = .ok a) :
    (∃ it, entry fs p (env 0).now = some it ∧ it.getAttributes = some a) ∨
      fs.remote.getAttributes p = some a := by
  unfold FileSystem.getAttributes at h
  dsimp only at h
  split at h
  · rename_i b hb
    injection h with h
    obtain ⟨it, hit, hattr⟩ := Option.bind_eq_some_iff.mp hb
    rw [cacheGet_entry] at hit
    exact Or.inl ⟨it, hit, h ▸ hattr⟩
  · split at h
    · cases h
    · rename_i b hb
      injection h with h
      have hsome := (FileSystem.sent_ok.mp hb).2.2
      rw [(cacheGet_frame fs p (env 0).toMoment).1] at hsome
      exact Or.inr (h ▸ hsome)

end Frames

section Written

variable {f g w : CachedFile L} {p : Path} {offset x : ℕ} {data : List UInt8} {b : UInt8}
variable {P : ℕ → UInt8 → Prop}

def written (L : PageLimits) (p : Path) (offset : ℕ) (data : List UInt8) : CachedFile L :=
  (CachedFile.new (p.fileName.getD (.text "")) none).writeContent offset data

/-- A merge in this order comes to the page of the position before the page limit. -/
def Reaches (f w : CachedFile L) (walk : HashOrder ℕ) (x : ℕ) : Prop :=
  (pagesMerged f.file (walk.order w.file.content.keys) (x / L.pageSize)).card < L.maxPages

/-- A merge may leave a zero at the position, between the pages' valid intervals. -/
def Gap (f w : CachedFile L) (x : ℕ) : Prop :=
  BridgedByMerge L f.file w.file x ∧ ∃ walk, Reaches f w walk x

def Replaced (f w : CachedFile L) (x : ℕ) : Prop :=
  w.byteAt x ≠ none ∧ ∀ walk, Reaches f w walk x

theorem written_byteAt (h : (written L p offset data).byteAt x = some b) :
    offset ≤ x ∧ data[x - offset]? = some b := by
  obtain ⟨stored, rest, hs, hspec⟩ := writeContent_stored
    (CachedFile.new (L := L) (p.fileName.getD (.text "")) none) offset data
  rcases served_after_write hspec hs h with hold | ⟨h₁, h₂, -⟩ | ⟨⟨-, page, hl, -⟩, -⟩
  · rw [CachedFile.new, File.byteAt_new] at hold
    cases hold
  · exact ⟨h₁, h₂⟩
  · simp [CachedFile.new, File.new] at hl

/-- A byte of a merged file comes from one of the two files or is the zero of a gap. -/
theorem merge_byteAt {walk : HashOrder ℕ} (h : (f.merge w walk).byteAt x = some b) :
    w.byteAt x = some b ∨ (f.byteAt x = some b ∧ ¬Replaced f w x) ∨ b = 0 ∧ Gap f w x := by
  have hspec := (merge_merged f w walk).2
  have hmem : ∀ k ∈ walk.order w.file.content.keys, k ∈ w.file.content := fun k hk =>
    AList.mem_keys.mpr ((walk.perm _).mem_iff.mp hk)
  rcases hspec.origin f.wellFormed w.wellFormed hmem h with ⟨hw, -, -⟩ | hf | ⟨h0, hb, -, hr⟩
  · exact Or.inl hw
  · by_cases hrep : Replaced f w x
    · left
      obtain ⟨c, hc⟩ := Option.ne_none_iff_exists'.mp hrep.1
      obtain ⟨page, hl, -⟩ := mem_of_byteAt hc
      have hk : x / L.pageSize ∈ walk.order w.file.content.keys := by
        rw [(walk.perm _).mem_iff, ← AList.mem_keys, ← AList.lookup_isSome, hl]
        rfl
      have hreached := hspec.reached f.wellFormed w.wellFormed hk (hrep.2 walk) hc
      rw [CachedFile.byteAt, hreached] at h
      rw [hc]
      exact h
    · exact Or.inr (Or.inl ⟨hf, hrep⟩)
  · exact Or.inr (Or.inr ⟨h0, hb, walk, hr⟩)

theorem SamePages.byteAt (h : SamePages f g) (x : ℕ) : g.byteAt x = f.byteAt x :=
  File.byteAt_congr (h _)

theorem SamePages.gap (h : SamePages f g) (hg : Gap g w x) : Gap f w x := by
  obtain ⟨⟨page, pg, hl, hl', hb⟩, walk, hr⟩ := hg
  refine ⟨⟨page, pg, by rw [← h]; exact hl, hl', hb⟩, walk, ?_⟩
  have hpages : pages g.file = pages f.file := by
    ext k
    simp only [pages, List.mem_toFinset, ← AList.mem_keys, ← AList.lookup_isSome, h k]
  rw [Reaches, pagesMerged] at hr ⊢
  rwa [← hpages]

theorem not_gap_bare (hf : f.file.content.keys = []) : ¬Gap f w x := by
  rintro ⟨⟨page, pg, hl, -⟩, -⟩
  have hk : x / L.pageSize ∈ f.file.content.keys := by
    rw [← AList.mem_keys, ← AList.lookup_isSome, hl]
    rfl
  rw [hf] at hk
  cases hk

def BytesAre (P : ℕ → UInt8 → Prop) (f : CachedFile L) : Prop :=
  ∀ x b, f.byteAt x = some b → P x b

theorem byteAt_bare (hf : f.file.content.keys = []) : f.byteAt x = none := by
  refine File.byteAt_of_missing (AList.lookup_eq_none.mpr ?_)
  rw [AList.mem_keys, hf]
  exact List.not_mem_nil

theorem bytesAre_aboutPages : AboutPages (BytesAre (L := L) P) := by
  constructor
  · intro f hf x b hb
    rw [byteAt_bare hf] at hb
    cases hb
  · intro f g hs hf x b hb
    rw [hs.byteAt] at hb
    exact hf x b hb

def GapsAre (P : ℕ → UInt8 → Prop) (w f : CachedFile L) : Prop := ∀ x, Gap f w x → P x 0

theorem gapsAre_aboutPages : AboutPages (GapsAre P w) :=
  ⟨fun _ hf _ hg => (not_gap_bare hf hg).elim, fun _ _ hs hf x hg => hf x (hs.gap hg)⟩

/-- Where a gap is served, a later position is served by one of the two files. -/
theorem gap_below (h : Gap f w x) :
    ∃ y c, x < y ∧ (f.byteAt y = some c ∨ w.byteAt y = some c) := by
  obtain ⟨⟨page, pg, hl, hl', hb⟩, -⟩ := h
  have hdm := Nat.div_add_mod x L.pageSize
  have hwf := f.wellFormed _ _ hl
  have hwf' := w.wellFormed _ _ hl'
  have hv := hwf.valid
  have hv' := hwf'.valid
  have hup := hwf.upTo_le
  have hup' := hwf'.upTo_le
  rcases hb with ⟨-, h₂⟩ | ⟨-, h₂⟩
  · obtain ⟨c, hc, -⟩ := FilePage.byteAt_isSome hwf'.toSound le_rfl hv'
    obtain ⟨hk, ho⟩ := page_of_parts (L := L) (k := x / L.pageSize)
      (show pg.validFrom < L.pageSize by omega)
    refine ⟨x / L.pageSize * L.pageSize + pg.validFrom, c, ?_, Or.inr ?_⟩
    · rw [Nat.mul_comm]; omega
    · rw [CachedFile.byteAt, File.byteAt_of_lookup (by rw [hk]; exact hl'), ho]
      exact hc
  · obtain ⟨c, hc, -⟩ := FilePage.byteAt_isSome hwf.toSound le_rfl hv
    obtain ⟨hk, ho⟩ := page_of_parts (L := L) (k := x / L.pageSize)
      (show page.validFrom < L.pageSize by omega)
    refine ⟨x / L.pageSize * L.pageSize + page.validFrom, c, ?_, Or.inl ?_⟩
    · rw [Nat.mul_comm]; omega
    · rw [CachedFile.byteAt, File.byteAt_of_lookup (by rw [hk]; exact hl), ho]
      exact hc

end Written

section Fills

variable {fs : FileSystem L} {p q : Path} {t offset size : ℕ} {data : List UInt8}
variable {P : ℕ → UInt8 → Prop} {A : Attributes → Prop} {Q : CacheItem L → Prop}
variable {env : Env} {m : Moment} {inv : Bool}

theorem Entries.cacheWriteFile_ne (h : Entries fs p t Q) (hq : q ≠ p) :
    Entries (fs.onCache fun c => cacheWriteFile c q offset data inv m) p t Q := by
  refine h.onCache ?_
  intro c it _ he
  unfold cacheWriteFile at he
  split at he
  · exact Or.inl he
  · exact Or.inl (Cache.put_ne (Ne.symm hq) he)

theorem update_file_byteAt {old : CacheItem L} {w : CachedFile L} {walk : HashOrder ℕ} {x : ℕ}
    {b : UInt8} (h : (old.update walk (.file w)).byteAt x = some b) :
    w.byteAt x = some b ∨ ∃ f, old = .file f ∧ (f.merge w walk).byteAt x = some b := by
  cases old with
  | file f => exact Or.inr ⟨f, rfl, h⟩
  | symLink l => exact Or.inl h
  | directory d => exact Or.inl h

theorem update_file_attributes {old : CacheItem L} {w : CachedFile L} {walk : HashOrder ℕ}
    {a : Attributes} (hw : w.file.attributes = none)
    (h : (old.update walk (.file w)).getAttributes = some a) : old.getAttributes = some a := by
  cases old with
  | file f =>
    rcases merge_attributes h with h | h
    · rw [hw] at h; cases h
    · exact h
  | symLink l => cases hw.symm.trans h
  | directory d => cases hw.symm.trans h

theorem written_attributes : (written L p offset data).file.attributes = none := by
  obtain ⟨stored, rest, -, hspec⟩ := writeContent_stored
    (CachedFile.new (L := L) (p.fileName.getD (.text "")) none) offset data
  exact hspec.attributes

theorem written_name : (written L p offset data).file.name = p.fileName.getD (.text "") := by
  obtain ⟨stored, rest, -, hspec⟩ := writeContent_stored
    (CachedFile.new (L := L) (p.fileName.getD (.text "")) none) offset data
  exact hspec.name

theorem byteAt_invalidate (it : CacheItem L) (x : ℕ) :
    it.invalidateAttributes.byteAt x = it.byteAt x := by
  cases it <;> rfl

theorem attributes_invalidate (it : CacheItem L) :
    it.invalidateAttributes.getAttributes = none := by
  cases it <;> rfl

theorem good_of_byteAt {it : CacheItem L} (hb : ∀ x b, it.byteAt x = some b → P x b)
    (ha : ∀ a, it.getAttributes = some a → A a) : Good (BytesAre P) A it := by
  refine ⟨?_, ha⟩
  rintro f rfl
  exact hb

/-- What the cache serves after it took bytes of the path: the bytes, what they did not
replace, and the zeros of gaps. -/
theorem Entries.cacheWriteFile (ht : t ≤ m.now)
    (hold : ∀ f x b, entry fs p t = some (.file f) → f.byteAt x = some b →
      P x b ∨ p.fileName ≠ none ∧ Replaced f (written L p offset data) x)
    (hdata : ∀ x b, offset ≤ x → data[x - offset]? = some b → P x b)
    (hgap : ∀ f, entry fs p t = some (.file f) → GapsAre P (written L p offset data) f)
    (hattr : inv = false ∨ p.fileName = none →
      ∀ old a, entry fs p t = some old → old.getAttributes = some a → A a) :
    Entries (fs.onCache fun c => cacheWriteFile c p offset data inv m) p t
      (Good (BytesAre P) A) := by
  intro it he
  obtain ⟨c, hc, hfresh⟩ := entry_onCache he
  unfold ClientCache.cacheWriteFile at hfresh
  cases hname : p.fileName with
  | none =>
    rw [hname] at hfresh
    have hentry : entry fs p t = some it := Option.bind_eq_some_iff.mpr ⟨c, hc, hfresh⟩
    refine good_of_byteAt ?_ (fun a h => hattr (Or.inr hname) it a hentry h)
    intro x b hb
    cases it with
    | file f => exact (hold f x b hentry hb).resolve_right fun h => h.1 hname
    | symLink l => cases hb
    | directory d => cases hb
  | some name =>
    rw [hname] at hfresh
    have hw : written L p offset data = (CachedFile.new name none).writeContent offset data := by
      rw [written, hname, Option.getD_some]
    dsimp only at hfresh
    rw [← hw] at hfresh
    have hown : ∀ x b, (written L p offset data).byteAt x = some b → P x b := by
      intro x b hb
      obtain ⟨h₁, h₂⟩ := written_byteAt hb
      exact hdata x b h₁ h₂
    rcases Cache.put_self hfresh with rfl | ⟨old, hfr, hit⟩
    · refine good_of_byteAt hown ?_
      intro a h
      rw [CacheItem.getAttributes, written_attributes] at h
      cases h
    · have hentry : entry fs p t = some old :=
        Option.bind_eq_some_iff.mpr ⟨c, hc, Cache.freshAt_earlier ht hfr⟩
      refine good_of_byteAt ?_ ?_
      · intro x b hb
        have hb' : (old.update m.pages (.file (written L p offset data))).byteAt x = some b := by
          rw [hit] at hb
          cases inv with
          | false => exact hb
          | true => rw [← byteAt_invalidate]; exact hb
        rcases update_file_byteAt hb' with hb' | ⟨f, rfl, hb'⟩
        · exact hown x b hb'
        · rcases merge_byteAt hb' with h | ⟨h, hnot⟩ | ⟨rfl, h⟩
          · exact hown x b h
          · exact (hold f x b hentry h).resolve_right fun h => hnot h.2
          · exact hgap f hentry x h
      · intro a h
        rw [hit] at h
        cases inv with
        | false =>
          exact hattr (Or.inl rfl) old a hentry (update_file_attributes written_attributes h)
        | true =>
          simp only [↓reduceIte, attributes_invalidate] at h
          cases h

end Fills

section Reads

variable {fs : FileSystem L} {p q : Path} {t o s : ℕ} {env : Env}
variable {P : ℕ → UInt8 → Prop} {A : Attributes → Prop} {Q : CacheItem L → Prop}

def fetched (fs : FileSystem L) (p : Path) (o s now : ℕ) : Option (List UInt8) :=
  if fs.readBuffer.read p o s now ≠ [] then some (fs.readBuffer.read p o s now)
  else fs.remote.readFile p o fs.readBuffer.capacity

def BufferIs (fs : FileSystem L) (p : Path) (t : ℕ) (P : ℕ → UInt8 → Prop) : Prop :=
  ∀ x b, fs.readBuffer.byteAt t p x = some b → P x b

def ServerIs (fs : FileSystem L) (p : Path) (P : ℕ → UInt8 → Prop) : Prop :=
  ∀ o size data, fs.remote.readFile p o size = some data → ∀ i b, data[i]? = some b → P (o + i) b

/-- The result of a read: bytes as `P` says, no more than asked for, and at least one if the
server has one. -/
structure ResultOk (fs : FileSystem L) (p : Path) (P : ℕ → UInt8 → Prop) (o s : ℕ)
    (r : List UInt8) : Prop where
  length_le : r.length ≤ s
  bytes : ∀ i b, r[i]? = some b → P (o + i) b
  nonempty : (∀ data, fs.remote.readFile p o fs.readBuffer.capacity = some data → data ≠ []) →
    0 < s → r ≠ []

structure ReadOk (fs : FileSystem L) (p : Path) (t : ℕ) (P : ℕ → UInt8 → Prop)
    (A : Attributes → Prop) (done : FileSystem L) : Prop where
  entries : Entries done p t (Good (BytesAre P) A)
  buffer : BufferIs done p t P
  remote : done.remote = fs.remote
  writeBuffer : done.writeBuffer = fs.writeBuffer
  capacity : done.readBuffer.capacity = fs.readBuffer.capacity

theorem readRemote_result {r : List UInt8} (hs : ServerIs fs p P)
    (h : (fs.readRemote p o s env).1 = .ok r) : ResultOk fs p P o s r := by
  unfold FileSystem.readRemote at h
  split at h
  · cases h
  · rename_i data hsent
    injection h with h
    subst h
    have hread := (FileSystem.sent_ok.mp hsent).2.2
    refine ⟨List.length_take_le _ _, ?_, ?_⟩
    · intro i b hi
      rw [List.getElem?_take] at hi
      split at hi
      · exact hs o _ data hread i b hi
      · cases hi
    · intro hne hpos
      have := List.length_pos_of_ne_nil (hne data hread)
      apply List.ne_nil_of_length_pos
      rw [List.length_take]
      omega

theorem readBuffered_result {r : List UInt8} (ht : ∀ i, t ≤ (env i).now) (hb : BufferIs fs p t P)
    (hs : ServerIs fs p P) (h : (fs.readBuffered p o s env).1 = .ok r) :
    ResultOk fs p P o s r := by
  unfold FileSystem.readBuffered at h
  dsimp only at h
  by_cases hne : fs.readBuffer.read p o s (env 0).now ≠ []
  · rw [if_pos hne] at h
    injection h with h
    subst h
    refine ⟨?_, ?_, fun _ _ => hne⟩
    · refine Nat.le_of_not_lt fun hlt => ?_
      have := (ReadBuffer.read_getElem? (List.getElem?_eq_getElem hlt)).2
      omega
    · exact fun i b hi => hb _ b (ReadBuffer.byteAt_later (ht 0) (ReadBuffer.read_getElem? hi).1)
  · rw [if_neg hne] at h
    exact readRemote_result hs h

theorem readCached_result {r : List UInt8} (ht : ∀ i, t ≤ (env i).now)
    (hc : Entries fs p t (Good (BytesAre P) A)) (hb : BufferIs fs p t P) (hs : ServerIs fs p P)
    (h : (fs.readCached p o s env).1 = .ok r) : ResultOk fs p P o s r := by
  obtain ⟨hrem, hrb, -⟩ := cacheGet_frame fs p (env 0).toMoment
  have hentry := cacheGet_entry fs p (env 0).toMoment
  unfold FileSystem.readCached at h
  dsimp only at h
  split at h
  · rename_i hne
    injection h with h
    subst h
    unfold FileSystem.cachedBytes at hne ⊢
    split at hne
    · rename_i f hf
      have hspec := read_served f o s
      refine ⟨hspec.length_le, ?_, fun _ _ => hne⟩
      intro i b hi
      have hserved := hspec.served i (List.getElem?_eq_some_iff.mp hi).1
      have hfresh := entry_earlier (ht 0) (hentry.symm.trans hf)
      exact (hc _ hfresh).file f rfl _ b (hserved.trans hi)
    · exact (hne rfl).elim
  · have hbuffered := readBuffered_result (s := s) (fun i => ht (1 + i))
      (by rw [BufferIs, hrb]; exact hb) (by rw [ServerIs, hrem]; exact hs) h
    exact ⟨hbuffered.length_le, hbuffered.bytes, by rw [← hrem, ← hrb]; exact hbuffered.nonempty⟩

/-- What a read returns from a memory and a server whose bytes are as `P` says. -/
theorem readFile_result {r : List UInt8} (ht : ∀ i, t ≤ (env i).now)
    (hc : Entries fs p t (Good (BytesAre P) A)) (hb : BufferIs fs p t P) (hs : ServerIs fs p P)
    (ha : ∀ a, fs.remote.getAttributes p = some a → A a)
    (h : (fs.readFile p o s env).1 = .ok r) :
    (r = [] ∧ ∃ a, A a ∧ a.size ≤ o) ∨ ResultOk fs p P o s r := by
  obtain ⟨hrem, hrb, -⟩ := getAttributes_frame fs p env
  have hattr := hc.getAttributes bytesAre_aboutPages ht ha p
  have hcached : ∀ r, ((fs.getAttributes p env).2.readCached p o s (env.drop 3)).1 = .ok r →
      ResultOk fs p P o s r := by
    intro r h
    have hres := readCached_result (s := s) (fun i => ht (3 + i)) hattr
      (by rw [BufferIs, hrb]; exact hb) (by rw [ServerIs, hrem]; exact hs) h
    exact ⟨hres.length_le, hres.bytes, by rw [← hrem, ← hrb]; exact hres.nonempty⟩
  unfold FileSystem.readFile at h
  dsimp only at h
  split at h
  · rename_i a hget
    split at h
    · rename_i hle
      injection h with h
      left
      refine ⟨h.symm, a, ?_, hle⟩
      rcases getAttributes_result hget with ⟨it, hit, hita⟩ | hserver
      · exact (hc it (entry_earlier (ht 0) hit)).attributes a hita
      · exact ha a hserver
    · exact Or.inr (hcached r h)
  · exact Or.inr (hcached r h)

theorem readRemote_ok (ht : ∀ i, t ≤ (env i).now)
    (h : Entries fs p t (Good (fun f => BytesAre P f ∧ ∀ data,
      fs.remote.readFile p o fs.readBuffer.capacity = some data →
        GapsAre P (written L p o data) f) A))
    (hb : BufferIs fs p t P) (hs : ServerIs fs p P) :
    ReadOk fs p t P A (fs.readRemote p o s env).2 := by
  have hentries : Entries fs p t (Good (BytesAre P) A) := fun it he =>
    ⟨fun f hf => ((h it he).file f hf).1, (h it he).attributes⟩
  unfold FileSystem.readRemote
  split
  · exact ⟨hentries, hb, rfl, rfl, rfl⟩
  · rename_i data hsent
    have hread := (FileSystem.sent_ok.mp hsent).2.2
    have hdata := hs o _ data hread
    refine ⟨?_, ?_, rfl, rfl, rfl⟩
    · refine Entries.cacheWriteFile (ht 2) ?_ ?_ ?_ ?_
      · intro f x b he hx
        exact Or.inl (((h _ he).file f rfl).1 x b hx)
      · intro x b hx hb
        have := hdata (x - o) b hb
        rwa [Nat.add_sub_cancel' hx] at this
      · intro f he
        exact ((h _ he).file f rfl).2 data hread
      · intro _ old a he
        exact (h old he).attributes a
    · intro x b hx
      obtain ⟨-, ho, hd⟩ := ReadBuffer.byteAt_fill hx
      have := hdata (x - o) b hd
      rwa [Nat.add_sub_cancel' ho] at this

theorem readBuffered_ok (ht : ∀ i, t ≤ (env i).now)
    (h : Entries fs p t (Good (fun f => BytesAre P f ∧ ∀ data,
      fetched fs p o s (env 0).now = some data → GapsAre P (written L p o data) f) A))
    (hb : BufferIs fs p t P) (hs : ServerIs fs p P) :
    ReadOk fs p t P A (fs.readBuffered p o s env).2 := by
  unfold FileSystem.readBuffered
  unfold fetched at h
  dsimp only
  by_cases hne : fs.readBuffer.read p o s (env 0).now ≠ []
  · rw [if_pos hne] at h ⊢
    have hdata : ∀ i b, (fs.readBuffer.read p o s (env 0).now)[i]? = some b → P (o + i) b :=
      fun i b hi => hb _ b (ReadBuffer.byteAt_later (ht 0) (ReadBuffer.read_getElem? hi).1)
    refine ⟨?_, hb, rfl, rfl, rfl⟩
    · refine Entries.cacheWriteFile (ht 1) ?_ ?_ ?_ ?_
      · intro f x b he hx
        exact Or.inl (((h _ he).file f rfl).1 x b hx)
      · intro x b hx hb
        have := hdata (x - o) b hb
        rwa [Nat.add_sub_cancel' hx] at this
      · intro f he
        exact ((h _ he).file f rfl).2 _ rfl
      · intro _ old a he
        exact (h old he).attributes a
  · rw [if_neg hne] at h ⊢
    exact readRemote_ok (fun i => ht (1 + i)) h hb hs

/-- A read of the cached file is empty only where the file does not serve its first byte. -/
theorem read_nil {f : CachedFile L} (h : f.read o s = []) : f.byteAt o = none ∨ s = 0 := by
  have hspec := read_served f o s
  rw [h] at hspec
  by_cases hs : s = 0
  · exact Or.inr hs
  · exact Or.inl (hspec.stop (by rw [List.length_nil]; omega))

/-- What the bytes fetched by a read may do to the cached file, if it does not serve the
read itself. -/
def MissGaps (fs : FileSystem L) (p : Path) (o s now : ℕ) (P : ℕ → UInt8 → Prop)
    (f : CachedFile L) : Prop :=
  f.byteAt o = none ∨ s = 0 →
    ∀ data, fetched fs p o s now = some data → GapsAre P (written L p o data) f

theorem AboutPages.and {R R' : CachedFile L → Prop} (h : AboutPages R) (h' : AboutPages R') :
    AboutPages fun f => R f ∧ R' f :=
  ⟨fun f hf => ⟨h.bare f hf, h'.bare f hf⟩,
    fun f g hs hf => ⟨h.same f g hs hf.1, h'.same f g hs hf.2⟩⟩

theorem missGaps_aboutPages {now : ℕ} : AboutPages (MissGaps fs p o s now P) := by
  constructor
  · exact fun f hf _ data _ => gapsAre_aboutPages.bare f hf
  · intro f g hsame hf hmiss data hd
    rw [hsame.byteAt] at hmiss
    exact gapsAre_aboutPages.same f g hsame (hf hmiss data hd)

theorem readCached_ok (ht : ∀ i, t ≤ (env i).now)
    (h : Entries fs p t (Good (fun f => BytesAre P f ∧ MissGaps fs p o s (env 1).now P f) A))
    (hb : BufferIs fs p t P) (hs : ServerIs fs p P) :
    ReadOk fs p t P A (fs.readCached p o s env).2 := by
  obtain ⟨hrem, hrb, hwb⟩ := cacheGet_frame fs p (env 0).toMoment
  have hentry := cacheGet_entry fs p (env 0).toMoment
  have hget := h.cacheGet p (env 0).toMoment
  have hleft : ∀ t it, entry (fs.cacheGet p (env 0).toMoment).2 p t = some it →
      (fs.cacheGet p (env 0).toMoment).1 = some it := fun _ _ => cacheGet_left
  unfold FileSystem.readCached
  dsimp only
  obtain ⟨got, hgot⟩ : ∃ got, got = fs.cacheGet p (env 0).toMoment := ⟨_, rfl⟩
  rw [← hgot] at hrem hrb hwb hentry hget hleft ⊢
  obtain ⟨data, hdata⟩ : ∃ data, data = FileSystem.cachedBytes got.1 o s := ⟨_, rfl⟩
  rw [← hdata]
  by_cases hne : data ≠ []
  · rw [if_pos hne]
    refine ⟨?_, ?_, hrem, hwb, by rw [hrb]⟩
    · exact fun it he => ⟨fun f hf => ((hget it he).file f hf).1, (hget it he).attributes⟩
    · rw [BufferIs, hrb]; exact hb
  · rw [if_neg hne]
    have hmiss : Entries got.2 p t (Good (fun f => BytesAre P f ∧ ∀ data,
        fetched got.2 p o s (env 1).now = some data → GapsAre P (written L p o data) f) A) := by
      intro it he
      refine ⟨?_, (hget it he).attributes⟩
      rintro f rfl
      obtain ⟨hbytes, hgaps⟩ := (hget _ he).file f rfl
      refine ⟨hbytes, ?_⟩
      rw [hleft t _ he] at hdata
      have hnil : f.read o s = [] := hdata.symm.trans (not_not.mp hne)
      rw [fetched, hrb, hrem]
      exact hgaps (read_nil hnil)
    have hok := readBuffered_ok (s := s) (fun i => ht (1 + i)) hmiss
      (by rw [BufferIs, hrb]; exact hb) (by rw [ServerIs, hrem]; exact hs)
    exact ⟨hok.entries, hok.buffer, hok.remote.trans hrem, hok.writeBuffer.trans hwb,
      hok.capacity.trans (by rw [hrb])⟩

/-- A read from a memory whose bytes are as `P` says leaves such a memory, unless what it
fetches leaves gaps. -/
theorem readFile_ok (ht : ∀ i, t ≤ (env i).now)
    (h : Entries fs p t (Good (fun f => BytesAre P f ∧ MissGaps fs p o s (env 4).now P f) A))
    (hb : BufferIs fs p t P) (hs : ServerIs fs p P)
    (ha : ∀ a, fs.remote.getAttributes p = some a → A a) :
    ReadOk fs p t P A (fs.readFile p o s env).2 := by
  obtain ⟨hrem, hrb, hwb⟩ := getAttributes_frame fs p env
  have hR : AboutPages (fun f : CachedFile L =>
      BytesAre P f ∧ MissGaps fs p o s (env 4).now P f) :=
    bytesAre_aboutPages.and missGaps_aboutPages
  have hattr := h.getAttributes hR ht ha p
  have hok : ReadOk fs p t P A ((fs.getAttributes p env).2.readCached p o s (env.drop 3)).2 := by
    have hcached := readCached_ok (s := s) (fun i => ht (3 + i))
      (by
        unfold MissGaps fetched
        rw [hrb, hrem]
        exact hattr)
      (by rw [BufferIs, hrb]; exact hb) (by rw [ServerIs, hrem]; exact hs)
    exact ⟨hcached.entries, hcached.buffer, hcached.remote.trans hrem,
      hcached.writeBuffer.trans hwb, hcached.capacity.trans (by rw [hrb])⟩
  unfold FileSystem.readFile
  dsimp only
  split
  · split
    · refine ⟨?_, by rw [BufferIs, hrb]; exact hb, hrem, hwb, by rw [hrb]⟩
      · exact fun it he => ⟨fun f hf => ((hattr it he).file f hf).1, (hattr it he).attributes⟩
    · exact hok
  · exact hok

end Reads

end ClientMemory
