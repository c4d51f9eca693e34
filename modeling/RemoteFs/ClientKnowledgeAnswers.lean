import RemoteFs.ClientKnowledgeReads

/-! # What answers tell

An answer tells of a path what the fresh item told, or what the server says. -/
namespace ClientKnowledgeAnswers

open ClientAttributes
open ClientCache
open ClientFileSystem
open ClientKnowledge
open ClientMemory
open ClientPageCache
open OsPaths
open RemoteTree

variable {L : PageLimits} {fs : FileSystem L} {F : Facts} {R : CachedFile L → Prop} {t : ℕ}
  {p q : Path} {env : Env}

theorem getAttributes_told {a : Attributes} (h : Entries fs q t (Tells F R))
    (ht : t ≤ (env 0).now) (hs : Says fs.remote q F) (hget : (fs.getAttributes q env).1 = .ok a) :
    F.attributes a := by
  rcases getAttributes_left hget with hserver | ⟨⟨it, hit, hattr⟩, -⟩
  · exact hs.attributes a hserver
  · exact (h it (entry_earlier ht hit)).attributes a hattr

theorem readSymlink_told {target : String} (h : Entries fs q t (Tells F R))
    (ht : t ≤ (env 0).now) (hs : Says fs.remote q F)
    (hread : (fs.readSymlink q env).1 = .ok target) : F.target target := by
  have hentry := cacheGet_entry fs q (env 0).toMoment
  unfold FileSystem.readSymlink at hread
  dsimp only at hread
  split at hread
  · rename_i name attributes cached hget
    have hit := entry_earlier ht (hentry.symm.trans hget)
    exact (h _ hit).target target (congrArg some (Except.ok.inj hread))
  · split at hread
    · cases hread
    · rename_i fetched hsent
      have hserver := (FileSystem.sent_ok.mp hsent).2.2
      rw [(cacheGet_frame fs q _).1, Except.ok.inj hread] at hserver
      exact hs.target target hserver

/-- A read is answered with bytes, behind attributes or by the server. -/
theorem readFile_answered {o s : ℕ} {r : List UInt8} (h : (fs.readFile q o s env).1 = .ok r) :
    r ≠ [] ∨ (∃ a, (fs.getAttributes q env).1 = .ok a) ∨
      ∃ size data, fs.remote.readFile q o size = some data := by
  obtain ⟨hremote, -, -⟩ := getAttributes_frame fs q env
  unfold FileSystem.readFile at h
  dsimp only at h
  split at h
  · rename_i a ha
    exact Or.inr (Or.inl ⟨a, ha⟩)
  · unfold FileSystem.readCached FileSystem.readBuffered at h
    dsimp only at h
    split at h
    · rename_i hne
      exact Or.inl (Except.ok.inj h ▸ hne)
    · split at h
      · rename_i hne
        exact Or.inl (Except.ok.inj h ▸ hne)
      · unfold FileSystem.readRemote at h
        split at h
        · cases h
        · rename_i data hsent
          have hserver := (FileSystem.sent_ok.mp hsent).2.2
          rw [(cacheGet_frame _ _ _).1, hremote] at hserver
          exact Or.inr (Or.inr ⟨_, data, hserver⟩)

/-! Listings -/

structure Told (F : Facts) (item : Item) : Prop where
  itemType : F.itemType item.itemType
  name : F.name item.name
  attributes : F.attributes item.attributes

theorem told_listed {it : CacheItem L} {item : Item} (h : Tells F R it)
    (hl : FileSystem.listed it = some item) : Told F item := by
  cases it with
  | file f =>
    obtain ⟨a, ha, rfl⟩ := Option.map_eq_some_iff.mp hl
    exact ⟨h.itemType, h.name, h.attributes a ha⟩
  | symLink l =>
    obtain ⟨a, ha, rfl⟩ := Option.map_eq_some_iff.mp hl
    exact ⟨h.itemType, h.name, h.attributes a ha⟩
  | directory d =>
    obtain ⟨a, ha, rfl⟩ := Option.map_eq_some_iff.mp hl
    exact ⟨h.itemType, h.name, h.attributes a ha⟩

theorem told_listPath {r : Remote} {names : List String} {items : List Item} {item : Item}
    (hl : r.listPath p names = some items) (hi : item ∈ items)
    (hs : Says r (p.child item.name) F) : Told F item := by
  obtain ⟨c, hc, htype, -⟩ := listPath_item hl hi
  exact ⟨htype ▸ hs.itemType c hc, hs.named (fileName_child p item.name),
    hs.attributes _ (Remote.listPath_attributes hl hi)⟩

section Listings

variable {G : Path → Facts}

theorem cachedChildren_told (hname : ∀ name n, (G (p.child name)).name n → n = name)
    (children : List OsString) : ∀ (fs : FileSystem L) (env : Env) (items : List Item),
      (∀ q, Entries fs q t (Tells (G q) R)) → (∀ i, t ≤ (env i).now) →
        (fs.cachedChildren p children env).1 = some items → items.map Item.name = children ∧
          ∀ item ∈ items, Told (G (p.child item.name)) item := by
  induction children with
  | nil =>
    intro fs env items _ _ h
    injection h with h
    subst h
    exact ⟨rfl, nofun⟩
  | cons child children ih =>
    intro fs env items hall ht h
    have hgot := cacheGet_entry fs (p.child child) (env 0).toMoment
    rw [FileSystem.cachedChildren] at h
    dsimp only at h
    split at h
    · cases h
    · rename_i item hitem
      obtain ⟨rest, hrest, rfl⟩ := Option.map_eq_some_iff.mp h
      obtain ⟨it, hit, hlisted⟩ := Option.bind_eq_some_iff.mp hitem
      have htold := told_listed (hall _ it (entry_earlier (ht 0) (hgot.symm.trans hit))) hlisted
      have hchild := hname child item.name htold.name
      obtain ⟨hnames, hrest⟩ := ih _ _ rest (fun q => (hall q).cacheGet _ _)
        (fun i => ht (1 + i)) hrest
      refine ⟨by rw [List.map_cons, hchild, hnames], fun i hi => ?_⟩
      rcases List.mem_cons.mp hi with rfl | hi
      · rw [hchild]
        exact htold
      · exact hrest i hi

def ListingTold (G : Path → Facts) (p : Path) (all : List Item) : Prop :=
  ∃ self parent children, all =
    ⟨.text ".", .directory, self⟩ :: ⟨.text "..", .directory, parent⟩ :: children ∧
      (G p).attributes self ∧ (G (getParentPath p)).attributes parent ∧
      (G p).children (children.map Item.name) ∧
      ∀ item ∈ children, Told (G (p.child item.name)) item

theorem withDots_told {items all : List Item} (hR : AboutPages R)
    (hall : ∀ q, Entries fs q t (Tells (G q) R)) (ht : ∀ i, t ≤ (env i).now)
    (hfresh : ∀ q, (G q).fresh) (hs : ∀ q, Says fs.remote q (G q))
    (hnames : (G p).children (items.map Item.name))
    (hitems : ∀ item ∈ items, Told (G (p.child item.name)) item)
    (h : (fs.withDots p items env).1 = .ok all) : ListingTold G p all := by
  unfold FileSystem.withDots at h
  dsimp only at h
  split at h
  · cases h
  · rename_i self hself
    split at h
    · cases h
    · rename_i parent hparent
      injection h with h
      have hlearned : ∀ q, Learned q t (G q) R fs (fs.getAttributes p env).2 := fun q =>
        learned_getAttributes hR (fun _ _ => hfresh q) (fun _ => hs q) p
      refine ⟨self, parent, items, h.symm, ?_, ?_, hnames, hitems⟩
      · exact getAttributes_told (hall p) (ht 0) (hs p) hself
      · refine getAttributes_told ((hlearned _).entries (hall _)) (ht 3) ?_ hparent
        rw [(hlearned p).remote]
        exact hs _

theorem readdirRemote_told {all : List Item} (hR : AboutPages R)
    (hall : ∀ q, Entries fs q t (Tells (G q) R)) (ht : ∀ i, t ≤ (env i).now)
    (hfresh : ∀ q, (G q).fresh) (hs : ∀ q, Says fs.remote q (G q))
    (hl : ListsTell fs.remote p (G p) env) (h : (fs.readdirRemote p env).1 = .ok all) :
    ListingTold G p all := by
  unfold FileSystem.readdirRemote at h
  split at h
  · cases h
  · rename_i items hsent
    obtain ⟨-, hreply, hlist⟩ := FileSystem.sent_ok.mp hsent
    have hnames := hl 0 items hreply hlist
    dsimp only at h
    split at h
    · cases h
    · rename_i a hself
      have hstored := fun q => learned_stored (F := G q) hR (Or.inl ht) (fun _ _ => hfresh q)
        (fun _ => hs q) hlist (fun hq _ => hq ▸ hnames) hself
      refine withDots_told hR (fun q => (hstored q).entries (hall q)) (fun i => ht _) hfresh ?_
        hnames (fun item hi => told_listPath hlist hi (hs _)) h
      rw [(hstored p).remote]
      exact hs

/-- A listing tells what its directory and its children told, or what the server says. -/
theorem readdir_told {all : List Item} (hR : AboutPages R)
    (hall : ∀ q, Entries fs q t (Tells (G q) R)) (ht : ∀ i, t ≤ (env i).now)
    (hfresh : ∀ q, (G q).fresh) (hs : ∀ q, Says fs.remote q (G q))
    (hl : ListsTell fs.remote p (G p) env)
    (hname : ∀ name n, (G (p.child name)).name n → n = name)
    (h : (fs.readdir p env).1 = .ok all) : ListingTold G p all := by
  have hget : ∀ q, Learned q t (G q) R fs (fs.cacheGet p (env 0).toMoment).2 := fun q =>
    learned_cacheGet fs p (env 0).toMoment
  have hgot := cacheGet_entry fs p (env 0).toMoment
  have hremote : ∀ {done : FileSystem L} {k : ℕ}, (∀ q, Learned q t (G q) R fs done) →
      (done.readdirRemote p (env.drop k)).1 = .ok all → ListingTold G p all := by
    intro done k hdone hres
    have hsame := (hdone p).remote
    refine readdirRemote_told hR (fun q => (hdone q).entries (hall q)) (fun i => ht (k + i))
      hfresh (by rw [hsame]; exact hs) ?_ hres
    rw [hsame]
    exact fun i => hl (k + i)
  unfold FileSystem.readdir at h
  dsimp only at h
  split at h
  · rename_i name attributes children hdir
    have hchildren : ∀ q, Learned q t (G q) R fs
        ((fs.cacheGet p (env 0).toMoment).2.cachedChildren p children (env.drop 1)).2 :=
      fun q => (hget q).trans (learned_cachedChildren p children _ (env.drop 1))
    split at h
    · rename_i items hitems
      obtain ⟨hnames, htold⟩ := cachedChildren_told hname children _ _ items
        (fun q => (hget q).entries (hall q)) (fun i => ht (1 + i)) hitems
      refine withDots_told hR (fun q => (hchildren q).entries (hall q)) (fun i => ht _) hfresh
        ?_ ?_ htold h
      · rw [(hchildren p).remote]
        exact hs
      · rw [hnames]
        have hit := entry_earlier (ht 0) (hgot.symm.trans hdir)
        exact (hall p _ hit).children children rfl
    · exact hremote hchildren h
  · exact hremote hget h

end Listings

end ClientKnowledgeAnswers
