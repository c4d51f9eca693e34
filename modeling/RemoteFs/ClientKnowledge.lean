import RemoteFs.ClientCalls

/-! # What a cached item tells about its path

Facts about one path, and the items that tell nothing else: merging two such items gives one.
Every call that fills the cache is followed down to the items it puts. -/
namespace ClientKnowledge

open ClientAttributes
open ClientCache
open ClientFileSystem
open ClientMemory
open ClientPageCache
open ClientReadBuffer
open ClientWriteBuffer
open OsPaths
open RemoteTree
open WriteLog

variable {L : PageLimits}

def itemType : CacheItem L → ItemType
  | .file _ => .file
  | .symLink _ => .symLink
  | .directory _ => .directory

def itemName : CacheItem L → OsString
  | .file f => f.file.name
  | .symLink l => l.name
  | .directory d => d.name

def namesOf : CacheItem L → Option (List OsString)
  | .directory d => d.children
  | _ => none

def targetOf : CacheItem L → Option String
  | .symLink l => l.target
  | _ => none

/-- What may be said about a path; `fresh` is about the time at which it is said. -/
structure Facts where
  fresh : Prop
  itemType : ItemType → Prop
  name : OsString → Prop
  attributes : Attributes → Prop
  children : List OsString → Prop
  target : String → Prop

structure Facts.Implies (F G : Facts) : Prop where
  fresh : F.fresh → G.fresh
  itemType : ∀ k, F.itemType k → G.itemType k
  name : ∀ n, F.name n → G.name n
  attributes : ∀ a, F.attributes a → G.attributes a
  children : ∀ names, F.children names → G.children names
  target : ∀ s, F.target s → G.target s

structure Tells (F : Facts) (R : CachedFile L → Prop) (it : CacheItem L) : Prop
    extends Good R F.attributes it where
  fresh : F.fresh
  itemType : F.itemType (itemType it)
  name : F.name (itemName it)
  children : ∀ names, namesOf it = some names → F.children names
  target : ∀ s, targetOf it = some s → F.target s

theorem Tells.mono {F G : Facts} {R S : CachedFile L → Prop} {it : CacheItem L}
    (h : Tells F R it) (hF : F.Implies G) (hR : ∀ f, R f → S f) : Tells G S it where
  file f hf := hR f (h.file f hf)
  attributes a ha := hF.attributes a (h.attributes a ha)
  fresh := hF.fresh h.fresh
  itemType := hF.itemType _ h.itemType
  name := hF.name _ h.name
  children names hn := hF.children names (h.children names hn)
  target s hs := hF.target s (h.target s hs)

section Items

variable {F F₀ : Facts} {R R₀ : CachedFile L → Prop} {old new it : CacheItem L}
  {w : CachedFile L} {walk : HashOrder ℕ} {P : ℕ → UInt8 → Prop}

theorem itemType_update : itemType (old.update walk new) = itemType new := by
  cases old <;> cases new <;> rfl

theorem itemName_update (old new : CacheItem L) (walk : HashOrder ℕ) :
    itemName (old.update walk new) = itemName old ∨
      itemName (old.update walk new) = itemName new := by
  cases old with
  | file f =>
    cases new with
    | file g => exact Or.inl (merge_name f g walk)
    | symLink l => exact Or.inr rfl
    | directory d => exact Or.inr rfl
  | symLink l => cases new <;> first | exact Or.inl rfl | exact Or.inr rfl
  | directory d => cases new <;> first | exact Or.inl rfl | exact Or.inr rfl

theorem namesOf_update {names : List OsString} (h : namesOf (old.update walk new) = some names) :
    namesOf new = some names ∨ namesOf new = none ∧ namesOf old = some names := by
  cases old with
  | directory d =>
    cases new with
    | directory d' =>
      simp only [CacheItem.update, namesOf, Directory.merge] at h ⊢
      split at h
      · exact Or.inl h
      · rename_i hnone
        exact Or.inr ⟨by simpa using hnone, h⟩
    | file g => exact Or.inl h
    | symLink l => exact Or.inl h
  | file f => cases new <;> exact Or.inl h
  | symLink l => cases new <;> exact Or.inl h

theorem targetOf_update {s : String} (h : targetOf (old.update walk new) = some s) :
    targetOf new = some s ∨ targetOf new = none ∧ targetOf old = some s := by
  cases old with
  | symLink l =>
    cases new with
    | symLink l' =>
      simp only [CacheItem.update, targetOf, SymLink.merge] at h ⊢
      split at h
      · exact Or.inl h
      · rename_i hnone
        exact Or.inr ⟨by simpa using hnone, h⟩
    | file g => exact Or.inl h
    | directory d => exact Or.inl h
  | file f => cases new <;> exact Or.inl h
  | directory d => cases new <;> exact Or.inl h

/-- A merge tells what the new item tells; where that one is silent, what the old one told. -/
theorem update_tells (hold : Tells F₀ R₀ old) (hnew : Tells F R new)
    (hname : ∀ n, F₀.name n → F.name n)
    (hfile : ∀ f, old.update walk new = .file f → R f)
    (hattr : new.getAttributes = none → ∀ a, F₀.attributes a → F.attributes a)
    (hchildren : namesOf new = none → ∀ names, F₀.children names → F.children names)
    (htarget : targetOf new = none → ∀ s, F₀.target s → F.target s) :
    Tells F R (old.update walk new) where
  file := hfile
  attributes a h := (attributes_update h).elim (hnew.attributes a)
    fun ho => hattr ho.1 a (hold.attributes a ho.2)
  fresh := hnew.fresh
  itemType := by rw [itemType_update]; exact hnew.itemType
  name := by
    rcases itemName_update old new walk with h | h
    · rw [h]; exact hname _ hold.name
    · rw [h]; exact hnew.name
  children names h := (namesOf_update h).elim (hnew.children names)
    fun ho => hchildren ho.1 names (hold.children names ho.2)
  target s h := (targetOf_update h).elim (hnew.target s)
    fun ho => htarget ho.1 s (hold.target s ho.2)

theorem update_bare_file (hR : AboutPages R) (hold : ∀ f, old = .file f → R f) (hb : Bare new) :
    ∀ f, old.update walk new = .file f → R f := by
  intro f hf
  cases old with
  | file g =>
    cases new with
    | file w =>
      injection hf with hf
      exact hf ▸ hR.same g _ (merge_bare hb) (hold g rfl)
    | symLink l => cases hf
    | directory d => cases hf
  | symLink l =>
    cases new with
    | file w => injection hf with hf; exact hf ▸ hR.bare w hb
    | symLink l' => cases hf
    | directory d => cases hf
  | directory d =>
    cases new with
    | file w => injection hf with hf; exact hf ▸ hR.bare w hb
    | symLink l => cases hf
    | directory d' => cases hf

theorem update_bare (hR : AboutPages R) (hold : Tells F R old) (hb : Bare new)
    (hnew : Tells F R new) : Tells F R (old.update walk new) :=
  update_tells hold hnew (fun _ h => h) (update_bare_file hR hold.file hb) (fun _ _ h => h)
    (fun _ _ h => h) fun _ _ h => h

/-- The bytes of a merge are those of the new file, the old ones that it does not replace, and
the zeros of gaps. -/
theorem bytesAre_merge {f : CachedFile L}
    (hold : ∀ x b, f.byteAt x = some b → P x b ∨ Replaced f w x) (hw : BytesAre P w)
    (hgap : GapsAre P w f) : BytesAre P (f.merge w walk) := by
  intro x b hb
  rcases merge_byteAt hb with h | ⟨h, hnot⟩ | ⟨rfl, h⟩
  · exact hw x b h
  · exact (hold x b h).resolve_right hnot
  · exact hgap x h

theorem update_written_file (hold : ∀ f, old = .file f → ∀ x b, f.byteAt x = some b →
      P x b ∨ Replaced f w x) (hw : BytesAre P w) (hgap : ∀ f, old = .file f → GapsAre P w f) :
    ∀ f, old.update walk (.file w) = .file f → BytesAre P f := by
  intro f hf
  cases old with
  | file g => injection hf with hf; exact hf ▸ bytesAre_merge (hold g rfl) hw (hgap g rfl)
  | symLink l => injection hf with hf; exact hf ▸ hw
  | directory d => injection hf with hf; exact hf ▸ hw

/-- Without its attributes an item tells whatever they were. -/
theorem invalidated_tells (h : Tells { F with attributes := fun _ => True } R it)
    (hR : ∀ f g : CachedFile L, SamePages f g → R f → R g) :
    Tells F R it.invalidateAttributes where
  file f hf := by
    cases it with
    | file g =>
      injection hf with hf
      exact hf ▸ hR g _ (fun _ => rfl) (h.file g rfl)
    | symLink l => cases hf
    | directory d => cases hf
  attributes a ha := by
    rw [attributes_invalidate] at ha
    cases ha
  fresh := h.fresh
  itemType := by cases it <;> exact h.itemType
  name := by cases it <;> exact h.name
  children names hn := by cases it <;> exact h.children names hn
  target s hs := by cases it <;> exact h.target s hs

/-- Under another name an item tells the same of another path. -/
theorem renamed_tells {name : OsString} (h : Tells F₀ R₀ it) (hfresh : F.fresh)
    (hname : F.name name) (hR : ∀ f g : CachedFile L, SamePages f g → R₀ f → R g)
    (htype : ∀ k, F₀.itemType k → F.itemType k)
    (hattr : ∀ a, F₀.attributes a → F.attributes a)
    (hchildren : ∀ names, F₀.children names → F.children names)
    (htarget : ∀ s, F₀.target s → F.target s) : Tells F R (it.rename name) where
  file f hf := by
    cases it with
    | file g =>
      injection hf with hf
      exact hf ▸ hR g _ (fun _ => rfl) (h.file g rfl)
    | symLink l => cases hf
    | directory d => cases hf
  attributes a ha := by cases it <;> exact hattr a (h.attributes a ha)
  fresh := hfresh
  itemType := by cases it <;> exact htype _ h.itemType
  name := by cases it <;> exact hname
  children names hn := by cases it <;> exact hchildren names (h.children names hn)
  target s hs := by cases it <;> exact htarget s (h.target s hs)

end Items

/-! What the server can tell -/

structure Says (r : Remote) (p : Path) (F : Facts) : Prop where
  name : F.name (p.fileName.getD (.text ""))
  itemType : ∀ c, r.nodes p = some c → F.itemType c.itemType
  attributes : ∀ a, r.getAttributes p = some a → F.attributes a
  target : ∀ s, r.readSymlink p = some s → F.target s

section Fresh

variable {F : Facts} {R : CachedFile L → Prop} {r : Remote} {p q : Path} {name : OsString}
  {a : Attributes} {names : List String} {items : List Item} {item : Item}

theorem Says.named (h : Says r p F) (hn : p.fileName = some name) : F.name name := by
  have hname := h.name
  rwa [hn] at hname

theorem itemType_ofAttributes (c : Content) (m : Meta) :
    itemType (CacheItem.ofAttributes name (attributesOf c m) : CacheItem L) = c.itemType := by
  cases c <;> rfl

theorem silent_ofAttributes (name : OsString) (a : Attributes) :
    namesOf (CacheItem.ofAttributes name a : CacheItem L) = none ∧
    targetOf (CacheItem.ofAttributes name a : CacheItem L) = none ∧
    itemName (CacheItem.ofAttributes name a : CacheItem L) = name := by
  unfold CacheItem.ofAttributes
  split <;> exact ⟨rfl, rfl, rfl⟩

theorem tells_new {it : CacheItem L} {c : Content} (hR : AboutPages R) (h : Says r p F)
    (hf : F.fresh) (hn : p.fileName = some name) (hnode : r.nodes p = some c)
    (ha : r.getAttributes p = some a) (hb : Bare it) (htype : itemType it = c.itemType)
    (hname : itemName it = name) (hattr : it.getAttributes = some a)
    (hnames : ∀ names, namesOf it = some names → F.children names)
    (htarget : ∀ s, targetOf it = some s → r.readSymlink p = some s) : Tells F R it where
  toGood := good_bare hR hb fun b hbattr => by
    rw [hattr] at hbattr
    injection hbattr with hbattr
    exact hbattr ▸ h.attributes a ha
  fresh := hf
  itemType := htype ▸ h.itemType c hnode
  name := hname ▸ h.named hn
  children := hnames
  target s hs := h.target s (htarget s hs)

theorem tells_ofAttributes (hR : AboutPages R) (h : Says r p F) (hf : F.fresh)
    (hn : p.fileName = some name) (ha : r.getAttributes p = some a) :
    Tells F R (CacheItem.ofAttributes name a) := by
  obtain ⟨hb, hattr⟩ := bare_ofAttributes (L := L) name a
  obtain ⟨hnames, htarget, hname⟩ := silent_ofAttributes (L := L) name a
  obtain ⟨c, hc, hca⟩ := Option.map_eq_some_iff.mp ha
  refine tells_new hR h hf hn hc ha hb ?_ hname hattr ?_ ?_
  · rw [← hca, itemType_ofAttributes]
  · intro ns hns
    cases hnames.symm.trans hns
  · intro s hs
    cases htarget.symm.trans hs

theorem listPath_item (h : r.listPath q names = some items) (hi : item ∈ items) :
    ∃ c, r.nodes (q.child item.name) = some c ∧ item.itemType = c.itemType ∧
      item.attributes = attributesOf c (r.info (q.child item.name)) := by
  unfold Remote.listPath at h
  split at h
  · injection h with h
    subst h
    obtain ⟨n, -, hn⟩ := List.mem_filterMap.mp hi
    obtain ⟨c, hc, rfl⟩ := Option.map_eq_some_iff.mp hn
    exact ⟨c, hc, rfl, rfl⟩
  · cases h

theorem Says.directory (h : Says r p F) (hl : r.listPath p names = some items) :
    F.itemType .directory := by
  unfold Remote.listPath at hl
  split at hl
  · rename_i len hnode
    exact h.itemType _ hnode
  · cases hl

theorem fileName_child (q : Path) (name : OsString) : (q.child name).fileName = some name := by
  simp [Path.fileName, Path.child]

theorem silent_ofListed (item : Item) :
    namesOf (FileSystem.ofListed item : CacheItem L) = none ∧
    targetOf (FileSystem.ofListed item : CacheItem L) = none ∧
    itemName (FileSystem.ofListed item : CacheItem L) = item.name ∧
    itemType (FileSystem.ofListed item : CacheItem L) = item.itemType := by
  unfold FileSystem.ofListed
  split <;> (rename_i ht; exact ⟨rfl, rfl, rfl, ht.symm⟩)

theorem tells_ofListed (hR : AboutPages R) (h : Says r (q.child item.name) F) (hf : F.fresh)
    (hl : r.listPath q names = some items) (hi : item ∈ items) :
    Tells F R (FileSystem.ofListed item) := by
  obtain ⟨hb, hattr⟩ := bare_ofListed (L := L) item
  obtain ⟨hnames, htarget, hname, htype⟩ := silent_ofListed (L := L) item
  obtain ⟨c, hc, hitem, -⟩ := listPath_item hl hi
  refine tells_new hR h hf (fileName_child q item.name) hc (Remote.listPath_attributes hl hi) hb
    (htype.trans hitem) hname hattr ?_ ?_
  · intro ns hns
    cases hnames.symm.trans hns
  · intro s hs
    cases htarget.symm.trans hs

end Fresh

/-! Puts -/

/-- What is put at the time `now` may still be fresh at `t`. -/
def Lives (fs : FileSystem L) (now t : ℕ) : Prop :=
  ∀ c, fs.cache = some c → c.useTtl = true → t ≤ now + c.ttl

section Puts

variable {fs : FileSystem L} {p q : Path} {t : ℕ} {Q : CacheItem L → Prop} {item : CacheItem L}
  {inv : Bool} {m : Moment}

theorem put_entry_self (hnew : Lives fs m.now t → entry fs p m.now = none → Q item)
    (hmerged : ∀ old, entry fs p t = some old →
      Q (if inv then (old.update m.pages item).invalidateAttributes
        else old.update m.pages item)) :
    Entries (fs.onCache fun c => c.put p item inv m) p t Q := by
  intro it he
  obtain ⟨c, hc, hfresh⟩ := entry_onCache he
  rcases Cache.put_self_fresh hfresh with ⟨rfl, hnone, hlives⟩ | ⟨old, -, hold, rfl⟩
  · refine hnew (fun c₀ hc₀ => ?_) (by rw [entry, hc]; exact hnone)
    rw [hc] at hc₀
    injection hc₀ with hc₀
    exact hc₀ ▸ hlives
  · exact hmerged old (Option.bind_eq_some_iff.mpr ⟨c, hc, hold⟩)

theorem lives_onCache {f : Cache L → Cache L} {now : ℕ}
    (hf : ∀ c, (f c).useTtl = c.useTtl ∧ (f c).ttl = c.ttl) (h : Lives (fs.onCache f) now t) :
    Lives fs now t := by
  intro c hc
  obtain ⟨hu, ht⟩ := hf c
  have hlive := h (f c) (by rw [FileSystem.onCache_cache, hc]; rfl)
  rwa [hu, ht] at hlive

theorem lives_onCache_put {now : ℕ} (h : Lives (fs.onCache fun c => c.put q item inv m) now t) :
    Lives fs now t :=
  lives_onCache (fun c => Cache.put_config c q item inv m) h

theorem lives_putNamed {new : OsString → CacheItem L} {now : ℕ}
    (h : Lives (fs.putNamed q new m) now t) : Lives fs now t := by
  unfold FileSystem.putNamed at h
  cases hn : q.fileName with
  | none =>
    rw [hn] at h
    exact h
  | some name =>
    rw [hn] at h
    exact lives_onCache (fun c => Cache.putNew_config c q (new name) m) h

theorem putNamed_entry_self {new : OsString → CacheItem L} {name : OsString}
    (hname : p.fileName = some name) (hnew : Lives fs m.now t → Q (new name)) :
    Entries (fs.putNamed p new m) p t Q := by
  intro it he
  unfold FileSystem.putNamed at he
  rw [hname] at he
  obtain ⟨c, hc, hfresh⟩ := entry_onCache he
  rw [Cache.putNew_self hfresh]
  refine hnew fun c₀ hc₀ hu => ?_
  rw [hc] at hc₀
  injection hc₀ with hc₀
  subst hc₀
  exact Cache.putNew_lives hfresh hu

end Puts

theorem renameCached_config (c : Cache L) (a b : Path) (flags : RenameFlags) (m : Moment) :
    (FileSystem.renameCached c a b flags m).useTtl = c.useTtl ∧
      (FileSystem.renameCached c a b flags m).ttl = c.ttl := by
  obtain ⟨hu, ht⟩ := Cache.remove_config c a
  unfold FileSystem.renameCached
  split
  · obtain ⟨hu', ht'⟩ := Cache.remove_config (c.remove a).2 b
    exact ⟨hu'.trans hu, ht'.trans ht⟩
  · split
    · rename_i name item _ _
      obtain ⟨hu', ht'⟩ := Cache.putNew_config (c.remove a).2 b (item.rename name) m
      exact ⟨hu'.trans hu, ht'.trans ht⟩
    · exact ⟨hu, ht⟩

/-- What a rename leaves in the cache: the item that it carries over, for its time to live, and
old items of other paths. -/
theorem renameCached_left {c : Cache L} {a b : Path} {flags : RenameFlags} {it : CacheItem L}
    (h : (FileSystem.renameCached c a b flags m).freshAt q t = some it) :
    (flags.exchange = false ∧ q = b ∧ (∃ name old, b.fileName = some name ∧
        c.freshAt a 0 = some old ∧ it = old.rename name) ∧
        (c.useTtl = true → t ≤ m.now + c.ttl)) ∨
      (c.freshAt q t = some it ∧ (q ≠ a ∧ ∀ name, q.child name ≠ a) ∧
        (flags.exchange = true ∨ c.freshAt a 0 ≠ none ∧ b.fileName ≠ none →
          q ≠ b ∧ ∀ name, q.child name ≠ b)) := by
  have hcarried : (c.remove a).1 = c.freshAt a 0 := (c.freshAt_zero a).symm
  unfold FileSystem.renameCached at h
  split at h
  · have hleft := Cache.remove_sub _ b q t it h
    exact Or.inr ⟨Cache.remove_sub c a q t it hleft, Cache.remove_gone hleft,
      fun _ => Cache.remove_gone h⟩
  · rename_i hflag
    split at h
    · rename_i name old hname hold
      by_cases hq : q = b
      · subst hq
        refine Or.inl ⟨Bool.eq_false_iff.mpr hflag, rfl, ⟨name, old, hname,
          hcarried.symm.trans hold, Cache.putNew_self h⟩, fun hu => ?_⟩
        obtain ⟨hu', ht'⟩ := Cache.remove_config c a
        have hlives := Cache.putNew_lives h (hu'.trans hu)
        rwa [ht'] at hlives
      · have hleft := Cache.putNew_ne hq h
        exact Or.inr ⟨Cache.remove_sub c a q t it hleft, Cache.remove_gone hleft,
          fun _ => ⟨hq, Cache.putNew_gone hq h⟩⟩
    · rename_i hnone
      refine Or.inr ⟨Cache.remove_sub c a q t it h, Cache.remove_gone h, ?_⟩
      rintro (hx | ⟨hold, hname⟩)
      · exact (hflag hx).elim
      · obtain ⟨old, hold⟩ := Option.ne_none_iff_exists'.mp hold
        obtain ⟨name, hname⟩ := Option.ne_none_iff_exists'.mp hname
        exact (hnone name old hname (hcarried.trans hold)).elim

structure Learned (p : Path) (t : ℕ) (F : Facts) (R : CachedFile L → Prop)
    (fs done : FileSystem L) : Prop where
  remote : done.remote = fs.remote
  readBuffer : done.readBuffer = fs.readBuffer
  writeBuffer : done.writeBuffer = fs.writeBuffer
  lives : ∀ now, Lives done now t → Lives fs now t
  entries : Entries fs p t (Tells F R) → Entries done p t (Tells F R)

section Fetches

variable {fs fs₁ fs₂ : FileSystem L} {p q : Path} {t : ℕ} {F : Facts} {R : CachedFile L → Prop}
  {item : CacheItem L} {m : Moment} {env : Env}

theorem Learned.refl (fs : FileSystem L) : Learned p t F R fs fs :=
  ⟨rfl, rfl, rfl, fun _ => id, id⟩

theorem Learned.trans (h : Learned p t F R fs fs₁) (h' : Learned p t F R fs₁ fs₂) :
    Learned p t F R fs fs₂ :=
  ⟨h'.remote.trans h.remote, h'.readBuffer.trans h.readBuffer,
    h'.writeBuffer.trans h.writeBuffer, fun now hl => h.lives now (h'.lives now hl),
    fun he => h'.entries (h.entries he)⟩

theorem learned_same (fs : FileSystem L) : Learned p t F R fs (fs.onCache fun c => c) := by
  refine ⟨rfl, rfl, rfl, fun now h c hc => h c ?_, fun h => h.onCache_sub Cache.Sub.refl⟩
  rw [FileSystem.onCache_cache, hc]
  rfl

theorem learned_cacheGet (fs : FileSystem L) (q : Path) (m : Moment) :
    Learned p t F R fs (fs.cacheGet q m).2 := by
  refine ⟨(cacheGet_frame fs q m).1, (cacheGet_frame fs q m).2.1, (cacheGet_frame fs q m).2.2,
    ?_, fun h => h.cacheGet q m⟩
  intro now hl c hc
  unfold FileSystem.cacheGet at hl
  rw [hc] at hl
  have hconfig : (c.get q m).2.useTtl = c.useTtl ∧ (c.get q m).2.ttl = c.ttl := by
    unfold Cache.get
    split
    · exact ⟨rfl, rfl⟩
    · split <;> exact ⟨rfl, rfl⟩
  have hlive := hl (c.get q m).2 rfl
  rwa [hconfig.1, hconfig.2] at hlive

theorem learned_put (hR : AboutPages R) (hlives : Lives fs m.now t → F.fresh) (hb : Bare item)
    (hitem : q = p → F.fresh → Tells F R item) :
    Learned p t F R fs (fs.onCache fun c => c.put q item false m) := by
  refine ⟨rfl, rfl, rfl, fun now => lives_onCache_put, fun h => ?_⟩
  by_cases hq : q = p
  · subst hq
    refine put_entry_self (fun hl _ => hitem rfl (hlives hl)) fun old hold => ?_
    exact update_bare hR (h old hold) hb (hitem rfl (h old hold).fresh)
  · exact h.put_ne hq

theorem learned_cachePutAttr {a : Attributes} (hR : AboutPages R)
    (hlives : Lives fs m.now t → F.fresh) (hs : F.fresh → Says fs.remote p F)
    (ha : fs.remote.getAttributes q = some a) :
    Learned p t F R fs (fs.onCache fun c => cachePutAttr c q a m) := by
  unfold cachePutAttr
  cases hn : q.fileName with
  | none => exact learned_same fs
  | some name =>
    refine learned_put hR hlives (bare_ofAttributes name a).1 ?_
    rintro rfl hf
    exact tells_ofAttributes hR (hs hf) hf hn ha

theorem learned_getAttributes (hR : AboutPages R) (hlives : ∀ i, Lives fs (env i).now t → F.fresh)
    (hs : F.fresh → Says fs.remote p F) (q : Path) :
    Learned p t F R fs (fs.getAttributes q env).2 := by
  have hget := learned_cacheGet (p := p) (t := t) (F := F) (R := R) fs q (env 0).toMoment
  unfold FileSystem.getAttributes
  dsimp only
  split
  · exact hget
  · split
    · exact hget
    · rename_i a hsent
      refine hget.trans (learned_cachePutAttr hR (fun hl => hlives 2 (hget.lives _ hl)) ?_ ?_)
      · rw [hget.remote]
        exact hs
      · exact (FileSystem.sent_ok.mp hsent).2.2

theorem learned_readSymlink (hR : AboutPages R) (hlives : ∀ i, Lives fs (env i).now t → F.fresh)
    (hs : F.fresh → Says fs.remote p F) (q : Path) :
    Learned p t F R fs (fs.readSymlink q env).2 := by
  have hget := learned_cacheGet (p := p) (t := t) (F := F) (R := R) fs q (env 0).toMoment
  unfold FileSystem.readSymlink
  dsimp only
  split
  · exact hget
  · split
    · exact hget
    · rename_i target hsent
      refine hget.trans ?_
      have htarget := (FileSystem.sent_ok.mp hsent).2.2
      rw [hget.remote] at htarget
      cases hn : q.fileName with
      | none => exact Learned.refl _
      | some name =>
        refine learned_put hR (fun hl => hlives 2 (hget.lives _ hl)) trivial ?_
        rintro rfl hf
        have hlink : ∃ s, fs.remote.nodes q = some (.symlink s) := by
          unfold Remote.readSymlink at htarget
          split at htarget
          · exact ⟨_, by assumption⟩
          · cases htarget
        obtain ⟨s, hnode⟩ := hlink
        refine ⟨⟨nofun, nofun⟩, hf, (hs hf).itemType _ hnode, (hs hf).named hn, nofun, ?_⟩
        intro s' hs'
        injection hs' with hs'
        exact hs' ▸ (hs hf).target _ htarget

theorem learned_cachedChildren (q : Path) (children : List OsString) :
    ∀ (fs : FileSystem L) (env : Env),
      Learned p t F R fs (fs.cachedChildren q children env).2 := by
  induction children with
  | nil => exact fun fs _ => Learned.refl fs
  | cons child children ih =>
    intro fs env
    have hget := learned_cacheGet (p := p) (t := t) (F := F) (R := R) fs (q.child child)
      (env 0).toMoment
    rw [FileSystem.cachedChildren]
    dsimp only
    split
    · exact hget
    · exact hget.trans (ih _ _)

theorem learned_withDots (hR : AboutPages R) (hlives : ∀ i, Lives fs (env i).now t → F.fresh)
    (hs : F.fresh → Says fs.remote p F) (q : Path) (items : List Item) :
    Learned p t F R fs (fs.withDots q items env).2 := by
  have hself := learned_getAttributes hR hlives hs q
  unfold FileSystem.withDots
  dsimp only
  split
  · exact hself
  · have hparent : Learned p t F R (fs.getAttributes q env).2
        ((fs.getAttributes q env).2.getAttributes (getParentPath q) (env.drop 3)).2 :=
      learned_getAttributes hR (fun i hl => hlives (3 + i) (hself.lives _ hl))
        (by rw [hself.remote]; exact hs) (getParentPath q)
    split
    · exact hself.trans hparent
    · exact hself.trans hparent

/-- Attributes that a call got are the server's, or those of the entry that is there. -/
theorem getAttributes_left {a : Attributes} (h : (fs.getAttributes q env).1 = .ok a) :
    fs.remote.getAttributes q = some a ∨
      (∃ it, entry fs q (env 0).now = some it ∧ it.getAttributes = some a) ∧
      entry (fs.getAttributes q env).2 q (env 0).now ≠ none ∧
      ∀ t it, entry (fs.getAttributes q env).2 q t = some it → it.getAttributes = some a := by
  unfold FileSystem.getAttributes at h ⊢
  dsimp only at h ⊢
  split at h
  · rename_i b hb
    injection h with h
    subst h
    obtain ⟨it, hit, hattr⟩ := Option.bind_eq_some_iff.mp hb
    right
    unfold FileSystem.cacheGet at hit ⊢
    cases hc : fs.cache with
    | none =>
      rw [hc] at hit
      cases hit
    | some c =>
      rw [hc] at hit
      refine ⟨⟨it, ?_, hattr⟩, ?_, ?_⟩
      · rw [entry, hc]
        exact (Cache.get_eq_freshAt c q _).symm.trans hit
      · intro hnone
        cases (Cache.get_kept hit).symm.trans hnone
      · intro t' it' hleft
        have hsame := (Cache.get_left hleft).symm.trans hit
        injection hsame with hsame
        exact hsame ▸ hattr
  · rename_i hb
    split at h
    · cases h
    · rename_i b hsent
      injection h with h
      left
      have hsome := (FileSystem.sent_ok.mp hsent).2.2
      rw [(cacheGet_frame fs q (env 0).toMoment).1] at hsome
      exact h ▸ hsome

theorem learned_putListed {names : List String} {items : List Item} (hR : AboutPages R)
    (hl : fs.remote.listPath q names = some items) (rest : List Item) :
    ∀ (fs₁ : FileSystem L) (env : Env), fs₁.remote = fs.remote → (∀ item ∈ rest, item ∈ items) →
      (∀ i, Lives fs₁ (env i).now t → F.fresh) → (F.fresh → Says fs.remote p F) →
      Learned p t F R fs₁ (fs₁.onCache fun c => FileSystem.putListed q c rest env) := by
  induction rest with
  | nil =>
    intro fs₁ env _ _ _ _
    exact learned_same fs₁
  | cons item rest ih =>
    intro fs₁ env hremote hmem hlives hs
    have hput : Learned p t F R fs₁ (fs₁.onCache fun c =>
        c.put (q.child item.name) (FileSystem.ofListed item) false (env 0).toMoment) := by
      refine learned_put hR (hlives 0) (bare_ofListed item).1 ?_
      rintro rfl hf
      exact tells_ofListed hR (hs hf) hf hl (hmem item List.mem_cons_self)
    have hrest := ih (fs₁.onCache fun c =>
      c.put (q.child item.name) (FileSystem.ofListed item) false (env 0).toMoment) (env.drop 1)
      hremote (fun i hi => hmem i (List.mem_cons_of_mem _ hi))
      (fun i hlive => hlives (1 + i) (hput.lives _ hlive)) hs
    have hboth := hput.trans hrest
    rw [ClientCalls.onCache_onCache] at hboth
    exact hboth

/-- The clock of a call: it is past the time the facts are about, or it stands still. -/
def Timed (t : ℕ) (env : Env) : Prop :=
  (∀ i, t ≤ (env i).now) ∨ ∀ i, (env i).now = (env 0).now

theorem Timed.drop (h : Timed t env) (k : ℕ) : Timed t (env.drop k) :=
  h.imp (fun h i => h (k + i)) fun h i => (h (k + i)).trans (h k).symm

/-- The directory item that a listing puts: attributes that are the server's or were in the
entry it is merged into, and the listed names. -/
theorem learned_putDirectory {a : Attributes} {names : List OsString} (hR : AboutPages R)
    (ht : Timed t env) (hlives : ∀ i, Lives fs (env i).now t → F.fresh)
    (hs : F.fresh → Says fs.remote p F) (hnames : q = p → F.fresh → F.children names)
    (htype : q = p → F.fresh → F.itemType .directory)
    (ha : (fs.getAttributes q env).1 = .ok a) :
    Learned p t F R fs ((fs.getAttributes q env).2.onCache fun c =>
      c.put q (.directory ⟨q.fileName.getD (.text ""), some a, some names⟩) false
        (env 3).toMoment) := by
  have hself := learned_getAttributes hR hlives hs q
  refine ⟨hself.remote, hself.readBuffer, hself.writeBuffer,
    fun now hl => hself.lives now (lives_onCache_put hl), fun h => ?_⟩
  have hleft := hself.entries h
  by_cases hq : q = p
  · subst hq
    have hitem : F.fresh → F.attributes a → Tells F R
        (.directory ⟨q.fileName.getD (.text ""), some a, some names⟩) := by
      intro hf hattr
      refine ⟨⟨nofun, ?_⟩, hf, htype rfl hf, (hs hf).name, ?_, nofun⟩
      · intro b hb
        injection hb with hb
        exact hb ▸ hattr
      · intro ns hns
        injection hns with hns
        exact hns ▸ hnames rfl hf
    refine put_entry_self (fun hl hnone => ?_) fun old hold => ?_
    · have hf := hlives 3 (hself.lives _ hl)
      refine hitem hf ?_
      rcases getAttributes_left ha with hserver | ⟨⟨it, hit, hattr⟩, hkept, -⟩
      · exact (hs hf).attributes a hserver
      · rcases ht with ht | ht
        · exact (h it (entry_earlier (ht 0) hit)).attributes a hattr
        · -- the entry that was just read is still there
          exact absurd ((ht 3) ▸ hnone) hkept
    · have htold := hleft old hold
      refine update_bare hR htold trivial (hitem htold.fresh ?_)
      rcases getAttributes_left ha with hserver | ⟨-, -, hsame⟩
      · exact (hs htold.fresh).attributes a hserver
      · exact htold.attributes a (hsame t old hold)
  · exact hleft.put_ne hq

def ListsTell (r : Remote) (p : Path) (F : Facts) (env : Env) : Prop :=
  ∀ i items, (env i).reply = none → r.listPath p (env i).listing = some items →
    F.children (items.map Item.name)

/-- What the answered request of a listing puts: the directory and its children. -/
theorem learned_stored {a : Attributes} {names : List String} {items : List Item}
    (hR : AboutPages R) (ht : Timed t env) (hlives : ∀ i, Lives fs (env i).now t → F.fresh)
    (hs : F.fresh → Says fs.remote p F) (hlist : fs.remote.listPath q names = some items)
    (hnames : q = p → F.fresh → F.children (items.map Item.name))
    (hself : (fs.getAttributes q (env.drop 1)).1 = .ok a) :
    Learned p t F R fs ((fs.getAttributes q (env.drop 1)).2.onCache fun c =>
      FileSystem.putListed q (c.put q (.directory ⟨q.fileName.getD (.text ""), some a,
        some (items.map Item.name)⟩) false (env 4).toMoment) items (env.drop 5)) := by
  have hdir : Learned p t F R fs ((fs.getAttributes q (env.drop 1)).2.onCache fun c =>
      c.put q (.directory ⟨q.fileName.getD (.text ""), some a, some (items.map Item.name)⟩)
        false (env 4).toMoment) := by
    refine learned_putDirectory hR (ht.drop 1) (fun i hl => hlives (1 + i) hl) hs hnames ?_ hself
    rintro rfl hf
    exact (hs hf).directory hlist
  have hlisted := learned_putListed (p := p) (t := t) (F := F) hR hlist items _ (env.drop 5)
    hdir.remote (fun _ hi => hi) (fun i hlive => hlives (5 + i) (hdir.lives _ hlive)) hs
  rw [ClientCalls.onCache_onCache] at hlisted
  exact hdir.trans hlisted

theorem learned_readdirRemote (hR : AboutPages R) (ht : Timed t env)
    (hlives : ∀ i, Lives fs (env i).now t → F.fresh) (hs : F.fresh → Says fs.remote p F)
    (hl : q = p → F.fresh → ListsTell fs.remote p F env) :
    Learned p t F R fs (fs.readdirRemote q env).2 := by
  unfold FileSystem.readdirRemote
  split
  · exact Learned.refl fs
  · rename_i items hsent
    obtain ⟨-, hreply, hlist⟩ := FileSystem.sent_ok.mp hsent
    dsimp only
    split
    · exact learned_getAttributes hR (fun i hl => hlives (1 + i) hl) hs q
    · rename_i a hself
      have hnames : q = p → F.fresh → F.children (items.map Item.name) :=
        fun hq hf => hl hq hf 0 items hreply (hq ▸ hlist)
      have hstored := learned_stored hR ht hlives hs hlist hnames hself
      refine hstored.trans (learned_withDots hR
        (fun i hlive => hlives _ (hstored.lives _ hlive)) ?_ q items)
      rw [hstored.remote]
      exact hs

theorem learned_readdir (hR : AboutPages R) (ht : Timed t env)
    (hlives : ∀ i, Lives fs (env i).now t → F.fresh) (hs : F.fresh → Says fs.remote p F)
    (hl : q = p → F.fresh → ListsTell fs.remote p F env) :
    Learned p t F R fs (fs.readdir q env).2 := by
  have hget := learned_cacheGet (p := p) (t := t) (F := F) (R := R) fs q (env 0).toMoment
  have hremote : ∀ {done : FileSystem L} {k : ℕ}, Learned p t F R fs done →
      Learned p t F R fs (done.readdirRemote q (env.drop k)).2 := by
    intro done k h
    refine h.trans (learned_readdirRemote hR (ht.drop k)
      (fun i hlive => hlives _ (h.lives _ hlive)) ?_ ?_)
    · rw [h.remote]
      exact hs
    · rw [h.remote]
      exact fun hq hf i => hl hq hf (k + i)
  unfold FileSystem.readdir
  dsimp only
  split
  · rename_i children _
    have hchildren := hget.trans (learned_cachedChildren q children _ (env.drop 1))
    split
    · refine hchildren.trans (learned_withDots hR
        (fun i hlive => hlives _ (hchildren.lives _ hlive)) ?_ q _)
      rw [hchildren.remote]
      exact hs
    · exact hremote hchildren
  · exact hremote hget

end Fetches

end ClientKnowledge
