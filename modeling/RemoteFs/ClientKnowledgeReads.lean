import RemoteFs.ClientKnowledge

/-! # What reads and uploads make the cache tell

Bytes enter the cache from the server, from the read buffer and from the write buffer. -/
namespace ClientKnowledgeReads

open ClientAttributes
open ClientCache
open ClientFileSystem
open ClientKnowledge
open ClientMemory
open ClientPageCache
open ClientReadBuffer
open OsPaths
open RemoteTree

variable {L : PageLimits}

section Writes

variable {fs : FileSystem L} {p : Path} {t offset : ℕ} {data : List UInt8} {F F₀ : Facts}
  {P : ℕ → UInt8 → Prop} {R₀ : CachedFile L → Prop} {m : Moment} {inv : Bool}

theorem tells_written (hf : F.fresh) (htype : F.itemType .file)
    (hname : F.name (p.fileName.getD (.text "")))
    (hdata : ∀ x b, offset ≤ x → data[x - offset]? = some b → P x b) :
    Tells F (BytesAre P) (.file (written L p offset data)) where
  file f hw := by
    injection hw with hw
    subst hw
    intro x b hb
    obtain ⟨hx, hd⟩ := written_byteAt hb
    exact hdata x b hx hd
  attributes a ha := by
    rw [CacheItem.getAttributes, written_attributes] at ha
    cases ha
  fresh := hf
  itemType := htype
  name := by
    rw [itemName, written_name]
    exact hname
  children _ h := nomatch h
  target _ h := nomatch h

theorem cacheWriteFile_nameless {q : Path} {Q : CacheItem L → Prop}
    (h : Entries fs q t Q) (hname : p.fileName = none) :
    Entries (fs.onCache fun c => cacheWriteFile c p offset data inv m) q t Q := by
  have hnothing : (fun c : Cache L => cacheWriteFile c p offset data inv m) = fun c => c := by
    funext c
    rw [cacheWriteFile, hname]
  rw [hnothing]
  exact h.onCache_sub Cache.Sub.refl

/-- What the cache tells of a path after it took bytes of it: what the bytes tell, and what the
old item told that they do not replace. -/
theorem tells_cacheWriteFile (hname : p.fileName ≠ none)
    (hlives : Lives fs m.now t → F.fresh) (hfresh : F₀.fresh → F.fresh)
    (hold : Entries fs p t (Tells F₀ R₀))
    (htype : F.fresh → F.itemType .file) (hn : F.fresh → F.name (p.fileName.getD (.text "")))
    (hdata : F.fresh → ∀ x b, offset ≤ x → data[x - offset]? = some b → P x b)
    (hbytes : ∀ f x b, entry fs p t = some (.file f) → f.byteAt x = some b →
      P x b ∨ Replaced f (written L p offset data) x)
    (hgap : ∀ f, entry fs p t = some (.file f) → GapsAre P (written L p offset data) f)
    (hnames : F₀.fresh → ∀ n, F₀.name n → F.name n)
    (hattr : inv = false → F₀.fresh → ∀ a, F₀.attributes a → F.attributes a) :
    Entries (fs.onCache fun c => cacheWriteFile c p offset data inv m) p t
      (Tells F (BytesAre P)) := by
  obtain ⟨name, hname⟩ := Option.ne_none_iff_exists'.mp hname
  have hw : written L p offset data = (CachedFile.new name none).writeContent offset data := by
    rw [written, hname, Option.getD_some]
  have hput : (fun c : Cache L => cacheWriteFile c p offset data inv m) =
      fun c => c.put p (.file (written L p offset data)) inv m := by
    funext c
    rw [cacheWriteFile, hname, hw]
  rw [hput]
  have hitem : ∀ {G : Facts}, G.fresh → G.itemType .file →
      G.name (p.fileName.getD (.text "")) → F.fresh →
      Tells G (BytesAre P) (.file (written L p offset data)) :=
    fun hg htype hn hf => tells_written hg htype hn (hdata hf)
  refine put_entry_self (fun hl _ => hitem (hlives hl) (htype (hlives hl)) (hn (hlives hl))
    (hlives hl)) fun old he => ?_
  have htold := hold old he
  have hf := hfresh htold.fresh
  have hfile : ∀ f, old.update m.pages (.file (written L p offset data)) = .file f →
      BytesAre P f :=
    update_written_file (fun f hf x b hb => hbytes f x b (hf ▸ he) hb)
      (fun x b hb => (written_byteAt hb).elim fun hx hd => hdata hf x b hx hd)
      fun f hf => hgap f (hf ▸ he)
  -- a file has neither child names nor a target
  have hsilent : namesOf (old.update m.pages (.file (written L p offset data))) = none ∧
      targetOf (old.update m.pages (.file (written L p offset data))) = none := by
    cases old <;> exact ⟨rfl, rfl⟩
  have hmerged : ∀ {A : Attributes → Prop}, (inv = false → A = F.attributes) →
      (inv = true → A = fun _ => True) → Tells { F with attributes := A } (BytesAre P)
        (old.update m.pages (.file (written L p offset data))) := by
    intro A hA hA'
    have hnew := hitem (G := { F with attributes := A }) hf (htype hf) (hn hf) hf
    refine ⟨⟨hfile, fun a ha => ?_⟩, hf, ?_, ?_, ?_, ?_⟩
    · rcases attributes_update ha with ha | ⟨-, ha⟩
      · exact hnew.attributes a ha
      · cases inv with
        | false => exact hA rfl ▸ hattr rfl htold.fresh a (htold.attributes a ha)
        | true => exact hA' rfl ▸ trivial
    · rw [itemType_update]
      exact hnew.itemType
    · rcases itemName_update old (.file (written L p offset data)) m.pages with h | h
      · rw [h]
        exact hnames htold.fresh _ htold.name
      · rw [h]
        exact hnew.name
    · intro ns hns
      cases hsilent.1.symm.trans hns
    · intro s hs
      cases hsilent.2.symm.trans hs
  cases inv with
  | false => exact hmerged (fun _ => rfl) (fun h => (Bool.false_ne_true h).elim)
  | true =>
    refine invalidated_tells (hmerged (fun h => (Bool.false_ne_true h.symm).elim) fun _ => rfl) ?_
    exact fun f g hs hf => bytesAre_aboutPages.same f g hs hf

end Writes

section Reads

variable {fs fs₁ fs₂ : FileSystem L} {p q : Path} {t o s : ℕ} {F : Facts} {P : ℕ → UInt8 → Prop}
  {R : CachedFile L → Prop} {env : Env} {data : List UInt8} {m : Moment}

def Refilled (q : Path) (env : Env) (fs done : FileSystem L) : Prop :=
  done.readBuffer = fs.readBuffer ∨ ∃ i offset size data,
    fs.remote.readFile q offset size = some data ∧
      done.readBuffer = fs.readBuffer.fill q offset data (env i).now

structure HasRead (q p : Path) (t : ℕ) (env : Env) (F : Facts) (R : CachedFile L → Prop)
    (fs done : FileSystem L) : Prop where
  remote : done.remote = fs.remote
  writeBuffer : done.writeBuffer = fs.writeBuffer
  lives : ∀ now, Lives done now t → Lives fs now t
  buffer : Refilled q env fs done
  entries : Entries done p t (Tells F R)

theorem hasRead_of_learned (h : Learned p t F R fs fs₁) (he : Entries fs p t (Tells F R)) :
    HasRead q p t env F R fs fs₁ :=
  ⟨h.remote, h.writeBuffer, h.lives, Or.inl h.readBuffer, h.entries he⟩

theorem HasRead.after {k : ℕ} {R' : CachedFile L → Prop} (h : Learned p t F R' fs fs₁)
    (h' : HasRead q p t (env.drop k) F R fs₁ fs₂) : HasRead q p t env F R fs fs₂ where
  remote := h'.remote.trans h.remote
  writeBuffer := h'.writeBuffer.trans h.writeBuffer
  lives now hl := h.lives now (h'.lives now hl)
  buffer := by
    rcases h'.buffer with hb | ⟨i, offset, size, data, hread, hb⟩
    · exact Or.inl (hb.trans h.readBuffer)
    · rw [h.remote] at hread
      rw [h.readBuffer] at hb
      exact Or.inr ⟨k + i, offset, size, data, hread, hb⟩
  entries := h'.entries

theorem lives_cacheWriteFile {inv : Bool} {now : ℕ}
    (h : Lives (fs.onCache fun c => cacheWriteFile c q o data inv m) now t) :
    Lives fs now t := by
  unfold cacheWriteFile at h
  cases hn : q.fileName with
  | none =>
    rw [hn] at h
    intro c hc
    exact h c (by rw [FileSystem.onCache_cache, hc]; rfl)
  | some name =>
    rw [hn] at h
    exact lives_onCache_put h

theorem learned_cacheWriteFile_ne {inv : Bool} (hq : q ≠ p) :
    Learned p t F R fs (fs.onCache fun c => cacheWriteFile c q o data inv m) :=
  ⟨rfl, rfl, rfl, fun _ => lives_cacheWriteFile, fun h => h.cacheWriteFile_ne hq⟩

theorem hasRead_readRemote_ne (hq : q ≠ p) (h : Entries fs p t (Tells F R)) :
    HasRead q p t env F R fs (fs.readRemote q o s env).2 := by
  unfold FileSystem.readRemote
  split
  · exact hasRead_of_learned (Learned.refl fs) h
  · rename_i data hsent
    have hput : Learned p t F R { fs with readBuffer := fs.readBuffer.fill q o data (env 1).now }
        ({ fs with readBuffer := fs.readBuffer.fill q o data (env 1).now }.onCache fun c =>
          cacheWriteFile c q o data false (env 2).toMoment) := learned_cacheWriteFile_ne hq
    exact ⟨rfl, rfl, hput.lives, Or.inr ⟨1, o, _, data, (FileSystem.sent_ok.mp hsent).2.2, rfl⟩,
      hput.entries h⟩

theorem hasRead_readFile_ne (hR : AboutPages R)
    (hlives : ∀ i, Lives fs (env i).now t → F.fresh) (hs : F.fresh → Says fs.remote p F)
    (hq : q ≠ p) (h : Entries fs p t (Tells F R)) :
    HasRead q p t env F R fs (fs.readFile q o s env).2 := by
  have hattr := learned_getAttributes hR hlives hs q
  have hcached : HasRead q p t env F R fs
      ((fs.getAttributes q env).2.readCached q o s (env.drop 3)).2 := by
    have hget := hattr.trans (learned_cacheGet _ q ((env.drop 3) 0).toMoment)
    unfold FileSystem.readCached
    dsimp only
    split
    · exact hasRead_of_learned hget h
    · unfold FileSystem.readBuffered
      dsimp only
      split
      · exact hasRead_of_learned (hget.trans (learned_cacheWriteFile_ne hq)) h
      · exact HasRead.after (k := 5) hget (hasRead_readRemote_ne hq (hget.entries h))
  unfold FileSystem.readFile
  dsimp only
  split
  · split
    · exact hasRead_of_learned hattr h
    · exact hcached
  · exact hcached

/-- Bytes that are put by a read of the path itself. -/
theorem tells_readBytes (hlives : Lives fs m.now t → F.fresh) (hs : F.fresh → Says fs.remote p F)
    (hdata : F.fresh → (∀ x b, o ≤ x → data[x - o]? = some b → P x b) ∧ F.itemType .file)
    (h : Entries fs p t (Tells F fun f => BytesAre P f ∧ GapsAre P (written L p o data) f)) :
    Entries (fs.onCache fun c => cacheWriteFile c p o data false m) p t
      (Tells F (BytesAre P)) := by
  have hbytes : Entries fs p t (Tells F (BytesAre P)) := fun it he =>
    { h it he with file := fun f hf => ((h it he).file f hf).1 }
  by_cases hname : p.fileName = none
  · have hnothing : (fun c : Cache L => cacheWriteFile c p o data false m) = fun c => c := by
      funext c
      rw [cacheWriteFile, hname]
    rw [hnothing]
    exact (learned_same fs).entries hbytes
  · exact tells_cacheWriteFile hname hlives id h (fun hf => (hdata hf).2) (fun hf => (hs hf).name)
      (fun hf => (hdata hf).1)
      (fun f x b he hb => Or.inl (((h _ he).file f rfl).1 x b hb))
      (fun f he => ((h _ he).file f rfl).2) (fun _ _ hn => hn) fun _ _ _ ha => ha

theorem itemType_of_readFile {size : ℕ} (hs : Says fs.remote p F)
    (hread : fs.remote.readFile p o size = some data) : F.itemType .file := by
  unfold Remote.readFile at hread
  split at hread
  · rename_i bytes hp
    exact hs.itemType _ hp
  · cases hread

theorem hasRead_readRemote (hlives : ∀ i, Lives fs (env i).now t → F.fresh)
    (hs : F.fresh → Says fs.remote p F) (hP : F.fresh → ServerIs fs p P)
    (h : Entries fs p t (Tells F fun f => BytesAre P f ∧ ∀ data,
      fs.remote.readFile p o fs.readBuffer.capacity = some data →
        GapsAre P (written L p o data) f)) :
    HasRead p p t env F (BytesAre P) fs (fs.readRemote p o s env).2 := by
  unfold FileSystem.readRemote
  split
  · exact hasRead_of_learned (Learned.refl fs) fun it he =>
      { h it he with file := fun f hf => ((h it he).file f hf).1 }
  · rename_i data hsent
    have hread := (FileSystem.sent_ok.mp hsent).2.2
    have hdata : F.fresh →
        (∀ x b, o ≤ x → data[x - o]? = some b → P x b) ∧ F.itemType .file := by
      refine fun hf => ⟨fun x b hx hb => ?_, itemType_of_readFile (hs hf) hread⟩
      have hserver := hP hf o _ data hread (x - o) b hb
      rwa [Nat.add_sub_cancel' hx] at hserver
    refine ⟨rfl, rfl, fun _ hl => lives_cacheWriteFile (fun c hc => hl c hc),
      Or.inr ⟨1, o, _, data, hread, rfl⟩, ?_⟩
    exact tells_readBytes (hlives 2) hs hdata fun it he =>
      { h it he with file := fun f hf => ⟨((h it he).file f hf).1,
          ((h it he).file f hf).2 data hread⟩ }

def BufferTells (fs : FileSystem L) (p : Path) (now : ℕ) (F : Facts) (P : ℕ → UInt8 → Prop) :
    Prop :=
  ∀ x b, fs.readBuffer.byteAt now p x = some b → P x b ∧ F.itemType .file

theorem hasRead_readBuffered (hlives : ∀ i, Lives fs (env i).now t → F.fresh)
    (hs : F.fresh → Says fs.remote p F) (hP : F.fresh → ServerIs fs p P)
    (hb : F.fresh → BufferTells fs p (env 0).now F P)
    (h : Entries fs p t (Tells F fun f => BytesAre P f ∧ ∀ data,
      fetched fs p o s (env 0).now = some data → GapsAre P (written L p o data) f)) :
    HasRead p p t env F (BytesAre P) fs (fs.readBuffered p o s env).2 := by
  unfold FileSystem.readBuffered
  unfold fetched at h
  dsimp only
  by_cases hne : fs.readBuffer.read p o s (env 0).now ≠ []
  · rw [if_pos hne] at h ⊢
    have hserved : ∀ i b, (fs.readBuffer.read p o s (env 0).now)[i]? = some b →
        fs.readBuffer.byteAt (env 0).now p (o + i) = some b :=
      fun i b hi => (ReadBuffer.read_getElem? hi).1
    have hdata : F.fresh → (∀ x b, o ≤ x → (fs.readBuffer.read p o s (env 0).now)[x - o]? =
        some b → P x b) ∧ F.itemType .file := by
      refine fun hf => ⟨fun x b hx hi => ?_, ?_⟩
      · have hlive := (hb hf _ b (hserved _ b hi)).1
        rwa [Nat.add_sub_cancel' hx] at hlive
      · have hfirst := List.getElem?_eq_getElem (List.length_pos_of_ne_nil hne)
        exact (hb hf _ _ (hserved 0 _ hfirst)).2
    refine ⟨rfl, rfl, fun _ => lives_cacheWriteFile, Or.inl rfl, ?_⟩
    exact tells_readBytes (hlives 1) hs hdata fun it he =>
      { h it he with file := fun f hf => ⟨((h it he).file f hf).1,
          ((h it he).file f hf).2 _ rfl⟩ }
  · rw [if_neg hne] at h ⊢
    have hsame : Learned p t F (BytesAre P) fs fs := Learned.refl fs
    exact HasRead.after (k := 1) hsame (hasRead_readRemote (fun i => hlives (1 + i)) hs hP h)

theorem hasRead_readCached (hlives : ∀ i, Lives fs (env i).now t → F.fresh)
    (hs : F.fresh → Says fs.remote p F) (hP : F.fresh → ServerIs fs p P)
    (hb : F.fresh → BufferTells fs p (env 1).now F P)
    (h : Entries fs p t (Tells F fun f => BytesAre P f ∧ MissGaps fs p o s (env 1).now P f)) :
    HasRead p p t env F (BytesAre P) fs (fs.readCached p o s env).2 := by
  have hget := learned_cacheGet (p := p) (t := t) (F := F)
    (R := fun f => BytesAre P f ∧ MissGaps fs p o s (env 1).now P f) fs p (env 0).toMoment
  have hkept := hget.entries h
  unfold FileSystem.readCached
  dsimp only
  split
  · exact ⟨hget.remote, hget.writeBuffer, hget.lives, Or.inl hget.readBuffer, fun it he =>
      { hkept it he with file := fun f hf => ((hkept it he).file f hf).1 }⟩
  · rename_i hne
    refine HasRead.after hget (hasRead_readBuffered (fun i hl => hlives _ (hget.lives _ hl))
      (by rw [hget.remote]; exact hs) (by rw [ServerIs, hget.remote]; exact hP)
      (by rw [BufferTells, hget.readBuffer]; exact hb) fun it he => ?_)
    refine { hkept it he with file := ?_ }
    rintro f rfl
    obtain ⟨hbytes, hgaps⟩ := (hkept _ he).file f rfl
    refine ⟨hbytes, ?_⟩
    rw [cacheGet_left he] at hne
    rw [fetched, hget.readBuffer, hget.remote]
    exact hgaps (read_nil (not_not.mp hne))

/-- A read of the path itself, if what it fetches leaves no gaps that are not so. -/
theorem hasRead_readFile (hlives : ∀ i, Lives fs (env i).now t → F.fresh)
    (hs : F.fresh → Says fs.remote p F) (hP : F.fresh → ServerIs fs p P)
    (hb : F.fresh → BufferTells fs p (env 4).now F P)
    (h : Entries fs p t (Tells F fun f => BytesAre P f ∧ MissGaps fs p o s (env 4).now P f)) :
    HasRead p p t env F (BytesAre P) fs (fs.readFile p o s env).2 := by
  have hattr := learned_getAttributes (p := p) (t := t) (F := F)
    (R := fun f => BytesAre P f ∧ MissGaps fs p o s (env 4).now P f)
    (bytesAre_aboutPages.and missGaps_aboutPages) hlives hs p
  have hkept := hattr.entries h
  have hcached : HasRead p p t env F (BytesAre P) fs
      ((fs.getAttributes p env).2.readCached p o s (env.drop 3)).2 := by
    refine HasRead.after hattr (hasRead_readCached (fun i hl => hlives _ (hattr.lives _ hl))
      (by rw [hattr.remote]; exact hs) (by rw [ServerIs, hattr.remote]; exact hP)
      (by rw [BufferTells, hattr.readBuffer]; exact hb) ?_)
    unfold MissGaps fetched
    rw [hattr.readBuffer, hattr.remote]
    exact hkept
  unfold FileSystem.readFile
  dsimp only
  split
  · split
    · exact ⟨hattr.remote, hattr.writeBuffer, hattr.lives, Or.inl hattr.readBuffer, fun it he =>
        { hkept it he with file := fun f hf => ((hkept it he).file f hf).1 }⟩
    · exact hcached
  · exact hcached

end Reads

end ClientKnowledgeReads
