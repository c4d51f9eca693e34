import RemoteFs.ClientMemory

/-! # What one step of a read leaves for the next

A read looks up the attributes, then the cached pages, and may put bytes into them. As long as the
clock does not go back, what the cache has for the path afterwards, at any later time, is told by
what it had before. -/
namespace ClientRounds

open ClientAttributes
open ClientCache
open ClientFileSystem
open ClientMemory
open ClientPageCache
open ClientPageCacheLoops
open OsPaths
open RemoteTree

variable {L : PageLimits}

section Caches

variable {c : Cache L} {p : Path} {item : CacheItem L} {m : Moment} {t : ℕ}

theorem expired_later {e : CacheEntry L} (ht : m.now ≤ t) (h : c.expired e m.now = true) :
    c.expired e t = true := by
  simp only [Cache.expired, Bool.and_eq_true, decide_eq_true_eq] at h ⊢
  exact ⟨h.1, by omega⟩

theorem get_later (ht : m.now ≤ t) : (c.get p m).2.freshAt p t = c.freshAt p t := by
  unfold Cache.get
  cases hl : AList.lookup p c.entries with
  | none => rfl
  | some e =>
    dsimp only
    split
    · rename_i hx
      rw [Cache.freshAt_erase_self, Cache.freshAt, hl]
      exact (if_pos (expired_later ht hx)).symm
    · simp only [Cache.freshAt, Cache.insert, AList.lookup_insert, hl]
      rfl

/-- A put leaves the old item with the new one merged into it, for as long as that one was fresh,
or the new item for its time to live. -/
theorem put_later : (c.put p item false m).freshAt p t =
    if (c.freshAt p m.now).isSome then (c.freshAt p t).map fun it => it.update m.pages item
    else if c.useTtl = true ∧ m.now + c.ttl < t then none else some item := by
  have hnew : ∀ d : Cache L, d.useTtl = c.useTtl → d.ttl = c.ttl →
      (d.insertNew p item m).freshAt p t =
        if c.useTtl = true ∧ m.now + c.ttl < t then none else some item := by
    intro d hu hlife
    obtain ⟨hu', hlife'⟩ := Cache.evictFull_config d m
    have hl : AList.lookup p (d.insertNew p item m).entries = some (.new item m.now) :=
      AList.lookup_insert _
    rw [Cache.freshAt, hl]
    simp [Cache.expired, Cache.insertNew, Cache.insert, CacheEntry.new, hu', hlife', hu, hlife]
  unfold Cache.put
  cases hl : AList.lookup p c.entries with
  | none =>
    have hnone : c.freshAt p m.now = none := by rw [Cache.freshAt, hl]
    rw [hnone]
    exact hnew c rfl rfl
  | some e =>
    dsimp only
    by_cases hx : c.expired e m.now = true
    · have hnone : c.freshAt p m.now = none := by
        rw [Cache.freshAt, hl]
        exact if_pos hx
      rw [if_pos hx, hnone]
      exact hnew (c.erase p) rfl rfl
    · have hsome : c.freshAt p m.now = some e.item := by
        rw [Cache.freshAt, hl]
        exact if_neg hx
      rw [if_neg hx, hsome, if_pos Option.isSome_some]
      simp only [Cache.freshAt, Cache.insert, AList.lookup_insert, hl]
      by_cases ht' : c.expired e t = true
      · exact (if_pos ht').trans (by rw [if_pos ht']; rfl)
      · exact (if_neg ht').trans (by rw [if_neg ht']; rfl)

theorem get_config (c : Cache L) (p : Path) (m : Moment) :
    (c.get p m).2.useTtl = c.useTtl ∧ (c.get p m).2.ttl = c.ttl := by
  unfold Cache.get
  cases AList.lookup p c.entries with
  | none => exact ⟨rfl, rfl⟩
  | some e =>
    dsimp only
    split <;> exact ⟨rfl, rfl⟩

end Caches

/-- An entry that is made at the time `born` is still fresh at `t`. -/
def lasts (fs : FileSystem L) (born t : ℕ) : Bool :=
  fs.cache.any fun c => !(c.useTtl && decide (born + c.ttl < t))

/-- What is cached for one path, by time. -/
abbrev Held (L : PageLimits) := ℕ → Option (CacheItem L)

namespace Held

variable (held : Held L) (lasts : ℕ → ℕ → Bool)

def put (item : CacheItem L) (m : Moment) : Held L := fun t =>
  if (held m.now).isSome then (held t).map fun it => it.update m.pages item
  else if lasts m.now t then some item else none

def look (p : Path) (asked : Except FsModelError Attributes) (env : Env) : Held L :=
  match (held (env 0).now).bind CacheItem.getAttributes, asked, p.fileName with
  | none, .ok a, some name => held.put lasts (.ofAttributes name a) (env 2).toMoment
  | _, _, _ => held

def write (p : Path) (offset : ℕ) (data : List UInt8) (m : Moment) : Held L :=
  match p.fileName with
  | none => held
  | some _ => held.put lasts (.file (written L p offset data)) m

variable {held held' : Held L} {lasts : ℕ → ℕ → Bool} {p : Path} {offset t : ℕ}
variable {data : List UInt8} {m : Moment}

theorem put_congr {item : CacheItem L} (hnow : held m.now = held' m.now) (h : held t = held' t) :
    held.put lasts item m t = held'.put lasts item m t := by
  rw [put, put, hnow, h]

theorem look_congr {asked : Except FsModelError Attributes} {env : Env}
    (h₀ : held (env 0).now = held' (env 0).now) (h₂ : held (env 2).now = held' (env 2).now)
    (h : held t = held' t) : held.look lasts p asked env t = held'.look lasts p asked env t := by
  unfold look
  rw [h₀]
  cases (held' (env 0).now).bind CacheItem.getAttributes with
  | some a => exact h
  | none =>
    cases asked with
    | error e => exact h
    | ok a =>
      cases p.fileName with
      | none => exact h
      | some name => exact put_congr h₂ h

theorem write_congr (hnow : held m.now = held' m.now) (h : held t = held' t) :
    held.write lasts p offset data m t = held'.write lasts p offset data m t := by
  rw [write, write]
  cases p.fileName with
  | none => exact h
  | some name => exact put_congr hnow h

end Held

section Entries

variable {fs : FileSystem L} {p : Path} {item : CacheItem L} {m : Moment} {t offset : ℕ}
variable {data : List UInt8} {env : Env}

theorem entry_cacheGet (ht : m.now ≤ t) : entry (fs.cacheGet p m).2 p t = entry fs p t := by
  unfold FileSystem.cacheGet entry
  cases hc : fs.cache with
  | none => rw [hc]
  | some c => exact get_later ht

theorem lasts_cacheGet (fs : FileSystem L) (p : Path) (m : Moment) :
    lasts (fs.cacheGet p m).2 = lasts fs := by
  funext born t
  unfold lasts FileSystem.cacheGet
  cases hc : fs.cache with
  | none => rw [hc]
  | some c =>
    obtain ⟨hu, hlife⟩ := get_config c p m
    dsimp only [Option.any_some]
    rw [hu, hlife]

theorem entry_put (fs : FileSystem L) (p : Path) (item : CacheItem L) (m : Moment) :
    entry (fs.onCache fun c => c.put p item false m) p =
      Held.put (entry fs p) (lasts fs) item m := by
  funext t
  unfold FileSystem.onCache entry lasts Held.put
  cases fs.cache with
  | none => rfl
  | some c =>
    refine put_later.trans ?_
    dsimp only [Option.bind_some, Option.any_some]
    congr 1
    by_cases h : c.useTtl = true ∧ m.now + c.ttl < t
    · rw [if_pos h]
      simp [h.1, h.2]
    · rw [if_neg h, if_pos]
      cases hu : c.useTtl with
      | false => rfl
      | true => simpa using fun hlt => h ⟨hu, hlt⟩

theorem lasts_onCache {f : Cache L → Cache L}
    (hf : ∀ c, (f c).useTtl = c.useTtl ∧ (f c).ttl = c.ttl) (fs : FileSystem L) :
    lasts (fs.onCache f) = lasts fs := by
  funext born t
  unfold lasts FileSystem.onCache
  cases fs.cache with
  | none => rfl
  | some c =>
    obtain ⟨hu, hlife⟩ := hf c
    dsimp only [Option.map_some, Option.any_some]
    rw [hu, hlife]

theorem lasts_of_cache {fs' : FileSystem L} (h : fs.cache = fs'.cache) : lasts fs = lasts fs' := by
  unfold lasts
  rw [h]

theorem lasts_write (fs : FileSystem L) (p : Path) (offset : ℕ) (data : List UInt8) (m : Moment) :
    lasts (fs.onCache fun c => cacheWriteFile c p offset data false m) = lasts fs := by
  refine lasts_onCache (fun c => ?_) fs
  unfold cacheWriteFile
  cases p.fileName with
  | none => exact ⟨rfl, rfl⟩
  | some name => exact Cache.put_config c p _ false m

theorem entry_write (fs : FileSystem L) (p : Path) (offset : ℕ) (data : List UInt8) (m : Moment) :
    entry (fs.onCache fun c => cacheWriteFile c p offset data false m) p =
      Held.write (entry fs p) (lasts fs) p offset data m := by
  unfold Held.write cacheWriteFile
  cases hname : p.fileName with
  | none =>
    funext t
    unfold FileSystem.onCache entry
    cases fs.cache <;> rfl
  | some name =>
    have hw : (CachedFile.new name none).writeContent offset data = written L p offset data := by
      rw [written, hname, Option.getD_some]
    dsimp only
    rw [hw]
    exact entry_put fs p _ m

/-- The answer to the request for attributes that a call makes if it finds none. -/
def asked (fs : FileSystem L) (p : Path) (env : Env) : Except FsModelError Attributes :=
  pathToString p >>= fun _ => request (env 1) (fs.remote.getAttributes p)

theorem asked_kind {content : List UInt8} {a : Attributes}
    (hnode : fs.remote.nodes p = some (.file content)) (ha : asked fs p env = .ok a) :
    a.kind ≠ .directory ∧ a.kind ≠ .symlink := by
  have hattr := (FileSystem.sent_ok.mp ha).2.2
  rw [Remote.getAttributes, hnode] at hattr
  cases hattr
  constructor
  · intro hdir
    cases hdir
  · intro hlink
    cases hlink

def looked (fs : FileSystem L) (p : Path) (env : Env) : Held L :=
  Held.look (entry fs p) (lasts fs) p (asked fs p env) env

theorem getAttributes_found (fs : FileSystem L) (p : Path) (env : Env) :
    (fs.getAttributes p env).1 =
      match (entry fs p (env 0).now).bind CacheItem.getAttributes with
      | some a => .ok a
      | none => asked fs p env := by
  have hentry := cacheGet_entry fs p (env 0).toMoment
  obtain ⟨hremote, -⟩ := cacheGet_frame fs p (env 0).toMoment
  unfold FileSystem.getAttributes asked
  dsimp only
  rw [hentry, hremote]
  cases (entry fs p (env 0).toMoment.now).bind CacheItem.getAttributes with
  | some a => rfl
  | none =>
    cases pathToString p >>= fun _ => request (env 1) (fs.remote.getAttributes p) <;> rfl

theorem lasts_getAttributes (fs : FileSystem L) (p : Path) (env : Env) :
    lasts (fs.getAttributes p env).2 = lasts fs := by
  have hget := lasts_cacheGet fs p (env 0).toMoment
  unfold FileSystem.getAttributes
  dsimp only
  split
  · exact hget
  · split
    · exact hget
    · refine (lasts_onCache (fun c => ?_) _).trans hget
      unfold cachePutAttr
      cases p.fileName with
      | none => exact ⟨rfl, rfl⟩
      | some name => exact Cache.put_config c p _ false (env 2).toMoment

theorem entry_getAttributes (h₀ : (env 0).now ≤ (env 2).now) (ht : (env 0).now ≤ t) :
    entry (fs.getAttributes p env).2 p t = looked fs p env t := by
  have hentry := cacheGet_entry fs p (env 0).toMoment
  obtain ⟨hremote, -⟩ := cacheGet_frame fs p (env 0).toMoment
  have hkept : ∀ {t}, (env 0).now ≤ t →
      entry (fs.cacheGet p (env 0).toMoment).2 p t = entry fs p t := entry_cacheGet
  unfold FileSystem.getAttributes looked Held.look asked
  dsimp only
  rw [hentry, hremote]
  split
  · rename_i a ha
    rw [show (env 0).toMoment.now = (env 0).now from rfl] at ha
    rw [ha]
    exact hkept ht
  · rename_i ha
    rw [show (env 0).toMoment.now = (env 0).now from rfl] at ha
    rw [ha]
    cases hasked : pathToString p >>= fun _ => request (env 1) (fs.remote.getAttributes p) with
    | error e => exact hkept ht
    | ok a =>
      unfold cachePutAttr
      cases hname : p.fileName with
      | none =>
        refine Eq.trans ?_ (hkept ht)
        unfold FileSystem.onCache entry
        cases (fs.cacheGet p (env 0).toMoment).2.cache <;> rfl
      | some name =>
        refine (congrFun (entry_put _ p _ (env 2).toMoment) t).trans ?_
        unfold Held.put
        rw [lasts_cacheGet, hkept ht, show (env 2).toMoment.now = (env 2).now from rfl, hkept h₀]

end Entries

section Items

variable {held : Held L} {lasts : ℕ → ℕ → Bool} {p : Path} {offset x t : ℕ} {m : Moment}
variable {data : List UInt8} {f w : CachedFile L} {walk : HashOrder ℕ}

def isFile : CacheItem L → Bool
  | .file _ => true
  | _ => false

/-- A put of bytes keeps the attributes of a file; another item goes with them. -/
def keptAttributes (p : Path) (it : CacheItem L) : Option Attributes :=
  if p.fileName = none ∨ isFile it then it.getAttributes else none

theorem write_attributes (h : held t ≠ none → held m.now ≠ none) :
    (held.write lasts p offset data m t).bind CacheItem.getAttributes =
      (held t).bind (keptAttributes p) := by
  have hwritten : (CacheItem.file (written L p offset data)).getAttributes = none :=
    written_attributes
  unfold Held.write keptAttributes
  cases hname : p.fileName with
  | none => simp
  | some name =>
    dsimp only [Held.put]
    by_cases hsome : (held m.now).isSome
    · rw [if_pos hsome]
      cases held t with
      | none => rfl
      | some it =>
        dsimp only [Option.map_some, Option.bind_some]
        cases it with
        | file f =>
          rw [if_pos (.inr rfl)]
          exact (merge_merged f (written L p offset data) m.pages).1.trans
            (by rw [written_attributes]; rfl)
        | symLink l => exact hwritten
        | directory d => exact hwritten
    · have hnone : held t = none := by
        by_contra hne
        exact hsome (Option.isSome_iff_ne_none.mpr (h hne))
      rw [if_neg hsome, hnone]
      split
      · exact hwritten
      · rfl

/-- The zero between a cached page and the bytes that are merged into it is served, if the merge
comes to the page. -/
theorem bridged_served (hbridged : BridgedByMerge L f.file w.file x) (hreach : Reaches f w walk x) :
    (f.merge w walk).byteAt x ≠ none := by
  obtain ⟨page, pg, hl, hl', hside⟩ := hbridged
  obtain ⟨-, hspec⟩ := merge_merged f w walk
  have hk : x / L.pageSize ∈ walk.order w.file.content.keys := by
    rw [(walk.perm _).mem_iff, ← AList.mem_keys, ← AList.lookup_isSome, hl']
    rfl
  obtain ⟨page', hw, hpage'⟩ := hspec.written _ pg hk hreach hl'
  have hwf := w.wellFormed _ _ hl'
  have hwf' := f.wellFormed _ _ hl
  have hlen := validBytes_length hwf
  have hup := hwf.upTo_le
  have hvalid := hwf.valid
  have hup' := hwf'.upTo_le
  have hvalid' := hwf'.valid
  have hlength := hwf'.toSound.length
  have hold : f.file.entryOrDefault L (x / L.pageSize) = page := by
    rw [File.entryOrDefault, hl, Option.getD_some]
  rw [hold] at hw
  have hmod := Nat.mod_lt x L.pageSize_pos
  rw [CachedFile.byteAt, File.byteAt_of_lookup hpage',
    FilePage.byteAt_write hwf'.toSound (by omega) hw]
  unfold FilePage.Bridged at hside
  rw [if_neg (by omega), if_pos (by omega), List.getElem?_eq_getElem (by omega)]
  exact Option.some_ne_none _

theorem merge_kept (hx : f.byteAt x ≠ none) : (f.merge w walk).byteAt x ≠ none := by
  obtain ⟨-, hspec⟩ := merge_merged f w walk
  by_cases hroom : x / L.pageSize ∉ walk.order w.file.content.keys ∨
      L.maxPages ≤ (pagesMerged f.file (walk.order w.file.content.keys) (x / L.pageSize)).card
  · rwa [CachedFile.byteAt, hspec.unreached hroom]
  · rw [not_or, not_not, not_le] at hroom
    obtain ⟨b, hb⟩ := Option.ne_none_iff_exists'.mp hx
    cases hgx : w.byteAt x with
    | some c =>
      rw [CachedFile.byteAt, hspec.reached f.wellFormed w.wellFormed hroom.1 hroom.2 hgx]
      exact Option.some_ne_none c
    | none =>
      obtain ⟨pg, hl⟩ : ∃ pg, AList.lookup (x / L.pageSize) w.file.content = some pg :=
        Option.isSome_iff_exists.mp (AList.lookup_isSome.mpr
          (AList.mem_keys.mpr ((walk.perm _).mem_iff.mp hroom.1)))
      have hwf := w.wellFormed _ _ hl
      have hlen := validBytes_length hwf
      have hup := hwf.upTo_le
      have hvalid := hwf.valid
      obtain ⟨page', hw, hl'⟩ := hspec.written _ pg hroom.1 hroom.2 hl
      have hout : ¬(pg.validFrom ≤ x % L.pageSize ∧
          x % L.pageSize < pg.validFrom + (validBytes pg).length) := by
        rintro ⟨h₁, h₂⟩
        obtain ⟨c, hc, -⟩ := FilePage.byteAt_isSome hwf.toSound h₁ (by omega)
        rw [CachedFile.byteAt, File.byteAt_of_lookup hl, hc] at hgx
        exact Option.some_ne_none c hgx
      have hkept := FilePage.byteAt_write_kept (File.entryOrDefault_sound f.wellFormed)
        (by omega) hw hout ((File.byteAt_entryOrDefault x).trans hb)
      rw [CachedFile.byteAt, File.byteAt_of_lookup hl', hkept]
      exact Option.some_ne_none b

/-- Once the bytes are put, the cached pages have the position, as before or as a zero in front of
a page that begins behind it. -/
def Adjoins (item : Option (CacheItem L)) (p : Path) (w : CachedFile L) (walk : HashOrder ℕ)
    (x : ℕ) : Prop :=
  ∃ f, item = some (.file f) ∧ (f.byteAt x ≠ none ∨
    p.fileName ≠ none ∧ BridgedByMerge L f.file w.file x ∧ Reaches f w walk x)

theorem merge_byteAt_iff (hx : w.byteAt x = none) : (f.merge w walk).byteAt x ≠ none ↔
    f.byteAt x ≠ none ∨ BridgedByMerge L f.file w.file x ∧ Reaches f w walk x := by
  constructor
  · intro h
    obtain ⟨b, hb⟩ := Option.ne_none_iff_exists'.mp h
    obtain ⟨-, hspec⟩ := merge_merged f w walk
    rcases hspec.origin f.wellFormed w.wellFormed
      (fun k hk => AList.mem_keys.mpr ((walk.perm _).mem_iff.mp hk)) hb with
      ⟨hw, -⟩ | hf | ⟨-, hbridged, -, hreach⟩
    · exact (Option.some_ne_none b (hw.symm.trans hx)).elim
    · left
      rw [CachedFile.byteAt, hf]
      exact Option.some_ne_none b
    · exact .inr ⟨hbridged, hreach⟩
  · rintro (hf | ⟨hbridged, hreach⟩)
    · exact merge_kept hf
    · exact bridged_served hbridged hreach

theorem write_byteAt_iff (h : held t ≠ none → held m.now ≠ none)
    (hx : (written L p offset data).byteAt x = none) :
    ((held.write lasts p offset data m t).bind fun it => it.byteAt x) ≠ none ↔
      Adjoins (held t) p (written L p offset data) m.pages x := by
  unfold Held.write Adjoins
  cases hname : p.fileName with
  | none =>
    dsimp only
    cases hheld : held t with
    | none => exact iff_of_false (fun hne => hne rfl) nofun
    | some it =>
      dsimp only [Option.bind_some]
      cases it with
      | file f =>
        refine ⟨fun hne => ⟨f, rfl, .inl hne⟩, ?_⟩
        rintro ⟨_, ⟨⟩, hne | ⟨hnamed, -⟩⟩
        · exact hne
        · exact (hnamed rfl).elim
      | symLink l => exact iff_of_false (fun hne => hne rfl) nofun
      | directory d => exact iff_of_false (fun hne => hne rfl) nofun
  | some name =>
    dsimp only [Held.put]
    cases hheld : held t with
    | none =>
      refine iff_of_false (not_not.mpr ?_) nofun
      split
      · rfl
      · split
        · exact hx
        · rfl
    | some it =>
      have hsome : (held m.now).isSome :=
        Option.isSome_iff_ne_none.mpr (h (hheld ▸ Option.some_ne_none it))
      rw [if_pos hsome]
      dsimp only [Option.map_some, Option.bind_some]
      cases it with
      | file f =>
        refine Iff.trans (merge_byteAt_iff hx) ⟨?_, ?_⟩
        · rintro (hf | hgap)
          · exact ⟨f, rfl, .inl hf⟩
          · exact ⟨f, rfl, .inr ⟨Option.some_ne_none name, hgap⟩⟩
        · rintro ⟨_, ⟨⟩, hf | ⟨-, hgap⟩⟩
          · exact .inl hf
          · exact .inr hgap
      | symLink l => exact iff_of_false (not_not.mpr hx) nofun
      | directory d => exact iff_of_false (not_not.mpr hx) nofun

end Items

section Looks

variable {fs : FileSystem L} {p : Path} {env : Env} {t t' x : ℕ}

theorem looked_earlier {it : CacheItem L} (h₀ : (env 0).now ≤ (env 2).now) (ht : (env 0).now ≤ t)
    (h : t ≤ t') (hit : looked fs p env t' = some it) : looked fs p env t = some it := by
  rw [← entry_getAttributes h₀ (ht.trans h)] at hit
  rw [← entry_getAttributes h₀ ht]
  exact entry_earlier h hit

theorem looked_cases (fs : FileSystem L) (p : Path) (env : Env) :
    looked fs p env = entry fs p ∨ ∃ a name, asked fs p env = .ok a ∧ looked fs p env =
      Held.put (entry fs p) (lasts fs) (.ofAttributes name a) (env 2).toMoment := by
  unfold looked Held.look
  split
  · rename_i a name _ hasked _
    exact .inr ⟨a, name, hasked, rfl⟩
  · exact .inl rfl

/-- Attributes of a file leave the cached pages as they are. -/
theorem looked_byteAt (ht : (env 2).now ≤ t) (hfile : ∀ a, asked fs p env = .ok a →
    a.kind ≠ .directory ∧ a.kind ≠ .symlink) :
    ((looked fs p env t).bind fun it => it.byteAt x) =
      (entry fs p t).bind fun it => it.byteAt x := by
  rcases looked_cases fs p env with hsame | ⟨a, name, hasked, hput⟩
  · rw [hsame]
  · obtain ⟨hdir, hlink⟩ := hfile a hasked
    have hitem : (CacheItem.ofAttributes name a : CacheItem L) =
        .file (CachedFile.new name (some a)) := by
      unfold CacheItem.ofAttributes
      split
      · exact (hdir ‹_›).elim
      · exact (hlink ‹_›).elim
      · rfl
    have hbare : (CachedFile.new (L := L) name (some a)).byteAt x = none := byteAt_bare rfl
    rw [hput, hitem]
    unfold Held.put
    by_cases hsome : (entry fs p (env 2).now).isSome
    · rw [if_pos hsome]
      cases entry fs p t with
      | none => rfl
      | some it =>
        dsimp only [Option.map_some, Option.bind_some]
        cases it with
        | file f => exact (merge_bare rfl).byteAt x
        | symLink l => exact hbare
        | directory d => exact hbare
    · have hnone : entry fs p t = none := by
        by_contra hne
        obtain ⟨it, hit⟩ := Option.ne_none_iff_exists'.mp hne
        rw [entry_earlier ht hit] at hsome
        exact hsome rfl
      rw [if_neg hsome, hnone]
      split
      · exact hbare
      · rfl

end Looks

end ClientRounds
