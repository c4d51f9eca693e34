import RemoteFs.ClientPageCacheLoops
import Mathlib.Data.List.MinMax

/-! # The item cache

A bounded map from paths to files, links and directories with an optional time to live.
Calls read a clock and walk hash maps, so each takes the moment it happens at. -/
namespace ClientCache

open ClientAttributes
open ClientPageCache
open ClientPageCacheLoops
open OsPaths

variable {L : PageLimits}

/-- What a call cannot choose: the clock and the orders in which hash maps are walked. -/
structure Moment where
  now : ℕ
  victims : HashOrder Path
  pages : HashOrder ℕ

structure CachedFile (L : PageLimits) where
  file : File
  wellFormed : file.WellFormed L

namespace CachedFile

def ofRun : (r : Except Panic File) → (∃ f, r = .ok f ∧ f.WellFormed L) → CachedFile L
  | .ok f, h => ⟨f, by obtain ⟨_, h, hf⟩ := h; injection h with h; exact h ▸ hf⟩
  | .error _, h => False.elim (by obtain ⟨_, h, -⟩ := h; cases h)

def new (name : OsString) (attributes : Option Attributes) : CachedFile L :=
  ⟨File.new name attributes, File.new_wellFormed name attributes⟩

def writeContent (f : CachedFile L) (offset : ℕ) (data : List UInt8) : CachedFile L :=
  ofRun (f.file.writeContent L offset data) (by
    obtain ⟨f', _, _, hrun, -, hspec⟩ := writeContent_spec f.wellFormed offset data
    exact ⟨f', hrun, hspec.wellFormed⟩)

def merge (f other : CachedFile L) (walk : HashOrder ℕ) : CachedFile L :=
  ofRun (f.file.merge L other.file walk) (by
    obtain ⟨f', hrun, -, hspec⟩ := merge_spec f.wellFormed other.wellFormed walk
    exact ⟨f', hrun, hspec.wellFormed⟩)

def read (f : CachedFile L) (offset size : ℕ) : List UInt8 :=
  match f.file.read L offset size with
  | .ok bytes => bytes
  | .error _ => []

def byteAt (f : CachedFile L) (p : ℕ) : Option UInt8 := f.file.byteAt L p

end CachedFile

structure SymLink where
  name : OsString
  attributes : Option Attributes
  target : Option String
  deriving DecidableEq, Repr

def SymLink.merge (l other : SymLink) : SymLink :=
  { l with
    attributes := if other.attributes.isSome then other.attributes else l.attributes
    target := if other.target.isSome then other.target else l.target }

structure Directory where
  name : OsString
  attributes : Option Attributes
  children : Option (List OsString)
  deriving DecidableEq, Repr

def Directory.merge (d other : Directory) : Directory :=
  { d with
    attributes := if other.attributes.isSome then other.attributes else d.attributes
    children := if other.children.isSome then other.children else d.children }

inductive CacheItem (L : PageLimits) where
  | file (item : CachedFile L)
  | symLink (item : SymLink)
  | directory (item : Directory)

namespace CacheItem

def rename : CacheItem L → OsString → CacheItem L
  | file item, name => file ⟨{ item.file with name := name }, item.wellFormed⟩
  | symLink item, name => symLink { item with name := name }
  | directory item, name => directory { item with name := name }

def getAttributes : CacheItem L → Option Attributes
  | file item => item.file.attributes
  | symLink item => item.attributes
  | directory item => item.attributes

def invalidateAttributes : CacheItem L → CacheItem L
  | file item => file ⟨{ item.file with attributes := none }, item.wellFormed⟩
  | symLink item => symLink { item with attributes := none }
  | directory item => directory { item with attributes := none }

/-- `CacheEntry::update`: items of one kind merge, any other replaces. -/
def update (walk : HashOrder ℕ) : CacheItem L → CacheItem L → CacheItem L
  | file old, file new => file (old.merge new walk)
  | directory old, directory new => directory (old.merge new)
  | symLink old, symLink new => symLink (old.merge new)
  | _, replacer => replacer

def byteAt : CacheItem L → ℕ → Option UInt8
  | file item, p => item.byteAt p
  | _, _ => none

/-- The item `cache_put_attr` makes of freshly fetched attributes. -/
def ofAttributes (name : OsString) (a : Attributes) : CacheItem L :=
  match a.kind with
  | .directory => directory ⟨name, some a, none⟩
  | .symlink => symLink ⟨name, some a, none⟩
  | _ => file (CachedFile.new name (some a))

end CacheItem

structure CacheEntry (L : PageLimits) where
  item : CacheItem L
  createdAt : ℕ
  lastAccessed : ℕ
  accessCount : ℕ

def CacheEntry.new (item : CacheItem L) (now : ℕ) : CacheEntry L := ⟨item, now, now, 0⟩

def CacheEntry.update (e : CacheEntry L) (item : CacheItem L) (walk : HashOrder ℕ) :
    CacheEntry L :=
  { e with item := e.item.update walk item }

inductive CachePolicy where
  | lru
  | lfu
  deriving DecidableEq, Repr

structure Cache (L : PageLimits) where
  entries : AList fun _ : Path => CacheEntry L
  capacity : ℕ
  ttl : ℕ
  useTtl : Bool
  policy : CachePolicy

def parentPathsLoop : ℕ → Option Path → List Path
  | fuel + 1, some p => p :: parentPathsLoop fuel p.parent
  | _, _ => []

/-- Every parent is shorter, so the length of the path is fuel enough. -/
def parentPaths (p : Path) : List Path := parentPathsLoop p.length p.parent

namespace Cache

def erase (c : Cache L) (p : Path) : Cache L := { c with entries := AList.erase p c.entries }

def insert (c : Cache L) (p : Path) (e : CacheEntry L) : Cache L :=
  { c with entries := AList.insert p e c.entries }

def invalidateParents (c : Cache L) (p : Path) : Cache L := (parentPaths p).foldl erase c

def expired (c : Cache L) (e : CacheEntry L) (now : ℕ) : Bool :=
  c.useTtl && e.createdAt + c.ttl < now

def get (c : Cache L) (p : Path) (m : Moment) : Option (CacheItem L) × Cache L :=
  match AList.lookup p c.entries with
  | none => (none, c)
  | some e =>
    if c.expired e m.now then (none, c.erase p)
    else (some e.item,
      c.insert p { e with lastAccessed := m.now, accessCount := e.accessCount + 1 })

/-- The key `min_by_key` compares, by policy. -/
def rank (c : Cache L) (p : Path) : ℕ :=
  match AList.lookup p c.entries, c.policy with
  | none, _ => 0
  | some e, .lru => e.lastAccessed
  | some e, .lfu => e.accessCount

def selectVictim (c : Cache L) (m : Moment) : Option Path :=
  List.argmin c.rank (m.victims.order c.entries.keys)

def evictFull (c : Cache L) (m : Moment) : Cache L :=
  if c.capacity ≤ c.entries.keys.length then
    match c.selectVictim m with
    | some victim => c.erase victim
    | none => c
  else c

def insertNew (c : Cache L) (p : Path) (item : CacheItem L) (m : Moment) : Cache L :=
  (c.evictFull m).insert p (CacheEntry.new item m.now)

def put (c : Cache L) (p : Path) (item : CacheItem L) (invalidateAttributes : Bool)
    (m : Moment) : Cache L :=
  match AList.lookup p c.entries with
  | none => c.insertNew p item m
  | some e =>
    if c.expired e m.now then (c.erase p).insertNew p item m
    else
      let e := { e with lastAccessed := m.now, accessCount := e.accessCount + 1 }
      let e := e.update item m.pages
      c.insert p (if invalidateAttributes then { e with item := e.item.invalidateAttributes }
        else e)

def putNew (c : Cache L) (p : Path) (item : CacheItem L) (m : Moment) : Cache L :=
  (c.invalidateParents p).insertNew p item m

def remove (c : Cache L) (p : Path) : Option (CacheItem L) × Cache L :=
  ((AList.lookup p c.entries).map CacheEntry.item, (c.erase p).invalidateParents p)

def invalidate (c : Cache L) (p : Path) : Cache L := c.erase p

end Cache

def cacheWriteFile (c : Cache L) (p : Path) (offset : ℕ) (data : List UInt8)
    (invalidateAttributes : Bool) (m : Moment) : Cache L :=
  match p.fileName with
  | none => c
  | some name => c.put p (.file ((CachedFile.new name none).writeContent offset data))
      invalidateAttributes m

def cachePutAttr (c : Cache L) (p : Path) (a : Attributes) (m : Moment) : Cache L :=
  match p.fileName with
  | none => c
  | some name => c.put p (.ofAttributes name a) false m

section Files

variable (f other : CachedFile L)

theorem writeContent_file (offset : ℕ) (data : List UInt8) :
    f.file.writeContent L offset data = .ok (f.writeContent offset data).file := by
  obtain ⟨f', _, _, hrun, -, hspec⟩ := writeContent_spec f.wellFormed offset data
  simp only [CachedFile.writeContent, hrun]
  rfl

theorem merge_file (walk : HashOrder ℕ) :
    f.file.merge L other.file walk = .ok (f.merge other walk).file := by
  obtain ⟨f', hrun, -, hspec⟩ := merge_spec f.wellFormed other.wellFormed walk
  simp only [CachedFile.merge, hrun]
  rfl

theorem writeContent_stored (offset : ℕ) (data : List UInt8) :
    ∃ stored rest, data = stored ++ rest ∧
      WriteSpec L f.file offset data stored (f.writeContent offset data).file := by
  obtain ⟨f', stored, rest, hrun, hs, hspec⟩ := writeContent_spec f.wellFormed offset data
  rw [writeContent_file] at hrun
  injection hrun with hrun
  exact ⟨stored, rest, hs, hrun ▸ hspec⟩

theorem merge_merged (walk : HashOrder ℕ) :
    (f.merge other walk).file.attributes = (if other.file.attributes.isSome then
      other.file.attributes else f.file.attributes) ∧
    MergeSpec L f.file other.file (walk.order other.file.content.keys)
      (f.merge other walk).file := by
  obtain ⟨f', hrun, ⟨-, hattr⟩, hspec⟩ := merge_spec f.wellFormed other.wellFormed walk
  rw [merge_file] at hrun
  injection hrun with hrun
  exact ⟨hrun ▸ hattr, hrun ▸ hspec⟩

theorem merge_name (walk : HashOrder ℕ) : (f.merge other walk).file.name = f.file.name := by
  obtain ⟨f', hrun, ⟨hname, -⟩, -⟩ := merge_spec f.wellFormed other.wellFormed walk
  rw [merge_file] at hrun
  injection hrun with hrun
  exact hrun ▸ hname

theorem read_served (offset size : ℕ) : ReadSpec L f.file offset size (f.read offset size) := by
  obtain ⟨r, hrun, hspec⟩ := read_spec f.wellFormed offset size
  rw [CachedFile.read, hrun]
  exact hspec

end Files

namespace Cache

variable {c c' : Cache L} {p q : Path} {item it : CacheItem L} {m : Moment} {inv : Bool}
variable {t : ℕ}

def freshAt (c : Cache L) (p : Path) (t : ℕ) : Option (CacheItem L) :=
  match AList.lookup p c.entries with
  | none => none
  | some e => if c.expired e t then none else some e.item

def Sub (c' c : Cache L) : Prop :=
  ∀ p t it, c'.freshAt p t = some it → c.freshAt p t = some it

theorem Sub.refl (c : Cache L) : c.Sub c := fun _ _ _ h => h

theorem Sub.trans {c₁ c₂ c₃ : Cache L} (h : c₁.Sub c₂) (h' : c₂.Sub c₃) : c₁.Sub c₃ :=
  fun p t it hp => h' p t it (h p t it hp)

theorem freshAt_earlier {t' : ℕ} (h : t ≤ t') (hp : c.freshAt p t' = some it) :
    c.freshAt p t = some it := by
  unfold freshAt at hp ⊢
  cases hl : AList.lookup p c.entries with
  | none => rw [hl] at hp; cases hp
  | some e =>
    rw [hl] at hp
    dsimp only at hp ⊢
    split at hp
    · cases hp
    · rename_i hx
      rw [if_neg]
      · exact hp
      · simp only [expired, Bool.and_eq_true, decide_eq_true_eq, not_and] at hx ⊢
        intro hu
        have := hx hu
        omega

theorem freshAt_erase_self : (c.erase p).freshAt p t = none := by
  simp [freshAt, erase]

theorem freshAt_erase_ne (h : q ≠ p) : (c.erase p).freshAt q t = c.freshAt q t := by
  simp only [freshAt, erase, AList.lookup_erase_ne h]
  rfl

theorem freshAt_insert_self {e : CacheEntry L} (h : (c.insert p e).freshAt p t = some it) :
    it = e.item := by
  have hl : AList.lookup p (c.insert p e).entries = some e := AList.lookup_insert _
  rw [freshAt, hl] at h
  dsimp only at h
  split at h
  · cases h
  · injection h with h; exact h.symm

theorem freshAt_insert_unexpired {e : CacheEntry L}
    (h : (c.insert p e).freshAt p t = some it) : ¬c.expired e t = true := by
  have hl : AList.lookup p (c.insert p e).entries = some e := AList.lookup_insert _
  rw [freshAt, hl] at h
  dsimp only at h
  split at h
  · cases h
  · assumption

theorem freshAt_insert_ne (e : CacheEntry L) (h : q ≠ p) :
    (c.insert p e).freshAt q t = c.freshAt q t := by
  simp only [freshAt, insert, AList.lookup_insert_ne h]
  rfl

theorem erase_sub (c : Cache L) (p : Path) : (c.erase p).Sub c := by
  intro q t it h
  by_cases hq : q = p
  · subst hq; rw [freshAt_erase_self] at h; cases h
  · rwa [freshAt_erase_ne hq] at h

theorem foldl_erase_sub (ps : List Path) (c : Cache L) : (ps.foldl erase c).Sub c :=
  List.foldlRecOn (motive := fun d => d.Sub c) ps erase (Sub.refl c)
    fun d hd q _ => (erase_sub d q).trans hd

theorem invalidateParents_keeps {P : Cache L → Prop} (herase : ∀ d q, P d → P (d.erase q))
    (h : P c) (p : Path) : P (c.invalidateParents p) :=
  List.foldlRecOn (parentPaths p) erase h fun d hd q _ => herase d q hd

theorem invalidateParents_sub (c : Cache L) (p : Path) : (c.invalidateParents p).Sub c :=
  foldl_erase_sub _ c

theorem evictFull_sub (c : Cache L) (m : Moment) : (c.evictFull m).Sub c := by
  unfold evictFull
  split
  · split
    · exact erase_sub c _
    · exact Sub.refl c
  · exact Sub.refl c

theorem remove_sub (c : Cache L) (p : Path) : (c.remove p).2.Sub c :=
  (invalidateParents_sub _ _).trans (erase_sub c p)

/-- A lookup serves exactly what is fresh. -/
theorem get_eq_freshAt (c : Cache L) (p : Path) (m : Moment) :
    (c.get p m).1 = c.freshAt p m.now := by
  unfold get freshAt
  cases AList.lookup p c.entries with
  | none => rfl
  | some e =>
    dsimp only
    split <;> rfl

theorem get_sub (c : Cache L) (p : Path) (m : Moment) : (c.get p m).2.Sub c := by
  unfold get
  cases h : AList.lookup p c.entries with
  | none => exact Sub.refl c
  | some e =>
    dsimp only
    split
    · exact erase_sub c p
    · intro q t it hq
      by_cases hp : q = p
      · subst hp
        simp only [freshAt, insert, AList.lookup_insert] at hq
        simp only [freshAt, h]
        exact hq
      · rwa [freshAt_insert_ne _ hp] at hq

/-- What is fresh behind a lookup is what the lookup returned. -/
theorem get_left (h : (c.get p m).2.freshAt p t = some it) : (c.get p m).1 = some it := by
  unfold get at h ⊢
  cases hl : AList.lookup p c.entries with
  | none =>
    rw [hl] at h
    simp only [freshAt, hl] at h
    cases h
  | some e =>
    rw [hl] at h
    dsimp only at h ⊢
    split at h
    · rw [freshAt_erase_self] at h; cases h
    · rename_i hx
      rw [if_neg hx]
      exact congrArg some (freshAt_insert_self h).symm

theorem get_kept (h : (c.get p m).1 = some it) : (c.get p m).2.freshAt p m.now = some it := by
  unfold get at h ⊢
  cases hl : AList.lookup p c.entries with
  | none =>
    rw [hl] at h
    cases h
  | some e =>
    rw [hl] at h
    dsimp only at h ⊢
    split at h
    · cases h
    · rename_i hx
      rw [if_neg hx]
      have hl' : AList.lookup p (c.insert p { e with
          lastAccessed := m.now, accessCount := e.accessCount + 1 }).entries =
          some { e with lastAccessed := m.now, accessCount := e.accessCount + 1 } :=
        AList.lookup_insert _
      rw [freshAt, hl']
      exact (if_neg hx).trans h

theorem insertNew_self (h : (c.insertNew p item m).freshAt p t = some it) : it = item :=
  freshAt_insert_self h

theorem insertNew_ne (h : q ≠ p) (hq : (c.insertNew p item m).freshAt q t = some it) :
    c.freshAt q t = some it := by
  rw [insertNew, freshAt_insert_ne _ h] at hq
  exact evictFull_sub c m q t it hq

theorem putNew_self (h : (c.putNew p item m).freshAt p t = some it) : it = item :=
  insertNew_self h

theorem putNew_ne (h : q ≠ p) (hq : (c.putNew p item m).freshAt q t = some it) :
    c.freshAt q t = some it :=
  invalidateParents_sub c p q t it (insertNew_ne h hq)

theorem put_ne (h : q ≠ p) (hq : (c.put p item inv m).freshAt q t = some it) :
    c.freshAt q t = some it := by
  unfold put at hq
  cases hl : AList.lookup p c.entries with
  | none => rw [hl] at hq; exact insertNew_ne h hq
  | some e =>
    rw [hl] at hq
    dsimp only at hq
    split at hq
    · exact erase_sub c p q t it (insertNew_ne h hq)
    · rwa [freshAt_insert_ne _ h] at hq

theorem parent_mem_parentPaths (q : Path) (name : OsString) : q ∈ parentPaths (q.child name) := by
  simp [parentPaths, parentPathsLoop, Path.parent, Path.child]

theorem freshAt_foldl_erase {ps : List Path} (h : q ∈ ps) :
    ∀ c : Cache L, (ps.foldl erase c).freshAt q t = none := by
  induction ps with
  | nil => cases h
  | cons p ps ih =>
    intro c
    by_cases hq : q ∈ ps
    · exact ih hq _
    · have hqp : q = p := (List.mem_cons.mp h).resolve_right hq
      subst hqp
      refine Option.eq_none_iff_forall_ne_some.mpr fun it hit => ?_
      cases freshAt_erase_self.symm.trans (foldl_erase_sub ps _ q t it hit)

/-- The parent of an invalidated path is not served. -/
theorem invalidateParents_gone (h : (c.invalidateParents p).freshAt q t = some it)
    (name : OsString) : q.child name ≠ p := by
  rintro rfl
  cases (freshAt_foldl_erase (parent_mem_parentPaths q name) c).symm.trans h

theorem remove_gone (h : (c.remove p).2.freshAt q t = some it) :
    q ≠ p ∧ ∀ name, q.child name ≠ p := by
  refine ⟨?_, invalidateParents_gone h⟩
  rintro rfl
  cases freshAt_erase_self.symm.trans (invalidateParents_sub _ q q t it h)

theorem putNew_gone (hq : q ≠ p) (h : (c.putNew p item m).freshAt q t = some it)
    (name : OsString) : q.child name ≠ p :=
  invalidateParents_gone (insertNew_ne hq h) name

theorem freshAt_zero (c : Cache L) (p : Path) :
    c.freshAt p 0 = (AList.lookup p c.entries).map CacheEntry.item := by
  unfold freshAt
  cases AList.lookup p c.entries with
  | none => rfl
  | some e => simp [expired]

theorem evictFull_config (c : Cache L) (m : Moment) :
    (c.evictFull m).useTtl = c.useTtl ∧ (c.evictFull m).ttl = c.ttl := by
  unfold evictFull
  split
  · split <;> exact ⟨rfl, rfl⟩
  · exact ⟨rfl, rfl⟩

/-- An inserted item is fresh for its time to live. -/
theorem insertNew_lives (h : (c.insertNew p item m).freshAt p t = some it)
    (hu : c.useTtl = true) : t ≤ m.now + c.ttl := by
  obtain ⟨hu', ht'⟩ := evictFull_config c m
  have hx := freshAt_insert_unexpired h
  rw [expired, hu', ht', hu, Bool.true_and, decide_eq_true_iff] at hx
  exact Nat.le_of_not_lt hx

theorem put_config (c : Cache L) (p : Path) (item : CacheItem L) (inv : Bool) (m : Moment) :
    (c.put p item inv m).useTtl = c.useTtl ∧ (c.put p item inv m).ttl = c.ttl := by
  unfold put
  split
  · exact evictFull_config c m
  · split
    · exact evictFull_config (c.erase p) m
    · exact ⟨rfl, rfl⟩

theorem invalidateParents_config (c : Cache L) (p : Path) :
    (c.invalidateParents p).useTtl = c.useTtl ∧ (c.invalidateParents p).ttl = c.ttl :=
  invalidateParents_keeps (P := fun d => d.useTtl = c.useTtl ∧ d.ttl = c.ttl)
    (fun _ _ h => h) ⟨rfl, rfl⟩ p

theorem putNew_config (c : Cache L) (p : Path) (item : CacheItem L) (m : Moment) :
    (c.putNew p item m).useTtl = c.useTtl ∧ (c.putNew p item m).ttl = c.ttl := by
  obtain ⟨hu, ht⟩ := evictFull_config (c.invalidateParents p) m
  obtain ⟨hu', ht'⟩ := invalidateParents_config c p
  exact ⟨hu.trans hu', ht.trans ht'⟩

theorem remove_config (c : Cache L) (p : Path) :
    (c.remove p).2.useTtl = c.useTtl ∧ (c.remove p).2.ttl = c.ttl :=
  invalidateParents_config (c.erase p) p

theorem putNew_lives (h : (c.putNew p item m).freshAt p t = some it)
    (hu : c.useTtl = true) : t ≤ m.now + c.ttl := by
  obtain ⟨hu', ht'⟩ := invalidateParents_config c p
  have hlives := insertNew_lives h (hu'.trans hu)
  rwa [ht'] at hlives

/-- What `put` leaves at its own path: the item itself, for its time to live, or the fresh old
item with it merged in, as long as that one was fresh. -/
theorem put_self_fresh (h : (c.put p item inv m).freshAt p t = some it) :
    (it = item ∧ c.freshAt p m.now = none ∧ (c.useTtl = true → t ≤ m.now + c.ttl)) ∨
      ∃ old, c.freshAt p m.now = some old ∧ c.freshAt p t = some old ∧
        it = if inv then (old.update m.pages item).invalidateAttributes
          else old.update m.pages item := by
  unfold put at h
  cases hl : AList.lookup p c.entries with
  | none =>
    rw [hl] at h
    exact Or.inl ⟨insertNew_self h, by rw [freshAt, hl], insertNew_lives h⟩
  | some e =>
    rw [hl] at h
    dsimp only at h
    split at h
    · rename_i hx
      refine Or.inl ⟨insertNew_self h, ?_, insertNew_lives (c := c.erase p) h⟩
      simp only [freshAt, hl]
      rw [if_pos hx]
    · rename_i hx
      refine Or.inr ⟨e.item, ?_, ?_, ?_⟩
      · simp only [freshAt, hl]
        rw [if_neg hx]
      · -- the time of creation is kept
        have hkept : ¬c.expired e t = true := by
          have hnew := freshAt_insert_unexpired h
          cases inv <;> exact hnew
        simp only [freshAt, hl]
        rw [if_neg hkept]
      · have := freshAt_insert_self h
        rw [this]
        split <;> rfl

theorem put_self (h : (c.put p item inv m).freshAt p t = some it) :
    it = item ∨ ∃ old, c.freshAt p m.now = some old ∧
      it = if inv then (old.update m.pages item).invalidateAttributes
        else old.update m.pages item := by
  rcases put_self_fresh h with ⟨hitem, -, -⟩ | ⟨old, hold, -, hit⟩
  · exact Or.inl hitem
  · exact Or.inr ⟨old, hold, hit⟩

end Cache

end ClientCache
