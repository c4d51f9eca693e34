import RemoteFs.ClientConfiguration

/-! # The names in a listing

Others may change the server as they like, and a cached listing may be old. A cached item still
has the name of its path, and the names of a directory are texts that the server once listed. -/
namespace ClientListedNames

open ClientAttributes
open ClientCache
open ClientCalls
open ClientConfiguration
open ClientDirectoryListing
open ClientFileSystem
open ClientKnowledge
open ClientKnowledgeAnswers
open ClientKnowledgeReads
open ClientMemory
open ClientPageCache
open ClientStaleness
open ClientWriteBuffer
open OsPaths
open RemoteTree
open WriteLog

variable {L : PageLimits}

/-- Names as a server lists them: texts, each once, and neither of the two dots. -/
structure Listable (names : List OsString) : Prop where
  nodup : names.Nodup
  text : ∀ name ∈ names, ∃ s, name = .text s ∧ s ≠ "." ∧ s ≠ ".."

def ListsOnce (env : Env) : Prop :=
  ∀ i, (env i).listing.Nodup ∧ "." ∉ (env i).listing ∧ ".." ∉ (env i).listing

def named (q : Path) : Facts where
  fresh := True
  itemType _ := True
  name n := ∀ m, q.fileName = some m → n = m
  attributes _ := True
  children := Listable
  target _ := True

def NamedItem (q : Path) (it : CacheItem L) : Prop :=
  Tells (named q) (BytesAre fun _ _ => True) it

def Named (fs : FileSystem L) : Prop := ∀ q, Entries fs q 0 (NamedItem q)

section Items

variable {r : Remote} {p q : Path} {it : CacheItem L} {env : Env}

theorem says_named (r : Remote) (q : Path) : Says r q (named q) where
  name m hm := by rw [hm, Option.getD_some]
  itemType _ _ := trivial
  attributes _ _ := trivial
  target _ _ := trivial

theorem namedItem_of (hname : ∀ m, q.fileName = some m → itemName it = m)
    (hnames : ∀ names, namesOf it = some names → Listable names) : NamedItem q it where
  file _ _ _ _ _ := trivial
  attributes _ _ := trivial
  fresh := trivial
  itemType := trivial
  name := hname
  children := hnames
  target _ _ := trivial

theorem listable_nil : Listable [] := ⟨List.nodup_nil, nofun⟩

theorem listsTell_named (r : Remote) (p : Path) (h : ListsOnce env) :
    ListsTell r p (named p) env := by
  intro i items _ hlist
  obtain ⟨hnodup, hdot, hdots⟩ := h i
  rw [listPath_names hlist]
  constructor
  · exact (hnodup.filter _).map fun s s' hs => by injection hs
  · intro name hname
    obtain ⟨s, hs, rfl⟩ := List.mem_map.mp hname
    have hlisted := (List.mem_filter.mp hs).1
    exact ⟨s, rfl, fun he => hdot (he ▸ hlisted), fun he => hdots (he ▸ hlisted)⟩

end Items

section Calls

variable {fs done : FileSystem L} {p q : Path} {env : Env} {r : Remote} {m : Moment}

theorem Named.fetched (h : Named fs)
    (hf : ∀ q, Learned q 0 (named q) (BytesAre fun _ _ => True) fs done) : Named done :=
  fun q => (hf q).entries (h q)

theorem Named.changed (h : Named fs) (q : Path)
    (hne : ∀ p Q, q ≠ p → Entries fs p 0 Q → Entries done p 0 Q)
    (hq : Entries done q 0 (NamedItem q)) : Named done := by
  intro p
  by_cases hpq : q = p
  · exact hpq ▸ hq
  · exact hne p _ hpq (h p)

theorem Named.withRemote (h : Named fs) (r : Remote) : Named { fs with remote := r } := h

theorem Named.getAttributes (h : Named fs) (q : Path) (env : Env) :
    Named (fs.getAttributes q env).2 :=
  h.fetched fun p => learned_getAttributes bytesAre_aboutPages (fun _ _ => trivial)
    (fun _ => says_named fs.remote p) q

theorem Named.readSymlink (h : Named fs) (q : Path) (env : Env) :
    Named (fs.readSymlink q env).2 :=
  h.fetched fun p => learned_readSymlink bytesAre_aboutPages (fun _ _ => trivial)
    (fun _ => says_named fs.remote p) q

theorem Named.readdir (h : Named fs) (hl : ListsOnce env) : Named (fs.readdir q env).2 :=
  h.fetched fun p => learned_readdir bytesAre_aboutPages (Or.inl fun _ => Nat.zero_le _)
    (fun _ _ => trivial) (fun _ => says_named fs.remote p)
    fun _ _ => listsTell_named fs.remote p hl

theorem Named.putNamed {item : OsString → CacheItem L} (h : Named fs)
    (hname : ∀ name, itemName (item name) = name)
    (hnames : ∀ name names, namesOf (item name) = some names → Listable names) :
    Named (fs.putNamed q item m) := by
  refine h.changed q (fun p Q hp he => he.putNamed_ne hp) ?_
  cases hq : q.fileName with
  | none =>
    rw [FileSystem.putNamed, hq]
    exact h q
  | some name =>
    refine putNamed_entry_self hq fun _ => namedItem_of (fun m hm => ?_) (hnames name)
    exact (hname name).trans (Option.some.inj (hq.symm.trans hm))

theorem Named.createFile {off : ℕ} {d : List UInt8} (h : Named fs) :
    Named (fs.createFile q off d env).2 := by
  unfold FileSystem.createFile
  split
  · exact h
  · exact (h.withRemote _).putNamed (fun _ => rfl) fun _ _ => nofun

theorem Named.mkdir (h : Named fs) : Named (fs.mkdir q env).2 := by
  unfold FileSystem.mkdir
  split
  · exact h
  · refine (h.withRemote _).putNamed (fun _ => rfl) fun _ names hnames => ?_
    injection hnames with hnames
    exact hnames ▸ listable_nil

theorem Named.createSymlink {target : String} (h : Named fs) :
    Named (fs.createSymlink q target env).2 := by
  unfold FileSystem.createSymlink
  split
  · exact h
  · exact (h.withRemote _).putNamed (fun _ => rfl) fun _ _ => nofun

theorem Named.setAttributes {new : SetAttr} (h : Named fs) :
    Named (fs.setAttributes q new env).2 := by
  unfold FileSystem.setAttributes
  split
  · exact h
  · rename_i a r hsent
    obtain ⟨-, ha⟩ := FileSystem.withAttributes_some (FileSystem.sent_ok.mp hsent).2.2
    exact (h.withRemote r).fetched fun p => learned_cachePutAttr bytesAre_aboutPages
      (fun _ => trivial) (fun _ => says_named r p) ha

theorem Named.upload {w : Chunk} (h : Named fs) : Named (fs.upload w env).2 := by
  unfold FileSystem.upload
  split
  · exact h
  · rename_i r hsent
    refine (h.withRemote r).changed w.key (fun p Q hp he => he.cacheWriteFile_ne hp) ?_
    by_cases hname : w.key.fileName = none
    · exact cacheWriteFile_nameless ((h.withRemote r) w.key) hname
    · exact tells_cacheWriteFile hname (fun _ => trivial) id ((h.withRemote r) w.key)
        (fun _ => trivial) (fun _ => (says_named r w.key).name) (fun _ _ _ _ _ => trivial)
        (fun _ _ _ _ _ => Or.inl trivial) (fun _ _ _ _ => trivial) (fun _ _ hn => hn)
        fun _ _ _ ha => ha

theorem Named.uploadAll (ws : List Chunk) (fs : FileSystem L) (env : Env) (h : Named fs) :
    Named (fs.uploadAll ws env).2 :=
  uploadAll_keeps (fun _ _ _ h => h.upload) ws fs env h

theorem Named.remove (h : Named fs) : Named (fs.remove q env).2 := by
  unfold FileSystem.remove
  split
  · exact h
  · rename_i r _
    exact fun p => ((h.withRemote r) p).onCache_sub fun c => Cache.remove_sub c q

theorem Named.invalidate (h : Named fs) : Named (fs.cacheInvalidate q) :=
  fun p => (h p).onCache_sub fun c => Cache.erase_sub c q

theorem Named.rename {a b : Path} {flags : RenameFlags} (h : Named fs) :
    Named (fs.rename a b flags env).2 := by
  unfold FileSystem.rename
  split
  · exact h
  · rename_i r _
    intro q it he
    obtain ⟨c, hc, hfresh⟩ := entry_onCache he
    rcases renameCached_left hfresh with ⟨-, rfl, ⟨name, old, hname, hold, rfl⟩, -⟩ | ⟨hit, -, -⟩
    · have hcarried := h a old (Option.bind_eq_some_iff.mpr ⟨c, hc, hold⟩)
      refine renamed_tells hcarried trivial (fun m hm => ?_) (fun _ _ _ _ _ _ _ => trivial)
        (fun _ => id) (fun _ => id) (fun _ => id) fun _ => id
      exact Option.some.inj (hname.symm.trans hm)
    · exact h q it (Option.bind_eq_some_iff.mpr ⟨c, hc, hit⟩)

theorem Named.read {o n : ℕ} (h : Named fs) : Named (fs.readFile q o n env).2 := by
  intro p
  by_cases hq : q = p
  · subst hq
    refine (hasRead_readFile (fun _ _ => trivial) (fun _ => says_named fs.remote q)
      (fun _ _ _ _ _ _ _ _ => trivial) (fun _ _ _ _ => ⟨trivial, trivial⟩) fun it he => ?_).entries
    exact (h q it he).mono ⟨id, fun _ => id, fun _ => id, fun _ => id, fun _ => id, fun _ => id⟩
      fun _ hf => ⟨hf, fun _ _ _ _ _ => trivial⟩
  · exact (hasRead_readFile_ne bytesAre_aboutPages (fun _ _ => trivial)
      (fun _ => says_named fs.remote p) hq (h p)).entries

theorem Named.run (h : Named fs) (hl : ListsOnce env) (op : Op) : Named (op.run fs env).2 := by
  cases op with
  | read q o n => exact h.read
  | write q off d => exact Named.uploadAll _ _ env h
  | flush => exact Named.uploadAll _ _ env h
  | getAttributes q => exact h.getAttributes q env
  | setAttributes q new => exact h.setAttributes
  | createFile q off d => exact h.createFile
  | mkdir q => exact h.mkdir
  | createSymlink q target => exact h.createSymlink
  | readSymlink q => exact h.readSymlink q env
  | readdir q => exact h.readdir hl
  | rename a b flags => exact h.rename
  | remove q => exact h.remove
  | invalidate q => exact h.invalidate

def EventLists : Event → Prop
  | .call _ env => ListsOnce env
  | .others _ => True

theorem Named.next (h : Named fs) (event : Event) (hl : EventLists event) :
    Named (ClientConfiguration.next fs event) := by
  cases event with
  | call op env => exact h.run hl op
  | others r => exact h.withRemote r

theorem named_new (remote : Remote) (capacity now : ℕ) (cache : Option (Cache L))
    (hempty : ∀ c, cache = some c → c.entries = ∅) :
    Named (.new remote capacity now cache) := by
  intro q it hit
  cases (entry_new hempty).symm.trans hit

/-- The names of an answered listing are the two dots and names that a server has listed. -/
theorem Named.listing {all : List Item} (h : Named fs) (hl : ListsOnce env)
    (hres : (fs.readdir p env).1 = .ok all) :
    all.map Item.name = .text "." :: .text ".." :: listingOrder fs p env ∧
      Listable (listingOrder fs p env) := by
  obtain ⟨self, parent, children, hall, horder, hnames, -⟩ := readdir_children bytesAre_aboutPages
    (fun _ => trivial) (says_named fs.remote) (listsTell_named fs.remote p hl)
    (fun name n hn => hn name (fileName_child p name)) h hres
  exact ⟨by rw [hall, ← horder]; rfl, horder ▸ hnames⟩

end Calls

end ClientListedNames
