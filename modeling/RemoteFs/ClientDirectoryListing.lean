import RemoteFs.ClientKnowledgeAnswers

/-! # The names and kinds that a listing reports

A listing is put together from the names in the directory's cache item and one cache item a
child. Both are right as long as every item the cache holds has the kind and, of a
directory, the child names of the object at its path. -/
namespace ClientDirectoryListing

open ClientAttributes
open ClientCache
open ClientCalls
open ClientFileSystem
open ClientKnowledge
open ClientKnowledgeAnswers
open ClientMemory
open ClientPageCache
open OsPaths
open RemoteTree

variable {L : PageLimits}

inductive TreeOp where
  | createFile (path : Path) (offset : ℕ) (data : List UInt8)
  | mkdir (path : Path)
  | createSymlink (path : Path) (target : String)
  | rename (oldPath newPath : Path) (flags : RenameFlags)
  | remove (path : Path)
  | getAttributes (path : Path)
  | readdir (path : Path)
  deriving DecidableEq, Repr

def TreeOp.toOp : TreeOp → Op
  | createFile p off d => .createFile p off d
  | mkdir p => .mkdir p
  | createSymlink p target => .createSymlink p target
  | rename a b flags => .rename a b flags
  | remove p => .remove p
  | getAttributes p => .getAttributes p
  | readdir p => .readdir p

def runTreeOps (fs : FileSystem L) (ops : List (TreeOp × Env)) : FileSystem L :=
  runOps fs (ops.map fun op => (op.1.toOp, op.2))

/-! The server's side -/

def rootPath : Path := [.rootDir]

/-- The root is a directory, and every other object has a name in a directory. -/
structure Tree (r : Remote) : Prop where
  root : ∃ len, r.nodes rootPath = some (.directory len)
  parents : ∀ q, r.nodes q ≠ none → q ≠ rootPath →
    ∃ (p : Path) (name : OsString) (len : ℕ), q = p.child name ∧
      r.nodes p = some (.directory len)

def Children (r : Remote) (p : Path) (names : List OsString) : Prop :=
  names.Nodup ∧ ∀ name, name ∈ names ↔ r.nodes (p.child name) ≠ none

/-- A server that lists a directory comes across every child of it, and across none twice. -/
def ListsAll (r : Remote) (p : Path) (env : Env) : Prop :=
  ∀ i, (env i).reply = none → (∃ len, r.nodes p = some (.directory len)) →
    (env i).listing.Nodup ∧ ∀ name, r.nodes (p.child name) ≠ none →
      ∃ s ∈ (env i).listing, name = .text s

section Server

variable {r r' : Remote} {p q : Path} {names : List String} {items : List Item}

theorem listPath_names (h : r.listPath p names = some items) : items.map Item.name =
    (names.filter fun s => (r.nodes (p.child (.text s))).isSome).map OsString.text := by
  unfold Remote.listPath at h
  split at h
  · injection h with h
    subst h
    clear * -
    induction names with
    | nil => rfl
    | cons s names ih =>
      cases hs : r.nodes (p.child (.text s)) with
      | none => simpa [Remote.item, hs] using ih
      | some c => simpa [Remote.item, hs] using ih
  · cases h

theorem children_of_listPath {env : Env} {i : ℕ} (hl : ListsAll r p env)
    (hreply : (env i).reply = none) (h : r.listPath p (env i).listing = some items) :
    Children r p (items.map Item.name) := by
  have hdir : ∃ len, r.nodes p = some (.directory len) := by
    unfold Remote.listPath at h
    split at h
    · exact ⟨_, by assumption⟩
    · cases h
  obtain ⟨hnodup, hall⟩ := hl i hreply hdir
  rw [listPath_names h]
  constructor
  · exact (hnodup.filter _).map fun s s' hs => by injection hs
  · intro name
    simp only [List.mem_map, List.mem_filter]
    constructor
    · rintro ⟨s, ⟨-, hs⟩, rfl⟩
      exact Option.isSome_iff_ne_none.mp hs
    · intro hname
      obtain ⟨s, hs, rfl⟩ := hall name hname
      exact ⟨s, ⟨hs, Option.isSome_iff_ne_none.mpr hname⟩, rfl⟩

theorem Tree.named (h : Tree r) (hq : r.nodes q ≠ none) (hroot : q ≠ rootPath) :
    ∃ (p : Path) (name : OsString), q = p.child name := by
  obtain ⟨p, name, -, hp, -⟩ := h.parents q hq hroot
  exact ⟨p, name, hp⟩

theorem Tree.nothing_in (h : Tree r) (hp : r.nodes p = none) (name : OsString) :
    r.nodes (p.child name) = none := by
  by_contra hne
  have hroot : p.child name ≠ rootPath := by
    intro he
    have hlast := congrArg List.getLast? he
    simp [Path.child, rootPath] at hlast
  obtain ⟨p', name', len, he, hlen⟩ := h.parents _ hne hroot
  have hpp : p = p' := (List.append_inj' he rfl).1
  rw [← hpp, hp] at hlen
  cases hlen

theorem children_mkdir {now : Timestamp} (h : Tree r) (hm : r.mkdir p now = some r') :
    Children r' p [] := by
  refine ⟨List.nodup_nil, fun name => ?_⟩
  rw [(Remote.mkdir_agrees (p.ne_child name) hm).nodes, h.nothing_in (Remote.mkdir_created hm).1]
  simp

end Server

/-! What the cache holds -/

def held (fs : FileSystem L) (q : Path) : Option (CacheItem L) := entry fs q 0

def described (r : Remote) (q : Path) : Facts where
  fresh := True
  itemType k := ∃ c, r.nodes q = some c ∧ k = c.itemType
  name n := ∀ m, q.fileName = some m → n = m
  attributes _ := True
  children := Children r q
  target _ := True

def Describes (r : Remote) (q : Path) (it : CacheItem L) : Prop :=
  Tells (described r q) (fun _ => True) it

def Coherent (fs : FileSystem L) : Prop := ∀ q it, held fs q = some it → Describes fs.remote q it

/-- A path whose cached item a granted rename leaves where it is, although the object there
may be another one afterwards: everything below the two paths and, if no item is carried over
from the old path, the new one and its directory. -/
def LeftInPlace (fs : FileSystem L) (a b : Path) (flags : RenameFlags) (q : Path) : Prop :=
  (a <+: q ∧ q ≠ a) ∨ (b <+: q ∧ q ≠ b) ∨
    (flags.exchange = false ∧ (held fs a = none ∨ b.fileName = none) ∧
      (q = b ∨ (∃ name, q.child name = b) ∧ ∀ name, q.child name ≠ a))

def Fits (fs : FileSystem L) (a b : Path) (flags : RenameFlags) : Prop :=
  ∀ r, fs.remote.rename a b flags = some r → a ≠ b → ∀ q it, held fs q = some it →
    LeftInPlace fs a b flags q → Describes r q it

section Facts

variable {r r' : Remote} {q : Path}

theorem says_described : Says r q (described r q) where
  name m hm := by rw [hm, Option.getD_some]
  itemType c hc := ⟨c, hc, rfl⟩
  attributes _ _ := trivial
  target _ _ := trivial

theorem described_congr (h : r'.nodes q = r.nodes q)
    (hc : ∀ name, r'.nodes (q.child name) = r.nodes (q.child name)) :
    described r' q = described r q := by
  have hchildren : Children r' q = Children r q := by
    funext names
    rw [Children, Children]
    simp only [hc]
  rw [described, described, h, hchildren]

end Facts

section Calls

variable {fs done : FileSystem L} {p q : Path} {env : Env} {m : Moment} {r : Remote}

theorem Coherent.fetched (h : Coherent fs)
    (hf : ∀ p, Learned p 0 (described fs.remote p) (fun _ => True) fs done) : Coherent done := by
  intro p
  rw [(hf p).remote]
  exact (hf p).entries (h p)

theorem Coherent.getAttributes (h : Coherent fs) (q : Path) (env : Env) :
    Coherent (fs.getAttributes q env).2 :=
  h.fetched fun _ => learned_getAttributes aboutPages_true (fun _ _ => trivial)
    (fun _ => says_described) q

theorem Coherent.readdir (h : Coherent fs) (hl : ListsAll fs.remote q env) :
    Coherent (fs.readdir q env).2 := by
  refine h.fetched fun p => learned_readdir aboutPages_true (Or.inl fun _ => Nat.zero_le _)
    (fun _ _ => trivial) (fun _ => says_described) ?_
  rintro rfl - i items hreply hlist
  exact children_of_listPath hl hreply hlist

theorem Coherent.changed (h : Coherent fs) (q : Path)
    (hr : ∀ p, q ≠ p → fs.remote.AgreesAt done.remote p)
    (hkept : ∀ p it, held done p = some it → p ≠ q →
      held fs p = some it ∧ ∀ name, p.child name ≠ q)
    (hq : ∀ it, held done q = some it → Describes done.remote q it) : Coherent done := by
  intro p it he
  by_cases hpq : p = q
  · subst hpq
    exact hq it he
  · obtain ⟨hold, hchild⟩ := hkept p it he hpq
    rw [Describes, described_congr (hr p (Ne.symm hpq)).nodes
      fun name => (hr _ (Ne.symm (hchild name))).nodes]
    exact h p it hold

theorem Coherent.putNamed {item : OsString → CacheItem L} (h : Coherent fs)
    (hr : ∀ p, q ≠ p → fs.remote.AgreesAt r p) (htree : Tree r) (hnode : r.nodes q ≠ none)
    (hroot : q ≠ rootPath)
    (hitem : ∀ name, q.fileName = some name → Describes r q (item name)) :
    Coherent ({ fs with remote := r }.putNamed q item m) := by
  obtain ⟨d, name, hq⟩ := htree.named hnode hroot
  have hname : q.fileName = some name := hq ▸ fileName_child d name
  have hrun : { fs with remote := r }.putNamed q item m =
      { fs with remote := r }.onCache fun c => c.putNew q (item name) m := by
    rw [FileSystem.putNamed, hname]
  rw [hrun]
  refine h.changed q hr ?_ ?_
  · intro p it he hpq
    obtain ⟨c, hc, hfresh⟩ := entry_onCache he
    exact ⟨Option.bind_eq_some_iff.mpr ⟨c, hc, Cache.putNew_ne hpq hfresh⟩,
      Cache.putNew_gone hpq hfresh⟩
  · intro it he
    obtain ⟨c, -, hfresh⟩ := entry_onCache he
    rw [Cache.putNew_self hfresh]
    exact hitem name hname

/-- An item without pages that a call makes of what it has just created. -/
theorem describes_created {it : CacheItem L} {c : Content} {name : OsString}
    (hnode : r.nodes q = some c) (hname : q.fileName = some name)
    (htype : itemType it = c.itemType) (hit : itemName it = name)
    (hnames : ∀ names, namesOf it = some names → Children r q names) : Describes r q it where
  file _ _ := trivial
  attributes _ _ := trivial
  fresh := trivial
  itemType := ⟨c, hnode, htype⟩
  name m hm := by
    rw [hname] at hm
    injection hm with hm
    exact hit.trans hm
  children := hnames
  target _ _ := trivial

theorem Coherent.createFile {off : ℕ} {d : List UInt8} (h : Coherent fs)
    (htree : Tree fs.remote) (htree' : Tree (fs.createFile q off d env).2.remote) :
    Coherent (fs.createFile q off d env).2 := by
  unfold FileSystem.createFile at htree' ⊢
  split
  · exact h
  · rename_i a r hsent
    rw [hsent] at htree'
    dsimp only at htree'
    rw [(putNamed_frame _ _ _ _).1] at htree'
    obtain ⟨hw, -⟩ := FileSystem.withAttributes_some (FileSystem.sent_ok.mp hsent).2.2
    obtain ⟨bytes, hnode⟩ := Remote.writeFile_created hw
    have hroot : q ≠ rootPath := by
      rintro rfl
      obtain ⟨len, hlen⟩ := htree.root
      rw [Remote.writeFile, hlen] at hw
      cases hw
    refine h.putNamed (fun p hp => Remote.writeFile_agrees hp hw) htree' ?_ hroot ?_
    · rw [hnode]
      exact Option.some_ne_none _
    · exact fun name hname => describes_created hnode hname rfl rfl nofun

theorem Coherent.mkdir (h : Coherent fs) (htree : Tree fs.remote)
    (htree' : Tree (fs.mkdir q env).2.remote) : Coherent (fs.mkdir q env).2 := by
  unfold FileSystem.mkdir at htree' ⊢
  split
  · exact h
  · rename_i a r hsent
    rw [hsent] at htree'
    dsimp only at htree'
    rw [(putNamed_frame _ _ _ _).1] at htree'
    obtain ⟨hm, -⟩ := FileSystem.withAttributes_some (FileSystem.sent_ok.mp hsent).2.2
    obtain ⟨hnone, hnode⟩ := Remote.mkdir_created hm
    refine h.putNamed (fun p hp => Remote.mkdir_agrees hp hm) htree' ?_ ?_ ?_
    · rw [hnode]
      exact Option.some_ne_none _
    · rintro rfl
      obtain ⟨len, hlen⟩ := htree.root
      cases hnone.symm.trans hlen
    · refine fun name hname => describes_created hnode hname rfl rfl fun names hnames => ?_
      injection hnames with hnames
      exact hnames ▸ children_mkdir htree hm

theorem Coherent.createSymlink {target : String} (h : Coherent fs) (htree : Tree fs.remote)
    (htree' : Tree (fs.createSymlink q target env).2.remote) :
    Coherent (fs.createSymlink q target env).2 := by
  unfold FileSystem.createSymlink at htree' ⊢
  split
  · exact h
  · rename_i a r hsent
    rw [hsent] at htree'
    dsimp only at htree'
    rw [(putNamed_frame _ _ _ _).1] at htree'
    obtain ⟨hl, -⟩ := FileSystem.withAttributes_some (FileSystem.sent_ok.mp hsent).2.2
    obtain ⟨hnone, hnode⟩ := Remote.createSymlink_created hl
    refine h.putNamed (fun p hp => Remote.createSymlink_agrees hp hl) htree' ?_ ?_ ?_
    · rw [hnode]
      exact Option.some_ne_none _
    · rintro rfl
      obtain ⟨len, hlen⟩ := htree.root
      cases hnone.symm.trans hlen
    · exact fun name hname => describes_created hnode hname rfl rfl nofun

theorem Coherent.remove (h : Coherent fs) : Coherent (fs.remove q env).2 := by
  cases hres : (fs.remove q env).1 with
  | error e =>
    rw [FileSystem.remove_error hres]
    exact h
  | ok u =>
    obtain ⟨r, hrem, hrun⟩ := FileSystem.remove_ok hres
    rw [hrun]
    have hgone : ∀ p it, held ({ fs with remote := r }.onCache fun c => (c.remove q).2) p =
        some it → held fs p = some it ∧ p ≠ q ∧ ∀ name, p.child name ≠ q := by
      intro p it he
      obtain ⟨c, hc, hfresh⟩ := entry_onCache he
      exact ⟨Option.bind_eq_some_iff.mpr ⟨c, hc, Cache.remove_sub c q p 0 it hfresh⟩,
        Cache.remove_gone hfresh⟩
    refine h.changed q (fun p hp => Remote.remove_agrees hp hrem) ?_ ?_
    · intro p it he _
      obtain ⟨hold, -, hchild⟩ := hgone p it he
      exact ⟨hold, hchild⟩
    · exact fun it he => ((hgone q it he).2.1 rfl).elim

theorem children_moved {r r' : Remote} {a b : Path} (h : r.MovedTo a r' b) :
    Children r' b = Children r a := by
  funext names
  rw [Children, Children]
  simp only [h.nodes_child]

/-- The item that is carried over describes what the rename has moved. -/
theorem describes_carried {a b : Path} {old : CacheItem L} {name : OsString}
    (h : Describes fs.remote a old) (hr : fs.remote.MovedTo a r b)
    (hname : b.fileName = some name) : Describes r b (old.rename name) := by
  refine renamed_tells h trivial ?_ (fun _ _ _ _ => trivial) ?_ (fun _ _ => trivial)
    (fun names hnames => ?_) fun _ _ => trivial
  · intro m hm
    rw [hname] at hm
    exact Option.some.inj hm
  · rintro k ⟨c, hc, htype⟩
    exact ⟨c, hr.nodes_self.trans hc, htype⟩
  · change Children r b names
    rw [children_moved hr]
    exact hnames

/-- A path that a rename leaves alone, with its children. -/
theorem described_renamed {a b : Path} {flags : RenameFlags}
    (hr : fs.remote.rename a b flags = some r) (ha : ¬a <+: p) (hb : ¬b <+: p)
    (hchild : ∀ name, p.child name ≠ a ∧ p.child name ≠ b) :
    described r p = described fs.remote p := by
  refine described_congr (Remote.rename_agrees ha hb hr).nodes fun name => ?_
  have hnot : ∀ {d : Path}, ¬d <+: p → p.child name ≠ d → ¬d <+: p.child name := by
    intro d hd hne hprefix
    rcases List.prefix_concat_iff.mp hprefix with he | hp
    · exact hne he.symm
    · exact hd hp
  exact (Remote.rename_agrees (hnot ha (hchild name).1) (hnot hb (hchild name).2) hr).nodes

theorem Coherent.rename {a b : Path} {flags : RenameFlags} (h : Coherent fs)
    (hfit : Fits fs a b flags) : Coherent (fs.rename a b flags env).2 := by
  cases hres : (fs.rename a b flags env).1 with
  | error e =>
    rw [FileSystem.rename_error hres]
    exact h
  | ok u =>
    obtain ⟨r, hren, hrun⟩ := FileSystem.rename_ok hres
    rw [hrun]
    intro p it he
    obtain ⟨c, hc, hfresh⟩ := entry_onCache he
    have hheld : ∀ q, held fs q = c.freshAt q 0 := fun q => by
      rw [held, entry, show fs.cache = some c from hc]
      rfl
    rcases renameCached_left hfresh with ⟨hflag, rfl, ⟨name, old, hname, hold, rfl⟩, -⟩ |
      ⟨hold, ⟨hpa, hchilda⟩, hgone⟩
    · exact describes_carried (h a old ((hheld a).trans hold)) (Remote.rename_movedTo hren hflag)
        hname
    · have hit : held fs p = some it := (hheld p).trans hold
      change Describes r p it
      by_cases hab : a = b
      · subst hab
        rcases (Remote.rename_cases hren).2 with ⟨-, -, hne, -⟩ | ⟨-, -, -, rfl⟩
        · exact (hne (List.prefix_refl a)).elim
        · rw [Describes, Nodes.rename, relocate_self, relocate_self]
          exact h p it hit
      · by_cases hleft : LeftInPlace fs a b flags p
        · exact hfit r hren hab p it hit hleft
        · simp only [LeftInPlace, not_or] at hleft
          obtain ⟨hbelowa, hbelowb, hrest⟩ := hleft
          have hb : p ≠ b ∧ ∀ name, p.child name ≠ b := by
            by_cases hx : flags.exchange = true ∨ c.freshAt a 0 ≠ none ∧ b.fileName ≠ none
            · exact hgone hx
            · simp only [not_or, not_and_or, not_not, Bool.not_eq_true] at hx
              rw [hheld a] at hrest
              refine ⟨fun hpb => hrest ⟨hx.1, hx.2, Or.inl hpb⟩, fun name hpb => ?_⟩
              exact hrest ⟨hx.1, hx.2, Or.inr ⟨⟨name, hpb⟩, hchilda⟩⟩
          rw [Describes, described_renamed hren (fun hp => hbelowa ⟨hp, hpa⟩)
            (fun hp => hbelowb ⟨hp, hb.1⟩) fun name => ⟨hchilda name, hb.2 name⟩]
          exact h p it hit

theorem run_coherent {op : TreeOp} (h : Coherent fs) (htree : Tree fs.remote)
    (htree' : Tree (op.toOp.run fs env).2.remote)
    (hl : ∀ q, op = .readdir q → ListsAll fs.remote q env)
    (hfit : ∀ a b flags, op = .rename a b flags → Fits fs a b flags) :
    Coherent (op.toOp.run fs env).2 := by
  cases op with
  | createFile q off d => exact h.createFile htree htree'
  | mkdir q => exact h.mkdir htree htree'
  | createSymlink q target => exact h.createSymlink htree htree'
  | rename a b flags => exact h.rename (hfit a b flags rfl)
  | remove q => exact h.remove
  | getAttributes q => exact h.getAttributes q env
  | readdir q => exact h.readdir (hl q rfl)

end Calls

/-! Listings -/

structure Exact (r : Remote) (p : Path) (items : List Item) : Prop where
  names : Children r p (items.map Item.name)
  kinds : ∀ item ∈ items, ∃ c, r.nodes (p.child item.name) = some c ∧ item.itemType = c.itemType

def serverOrder (r : Remote) (p : Path) (names : List String) : List OsString :=
  (names.filter fun s => (r.nodes (p.child (.text s))).isSome).map OsString.text

/-- The order in which a listing gives the children: that of the cached names, if every child
is cached, else the one in which the server comes across them. -/
def listingOrder (fs : FileSystem L) (p : Path) (env : Env) : List OsString :=
  let got := fs.cacheGet p (env 0).toMoment
  match got.1 with
  | some (.directory ⟨_, _, some children⟩) =>
    match (got.2.cachedChildren p children (env.drop 1)).1 with
    | some _ => children
    | none => serverOrder fs.remote p (env (1 + children.length)).listing
  | _ => serverOrder fs.remote p (env 1).listing

def Ordered (order : List OsString) (items : List Item) : Prop :=
  ∃ self parent children, items =
    ⟨.text ".", .directory, self⟩ :: ⟨.text "..", .directory, parent⟩ :: children ∧
      children.map Item.name = order

def Listed (r : Remote) (p : Path) (order : List OsString) (items : List Item) : Prop :=
  ∃ self parent children, items =
    ⟨.text ".", .directory, self⟩ :: ⟨.text "..", .directory, parent⟩ :: children ∧
      children.map Item.name = order ∧ Exact r p children

section Listings

variable {fs : FileSystem L} {p : Path} {env : Env} {items all : List Item} {k : ℕ}
  {G : Path → Facts} {R : CachedFile L → Prop}

theorem withDots_result (h : (fs.withDots p items env).1 = .ok all) :
    ∃ self parent, all =
      ⟨.text ".", .directory, self⟩ :: ⟨.text "..", .directory, parent⟩ :: items := by
  unfold FileSystem.withDots at h
  dsimp only at h
  split at h
  · cases h
  · split at h
    · cases h
    · injection h with h
      exact ⟨_, _, h.symm⟩

theorem readdirRemote_order (h : (fs.readdirRemote p (env.drop k)).1 = .ok all) :
    Ordered (serverOrder fs.remote p (env k).listing) all := by
  unfold FileSystem.readdirRemote at h
  split at h
  · cases h
  · rename_i items hsent
    obtain ⟨-, -, hlist⟩ := FileSystem.sent_ok.mp hsent
    dsimp only at h
    split at h
    · cases h
    · obtain ⟨self, parent, hall⟩ := withDots_result h
      exact ⟨self, parent, items, hall, listPath_names hlist⟩

/-- The order of a listing whose cached items have the names of their paths. -/
theorem readdir_order (hname : ∀ name n, (G (p.child name)).name n → n = name)
    (hitems : ∀ q, Entries fs q 0 (Tells (G q) R)) (h : (fs.readdir p env).1 = .ok all) :
    Ordered (listingOrder fs p env) all := by
  obtain ⟨hremote, -⟩ := cacheGet_frame fs p (env 0).toMoment
  have hmiss : ((fs.cacheGet p (env 0).toMoment).2.readdirRemote p (env.drop 1)).1 = .ok all →
      Ordered (serverOrder fs.remote p (env 1).listing) all := by
    intro hres
    have hserver := readdirRemote_order hres
    rwa [hremote] at hserver
  unfold FileSystem.readdir at h
  unfold listingOrder
  dsimp only at h ⊢
  generalize (fs.cacheGet p (env 0).toMoment).1 = got at h ⊢
  rcases got with _ | (file | link | ⟨name, attributes, _ | children⟩)
  case some.directory.some =>
    dsimp only at h ⊢
    generalize hhit : ((fs.cacheGet p (env 0).toMoment).2.cachedChildren p children
      (env.drop 1)).1 = hit at h ⊢
    cases hit with
    | some items =>
      obtain ⟨hnames, -⟩ := cachedChildren_told hname children _ _ items
        (fun q => (hitems q).cacheGet _ _) (fun _ => Nat.zero_le _) hhit
      obtain ⟨self, parent, hall⟩ := withDots_result h
      exact ⟨self, parent, items, hall, hnames⟩
    | none =>
      have hframe : ((fs.cacheGet p (env 0).toMoment).2.cachedChildren p children
          (env.drop 1)).2.remote = fs.remote :=
        (learned_cachedChildren (t := 0) (F := G p) (R := R) (p := p) p children _ _).remote.trans
          hremote
      have hserver := readdirRemote_order h
      rwa [hframe] at hserver
  all_goals exact hmiss h

theorem readdir_children (hR : AboutPages R) (hfresh : ∀ q, (G q).fresh)
    (hs : ∀ q, Says fs.remote q (G q)) (hl : ListsTell fs.remote p (G p) env)
    (hname : ∀ name n, (G (p.child name)).name n → n = name)
    (hitems : ∀ q, Entries fs q 0 (Tells (G q) R)) (h : (fs.readdir p env).1 = .ok all) :
    ∃ self parent children, all =
      ⟨.text ".", .directory, self⟩ :: ⟨.text "..", .directory, parent⟩ :: children ∧
        children.map Item.name = listingOrder fs p env ∧
        (G p).children (children.map Item.name) ∧
        ∀ item ∈ children, Told (G (p.child item.name)) item := by
  obtain ⟨self, parent, children, hall, horder⟩ := readdir_order hname hitems h
  obtain ⟨_, _, _, hall', -, -, hnames, htold⟩ :=
    readdir_told hR hitems (fun _ => Nat.zero_le _) hfresh hs hl hname h
  have hsame := hall.symm.trans hall'
  simp only [List.cons.injEq] at hsame
  obtain ⟨-, -, rfl⟩ := hsame
  exact ⟨self, parent, children, hall, horder, hnames, htold⟩

theorem readdir_result (h : Coherent fs) (hl : ListsAll fs.remote p env)
    (hres : (fs.readdir p env).1 = .ok all) :
    Listed fs.remote p (listingOrder fs p env) all := by
  obtain ⟨self, parent, children, hall, horder, hnames, htold⟩ := readdir_children aboutPages_true
    (fun _ => trivial) (fun _ => says_described)
    (fun _ _ hreply hlist => children_of_listPath hl hreply hlist)
    (fun name n hn => hn name (fileName_child p name)) (fun q => h q) hres
  exact ⟨self, parent, children, hall, horder, hnames, fun item hi => (htold item hi).itemType⟩

end Listings

section Runs

variable {fs : FileSystem L}

def AllServed : FileSystem L → List (TreeOp × Env) → Prop
  | _, [] => True
  | fs, (op, env) :: ops => (Tree (op.toOp.run fs env).2.remote ∧
      ∀ q, op = .readdir q → ListsAll fs.remote q env) ∧ AllServed (op.toOp.run fs env).2 ops

def AllFit : FileSystem L → List (TreeOp × Env) → Prop
  | _, [] => True
  | fs, (op, env) :: ops => (∀ a b flags, op = .rename a b flags → Fits fs a b flags) ∧
      AllFit (op.toOp.run fs env).2 ops

theorem runTreeOps_coherent (ops : List (TreeOp × Env)) : ∀ fs : FileSystem L, Coherent fs →
    Tree fs.remote → AllServed fs ops → AllFit fs ops → Coherent (runTreeOps fs ops) := by
  induction ops with
  | nil => exact fun _ h _ _ _ => h
  | cons head ops ih =>
    obtain ⟨op, env⟩ := head
    rintro fs h htree ⟨⟨htree', hl⟩, hserved⟩ ⟨hfit, hrest⟩
    exact ih _ (run_coherent h htree htree' hl hfit) htree' hserved hrest

theorem coherent_new (remote : Remote) (capacity now : ℕ) (cache : Option (Cache L))
    (hempty : ∀ c, cache = some c → c.entries = ∅) :
    Coherent (.new remote capacity now cache) := by
  intro q it hit
  cases (entry_new hempty).symm.trans hit

end Runs

def oneDirectory (name : OsString) : Nodes :=
  Function.update (Function.update (fun _ => none) rootPath (some (.directory 4096)))
    (rootPath.child name) (some (.directory 4096))

theorem oneDirectory_self (name : OsString) :
    oneDirectory name (rootPath.child name) = some (.directory 4096) := Function.update_self _ _ _

theorem oneDirectory_of_ne {name : OsString} {q : Path} (h : q ≠ rootPath.child name) :
    oneDirectory name q = if q = rootPath then some (.directory 4096) else none := by
  rw [oneDirectory, Function.update_of_ne h, Function.update_apply]

theorem tree_oneDirectory {r : Remote} {name : OsString} (h : r.nodes = oneDirectory name) :
    Tree r := by
  refine ⟨⟨4096, by rw [h]; rfl⟩, fun q hq hroot => ?_⟩
  rw [h] at hq
  refine ⟨rootPath, name, 4096, ?_, by rw [h]; rfl⟩
  by_contra hne
  rw [oneDirectory_of_ne hne, if_neg hroot] at hq
  exact hq rfl

theorem rename_oneDirectory {name name' : OsString} (hne : name ≠ name') :
    (oneDirectory name).rename (rootPath.child name) (rootPath.child name') =
      oneDirectory name' := by
  have hab : rootPath.child name ≠ rootPath.child name' := by
    simpa [Path.child, rootPath] using hne
  have hlong : ∀ (d : OsString) (c : Component) (rest : Path),
      rootPath.child d ++ c :: rest ≠ rootPath := by
    intro d c rest he
    simp [Path.child, rootPath] at he
  funext q
  rw [Nodes.rename]
  by_cases hb : rootPath.child name' <+: q
  · obtain ⟨rest, rfl⟩ := hb
    rw [relocate_target hab (List.prefix_append _ rest), List.drop_left]
    cases rest with
    | nil => rw [List.append_nil, List.append_nil, oneDirectory_self, oneDirectory_self]
    | cons c rest =>
      rw [oneDirectory_of_ne (by simp), oneDirectory_of_ne (by simp), if_neg (hlong _ _ _),
        if_neg (hlong _ _ _)]
  · have hqb : q ≠ rootPath.child name' := fun he => hb (he ▸ List.prefix_refl _)
    rw [oneDirectory_of_ne hqb]
    by_cases ha : rootPath.child name <+: q
    · obtain ⟨rest, rfl⟩ := ha
      rw [relocate_source hab hb (List.prefix_append _ rest), if_neg]
      intro he
      have hlen := congrArg List.length he
      simp [Path.child, rootPath] at hlen
    · rw [relocate_other hb ha, oneDirectory_of_ne fun he => ha (he ▸ List.prefix_refl _)]

theorem mem_of_held {fs : FileSystem L} {q : Path} {it : CacheItem L} {keys : List Path}
    (hkeys : fs.cache.map (fun c => c.entries.keys) = some keys) (h : held fs q = some it) :
    q ∈ keys := by
  obtain ⟨c, hc, hfresh⟩ := Option.bind_eq_some_iff.mp h
  obtain ⟨c', hc', rfl⟩ := Option.map_eq_some_iff.mp hkeys
  rw [hc] at hc'
  injection hc' with hc'
  subst hc'
  rw [Cache.freshAt_zero] at hfresh
  obtain ⟨e, he, -⟩ := Option.map_eq_some_iff.mp hfresh
  rw [← AList.mem_keys, ← AList.lookup_isSome, he]
  rfl

end ClientDirectoryListing
