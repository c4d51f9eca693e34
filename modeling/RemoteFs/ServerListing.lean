import RemoteFs.ClientPageCache
import RemoteFs.ServerStorage

/-! # Listing a directory that others change

A listing looks at every entry twice, at its type and then at its attributes, and takes each name
for text. What a call finds at a path is told for every call in turn; others delete in between. -/
namespace ServerListing

open ClientAttributes
open ClientPageCache (HashOrder)
open OsPaths
open PosixTree
open ServerPaths
open ServerStorage
open Timestamps

/-- A special file is a device, a pipe or a socket. -/
inductive FileKind where
  | file
  | directory
  | symlink
  | special
  deriving DecidableEq, Repr

structure Metadata where
  kind : FileKind
  len : ℕ
  mode : ℕ
  uid : ℕ
  gid : ℕ
  accessed : Timestamp
  modified : Timestamp
  ctime : Timestamp
  deriving DecidableEq, Repr

/-- What the calls of one request find, while others delete. An entry of `readDir` that cannot
be read has no name. -/
structure Meanwhile (real : Path) where
  symlinkMetadata : ℕ → Path → Option Metadata
  readDir : Option (List (Option OsString))
  deletes : ∀ k p m, symlinkMetadata (k + 1) p = some m →
    ∃ m', symlinkMetadata k p = some m' ∧ m'.kind = m.kind
  below : ∀ k name, symlinkMetadata k (real.child name) ≠ none → symlinkMetadata k real ≠ none
  opened : symlinkMetadata 4 real ≠ none → readDir ≠ none
  listed : ∀ entries name, readDir = some entries →
    (∀ k, symlinkMetadata k (real.child name) ≠ none) → some name ∈ entries

inductive Panic where
  | noAttributes
  | notUnicode
  deriving DecidableEq, Repr

inductive ListError where
  | storage (e : StorageError)
  | permissionDenied (message : String)
  | notFound (message : String)
  | notADirectory (message : String)
  deriving DecidableEq, Repr

structure Node where
  name : OsString
  attributes : Attributes
  deriving DecidableEq, Repr

inductive FSItem where
  | file (node : Node)
  | symLink (node : Node)
  | directory (node : Node) (children : List (Path × FSItem))

abbrev Children := List (Path × FSItem)

inductive ItemType where
  | file
  | symLink
  | directory
  deriving DecidableEq, Repr

structure SerializableFSItem where
  name : String
  itemType : ItemType
  attributes : Attributes
  deriving DecidableEq, Repr

/-- The attributes of a special file are those of a regular one. -/
def Metadata.attributes (m : Metadata) : Attributes where
  size := m.len
  blocks := 0
  atime := reported m.accessed
  mtime := reported m.modified
  ctime := m.ctime
  kind := match m.kind with
    | .directory => .directory
    | .file | .special => .regularFile
    | .symlink => .symlink
  perm := m.mode
  nlink := match m.kind with
    | .directory => 2
    | _ => 1
  uid := m.uid
  gid := m.gid
  rdev := 0
  blksize := 0

def FileKind.itemType : FileKind → Option ItemType
  | .file => some .file
  | .directory => some .directory
  | .symlink => some .symLink
  | .special => none

def unwrap {ε α : Type} (panic : Panic) : Except ε α → Except Panic α
  | .ok a => .ok a
  | .error _ => .error panic

def getAttributesByPath (stat : Path → Option Metadata) (p : Path) :
    Except StorageError Attributes :=
  match stat p with
  | some m => .ok m.attributes
  | none => .error .notFound

namespace FSItem

def new (node : Node) : ItemType → FSItem
  | .file => .file node
  | .symLink => .symLink node
  | .directory => .directory node []

def node : FSItem → Node
  | .file n => n
  | .symLink n => n
  | .directory n _ => n

def itemType : FSItem → ItemType
  | .file _ => .file
  | .symLink _ => .symLink
  | .directory _ _ => .directory

/-- `to_str().unwrap()` of the name. -/
def name (item : FSItem) : Except Panic String :=
  match item.node.name with
  | .text s => .ok s
  | .raw _ => .error .notUnicode

def getChildren (walk : HashOrder FSItem) : FSItem → Option (List FSItem)
  | .directory _ children => some (walk.order (children.map Prod.snd))
  | _ => none

end FSItem

def key (name : String) : Path := [.normal (.text name)]

def add (children : Children) (item : FSItem) : Except Panic Children := do
  let name ← item.name
  .ok ((key name, item) :: children.filter (·.1 ≠ key name))

def SerializableFSItem.new (item : FSItem) : Except Panic SerializableFSItem := do
  let name ← item.name
  .ok ⟨name, item.itemType, item.node.attributes⟩

variable {real : Path}

/-- The two looks at the entry of this number; a special file is skipped after the first. -/
def readEntry (m : Meanwhile real) (i : ℕ) (name : OsString) : Except Panic (Option FSItem) :=
  match m.symlinkMetadata (5 + 2 * i) (real.child name) with
  | none => .ok none
  | some found =>
    match found.kind.itemType with
    | none => .ok none
    | some itemType => do
      let attributes ← unwrap .noAttributes
        (getAttributesByPath (m.symlinkMetadata (6 + 2 * i)) (real.child name))
      .ok (some (.new ⟨name, attributes⟩ itemType))

def readEntries (m : Meanwhile real) :
    ℕ → List (Option OsString) → Children → Except Panic Children
  | _, [], children => .ok children
  | i, none :: entries, children => readEntries m (i + 1) entries children
  | i, some name :: entries, children => do
    match ← readEntry m i name with
    | none => readEntries m (i + 1) entries children
    | some item => readEntries m (i + 1) entries (← add children item)

def build (m : Meanwhile real) (node : Node) : ItemType → Except Panic (Option FSItem)
  | .file => .ok (some (.file node))
  | .symLink => .ok (some (.symLink node))
  | .directory =>
    match m.readDir with
    | none => .ok none
    | some entries => do
      let children ← readEntries m 0 entries []
      .ok (some (.directory node children))

def find (m : Meanwhile real) : Except Panic (Option FSItem) :=
  match m.symlinkMetadata 2 real with
  | none => .ok none
  | some found =>
    match found.kind.itemType with
    | none => .ok none
    | some itemType =>
      match real.fileName with
      | none => .ok none
      | some name => do
        let attributes ← unwrap .noAttributes (getAttributesByPath (m.symlinkMetadata 3) real)
        build m ⟨name, attributes⟩ itemType

/-- `is_allowed` for reading, with its two looks at the path. -/
def mayRead (stat : ℕ → Path → Option Metadata) (realPath : Path) (user : AuthenticatedUser)
    (path : Path) : Except StorageError Bool := do
  let real := makeRealPath realPath path
  let checked ← (if (stat 0 real).isNone then
      match real.parent with
      | none => .error .notFound
      | some parent => .ok parent
    else .ok real)
  let attributes ← getAttributesByPath (stat 1) checked
  let permissions := Permission.ofMode attributes.perm
  if checked = makeRealPath realPath [.rootDir] then .ok true
  else if user.userId = attributes.uid then .ok permissions.user.read
  else if user.groupId = attributes.gid then .ok permissions.group.read
  else .ok permissions.other.read

def checkPermission (stat : ℕ → Path → Option Metadata) (realPath : Path)
    (user : AuthenticatedUser) (path : Path) : Except ListError Unit :=
  match mayRead stat realPath user path with
  | .ok true => .ok ()
  | .ok false => .error (.permissionDenied "You do not have the needed permissions.")
  | .error e => .error (.storage e)

def respond (walk : HashOrder FSItem) :
    Option FSItem → Except Panic (Except ListError (List SerializableFSItem))
  | none => .ok (.error (.notFound "Path not found"))
  | some item =>
    match item.getChildren walk with
    | none => .ok (.error (.notADirectory "Path isn't a directory"))
    | some children => do .ok (.ok (← children.mapM SerializableFSItem.new))

def listPath (realPath : Path) (user : AuthenticatedUser) (path : Path)
    (m : Meanwhile (makeRealPath realPath path)) (walk : HashOrder FSItem) :
    Except Panic (Except ListError (List SerializableFSItem)) :=
  match checkPermission m.symlinkMetadata realPath user path with
  | .error e => .ok (.error e)
  | .ok () => do respond walk (← find m)

section Trees

def Metadata.ofInode (i : Inode) : Metadata where
  kind := match i.kind with
    | .file _ => .file
    | .directory _ => .directory
    | .symlink _ => .symlink
  len := match i.kind with
    | .file bytes => bytes.length
    | .directory len => len
    | .symlink target => target.utf8ByteSize
  mode := i.mode
  uid := i.uid
  gid := i.gid
  accessed := i.atime
  modified := i.mtime
  ctime := i.ctime

def statOf (t : Tree) (p : Path) : Option Metadata := (lstat t p).map fun li => .ofInode li.2

theorem attributes_ofInode (i : Inode) : (Metadata.ofInode i).attributes = fileAttr i := by
  cases hk : i.kind <;> simp [Metadata.attributes, Metadata.ofInode, fileAttr, hk]

theorem getAttributesByPath_statOf (t : Tree) (p : Path) :
    getAttributesByPath (statOf t) p = ServerStorage.getAttributesByPath t p := by
  unfold getAttributesByPath statOf ServerStorage.getAttributesByPath
  cases lstat t p with
  | none => rfl
  | some li => exact congrArg Except.ok (attributes_ofInode li.2)

theorem mayRead_statOf (fs : FileSystem) (t : Tree) (user : AuthenticatedUser) (path : Path) :
    mayRead (fun _ => statOf t) fs.realPath user path = fs.isAllowed t user path .read := by
  simp only [mayRead, getAttributesByPath_statOf, statOf, Option.isNone_map]
  rfl

end Trees

def kindAt (m : Meanwhile real) (k : ℕ) (p : Path) : Option ItemType :=
  (m.symlinkMetadata k p).bind fun found => found.kind.itemType

def Stays (m : Meanwhile real) (name : String) (itemType : ItemType) : Prop :=
  ∀ k, kindAt m k (real.child (.text name)) = some itemType

def Fine (m : Meanwhile real) (i : ℕ) (name : OsString) : Prop :=
  kindAt m (5 + 2 * i) (real.child name) ≠ none →
    m.symlinkMetadata (6 + 2 * i) (real.child name) ≠ none ∧ ∃ s, name = .text s

section Entries

variable {m : Meanwhile real} {i : ℕ} {name : OsString} {s : String} {itemType : ItemType}
variable {item : FSItem} {children left : Children} {entries : List (Option OsString)}

@[simp] theorem node_new (node : Node) : (FSItem.new node itemType).node = node := by
  cases itemType <;> rfl

@[simp] theorem itemType_new (node : Node) : (FSItem.new node itemType).itemType = itemType := by
  cases itemType <;> rfl

theorem name_ok : item.name = .ok s ↔ item.node.name = .text s := by
  unfold FSItem.name
  cases item.node.name <;> simp

theorem Stays.there (h : Stays m s itemType) (k : ℕ) :
    m.symlinkMetadata k (real.child (.text s)) ≠ none := by
  intro hnone
  have hk := h k
  simp [kindAt, hnone] at hk

/-- What the two looks at an entry make of it. -/
theorem readEntry_cases (m : Meanwhile real) (i : ℕ) (name : OsString) :
    (kindAt m (5 + 2 * i) (real.child name) = none ∧ readEntry m i name = .ok none) ∨
    ∃ itemType, kindAt m (5 + 2 * i) (real.child name) = some itemType ∧
      ((m.symlinkMetadata (6 + 2 * i) (real.child name) = none ∧
          readEntry m i name = .error .noAttributes) ∨
        ∃ found, m.symlinkMetadata (6 + 2 * i) (real.child name) = some found ∧
          readEntry m i name = .ok (some (.new ⟨name, found.attributes⟩ itemType))) := by
  unfold readEntry kindAt
  cases m.symlinkMetadata (5 + 2 * i) (real.child name) with
  | none => exact .inl ⟨rfl, rfl⟩
  | some first =>
    simp only [Option.bind_some]
    cases first.kind.itemType with
    | none => exact .inl ⟨rfl, rfl⟩
    | some itemType =>
      refine .inr ⟨itemType, rfl, ?_⟩
      unfold getAttributesByPath
      cases m.symlinkMetadata (6 + 2 * i) (real.child name) with
      | none => exact .inl ⟨rfl, rfl⟩
      | some found => exact .inr ⟨found, rfl, rfl⟩

theorem add_raw (h : ∀ s, item.node.name ≠ .text s) (children : Children) :
    add children item = .error .notUnicode := by
  unfold add FSItem.name
  cases hname : item.node.name with
  | text s => exact (h s hname).elim
  | raw bytes => rfl

theorem add_text (h : item.node.name = .text s) (children : Children) :
    add children item = .ok ((key s, item) :: children.filter (·.1 ≠ key s)) := by
  unfold add
  rw [name_ok.mpr h]
  rfl

theorem readEntries_cons (m : Meanwhile real) (i : ℕ) (name : OsString)
    (entries : List (Option OsString)) (children : Children) :
    (kindAt m (5 + 2 * i) (real.child name) = none ∧
      readEntries m i (some name :: entries) children = readEntries m (i + 1) entries children) ∨
    ∃ itemType, kindAt m (5 + 2 * i) (real.child name) = some itemType ∧
      ((¬Fine m i name ∧ ∃ panic,
          readEntries m i (some name :: entries) children = .error panic) ∨
        ∃ s item, name = .text s ∧ Fine m i name ∧ item.node.name = .text s ∧
          item.itemType = itemType ∧ readEntries m i (some name :: entries) children =
            readEntries m (i + 1) entries
              ((key s, item) :: children.filter (·.1 ≠ key s))) := by
  rw [readEntries]
  rcases readEntry_cases m i name with ⟨hkind, hread⟩ | ⟨itemType, hkind, ⟨hgone, hread⟩ | hread⟩
  · rw [hread]
    exact .inl ⟨hkind, rfl⟩
  · rw [hread]
    refine .inr ⟨itemType, hkind, .inl ⟨fun hfine => ?_, _, rfl⟩⟩
    exact (hfine (by simp [hkind])).1 hgone
  · obtain ⟨found, hfound, hread⟩ := hread
    rw [hread]
    refine .inr ⟨itemType, hkind, ?_⟩
    cases name with
    | raw bytes =>
      left
      refine ⟨fun hfine => ?_, .notUnicode, ?_⟩
      · obtain ⟨s, hs⟩ := (hfine (by simp [hkind])).2
        cases hs
      · have hraw : ∀ s, (FSItem.new ⟨.raw bytes, found.attributes⟩ itemType).node.name ≠
            .text s := by simp
        have hadd := add_raw hraw children
        change (add children _ >>= _) = _
        rw [hadd]
        rfl
    | text s =>
      have hname : (FSItem.new ⟨.text s, found.attributes⟩ itemType).node.name = .text s := by
        rw [node_new]
      refine .inr ⟨s, _, rfl, fun _ => ⟨by simp [hfound], s, rfl⟩, hname, itemType_new _, ?_⟩
      have hadd := add_text hname children
      change (add children _ >>= _) = _
      rw [hadd]
      rfl

/-- The loop ends without a panic exactly if every entry is fine when it comes to it. -/
theorem readEntries_ok (m : Meanwhile real) (entries : List (Option OsString)) :
    ∀ i children, (∃ left, readEntries m i entries children = .ok left) ↔
      ∀ j name, entries[j]? = some (some name) → Fine m (i + j) name := by
  induction entries with
  | nil =>
    intro i children
    exact iff_of_true ⟨children, rfl⟩ fun j name h => by simp at h
  | cons entry entries ih =>
    intro i children
    have hsplit : (∀ j name, (entry :: entries)[j]? = some (some name) → Fine m (i + j) name) ↔
        (∀ name, entry = some name → Fine m i name) ∧
          ∀ j name, entries[j]? = some (some name) → Fine m (i + 1 + j) name := by
      constructor
      · intro h
        refine ⟨fun name hentry => h 0 name (by simp [hentry]), fun j name hj => ?_⟩
        have hfine := h (j + 1) name (by simpa using hj)
        rwa [show i + 1 + j = i + (j + 1) by omega]
      · rintro ⟨hfirst, hrest⟩ j name hj
        cases j with
        | zero => exact hfirst name (by simpa using hj)
        | succ j =>
          rw [show i + (j + 1) = i + 1 + j by omega]
          exact hrest j name (by simpa using hj)
    rw [hsplit]
    cases entry with
    | none =>
      rw [readEntries, ih]
      simp
    | some name =>
      have hfirst : (∀ name', some name = some name' → Fine m i name') ↔ Fine m i name := by
        simp
      rw [hfirst]
      rcases readEntries_cons m i name entries children with
        ⟨hkind, hrun⟩ | ⟨itemType, -, ⟨hnot, panic, hrun⟩ | ⟨s, item, -, hfine, -, -, hrun⟩⟩
      · have hfine : Fine m i name := fun h => (h hkind).elim
        rw [hrun, ih, and_iff_right hfine]
      · rw [hrun]
        exact iff_of_false (by simp) fun h => hnot h.1
      · rw [hrun, ih, and_iff_right hfine]

def typesAt (children : Children) (s : String) : List ItemType :=
  (children.filter (·.1 = key s)).map (·.2.itemType)

theorem key_inj {s t : String} (h : key s = key t) : s = t := by
  simpa [key] using h

theorem typesAt_add_self : typesAt ((key s, item) :: children.filter (·.1 ≠ key s)) s =
    [item.itemType] := by
  simp [typesAt, List.filter_filter]

theorem typesAt_add_ne {t : String} (h : s ≠ t) :
    typesAt ((key t, item) :: children.filter (·.1 ≠ key t)) s = typesAt children s := by
  have hkey : key t ≠ key s := fun he => h (key_inj he).symm
  unfold typesAt
  rw [List.filter_cons_of_neg (by simpa using hkey), List.filter_filter]
  congr 1
  refine List.filter_congr fun c _ => ?_
  by_cases hc : c.1 = key s
  · simp [hc, hkey.symm]
  · simp [hc]

/-- An entry that stays is in the map once, with its type, when the loop has come to it. -/
theorem typesAt_readEntries (hstay : Stays m s itemType) (entries : List (Option OsString)) :
    ∀ i children, readEntries m i entries children = .ok left →
      typesAt left s = if some (.text s) ∈ entries then [itemType] else typesAt children s := by
  induction entries with
  | nil =>
    intro i children h
    obtain rfl := Except.ok.inj h
    simp
  | cons entry entries ih =>
    intro i children h
    cases entry with
    | none =>
      rw [readEntries] at h
      rw [ih _ _ h]
      simp
    | some name =>
      have hother : ∀ {left' : Children}, name ≠ .text s →
          typesAt left s = (if some (.text s) ∈ entries then [itemType] else typesAt left' s) →
          typesAt left' s = typesAt children s →
          typesAt left s = if some (.text s) ∈ some name :: entries then [itemType]
            else typesAt children s := by
        intro left' hne hleft hsame
        rw [hleft, hsame]
        simp [hne.symm]
      rcases readEntries_cons m i name entries children with
        ⟨hkind, hrun⟩ | ⟨found, hkind, ⟨-, panic, hrun⟩ | ⟨t, item, rfl, -, -, htype, hrun⟩⟩
      · refine hother ?_ (ih _ _ (hrun ▸ h)) rfl
        rintro rfl
        cases hkind.symm.trans (hstay _)
      · cases hrun.symm.trans h
      · have hrest := ih _ _ (hrun ▸ h)
        by_cases hst : s = t
        · subst hst
          rw [typesAt_add_self] at hrest
          cases hkind.symm.trans (hstay _)
          rw [hrest, htype]
          simp
        · exact hother (by simpa using Ne.symm hst) hrest (typesAt_add_ne hst)

def Named (children : Children) : Prop := ∀ c ∈ children, ∃ s, c.2.node.name = .text s ∧ c.1 = key s

theorem named_readEntries (entries : List (Option OsString)) : ∀ i children, Named children →
    readEntries m i entries children = .ok left → Named left := by
  induction entries with
  | nil =>
    intro i children hnamed h
    obtain rfl := Except.ok.inj h
    exact hnamed
  | cons entry entries ih =>
    intro i children hnamed h
    cases entry with
    | none => exact ih _ _ hnamed h
    | some name =>
      rcases readEntries_cons m i name entries children with
        ⟨-, hrun⟩ | ⟨found, -, ⟨-, panic, hrun⟩ | ⟨t, item, -, -, hname, -, hrun⟩⟩
      · exact ih _ _ hnamed (hrun ▸ h)
      · cases hrun.symm.trans h
      · refine ih _ _ ?_ (hrun ▸ h)
        intro c hc
        rcases List.mem_cons.mp hc with rfl | hc
        · exact ⟨t, hname, rfl⟩
        · exact hnamed c (List.mem_filter.mp hc).1

theorem typesAt_named (h : Named children) (s : String) : typesAt children s =
    ((children.map Prod.snd).filter (·.node.name = .text s)).map FSItem.itemType := by
  rw [typesAt, List.filter_map, List.map_map]
  refine congrArg _ (List.filter_congr fun c hc => ?_)
  obtain ⟨t, hname, hkey⟩ := h c hc
  simp only [Function.comp_apply, hname, hkey]
  by_cases hst : t = s
  · simp [hst]
  · have hne : key t ≠ key s := fun he => hst (key_inj he)
    simp [hst, hne]

theorem mapM_new (items : List FSItem) (h : ∀ item ∈ items, ∃ s, item.node.name = .text s) :
    ∃ listed, items.mapM SerializableFSItem.new = .ok listed ∧ ∀ s,
      (listed.filter (·.name = s)).map SerializableFSItem.itemType =
        (items.filter (·.node.name = .text s)).map FSItem.itemType := by
  induction items with
  | nil => exact ⟨[], rfl, fun _ => rfl⟩
  | cons item items ih =>
    obtain ⟨listed, hrun, hsame⟩ := ih fun it hit => h it (List.mem_cons_of_mem _ hit)
    obtain ⟨t, hname⟩ := h item List.mem_cons_self
    refine ⟨⟨t, item.itemType, item.node.attributes⟩ :: listed, ?_, fun s => ?_⟩
    · rw [List.mapM_cons, hrun, SerializableFSItem.new, name_ok.mpr hname]
      rfl
    · by_cases hst : t = s
      · simp [hname, hst, hsame]
      · simp [hname, hst, hsame]

end Entries

section Find

variable {m : Meanwhile real} {walk : HashOrder FSItem} {name : OsString}
variable {itemType : ItemType} {entries : List (Option OsString)} {found : Metadata}

theorem find_nothing (h : kindAt m 2 real = none ∨ real.fileName = none) : find m = .ok none := by
  unfold find
  unfold kindAt at h
  cases hfirst : m.symlinkMetadata 2 real with
  | none => rfl
  | some first =>
    simp only [hfirst, Option.bind_some] at h ⊢
    rcases h with h | h
    · rw [h]
    · rw [h]
      cases first.kind.itemType <;> rfl

theorem find_something (hkind : kindAt m 2 real = some itemType)
    (hname : real.fileName = some name) : find m =
      unwrap .noAttributes (getAttributesByPath (m.symlinkMetadata 3) real) >>= fun attributes =>
        build m ⟨name, attributes⟩ itemType := by
  unfold find
  unfold kindAt at hkind
  cases hfirst : m.symlinkMetadata 2 real with
  | none => simp [hfirst] at hkind
  | some first =>
    simp only [hfirst, Option.bind_some] at hkind ⊢
    rw [hkind, hname]

theorem find_gone (hkind : kindAt m 2 real = some itemType) (hname : real.fileName = some name)
    (h : m.symlinkMetadata 3 real = none) : find m = .error .noAttributes := by
  rw [find_something hkind hname, getAttributesByPath, h]
  rfl

theorem find_found (hkind : kindAt m 2 real = some itemType) (hname : real.fileName = some name)
    (h : m.symlinkMetadata 3 real = some found) :
    find m = build m ⟨name, found.attributes⟩ itemType := by
  rw [find_something hkind hname, getAttributesByPath, h]
  rfl

/-- Named children are answered with their names and types. -/
theorem respond_directory {children : Children} (node : Node) (hnamed : Named children)
    (walk : HashOrder FSItem) : ∃ items,
      respond walk (some (.directory node children)) = .ok (.ok items) ∧
        ∀ s, ((items.filter (·.name = s)).map SerializableFSItem.itemType).Perm
          (typesAt children s) := by
  have hperm := walk.perm (children.map Prod.snd)
  obtain ⟨items, hrun, hsame⟩ := mapM_new (walk.order (children.map Prod.snd)) fun item hitem => by
    obtain ⟨c, hc, rfl⟩ := List.mem_map.mp (hperm.mem_iff.mp hitem)
    obtain ⟨s, hs, -⟩ := hnamed c hc
    exact ⟨s, hs⟩
  refine ⟨items, ?_, fun s => ?_⟩
  · simp only [respond, FSItem.getChildren, hrun]
    rfl
  · rw [hsame, typesAt_named hnamed]
    exact (hperm.filter _).map _

end Find

section Requests

variable {realPath path : Path} {user : AuthenticatedUser} {walk : HashOrder FSItem}

/-- The request ends in a response. If it is granted, on a directory, each entry with a name in
UTF-8 that stays is in the response once, with its type. -/
def Complete (granted : Prop) (m : Meanwhile real)
    (outcome : Except Panic (Except ListError (List SerializableFSItem))) : Prop :=
  ∃ reply, outcome = .ok reply ∧ (granted → kindAt m 2 real = some .directory →
    ∀ s itemType, Stays m s itemType → ∃ items, reply = .ok items ∧
      (items.filter (·.name = s)).map SerializableFSItem.itemType = [itemType])

/-- No deletion falls between two looks at one object, every entry that is looked at twice has
a name in UTF-8, and a directory in which something stays ends in a name itself. -/
structure Undisturbed (m : Meanwhile real) : Prop where
  target : real.fileName ≠ none → kindAt m 2 real ≠ none → m.symlinkMetadata 3 real ≠ none
  entries : real.fileName ≠ none → kindAt m 2 real = some .directory →
    ∀ entries, m.readDir = some entries →
      ∀ i name, entries[i]? = some (some name) → Fine m i name
  named : real.fileName = none → kindAt m 2 real = some .directory →
    ∀ s itemType, ¬Stays m s itemType

theorem complete_of_refused {granted : Prop} (m : Meanwhile real) (e : ListError)
    (h : granted → ∀ s itemType, kindAt m 2 real = some .directory → ¬Stays m s itemType) :
    Complete granted m (.ok (.error e)) :=
  ⟨_, rfl, fun hg hdir s itemType hs => (h hg s itemType hdir hs).elim⟩

theorem directory_complete_iff {m : Meanwhile real} {name : OsString}
    {entries : List (Option OsString)} (hname : real.fileName = some name)
    (hkind : kindAt m 2 real = some .directory) (hdir : m.readDir = some entries) (node : Node)
    (htarget : m.symlinkMetadata 3 real ≠ none) (walk : HashOrder FSItem) :
    Complete True m ((do
      let children ← readEntries m 0 entries []
      .ok (some (.directory node children))) >>= respond walk) ↔ Undisturbed m := by
  have hsome : real.fileName ≠ none := by simp [hname]
  have hfine := readEntries_ok m entries 0 []
  simp only [Nat.zero_add] at hfine
  constructor
  · rintro ⟨reply, hreply, -⟩
    refine ⟨fun _ _ => htarget, fun _ _ entries' hentries => ?_, fun h => (hsome h).elim⟩
    cases hdir.symm.trans hentries
    cases hread : readEntries m 0 entries [] with
    | error panic =>
      rw [hread] at hreply
      cases hreply
    | ok left => exact hfine.mp ⟨left, hread⟩
  · intro h
    obtain ⟨left, hread⟩ := hfine.mpr (h.entries hsome hkind entries hdir)
    obtain ⟨items, hrespond, hsame⟩ := respond_directory node
      (named_readEntries entries 0 [] (by simp [Named]) hread) walk
    rw [hread]
    refine ⟨.ok items, hrespond, fun _ _ s itemType hs => ⟨items, rfl, ?_⟩⟩
    have htypes := typesAt_readEntries hs entries 0 [] hread
    rw [if_pos (m.listed entries _ hdir hs.there)] at htypes
    exact List.perm_singleton.mp (htypes ▸ hsame s)

theorem granted_complete_iff (m : Meanwhile real) (walk : HashOrder FSItem) :
    Complete True m (find m >>= respond walk) ↔ Undisturbed m := by
  cases hname : real.fileName with
  | none =>
    rw [find_nothing (.inr hname)]
    constructor
    · rintro ⟨reply, hreply, hstays⟩
      refine ⟨fun h => (h hname).elim, fun h => (h hname).elim, fun _ hdir s itemType hs => ?_⟩
      obtain ⟨items, hitems, -⟩ := hstays trivial hdir s itemType hs
      cases hreply.trans (congrArg _ hitems)
    · exact fun h => complete_of_refused m _ fun _ s itemType hdir => h.named hname hdir s itemType
  | some name =>
    have hsome : real.fileName ≠ none := by simp [hname]
    cases hkind : kindAt m 2 real with
    | none =>
      rw [find_nothing (.inl hkind)]
      refine iff_of_true (complete_of_refused m _ fun _ _ _ hdir => ?_) ⟨?_, ?_, ?_⟩
      · cases hkind.symm.trans hdir
      · exact fun _ h => (h hkind).elim
      · exact fun _ hdir => by cases hkind.symm.trans hdir
      · exact fun h => (hsome h).elim
    | some itemType =>
      cases hfound : m.symlinkMetadata 3 real with
      | none =>
        rw [find_gone hkind hname hfound]
        refine iff_of_false ?_ fun h => h.target hsome (by simp [hkind]) hfound
        rintro ⟨reply, hreply, -⟩
        cases hreply
      | some found =>
        have htarget : m.symlinkMetadata 3 real ≠ none := by simp [hfound]
        rw [find_found hkind hname hfound]
        have hother : ∀ item : FSItem, item.getChildren walk = none →
            kindAt m 2 real ≠ some .directory →
            (Complete True m (respond walk (some item)) ↔ Undisturbed m) := by
          intro item hkids hnot
          have hrespond : respond walk (some item) =
              .ok (.error (.notADirectory "Path isn't a directory")) := by
            simp only [respond, hkids]
          rw [hrespond]
          exact iff_of_true (complete_of_refused m _ fun _ _ _ hdir => (hnot hdir).elim)
            ⟨fun _ _ => htarget, fun _ hdir => (hnot hdir).elim, fun h => (hsome h).elim⟩
        cases itemType with
        | file => exact hother (.file ⟨name, found.attributes⟩) rfl (by simp [hkind])
        | symLink => exact hother (.symLink ⟨name, found.attributes⟩) rfl (by simp [hkind])
        | directory =>
          rw [build]
          cases hdir : m.readDir with
          | none =>
            refine iff_of_true (complete_of_refused m _ fun _ s itemType _ hs => ?_)
              ⟨fun _ _ => htarget, fun _ _ entries hentries => ?_, fun h => (hsome h).elim⟩
            · exact m.opened (m.below 4 _ (hs.there 4)) hdir
            · cases hdir.symm.trans hentries
          | some entries =>
            exact directory_complete_iff hname hkind hdir ⟨name, found.attributes⟩ htarget walk

/-- A list request is answered in full exactly if it is refused by the check or undisturbed. -/
theorem listing_complete_iff (realPath path : Path) (user : AuthenticatedUser)
    (m : Meanwhile (makeRealPath realPath path)) (walk : HashOrder FSItem) :
    Complete (checkPermission m.symlinkMetadata realPath user path = .ok ()) m
        (listPath realPath user path m walk) ↔
      (checkPermission m.symlinkMetadata realPath user path = .ok () → Undisturbed m) := by
  unfold listPath
  cases hcheck : checkPermission m.symlinkMetadata realPath user path with
  | error e =>
    exact iff_of_true (complete_of_refused m e fun h => by cases h) fun h => by cases h
  | ok u =>
    have hiff := granted_complete_iff m walk
    simpa using hiff

def oneFile (real : Path) (name : OsString) (deletedAt : ℕ) : Meanwhile real where
  symlinkMetadata k p :=
    if p = real then some ⟨.directory, 4096, 0o40755, 0, 0, ⟨0, 0⟩, ⟨0, 0⟩, ⟨0, 0⟩⟩
    else if p = real.child name ∧ k < deletedAt then
      some ⟨.file, 1, 0o100644, 0, 0, ⟨0, 0⟩, ⟨0, 0⟩, ⟨0, 0⟩⟩
    else none
  readDir := some [some name]
  deletes k p m h := by
    by_cases hp : p = real
    · rw [if_pos hp] at h ⊢
      exact ⟨m, h, rfl⟩
    · rw [if_neg hp] at h ⊢
      by_cases hchild : p = real.child name ∧ k + 1 < deletedAt
      · rw [if_pos hchild] at h
        rw [if_pos ⟨hchild.1, by omega⟩]
        exact ⟨m, h, rfl⟩
      · rw [if_neg hchild] at h
        cases h
  below _ _ _ := by simp
  opened _ := by simp
  listed entries other hentries hstays := by
    obtain rfl := Option.some.inj hentries
    have hzero := hstays 0
    rw [if_neg (Path.ne_child real other).symm] at hzero
    have hsame : real.child other = real.child name := by
      by_contra hne
      exact hzero (if_neg fun h => hne h.1)
    simpa [Path.child] using hsame

def folder : Path := [.normal (.text "d")]

/-- A name that is not UTF-8, and a file that is deleted between the two looks at it. -/
theorem listing_panics :
    let real := makeRealPath [.rootDir] folder
    let granted (m : Meanwhile real) :=
      checkPermission m.symlinkMetadata [.rootDir] ⟨0, 0⟩ folder = .ok ()
    let answer (m : Meanwhile real) := listPath [.rootDir] ⟨0, 0⟩ folder m (.id FSItem)
    ¬Complete (granted (oneFile real (.raw [255]) 9)) (oneFile real (.raw [255]) 9)
        (answer (oneFile real (.raw [255]) 9)) ∧
      ¬Complete (granted (oneFile real (.text "f") 6)) (oneFile real (.text "f") 6)
        (answer (oneFile real (.text "f") 6)) := by
  intro real granted answer
  have hraw : answer (oneFile real (.raw [255]) 9) = .error .notUnicode := by rfl
  have hdeleted : answer (oneFile real (.text "f") 6) = .error .noAttributes := by rfl
  constructor
  · rintro ⟨reply, hreply, -⟩
    cases hraw.symm.trans hreply
  · rintro ⟨reply, hreply, -⟩
    cases hdeleted.symm.trans hreply

end Requests

end ServerListing
