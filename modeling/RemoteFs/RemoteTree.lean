import RemoteFs.ClientAttributes
import RemoteFs.OsPaths
import RemoteFs.WriteLog
import Mathlib.Logic.Function.Basic

/-! # The exported tree as the client's requests see it

The mount hands over absolute paths without `.` and `..`, on which different component
lists are different places, and the kernel resolves links before it names a file. So the
tree is keyed by paths, and a data request reaches the object at its path. Whether the
server grants a request is an input of each call; the effects are those of the server's
operating system calls when it does. What those calls change besides the objects they name, the
times of a directory that gains or loses a name, is not among them: where attributes of
directories matter, it is a change of the tree between two calls. -/
namespace RemoteTree

open ClientAttributes
open FileBytes
open OsPaths
open WriteLog

inductive Content where
  | file (bytes : List UInt8)
  | directory (len : ℕ)
  | symlink (target : String)
  deriving DecidableEq, Repr

abbrev Nodes := Path → Option Content

/-- A write creates a missing file; directories and links are no target of a write. -/
def Content.write : Option Content → ℕ → List UInt8 → Option Content
  | none, off, d => some (.file (writeAt 0 [] off d))
  | some (.file b), off, d => some (.file (writeAt 0 b off d))
  | some c, _, _ => some c

def Content.setSize : Option Content → ℕ → Option Content
  | some (.file b), n => some (.file (resize 0 b n))
  | c, _ => c

def Nodes.write (t : Nodes) (p : Path) (off : ℕ) (d : List UInt8) : Nodes :=
  Function.update t p (Content.write (t p) off d)

def Nodes.setSize (t : Nodes) (p : Path) (n : ℕ) : Nodes :=
  Function.update t p (Content.setSize (t p) n)

def Nodes.remove (t : Nodes) (p : Path) : Nodes := Function.update t p none

/-- Moves the object at `a` with everything below it and replaces what was at `b`. -/
def relocate {β : Type*} (f : Path → β) (gone : β) (a b : Path) : Path → β := fun q =>
  if a = b then f q
  else if b <+: q then f (a ++ q.drop b.length)
  else if a <+: q then gone
  else f q

section Relocate

variable {β : Type*} {f : Path → β} {gone : β} {a b q : Path}

theorem relocate_self (f : Path → β) (gone : β) (a : Path) : relocate f gone a a = f := by
  funext q
  rw [relocate, if_pos rfl]

theorem relocate_target (hab : a ≠ b) (h : b <+: q) :
    relocate f gone a b q = f (a ++ q.drop b.length) := by
  rw [relocate, if_neg hab, if_pos h]

theorem relocate_below (rest : Path) : relocate f gone a b (b ++ rest) = f (a ++ rest) := by
  by_cases hab : a = b
  · rw [hab, relocate_self]
  · rw [relocate_target hab (List.prefix_append b rest), List.drop_left]

theorem relocate_source (hab : a ≠ b) (hb : ¬b <+: q) (ha : a <+: q) :
    relocate f gone a b q = gone := by
  rw [relocate, if_neg hab, if_neg hb, if_pos ha]

theorem relocate_other (hb : ¬b <+: q) (ha : ¬a <+: q) : relocate f gone a b q = f q := by
  by_cases hab : a = b
  · rw [relocate, if_pos hab]
  · rw [relocate, if_neg hab, if_neg hb, if_neg ha]

end Relocate

def Nodes.rename (t : Nodes) (a b : Path) : Nodes := relocate t none a b

/-- EXCHANGE moves `a` aside, then `b` to `a`, then the first object to `b`. -/
def relocateExchange {β : Type*} (f : Path → β) (a b : Path) : Path → β := fun q =>
  if b <+: q then f (a ++ q.drop b.length)
  else if a <+: q then f (b ++ q.drop a.length)
  else f q

theorem Content.write_fuse (c : Option Content) (off : ℕ) (a b : List UInt8) :
    Content.write (Content.write c off a) (off + a.length) b = Content.write c off (a ++ b) := by
  rcases c with _ | ⟨b'⟩ | _ | _ <;> simp only [Content.write, writeAt_append]

theorem Content.write_comm (c : Option Content) {off off' : ℕ} {a b : List UInt8}
    (h : off + a.length ≤ off') :
    Content.write (Content.write c off a) off' b =
      Content.write (Content.write c off' b) off a := by
  rcases c with _ | ⟨b'⟩ | _ | _ <;> simp only [Content.write, writeAt_comm _ _ h]

theorem Content.setSize_write {c : Option Content} (hc : c ≠ none) {off n : ℕ}
    {d : List UInt8} (h : off + d.length ≤ n) :
    Content.setSize (Content.write c off d) n = Content.write (Content.setSize c n) off d := by
  rcases c with _ | ⟨b'⟩ | _ | _
  · exact (hc rfl).elim
  all_goals simp only [Content.write, Content.setSize, resize_writeAt _ _ h]

theorem Nodes.write_comm_of_ne (t : Nodes) {p q : Path} (h : p ≠ q) (off off' : ℕ)
    (a b : List UInt8) : (t.write p off a).write q off' b = (t.write q off' b).write p off a := by
  simp only [Nodes.write, Function.update_of_ne h, Function.update_of_ne h.symm]
  exact Function.update_comm h _ _ _

theorem Nodes.write_remove (t : Nodes) {p q : Path} (h : q ≠ p) (off : ℕ) (d : List UInt8) :
    (t.write q off d).remove p = (t.remove p).write q off d := by
  simp only [Nodes.write, Nodes.remove, Function.update_of_ne h]
  exact Function.update_comm h _ _ _

theorem Nodes.write_setSize_ne (t : Nodes) {p q : Path} (h : q ≠ p) (off n : ℕ)
    (d : List UInt8) : (t.write q off d).setSize p n = (t.setSize p n).write q off d := by
  simp only [Nodes.write, Nodes.setSize, Function.update_of_ne h, Function.update_of_ne h.symm]
  exact Function.update_comm h _ _ _

/-- A write that ends within the new size of an existing file may come before or after. -/
theorem Nodes.write_setSize_self (t : Nodes) {p : Path} (hp : t p ≠ none) {off n : ℕ}
    {d : List UInt8} (h : off + d.length ≤ n) :
    (t.write p off d).setSize p n = (t.setSize p n).write p off d := by
  simp only [Nodes.write, Nodes.setSize, Function.update_self, Function.update_idem]
  rw [Content.setSize_write hp h]

/-- A write outside both subtrees of a rename. -/
theorem Nodes.write_rename (t : Nodes) {a b q : Path}
    (h : a = b ∨ ¬a <+: q ∧ ¬b <+: q) (off : ℕ) (d : List UInt8) :
    (t.write q off d).rename a b = (t.rename a b).write q off d := by
  simp only [Nodes.rename, Nodes.write]
  by_cases hab : a = b
  · subst hab
    rw [relocate_self, relocate_self]
  obtain ⟨ha, hb⟩ := h.resolve_left hab
  funext r
  by_cases hr : r = q
  · subst hr
    rw [relocate_other hb ha, relocate_other hb ha, Function.update_self, Function.update_self]
  rw [Function.update_of_ne hr]
  by_cases hbr : b <+: r
  · have hne : a ++ r.drop b.length ≠ q := fun he => ha (he ▸ List.prefix_append a _)
    rw [relocate_target hab hbr, relocate_target hab hbr, Function.update_of_ne hne]
  · by_cases har : a <+: r
    · rw [relocate_source hab hbr har, relocate_source hab hbr har]
    · rw [relocate_other hbr har, relocate_other hbr har, Function.update_of_ne hr]

/-- The server's files are a store: this is what the write buffer relies on. -/
def fileStore : Store Nodes Path UInt8 where
  write := Nodes.write
  write_append := by
    intro t p off a b _ _
    simp only [Nodes.write, Function.update_self, Function.update_idem, Content.write_fuse]
  write_comm := by
    intro t w v _ _ h
    by_cases hk : w.key = v.key
    · rcases h with h | h | h
      · exact (h hk).elim
      · rw [hk]
        simp only [Nodes.write, Function.update_self, Function.update_idem]
        rw [Content.write_comm _ h]
      · rw [hk]
        simp only [Nodes.write, Function.update_self, Function.update_idem]
        rw [Content.write_comm _ h]
    · exact Nodes.write_comm_of_ne t hk _ _ _ _

structure Meta where
  perm : ℕ
  uid : ℕ
  gid : ℕ
  atime : Timestamp
  mtime : Timestamp
  ctime : Timestamp
  deriving DecidableEq, Repr

/-- The server with the session of one authenticated user. -/
structure Remote where
  nodes : Nodes
  info : Path → Meta
  userId : ℕ
  groupId : ℕ

def Remote.empty (userId groupId : ℕ) : Remote :=
  ⟨fun _ => none, fun _ => ⟨0, 0, 0, ⟨0, 0⟩, ⟨0, 0⟩, ⟨0, 0⟩⟩, userId, groupId⟩

def Remote.withFiles (paths : List Path) : Remote :=
  { Remote.empty 0 0 with nodes := fun p => if p ∈ paths then some (.file []) else none }

def Content.kind : Content → FileType
  | .file _ => .regularFile
  | .directory _ => .directory
  | .symlink _ => .symlink

def Content.size : Content → ℕ
  | .file b => b.length
  | .directory len => len
  | .symlink target => target.utf8ByteSize

def attributesOf (c : Content) (m : Meta) : Attributes where
  size := c.size
  blocks := 0
  atime := m.atime
  mtime := m.mtime
  ctime := m.ctime
  kind := c.kind
  perm := m.perm
  nlink := if c.kind = .directory then 2 else 1
  uid := m.uid
  gid := m.gid
  rdev := 0
  blksize := 0

def Remote.getAttributes (r : Remote) (p : Path) : Option Attributes :=
  (r.nodes p).map fun c => attributesOf c (r.info p)

/-- A created object belongs to the user; `mode` carries the type bits. -/
def Remote.created (r : Remote) (mode : ℕ) (now : Timestamp) : Meta :=
  ⟨mode, r.userId, r.groupId, now, now, now⟩

/-- Opening a directory for writing fails, and a write of no bytes to a file that is there
changes nothing. -/
def Remote.writeFile (r : Remote) (p : Path) (off : ℕ) (d : List UInt8) (now : Timestamp) :
    Option Remote :=
  match r.nodes p with
  | some (.directory _) | some (.symlink _) => none
  | none => some { r with
      nodes := r.nodes.write p off d
      info := Function.update r.info p (r.created 0o100644 now) }
  | some (.file _) => some { r with
      nodes := r.nodes.write p off d
      info := if d = [] then r.info
        else Function.update r.info p { r.info p with mtime := now, ctime := now } }

def Remote.readFile (r : Remote) (p : Path) (off size : ℕ) : Option (List UInt8) :=
  match r.nodes p with
  | some (.file b) => some (slice b off size)
  | _ => none

def chmodded (a : SetAttr) (perm : ℕ) : ℕ :=
  match a.mode with
  | some mode => perm / 0o10000 * 0o10000 + mode % 0o10000
  | none => perm

/-- What a change of the owner leaves of a mode. -/
def Content.disowned : Content → ℕ → ℕ
  | .directory _, mode => mode
  | _, mode => ClientAttributes.disowned mode

def Remote.setAttributes (r : Remote) (p : Path) (a : SetAttr) (now : Timestamp) :
    Option Remote :=
  let m := r.info p
  let perm := if a.uid.getD m.uid = m.uid ∧ a.gid.getD m.gid = m.gid then chmodded a m.perm
    else (r.nodes p).elim m.perm fun c => c.disowned (chmodded a m.perm)
  let mtime := match a.size with
    | some _ => now
    | none => m.mtime
  let info := Function.update r.info p
    { perm := perm, uid := a.uid.getD m.uid, gid := a.gid.getD m.gid,
      atime := a.atime.getD m.atime, mtime := a.mtime.getD mtime, ctime := now }
  match r.nodes p, a.size with
  | none, _ => none
  | some _, none => some { r with info := info }
  | some (.file _), some n => some { r with nodes := r.nodes.setSize p n, info := info }
  | some _, some _ => none

def Remote.mkdir (r : Remote) (p : Path) (now : Timestamp) : Option Remote :=
  match r.nodes p with
  | some _ => none
  | none => some { r with
      nodes := Function.update r.nodes p (some (.directory 4096))
      info := Function.update r.info p (r.created 0o040755 now) }

/-- A link is created by the server process and stays its own. -/
def Remote.createSymlink (r : Remote) (p : Path) (target : String) (now : Timestamp) :
    Option Remote :=
  match r.nodes p with
  | some _ => none
  | none => some { r with
      nodes := Function.update r.nodes p (some (.symlink target))
      info := Function.update r.info p ⟨0o120777, 0, 0, now, now, now⟩ }

def Remote.readSymlink (r : Remote) (p : Path) : Option String :=
  match r.nodes p with
  | some (.symlink target) => some target
  | _ => none

def Remote.remove (r : Remote) (p : Path) : Option Remote :=
  match r.nodes p with
  | none => none
  | some _ => some { r with nodes := r.nodes.remove p }

structure RenameFlags where
  noreplace : Bool
  exchange : Bool
  whiteout : Bool
  deriving DecidableEq, Repr

def RenameFlags.empty : RenameFlags := ⟨false, false, false⟩

/-- The source must exist, and nothing moves into itself. -/
def Remote.rename (r : Remote) (a b : Path) (flags : RenameFlags) : Option Remote :=
  if r.nodes a = none then none
  else if flags.exchange then
    if r.nodes b = none ∨ a <+: b ∨ b <+: a then none
    else some { r with
      nodes := relocateExchange r.nodes a b
      info := relocateExchange r.info a b }
  else if flags.noreplace ∧ r.nodes b ≠ none then none
  else if a ≠ b ∧ (a <+: b ∨ b <+: a) then none
  else some { r with
    nodes := r.nodes.rename a b
    info := relocate r.info (r.info a) a b }

inductive ItemType where
  | directory
  | file
  | symLink
  deriving DecidableEq, Repr

structure Item where
  name : OsString
  itemType : ItemType
  attributes : Attributes
  deriving DecidableEq, Repr

def Content.itemType : Content → ItemType
  | .file _ => .file
  | .directory _ => .directory
  | .symlink _ => .symLink

def Remote.item (r : Remote) (p : Path) (name : String) : Option Item :=
  (r.nodes (p.child (.text name))).map fun c =>
    ⟨.text name, c.itemType, attributesOf c (r.info (p.child (.text name)))⟩

/-- The children the server reports, in the order in which it comes across `names`. -/
def Remote.listPath (r : Remote) (p : Path) (names : List String) : Option (List Item) :=
  match r.nodes p with
  | some (.directory _) => some (names.filterMap (r.item p))
  | _ => none

theorem Remote.writeFile_nodes {r r' : Remote} {p : Path} {off : ℕ} {d : List UInt8}
    {now : Timestamp} (h : r.writeFile p off d now = some r') :
    r'.nodes = r.nodes.write p off d := by
  unfold Remote.writeFile at h
  split at h
  · cases h
  · cases h
  · injection h with h; rw [← h]
  · injection h with h; rw [← h]

/-- A granted size change is one on a file. -/
theorem Remote.setAttributes_size {r r' : Remote} {p : Path} {a : SetAttr} {now : Timestamp}
    {n : ℕ} (ha : a.size = some n) (h : r.setAttributes p a now = some r') :
    r'.nodes = r.nodes.setSize p n ∧ ∃ b, r.nodes p = some (.file b) := by
  unfold Remote.setAttributes at h
  rw [ha] at h
  cases hp : r.nodes p with
  | none => rw [hp] at h; cases h
  | some c =>
    rw [hp] at h
    cases c with
    | file b =>
      injection h with h
      rw [← h]
      exact ⟨rfl, b, rfl⟩
    | directory len => cases h
    | symlink target => cases h

theorem Remote.setAttributes_nodes {r r' : Remote} {p : Path} {a : SetAttr} {now : Timestamp}
    (ha : a.size = none) (h : r.setAttributes p a now = some r') : r'.nodes = r.nodes := by
  unfold Remote.setAttributes at h
  rw [ha] at h
  cases hp : r.nodes p with
  | none => rw [hp] at h; cases h
  | some c =>
    rw [hp] at h
    injection h with h
    rw [← h]

theorem Remote.writeFile_created {r r' : Remote} {p : Path} {off : ℕ} {d : List UInt8}
    {now : Timestamp} (h : r.writeFile p off d now = some r') :
    ∃ bytes, r'.nodes p = some (.file bytes) := by
  have hn : r'.nodes p = _ := congrFun (Remote.writeFile_nodes h) p
  rw [Nodes.write, Function.update_self] at hn
  unfold Remote.writeFile at h
  split at h
  · cases h
  · cases h
  · rename_i hnone
    rw [hnone] at hn
    exact ⟨_, hn⟩
  · rename_i bytes hfile
    rw [hfile] at hn
    exact ⟨_, hn⟩

theorem Remote.mkdir_created {r r' : Remote} {p : Path} {now : Timestamp}
    (h : r.mkdir p now = some r') : r.nodes p = none ∧ r'.nodes p = some (.directory 4096) := by
  unfold Remote.mkdir at h
  split at h
  · cases h
  · rename_i hnone
    injection h with h
    subst h
    exact ⟨hnone, Function.update_self _ _ _⟩

theorem Remote.createSymlink_created {r r' : Remote} {p : Path} {target : String}
    {now : Timestamp} (h : r.createSymlink p target now = some r') :
    r.nodes p = none ∧ r'.nodes p = some (.symlink target) := by
  unfold Remote.createSymlink at h
  split at h
  · cases h
  · rename_i hnone
    injection h with h
    subst h
    exact ⟨hnone, Function.update_self _ _ _⟩

theorem Remote.rename_cases {r r' : Remote} {a b : Path} {flags : RenameFlags}
    (h : r.rename a b flags = some r') : r.nodes a ≠ none ∧
      ((flags.exchange = true ∧ r.nodes b ≠ none ∧ ¬a <+: b ∧ ¬b <+: a ∧
          r' = { r with nodes := relocateExchange r.nodes a b
                        info := relocateExchange r.info a b }) ∨
        (flags.exchange = false ∧ (flags.noreplace = true → r.nodes b = none) ∧
          (a = b ∨ ¬a <+: b ∧ ¬b <+: a) ∧
          r' = { r with nodes := r.nodes.rename a b
                        info := relocate r.info (r.info a) a b })) := by
  unfold Remote.rename at h
  split at h
  · cases h
  · rename_i ha
    refine ⟨ha, ?_⟩
    split at h
    · rename_i hflag
      split at h
      · cases h
      · rename_i hb
        simp only [not_or] at hb
        injection h with h
        exact Or.inl ⟨hflag, hb.1, hb.2.1, hb.2.2, h.symm⟩
    · rename_i hflag
      split at h
      · cases h
      · rename_i hreplace
        split at h
        · cases h
        · rename_i hab
          injection h with h
          refine Or.inr ⟨Bool.eq_false_iff.mpr hflag, ?_, ?_, h.symm⟩
          · exact fun hn => by_contra fun hb => hreplace ⟨hn, hb⟩
          · by_cases he : a = b
            · exact Or.inl he
            · exact Or.inr (not_or.mp fun hp => hab ⟨he, hp⟩)

structure Remote.MovedTo (r : Remote) (a : Path) (r' : Remote) (b : Path) : Prop where
  nodes : ∀ rest, r'.nodes (b ++ rest) = r.nodes (a ++ rest)
  info : ∀ rest, r'.info (b ++ rest) = r.info (a ++ rest)

namespace Remote.MovedTo

variable {r r' : Remote} {a b : Path}

theorem nodes_self (h : r.MovedTo a r' b) : r'.nodes b = r.nodes a := by
  have hnil := h.nodes []
  rwa [List.append_nil, List.append_nil] at hnil

theorem nodes_child (h : r.MovedTo a r' b) (name : OsString) :
    r'.nodes (b.child name) = r.nodes (a.child name) := h.nodes _

theorem getAttributes (h : r.MovedTo a r' b) : r'.getAttributes b = r.getAttributes a := by
  have hinfo := h.info []
  rw [List.append_nil, List.append_nil] at hinfo
  rw [Remote.getAttributes, Remote.getAttributes, h.nodes_self, hinfo]

theorem readSymlink (h : r.MovedTo a r' b) : r'.readSymlink b = r.readSymlink a := by
  rw [Remote.readSymlink, Remote.readSymlink, h.nodes_self]

end Remote.MovedTo

theorem Remote.movedTo_relocate (r : Remote) (a b : Path) :
    r.MovedTo a { r with nodes := r.nodes.rename a b
                         info := relocate r.info (r.info a) a b } b :=
  ⟨fun rest => relocate_below rest, fun rest => relocate_below rest⟩

theorem Remote.rename_movedTo {r r' : Remote} {a b : Path} {flags : RenameFlags}
    (h : r.rename a b flags = some r') (hflag : flags.exchange = false) : r.MovedTo a r' b := by
  rcases (Remote.rename_cases h).2 with ⟨hexchange, -⟩ | ⟨-, -, -, rfl⟩
  · cases hflag.symm.trans hexchange
  · exact r.movedTo_relocate a b

theorem Remote.rename_nodes {r r' : Remote} {a b : Path}
    (h : r.rename a b RenameFlags.empty = some r') : r'.nodes = r.nodes.rename a b := by
  rcases (Remote.rename_cases h).2 with ⟨hflag, -⟩ | ⟨-, -, -, rfl⟩
  · cases hflag
  · rfl

theorem Remote.remove_nodes {r r' : Remote} {p : Path} (h : r.remove p = some r') :
    r'.nodes = r.nodes.remove p := by
  unfold Remote.remove at h
  split at h
  · cases h
  · injection h with h; rw [← h]

section Holds

variable {r r' : Remote} {p q : Path} {x off : ℕ} {v : UInt8} {d : List UInt8} {now : Timestamp}

def Remote.Holds (r : Remote) (p : Path) (x : ℕ) (v : UInt8) : Prop :=
  ∃ bytes, r.nodes p = some (.file bytes) ∧ bytes[x]? = some v

theorem Remote.Holds.congr (h : r.Holds p x v) (hn : r'.nodes p = r.nodes p) : r'.Holds p x v := by
  obtain ⟨bytes, hp, hx⟩ := h
  exact ⟨bytes, hn.trans hp, hx⟩

theorem Remote.Holds.getAttributes {a : Attributes} (h : r.Holds p x v)
    (ha : r.getAttributes p = some a) : x < a.size := by
  obtain ⟨bytes, hp, hx⟩ := h
  rw [Remote.getAttributes, hp] at ha
  injection ha with ha
  rw [← ha]
  exact (List.getElem?_eq_some_iff.mp hx).1

theorem Remote.Holds.readFile {size : ℕ} {data : List UInt8} (h : r.Holds p x v)
    (hread : r.readFile p off size = some data) :
    (∀ i b, data[i]? = some b → off + i = x → b = v) ∧ (off = x → 0 < size → data ≠ []) := by
  obtain ⟨bytes, hp, hx⟩ := h
  rw [Remote.readFile, hp] at hread
  injection hread with hread
  subst hread
  constructor
  · rintro i b hb rfl
    rw [getElem?_slice] at hb
    split at hb
    · rw [hx] at hb
      injection hb with hb
      exact hb.symm
    · cases hb
  · rintro rfl hsize hnil
    have hb : (slice bytes off size)[0]? = some v := by
      rw [getElem?_slice, if_pos hsize]
      exact hx
    rw [hnil] at hb
    cases hb

theorem Remote.Holds.writeFile (h : r.Holds p x v)
    (hout : (Write.mk q off d).get p x = none) (hw : r.writeFile q off d now = some r') :
    r'.Holds p x v := by
  have hn := Remote.writeFile_nodes hw
  by_cases hq : q = p
  · subst hq
    obtain ⟨bytes, hp, hx⟩ := h
    refine ⟨writeAt 0 bytes off d, ?_, ?_⟩
    · rw [hn, Nodes.write, Function.update_self, hp]
      rfl
    · by_cases hd : d = []
      · rw [hd, writeAt_nil]
        exact hx
      · rw [getElem?_writeAt 0 bytes off hd]
        rcases (Write.get_eq_none.mp hout).resolve_left (fun hne => hne rfl) with hlt | hle
        · rw [if_pos hlt, hx, Option.getD_some]
        · rw [Write.stop] at hle
          dsimp only at hle
          rw [if_neg (by omega), if_neg (by omega)]
          exact hx
  · refine h.congr ?_
    rw [hn, Nodes.write, Function.update_of_ne (Ne.symm hq)]

theorem Remote.writeFile_holds (hin : (Write.mk q off d).get p x = some v)
    (hw : r.writeFile q off d now = some r') : r'.Holds p x v := by
  have hn := Remote.writeFile_nodes hw
  unfold Write.get at hin
  split at hin
  · rename_i hc
    dsimp only at hc hin
    obtain ⟨rfl, hle⟩ := hc
    have hlt := (List.getElem?_eq_some_iff.mp hin).1
    have hd : d ≠ [] := List.ne_nil_of_length_pos (by omega)
    have hput : ∀ bytes, (writeAt 0 bytes off d)[x]? = some v := by
      intro bytes
      rw [getElem?_writeAt 0 bytes off hd, if_neg (by omega), if_pos (by omega)]
      exact hin
    unfold Remote.writeFile at hw
    cases hp : r.nodes q with
    | none => exact ⟨_, by rw [hn, Nodes.write, Function.update_self, hp]; rfl, hput []⟩
    | some c =>
      rw [hp] at hw
      cases c with
      | file bytes => exact ⟨_, by rw [hn, Nodes.write, Function.update_self, hp]; rfl, hput bytes⟩
      | directory len => cases hw
      | symlink target => cases hw
  · cases hin

theorem Remote.Holds.setAttributes {a : SetAttr} (h : r.Holds p x v)
    (hsize : q = p → ∀ m, a.size = some m → x < m)
    (hset : r.setAttributes q a now = some r') : r'.Holds p x v := by
  cases ha : a.size with
  | none => exact h.congr (by rw [Remote.setAttributes_nodes ha hset])
  | some m =>
    obtain ⟨hn, -⟩ := Remote.setAttributes_size ha hset
    by_cases hq : q = p
    · subst hq
      obtain ⟨bytes, hp, hx⟩ := h
      refine ⟨resize 0 bytes m, ?_, ?_⟩
      · rw [hn, Nodes.setSize, Function.update_self, hp]
        rfl
      · rw [getElem?_resize, if_pos (hsize rfl m ha), hx, Option.getD_some]
    · refine h.congr ?_
      rw [hn, Nodes.setSize, Function.update_of_ne (Ne.symm hq)]

theorem Remote.Holds.created {c : Content} {info : Path → Meta} (h : r.Holds p x v)
    (hq : r.nodes q = none) :
    Remote.Holds { r with nodes := Function.update r.nodes q (some c), info := info } p x v := by
  refine h.congr ?_
  obtain ⟨bytes, hp, -⟩ := h
  refine Function.update_of_ne ?_ _ _
  rintro rfl
  rw [hp] at hq
  cases hq

theorem Remote.Holds.mkdir (h : r.Holds p x v) (hm : r.mkdir q now = some r') :
    r'.Holds p x v := by
  unfold Remote.mkdir at hm
  split at hm
  · cases hm
  · rename_i hq
    injection hm with hm
    exact hm ▸ h.created hq

theorem Remote.Holds.createSymlink {target : String} (h : r.Holds p x v)
    (hl : r.createSymlink q target now = some r') : r'.Holds p x v := by
  unfold Remote.createSymlink at hl
  split at hl
  · cases hl
  · rename_i hq
    injection hl with hl
    exact hl ▸ h.created hq

theorem Remote.Holds.remove (h : r.Holds p x v) (hq : q ≠ p) (hr : r.remove q = some r') :
    r'.Holds p x v := by
  refine h.congr ?_
  rw [Remote.remove_nodes hr, Nodes.remove, Function.update_of_ne (Ne.symm hq)]

theorem Remote.Holds.not_directory (h : r.Holds p x v) {len : ℕ} :
    r.nodes p ≠ some (.directory len) := by
  obtain ⟨bytes, hp, -⟩ := h
  rw [hp]
  exact fun hne => by cases hne

end Holds

section Agrees

variable {r r' : Remote} {p q : Path} {off : ℕ} {d : List UInt8} {now : Timestamp}

structure Remote.AgreesAt (r r' : Remote) (p : Path) : Prop where
  nodes : r'.nodes p = r.nodes p
  info : r'.info p = r.info p

theorem Remote.AgreesAt.getAttributes (h : r.AgreesAt r' p) :
    r'.getAttributes p = r.getAttributes p := by
  rw [Remote.getAttributes, Remote.getAttributes, h.nodes, h.info]

theorem Remote.AgreesAt.readSymlink (h : r.AgreesAt r' p) :
    r'.readSymlink p = r.readSymlink p := by
  rw [Remote.readSymlink, Remote.readSymlink, h.nodes]

theorem Remote.writeFile_agrees (hq : q ≠ p) (h : r.writeFile q off d now = some r') :
    r.AgreesAt r' p := by
  have hp := Ne.symm hq
  unfold Remote.writeFile at h
  split at h
  · cases h
  · cases h
  · injection h with h
    subst h
    exact ⟨Function.update_of_ne hp _ _, Function.update_of_ne hp _ _⟩
  · injection h with h
    subst h
    refine ⟨Function.update_of_ne hp _ _, ?_⟩
    dsimp only
    split
    · rfl
    · exact Function.update_of_ne hp _ _

theorem Remote.setAttributes_agrees {a : SetAttr} (hq : q ≠ p)
    (h : r.setAttributes q a now = some r') : r.AgreesAt r' p := by
  have hp := Ne.symm hq
  unfold Remote.setAttributes at h
  dsimp only at h
  split at h
  · cases h
  · injection h with h
    subst h
    exact ⟨rfl, Function.update_of_ne hp _ _⟩
  · injection h with h
    subst h
    exact ⟨Function.update_of_ne hp _ _, Function.update_of_ne hp _ _⟩
  · cases h

theorem Remote.setAttributes_readSymlink {a : SetAttr}
    (h : r.setAttributes q a now = some r') : r'.readSymlink p = r.readSymlink p := by
  by_cases hq : q = p
  · subst hq
    cases ha : a.size with
    | none => rw [Remote.readSymlink, Remote.readSymlink, Remote.setAttributes_nodes ha h]
    | some m =>
      obtain ⟨hn, bytes, hnode⟩ := Remote.setAttributes_size ha h
      rw [Remote.readSymlink, Remote.readSymlink, hn, Nodes.setSize, Function.update_self, hnode]
      rfl
  · exact (Remote.setAttributes_agrees hq h).readSymlink

theorem Remote.setAttributes_directory {a : SetAttr} {len : ℕ}
    (h : r.setAttributes q a now = some r') (hp : r.nodes p = some (.directory len)) :
    r'.nodes p = some (.directory len) := by
  by_cases hq : q = p
  · subst hq
    cases ha : a.size with
    | none => rw [Remote.setAttributes_nodes ha h, hp]
    | some m =>
      obtain ⟨-, bytes, hnode⟩ := Remote.setAttributes_size ha h
      cases hp.symm.trans hnode
  · rw [(Remote.setAttributes_agrees hq h).nodes, hp]

theorem Remote.mkdir_agrees (hq : q ≠ p) (h : r.mkdir q now = some r') : r.AgreesAt r' p := by
  have hp := Ne.symm hq
  unfold Remote.mkdir at h
  split at h
  · cases h
  · injection h with h
    subst h
    exact ⟨Function.update_of_ne hp _ _, Function.update_of_ne hp _ _⟩

theorem Remote.createSymlink_agrees {target : String} (hq : q ≠ p)
    (h : r.createSymlink q target now = some r') : r.AgreesAt r' p := by
  have hp := Ne.symm hq
  unfold Remote.createSymlink at h
  split at h
  · cases h
  · injection h with h
    subst h
    exact ⟨Function.update_of_ne hp _ _, Function.update_of_ne hp _ _⟩

theorem Remote.remove_agrees (hq : q ≠ p) (h : r.remove q = some r') : r.AgreesAt r' p := by
  unfold Remote.remove at h
  split at h
  · cases h
  · injection h with h
    subst h
    exact ⟨Function.update_of_ne (Ne.symm hq) _ _, rfl⟩

theorem Remote.rename_agrees {a b : Path} {flags : RenameFlags} (ha : ¬a <+: p) (hb : ¬b <+: p)
    (h : r.rename a b flags = some r') : r.AgreesAt r' p := by
  rcases (Remote.rename_cases h).2 with ⟨-, -, -, -, rfl⟩ | ⟨-, -, -, rfl⟩
  · have hsame : ∀ {β : Type} (f : Path → β), relocateExchange f a b p = f p := fun f => by
      rw [relocateExchange, if_neg hb, if_neg ha]
    exact ⟨hsame r.nodes, hsame r.info⟩
  · exact ⟨relocate_other hb ha, relocate_other hb ha⟩

theorem Remote.Holds.rename {a b : Path} {flags : RenameFlags} {x : ℕ} {v : UInt8}
    (h : r.Holds p x v) (ha : ¬a <+: p) (hb : ¬b <+: p)
    (hr : r.rename a b flags = some r') : r'.Holds p x v :=
  h.congr (Remote.rename_agrees ha hb hr).nodes

end Agrees

theorem Remote.listPath_attributes {r : Remote} {p : Path} {names : List String}
    {items : List Item} (h : r.listPath p names = some items) {item : Item} (hi : item ∈ items) :
    r.getAttributes (p.child item.name) = some item.attributes := by
  unfold Remote.listPath at h
  split at h
  · injection h with h
    subst h
    obtain ⟨name, -, hname⟩ := List.mem_filterMap.mp hi
    obtain ⟨c, hc, rfl⟩ := Option.map_eq_some_iff.mp hname
    exact Option.map_eq_some_iff.mpr ⟨c, hc, rfl⟩
  · cases h

end RemoteTree
