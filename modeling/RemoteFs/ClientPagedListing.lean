import RemoteFs.ClientDirectoryListing

/-! # Reading a directory in pages

The kernel resumes at the offset of the last entry it took, and an offset is a position in a
list that every call makes anew. -/
namespace ClientPagedListing

open ClientAttributes
open ClientCache
open ClientCalls
open ClientDirectoryListing
open ClientFileSystem
open ClientPageCache
open OsPaths
open RemoteTree

variable {L : PageLimits}

structure DirectoryEntry where
  offset : ℕ
  name : OsString
  kind : FileType
  deriving DecidableEq, Repr

structure DirectoryEntryPlus extends DirectoryEntry where
  attr : Attributes
  entryTtl : ℕ
  attrTtl : ℕ
  deriving DecidableEq, Repr

def fileType : ItemType → FileType
  | .file => .regularFile
  | .symLink => .symlink
  | .directory => .directory

/-- The entries of a reply: those from the offset on, each with the offset behind it. -/
def replyFrom {β : Type} (entry : ℕ → Item → β) (offset : ℕ) (items : List Item) : List β :=
  (items.drop offset).mapIdx fun idx item => entry (offset + idx + 1) item

def directoryEntry (offset : ℕ) (item : Item) : DirectoryEntry :=
  ⟨offset, item.name, fileType item.itemType⟩

def directoryEntryPlus (offset : ℕ) (item : Item) : DirectoryEntryPlus :=
  ⟨directoryEntry offset item, item.attributes, 0, 0⟩

namespace Fs

def readdir (fs : FileSystem L) (p : Path) (offset : ℕ) (env : Env) :
    Except FsModelError (List DirectoryEntry) × FileSystem L :=
  let items := fs.readdir p env
  (items.1.map (replyFrom directoryEntry offset), items.2)

def readdirplus (fs : FileSystem L) (p : Path) (offset : ℕ) (env : Env) :
    Except FsModelError (List DirectoryEntryPlus) × FileSystem L :=
  let items := fs.readdir p env
  (items.1.map (replyFrom directoryEntryPlus offset), items.2)

end Fs

def reply (plus : Bool) (fs : FileSystem L) (p : Path) (offset : ℕ) (env : Env) :
    Except FsModelError (List DirectoryEntry) × FileSystem L :=
  if plus then
    let done := Fs.readdirplus fs p offset env
    (done.1.map (List.map DirectoryEntryPlus.toDirectoryEntry), done.2)
  else Fs.readdir fs p offset env

/-- A reader of one directory: where it resumes, what it took, and in which order the children
were in the list behind the last reply. -/
structure Reader (L : PageLimits) where
  fs : FileSystem L
  offset : ℕ
  taken : List DirectoryEntry
  order : List OsString

def Reader.start (fs : FileSystem L) : Reader L := ⟨fs, 0, [], []⟩

inductive Step where
  | page (plus : Bool) (count : ℕ)
  | other (op : TreeOp)

def Reader.step (s : Reader L) (p : Path) : Step → Env → Reader L
  | .page plus count, env =>
    let done := reply plus s.fs p s.offset env
    match done.1 with
    | .error _ => { s with fs := done.2 }
    | .ok entries =>
      let taken := entries.take count
      { fs := done.2
        offset := (taken.getLast?.map DirectoryEntry.offset).getD s.offset
        taken := s.taken ++ taken
        order := listingOrder s.fs p env }
  | .other op, env => { s with fs := (op.toOp.run s.fs env).2 }

def Reader.run (p : Path) : Reader L → List (Step × Env) → Reader L
  | s, [] => s
  | s, (st, env) :: steps => Reader.run p (s.step p st env) steps

def Reader.names (s : Reader L) : List OsString := s.taken.map DirectoryEntry.name

section Replies

variable {fs : FileSystem L} {p : Path} {offset : ℕ} {env : Env} {items : List Item}

theorem names_replyFrom (offset : ℕ) (items : List Item) :
    (replyFrom directoryEntry offset items).map DirectoryEntry.name =
      (items.map Item.name).drop offset := by
  refine List.ext_getElem? fun i => ?_
  simp [replyFrom, directoryEntry, Function.comp_def]

theorem reply_eq (plus : Bool) (fs : FileSystem L) (p : Path) (offset : ℕ) (env : Env) :
    reply plus fs p offset env = Fs.readdir fs p offset env := by
  unfold reply
  split
  · unfold Fs.readdirplus Fs.readdir
    dsimp only
    cases (fs.readdir p env).1 with
    | error e => rfl
    | ok items =>
      have hentries : (replyFrom directoryEntryPlus offset items).map
          DirectoryEntryPlus.toDirectoryEntry = replyFrom directoryEntry offset items := by
        refine List.ext_getElem? fun i => ?_
        simp [replyFrom, directoryEntryPlus, Function.comp_def]
      exact congrArg (fun es => (Except.ok es, (fs.readdir p env).2)) hentries
  · rfl

/-- The offset of the last entry taken is the number of the entries in front of the next. -/
theorem offset_taken (offset count : ℕ) (items : List Item) :
    ((((replyFrom directoryEntry offset items).take count).getLast?.map
      DirectoryEntry.offset).getD offset) =
      offset + ((replyFrom directoryEntry offset items).take count).length := by
  obtain ⟨taken, htaken⟩ : ∃ taken, taken = (replyFrom directoryEntry offset items).take count :=
    ⟨_, rfl⟩
  rw [← htaken, List.getLast?_eq_getElem?]
  cases hlast : taken[taken.length - 1]? with
  | none =>
    have hlen := List.getElem?_eq_none_iff.mp hlast
    simp only [Option.map_none, Option.getD_none]
    omega
  | some e =>
    have hlen := (List.getElem?_eq_some_iff.mp hlast).1
    have hcount : taken.length - 1 < count := by
      rw [htaken, List.length_take] at hlen ⊢
      omega
    rw [htaken, List.getElem?_take_of_lt (by rw [← htaken]; exact hcount), ← htaken] at hlast
    obtain ⟨item, -, rfl⟩ : ∃ item, (items.drop offset)[taken.length - 1]? = some item ∧
        directoryEntry (offset + (taken.length - 1) + 1) item = e := by
      simpa [replyFrom] using hlast
    simp only [Option.map_some, Option.getD_some, directoryEntry]
    omega

end Replies

def full (order : List OsString) : List OsString := .text "." :: .text ".." :: order

def SameBefore (offset : ℕ) (order order' : List OsString) : Prop :=
  (order.take (offset - 2)).Perm (order'.take (offset - 2))

instance (offset : ℕ) (order order' : List OsString) : Decidable (SameBefore offset order order') :=
  inferInstanceAs (Decidable ((order.take (offset - 2)).Perm (order'.take (offset - 2))))

def SameContent (r r' : Remote) (p : Path) : Prop :=
  ∀ name, r.nodes (p.child name) = none ↔ r'.nodes (p.child name) = none

def Undisturbed (p : Path) : Reader L → List (Step × Env) → Prop
  | _, [] => True
  | s, (.page plus count, env) :: steps => ListsAll s.fs.remote p env ∧
      Undisturbed p (s.step p (.page plus count) env) steps
  | s, (.other op, env) :: steps => (Tree (op.toOp.run s.fs env).2.remote ∧
      (∀ q, op = .readdir q → ListsAll s.fs.remote q env) ∧
      (0 < s.offset → SameContent s.fs.remote (op.toOp.run s.fs env).2.remote p)) ∧
        Undisturbed p (s.step p (.other op) env) steps

/-- Every page that is answered is taken from a list with the same children in front of the
offset as the list before it, and renames in between leave nothing wrong in place. -/
def KeepsPlace (p : Path) : Reader L → List (Step × Env) → Prop
  | _, [] => True
  | s, (.page plus count, env) :: steps =>
      (∀ items, (s.fs.readdir p env).1 = .ok items →
        SameBefore s.offset s.order (listingOrder s.fs p env)) ∧
        KeepsPlace p (s.step p (.page plus count) env) steps
  | s, (.other op, env) :: steps =>
      (∀ a b flags, op = .rename a b flags → Fits s.fs a b flags) ∧
        KeepsPlace p (s.step p (.other op) env) steps

/-- The invariant: the entries taken are those in front of the offset in the last list. -/
structure InPlace (s : Reader L) (p : Path) : Prop where
  coherent : Coherent s.fs
  tree : Tree s.fs.remote
  names : s.names.Perm ((full s.order).take s.offset)
  offset_le : s.offset ≤ (full s.order).length
  order : 0 < s.offset → Children s.fs.remote p s.order

section Steps

variable {s : Reader L} {p : Path} {env : Env}

theorem SameBefore.full {offset : ℕ} {order order' : List OsString}
    (h : SameBefore offset order order') :
    ((full order).take offset).Perm ((full order').take offset) := by
  match offset, h with
  | 0, _ => exact List.Perm.refl _
  | 1, _ => exact List.Perm.refl _
  | offset + 2, h => exact (h.cons _).cons _

theorem SameContent.children {r r' : Remote} (h : SameContent r r' p) :
    Children r' p = Children r p := by
  have hname : ∀ name, r.nodes (p.child name) = none ↔ r'.nodes (p.child name) = none := h
  funext names
  simp only [Children, ne_eq, hname]

theorem children_perm {r : Remote} {names names' : List OsString} (h : Children r p names)
    (h' : Children r p names') : names.Perm names' :=
  (List.perm_ext_iff_of_nodup h.1 h'.1).mpr fun name => (h.2 name).trans (h'.2 name).symm

theorem page_remote (s : Reader L) (p : Path) (plus : Bool) (count : ℕ) (env : Env) :
    (s.step p (.page plus count) env).fs.remote = s.fs.remote := by
  have hfetched : Fetched p 0 (fun _ => True) (fun _ => True) s.fs (s.fs.readdir p env).2 :=
    fetched_readdir aboutPages_true (fun _ => Nat.zero_le _) (fun _ _ => trivial)
      (fun _ _ _ => trivial) p
  simp only [Reader.step, reply_eq, Fs.readdir]
  cases (s.fs.readdir p env).1 with
  | error e => exact hfetched.remote
  | ok items => exact hfetched.remote

theorem InPlace.page {plus : Bool} {count : ℕ} (h : InPlace s p)
    (hl : ListsAll s.fs.remote p env)
    (hsame : ∀ items, (s.fs.readdir p env).1 = .ok items →
      SameBefore s.offset s.order (listingOrder s.fs p env)) :
    InPlace (s.step p (.page plus count) env) p := by
  have hremote := page_remote s p plus count env
  have hdone := h.coherent.readdir hl
  simp only [Reader.step, reply_eq, Fs.readdir] at hremote ⊢
  cases hres : (s.fs.readdir p env).1 with
  | error e =>
    rw [hres] at hremote
    exact ⟨hdone, hremote ▸ h.tree, h.names, h.offset_le, hremote ▸ h.order⟩
  | ok items =>
    rw [hres] at hremote
    obtain ⟨self, parent, children, hitems, horder, hexact⟩ := readdir_result h.coherent hl hres
    have hchildren : Children s.fs.remote p (listingOrder s.fs p env) := horder ▸ hexact.names
    have hfull : items.map Item.name = full (listingOrder s.fs p env) := by
      rw [hitems, ← horder]
      rfl
    obtain ⟨order, horder'⟩ : ∃ order, order = listingOrder s.fs p env := ⟨_, rfl⟩
    rw [← horder'] at hchildren hfull hsame
    have hle : s.offset ≤ (full order).length := by
      by_cases hpos : 0 < s.offset
      · have hlen := (children_perm (h.order hpos) hchildren).length_eq
        have := h.offset_le
        simp only [full, List.length_cons] at this ⊢
        omega
      · omega
    simp only [Except.map, ← horder', offset_taken]
    obtain ⟨taken, htaken⟩ : ∃ taken,
        taken = (replyFrom directoryEntry s.offset items).take count := ⟨_, rfl⟩
    rw [← htaken]
    have hcount : taken.map DirectoryEntry.name = ((full order).drop s.offset).take count := by
      rw [htaken, List.map_take, names_replyFrom, hfull]
    have hlen : taken.length = min count ((full order).length - s.offset) := by
      simpa using congrArg List.length hcount
    have hnames : taken.map DirectoryEntry.name =
        ((full order).drop s.offset).take taken.length := by
      rw [hcount, List.take_eq_take_iff, List.length_drop, hlen]
      omega
    have htotal : s.offset + taken.length ≤ (full order).length := by omega
    refine ⟨hdone, hremote ▸ h.tree, ?_, htotal, fun _ => hremote ▸ hchildren⟩
    rw [Reader.names, List.map_append, hnames, List.take_add]
    exact ((h.names.trans (hsame items hres).full).append_right _)

theorem InPlace.other {op : TreeOp} (h : InPlace s p)
    (htree' : Tree (op.toOp.run s.fs env).2.remote)
    (hl : ∀ q, op = .readdir q → ListsAll s.fs.remote q env)
    (hsame : 0 < s.offset → SameContent s.fs.remote (op.toOp.run s.fs env).2.remote p)
    (hfit : ∀ a b flags, op = .rename a b flags → Fits s.fs a b flags) :
    InPlace (s.step p (.other op) env) p where
  coherent := run_coherent h.coherent h.tree htree' hl hfit
  tree := htree'
  names := h.names
  offset_le := h.offset_le
  order hpos := by
    change Children (op.toOp.run s.fs env).2.remote p s.order
    rw [(hsame hpos).children]
    exact h.order hpos

theorem run_inPlace (steps : List (Step × Env)) : ∀ s : Reader L, InPlace s p →
    Undisturbed p s steps → KeepsPlace p s steps → InPlace (s.run p steps) p := by
  induction steps with
  | nil => exact fun _ h _ _ => h
  | cons head steps ih =>
    obtain ⟨st, env⟩ := head
    cases st with
    | page plus count =>
      rintro s h ⟨hl, hrest⟩ ⟨hsame, hrest'⟩
      exact ih _ (h.page hl hsame) hrest hrest'
    | other op =>
      rintro s h ⟨⟨htree', hl, hsame⟩, hrest⟩ ⟨hfit, hrest'⟩
      exact ih _ (h.other htree' hl hsame hfit) hrest hrest'

end Steps

/-- When the reply is empty, the entries taken are `.`, `..` and every child, each once. -/
theorem paged_reading_exact (remote : Remote) (capacity now : ℕ) (cache : Option (Cache L))
    (hempty : ∀ c, cache = some c → c.entries = ∅) (htree : Tree remote) (p : Path)
    (steps : List (Step × Env))
    (hquiet : Undisturbed p (.start (.new remote capacity now cache)) steps)
    (hkeep : KeepsPlace p (.start (.new remote capacity now cache)) steps)
    (s : Reader L) (hs : s = Reader.run p (.start (.new remote capacity now cache)) steps)
    (plus : Bool) (env : Env) (hl : ListsAll s.fs.remote p env)
    (hend : (reply plus s.fs p s.offset env).1 = .ok []) :
    ∃ children, Children s.fs.remote p children ∧
      s.names.Perm (.text "." :: .text ".." :: children) := by
  have hstart : InPlace (.start (.new remote capacity now cache)) p :=
    ⟨coherent_new remote capacity now cache hempty, htree, List.Perm.refl _, Nat.zero_le _,
      fun h => absurd h (Nat.lt_irrefl 0)⟩
  have h := run_inPlace steps _ hstart hquiet hkeep
  rw [← hs] at h
  rw [reply_eq, Fs.readdir] at hend
  cases hres : (s.fs.readdir p env).1 with
  | error e =>
    rw [hres] at hend
    cases hend
  | ok items =>
    rw [hres] at hend
    have hnil := congrArg (List.map DirectoryEntry.name) (Except.ok.inj hend)
    obtain ⟨self, parent, children, hitems, horder, hexact⟩ := readdir_result h.coherent hl hres
    rw [names_replyFrom, hitems, List.map_nil, List.drop_eq_nil_iff] at hnil
    simp only [List.map_cons, List.length_cons] at hnil
    have hlast := h.order (by omega)
    have hlen := (children_perm hlast hexact.names).length_eq
    have hle := h.offset_le
    have hnames := h.names
    rw [List.take_of_length_le (by simp only [full, List.length_cons]; omega)] at hnames
    exact ⟨s.order, hlast, hnames⟩

def twoFiles : Remote :=
  { Remote.empty 0 0 with
    nodes := Function.update (Function.update (Function.update (fun _ => none) rootPath
      (some (.directory 4096))) (rootPath.child (.text "a")) (some (.file [])))
      (rootPath.child (.text "b")) (some (.file [])) }

theorem twoFiles_nodes {q : Path} (h : twoFiles.nodes q ≠ none) :
    q = rootPath ∨ q = rootPath.child (.text "a") ∨ q = rootPath.child (.text "b") := by
  by_contra hne
  simp only [not_or] at hne
  apply h
  simp [twoFiles, Function.update_of_ne, hne]

theorem paged_reading_exact_ordered :
    let L : PageLimits := ⟨4, 4, by decide⟩
    let env : Env := fun i => { Env.steady 0 none i with listing := ["a", "b"] }
    let s : Reader L := Reader.run rootPath (.start (.new twoFiles 4 0 none))
      [(.page false 3, env), (.page true 1, env)]
    (reply false s.fs rootPath s.offset env).1 = .ok [] ∧
      ∃ children, Children s.fs.remote rootPath children ∧
        s.names.Perm (.text "." :: .text ".." :: children) := by
  intro L env s
  have htree : Tree twoFiles := by
    refine ⟨⟨4096, by decide⟩, fun q hq hroot => ?_⟩
    rcases (twoFiles_nodes hq).resolve_left hroot with rfl | rfl
    · exact ⟨rootPath, .text "a", 4096, rfl, by decide⟩
    · exact ⟨rootPath, .text "b", 4096, rfl, by decide⟩
  have hl : ListsAll twoFiles rootPath env := by
    have hnodup : ["a", "b"].Nodup := by decide
    refine fun i _ _ => ⟨hnodup, fun name hname => ?_⟩
    rcases twoFiles_nodes hname with h | h | h
    · simp [Path.child, rootPath] at h
    · exact ⟨"a", List.mem_cons_self, by simpa [Path.child, rootPath] using h⟩
    · exact ⟨"b", List.mem_cons_of_mem _ List.mem_cons_self,
        by simpa [Path.child, rootPath] using h⟩
  have hfirst := page_remote (.start (.new twoFiles 4 0 none) : Reader L) rootPath false 3 env
  have hquiet : Undisturbed rootPath (.start (.new twoFiles 4 0 none) : Reader L)
      [(.page false 3, env), (.page true 1, env)] := by
    refine ⟨hl, ?_, trivial⟩
    rw [hfirst]
    exact hl
  have hkeep : KeepsPlace rootPath (.start (.new twoFiles 4 0 none) : Reader L)
      [(.page false 3, env), (.page true 1, env)] := by
    refine ⟨fun _ _ => ?_, fun _ _ => ?_, trivial⟩
    · decide
    · decide
  have hend : (reply false s.fs rootPath s.offset env).1 = .ok [] := by decide
  have hremote : s.fs.remote = twoFiles := by
    simp only [s, Reader.run, page_remote]
    rfl
  have hlast : ListsAll s.fs.remote rootPath env := by
    rw [hremote]
    exact hl
  exact ⟨hend, paged_reading_exact twoFiles 4 0 none (by rintro _ ⟨⟩) htree rootPath _ hquiet
    hkeep s rfl false env hlast hend⟩

/-- Without a cache the server's order decides: the second page has the child of the first once
more, and the other child on none. -/
theorem reordered_child_is_missed :
    let L : PageLimits := ⟨4, 4, by decide⟩
    let env := Env.steady 0 none
    let listing (names : List String) : Env := fun i => { env i with listing := names }
    let s : Reader L := Reader.run rootPath (.start (.new twoFiles 4 0 none))
      [(.page false 3, listing ["a", "b"]), (.page false 1, listing ["b", "a"])]
    s.names = [.text ".", .text "..", .text "a", .text "a"] ∧
      (reply false s.fs rootPath s.offset (listing ["a", "b"])).1 = .ok [] ∧
      s.fs.remote.nodes (rootPath.child (.text "b")) = some (.file []) := by
  decide

end ClientPagedListing
