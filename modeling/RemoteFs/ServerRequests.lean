import RemoteFs.ServerFileSystem
import RemoteFs.ServerXattributeMoves

/-! # The requests that change the tree or the attribute table

A handler checks what the user may do, changes the tree, and then the table. What one of its
parts has done stays where a later part fails. -/
namespace ServerRequests

open ClientAttributes
open OsPaths
open PosixTree
open PosixFileTree
open PosixCalls
open ServerPaths
open ServerDatabase
open ServerStorage
open ServerFileSystem
open ServerXattributes
open ServerXattributeMoves

structure Server where
  tree : FileTree
  xattributes : Xattributes

def within (before : String) : Message → Message
  | .text s => .text (before ++ s)
  | .sql b e after => .sql (before ++ b) e after
  | .jwt => .jwt

def ofDatabase : DatabaseError → ApiError
  | .queryError m => .internalError (within "Database query error: " m)
  | .other m => .internalError (within "Database other error: " m)

inductive Reply where
  | attributes (attributes : Attributes)
  | done
  deriving DecidableEq, Repr

abbrev Answer := Except ApiError Reply × Server

def thenTree {α : Type} (s : Server) (r : ServerFileSystem.Result α) (next : α → Server → Answer) :
    Answer :=
  match r with
  | (.ok a, t) => next a { s with tree := t }
  | (.error e, t) => (.error (.ofStorage e), { s with tree := t })

def thenTable (s : Server) (r : ServerXattributes.Result Unit) : Answer :=
  match r with
  | (.ok (), x) => (.ok .done, { s with xattributes := x })
  | (.error e, x) => (.error (ofDatabase e), { s with xattributes := x })

variable (fs : FileSystem)

def checked (s : Server) (user : AuthenticatedUser) (path : Path) (next : Answer) : Answer :=
  match Routes.checkPermission fs s.tree.objects user path .write with
  | .ok () => next
  | .error e => (.error e, s)

def getAttributes (path : Path) (s : Server) : Answer :=
  match getAttributesByPath s.tree.objects (makeRealPath fs.realPath path) with
  | .ok a => (.ok (.attributes a), s)
  | .error e => (.error (.ofStorage e), s)

def writeFile (s : Server) (user : AuthenticatedUser) (path : String) (body : List UInt8)
    (offset : ℕ) (now : Timestamp) : Answer :=
  checked fs s user (components path) <|
    thenTree s (ServerFileSystem.writeFile fs s.tree user (components path) body offset now)
      fun _ => getAttributes fs (components path)

def rsplitOnce (path : String) : Option (String × String) :=
  match path.toList.reverse.dropWhile (· ≠ '/') with
  | [] => none
  | _ :: before => some (String.ofList before.reverse,
      String.ofList (path.toList.reverse.takeWhile (· ≠ '/')).reverse)

def makeDirectory (s : Server) (user : AuthenticatedUser) (path : String) (len : ℕ)
    (now : Timestamp) : Answer :=
  match rsplitOnce path with
  | none => (.error (.invalidInput "Invalid path"), s)
  | some (p, name) =>
    let parent := components (if p = "" then "/" else p)
    checked fs s user parent <|
      thenTree s (makeDir fs s.tree user parent (components name) len now)
        fun _ => getAttributes fs (components path)

def deleteItem (s : Server) (user : AuthenticatedUser) (path : String) : Answer :=
  checked fs s user (components path) <|
    thenTree s (delete fs s.tree (components path)) fun _ s =>
      thenTable s (removeAllXAttributes s.xattributes path)

def rename (s : Server) (user : AuthenticatedUser) (oldPath newPath : String) (flags : ℕ) :
    Answer :=
  let flags := RenameFlags.fromBitsTruncate flags
  checked fs s user (components oldPath) <| checked fs s user (components newPath) <|
    thenTree s (ServerFileSystem.rename fs s.tree (components oldPath) (components newPath) flags)
      fun _ s =>
        if flags.exchange then thenTable s (exchangeXAttributes s.xattributes oldPath newPath)
        else thenTable s (renameXAttributes s.xattributes oldPath newPath)

def createSymlink (s : Server) (user : AuthenticatedUser) (path target : String)
    (now : Timestamp) : Answer :=
  checked fs s user (components path) <|
    thenTree s (ServerFileSystem.createSymlink fs s.tree (components path) target now)
      fun a s => (.ok (.attributes a), s)

def setXAttributes (s : Server) (user : AuthenticatedUser) (path name : String)
    (xattributes : List UInt8) : Answer :=
  checked fs s user (components path) <|
    thenTable s (ServerXattributes.setXAttributes s.xattributes path name xattributes)

def deleteXAttributes (s : Server) (user : AuthenticatedUser) (path name : String) : Answer :=
  checked fs s user (components path) <|
    thenTable s (removeXAttributes s.xattributes path name)

inductive Request where
  | writeFile (path : String) (body : List UInt8) (offset : ℕ)
  | makeDirectory (path : String)
  | createSymlink (path target : String)
  | rename (oldPath newPath : String) (flags : ℕ)
  | deleteItem (path : String)
  | setXAttributes (path name : String) (xattributes : List UInt8)
  | deleteXAttributes (path name : String)
  deriving DecidableEq, Repr

/-- What the operating system adds to a request: the time, and the size of a new directory. -/
structure Moment where
  now : Timestamp
  len : ℕ
  deriving DecidableEq, Repr

def serve (s : Server) (user : AuthenticatedUser) (m : Moment) : Request → Answer
  | .writeFile path body offset => writeFile fs s user path body offset m.now
  | .makeDirectory path => makeDirectory fs s user path m.len m.now
  | .createSymlink path target => createSymlink fs s user path target m.now
  | .rename oldPath newPath flags => rename fs s user oldPath newPath flags
  | .deleteItem path => deleteItem fs s user path
  | .setXAttributes path name xattributes => setXAttributes fs s user path name xattributes
  | .deleteXAttributes path name => deleteXAttributes fs s user path name

theorem rsplitOnce_some {path before name : String} (h : rsplitOnce path = some (before, name)) :
    path.toList = before.toList ++ '/' :: name.toList ∧ '/' ∉ name.toList := by
  unfold rsplitOnce at h
  split at h
  · cases h
  · rename_i c reversed hdrop
    obtain ⟨rfl, rfl⟩ := Prod.mk.inj (Option.some.inj h)
    have hne : path.toList.reverse.dropWhile (· ≠ '/') ≠ [] := by
      rw [hdrop]
      exact nofun
    have hc : c = '/' := by
      have hhead := List.head_dropWhile_not (· ≠ '/') hne
      simp only [hdrop, List.head_cons, decide_eq_false_iff_not, not_not] at hhead
      exact hhead
    have hsplit := List.takeWhile_append_dropWhile (p := (· ≠ '/')) (l := path.toList.reverse)
    rw [hdrop, hc] at hsplit
    have hrev := congrArg List.reverse hsplit
    rw [List.reverse_append, List.reverse_reverse, List.reverse_cons, List.append_assoc,
      List.singleton_append] at hrev
    refine ⟨?_, fun hmem => ?_⟩
    · rw [String.toList_ofList, String.toList_ofList]
      exact hrev.symm
    · rw [String.toList_ofList, List.mem_reverse] at hmem
      have hall := List.all_eq_true.mp List.all_takeWhile _ hmem
      exact of_decide_eq_true hall rfl

theorem makeRealPath_rsplitOnce (root : List OsString) {path before name : String}
    (h : rsplitOnce path = some (before, name)) :
    makeRealPath (absolute root) (components path) =
      (makeRealPath (absolute root) (components (if before = "" then "/" else before))).join
        (components name) := by
  obtain ⟨hpath, hname⟩ := rsplitOnce_some h
  have hbefore : segments (if before = "" then "/" else before) = segments before := by
    split
    · rename_i hempty
      rw [hempty]
      decide
    · rfl
  have hsegments : segments path = segments before ++ segments name := by
    have happ := segments_append before.toList name.toList
    rwa [← hpath, String.ofList_toList, String.ofList_toList, String.ofList_toList] at happ
  have hrel := components_relative (s := name) fun hhead => hname (List.mem_of_mem_head? hhead)
  have hnames := components_names name
  have hroot : (components name).filter (· ≠ .rootDir) = components name := by
    refine List.filter_eq_self.mpr fun c hc => decide_eq_true ?_
    rintro rfl
    exact hrel hc
  rw [hroot] at hnames
  rw [makeRealPath_components, makeRealPath_components, hbefore, hsegments,
    List.map_append, List.filter_append, Path.join, if_neg, if_neg (by simp [absolute]), hnames,
    List.append_assoc]
  exact fun hhead => hrel (List.mem_of_mem_head? hhead)

section Answers

variable {fs : FileSystem} {s : Server} {user : AuthenticatedUser} {path : Path} {a : Reply}

theorem checked_ok {next : Answer} (h : (checked fs s user path next).1 = .ok a) :
    Routes.checkPermission fs s.tree.objects user path .write = .ok () ∧
      checked fs s user path next = next := by
  unfold checked at h ⊢
  cases hc : Routes.checkPermission fs s.tree.objects user path .write with
  | ok u => exact ⟨rfl, rfl⟩
  | error e =>
    rw [hc] at h
    cases h

theorem thenTree_ok {α : Type} {r : ServerFileSystem.Result α} {next : α → Server → Answer}
    (h : (thenTree s r next).1 = .ok a) :
    ∃ x t, r = (.ok x, t) ∧ thenTree s r next = next x { s with tree := t } := by
  obtain ⟨res, t⟩ := r
  cases res with
  | ok x => exact ⟨x, t, rfl, rfl⟩
  | error e => cases h

theorem thenTable_ok {r : ServerXattributes.Result Unit} (h : (thenTable s r).1 = .ok a) :
    ∃ x, r = (.ok (), x) ∧ thenTable s r = (.ok .done, { s with xattributes := x }) := by
  obtain ⟨res, x⟩ := r
  cases res with
  | ok u => exact ⟨x, rfl, rfl⟩
  | error e => cases h

theorem rename_ok {oldPath newPath : String} {flags : ℕ}
    (hx : (RenameFlags.fromBitsTruncate flags).exchange = false)
    (h : (rename fs s user oldPath newPath flags).1 = .ok a) :
    ∃ t x, ServerFileSystem.rename fs s.tree (components oldPath) (components newPath)
        (.fromBitsTruncate flags) = (.ok (), t) ∧
      renameXAttributes s.xattributes oldPath newPath = (.ok (), x) ∧
      rename fs s user oldPath newPath flags = (.ok .done, ⟨t, x⟩) := by
  unfold rename at h ⊢
  dsimp only at h ⊢
  simp only [hx, Bool.false_eq_true, ↓reduceIte] at h ⊢
  obtain ⟨-, heq⟩ := checked_ok h
  rw [heq] at h ⊢
  obtain ⟨-, heq⟩ := checked_ok h
  rw [heq] at h ⊢
  obtain ⟨u, t, ht, heq⟩ := thenTree_ok h
  rw [heq] at h ⊢
  obtain ⟨x, hx, heq⟩ := thenTable_ok h
  exact ⟨t, x, ht, hx, heq⟩

end Answers

end ServerRequests
