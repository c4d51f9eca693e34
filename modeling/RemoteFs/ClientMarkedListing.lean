import RemoteFs.ClientListedNames
import RemoteFs.ClientPagedListing
import RemoteFs.FileTimes
import RemoteFs.ResumedListing
import RemoteFs.Utf16
import RemoteFs.Utf8Lossy
import Mathlib.Data.String.Basic

/-! # Reading a directory by markers

On Windows a page resumes behind the marker, which is the name of the last entry before it. The
directory is listed and sorted anew for every page; a marker that is no longer listed counts as
none. -/
namespace ClientMarkedListing

open ClientAttributes
open ClientCache
open ClientCalls
open ClientConfiguration (next)
open ClientDirectoryListing
open ClientFileSystem
open ClientListedNames
open ClientPageCache
open ClientPagedListing (full twoFiles)
open ClientStaleness (Event)
open FileTimes
open OsPaths
open RemoteTree
open ResumedListing
open Utf8Lossy

variable {L : PageLimits}

structure FileInfo where
  fileAttributes : ℕ
  fileSize : ℕ
  allocationSize : ℕ
  creationTime : ℕ
  lastAccessTime : ℕ
  lastWriteTime : ℕ
  changeTime : ℕ
  indexNumber : ℕ
  hardLinks : ℕ
  eaSize : ℕ
  deriving DecidableEq, Repr

def fileAttributeDirectory : ℕ := 0x10

def fileAttributeNormal : ℕ := 0x80

/-- `fill_file_info`; `none` is a panic. -/
def fillFileInfo (checks : Bool) (attr : Attributes) : Option FileInfo := do
  let allocationSize ←
    if 0 < attr.blocks ∧ 0 < attr.blksize then u64 checks (attr.blocks * attr.blksize)
    else some attr.size
  let creationTime ← unixToFiletime checks attr.ctime
  let lastAccessTime ← unixToFiletime checks attr.atime
  let lastWriteTime ← unixToFiletime checks attr.mtime
  let changeTime ← unixToFiletime checks attr.ctime
  some {
    fileAttributes :=
      if attr.kind = .directory then fileAttributeDirectory else fileAttributeNormal
    fileSize := attr.size
    allocationSize := allocationSize
    creationTime := creationTime
    lastAccessTime := lastAccessTime
    lastWriteTime := lastWriteTime
    changeTime := changeTime
    indexNumber := 0
    hardLinks := 1
    eaSize := 0 }

structure DirInfo where
  name : String
  fileInfo : FileInfo
  deriving DecidableEq, Repr

def DirInfo.fileName (entry : DirInfo) : List UInt16 := Utf16.encode entry.name.toList

/-- What WinFsp does with an entry and a buffer of some length: whether the name has room in the
entry, the cursor behind the entry if it has room in the buffer, and the cursor at the end. -/
structure Winfsp where
  setName : List UInt16 → Bool
  appendToBuffer : ℕ → ℕ → DirInfo → Option ℕ
  finalizeBuffer : ℕ → ℕ → ℕ

inductive ReadDirectoryError where
  | fsModel (error : FsModelError)
  | setName
  | panic
  deriving DecidableEq, Repr

/-- What is in the buffer, what the loop left out, and the cursor. -/
structure Page where
  entries : List DirInfo
  left : List Item
  cursor : ℕ
  deriving DecidableEq, Repr

def toStringLossy : OsString → String
  | .text s => s
  | .raw bytes => .ofList (fromUtf8Lossy bytes)

def nameOf (item : Item) : String := toStringLossy item.name

namespace FileSystemContext

def sortByName (items : List Item) : List Item :=
  items.insertionSort fun a b => nameOf a ≤ nameOf b

/-- A marker that is no text counts as none. -/
def markerName (marker : Option (List UInt16)) : Option String :=
  (marker.bind Utf16.decode).map .ofList

def start (items : List Item) (marker : Option (List UInt16)) : ℕ :=
  match markerName marker with
  | none => 0
  | some name =>
    match items.findIdx? fun e => nameOf e == name with
    | some pos => pos + 1
    | none => 0

def emit (W : Winfsp) (checks : Bool) (length : ℕ) :
    List Item → ℕ → Except ReadDirectoryError Page
  | [], cursor => .ok ⟨[], [], cursor⟩
  | item :: items, cursor =>
    match fillFileInfo checks item.attributes with
    | none => .error .panic
    | some info =>
      let entry : DirInfo := ⟨nameOf item, info⟩
      if W.setName entry.fileName then
        match W.appendToBuffer length cursor entry with
        | none => .ok ⟨[], item :: items, cursor⟩
        | some cursor => (emit W checks length items cursor).map fun page =>
            { page with entries := entry :: page.entries }
      else .error .setName

def readDirectory (W : Winfsp) (checks : Bool) (fs : FileSystem L) (p : Path)
    (marker : Option (List UInt16)) (length : ℕ) (env : Env) :
    Except ReadDirectoryError Page × FileSystem L :=
  let listed := fs.readdir p env
  match listed.1 with
  | .error e => (.error (.fsModel e), listed.2)
  | .ok items =>
    let items := sortByName items
    let page := emit W checks length (items.drop (start items marker)) 0
    (page.map fun page => { page with cursor := W.finalizeBuffer length page.cursor }, listed.2)

end FileSystemContext

open FileSystemContext

/-- A reader of one directory: the entries it has got, whether the last page went to the end of
the listing, and what its answered calls met. -/
structure Reader (L : PageLimits) where
  fs : FileSystem L
  entries : List DirInfo
  ended : Bool
  calls : List (FileSystem L × Env)

inductive Step where
  | page (length : ℕ) (env : Env)
  | event (event : Event)

namespace Reader

def start (fs : FileSystem L) : Reader L := ⟨fs, [], false, []⟩

def names (s : Reader L) : List String := s.entries.map DirInfo.name

def marker (s : Reader L) : Option (List UInt16) := s.entries.getLast?.map DirInfo.fileName

variable (W : Winfsp) (checks : Bool) (p : Path)

def page (s : Reader L) (length : ℕ) (env : Env) : Except ReadDirectoryError Page :=
  (readDirectory W checks s.fs p s.marker length env).1

def step (s : Reader L) : Step → Reader L
  | .page length env =>
    let done := readDirectory W checks s.fs p s.marker length env
    match done.1 with
    | .error _ => { s with fs := done.2 }
    | .ok page =>
      { fs := done.2
        entries := s.entries ++ page.entries
        ended := page.left.isEmpty
        calls := s.calls ++ [(s.fs, env)] }
  | .event event => { s with fs := next s.fs event }

def run (s : Reader L) (steps : List Step) : Reader L := steps.foldl (step W checks p) s

def Always (P : Reader L → Prop) : Reader L → List Step → Prop
  | s, [] => P s
  | s, st :: steps => P s ∧ Always P (s.step W checks p st) steps

end Reader

def listing (p : Path) (call : FileSystem L × Env) : List String :=
  (full (listingOrder call.1 p call.2)).map toStringLossy

def Lists (p : Path) (name : String) (call : FileSystem L × Env) : Prop := name ∈ listing p call

def Has (p : Path) (name : String) (call : FileSystem L × Env) : Prop :=
  name = "." ∨ name = ".." ∨ call.1.remote.nodes (p.child (.text name)) ≠ none

def UpToDate (p : Path) (call : FileSystem L × Env) : Prop :=
  ∀ name, call.1.remote.nodes (p.child (.text name)) ≠ none →
    .text name ∈ listingOrder call.1 p call.2

/-- No name is given twice, the names increase, and an entry that was there in every call is
given, or is still to come after all that are. -/
structure Resumes (There : String → FileSystem L × Env → Prop) (s : Reader L) : Prop where
  once : s.names.Nodup
  increasing : s.names.Pairwise (· < ·)
  complete : ∀ name, (∀ call ∈ s.calls, There name call) →
    name ∈ s.names ∨ s.ended = false ∧ ∀ n ∈ s.names, n < name

section Conditions

variable (W : Winfsp) (checks : Bool) (p : Path)

/-- In every call that is answered, the marker is listed or comes before all that is. -/
def MarkersFound : Reader L → List Step → Prop
  | _, [] => True
  | s, .page length env :: steps =>
    (∀ page, s.page W checks p length env = .ok page →
      Found s.names.getLast? (listing p (s.fs, env))) ∧
      MarkersFound (s.step W checks p (.page length env)) steps
  | s, .event event :: steps => MarkersFound (s.step W checks p (.event event)) steps

def TakesFirst (length : ℕ) : List Item → Prop
  | [] => True
  | item :: _ => ∀ info, fillFileInfo checks item.attributes = some info →
      W.setName (DirInfo.fileName ⟨nameOf item, info⟩) →
        (W.appendToBuffer length 0 ⟨nameOf item, info⟩).isSome

def Roomy : Reader L → List Step → Prop
  | _, [] => True
  | s, .page length env :: steps =>
    (∀ items, (s.fs.readdir p env).1 = .ok items → TakesFirst W checks length
      ((sortByName items).drop (start (sortByName items) s.marker))) ∧
      Roomy (s.step W checks p (.page length env)) steps
  | s, .event event :: steps => Roomy (s.step W checks p (.event event)) steps

def StepLists : Step → Prop
  | .page _ env => ListsOnce env
  | .event event => EventLists event

end Conditions

section Pages

variable {W : Winfsp} {checks : Bool} {length : ℕ} {items : List Item} {page : Page}

theorem sortByName_perm (items : List Item) : (sortByName items).Perm items :=
  List.perm_insertionSort _ items

theorem sortByName_increasing (h : (items.map nameOf).Nodup) :
    ((sortByName items).map nameOf).Pairwise (· < ·) := by
  have hsorted : (sortByName items).Pairwise fun a b => nameOf a ≤ nameOf b := by
    have : Std.Total fun a b : Item => nameOf a ≤ nameOf b := ⟨fun a b => le_total _ _⟩
    have : IsTrans Item fun a b => nameOf a ≤ nameOf b := ⟨fun _ _ _ => le_trans⟩
    exact List.pairwise_insertionSort _ items
  have hnodup : ((sortByName items).map nameOf).Nodup :=
    ((sortByName_perm items).map nameOf).nodup_iff.mpr h
  rw [List.pairwise_map]
  exact (hsorted.and (List.pairwise_map.mp hnodup)).imp fun h => h.1.lt_of_ne h.2

theorem markerName_fileName (entry : DirInfo) :
    markerName (some entry.fileName) = some entry.name := by
  rw [markerName, Option.bind_some, DirInfo.fileName, Utf16.decode_encode, Option.map_some,
    String.ofList_toList]

theorem start_eq_place (items : List Item) (entries : List DirInfo) :
    start items (entries.getLast?.map DirInfo.fileName) =
      place (entries.map DirInfo.name).getLast? (items.map nameOf) := by
  rw [List.getLast?_map, start, place.eq_def]
  cases entries.getLast? with
  | none => rfl
  | some entry =>
    rw [Option.map_some, markerName_fileName, Option.map_some]
    dsimp only
    rw [List.findIdx?_map]
    rfl

/-- The entries of a page and what it leaves out are the items, in their order. -/
theorem emit_names (items : List Item) : ∀ (cursor : ℕ) (page : Page),
    emit W checks length items cursor = .ok page →
      page.entries.map DirInfo.name ++ page.left.map nameOf = items.map nameOf := by
  induction items with
  | nil =>
    intro cursor page h
    rw [← Except.ok.inj h]
    rfl
  | cons item items ih =>
    intro cursor page h
    rw [emit] at h
    split at h
    · cases h
    · dsimp only at h
      split at h
      · split at h
        · rw [← Except.ok.inj h]
          rfl
        · rename_i cursor' _
          cases hrest : emit W checks length items cursor' with
          | error e =>
            rw [hrest] at h
            cases h
          | ok rest =>
            rw [hrest] at h
            rw [← Except.ok.inj h, List.map_cons, List.map_cons, List.cons_append,
              ih cursor' rest hrest]
      · cases h

/-- A buffer with room for one entry gets one, if there is any. -/
theorem emit_first (hroom : TakesFirst W checks length items) (hne : items ≠ [])
    (h : emit W checks length items 0 = .ok page) : page.entries ≠ [] := by
  obtain ⟨item, items, rfl⟩ := List.exists_cons_of_ne_nil hne
  rw [emit] at h
  split at h
  · cases h
  · rename_i info hinfo
    dsimp only at h
    split at h
    · rename_i hname
      split at h
      · rename_i hfull
        have hsome := hroom info hinfo hname
        rw [hfull] at hsome
        cases hsome
      · cases hrest : emit W checks length items _ with
        | error e =>
          rw [hrest] at h
          cases h
        | ok rest =>
          rw [hrest] at h
          rw [← Except.ok.inj h]
          exact List.cons_ne_nil _ _
    · cases h

end Pages

section Calls

variable {W : Winfsp} {checks : Bool} {p : Path} {s : Reader L} {length : ℕ} {env : Env}
  {page : Page}

def Reader.session (p : Path) (s : Reader L) : Session String :=
  ⟨s.names, {name | ∀ call ∈ s.calls, Lists p name call}, s.ended⟩

theorem session_start (fs : FileSystem L) :
    (Reader.start fs).session p = Session.start := by
  rw [Reader.session, Session.start]
  congr 1
  exact Set.eq_univ_of_forall fun _ => nofun

theorem resumes_iff_sound : Resumes (Lists p) s ↔ (s.session p).Sound := by
  constructor
  · exact fun h => ⟨h.increasing, h.complete⟩
  · exact fun h => ⟨h.increasing.imp fun hlt => hlt.ne, h.increasing, h.complete⟩

theorem Resumes.onServer (h : Resumes (Lists p) s) (hcurrent : ∀ call ∈ s.calls, UpToDate p call) :
    Resumes (Has p) s where
  once := h.once
  increasing := h.increasing
  complete name hthere := by
    refine h.complete name fun call hcall => ?_
    rw [Lists, listing, full, List.map_cons, List.map_cons]
    rcases hthere call hcall with rfl | rfl | hnode
    · exact List.mem_cons_self
    · exact List.mem_cons_of_mem _ List.mem_cons_self
    · have hlisted := List.mem_map_of_mem (f := toStringLossy) (hcurrent call hcall name hnode)
      exact List.mem_cons_of_mem _ (List.mem_cons_of_mem _ hlisted)

theorem listing_nodup {fs : FileSystem L} (h : Listable (listingOrder fs p env)) :
    (listing p (fs, env)).Nodup := by
  obtain ⟨hnodup, htext⟩ := h
  have hdots : ∀ name ∈ listingOrder fs p env,
      toStringLossy name ≠ "." ∧ toStringLossy name ≠ ".." := by
    intro name hname
    obtain ⟨s, rfl, hdots⟩ := htext name hname
    exact hdots
  have hnames : ((listingOrder fs p env).map toStringLossy).Nodup := by
    refine hnodup.map_on fun a ha b hb he => ?_
    obtain ⟨s, rfl, -⟩ := htext a ha
    obtain ⟨s', rfl, -⟩ := htext b hb
    exact congrArg OsString.text he
  rw [listing, full, List.map_cons, List.map_cons, List.nodup_cons, List.nodup_cons]
  refine ⟨?_, ?_, hnames⟩
  · simp only [List.mem_cons, List.mem_map, not_or, not_exists, not_and]
    exact ⟨by decide, fun name hname => (hdots name hname).1⟩
  · simp only [List.mem_map, not_exists, not_and]
    exact fun name hname => (hdots name hname).2

theorem page_answered (h : s.page W checks p length env = .ok page) : ∃ items cursor,
    (s.fs.readdir p env).1 = .ok items ∧
      emit W checks length ((sortByName items).drop (start (sortByName items) s.marker)) 0 =
        .ok { page with cursor := cursor } := by
  unfold Reader.page readDirectory at h
  dsimp only at h
  split at h
  · cases h
  · rename_i items hitems
    dsimp only at h
    cases hemit : emit W checks length
      ((sortByName items).drop (start (sortByName items) s.marker)) 0 with
    | error e =>
      rw [hemit] at h
      cases h
    | ok page' =>
      rw [hemit] at h
      rw [← Except.ok.inj h]
      exact ⟨items, page'.cursor, hitems, hemit⟩

theorem readDirectory_state (fs : FileSystem L) (marker : Option (List UInt16)) :
    (readDirectory W checks fs p marker length env).2 = (fs.readdir p env).2 := by
  unfold readDirectory
  dsimp only
  split <;> rfl

theorem step_error {e : ReadDirectoryError} (h : s.page W checks p length env = .error e) :
    s.step W checks p (.page length env) = { s with fs := (s.fs.readdir p env).2 } := by
  rw [Reader.page] at h
  simp only [Reader.step, h, readDirectory_state]

theorem step_ok (h : s.page W checks p length env = .ok page) :
    s.step W checks p (.page length env) =
      { fs := (s.fs.readdir p env).2
        entries := s.entries ++ page.entries
        ended := page.left.isEmpty
        calls := s.calls ++ [(s.fs, env)] } := by
  rw [Reader.page] at h
  simp only [Reader.step, h, readDirectory_state]

def sortedNames (items : List Item) : List String := (sortByName items).map nameOf

theorem sortedNames_listing {items : List Item} (h : Named s.fs) (hl : ListsOnce env)
    (hitems : (s.fs.readdir p env).1 = .ok items) :
    (sortedNames items).Pairwise (· < ·) ∧
      ∀ name, name ∈ sortedNames items ↔ name ∈ listing p (s.fs, env) := by
  obtain ⟨hnames, hlistable⟩ := h.listing hl hitems
  have hlisting : items.map nameOf = listing p (s.fs, env) := by
    have hsame := congrArg (List.map toStringLossy) hnames
    rwa [List.map_map] at hsame
  constructor
  · exact sortByName_increasing (hlisting ▸ listing_nodup hlistable)
  · intro name
    rw [← hlisting]
    exact ((sortByName_perm items).map nameOf).mem_iff

theorem names_from_marker (s : Reader L) (items : List Item) :
    ((sortByName items).drop (start (sortByName items) s.marker)).map nameOf =
      resumed s.names.getLast? (sortedNames items) := by
  rw [Reader.marker, start_eq_place, List.map_drop]
  rfl

/-- An answered call is a turn of the session. -/
theorem page_turn {items : List Item} {cursor : ℕ} (h : Named s.fs) (hl : ListsOnce env)
    (hitems : (s.fs.readdir p env).1 = .ok items)
    (hpage : s.page W checks p length env = .ok page)
    (hemit : emit W checks length ((sortByName items).drop (start (sortByName items) s.marker)) 0 =
      .ok { page with cursor := cursor }) :
    (s.step W checks p (.page length env)).session p =
      (s.session p).turn (sortedNames items) page.entries.length := by
  obtain ⟨-, hmem⟩ := sortedNames_listing h hl hitems
  have hrest := emit_names _ _ _ hemit
  rw [names_from_marker] at hrest
  dsimp only at hrest
  rw [step_ok hpage, Reader.session, Session.turn, Reader.session]
  dsimp only
  rw [← hrest]
  congr 1
  · rw [Reader.names, List.map_append, Reader.names, List.take_left' (List.length_map _)]
  · ext name
    simp only [Set.mem_ofPred_eq, List.forall_mem_append, List.forall_mem_singleton, Lists, hmem]
  · cases page.left <;> simp

theorem named_step (h : Named s.fs) {st : Step} (hl : StepLists st) :
    Named (s.step W checks p st).fs := by
  cases st with
  | event event => exact h.next event hl
  | page length env =>
    cases hpage : s.page W checks p length env with
    | error e =>
      rw [step_error hpage]
      exact h.readdir hl
    | ok page =>
      rw [step_ok hpage]
      exact h.readdir hl

theorem found_congr {last : Option String} {l l' : List String}
    (h : ∀ name, name ∈ l ↔ name ∈ l') : Found last l ↔ Found last l' := by
  simp only [Found, h]

theorem Resumes.step_page (h : Resumes (Lists p) s) (hnamed : Named s.fs) (hl : ListsOnce env)
    (hfound : ∀ page, s.page W checks p length env = .ok page →
      Found s.names.getLast? (listing p (s.fs, env))) :
    Resumes (Lists p) (s.step W checks p (.page length env)) := by
  cases hpage : s.page W checks p length env with
  | error e =>
    rw [step_error hpage]
    exact ⟨h.once, h.increasing, h.complete⟩
  | ok page =>
    obtain ⟨items, cursor, hitems, hemit⟩ := page_answered hpage
    obtain ⟨hincreasing, hmem⟩ := sortedNames_listing hnamed hl hitems
    rw [resumes_iff_sound] at h ⊢
    rw [page_turn hnamed hl hitems hpage hemit]
    exact h.turn hincreasing ((found_congr hmem).mpr (hfound page hpage)) _

/-- A page that starts over gives a name that is not behind the last. -/
theorem found_of_increasing (hnamed : Named s.fs) (hl : ListsOnce env)
    (hroom : ∀ items, (s.fs.readdir p env).1 = .ok items → TakesFirst W checks length
      ((sortByName items).drop (start (sortByName items) s.marker)))
    (hpage : s.page W checks p length env = .ok page)
    (h : (s.step W checks p (.page length env)).names.Pairwise (· < ·)) :
    Found s.names.getLast? (listing p (s.fs, env)) := by
  obtain ⟨items, cursor, hitems, hemit⟩ := page_answered hpage
  obtain ⟨hincreasing, hmem⟩ := sortedNames_listing hnamed hl hitems
  have hturn := congrArg Session.given (page_turn hnamed hl hitems hpage hemit)
  have hsession : (s.session p).given = s.names := rfl
  rw [← found_congr hmem]
  by_contra hlost
  have hne : (sortByName items).drop (start (sortByName items) s.marker) ≠ [] := by
    intro hnil
    have hall := names_from_marker s items
    rw [hnil, resumed_of_lost hlost] at hall
    exact hlost fun m _ => Or.inr (hall ▸ nofun)
  have hfirst := List.length_pos_iff.mpr (emit_first (hroom items hitems) hne hemit)
  exact turn_lost hincreasing (hsession ▸ hlost) hfirst (hturn ▸ h)

end Calls

section Runs

variable {W : Winfsp} {checks : Bool} {p : Path}

theorem Reader.Always.first {P : Reader L → Prop} {s : Reader L} {steps : List Step}
    (h : s.Always W checks p P steps) : P s := by
  cases steps with
  | nil => exact h
  | cons st steps => exact h.1

theorem Reader.Always.last {P : Reader L → Prop} {steps : List Step} :
    ∀ {s : Reader L}, s.Always W checks p P steps → P (s.run W checks p steps) := by
  induction steps with
  | nil => exact fun h => h
  | cons st steps ih => exact fun h => ih h.2

theorem Reader.Always.imp {P Q : Reader L → Prop} {steps : List Step} (hPQ : ∀ s, P s → Q s) :
    ∀ {s : Reader L}, s.Always W checks p P steps → s.Always W checks p Q steps := by
  induction steps with
  | nil => exact fun h => hPQ _ h
  | cons st steps ih => exact fun h => ⟨hPQ _ h.1, ih h.2⟩

theorem Reader.Always.and {P Q : Reader L → Prop} {steps : List Step} :
    ∀ {s : Reader L}, s.Always W checks p P steps → s.Always W checks p Q steps →
      s.Always W checks p (fun s => P s ∧ Q s) steps := by
  induction steps with
  | nil => exact fun h h' => ⟨h, h'⟩
  | cons st steps ih => exact fun h h' => ⟨⟨h.1, h'.1⟩, ih h.2 h'.2⟩

theorem always_resumes (W : Winfsp) (checks : Bool) (p : Path) (steps : List Step) :
    ∀ s : Reader L, Resumes (Lists p) s → Named s.fs →
    (∀ st ∈ steps, StepLists st) → MarkersFound W checks p s steps →
      s.Always W checks p (Resumes (Lists p)) steps := by
  induction steps with
  | nil => exact fun s h _ _ _ => h
  | cons st steps ih =>
    intro s h hnamed hlists hfound
    have hfirst := hlists st List.mem_cons_self
    have hrest := fun st hst => hlists st (List.mem_cons_of_mem _ hst)
    cases st with
    | page length env =>
      exact ⟨h, ih _ (h.step_page hnamed hfirst hfound.1) (named_step hnamed hfirst) hrest hfound.2⟩
    | event event =>
      have hsame : Resumes (Lists p) (s.step W checks p (.event event)) :=
        ⟨h.once, h.increasing, h.complete⟩
      exact ⟨h, ih _ hsame (named_step hnamed hfirst) hrest hfound⟩

theorem markersFound_of_always (steps : List Step) : ∀ s : Reader L, Named s.fs →
    (∀ st ∈ steps, StepLists st) → Roomy W checks p s steps →
      s.Always W checks p (fun s => s.names.Pairwise (· < ·)) steps →
        MarkersFound W checks p s steps := by
  induction steps with
  | nil => exact fun _ _ _ _ _ => trivial
  | cons st steps ih =>
    intro s hnamed hlists hroom h
    have hfirst := hlists st List.mem_cons_self
    have hrest := fun st hst => hlists st (List.mem_cons_of_mem _ hst)
    cases st with
    | page length env =>
      refine ⟨fun page hpage => ?_, ih _ (named_step hnamed hfirst) hrest hroom.2 h.2⟩
      exact found_of_increasing hnamed hfirst hroom.1 hpage h.2.first
    | event event => exact ih _ (named_step hnamed hfirst) hrest hroom h.2

/-- Without a cache, or with one that tells what is on the server, a list is up to date. -/
theorem upToDate_of_coherent {fs : FileSystem L} {env : Env} {items : List Item}
    (h : Coherent fs) (hl : ListsAll fs.remote p env) (hres : (fs.readdir p env).1 = .ok items) :
    UpToDate p (fs, env) := by
  obtain ⟨-, -, children, -, horder, hexact⟩ := readdir_result h hl hres
  intro name hnode
  exact horder ▸ (hexact.names.2 (.text name)).mpr hnode

end Runs

/-- From the start, an enumeration resumes as it should if and only if no call is answered whose
marker is gone and has a listed name before it. With lists that are up to date this is so of what
the server has, too. -/
theorem enumeration_resumes_iff (W : Winfsp) (checks : Bool) (remote : Remote)
    (capacity now : ℕ) (cache : Option (Cache L)) (hempty : ∀ c, cache = some c → c.entries = ∅)
    (p : Path) (steps : List Step) (hlists : ∀ st ∈ steps, StepLists st) (s : Reader L)
    (hs : s = .start (.new remote capacity now cache)) (hroom : Roomy W checks p s steps) :
    (s.Always W checks p (Resumes (Lists p)) steps ↔ MarkersFound W checks p s steps) ∧
      (s.Always W checks p (fun s => ∀ call ∈ s.calls, UpToDate p call) steps →
        (s.Always W checks p (Resumes (Has p)) steps ↔ MarkersFound W checks p s steps)) := by
  have hnamed : Named s.fs := hs ▸ named_new remote capacity now cache hempty
  have hstart : Resumes (Lists p) s := by
    rw [resumes_iff_sound, hs, session_start]
    exact Session.sound_start
  have hsound := always_resumes W checks p steps s hstart hnamed hlists
  have hnecessary : ∀ {There : String → FileSystem L × Env → Prop},
      s.Always W checks p (Resumes There) steps → MarkersFound W checks p s steps := fun h =>
    markersFound_of_always steps s hnamed hlists hroom (h.imp fun _ => Resumes.increasing)
  refine ⟨⟨hnecessary, hsound⟩, fun hcurrent => ⟨hnecessary, fun hfound => ?_⟩⟩
  exact ((hsound hfound).and hcurrent).imp fun _ h => h.1.onServer h.2

/-- An entry takes 104 bytes and its name, up to the next multiple of 8. -/
def entrySize (entry : DirInfo) : ℕ := (104 + 2 * entry.fileName.length + 7) / 8 * 8

def winfsp : Winfsp where
  setName name := decide (name.length < 255)
  appendToBuffer length cursor entry :=
    if cursor + entrySize entry ≤ length then some (cursor + entrySize entry) else none
  finalizeBuffer length cursor := if cursor + 2 ≤ length then cursor + 2 else cursor

def longestEntry : ℕ := 616

theorem entrySize_le {entry : DirInfo} (h : entry.fileName.length < 255) :
    entrySize entry ≤ longestEntry := by
  unfold entrySize longestEntry
  omega

def TakesAny : Step → Prop
  | .page length _ => longestEntry ≤ length
  | .event _ => True

theorem winfsp_roomy {checks : Bool} {p : Path} (steps : List Step) : ∀ s : Reader L,
    (∀ st ∈ steps, TakesAny st) → Roomy winfsp checks p s steps := by
  induction steps with
  | nil => exact fun _ _ => trivial
  | cons st steps ih =>
    intro s hlong
    obtain ⟨hfirst, hlong⟩ := List.forall_mem_cons.mp hlong
    have hrest := ih (s.step winfsp checks p st) hlong
    cases st with
    | event event => exact hrest
    | page length env =>
      refine ⟨fun items _ => ?_, hrest⟩
      cases (sortByName items).drop (start (sortByName items) s.marker) with
      | nil => trivial
      | cons item items =>
        intro info _ hname
        have hsize := (entrySize_le (of_decide_eq_true hname)).trans hfirst
        have hfits : 0 + entrySize ⟨nameOf item, info⟩ ≤ length := by rwa [Nat.zero_add]
        exact Option.isSome_iff_exists.mpr ⟨_, if_pos hfits⟩

def fourFiles : Remote :=
  { twoFiles with
    nodes := Function.update (Function.update twoFiles.nodes (rootPath.child (.text "c"))
      (some (.file []))) (rootPath.child (.text "d")) (some (.file [])) }

def listedDown : Env := fun i => { Env.steady 0 none i with listing := ["d", "c", "b", "a"] }

theorem listsOnce_listedDown : ListsOnce listedDown := by
  intro i
  change ["d", "c", "b", "a"].Nodup ∧ "." ∉ ["d", "c", "b", "a"] ∧ ".." ∉ ["d", "c", "b", "a"]
  decide

def enumerator (L : PageLimits) : Reader L := .start (.new fourFiles 4 0 none)

def pagesAround (name : String) : List Step :=
  [.page longestEntry listedDown, .event (.call (.remove (rootPath.child (.text name))) listedDown),
    .page longestEntry listedDown]

theorem pagesAround_lists (name : String) : ∀ st ∈ pagesAround name, StepLists st :=
  List.forall_mem_cons.mpr ⟨listsOnce_listedDown, List.forall_mem_cons.mpr
    ⟨listsOnce_listedDown, List.forall_mem_singleton.mpr listsOnce_listedDown⟩⟩

theorem pagesAround_roomy (name : String) (s : Reader L) :
    Roomy winfsp false rootPath s (pagesAround name) :=
  winfsp_roomy _ s (List.forall_mem_cons.mpr ⟨le_rfl, List.forall_mem_cons.mpr
    ⟨trivial, List.forall_mem_singleton.mpr le_rfl⟩⟩)

theorem enumeration_resumes_iff_kept :
    let L : PageLimits := ⟨4, 4, by decide⟩
    let s := enumerator L
    (s.run winfsp false rootPath (pagesAround "b")).names = [".", "..", "a", "b", "c", "d"] ∧
      s.Always winfsp false rootPath (Resumes (Lists rootPath)) (pagesAround "b") := by
  intro L s
  have hnames : (s.run winfsp false rootPath (pagesAround "b")).names =
      [".", "..", "a", "b", "c", "d"] := by decide
  have hfound : MarkersFound winfsp false rootPath s (pagesAround "b") := by
    refine ⟨fun _ _ => nofun, fun _ _ m hm => Or.inl ?_, trivial⟩
    have hlast : (s.run winfsp false rootPath ((pagesAround "b").take 2)).names.getLast? =
        some "c" := by decide
    obtain rfl : "c" = m := Option.some.inj (hlast.symm.trans hm)
    decide
  exact ⟨hnames, (enumeration_resumes_iff winfsp false fourFiles 4 0 none nofun rootPath _
    (pagesAround_lists "b") s rfl (pagesAround_roomy "b" s)).1.mpr hfound⟩

/-- The marker is removed, and the next page starts over. -/
theorem removed_marker_starts_over :
    let L : PageLimits := ⟨4, 4, by decide⟩
    let s := enumerator L
    (s.run winfsp false rootPath (pagesAround "c")).names =
        [".", "..", "a", "b", "c", ".", "..", "a", "b", "d"] ∧
      (∀ st ∈ pagesAround "c", StepLists st) ∧
      Roomy winfsp false rootPath s (pagesAround "c") ∧
      ¬s.Always winfsp false rootPath (Resumes (Has rootPath)) (pagesAround "c") := by
  intro L s
  have hnames : (s.run winfsp false rootPath (pagesAround "c")).names =
      [".", "..", "a", "b", "c", ".", "..", "a", "b", "d"] := by decide
  refine ⟨hnames, pagesAround_lists "c", pagesAround_roomy "c" s, fun h => ?_⟩
  have honce := h.last.once
  rw [hnames] at honce
  exact absurd honce (by decide)

end ClientMarkedListing
