import RemoteFs.ServerGrowth

/-! # Attributes and the objects they belong to

The table knows texts, the tree knows places. A row is an orphan where the text of its path leads
to no object. -/
namespace ServerOrphans

open SqlTable
open OsPaths
open PosixTree
open PosixFileTree
open PosixCalls
open PosixWays
open ServerPaths
open ServerStorage
open ServerFileSystem
open ServerExchange
open ServerXattributes
open ServerXattributeMoves
open ServerRequests
open ServerGrowth

def real (fs : FileSystem) (path : String) : Path := makeRealPath fs.realPath (components path)

def NoOrphans (fs : FileSystem) (s : Server) : Prop :=
  ∀ r ∈ s.xattributes.rows, Named s.tree.objects (real fs r.path)

def Permitted (fs : FileSystem) (s : Server) (user : AuthenticatedUser) (path : String) : Prop :=
  Routes.checkPermission fs s.tree.objects user (components path) .write = .ok ()

/-- No path with attributes but `path` leads to or through a place. -/
def Untouched (fs : FileSystem) (s : Server) (path : String) (l : Location) : Prop :=
  ∀ p, p ≠ path → Held s.xattributes p → l ∉ way s.tree.objects (real fs p) ∧
    resolve s.tree.objects false (real fs p) ≠ some l

/-- No path of those that `P` says, and none with attributes, leads through a place. -/
def NotThrough (fs : FileSystem) (s : Server) (P : String → Prop) (l : Location) : Prop :=
  ∀ p, Held s.xattributes p ∨ P p → l ∉ way s.tree.objects (real fs p)

/-- A rename that moves an object: the table takes it, only the renamed path leads to the
object, and no path leads through it or through the object that it replaces. -/
structure TidyRename (fs : FileSystem) (s : Server) (oldPath newPath : String)
    (lo ln : Location) : Prop where
  table : ¬Clash (attrs s.xattributes) oldPath newPath
  moved : Untouched fs s oldPath lo
  replaced : ∀ p, p ≠ oldPath → Held s.xattributes p → ln ∉ way s.tree.objects (real fs p)
  target : Held s.xattributes oldPath → lo ∉ way s.tree.objects (real fs newPath) ∧
    ln ∉ way s.tree.objects (real fs newPath)

/-- An exchange that goes through: both temporary paths are free, and no path leads through
either object. -/
structure TidyExchange (fs : FileSystem) (s : Server) (oldPath newPath : String) : Prop where
  table : ¬Held s.xattributes tmpExchange
  clear : Clear s.tree.objects (real fs oldPath) (real fs newPath)
  first : ∀ l, place s.tree.objects (real fs oldPath) = some l →
    NotThrough fs s (fun p => p = oldPath ∨ p = newPath) l
  second : ∀ l, place s.tree.objects (real fs newPath) = some l →
    NotThrough fs s (fun p => p = oldPath ∨ p = newPath) l

def Tidy (fs : FileSystem) (s : Server) (user : AuthenticatedUser) : Request → Prop
  | .writeFile _ _ _ => True
  | .makeDirectory _ => True
  | .createSymlink _ _ => True
  | .rename oldPath newPath flags =>
    Permitted fs s user oldPath → Permitted fs s user newPath →
      if (RenameFlags.fromBitsTruncate flags).exchange then
        if (renameExchange s.tree (real fs oldPath) (real fs newPath)).1 = .ok () then
          TidyExchange fs s oldPath newPath
        else Keeps s.tree (real fs oldPath) (real fs newPath)
      else
        ((RenameFlags.fromBitsTruncate flags).noreplace = true →
          ¬Named s.tree.objects (real fs newPath)) →
        ∀ lo ln, place s.tree.objects (real fs oldPath) = some lo →
          place s.tree.objects (real fs newPath) = some ln → Renames s.tree lo ln →
          TidyRename fs s oldPath newPath lo ln
  | .deleteItem path =>
    Permitted fs s user path →
      ∀ l, place s.tree.objects (real fs path) = some l → Untouched fs s path l
  | .setXAttributes path _ _ => Permitted fs s user path → Named s.tree.objects (real fs path)
  | .deleteXAttributes _ _ => True

section Rows

variable {x x' : Xattributes} {p path newPath : String}

theorem held_delete (h : Held (x.delete (atPath path)) p) : p ≠ path ∧ Held x p := by
  obtain ⟨r, hr, rfl⟩ := h
  obtain ⟨hmem, hpath⟩ := Table.mem_delete.mp hr
  rw [Bool.eq_false_iff, Ne, atPath_iff] at hpath
  exact ⟨hpath, r, hmem, rfl⟩

/-- Whose attributes a path has after a move. -/
theorem held_moved (h : Held (updatePath x newPath path).2 p) :
    (Clash (attrs x) path newPath ∧ Held x p) ∨
      (¬Clash (attrs x) path newPath ∧
        ((p = newPath ∧ Held x path) ∨ (p ≠ path ∧ Held x p))) := by
  by_cases hc : Clash (attrs x) path newPath
  · rw [updatePath_clash hc] at h
    exact .inl ⟨hc, h⟩
  · obtain ⟨x', hx', hrows⟩ := updatePath_rows hc
    rw [hx'] at h
    obtain ⟨r, hr, rfl⟩ := h
    refine .inr ⟨hc, ?_⟩
    rcases (mem_moved hrows).mp hr with ⟨hp, hr⟩ | ⟨hp, hr⟩
    · exact .inl ⟨hp, _, hr, rfl⟩
    · exact .inr ⟨hp, r, hr, rfl⟩

/-- With the temporary path free an exchange gives attributes to its own paths only. -/
theorem held_exchanged {path1 path2 : String} (htmp : ¬Held x tmpExchange)
    (h : Held (exchangeXAttributes x path1 path2).2 p) :
    p = path1 ∨ p = path2 ∨ Held x p := by
  have hnone : ∀ name, attrs x tmpExchange name = none := by
    intro name
    by_contra hne
    exact htmp (held_iff.mpr ⟨name, hne⟩)
  have hc : ¬ExchangeClash (attrs x) path1 path2 := by
    rintro (⟨-, name, -, hne⟩ | ⟨rfl, -, name, -, hne⟩)
    · exact hne (hnone name)
    · exact hne (hnone name)
  obtain ⟨x', hx', hattrs⟩ := exchange_attrs hc
  rw [hx'] at h
  obtain ⟨name, hname⟩ := held_iff.mp h
  dsimp only at hname
  rw [hattrs] at hname
  by_cases h₁ : p = path1
  · exact .inl h₁
  by_cases h₂ : p = path2
  · exact .inr (.inl h₂)
  refine .inr (.inr (held_iff.mpr ⟨name, ?_⟩))
  by_cases htmp₂ : tmpExchange = path2
  · rw [← htmp₂, pathMoved_self, htmp₂, pathMoved_other h₁ h₂, pathMoved_other h₂ h₁] at hname
    exact hname
  · by_cases hp : p = tmpExchange
    · rw [hp, pathMoved_old htmp₂] at hname
      exact (hname rfl).elim
    · rw [pathMoved_other h₂ hp, pathMoved_other h₁ h₂, pathMoved_other hp h₁] at hname
      exact hname

theorem held_set {path name : String} {v : List UInt8}
    (h : Held (ServerXattributes.setXAttributes x path name v).2 p) : p = path ∨ Held x p := by
  obtain ⟨key, hkey⟩ := held_iff.mp h
  rw [(set_spec x path name v).2] at hkey
  by_cases hp : p = path
  · exact .inl hp
  refine .inr (held_iff.mpr ?_)
  split at hkey
  · rw [AttrMap.put, if_neg fun he => hp he.1] at hkey
    exact ⟨key, hkey⟩
  · split at hkey
    · exact ⟨key, hkey⟩
    · rename_i hswap
      rw [AttrMap.put] at hkey
      split at hkey
      · rename_i he
        rw [← he.1] at hswap
        exact ⟨_, hswap⟩
      · exact ⟨key, hkey⟩

theorem held_remove {path name : String} (h : Held (x.delete (keyed path name)) p) : Held x p := by
  obtain ⟨r, hr, hp⟩ := h
  exact ⟨r, (Table.mem_delete.mp hr).1, hp⟩

end Rows

section Trees

variable {t t' : FileTree} {p : Path} {l lo ln : Location}

/-- A path that does not need a place stays without it. -/
theorem named_erased (ho : t'.objects = Function.update t.objects l none) (h : Named t.objects p)
    (hway : l ∉ way t.objects p) (hend : resolve t.objects false p ≠ some l) :
    Named t'.objects p := by
  obtain ⟨k, hk, hne⟩ := named_iff.mp h
  have hkl : k ≠ l := by
    rintro rfl
    exact hend hk
  have hsame : ∀ k ∈ way t.objects p, look t'.objects k = look t.objects k := by
    intro k hk
    have hkl : k ≠ l := by
      rintro rfl
      exact hway hk
    rw [ho, look, Function.update_of_ne hkl, look]
  refine named_iff.mpr ⟨k, (resolve_congr t.grounded t'.grounded hsame).trans hk, ?_⟩
  rwa [ho, Function.update_of_ne hkl]

/-- A path that does not pass either place of a move leads where it did. -/
theorem resolve_moved (h : Apart lo ln) (ho : t'.objects = moved t.objects lo ln)
    (hlo : lo ∉ way t.objects p) (hln : ln ∉ way t.objects p) :
    resolve t'.objects false p = resolve t.objects false p := by
  have hne : lo ≠ [] ∧ ln ≠ [] := by
    constructor
    · rintro rfl
      exact h.1 List.nil_prefix
    · rintro rfl
      exact h.2 List.nil_prefix
  refine resolve_congr t.grounded t'.grounded fun k hk => ?_
  rw [ho]
  exact look_moved_other (fun hp => hlo (way_above hne.1 hk hp))
    (fun hp => hln (way_above hne.2 hk hp))

theorem named_moved (h : Renames t lo ln) (ho : t'.objects = moved t.objects lo ln)
    (hp : Named t.objects p) (hlo : lo ∉ way t.objects p) (hln : ln ∉ way t.objects p)
    (hend : resolve t.objects false p ≠ some lo) : Named t'.objects p := by
  obtain ⟨k, hk, hne⟩ := named_iff.mp hp
  refine named_iff.mpr ⟨k, (resolve_moved h.apart ho hlo hln).trans hk, ?_⟩
  rw [ho]
  rcases moved_cases t.objects h.apart k with ⟨s, rfl, he⟩ | ⟨hpre, -⟩ | ⟨-, -, he⟩
  · by_cases hs : s = []
    · rw [he, hs, List.append_nil]
      exact h.object
    · exact (hne (h.objects_new hs)).elim
  · have hlo' : lo ≠ [] := by
      rintro rfl
      exact h.apart.1 List.nil_prefix
    rcases resolve_above t.grounded hk hlo' hpre with hin | rfl
    · exact (hlo hin).elim
    · exact (hend hk).elim
  · rwa [he]

end Trees

section Requests

variable {fs : FileSystem} {s : Server} {user : AuthenticatedUser}

theorem no_orphans_grows {t : FileTree} (hn : NoOrphans fs s)
    (h : Grows s.tree.objects t.objects) : NoOrphans fs { s with tree := t } :=
  fun r hr => (hn r hr).grows h

theorem no_orphans_of_held {t : FileTree} {x : Xattributes}
    (h : ∀ p, Held x p → Named t.objects (real fs p)) : NoOrphans fs ⟨t, x⟩ :=
  fun r hr => h r.path ⟨r, hr, rfl⟩

theorem named_of_held (hn : NoOrphans fs s) {p : String} (h : Held s.xattributes p) :
    Named s.tree.objects (real fs p) := by
  obtain ⟨r, hr, rfl⟩ := h
  exact hn r hr

theorem no_orphans_checked {path : String} {next : Answer} (hn : NoOrphans fs s)
    (h : Permitted fs s user path → NoOrphans fs next.2) :
    NoOrphans fs (checked fs s user (components path) next).2 := by
  unfold checked
  cases hc : Routes.checkPermission fs s.tree.objects user (components path) .write with
  | ok u => exact h hc
  | error e => exact hn

theorem thenTree_server {α : Type} {r : ServerFileSystem.Result α} {next : α → Server → Answer}
    (hnext : ∀ a s, (next a s).2 = s) : (thenTree s r next).2 = { s with tree := r.2 } := by
  obtain ⟨res, t⟩ := r
  cases res with
  | ok a => exact hnext a _
  | error e => rfl

theorem getAttributes_server (path : Path) (s : Server) : (getAttributes fs path s).2 = s := by
  unfold getAttributes
  split <;> rfl

theorem thenTable_server (r : ServerXattributes.Result Unit) :
    (thenTable s r).2 = { s with xattributes := r.2 } := by
  obtain ⟨res, x⟩ := r
  cases res <;> rfl

theorem no_orphans_write {path : String} {body : List UInt8} {offset : ℕ}
    {now : ClientAttributes.Timestamp} (hn : NoOrphans fs s) :
    NoOrphans fs (ServerRequests.writeFile fs s user path body offset now).2 := by
  refine no_orphans_checked hn fun _ => ?_
  rw [thenTree_server fun _ s => getAttributes_server _ s]
  exact no_orphans_grows hn writeFile_grows

theorem no_orphans_mkdir {path : String} {len : ℕ} {now : ClientAttributes.Timestamp}
    (hn : NoOrphans fs s) : NoOrphans fs (makeDirectory fs s user path len now).2 := by
  unfold makeDirectory
  split
  · exact hn
  · refine no_orphans_checked hn fun _ => ?_
    rw [thenTree_server fun _ s => getAttributes_server _ s]
    exact no_orphans_grows hn makeDir_grows

theorem no_orphans_symlink {path target : String} {now : ClientAttributes.Timestamp}
    (hn : NoOrphans fs s) :
    NoOrphans fs (ServerRequests.createSymlink fs s user path target now).2 := by
  refine no_orphans_checked hn fun _ => ?_
  rw [thenTree_server fun _ _ => rfl]
  exact no_orphans_grows hn createSymlink_grows

theorem no_orphans_delete {path : String} (hn : NoOrphans fs s)
    (h : Permitted fs s user path → ∀ l, place s.tree.objects (real fs path) = some l →
      Untouched fs s path l) : NoOrphans fs (deleteItem fs s user path).2 := by
  refine no_orphans_checked hn fun hperm => ?_
  rcases delete_cases fs s.tree (components path) with ⟨e, he⟩ | ⟨l, t', hl, -, ho, he⟩
  · rw [he]
    exact hn
  · rw [he]
    refine no_orphans_of_held fun p hp => ?_
    obtain ⟨hne, hp⟩ := held_delete hp
    obtain ⟨hway, hend⟩ := h hperm l hl p hne hp
    exact named_erased ho (named_of_held hn hp) hway hend

theorem no_orphans_set {path name : String} {v : List UInt8} (hn : NoOrphans fs s)
    (h : Permitted fs s user path → Named s.tree.objects (real fs path)) :
    NoOrphans fs (ServerRequests.setXAttributes fs s user path name v).2 := by
  refine no_orphans_checked hn fun hperm => ?_
  rw [thenTable_server]
  refine no_orphans_of_held fun p hp => ?_
  rcases held_set hp with rfl | hp
  · exact h hperm
  · exact named_of_held hn hp

theorem no_orphans_remove {path name : String} (hn : NoOrphans fs s) :
    NoOrphans fs (ServerRequests.deleteXAttributes fs s user path name).2 := by
  refine no_orphans_checked hn fun _ => ?_
  rw [thenTable_server]
  exact no_orphans_of_held fun p hp => named_of_held hn (held_remove hp)

theorem no_orphans_moved {oldPath newPath : String} {t' : FileTree} (hn : NoOrphans fs s)
    (hrename : PosixCalls.rename s.tree (real fs oldPath) (real fs newPath) = .ok t')
    (h : ∀ lo ln, place s.tree.objects (real fs oldPath) = some lo →
      place s.tree.objects (real fs newPath) = some ln → Renames s.tree lo ln →
      TidyRename fs s oldPath newPath lo ln) :
    NoOrphans fs ⟨t', (renameXAttributes s.xattributes oldPath newPath).2⟩ := by
  refine no_orphans_of_held fun p hp => ?_
  obtain ⟨lo, ln, hlo, hln, hcase⟩ := rename_objects hrename
  rcases hcase with ⟨hne, rfl, rfl⟩ | ⟨hr, ho⟩
  · rcases held_moved hp with ⟨-, hp⟩ | ⟨-, ⟨rfl, -⟩ | ⟨-, hp⟩⟩
    · exact named_of_held hn hp
    · exact named_of_place hln hne
    · exact named_of_held hn hp
  have htidy := h lo ln hlo hln hr
  rcases held_moved hp with ⟨hc, -⟩ | ⟨-, ⟨rfl, hold⟩ | ⟨hne, hp⟩⟩
  · exact (htidy.table hc).elim
  · obtain ⟨hwayo, hwayn⟩ := htidy.target hold
    have hend := resolve_moved hr.apart ho hwayo hwayn
    rw [place_resolve hln] at hend
    refine named_iff.mpr ⟨ln, hend, ?_⟩
    rw [ho, moved_at_new]
    exact hr.object
  · obtain ⟨hway, hend⟩ := htidy.moved p hne hp
    exact named_moved hr ho (named_of_held hn hp) hway (htidy.replaced p hne hp) hend

theorem no_orphans_exchanged {oldPath newPath : String} {t' : FileTree} (hn : NoOrphans fs s)
    (hex : renameExchange s.tree (real fs oldPath) (real fs newPath) = (.ok (), t'))
    (h : TidyExchange fs s oldPath newPath) :
    NoOrphans fs ⟨t', (exchangeXAttributes s.xattributes oldPath newPath).2⟩ := by
  have hends := renameExchange_ends s.tree (real fs oldPath) (real fs newPath)
  rw [hex] at hends
  cases hends with
  | finished t₁ t₂ _ h₁ h₂ h₃ =>
    obtain ⟨la, hla, hr, ho⟩ := parks h₁
    have hfree := h.clear.1 la hla
    obtain ⟨lb, hlb⟩ := Option.ne_none_iff_exists'.mp h.clear.2
    obtain ⟨lb', hlb', hobj, hapart, hswap⟩ := exchanged_of_free hla hr hfree ho h₂ h₃
    have hagree := agree_moved hr.apart (free_below hfree)
    rw [← ho] at hagree
    obtain rfl := place_agree s.tree.grounded t₁.grounded hagree hlb hlb'
    have hnil : la ≠ [] ∧ lb' ≠ [] :=
      ⟨place_ne_nil s.tree.grounded hla, place_ne_nil s.tree.grounded hlb⟩
    have hresolve : ∀ p, Held s.xattributes p ∨ p = oldPath ∨ p = newPath →
        resolve t'.objects false (real fs p) = resolve s.tree.objects false (real fs p) := by
      intro p hp
      refine resolve_congr s.tree.grounded t'.grounded fun k hk => ?_
      have hsame := hswap.elsewhere k
        (fun hpre => h.first la hla p hp (way_above hnil.1 hk hpre))
        (fun hpre => h.second lb' hlb p hp (way_above hnil.2 hk hpre))
      rw [look, hsame, look]
    have hfirst : t'.objects la ≠ none := by
      have hla' := hswap.first []
      rw [List.append_nil, List.append_nil] at hla'
      rwa [hla']
    have hsecond : t'.objects lb' ≠ none := by
      have hlb' := hswap.second []
      rw [List.append_nil, List.append_nil] at hlb'
      rw [hlb']
      exact hr.object
    refine no_orphans_of_held fun p hp => ?_
    rcases held_exchanged h.table hp with rfl | rfl | hp
    · exact named_iff.mpr ⟨la, (hresolve _ (.inr (.inl rfl))).trans (place_resolve hla), hfirst⟩
    · exact named_iff.mpr ⟨lb', (hresolve _ (.inr (.inr rfl))).trans (place_resolve hlb), hsecond⟩
    · obtain ⟨k, hk, hne⟩ := named_iff.mp (named_of_held hn hp)
      refine named_iff.mpr ⟨k, (hresolve p (.inl hp)).trans hk, ?_⟩
      by_cases hpre : la <+: k
      · rcases resolve_above s.tree.grounded hk hnil.1 hpre with hin | rfl
        · exact (h.first la hla p (.inl hp) hin).elim
        · exact hfirst
      by_cases hpre' : lb' <+: k
      · rcases resolve_above s.tree.grounded hk hnil.2 hpre' with hin | rfl
        · exact (h.second lb' hlb p (.inl hp) hin).elim
        · exact hsecond
      · rwa [hswap.elsewhere k hpre hpre']

theorem no_orphans_rename {m : Moment} {oldPath newPath : String} {flags : ℕ}
    (hn : NoOrphans fs s) (h : Tidy fs s user (.rename oldPath newPath flags)) :
    NoOrphans fs (serve fs s user m (.rename oldPath newPath flags)).2 := by
  refine no_orphans_checked hn fun hold => no_orphans_checked hn fun hnew => ?_
  have htidy := h hold hnew
  by_cases hx : (RenameFlags.fromBitsTruncate flags).exchange = true
  · rw [if_pos hx] at htidy
    obtain ⟨r, hr⟩ : ∃ r, r = ServerFileSystem.rename fs s.tree (components oldPath)
      (components newPath) (.fromBitsTruncate flags) := ⟨_, rfl⟩
    have hex : r = renameExchange s.tree (real fs oldPath) (real fs newPath) := by
      rw [hr, ServerFileSystem.rename, if_pos hx]
      rfl
    rw [← hr]
    rw [← hex] at htidy
    obtain ⟨res, t'⟩ := r
    cases res with
    | error e =>
      rw [if_neg (by simp)] at htidy
      have hsame := (failed_exchange_keeps_iff fs s.tree (components oldPath) (components newPath)
        _ hx (by rw [← hr]; simp)).mpr htidy
      rw [← hr] at hsame
      refine no_orphans_of_held fun p hp => ?_
      rw [hsame]
      exact named_of_held hn hp
    | ok u =>
      rw [if_pos rfl] at htidy
      simp only [thenTree, hx, ↓reduceIte]
      rw [thenTable_server]
      exact no_orphans_exchanged hn hex.symm htidy
  · rw [if_neg hx] at htidy
    rcases rename_cases fs s.tree (components oldPath) (components newPath)
      (Bool.eq_false_iff.mpr hx) with ⟨e, he⟩ | ⟨t', hfree, hrename, he⟩
    · rw [he]
      exact hn
    · rw [he]
      simp only [thenTree, hx, Bool.false_eq_true, ↓reduceIte]
      rw [thenTable_server]
      exact no_orphans_moved hn hrename (htidy fun hflag hnamed => hnamed (hfree hflag))

theorem no_orphans_serve {m : Moment} (request : Request) (hn : NoOrphans fs s)
    (h : Tidy fs s user request) : NoOrphans fs (serve fs s user m request).2 := by
  cases request with
  | writeFile path body offset => exact no_orphans_write hn
  | makeDirectory path => exact no_orphans_mkdir hn
  | createSymlink path target => exact no_orphans_symlink hn
  | rename oldPath newPath flags => exact no_orphans_rename hn h
  | deleteItem path => exact no_orphans_delete hn h
  | setXAttributes path name v => exact no_orphans_set hn h
  | deleteXAttributes path name => exact no_orphans_remove hn

def created : Request → Option String
  | .writeFile path _ _ => some path
  | .makeDirectory path => some path
  | .createSymlink path _ => some path
  | _ => none

theorem checked_table {path : Path} {next : Answer}
    (h : next.2.xattributes = s.xattributes) :
    (checked fs s user path next).2.xattributes = s.xattributes := by
  unfold checked
  split
  · exact h
  · rfl

theorem created_table {m : Moment} {request : Request} {path : String}
    (h : created request = some path) :
    (serve fs s user m request).2.xattributes = s.xattributes := by
  have htree : ∀ {α : Type} (r : ServerFileSystem.Result α) (next : α → Server → Answer),
      (∀ a s, (next a s).2 = s) → (thenTree s r next).2.xattributes = s.xattributes := by
    intro α r next hnext
    rw [thenTree_server hnext]
  cases request with
  | writeFile path body offset =>
    exact checked_table (htree _ _ fun _ s => getAttributes_server _ s)
  | makeDirectory path =>
    unfold serve makeDirectory
    dsimp only
    split
    · rfl
    · exact checked_table (htree _ _ fun _ s => getAttributes_server _ s)
  | createSymlink path target => exact checked_table (htree _ _ fun _ _ => rfl)
  | rename => cases h
  | deleteItem => cases h
  | setXAttributes => cases h
  | deleteXAttributes => cases h

end Requests

/-! Runs of requests, by any users -/

structure Step where
  user : AuthenticatedUser
  moment : Moment
  request : Request

def Step.serve (fs : FileSystem) (s : Server) (step : Step) : Answer :=
  ServerRequests.serve fs s step.user step.moment step.request

def run (fs : FileSystem) : Server → List Step → Server
  | s, [] => s
  | s, step :: steps => run fs (step.serve fs s).2 steps

def AllTidy (fs : FileSystem) : Server → List Step → Prop
  | _, [] => True
  | s, step :: steps => Tidy fs s step.user step.request ∧ AllTidy fs (step.serve fs s).2 steps

section Runs

variable {fs : FileSystem}

theorem no_orphans_run (steps : List Step) : ∀ {s : Server}, NoOrphans fs s →
    AllTidy fs s steps → ∀ n, NoOrphans fs (run fs s (steps.take n)) := by
  induction steps with
  | nil =>
    intro s hn _ n
    rw [List.take_nil]
    exact hn
  | cons step steps ih =>
    intro s hn h n
    cases n with
    | zero => exact hn
    | succ n => exact ih (no_orphans_serve step.request hn h.1) h.2 n

/-- With a tidy run from an empty table every state has no orphans, so an object that a request
makes where there was none has no attributes. -/
theorem no_orphans (fs : FileSystem) (t : FileTree) (steps : List Step)
    (h : AllTidy fs ⟨t, Table.empty SameKey⟩ steps) (n : ℕ) :
    NoOrphans fs (run fs ⟨t, Table.empty SameKey⟩ (steps.take n)) ∧
    ∀ (step : Step) (path : String), created step.request = some path →
      ¬Named (run fs ⟨t, Table.empty SameKey⟩ (steps.take n)).tree.objects (real fs path) →
      ∀ name, attrs (step.serve fs
        (run fs ⟨t, Table.empty SameKey⟩ (steps.take n))).2.xattributes path name = none := by
  have hn := no_orphans_run steps (fun r hr => by cases hr) h n
  refine ⟨hn, fun step path hcreated hnew name => ?_⟩
  rw [Step.serve, created_table hcreated]
  by_contra hne
  exact hnew (named_of_held hn (held_iff.mpr ⟨name, hne⟩))

/-- An attribute is set where there is nothing, and the next file there has it. -/
theorem attribute_before_object :
    let s : Server := ⟨samples, Table.empty SameKey⟩
    let set : Step := ⟨⟨7, 7⟩, ⟨⟨0, 0⟩, 4096⟩, .setXAttributes "/ghost" "user.tag" [1]⟩
    let write : Step := ⟨⟨8, 8⟩, ⟨⟨0, 0⟩, 4096⟩, .writeFile "/ghost" [2] 0⟩
    ¬NoOrphans exported (run exported s [set]) ∧
      attrs (run exported s [set, write]).xattributes "/ghost" "user.tag" = some [1] := by
  refine ⟨fun h => ?_, by decide⟩
  have hnamed := h ⟨"/ghost", "user.tag", [1]⟩ (by decide)
  revert hnamed
  decide

theorem no_orphans_samples :
    let set : Step := ⟨⟨7, 7⟩, ⟨⟨0, 0⟩, 4096⟩, .setXAttributes "/a" "user.tag" [1]⟩
    let delete : Step := ⟨⟨7, 7⟩, ⟨⟨0, 0⟩, 4096⟩, .deleteItem "/a"⟩
    NoOrphans exported (run exported ⟨samples, Table.empty SameKey⟩ [set, delete]) := by
  refine (no_orphans exported samples
    [⟨⟨7, 7⟩, ⟨⟨0, 0⟩, 4096⟩, .setXAttributes "/a" "user.tag" [1]⟩,
      ⟨⟨7, 7⟩, ⟨⟨0, 0⟩, 4096⟩, .deleteItem "/a"⟩]
    ⟨fun _ => by decide, fun _ l _ p hne hp => ?_, trivial⟩ 2).1
  have hrows : ∀ r ∈ (Step.serve exported ⟨samples, Table.empty SameKey⟩
      ⟨⟨7, 7⟩, ⟨⟨0, 0⟩, 4096⟩, .setXAttributes "/a" "user.tag" [1]⟩).2.xattributes.rows,
      r.path = "/a" := by decide
  obtain ⟨r, hr, rfl⟩ := hp
  exact (hne (hrows r hr)).elim

end Runs

end ServerOrphans
