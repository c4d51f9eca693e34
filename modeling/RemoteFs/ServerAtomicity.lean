import RemoteFs.ServerExchange
import RemoteFs.ServerRequests

/-! # What a refused rename or deletion leaves behind

The tree is changed before the table, and neither change is taken back. A request that is
answered with an error has changed nothing exactly if it stops before the first change or its
changes come to nothing. -/
namespace ServerAtomicity

open OsPaths
open PosixTree
open PosixFileTree
open PosixCalls
open ServerPaths
open ServerDatabase
open ServerStorage
open ServerFileSystem
open ServerExchange
open ServerXattributes
open ServerXattributeMoves
open ServerRequests

structure Unchanged (s s' : Server) : Prop where
  tree : s'.tree.objects = s.tree.objects
  xattributes : s'.xattributes = s.xattributes

def Atomic (s : Server) (r : Answer) : Prop := ∀ e, r.1 = .error e → Unchanged s r.2

section Trees

variable {t t' : FileTree} {a b : Path}

def Moves (t : FileTree) (a b : Path) : Prop :=
  ∃ lo ln, place t.objects a = some lo ∧ place t.objects b = some ln ∧ Renames t lo ln

def SameSubtrees (t : FileTree) (a b : Path) : Prop :=
  ∃ la lb, place t.objects a = some la ∧ t.objects (tempOf la) = none ∧
    place (moved t.objects la (tempOf la)) b = some lb ∧
    ∀ s, t.objects (la ++ s) = t.objects (lb ++ s)

theorem rename_unchanged (h : PosixCalls.rename t a b = .ok t') :
    t'.objects = t.objects ↔ ¬Moves t a b := by
  obtain ⟨lo, ln, hlo, hln, hcase⟩ := rename_objects h
  rcases hcase with ⟨-, hsame, rfl⟩ | ⟨hr, ho⟩
  · refine iff_of_true rfl ?_
    rintro ⟨lo', ln', hlo', hln', hr⟩
    obtain rfl := Option.some.inj (hlo'.symm.trans hlo)
    obtain rfl := Option.some.inj (hln'.symm.trans hln)
    exact hr.apart.ne hsame
  · exact iff_of_false (hr.objects_ne ho) fun hno => hno ⟨lo, ln, hlo, hln, hr⟩

theorem moves_ok (h : Moves t a b) : ∃ t', PosixCalls.rename t a b = .ok t' := by
  obtain ⟨lo, ln, hlo, hln, hr⟩ := h
  obtain ⟨t', ht', -⟩ := rename_ok_of_place hlo hln hr
  exact ⟨t', ht'⟩

/-- An exchange that goes through does not show exactly if the subtrees are the same. -/
theorem exchange_unchanged (h : renameExchange t a b = (.ok (), t')) :
    t'.objects = t.objects ↔ SameSubtrees t a b := by
  have hends := renameExchange_ends t a b
  rw [h] at hends
  cases hends with
  | finished t₁ t₂ _ h₁ h₂ h₃ =>
    obtain ⟨la, hla, hr, ho⟩ := parks h₁
    constructor
    · intro he
      have hfree : t.objects (tempOf la) = none := by
        by_contra hne
        have hlt := card_replaced hr.apart ho hne
        have hle₂ := rename_card h₂
        have hle₃ := rename_card h₃
        rw [support_congr he] at hle₃
        omega
      obtain ⟨lb, hlb, -, -, hex⟩ := exchanged_of_free hla hr hfree ho h₂ h₃
      refine ⟨la, lb, hla, hfree, ho ▸ hlb, fun s => ?_⟩
      rw [← hex.first, he]
    · rintro ⟨la', lb, hla', hfree, hlb, hsame⟩
      obtain rfl := Option.some.inj (hla'.symm.trans hla)
      obtain ⟨lb', hlb', -, -, hex⟩ := exchanged_of_free hla hr hfree ho h₂ h₃
      rw [ho] at hlb'
      obtain rfl := Option.some.inj (hlb'.symm.trans hlb)
      funext l
      by_cases hin : la' <+: l
      · obtain ⟨s, rfl⟩ := hin
        rw [hex.first, hsame]
      by_cases hin' : lb' <+: l
      · obtain ⟨s, rfl⟩ := hin'
        rw [hex.second, hsame]
      · exact hex.elsewhere l hin hin'

end Trees

section Handlers

variable {fs : FileSystem} {s : Server} {user : AuthenticatedUser} {path : Path}

theorem atomic_checked {next : Answer} : Atomic s (checked fs s user path next) ↔
    (Routes.checkPermission fs s.tree.objects user path .write = .ok () → Atomic s next) := by
  unfold checked
  cases Routes.checkPermission fs s.tree.objects user path .write with
  | ok u => exact ⟨fun h _ => h, fun h => h rfl⟩
  | error e => exact iff_of_true (fun _ _ => ⟨rfl, rfl⟩) nofun

theorem atomic_table_ok {t : FileTree} {x : Xattributes} :
    Atomic s (thenTable ⟨t, s.xattributes⟩ (.ok (), x)) :=
  fun _ he => by cases he

/-- A statement that fails leaves what was done to the tree. -/
theorem atomic_table_error {t : FileTree} {e : DatabaseError} :
    Atomic s (thenTable ⟨t, s.xattributes⟩ (.error e, s.xattributes)) ↔
      t.objects = s.tree.objects :=
  ⟨fun h => (h _ rfl).tree, fun h _ _ => ⟨h, rfl⟩⟩

theorem atomic_tree_error {α : Type} {t : FileTree} {e : StorageError}
    {next : α → Server → Answer} :
    Atomic s (thenTree s (.error e, t) next) ↔ t.objects = s.tree.objects :=
  ⟨fun h => (h _ rfl).tree, fun h _ _ => ⟨h, rfl⟩⟩

theorem atomic_finish {r : Except Errno FileTree} {next : Unit → Server → Answer}
    (hnext : ∀ t, r = .ok t → Atomic s (next () { s with tree := t })) :
    Atomic s (thenTree s (finish s.tree r) next) := by
  cases r with
  | error e => exact atomic_tree_error.mpr rfl
  | ok t => exact hnext t rfl

theorem deleteItem_atomic (fs : FileSystem) (s : Server) (user : AuthenticatedUser)
    (path : String) : Atomic s (deleteItem fs s user path) := by
  refine atomic_checked.mpr fun _ => ?_
  have htable : ∀ t, Atomic s (thenTable ⟨t, s.xattributes⟩
      (removeAllXAttributes s.xattributes path)) := fun t => atomic_table_ok
  unfold delete
  dsimp only
  split
  · exact atomic_tree_error.mpr rfl
  · split
    · split
      · exact atomic_tree_error.mpr rfl
      · exact atomic_finish fun t _ => htable t
    · exact atomic_finish fun t _ => htable t

end Handlers

/-- What the rename comes to before its paths are looked up in the table. -/
def Safe (fs : FileSystem) (s : Server) (oldPath newPath : String) (flags : RenameFlags) : Prop :=
  let a := makeRealPath fs.realPath (components oldPath)
  let b := makeRealPath fs.realPath (components newPath)
  if flags.exchange then
    if (renameExchange s.tree a b).1 = .ok () then
      ¬ExchangeClash (attrs s.xattributes) oldPath newPath ∨ SameSubtrees s.tree a b
    else Keeps s.tree a b
  else Moves s.tree a b → (flags.noreplace = true → (lstat s.tree.objects b).isNone) →
    ¬Clash (attrs s.xattributes) oldPath newPath

section Renames

variable {fs : FileSystem} {s : Server} {oldPath newPath : String} {flags : RenameFlags}

theorem exchange_atomic_iff (hx : flags.exchange = true) :
    Atomic s (thenTree s (ServerFileSystem.rename fs s.tree (components oldPath)
      (components newPath) flags) fun _ s =>
        thenTable s (exchangeXAttributes s.xattributes oldPath newPath)) ↔
      Safe fs s oldPath newPath flags := by
  obtain ⟨r, hr⟩ : ∃ r, r = ServerFileSystem.rename fs s.tree (components oldPath)
    (components newPath) flags := ⟨_, rfl⟩
  have hex : r = renameExchange s.tree (makeRealPath fs.realPath (components oldPath))
      (makeRealPath fs.realPath (components newPath)) := by
    rw [hr, ServerFileSystem.rename, if_pos hx]
  unfold Safe
  dsimp only
  rw [if_pos hx, ← hr, ← hex]
  obtain ⟨res, t⟩ := r
  cases res with
  | error e =>
    rw [if_neg (by simp), atomic_tree_error]
    have hkeeps := failed_exchange_keeps_iff fs s.tree (components oldPath) (components newPath)
      flags hx (by rw [← hr]; simp)
    rwa [← hr] at hkeeps
  | ok u =>
    rw [if_pos rfl]
    unfold thenTree
    dsimp only
    by_cases hc : ExchangeClash (attrs s.xattributes) oldPath newPath
    · rw [exchange_clash hc, atomic_table_error, exchange_unchanged hex.symm, or_iff_right]
      exact not_not.mpr hc
    · obtain ⟨x, hx, -⟩ := exchange_attrs hc
      rw [hx]
      exact iff_of_true atomic_table_ok (.inl hc)

theorem plain_atomic_iff (hx : ¬flags.exchange = true) :
    Atomic s (thenTree s (ServerFileSystem.rename fs s.tree (components oldPath)
      (components newPath) flags) fun _ s =>
        thenTable s (renameXAttributes s.xattributes oldPath newPath)) ↔
      Safe fs s oldPath newPath flags := by
  unfold Safe ServerFileSystem.rename
  dsimp only
  rw [if_neg hx, if_neg hx]
  by_cases hno : (flags.noreplace && (lstat s.tree.objects
      (makeRealPath fs.realPath (components newPath))).isSome) = true
  · rw [if_pos hno]
    refine iff_of_true (atomic_tree_error.mpr rfl) fun _ hfree => ?_
    rw [Bool.and_eq_true] at hno
    have hnone := hfree hno.1
    rw [Option.isNone_iff_eq_none] at hnone
    rw [hnone] at hno
    cases hno.2
  rw [if_neg hno]
  have hfree : flags.noreplace = true →
      (lstat s.tree.objects (makeRealPath fs.realPath (components newPath))).isNone := by
    intro hflag
    rw [hflag, Bool.true_and] at hno
    exact Option.isNone_iff_eq_none.mpr (Option.not_isSome_iff_eq_none.mp hno)
  cases h : PosixCalls.rename s.tree (makeRealPath fs.realPath (components oldPath))
      (makeRealPath fs.realPath (components newPath)) with
  | error e =>
    refine iff_of_true (atomic_tree_error.mpr rfl) fun hm => ?_
    obtain ⟨t', ht'⟩ := moves_ok hm
    cases h.symm.trans ht'
  | ok t =>
    unfold finish thenTree renameXAttributes
    dsimp only
    by_cases hc : Clash (attrs s.xattributes) oldPath newPath
    · rw [updatePath_clash hc, atomic_table_error, rename_unchanged h]
      exact ⟨fun hno hm => (hno hm).elim, fun hall hm => hall hm hfree hc⟩
    · obtain ⟨x, hx, -⟩ := updatePath_attrs hc
      rw [hx]
      exact iff_of_true atomic_table_ok fun _ _ => hc

end Renames

/-- A deletion that is answered with an error has changed nothing. A rename that is has changed
nothing exactly if the user may not ask for it or it is safe: its table statement succeeds where
the tree has changed, and an exchange of the tree fails before its first rename or after the
second has taken the first one back. -/
theorem error_changes_nothing_iff (fs : FileSystem) (s : Server) (user : AuthenticatedUser)
    (m : Moment) :
    (∀ path, Atomic s (serve fs s user m (.deleteItem path))) ∧
    ∀ oldPath newPath flags, Atomic s (serve fs s user m (.rename oldPath newPath flags)) ↔
      (Routes.checkPermission fs s.tree.objects user (components oldPath) .write = .ok () →
        Routes.checkPermission fs s.tree.objects user (components newPath) .write = .ok () →
        Safe fs s oldPath newPath (.fromBitsTruncate flags)) := by
  refine ⟨deleteItem_atomic fs s user, fun oldPath newPath flags => ?_⟩
  unfold serve ServerRequests.rename
  dsimp only
  rw [atomic_checked, atomic_checked]
  refine imp_congr_right fun _ => imp_congr_right fun _ => ?_
  by_cases hx : (RenameFlags.fromBitsTruncate flags).exchange = true
  · simp only [hx, ↓reduceIte]
    exact exchange_atomic_iff hx
  · simp only [hx, Bool.false_eq_true, ↓reduceIte]
    exact plain_atomic_iff hx

def tagged : Server :=
  ⟨samples, ⟨[⟨"/a", "user.tag", [1]⟩, ⟨"/b.txt", "user.tag", [2]⟩], by decide⟩⟩

/-- The rename replaces the second file and is then answered with the table's error. -/
theorem refused_rename_replaces :
    let r := serve exported tagged ⟨7, 7⟩ ⟨⟨0, 0⟩, 4096⟩ (.rename "/a" "/b.txt" 0)
    r.1 = .error (.internalError (.sql "Database query error: " .constraint "")) ∧
      r.2.tree.objects [.text "srv", .text "a"] = none ∧ ¬Atomic tagged r := by
  have herror : (serve exported tagged ⟨7, 7⟩ ⟨⟨0, 0⟩, 4096⟩ (.rename "/a" "/b.txt" 0)).1 =
      .error (.internalError (.sql "Database query error: " .constraint "")) := by decide
  refine ⟨herror, by decide, fun h => ?_⟩
  have hkept := congrFun (h _ herror).tree [.text "srv", .text "a"]
  revert hkept
  decide

end ServerAtomicity
