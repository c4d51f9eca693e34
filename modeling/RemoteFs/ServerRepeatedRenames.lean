import RemoteFs.ServerRepeatedRequests

/-! # Renames that are executed again

A rename that moved an object is refused the next time, unless its old path leads to an object
again. An exchange that is refused and leaves the objects is refused again. -/
namespace ServerRepeatedRenames

open ClientAttributes
open OsPaths
open PosixTree
open PosixFileTree
open PosixCalls
open PosixWays
open Resending
open ServerPaths
open ServerStorage
open ServerFileSystem
open ServerExchange
open ServerXattributes
open ServerXattributeMoves
open ServerRequests
open ServerGrowth
open ServerAtomicity
open ServerOrphans
open ServerRepeatedRequests

section Calls

variable {t u : FileTree} {a b : Path}

theorem rename_unnamed (h : ¬Named t.objects a) (ha : a.fileName ≠ none)
    (hb : b.fileName ≠ none) : PosixCalls.rename t a b = .error .noEntry := by
  have hplace : ∀ p : Path, p.fileName ≠ none → place t.objects p = resolve t.objects false p := by
    intro p hp
    obtain ⟨n, hn⟩ := Option.ne_none_iff_exists'.mp hp
    rw [place, hn]
  have hmis : ∀ (p : Path) e, p.fileName ≠ none → place t.objects p = none →
      misnamed t p e = .noEntry := by
    intro p e hp hnone
    rw [misnamed, ← hplace p hp, hnone]
    rfl
  unfold PosixCalls.rename
  split
  · rename_i lo ln hlo hln
    have hfree : t.objects lo = none := by
      by_contra hne
      exact h (named_of_place hlo hne)
    unfold renameAt
    rw [hfree]
  · rename_i ln hlo hln
    rw [hmis a _ ha hlo]
  · rename_i lo hlo hln
    rw [hmis b _ hb hln]
  · rename_i hlo hln
    rw [hmis a _ ha hlo, if_neg (by decide)]

theorem results_of_map {x y : Except Errno FileTree}
    (h : x.map FileTree.objects = y.map FileTree.objects) :
    (∃ e, x = .error e ∧ y = .error e) ∨
      ∃ t u, x = .ok t ∧ y = .ok u ∧ t.objects = u.objects := by
  cases x with
  | error e =>
    cases y with
    | error e' =>
      injection h with h
      exact .inl ⟨e, rfl, by rw [h]⟩
    | ok u => cases h
  | ok t =>
    cases y with
    | error e' => cases h
    | ok u => exact .inr ⟨t, u, rfl, rfl, Except.ok.inj h⟩

def SameEnd (r r' : ServerFileSystem.Result Unit) : Prop :=
  r.1 = r'.1 ∧ r.2.objects = r'.2.objects

theorem renameExchange_congr (h : u.objects = t.objects) :
    SameEnd (renameExchange u a b) (renameExchange t a b) := by
  unfold renameExchange
  dsimp only
  rcases results_of_map (rename_congr h a (a.withExtension ".swap_tmp")) with
    ⟨e, hu, ht⟩ | ⟨u₁, t₁, hu, ht, h₁⟩
  · rw [hu, ht]
    exact ⟨rfl, h⟩
  rw [hu, ht]
  dsimp only
  rcases results_of_map (rename_congr h₁ b a) with ⟨e, hu, ht⟩ | ⟨u₂, t₂, hu, ht, h₂⟩
  · rw [hu, ht]
    exact ⟨rfl, h₁⟩
  rw [hu, ht]
  dsimp only
  rcases results_of_map (rename_congr h₂ (a.withExtension ".swap_tmp") b) with
    ⟨e, hu, ht⟩ | ⟨u₃, t₃, hu, ht, h₃⟩
  · rw [hu, ht]
    exact ⟨rfl, h₂⟩
  · rw [hu, ht]
    exact ⟨rfl, h₃⟩

end Calls

/-- The old path of a rename leads to an object again when the move is over. -/
def Returns (t : FileTree) (a b : Path) : Prop :=
  ∃ lo ln, place t.objects a = some lo ∧ place t.objects b = some ln ∧ Renames t lo ln ∧
    Named (moved t.objects lo ln) a

section Requests

variable {fs : FileSystem} {s s' : Server} {user : AuthenticatedUser} {oldPath newPath : String}
variable {flags : ℕ}

/-- The rename passes its checks: the user may ask for it, and no flag forbids it. -/
structure Admitted (fs : FileSystem) (s : Server) (user : AuthenticatedUser)
    (oldPath newPath : String) (flags : RenameFlags) : Prop where
  old : Permitted fs s user oldPath
  new : Permitted fs s user newPath
  free : flags.exchange = false → flags.noreplace = true →
    lstat s.tree.objects (real fs newPath) = none

theorem rename_not_admitted
    (h : ¬Admitted fs s user oldPath newPath (.fromBitsTruncate flags)) :
    Refuses (copies fs user (.rename oldPath newPath flags)) s := by
  intro m
  refine checked_refuses fun hold => checked_refuses fun hnew => ?_
  by_cases hx : (RenameFlags.fromBitsTruncate flags).exchange = true
  · exact (h ⟨hold, hnew, fun hno => by rw [hx] at hno; cases hno⟩).elim
  have hx' := Bool.eq_false_iff.mpr hx
  rcases rename_cases fs s.tree (components oldPath) (components newPath) hx' with
    ⟨e, he⟩ | ⟨t', hfree, -, -⟩
  · rw [he]
    exact ⟨_, rfl⟩
  · exact (h ⟨hold, hnew, fun _ => hfree⟩).elim

theorem rename_admitted (hx : (RenameFlags.fromBitsTruncate flags).exchange = false)
    (h : Admitted fs s user oldPath newPath (.fromBitsTruncate flags)) (m : Moment) :
    copies fs user (.rename oldPath newPath flags) m s =
      thenTree s (ServerFileSystem.rename fs s.tree (components oldPath) (components newPath)
        (.fromBitsTruncate flags))
        fun _ s => thenTable s (renameXAttributes s.xattributes oldPath newPath) := by
  unfold copies serve ServerRequests.rename
  dsimp only
  rw [checked_of_ok h.old, checked_of_ok h.new]
  simp only [hx, Bool.false_eq_true, ↓reduceIte]

theorem updatePath_absent {x : Xattributes} (h : ∀ r ∈ x.rows, r.path ≠ oldPath) :
    updatePath x newPath oldPath = (.ok (), x) := by
  have hc : ¬Clash (attrs x) oldPath newPath := by
    rintro ⟨-, name, hname, -⟩
    obtain ⟨r, hr, hp, -⟩ := attrs_ne_none.mp hname
    exact h r hr hp
  obtain ⟨x', hx', hrows⟩ := updatePath_rows hc
  refine hx'.trans (congrArg _ (SqlTable.Table.ext_rows ?_))
  refine hrows.trans ((List.map_congr_left fun r hr => ?_).trans (List.map_id _))
  rw [if_neg (mt atPath_iff.mp (h r hr))]
  rfl

/-- Attributes that were moved are not moved again. -/
theorem renameXAttributes_again {x x' : Xattributes}
    (h : renameXAttributes x oldPath newPath = (.ok (), x')) :
    renameXAttributes x' oldPath newPath = (.ok (), x') := by
  by_cases hsame : oldPath = newPath
  · rw [hsame]
    exact updatePath_self _ _
  refine updatePath_absent fun r hr hp => ?_
  have hc : ¬Clash (attrs x) oldPath newPath := updatePath_ok (by
    rw [renameXAttributes] at h
    rw [h])
  obtain ⟨x₁, hx₁, hrows⟩ := updatePath_rows hc
  obtain rfl := (Prod.mk.inj (hx₁.symm.trans h)).2
  rcases (mem_moved hrows).mp hr with ⟨hnew, -⟩ | ⟨hold, -⟩
  · exact hsame (hp.symm.trans hnew)
  · exact hold hp

/-- An admitted rename that moves no object is refused, or a further copy changes nothing. -/
theorem rename_still (hx : (RenameFlags.fromBitsTruncate flags).exchange = false)
    (h : Admitted fs s user oldPath newPath (.fromBitsTruncate flags))
    (hm : ¬Moves s.tree (real fs oldPath) (real fs newPath)) :
    Refuses (copies fs user (.rename oldPath newPath flags)) s ∨
      ∃ s', (∀ m, copies fs user (.rename oldPath newPath flags) m s = (.ok .done, s')) ∧
        ∀ m, copies fs user (.rename oldPath newPath flags) m s' = (.ok .done, s') := by
  rcases rename_cases fs s.tree (components oldPath) (components newPath) hx with
    ⟨e, he⟩ | ⟨t', -, ht', he⟩
  · refine .inl fun m => ?_
    rw [rename_admitted hx h, he]
    exact ⟨_, rfl⟩
  obtain ⟨lo, ln, hlo, hln, ⟨-, -, rfl⟩ | ⟨hr, -⟩⟩ := rename_objects ht'
  · by_cases hc : Clash (attrs s.xattributes) oldPath newPath
    · refine .inl fun m => ?_
      rw [rename_admitted hx h, he, thenTree, renameXAttributes, updatePath_clash hc]
      exact ⟨_, rfl⟩
    · obtain ⟨x, hx', -⟩ := updatePath_attrs hc
      refine .inr ⟨⟨s.tree, x⟩, fun m => ?_, fun m => ?_⟩
      · rw [rename_admitted hx h, he, thenTree, renameXAttributes, hx']
        rfl
      · have hadmitted : Admitted fs ⟨s.tree, x⟩ user oldPath newPath (.fromBitsTruncate flags) :=
          ⟨h.old, h.new, h.free⟩
        rw [rename_admitted hx hadmitted, he, thenTree, renameXAttributes_again hx']
        rfl
  · exact (hm ⟨lo, ln, hlo, hln, hr⟩).elim

/-- An admitted rename that moves an object, and what its old path leads to afterwards. -/
theorem rename_moves (hx : (RenameFlags.fromBitsTruncate flags).exchange = false)
    (h : Admitted fs s user oldPath newPath (.fromBitsTruncate flags))
    (hm : Moves s.tree (real fs oldPath) (real fs newPath)) :
    ∃ t', ServerFileSystem.rename fs s.tree (components oldPath) (components newPath)
        (.fromBitsTruncate flags) = (.ok (), t') ∧ t'.objects ≠ s.tree.objects ∧
      (¬Returns s.tree (real fs oldPath) (real fs newPath) →
        ¬Named t'.objects (real fs oldPath)) := by
  obtain ⟨t, ht⟩ := moves_ok hm
  have hcall : ServerFileSystem.rename fs s.tree (components oldPath) (components newPath)
      (.fromBitsTruncate flags) = (.ok (), t) := by
    unfold ServerFileSystem.rename
    dsimp only
    rw [if_neg (by simp [hx]), if_neg]
    · rw [← real, ← real, ht]
      rfl
    · intro hno
      rw [Bool.and_eq_true] at hno
      have hfree := h.free hx hno.1
      rw [real] at hfree
      rw [hfree] at hno
      cases hno.2
  obtain ⟨lo, ln, hlo, hln, hr⟩ := hm
  refine ⟨t, hcall, ?_⟩
  obtain ⟨lo', ln', hlo', hln', hcase⟩ := rename_objects ht
  obtain rfl := Option.some.inj (hlo'.symm.trans hlo)
  obtain rfl := Option.some.inj (hln'.symm.trans hln)
  rcases hcase with ⟨-, hsame, -⟩ | ⟨-, ho⟩
  · exact (hr.apart.ne hsame).elim
  · refine ⟨hr.objects_ne ho, fun hno hnamed => hno ⟨lo', ln', hlo, hln, hr, ?_⟩⟩
    rwa [← ho]

theorem rename_gone (hx : (RenameFlags.fromBitsTruncate flags).exchange = false)
    (hgone : ¬Named s.tree.objects (real fs oldPath))
    (hold : (real fs oldPath).fileName ≠ none) (hnew : (real fs newPath).fileName ≠ none) :
    RefusesFinally (copies fs user (.rename oldPath newPath flags)) transient s := by
  intro m
  refine checked_final (checked_final ?_)
  unfold ServerFileSystem.rename
  dsimp only
  rw [if_neg (by simp [hx]), ← real, ← real]
  split
  · exact ⟨.alreadyExists, rfl, rfl⟩
  · rw [rename_unnamed hgone hold hnew]
    exact ⟨.notFound, rfl, rfl⟩

theorem Admitted.congr (hun : Unchanged s s')
    (h : Admitted fs s user oldPath newPath (.fromBitsTruncate flags)) :
    Admitted fs s' user oldPath newPath (.fromBitsTruncate flags) := by
  obtain ⟨hold, hnew, hfree⟩ := h
  refine ⟨?_, ?_, ?_⟩
  · rwa [Permitted, hun.tree]
  · rwa [Permitted, hun.tree]
  · rwa [hun.tree]

theorem exchange_admitted (hx : (RenameFlags.fromBitsTruncate flags).exchange = true)
    (h : Admitted fs s user oldPath newPath (.fromBitsTruncate flags)) (m : Moment) :
    copies fs user (.rename oldPath newPath flags) m s =
      thenTree s (ServerFileSystem.rename fs s.tree (components oldPath) (components newPath)
        (.fromBitsTruncate flags))
        fun _ s => thenTable s (exchangeXAttributes s.xattributes oldPath newPath) := by
  unfold copies serve ServerRequests.rename
  dsimp only
  rw [checked_of_ok h.old, checked_of_ok h.new]
  simp only [hx, ↓reduceIte]

theorem rename_exchange {t : FileTree}
    (hx : (RenameFlags.fromBitsTruncate flags).exchange = true) :
    ServerFileSystem.rename fs t (components oldPath) (components newPath)
      (.fromBitsTruncate flags) = renameExchange t (real fs oldPath) (real fs newPath) := by
  rw [ServerFileSystem.rename]
  exact if_pos hx

theorem exchange_congr (hx : (RenameFlags.fromBitsTruncate flags).exchange = true)
    (h : Admitted fs s user oldPath newPath (.fromBitsTruncate flags)) (hun : Unchanged s s')
    (m : Moment) :
    (copies fs user (.rename oldPath newPath flags) m s').1 =
        (copies fs user (.rename oldPath newPath flags) m s).1 ∧
      Unchanged (copies fs user (.rename oldPath newPath flags) m s).2
        (copies fs user (.rename oldPath newPath flags) m s').2 := by
  rw [exchange_admitted hx h, exchange_admitted hx (h.congr hun), rename_exchange hx,
    rename_exchange hx]
  obtain ⟨hres, hobj⟩ := renameExchange_congr (a := real fs oldPath) (b := real fs newPath)
    hun.tree
  generalize renameExchange s'.tree (real fs oldPath) (real fs newPath) = r' at hres hobj
  generalize renameExchange s.tree (real fs oldPath) (real fs newPath) = r at hres hobj
  obtain ⟨res, t⟩ := r
  obtain ⟨res', t'⟩ := r'
  dsimp only at hres hobj
  subst hres
  cases res' with
  | error e => exact ⟨rfl, hobj, hun.xattributes⟩
  | ok u =>
    unfold thenTree
    dsimp only
    rw [hun.xattributes]
    obtain ⟨res, x⟩ := exchangeXAttributes s.xattributes oldPath newPath
    cases res with
    | ok u => exact ⟨rfl, hobj, rfl⟩
    | error e => exact ⟨rfl, hobj, rfl⟩

theorem exchange_refused (hx : (RenameFlags.fromBitsTruncate flags).exchange = true)
    (h : Admitted fs s user oldPath newPath (.fromBitsTruncate flags))
    (hsafe : Safe fs s oldPath newPath (.fromBitsTruncate flags))
    (hno : (renameExchange s.tree (real fs oldPath) (real fs newPath)).1 = .ok () →
      ExchangeClash (attrs s.xattributes) oldPath newPath) (m : Moment) (hun : Unchanged s s') :
    ∃ e s'', copies fs user (.rename oldPath newPath flags) m s' = (.error e, s'') ∧
      Unchanged s s'' := by
  have herror : ∃ e, (copies fs user (.rename oldPath newPath flags) m s).1 = .error e := by
    rw [exchange_admitted hx h, rename_exchange hx]
    generalize renameExchange s.tree (real fs oldPath) (real fs newPath) = r at hno
    obtain ⟨res, t⟩ := r
    cases res with
    | error e => exact ⟨_, rfl⟩
    | ok u =>
      rw [thenTree]
      dsimp only
      rw [exchange_clash (hno rfl)]
      exact ⟨_, rfl⟩
  obtain ⟨e, he⟩ := herror
  have hkept : Unchanged s (copies fs user (.rename oldPath newPath flags) m s).2 := by
    have hatomic := (exchange_atomic_iff hx).mpr hsafe
    rw [← exchange_admitted hx h m] at hatomic
    exact hatomic e he
  obtain ⟨hres, hsame⟩ := exchange_congr hx h hun m
  refine ⟨e, _, Prod.ext (hres.trans he) rfl, ?_, ?_⟩
  · exact hsame.tree.trans hkept.tree
  · exact hsame.xattributes.trans hkept.xattributes

end Requests

end ServerRepeatedRenames
