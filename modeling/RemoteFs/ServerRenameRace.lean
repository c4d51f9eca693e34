import RemoteFs.ServerCallSteps
import RemoteFs.ServerOrphans

/-! # A rename that must not replace anything

It looks at the new path first, and renames by a second call. Between the two the tree belongs to
the other requests. -/
namespace ServerRenameRace

open Interleaving
open OsPaths
open PosixTree
open PosixFileTree
open PosixCalls
open PosixWays
open ServerPaths
open ServerStorage
open ServerFileSystem
open ServerRequests
open ServerExchange
open ServerOrphans
open ServerCallSteps

variable {ι : Type} [DecidableEq ι]

abbrev Requests (ι : Type) := Pool ι FileTree SysCall (Except ApiError Unit)

structure Made where
  user : AuthenticatedUser
  moment : Moment
  request : Request

def start (fs : FileSystem) (handle : FileTree → Location → Option Location) (made : ι → Made)
    (t : FileTree) : Requests ι :=
  ⟨fun i => steps fs (made i).user handle (made i).moment (made i).request, t⟩

/-- The calls before the last one only look, and the last one comes after a look at which the new
path led to nothing. -/
def Waiting (old new : Path) : Steps → Prop
  | .pure r => ∃ e, r = .error e
  | .step effect next => ∀ t, effect t = .look ∧
      (Waiting old new (next t) ∨ next t = renameStep old new ∧ ¬Named t.objects new)

/-- No request but `i` puts an object at the new path once `i` has found that there is none. -/
def Undisturbed (i : ι) (old new : Path) (c : Requests ι) (j : ι) : Prop :=
  j ≠ i → c.calls i = renameStep old new → ¬Named c.state.objects new →
    ¬Named (c.turn SysCall.apply j).state.objects new

section Calls

variable {fs : FileSystem} {user : AuthenticatedUser} {old new path : Path} {next : Steps}

theorem waiting_fails (e : StorageError) : Waiting old new (fails e) := ⟨_, rfl⟩

theorem waiting_checkSteps (h : Waiting old new next) :
    Waiting old new (checkSteps fs user path next) := by
  unfold checkSteps
  refine fun t => ⟨rfl, .inl ?_⟩
  dsimp only
  split
  · exact waiting_fails _
  · refine fun t => ⟨rfl, .inl ?_⟩
    dsimp only
    split
    · exact waiting_fails _
    · split
      · exact h
      · exact ⟨_, rfl⟩

theorem waiting_renameSteps (oldPath newPath : Path) {flags : RenameFlags}
    (hno : flags.noreplace = true) (hx : flags.exchange = false) :
    Waiting (makeRealPath fs.realPath oldPath) (makeRealPath fs.realPath newPath)
      (renameSteps fs oldPath newPath flags) := by
  unfold renameSteps
  dsimp only
  rw [if_neg (by simp [hx]), if_pos hno]
  refine fun t => ⟨rfl, ?_⟩
  dsimp only
  split
  · exact .inl (waiting_fails _)
  · rename_i hnone
    exact .inr ⟨rfl, fun hnamed => hnone (Option.isSome_iff_ne_none.mpr hnamed)⟩

end Calls

/-- The request has not looked, or has found nothing and nothing is there, or is over. -/
def Cleared (i : ι) (old new : Path) (c : Requests ι) : Prop :=
  Waiting old new (c.calls i) ∨
    (c.calls i = renameStep old new ∧ ¬Named c.state.objects new) ∨
    ∃ r, c.calls i = .pure r

section Turns

variable {old new : Path} {i : ι} {c : Requests ι}

theorem turn_pure {r : Except ApiError Unit} (h : c.calls i = .pure r) :
    c.turn SysCall.apply i = c := by
  rw [Pool.turn, h]

theorem turn_step {effect : FileTree → SysCall} {next : FileTree → Steps}
    (h : c.calls i = .step effect next) : (c.turn SysCall.apply i).calls i = next c.state ∧
      (c.turn SysCall.apply i).state = (effect c.state).apply c.state :=
  Pool.turn_step h

theorem cleared_turn (j : ι) (h : Cleared i old new c) (hc : Undisturbed i old new c j) :
    Cleared i old new (c.turn SysCall.apply j) := by
  by_cases hji : j = i
  · subst hji
    rcases h with h | ⟨h, -⟩ | ⟨r, h⟩
    · cases hcall : c.calls j with
      | pure r =>
        rw [turn_pure hcall]
        exact .inr (.inr ⟨_, hcall⟩)
      | step effect next =>
        obtain ⟨hnext, hstate⟩ := turn_step hcall
        rw [hcall] at h
        obtain ⟨hlook, hwait | ⟨hlast, hnone⟩⟩ := h c.state
        · exact .inl (by rwa [hnext])
        · refine .inr (.inl ⟨hnext.trans hlast, ?_⟩)
          rw [hstate, hlook]
          exact hnone
    · obtain ⟨hnext, -⟩ := turn_step h
      refine .inr (.inr ?_)
      rw [hnext]
      split
      · exact ⟨_, rfl⟩
      · exact ⟨_, rfl⟩
    · rw [turn_pure h]
      exact .inr (.inr ⟨r, h⟩)
  · have hcalls : (c.turn SysCall.apply j).calls i = c.calls i := Pool.turn_other (Ne.symm hji)
    rcases h with h | ⟨h, hnone⟩ | ⟨r, h⟩
    · exact .inl (by rwa [hcalls])
    · exact .inr (.inl ⟨hcalls.trans h, hc hji h hnone⟩)
    · exact .inr (.inr ⟨r, hcalls.trans h⟩)

/-- A request that is cleared and returns success has found nothing at the new path. -/
theorem cleared_returns (h : Cleared i old new c)
    (hreturns : c.Returns SysCall.apply i (.ok ())) : ¬Named c.state.objects new := by
  obtain ⟨hopen, hdone⟩ := hreturns
  rcases h with h | ⟨-, hnone⟩ | ⟨r, h⟩
  · cases hcall : c.calls i with
    | pure r =>
      rw [hcall] at hopen
      cases hopen
    | step effect next =>
      rw [(turn_step hcall).1] at hdone
      rw [hcall] at h
      obtain ⟨-, hwait | ⟨hlast, -⟩⟩ := h c.state
      · cases hrest : next c.state with
        | pure r =>
          rw [hrest] at hdone hwait
          obtain ⟨e, rfl⟩ := hwait
          cases hdone
        | step effect next =>
          rw [hrest] at hdone
          cases hdone
      · rw [hlast] at hdone
        cases hdone
  · exact hnone
  · rw [h] at hopen
    cases hopen

end Turns

/-- A rename with NOREPLACE and without EXCHANGE, among any requests that take turns as they may:
where no other request puts an object at the new path between its look and its rename, a success
means that there was none. -/
theorem noreplace_never_overwrites (fs : FileSystem)
    (handle : FileTree → Location → Option Location) (made : ι → Made) (t : FileTree) (i : ι)
    (oldPath newPath : String) (flags : ℕ)
    (hi : (made i).request = .rename oldPath newPath flags)
    (hno : (RenameFlags.fromBitsTruncate flags).noreplace = true)
    (hx : (RenameFlags.fromBitsTruncate flags).exchange = false) (schedule : List ι)
    (h : (start fs handle made t).Along SysCall.apply
      (Undisturbed i (real fs oldPath) (real fs newPath)) schedule) :
    let c := (start fs handle made t).turns SysCall.apply schedule
    c.Returns SysCall.apply i (.ok ()) → ¬Named c.state.objects (real fs newPath) := by
  refine cleared_returns (Pool.turns_invariant (fun c j => cleared_turn j) schedule _ (.inl ?_) h)
  change Waiting _ _ (steps fs (made i).user handle (made i).moment (made i).request)
  rw [hi]
  exact waiting_checkSteps (waiting_checkSteps (waiting_renameSteps _ _ hno hx))

def racing (i : Bool) : Made :=
  ⟨if i then ⟨8, 8⟩ else ⟨7, 7⟩, ⟨⟨0, 0⟩, 4096⟩,
    if i then .writeFile "/new" [9] 0 else .rename "/a" "/new" 1⟩

def staying (_ : FileTree) (l : Location) : Option Location := some l

/-- The rename looks, the other user makes and writes the file, and the rename replaces it. -/
def lost : List Bool := List.replicate 5 false ++ List.replicate 7 true

theorem noreplace_overwrites :
    let c := (start exported staying racing samples).turns SysCall.apply lost
    c.Returns SysCall.apply false (.ok ()) ∧ Named c.state.objects (real exported "/new") ∧
      (lstat c.state.objects (real exported "/new")).map (fun x => (x.2.kind, x.2.uid)) =
        some (.file [9], 8) ∧
      (lstat (c.turn SysCall.apply false).state.objects (real exported "/new")).map
        (fun x => (x.2.kind, x.2.uid)) = some (.file [1], 7) := by
  refine ⟨⟨by decide, by decide⟩, fun hnone => ?_, by decide, by decide⟩
  revert hnone
  decide

theorem noreplace_never_overwrites_samples :
    let c := (start exported staying racing samples).turns SysCall.apply
      (List.replicate 5 false ++ [true])
    ¬Named c.state.objects (real exported "/new") :=
  noreplace_never_overwrites exported staying racing samples false "/a" "/new" 1 rfl (by decide)
    (by decide) (List.replicate 5 false ++ [true])
    ⟨fun h => (h rfl).elim, fun h => (h rfl).elim, fun h => (h rfl).elim, fun h => (h rfl).elim,
      fun h => (h rfl).elim, fun _ _ hnone => hnone, trivial⟩ ⟨by decide, by decide⟩

end ServerRenameRace
