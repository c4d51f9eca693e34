import RemoteFs.ServerRepeatedRenames

/-! # What a call means whose request is sent again

The client sends a request again when nothing comes back, and the server executes each copy that
arrives. A write may be repeated, unless no file has its position. A directory, a link or a
deletion is done by the first copy and refused to the next one, so a client that lost the first
answer is told of an error. -/
namespace ClientRetries

open OsPaths
open PosixTree
open PosixFileTree
open Resending
open ServerPaths
open ServerStorage
open ServerFileSystem
open ServerExchange
open ServerXattributes
open ServerXattributeMoves
open ServerRequests
open ServerAtomicity
open ServerOrphans
open ServerRewrites
open ServerRepeatedRequests
open ServerRepeatedRenames

def maxRetries : ℕ := 3

/-- The attempts of a call, where `net` says what becomes of each and when it is executed. -/
def attempts (net : ℕ → Fate × Moment) : List (Fate × Moment) :=
  (List.range (maxRetries + 1)).map net

def call (fs : FileSystem) (user : AuthenticatedUser) (request : Request)
    (net : ℕ → Fate × Moment) (s : Server) : Sent Server ServerRequests.Reply ApiError :=
  send (copies fs user request) transient (attempts net) s

/-- Success means that the operation took effect, up to times, as one copy has it; an error of
the server means that no copy has changed anything. -/
def Kept (fs : FileSystem) (user : AuthenticatedUser) (request : Request)
    (net : ℕ → Fate × Moment) (s : Server) : Prop :=
  Faithful (copies fs user request) Alike Unchanged s (call fs user request net s)

structure Calm (fs : FileSystem) (s : Server) (oldPath newPath : String) (flags : RenameFlags)
    (attempts : List (Fate × Moment)) : Prop where
  moved : flags.exchange = false → Moves s.tree (real fs oldPath) (real fs newPath) →
    ¬Clash (attrs s.xattributes) oldPath newPath → ¬Ambiguous attempts
  half : flags.exchange = false → Moves s.tree (real fs oldPath) (real fs newPath) →
    Clash (attrs s.xattributes) oldPath newPath →
      ¬Heard attempts ∨
        ¬Returns s.tree (real fs oldPath) (real fs newPath) ∧ ¬HeardAgain attempts
  exchanged : flags.exchange = true →
    (renameExchange s.tree (real fs oldPath) (real fs newPath)).1 = .ok () →
      ¬ExchangeClash (attrs s.xattributes) oldPath newPath → ¬Ambiguous attempts
  torn : flags.exchange = true → ¬Safe fs s oldPath newPath flags → ¬Heard attempts

section Operations

variable {root : List OsString} {fs : FileSystem} {s : Server} {user : AuthenticatedUser}
variable {net : ℕ → Fate × Moment} {path target oldPath newPath : String}
variable {body : List UInt8} {offset flags : ℕ} {request : Request}

theorem kept_of_refuses (h : Refuses (copies fs user request) s) : Kept fs user request net s :=
  h.faithful ⟨rfl, rfl⟩

theorem kept_once_iff (h : Once fs user request s) :
    Kept fs user request net s ↔ ¬Ambiguous (attempts net) :=
  faithful_once_iff Alike.refl h

theorem write_kept (h : ¬Strands fs s user path offset) :
    Kept fs user (.writeFile path body offset) net s := by
  by_cases hopen : Permitted fs s user path ∧ Openable s.tree.objects (real fs path)
  swap
  · exact kept_of_refuses (write_refused hopen)
  by_cases hfar : 2 ^ 63 ≤ offset
  · exact kept_of_refuses (write_far_refused hfar fun hfree => h ⟨hfar, hopen.1, hopen.2, hfree⟩)
  · exact faithful_settled
      (fun s => Written fs s.tree.objects user (components path) body offset) Alike.refl
      Alike.trans (fun m _ hs => write_again m hs)
      fun m => write_first (Nat.not_le.mp hfar) m hopen.1 hopen.2

/-- The file that a write strands is made by the first copy, and every copy fails. -/
theorem write_kept_iff : Kept fs user (.writeFile path body offset) net s ↔
    (Strands fs s user path offset →
      (OpenAgain fs s user path → ¬HeardLast (attempts net)) ∧
        (¬OpenAgain fs s user path → ¬HeardAgain (attempts net))) := by
  by_cases h : Strands fs s user path offset
  swap
  · exact iff_of_true (write_kept h) fun hstrands => (h hstrands).elim
  rw [forall_prop_of_true h]
  by_cases hagain : OpenAgain fs s user path
  · refine (faithful_stuck_iff fun m => ?_).trans
      ⟨fun hno => ⟨fun _ => hno, fun hnot => (hnot hagain).elim⟩, fun hno => hno.1 hagain⟩
    obtain ⟨e, s', hs', he, hchanged, hstuck, -⟩ := write_stranded h m
    exact ⟨e, s', hs', he, hchanged, hstuck hagain⟩
  · refine (faithful_half_iff fun m => ?_).trans
      ⟨fun hno => ⟨fun hyes => (hagain hyes).elim, fun _ => hno⟩, fun hno => hno.2 hagain⟩
    obtain ⟨e, s', hs', he, hchanged, -, hfinal⟩ := write_stranded h m
    exact ⟨e, s', hs', he, hchanged, hfinal hagain⟩

theorem makeDirectory_kept_iff : Kept ⟨absolute root⟩ user (.makeDirectory path) net s ↔
    (Makes root s user path → ¬Ambiguous (attempts net)) := by
  by_cases h : Makes root s user path
  · exact (kept_once_iff (makeDirectory_once h)).trans (imp_iff_right h).symm
  · exact iff_of_true (kept_of_refuses (makeDirectory_refused h)) fun hmakes => (h hmakes).elim

theorem createSymlink_kept_iff : Kept fs user (.createSymlink path target) net s ↔
    (Links fs s user path target → ¬Ambiguous (attempts net)) := by
  by_cases h : Links fs s user path target
  · exact (kept_once_iff (createSymlink_once h)).trans (imp_iff_right h).symm
  · exact iff_of_true (kept_of_refuses (createSymlink_refused h)) fun hlinks => (h hlinks).elim

theorem deleteItem_kept_iff : Kept fs user (.deleteItem path) net s ↔
    (Deletes fs s user path → ¬Ambiguous (attempts net)) := by
  by_cases h : Deletes fs s user path
  · exact (kept_once_iff (deleteItem_once h)).trans (imp_iff_right h).symm
  · exact iff_of_true (kept_of_refuses (deleteItem_refused h)) fun hdeletes => (h hdeletes).elim

/-- An admitted rename that moves an object is done, or fails at the table; without its object
the old path then refuses further copies. -/
theorem rename_moved (hx : (RenameFlags.fromBitsTruncate flags).exchange = false)
    (h : Admitted fs s user oldPath newPath (.fromBitsTruncate flags))
    (hm : Moves s.tree (real fs oldPath) (real fs newPath)) (m : Moment) :
    ∃ r s', copies fs user (.rename oldPath newPath flags) m s = (r, s') ∧ ¬Unchanged s s' ∧
      (¬Clash (attrs s.xattributes) oldPath newPath → r = .ok .done) ∧
      (Clash (attrs s.xattributes) oldPath newPath → ∃ e, r = .error e ∧ transient e = true) ∧
      (¬Returns s.tree (real fs oldPath) (real fs newPath) →
        RefusesFinally (copies fs user (.rename oldPath newPath flags)) transient s') := by
  obtain ⟨t, ht, hne, hgone⟩ := rename_moves hx h hm
  have hname : ∀ {p : Path} {l : Location}, place s.tree.objects p = some l →
      p.fileName ≠ none := by
    intro p l hp hnone
    rw [place, hnone] at hp
    cases hp
  obtain ⟨lo, ln, hlo, hln, -⟩ := hm
  have hagain : ∀ x, ¬Returns s.tree (real fs oldPath) (real fs newPath) →
      RefusesFinally (copies fs user (.rename oldPath newPath flags)) transient ⟨t, x⟩ :=
    fun x hno => rename_gone hx (hgone hno) (hname hlo) (hname hln)
  rw [rename_admitted hx h, ht, thenTree, renameXAttributes]
  by_cases hc : Clash (attrs s.xattributes) oldPath newPath
  · rw [updatePath_clash hc]
    exact ⟨_, ⟨t, s.xattributes⟩, rfl, fun hun => hne hun.tree, fun hno => (hno hc).elim,
      fun _ => ⟨_, rfl, rfl⟩, hagain _⟩
  · obtain ⟨x, hx', -⟩ := updatePath_attrs hc
    rw [hx']
    exact ⟨_, ⟨t, x⟩, rfl, fun hun => hne hun.tree, fun _ => rfl, fun hyes => (hc hyes).elim,
      hagain _⟩

theorem rename_kept (hcalm : Admitted fs s user oldPath newPath (.fromBitsTruncate flags) →
    Calm fs s oldPath newPath (.fromBitsTruncate flags) (attempts net)) :
    Kept fs user (.rename oldPath newPath flags) net s := by
  by_cases h : Admitted fs s user oldPath newPath (.fromBitsTruncate flags)
  swap
  · exact kept_of_refuses (rename_not_admitted h)
  obtain ⟨hmoved, hhalf, hexchanged, htorn⟩ := hcalm h
  by_cases hx : (RenameFlags.fromBitsTruncate flags).exchange = true
  · by_cases hswap : (renameExchange s.tree (real fs oldPath) (real fs newPath)).1 = .ok () ∧
        ¬ExchangeClash (attrs s.xattributes) oldPath newPath
    · refine faithful_not_ambiguous Alike.refl (fun m => ⟨.done, ?_⟩)
        (hexchanged hx hswap.1 hswap.2)
      obtain ⟨x, hx', -⟩ := exchange_attrs hswap.2
      obtain ⟨t, ht⟩ : ∃ t, renameExchange s.tree (real fs oldPath) (real fs newPath) =
          (.ok (), t) := ⟨_, Prod.ext hswap.1 rfl⟩
      rw [exchange_admitted hx h, rename_exchange hx, ht, thenTree]
      dsimp only
      rw [hx']
      rfl
    by_cases hsafe : Safe fs s oldPath newPath (.fromBitsTruncate flags)
    · refine faithful_refused (Unchanged s) (fun m s' hun => ?_) ⟨rfl, rfl⟩ fun _ hun => hun
      refine exchange_refused hx h hsafe (fun hok => ?_) m hun
      by_contra hc
      exact hswap ⟨hok, hc⟩
    · exact faithful_unheard (htorn hx hsafe)
  have hx' := Bool.eq_false_iff.mpr hx
  by_cases hm : Moves s.tree (real fs oldPath) (real fs newPath)
  swap
  · rcases rename_still hx' h hm with hrefuses | ⟨s', hfirst, hagain⟩
    · exact kept_of_refuses hrefuses
    · refine faithful_settled (· = s') Alike.refl Alike.trans ?_ fun m => ⟨_, s', hfirst m, rfl⟩
      rintro m _ rfl
      exact ⟨_, _, hagain m, rfl, Alike.refl _⟩
  by_cases hc : Clash (attrs s.xattributes) oldPath newPath
  · rcases hhalf hx' hm hc with hunheard | ⟨hno, hunheard⟩
    · exact faithful_unheard hunheard
    · refine (faithful_half_iff fun m => ?_).mpr hunheard
      obtain ⟨r, s', hs', hchanged, -, herror, hagain⟩ := rename_moved hx' h hm m
      obtain ⟨e, rfl, he⟩ := herror hc
      exact ⟨e, s', hs', he, hchanged, hagain hno⟩
  · refine faithful_not_ambiguous Alike.refl (fun m => ⟨.done, ?_⟩) (hmoved hx' hm hc)
    obtain ⟨r, s', hs', -, hok, -⟩ := rename_moved hx' h hm m
    rw [hs', hok hc]

/-- The other direction for a rename whose old path is gone when the object has moved. -/
theorem calm_of_kept (hx : (RenameFlags.fromBitsTruncate flags).exchange = false)
    (hno : ¬Returns s.tree (real fs oldPath) (real fs newPath))
    (h : Admitted fs s user oldPath newPath (.fromBitsTruncate flags))
    (hkept : Kept fs user (.rename oldPath newPath flags) net s) :
    Calm fs s oldPath newPath (.fromBitsTruncate flags) (attempts net) := by
  refine ⟨fun _ hm hc => ?_, fun _ hm hc => ?_, fun hx' => ?_, fun hx' => ?_⟩
  · refine (faithful_once_iff Alike.refl fun m => ?_).mp hkept
    obtain ⟨r, s', hs', hchanged, hok, -, hagain⟩ := rename_moved hx h hm m
    exact ⟨.done, s', by rw [hs', hok hc], hchanged, hagain hno⟩
  · refine .inr ⟨hno, (faithful_half_iff fun m => ?_).mp hkept⟩
    obtain ⟨r, s', hs', hchanged, -, herror, hagain⟩ := rename_moved hx h hm m
    obtain ⟨e, rfl, he⟩ := herror hc
    exact ⟨e, s', hs', he, hchanged, hagain hno⟩
  · cases hx.symm.trans hx'
  · cases hx.symm.trans hx'

end Operations

def answerLost : ℕ → Fate × Moment
  | 0 => (.responseLost, ⟨⟨0, 0⟩, 4096⟩)
  | _ => (.answered, ⟨⟨1, 0⟩, 4096⟩)

end ClientRetries
