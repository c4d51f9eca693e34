import RemoteFs.ServerCallSteps
import RemoteFs.ServerOrphans

/-! # The paths that a request hands to the system

A handler reaches an object by handing a path to a system call. Besides the real path of the
request's own text these are the parent of a missing object, at which the check looks instead,
the children of a listed directory, and the temporary name of an exchange. -/
namespace ServerConfinement

open ClientAttributes
open Interleaving
open OsPaths
open PosixTree
open PosixFileTree
open PosixCalls
open ServerPaths
open ServerStorage
open ServerFileSystem
open ServerRequests
open ServerCallSteps
open ServerOrphans (real)

inductive Call where
  | change (request : Request)
  | listPath (path : String)
  | getFileContent (path : String) (offset size : ℕ)
  | getAttributes (path : String)
  | setAttributes (path : String) (new : SetAttr)
  | getPermissions (path : String) (mask : UInt32)
  | getStats (path : String)
  | readSymlink (path : String)
  | getXAttributes (path name : String)
  | listXAttributes (path : String)
  deriving DecidableEq, Repr

/-- What `check_permission` is asked, in this order, before anything else. -/
def Call.checks : Call → List (String × Operation)
  | .change (.writeFile path _ _) | .change (.createSymlink path _)
  | .change (.deleteItem path) | .change (.setXAttributes path _ _)
  | .change (.deleteXAttributes path _) => [(path, .write)]
  | .change (.makeDirectory path) =>
    match rsplitOnce path with
    | none => []
    | some (p, _) => [(if p = "" then "/" else p, .write)]
  | .change (.rename oldPath newPath _) => [(oldPath, .write), (newPath, .write)]
  | .listPath path | .getFileContent path _ _ | .getStats path | .readSymlink path
  | .getXAttributes path _ | .listXAttributes path => [(path, .read)]
  | .getAttributes _ | .setAttributes _ _ => []
  | .getPermissions path mask =>
    (if mask &&& 4 ≠ 0 then [(path, .read)] else []) ++
      (if mask &&& 2 ≠ 0 then [(path, .write)] else []) ++
        if mask &&& 1 ≠ 0 then [(path, .execute)] else []

/-- The fields for which `set_attributes` asks `is_allowed`. -/
def guarded (new : SetAttr) : Bool :=
  new.mode.isSome || new.uid.isSome || new.gid.isSome || new.size.isSome || new.mtime.isSome

section Handlers

variable (fs : FileSystem) (t : FileTree) (user : AuthenticatedUser)

/-- `is_allowed` looks at the object, or at its parent where there is none. -/
def looked (path : String) : List Path :=
  real fs path ::
    if (lstat t.objects (real fs path)).isNone then (real fs path).parent.toList else []

/-- `find`, which gives up a directory that has no name before it reads it. -/
def found (path : String) : List Path :=
  real fs path ::
    match lstat t.objects (real fs path) with
    | none => []
    | some (l, i) =>
      match i.kind with
      | .directory _ =>
        if (real fs path).fileName.isNone then []
        else ((t.entries l).filterMap List.getLast?).map (real fs path).child
      | _ => []

def Call.reached : Call → List Path
  | .change (.writeFile path _ _) | .change (.createSymlink path _)
  | .change (.deleteItem path) => [real fs path]
  | .change (.makeDirectory path) =>
    match rsplitOnce path with
    | none => []
    | some (p, name) =>
      [(real fs (if p = "" then "/" else p)).join (components name), real fs path]
  | .change (.rename oldPath newPath flags) =>
    if (RenameFlags.fromBitsTruncate flags).exchange then
      [real fs oldPath, (real fs oldPath).withExtension ".swap_tmp", real fs newPath]
    else [real fs oldPath, real fs newPath]
  | .listPath path => found fs t path
  | .getFileContent path _ _ | .getAttributes path | .getStats path | .readSymlink path =>
    [real fs path]
  | .setAttributes path new => (if guarded new then looked fs t path else []) ++ [real fs path]
  | .change (.setXAttributes _ _ _) | .change (.deleteXAttributes _ _)
  | .getPermissions _ _ | .getXAttributes _ _ | .listXAttributes _ => []

def afterChecks (reached : List Path) : List (String × Operation) → List Path
  | [] => reached
  | (path, op) :: checks =>
    looked fs t path ++
      match Routes.checkPermission fs t.objects user (components path) op with
      | .ok () => afterChecks reached checks
      | .error _ => []

def Call.handed (c : Call) : List Path := afterChecks fs t user (c.reached fs t) c.checks

end Handlers

/-! What a system call of a request changes, it changes at a path of the list -/

section Steps

def paths : SysCall → List Path
  | .look | .pwrite _ _ _ _ => []
  | .mkdir p _ _ | .symlink _ p _ | .openCreate p _ | .chown p _ _ _ | .unlink p | .rmdir p => [p]
  | .rename old new => [old, new]

variable {fs : FileSystem} {user : AuthenticatedUser} {reached : List Path} {next : Steps}

def Reaches (reached : List Path) (s : Steps) : Prop :=
  s.Meets (fun _ => True) (fun c => ∀ p ∈ paths c, p ∈ reached) fun _ => True

theorem reaches_pure (r : Except ApiError Unit) : Reaches reached (.pure r) := trivial

theorem reaches_inspect {f : FileTree → Steps} (h : ∀ t, Reaches reached (f t)) :
    Reaches reached (inspect f) :=
  fun t _ => ⟨fun _ hp => (List.not_mem_nil hp).elim, h t⟩

theorem reaches_attempt {c : SysCall} {ofError : Errno → StorageError}
    (hc : ∀ p ∈ paths c, p ∈ reached) (h : Reaches reached next) :
    Reaches reached (attempt c ofError next) := by
  intro t _
  refine ⟨hc, ?_⟩
  dsimp only
  split
  · exact h
  · exact reaches_pure _

theorem reaches_check {path : Path} (h : Reaches reached next) :
    Reaches reached (checkSteps fs user path next) := by
  refine reaches_inspect fun t => ?_
  split
  · exact reaches_pure _
  · refine reaches_inspect fun t => ?_
    split
    · exact reaches_pure _
    · split
      · exact h
      · exact reaches_pure _

theorem reaches_getAttributes (path : Path) : Reaches reached (getAttributesSteps fs path) := by
  refine reaches_inspect fun t => ?_
  split <;> exact reaches_pure _

theorem reaches_setOwner {real : Path} (now : Timestamp) (hreal : real ∈ reached)
    (h : Reaches reached next) : Reaches reached (setOwnerSteps user real now next) := by
  refine reaches_attempt (fun p hp => ?_) h
  rwa [List.mem_singleton.mp hp]

theorem reaches_makeDir {path name : Path} (m : Moment)
    (hreal : (makeRealPath fs.realPath path).join name ∈ reached) (h : Reaches reached next) :
    Reaches reached (makeDirSteps fs user path name m next) := by
  refine reaches_inspect fun t => ?_
  split
  · exact reaches_pure _
  · refine reaches_attempt (fun p hp => ?_) (reaches_setOwner m.now hreal h)
    rwa [List.mem_singleton.mp hp]

theorem reaches_writeFile {path : Path} {data : List UInt8} {offset : ℕ} {now : Timestamp}
    (handle : FileTree → Location → Option Location)
    (hreal : makeRealPath fs.realPath path ∈ reached) (h : Reaches reached next) :
    Reaches reached (writeFileSteps fs user handle path data offset now next) := by
  refine reaches_inspect fun t => ?_
  refine Program.meets_step (fun t _ p hp => ?_) fun t _ => ?_
  · rwa [List.mem_singleton.mp hp]
  · split
    · exact reaches_pure _
    · split
      · exact reaches_pure _
      · refine Program.meets_step (fun t _ p hp => (List.not_mem_nil hp).elim) fun t _ => ?_
        split
        · exact reaches_setOwner now hreal h
        · exact h

theorem reaches_createSymlink {path : Path} (target : String) (now : Timestamp)
    (hreal : makeRealPath fs.realPath path ∈ reached) :
    Reaches reached (createSymlinkSteps fs path target now) := by
  refine reaches_inspect fun t => ?_
  split
  · exact reaches_pure _
  · refine reaches_attempt (fun p hp => ?_) (reaches_inspect fun t => ?_)
    · rwa [List.mem_singleton.mp hp]
    · split <;> exact reaches_pure _

theorem reaches_renameStep {old new : Path} (hold : old ∈ reached) (hnew : new ∈ reached) :
    Reaches reached (renameStep old new) := by
  refine reaches_attempt (fun p hp => ?_) (reaches_pure _)
  rcases List.mem_pair.mp hp with rfl | rfl
  · exact hold
  · exact hnew

theorem reaches_rename {oldPath newPath : Path} {flags : RenameFlags}
    (hold : makeRealPath fs.realPath oldPath ∈ reached)
    (hnew : makeRealPath fs.realPath newPath ∈ reached)
    (htmp : flags.exchange = true →
      (makeRealPath fs.realPath oldPath).withExtension ".swap_tmp" ∈ reached) :
    Reaches reached (renameSteps fs oldPath newPath flags) := by
  unfold renameSteps
  dsimp only
  split
  · rename_i hexchange
    refine reaches_attempt (fun p hp => ?_) (reaches_attempt (fun p hp => ?_)
      (reaches_renameStep (htmp hexchange) hnew))
    · rcases List.mem_pair.mp hp with rfl | rfl
      · exact hold
      · exact htmp hexchange
    · rcases List.mem_pair.mp hp with rfl | rfl
      · exact hnew
      · exact hold
  · split
    · refine reaches_inspect fun t => ?_
      split
      · exact reaches_pure _
      · exact reaches_renameStep hold hnew
    · exact reaches_renameStep hold hnew

theorem reaches_delete {path : Path} (hreal : makeRealPath fs.realPath path ∈ reached) :
    Reaches reached (deleteSteps fs path) := by
  have hcall : ∀ c, paths c = [makeRealPath fs.realPath path] →
      Reaches reached (attempt c ofErrno (.pure (.ok ()))) := by
    intro c hc
    refine reaches_attempt (fun p hp => ?_) (reaches_pure _)
    rw [hc, List.mem_singleton] at hp
    rwa [hp]
  refine reaches_inspect fun t => ?_
  split
  · exact reaches_pure _
  · split
    · refine reaches_inspect fun t => ?_
      split
      · exact reaches_pure _
      · split
        · exact reaches_pure _
        · exact hcall _ rfl
    · exact hcall _ rfl

/-- The list names every path at which a request changes anything. -/
theorem steps_reach (handle : FileTree → Location → Option Location) (m : Moment) (t : FileTree)
    (request : Request) : Reaches ((Call.change request).reached fs t)
      (steps fs user handle m request) := by
  cases request with
  | writeFile path body offset =>
    have hreal := List.mem_singleton_self (real fs path)
    exact reaches_check (reaches_writeFile handle hreal (reaches_getAttributes _))
  | makeDirectory path =>
    rw [Call.reached, steps]
    cases rsplitOnce path with
    | none => exact reaches_pure _
    | some parts =>
      exact reaches_check (reaches_makeDir m List.mem_cons_self (reaches_getAttributes _))
  | createSymlink path target =>
    exact reaches_check (reaches_createSymlink target m.now (List.mem_singleton_self _))
  | deleteItem path => exact reaches_check (reaches_delete (List.mem_singleton_self _))
  | rename oldPath newPath flags =>
    refine reaches_check (reaches_check (reaches_rename ?_ ?_ fun hexchange => ?_))
    · rw [Call.reached]
      split <;> exact List.mem_cons_self
    · rw [Call.reached]
      split <;> simp [real]
    · rw [Call.reached, if_pos hexchange]
      simp [real]
  | setXAttributes path name xattributes => exact reaches_check (reaches_pure _)
  | deleteXAttributes path name => exact reaches_check (reaches_pure _)

end Steps

/-! The requests that stay below the exported root -/

/-- Without the last name; where there is none, without the last name of the root. -/
def Above (root : List OsString) (rel : Path) : Prop :=
  if rel = [] then root = [] else Inside root rel.dropLast

def Swaps (root : List OsString) (rel : Path) : Prop :=
  if rel = [] then root = [] else Inside root (rel.withExtension ".swap_tmp")

structure Looks (root : List OsString) (t : FileTree) (path : String) : Prop where
  inside : Inside root (belowRoot path)
  parent : lstat t.objects (real ⟨absolute root⟩ path) = none → Above root (belowRoot path)

def Call.Stays (root : List OsString) (t : FileTree) : Call → Prop
  | .change (.writeFile path _ _) | .change (.createSymlink path _)
  | .change (.deleteItem path) | .listPath path | .getFileContent path _ _ | .getAttributes path
  | .getStats path | .readSymlink path => Inside root (belowRoot path)
  | .change (.makeDirectory path) => rsplitOnce path ≠ none → Inside root (belowRoot path)
  | .change (.rename oldPath newPath flags) =>
    Inside root (belowRoot oldPath) ∧ Inside root (belowRoot newPath) ∧
      ((RenameFlags.fromBitsTruncate flags).exchange = true → Swaps root (belowRoot oldPath))
  | .setAttributes path new =>
    Inside root (belowRoot path) ∧ (guarded new = true → Looks root t path)
  | .change (.setXAttributes _ _ _) | .change (.deleteXAttributes _ _)
  | .getPermissions _ _ | .getXAttributes _ _ | .listXAttributes _ => True

def Passes (root : List OsString) (t : FileTree) (user : AuthenticatedUser) (stays : Prop) :
    List (String × Operation) → Prop
  | [] => stays
  | (path, op) :: checks => Looks root t path ∧
    (Routes.checkPermission ⟨absolute root⟩ t.objects user (components path) op = .ok () →
      Passes root t user stays checks)

def Call.Confined (root : List OsString) (t : FileTree) (user : AuthenticatedUser)
    (c : Call) : Prop :=
  Passes root t user (c.Stays root t) c.checks

section Confinement

variable {root : List OsString} {t : FileTree} {user : AuthenticatedUser} {rel : Path}

theorem real_belowRoot (root : List OsString) (path : String) :
    real ⟨absolute root⟩ path = absolute root ++ belowRoot path :=
  makeRealPath_components root path

theorem real_confined_iff {path : String} :
    root <+: lexical (real ⟨absolute root⟩ path) ↔ Inside root (belowRoot path) :=
  confined_iff root path

theorem absolute_concat (k : List OsString) (n : OsString) :
    absolute (k ++ [n]) = absolute k ++ [.normal n] := by
  rw [absolute, absolute, List.map_append, List.map_singleton, List.cons_append]

theorem absolute_confined (k : List OsString) (n : OsString) :
    ¬k ++ [n] <+: lexical (absolute k) := by
  intro hprefix
  have hlen := hprefix.length_le
  rw [lexical_absolute, List.length_append, List.length_singleton] at hlen
  omega

theorem parent_confined_iff (root : List OsString) (h : .rootDir ∉ rel) :
    (∀ q ∈ (Path.parent (absolute root ++ rel)).toList, root <+: lexical q) ↔ Above root rel := by
  rcases List.eq_nil_or_concat rel with rfl | ⟨init, c, rfl⟩
  · rw [List.append_nil, Above, if_pos rfl]
    rcases List.eq_nil_or_concat root with rfl | ⟨k, n, rfl⟩
    · exact iff_of_true (by simp [Path.parent, absolute]) rfl
    · rw [List.concat_eq_append]
      refine iff_of_false (fun hall => absolute_confined k n (hall _ ?_)) (by simp)
      rw [absolute_concat, Path.parent, List.getLast?_concat, List.dropLast_concat]
      exact List.mem_singleton_self _
  · rw [List.concat_eq_append] at h ⊢
    have hc : c ≠ .rootDir := fun hc => h (by simp [hc])
    have hparent : Path.parent (absolute root ++ (init ++ [c])) = some (absolute root ++ init) := by
      rw [← List.append_assoc, Path.parent, List.getLast?_concat, List.dropLast_concat]
      cases c with
      | rootDir => exact (hc rfl).elim
      | curDir | parentDir | normal n => rfl
    rw [hparent, Above, if_neg (by simp), List.dropLast_concat, Option.toList_some,
      List.forall_mem_singleton]
    exact below_confined_iff root fun hinit => h (List.mem_append_left _ hinit)

theorem rootDir_not_mem_withExtension (h : .rootDir ∉ rel) (extension : String) :
    .rootDir ∉ rel.withExtension extension := by
  have hinit : .rootDir ∉ rel.dropLast := fun hmem => h (List.mem_of_mem_dropLast hmem)
  unfold Path.withExtension
  split
  · exact h
  · split <;> simpa [Path.child] using hinit

theorem withExtension_append (hrel : rel ≠ []) (p : Path) (extension : String) :
    (p ++ rel).withExtension extension = p ++ rel.withExtension extension := by
  have hname : Path.fileName (p ++ rel) = rel.fileName := by
    rw [Path.fileName, List.getLast?_append_of_ne_nil _ hrel, Path.fileName]
  unfold Path.withExtension
  rw [hname]
  split
  · rfl
  · rw [List.dropLast_append_of_ne_nil hrel]
    split <;> simp [Path.child]

theorem temp_confined_iff (root : List OsString) (h : .rootDir ∉ rel) :
    root <+: lexical ((absolute root ++ rel).withExtension ".swap_tmp") ↔ Swaps root rel := by
  by_cases hrel : rel = []
  · rw [hrel, List.append_nil, Swaps, if_pos rfl]
    rcases List.eq_nil_or_concat root with rfl | ⟨k, n, rfl⟩
    · exact iff_of_true List.nil_prefix rfl
    · rw [List.concat_eq_append]
      refine iff_of_false ?_ (by simp)
      have hlast : Path.withExtension [.normal n] ".swap_tmp" =
          if n.dotted then [.parentDir] else [.normal (n.withExtension ".swap_tmp")] := rfl
      rw [absolute_concat, withExtension_append (List.cons_ne_nil _ _), hlast]
      split
      · rw [lexical_below k (by simp)]
        intro hprefix
        have hlen := hprefix.length_le
        simp only [List.length_append, List.length_singleton, reduce, List.foldl_cons,
          List.foldl_nil, reduceStep, List.append_nil, List.length_take] at hlen
        omega
      · rw [← absolute_concat, lexical_absolute, List.prefix_append_right_inj]
        intro hprefix
        have hsame := hprefix.eq_of_length rfl
        exact OsString.withExtension_ne n rfl (List.singleton_inj.mp hsame).symm
  · rw [Swaps, if_neg hrel, withExtension_append hrel]
    exact below_confined_iff root (rootDir_not_mem_withExtension h _)

theorem looked_confined_iff {path : String} :
    (∀ q ∈ looked ⟨absolute root⟩ t path, root <+: lexical q) ↔ Looks root t path := by
  rw [looked, List.forall_mem_cons, real_confined_iff]
  have hparent := parent_confined_iff root (rootDir_not_mem_belowRoot path)
  rw [← real_belowRoot] at hparent
  constructor
  · rintro ⟨hin, hrest⟩
    refine ⟨hin, fun hnone => hparent.mp ?_⟩
    rwa [hnone, Option.isNone_none, if_pos rfl] at hrest
  · rintro ⟨hin, habove⟩
    refine ⟨hin, ?_⟩
    split
    · rename_i hnone
      exact hparent.mpr (habove (Option.isNone_iff_eq_none.mp hnone))
    · exact fun q hq => (List.not_mem_nil hq).elim

theorem found_confined_iff {path : String} :
    (∀ q ∈ found ⟨absolute root⟩ t path, root <+: lexical q) ↔ Inside root (belowRoot path) := by
  have hchild : ∀ n, root <+: lexical (real ⟨absolute root⟩ path) →
      root <+: lexical ((real ⟨absolute root⟩ path).child n) := by
    intro n hin
    rw [lexical, Path.child, List.foldl_append]
    exact hin.trans (List.prefix_append _ _)
  rw [found, List.forall_mem_cons, real_confined_iff, and_iff_left_iff_imp]
  intro hin q hq
  split at hq
  · exact (List.not_mem_nil hq).elim
  · split at hq
    · split at hq
      · exact (List.not_mem_nil hq).elim
      · obtain ⟨n, -, rfl⟩ := List.mem_map.mp hq
        exact hchild n (real_confined_iff.mpr hin)
    · exact (List.not_mem_nil hq).elim

theorem reached_confined_iff (c : Call) :
    (∀ q ∈ c.reached ⟨absolute root⟩ t, root <+: lexical q) ↔ c.Stays root t := by
  have hone : ∀ path, (∀ q ∈ [real ⟨absolute root⟩ path], root <+: lexical q) ↔
      Inside root (belowRoot path) := by
    intro path
    rw [List.forall_mem_singleton, real_confined_iff]
  have hnone : (∀ q ∈ ([] : List Path), root <+: lexical q) ↔ True := by simp
  cases c with
  | change request =>
    cases request with
    | writeFile path | createSymlink path | deleteItem path => exact hone path
    | setXAttributes | deleteXAttributes => exact hnone
    | makeDirectory path =>
      rw [Call.reached, Call.Stays]
      cases hsplit : rsplitOnce path with
      | none => exact iff_of_true (fun q hq => (List.not_mem_nil hq).elim) fun hne => (hne rfl).elim
      | some parts =>
        have htarget := makeRealPath_rsplitOnce root hsplit
        have hsome : some parts ≠ none := Option.some_ne_none _
        dsimp only [real]
        rw [← htarget, List.forall_mem_cons, List.forall_mem_singleton, and_self, confined_iff,
          forall_prop_of_true hsome]
    | rename oldPath newPath flags =>
      have htemp := temp_confined_iff root (rootDir_not_mem_belowRoot oldPath)
      rw [← real_belowRoot] at htemp
      rw [Call.reached, Call.Stays]
      split
      · rename_i hexchange
        rw [List.forall_mem_cons, List.forall_mem_cons, hone, htemp, real_confined_iff]
        exact ⟨fun ⟨ho, htmp, hn⟩ => ⟨ho, hn, fun _ => htmp⟩, fun ⟨ho, hn, htmp⟩ =>
          ⟨ho, htmp hexchange, hn⟩⟩
      · rename_i hexchange
        rw [List.forall_mem_cons, hone, real_confined_iff]
        exact ⟨fun ⟨ho, hn⟩ => ⟨ho, hn, fun hx => (hexchange hx).elim⟩, fun ⟨ho, hn, _⟩ => ⟨ho, hn⟩⟩
  | listPath path => exact found_confined_iff
  | getFileContent path | getAttributes path | getStats path | readSymlink path => exact hone path
  | setAttributes path new =>
    rw [Call.reached, Call.Stays, List.forall_mem_append, hone, and_comm, and_congr_right_iff]
    intro _
    split
    · rename_i hguarded
      rw [looked_confined_iff, forall_prop_of_true hguarded]
    · rename_i hguarded
      exact iff_of_true (fun q hq => (List.not_mem_nil hq).elim) fun hg => (hguarded hg).elim
  | getPermissions | getXAttributes | listXAttributes => exact hnone

theorem afterChecks_confined_iff {reached : List Path} {stays : Prop}
    (h : (∀ q ∈ reached, root <+: lexical q) ↔ stays) (checks : List (String × Operation)) :
    (∀ q ∈ afterChecks ⟨absolute root⟩ t user reached checks, root <+: lexical q) ↔
      Passes root t user stays checks := by
  induction checks with
  | nil => exact h
  | cons check checks ih =>
    obtain ⟨path, op⟩ := check
    rw [afterChecks, Passes, List.forall_mem_append, looked_confined_iff, and_congr_right_iff]
    intro _
    cases Routes.checkPermission ⟨absolute root⟩ t.objects user (components path) op with
    | ok u => exact ih.trans ⟨fun hp _ => hp, fun hp => hp rfl⟩
    | error e =>
      refine iff_of_true (fun q hq => (List.not_mem_nil hq).elim) fun hok => ?_
      cases hok

/-- The real path of every text stays below the root exactly where it comes down again as far as
it climbs, and a request keeps to the root exactly where each of its own paths does, a missing
object's parent and a temporary name included. -/
theorem handed_confined_iff (root : List OsString) :
    (∀ path : String, root <+: lexical (makeRealPath (absolute root) (components path)) ↔
      Inside root (belowRoot path)) ∧
    ∀ (t : FileTree) (user : AuthenticatedUser) (c : Call),
      (∀ q ∈ c.handed ⟨absolute root⟩ t user, root <+: lexical q) ↔ c.Confined root t user :=
  ⟨confined_iff root, fun _ _ c => afterChecks_confined_iff (reached_confined_iff c) c.checks⟩

end Confinement

end ServerConfinement
