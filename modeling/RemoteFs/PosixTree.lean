import RemoteFs.ClientAttributes
import RemoteFs.OsPaths
import Mathlib.Logic.Function.Basic

/-! # A Unix file tree

Objects live at locations, lists of names from the top. A path is resolved component by
component; a symbolic link on the way is replaced by its target, and one at the end if the
call asks for it. -/
namespace PosixTree

open ClientAttributes
open OsPaths

inductive Kind where
  | file (bytes : List UInt8)
  | directory (len : ℕ)
  | symlink (target : String)
  deriving DecidableEq, Repr

/-- `mode` carries the type bits. -/
structure Inode where
  kind : Kind
  mode : ℕ
  uid : ℕ
  gid : ℕ
  atime : Timestamp
  mtime : Timestamp
  ctime : Timestamp
  deriving DecidableEq, Repr

/-- A directory keeps its bits. -/
def Inode.chown (i : Inode) (uid gid : ℕ) (now : Timestamp) : Inode :=
  { i with
    mode := match i.kind with
      | .directory _ => i.mode
      | _ => disowned i.mode
    uid := uid
    gid := gid
    ctime := now }

theorem Inode.chown_file {i : Inode} {bytes : List UInt8} (h : i.kind = .file bytes)
    (uid gid : ℕ) (now : Timestamp) : (i.chown uid gid now).mode = disowned i.mode := by
  rw [chown, h]

abbrev Location := List OsString

abbrev Tree := Location → Option Inode

inductive Look where
  | missing
  | file
  | directory
  | link (target : Path)
  deriving DecidableEq, Repr

def Kind.look : Kind → Look
  | .file _ => .file
  | .directory _ => .directory
  | .symlink target => .link (components target)

def look (t : Tree) (l : Location) : Look :=
  match t l with
  | none => .missing
  | some i => i.kind.look

def Look.isLink : Look → Bool
  | .link _ => true
  | _ => false

/-- The walk along the components; `expand` goes on when a link was replaced. The last name
need not exist, so that it can be created. -/
def walkWith (expand : Location → Path → Option Location) (find : Location → Look)
    (follow : Bool) : Location → Path → Option Location
  | start, [] => some start
  | _, .rootDir :: rest => walkWith expand find follow [] rest
  | start, .curDir :: rest => walkWith expand find follow start rest
  | start, .parentDir :: rest => walkWith expand find follow start.dropLast rest
  | start, .normal n :: rest =>
    match find (start ++ [n]) with
    | .directory => walkWith expand find follow (start ++ [n]) rest
    | .link target =>
      if rest = [] ∧ follow = false then some (start ++ [n]) else expand start (target ++ rest)
    | .file | .missing => if rest = [] then some (start ++ [n]) else none

def walk (find : Location → Look) (follow : Bool) : ℕ → Location → Path → Option Location
  | 0 => walkWith (fun _ _ => none) find follow
  | links + 1 => walkWith (walk find follow links) find follow

def maxLinks : ℕ := 40

def resolve (t : Tree) (follow : Bool) (p : Path) : Option Location :=
  walk (look t) follow maxLinks [] p

/-- A walk to no place ends at a missing name, or else it is blocked: by a file with more of the
path behind it, or by one link too many. -/
def blockedWith (expand : Location → Path → Bool) (find : Location → Look) (follow : Bool) :
    Location → Path → Bool
  | _, [] => false
  | _, .rootDir :: rest => blockedWith expand find follow [] rest
  | start, .curDir :: rest => blockedWith expand find follow start rest
  | start, .parentDir :: rest => blockedWith expand find follow start.dropLast rest
  | start, .normal n :: rest =>
    match find (start ++ [n]) with
    | .directory => blockedWith expand find follow (start ++ [n]) rest
    | .link target =>
      if rest = [] ∧ follow = false then false else expand start (target ++ rest)
    | .file => rest ≠ []
    | .missing => false

def blockedAfter (find : Location → Look) (follow : Bool) : ℕ → Location → Path → Bool
  | 0 => blockedWith (fun _ _ => true) find follow
  | links + 1 => blockedWith (blockedAfter find follow links) find follow

def blocked (t : Tree) (follow : Bool) (p : Path) : Bool :=
  blockedAfter (look t) follow maxLinks [] p

def objectAt (t : Tree) (follow : Bool) (p : Path) : Option (Location × Inode) :=
  (resolve t follow p).bind fun l => (t l).map fun i => (l, i)

abbrev lstat (t : Tree) (p : Path) : Option (Location × Inode) := objectAt t false p

/-- `open`, `chmod`, `chown` and `utimes` follow a final link. -/
abbrev target (t : Tree) (p : Path) : Option (Location × Inode) := objectAt t true p

section Walks

variable {find find' : Location → Look} {start l : Location} {p : Path} {links : ℕ}
variable {expand expand' : Location → Path → Option Location}

/-- Where the unfollowed walk does not end at a link, the followed one ends there too. -/
theorem walkWith_follow (hexp : ∀ start p, expand start p = some l → expand' start p = some l)
    (hl : (find l).isLink = false) : ∀ start,
    walkWith expand find false start p = some l → walkWith expand' find true start p = some l := by
  induction p with
  | nil => exact fun _ h => h
  | cons c rest ih =>
    intro start h
    cases c with
    | rootDir => exact ih _ h
    | curDir => exact ih _ h
    | parentDir => exact ih _ h
    | normal n =>
      rw [walkWith] at h ⊢
      cases hfind : find (start ++ [n]) with
      | directory =>
        rw [hfind] at h
        exact ih _ h
      | link target =>
        rw [hfind] at h
        simp only [Bool.true_eq_false, and_false, ↓reduceIte]
        by_cases hrest : rest = []
        · simp only [hrest, and_self, ↓reduceIte, Option.some.injEq] at h
          rw [← h, hfind] at hl
          cases hl
        · simp only [hrest, false_and, ↓reduceIte] at h
          exact hexp _ _ h
      | file => rwa [hfind] at h
      | missing => rwa [hfind] at h

theorem walk_follow (hl : (find l).isLink = false) (links : ℕ) : ∀ start p,
    walk find false links start p = some l → walk find true links start p = some l := by
  induction links with
  | zero => exact fun start p h => walkWith_follow (fun _ _ h => by cases h) hl start h
  | succ links ih => exact fun start p h => walkWith_follow ih hl start h

/-- The unfollowed walk does less, so it gets as far. -/
theorem walkWith_nofollow (hexp : ∀ start p l, expand start p = some l →
      ∃ l', expand' start p = some l') : ∀ start l,
    walkWith expand find true start p = some l →
      ∃ l', walkWith expand' find false start p = some l' := by
  induction p with
  | nil => exact fun start _ _ => ⟨start, rfl⟩
  | cons c rest ih =>
    intro start l h
    cases c with
    | rootDir => exact ih _ _ h
    | curDir => exact ih _ _ h
    | parentDir => exact ih _ _ h
    | normal n =>
      rw [walkWith] at h ⊢
      cases hfind : find (start ++ [n]) with
      | directory =>
        rw [hfind] at h
        exact ih _ _ h
      | link target =>
        rw [hfind] at h
        simp only [Bool.true_eq_false, and_false, ↓reduceIte] at h
        by_cases hrest : rest = []
        · exact ⟨start ++ [n], by simp [hrest]⟩
        · simp only [hrest, false_and, ↓reduceIte]
          exact hexp _ _ _ h
      | file =>
        rw [hfind] at h
        exact ⟨l, h⟩
      | missing =>
        rw [hfind] at h
        exact ⟨l, h⟩

theorem walk_nofollow (links : ℕ) : ∀ start p l, walk find true links start p = some l →
    ∃ l', walk find false links start p = some l' := by
  induction links with
  | zero => exact fun start p l h => walkWith_nofollow (fun _ _ _ h => by cases h) start l h
  | succ links ih => exact fun start p l h => walkWith_nofollow ih start l h

/-- A file put where the walk ended at nothing is found by the same walk. -/
theorem walkWith_create (hexp : ∀ start p, expand start p = some l → expand' start p = some l)
    (hl : find l = .missing) (hl' : find' l = .file) (hne : ∀ k, k ≠ l → find' k = find k) :
    ∀ start, walkWith expand find true start p = some l →
      walkWith expand' find' true start p = some l := by
  induction p with
  | nil => exact fun _ h => h
  | cons c rest ih =>
    intro start h
    cases c with
    | rootDir => exact ih _ h
    | curDir => exact ih _ h
    | parentDir => exact ih _ h
    | normal n =>
      rw [walkWith] at h ⊢
      by_cases hk : start ++ [n] = l
      · rw [hk, hl] at h
        rw [hk, hl']
        exact h
      · rw [hne _ hk]
        cases hfind : find (start ++ [n]) with
        | directory =>
          rw [hfind] at h
          exact ih _ h
        | link target =>
          rw [hfind] at h
          simp only [Bool.true_eq_false, and_false, ↓reduceIte] at h ⊢
          exact hexp _ _ h
        | file => rwa [hfind] at h
        | missing => rwa [hfind] at h

theorem walk_create (hl : find l = .missing) (hl' : find' l = .file)
    (hne : ∀ k, k ≠ l → find' k = find k) (links : ℕ) : ∀ start p,
    walk find true links start p = some l → walk find' true links start p = some l := by
  induction links with
  | zero => exact fun start p h => walkWith_create (fun _ _ h => by cases h) hl hl' hne start h
  | succ links ih => exact fun start p h => walkWith_create ih hl hl' hne start h

end Walks

section Objects

variable {t t' : Tree} {p : Path} {l : Location} {i : Inode}

theorem look_some (h : t l = some i) : look t l = i.kind.look := by rw [look, h]

theorem objectAt_some {follow : Bool} :
    objectAt t follow p = some (l, i) ↔ resolve t follow p = some l ∧ t l = some i := by
  constructor
  · intro h
    obtain ⟨k, hk, hi⟩ := Option.bind_eq_some_iff.mp h
    obtain ⟨j, hj, heq⟩ := Option.map_eq_some_iff.mp hi
    injection heq with h₁ h₂
    subst h₁ h₂
    exact ⟨hk, hj⟩
  · rintro ⟨hl, hi⟩
    rw [objectAt, hl, Option.bind_some, hi]
    rfl

/-- A path that names nothing leads to nothing, or to where it could be created. -/
theorem missing_of_lstat_none (h : lstat t p = none) (hl : resolve t true p = some l) :
    t l = none := by
  obtain ⟨k, hk⟩ := walk_nofollow _ _ _ _ hl
  have hnone : t k = none := by
    cases hobj : t k with
    | none => rfl
    | some i => cases h.symm.trans (objectAt_some.mpr ⟨hk, hobj⟩)
  have hlink : (look t k).isLink = false := by rw [look, hnone]; rfl
  have hkl := walk_follow hlink _ _ _ hk
  rw [show walk (look t) true maxLinks [] p = some l from hl] at hkl
  injection hkl with hkl
  rwa [hkl]

/-- Replacing an object by one of the same kind leaves every path where it was. -/
theorem look_update {j : Inode} (h : t l = some i) (hk : j.kind.look = i.kind.look) :
    look (Function.update t l (some j)) = look t := by
  funext k
  by_cases hkl : k = l
  · subst hkl
    rw [look_some (Function.update_self ..), look_some h]
    exact hk
  · rw [look, Function.update_of_ne hkl, look]

theorem resolve_create {j : Inode} (h : t l = none) (hj : ∃ bytes, j.kind = .file bytes)
    (hl : resolve t true p = some l) :
    resolve (Function.update t l (some j)) true p = some l := by
  obtain ⟨bytes, hj⟩ := hj
  refine walk_create ?_ ?_ ?_ _ _ _ hl
  · rw [look, h]
  · rw [look_some (Function.update_self ..), hj]
    rfl
  · intro k hk
    rw [look, Function.update_of_ne hk, look]

end Objects

end PosixTree
