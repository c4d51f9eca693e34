import RemoteFs.FileBytes
import RemoteFs.PosixFileTree
import Mathlib.Data.Finset.Card

/-! # The system calls that change a Unix file tree

A call that fails leaves the tree alone. It acts on the place of its path's last name and does
not follow a final link, `open` apart. The process is root, so no permission is checked; the
times of the directories that gain or lose a name are not followed. Why a path leads to no place
is not told apart, and no directory hands its group on. -/
namespace PosixCalls

open ClientAttributes
open OsPaths
open PosixTree
open PosixFileTree

inductive Errno where
  | noEntry
  | alreadyExists
  | busy
  | invalid
  | notEmpty
  | notDirectory
  | isDirectory
  deriving DecidableEq, Repr

variable (t : FileTree)

def move (old new : Location) (h : Apart old new)
    (home : look t.objects new.dropLast = .directory) : FileTree where
  objects := moved t.objects old new
  places := t.places ++ t.places.map fun l => new ++ l.drop old.length
  listed := by
    intro l hl
    rcases moved_cases t.objects h l with ⟨s, rfl, he⟩ | ⟨-, he⟩ | ⟨-, -, he⟩
    · refine List.mem_append_right _ (List.mem_map.mpr ⟨old ++ s, t.listed _ (he ▸ hl), ?_⟩)
      rw [List.drop_left]
    · exact (hl he).elim
    · exact List.mem_append_left _ (t.listed _ (he ▸ hl))
  grounded := moved_grounded t.grounded h home

def put (l : Location) (i : Inode) (home : look t.objects l.dropLast = .directory)
    (hkind : look t.objects l = .directory → i.kind.look = .directory) : FileTree where
  objects := Function.update t.objects l (some i)
  places := l :: t.places
  listed := by
    intro k hk
    by_cases hkl : k = l
    · exact hkl ▸ List.mem_cons_self
    · rw [Function.update_of_ne hkl] at hk
      exact List.mem_cons_of_mem _ (t.listed k hk)
  grounded := put_grounded t.grounded home hkind

def erase (l : Location) (hl : l ≠ []) (hempty : ∀ s, s ≠ [] → t.objects (l ++ s) = none) :
    FileTree where
  objects := Function.update t.objects l none
  places := t.places
  listed := by
    intro k hk
    by_cases hkl : k = l
    · rw [hkl, Function.update_self] at hk
      exact (hk rfl).elim
    · rw [Function.update_of_ne hkl] at hk
      exact t.listed k hk
  grounded := erase_grounded t.grounded hl hempty

def replaceError (i : Inode) (new : Location) : Option Errno :=
  match t.objects new with
  | none => none
  | some j =>
    if i.kind.look = .directory then
      if j.kind.look ≠ .directory then some .notDirectory
      else if t.entries new ≠ [] then some .notEmpty
      else none
    else if j.kind.look = .directory then some .isDirectory
    else none

def renameAt (old new : Location) (home : look t.objects new.dropLast = .directory) :
    Except Errno FileTree :=
  match t.objects old with
  | none => .error .noEntry
  | some i =>
    if old = new then .ok t
    else if hin : old <+: new then .error .invalid
    else if habove : new <+: old then .error .notEmpty
    else
      match replaceError t i new with
      | some e => .error e
      | none => .ok (move t old new ⟨hin, habove⟩ home)

/-- Without a place the path ends in no name, or leads nowhere. -/
def misnamed (p : Path) (e : Errno) : Errno :=
  if (resolve t.objects false p).isSome then e else .noEntry

/-- Two names of one object leave it alone. -/
def rename (old new : Path) : Except Errno FileTree :=
  match place t.objects old, h : place t.objects new with
  | some lo, some ln => renameAt t lo ln (place_home t.grounded h)
  | none, some _ => .error (misnamed t old .busy)
  | some _, none => .error (misnamed t new .busy)
  | none, none => .error (if misnamed t old .busy = .busy then misnamed t new .busy else .noEntry)

def unlink (p : Path) : Except Errno FileTree :=
  match h : place t.objects p with
  | none => .error (misnamed t p .isDirectory)
  | some l =>
    if t.objects l = none then .error .noEntry
    else if hdir : look t.objects l = .directory then .error .isDirectory
    else .ok (erase t l (place_ne_nil t.grounded h) fun _ hs => FileTree.leaf hdir hs)

def rmdir (p : Path) : Except Errno FileTree :=
  match h : place t.objects p with
  | none => .error (misnamed t p .notEmpty)
  | some l =>
    if t.objects l = none then .error .noEntry
    else if look t.objects l ≠ .directory then .error .notDirectory
    else if hempty : t.entries l = [] then
      .ok (erase t l (place_ne_nil t.grounded h) (FileTree.entries_eq_nil.mp hempty))
    else .error .notEmpty

def create (p : Path) (i : Inode) : Except Errno FileTree :=
  match h : place t.objects p with
  | none => .error (misnamed t p .alreadyExists)
  | some l =>
    if hfree : t.objects l = none then
      .ok (put t l i (place_home t.grounded h) fun hdir =>
        (FileTree.ne_none_of_directory hdir hfree).elim)
    else .error .alreadyExists

/-- The new object belongs to the server process. -/
def mkdir (p : Path) (len : ℕ) (now : Timestamp) : Except Errno FileTree :=
  create t p ⟨.directory len, 0o040755, 0, 0, now, now, now⟩

/-- A link leads somewhere. -/
def symlink (target : String) (p : Path) (now : Timestamp) : Except Errno FileTree :=
  if target = "" then .error .noEntry
  else create t p ⟨.symlink target, 0o120777, 0, 0, now, now, now⟩

def openCreate (p : Path) (now : Timestamp) : Except Errno (Location × FileTree) :=
  match h : resolve t.objects true p with
  | none => .error .noEntry
  | some l =>
    match hl : t.objects l with
    | none =>
      .ok (l, put t l ⟨.file [], 0o100644, 0, 0, now, now, now⟩ (resolve_home t.grounded h)
        fun hdir => (FileTree.ne_none_of_directory hdir hl).elim)
    | some i =>
      match i.kind with
      | .file _ => .ok (l, t)
      | _ => .error .isDirectory

def amend (l : Location) (i j : Inode) (hl : t.objects l = some i)
    (hkind : j.kind.look = i.kind.look) : FileTree :=
  put t l j (home_of_some t.grounded (by rw [hl]; exact nofun)) fun hdir => by
    rwa [hkind, ← look_some hl]

def pwrite (l : Location) (data : List UInt8) (offset : ℕ) (now : Timestamp) : FileTree :=
  match hl : t.objects l with
  | none => t
  | some i =>
    match hkind : i.kind with
    | .file bytes =>
      if data = [] then t
      else
        let written := FileBytes.writeAt 0 bytes offset data
        amend t l i { i with kind := .file written, mtime := now, ctime := now } hl
          (by rw [hkind]; rfl)
    | _ => t

def chown (p : Path) (uid gid : ℕ) (now : Timestamp) : Except Errno FileTree :=
  match h : target t.objects p with
  | none => .error .noEntry
  | some (l, i) =>
    .ok (amend t l i (i.chown uid gid now) (objectAt_some.mp h).2 rfl)

structure Renames (lo ln : Location) : Prop where
  object : t.objects lo ≠ none
  apart : Apart lo ln
  room : ((t.objects lo).bind fun i => replaceError t i ln) = none

section Results

variable {t t' : FileTree} {old new p : Path} {lo ln l : Location} {i : Inode} {e : Errno}

theorem unlink_ok (h : unlink t p = .ok t') : ∃ l, place t.objects p = some l ∧
    t.objects l ≠ none ∧ t'.objects = Function.update t.objects l none := by
  unfold unlink at h
  split at h
  · cases h
  · rename_i l hl
    split at h
    · cases h
    · rename_i hne
      split at h
      · cases h
      · refine ⟨l, hl, hne, ?_⟩
        rw [← Except.ok.inj h]
        rfl

theorem unlink_of_place (hl : place t.objects p = some l) (hne : t.objects l ≠ none)
    (hdir : look t.objects l ≠ .directory) : ∃ t', unlink t p = .ok t' := by
  unfold unlink
  split
  · rename_i hnone
    cases hnone.symm.trans hl
  · rename_i l' hl'
    obtain rfl := Option.some.inj (hl'.symm.trans hl)
    rw [if_neg hne, dif_neg hdir]
    exact ⟨_, rfl⟩

theorem rmdir_ok (h : rmdir t p = .ok t') : ∃ l, place t.objects p = some l ∧
    t.objects l ≠ none ∧ t'.objects = Function.update t.objects l none := by
  unfold rmdir at h
  split at h
  · cases h
  · rename_i l hl
    split at h
    · cases h
    · rename_i hne
      split at h
      · cases h
      · split at h
        · refine ⟨l, hl, hne, ?_⟩
          rw [← Except.ok.inj h]
          rfl
        · cases h

theorem rmdir_of_place (hl : place t.objects p = some l) (hne : t.objects l ≠ none)
    (hdir : look t.objects l = .directory) (hempty : t.entries l = []) :
    ∃ t', rmdir t p = .ok t' := by
  unfold rmdir
  split
  · rename_i hnone
    cases hnone.symm.trans hl
  · rename_i l' hl'
    obtain rfl := Option.some.inj (hl'.symm.trans hl)
    rw [if_neg hne, if_neg (not_not.mpr hdir), dif_pos hempty]
    exact ⟨_, rfl⟩

theorem Renames.objects_ne (h : Renames t lo ln) (ho : t'.objects = moved t.objects lo ln) :
    t'.objects ≠ t.objects := by
  intro he
  refine h.object ?_
  rw [← he, ho, moved_at_old h.apart]

theorem Renames.objects_new (h : Renames t lo ln) {s : Location} (hs : s ≠ []) :
    t.objects (ln ++ s) = none := by
  obtain ⟨i, hi⟩ := Option.ne_none_iff_exists'.mp h.object
  have hroom := h.room
  rw [hi, Option.bind_some, replaceError] at hroom
  split at hroom
  · rename_i hnone
    refine FileTree.leaf (fun hdir => ?_) hs
    exact FileTree.ne_none_of_directory hdir hnone
  · rename_i j hj
    by_cases hdir : look t.objects ln = .directory
    · by_cases hempty : t.entries ln = []
      · exact FileTree.entries_eq_nil.mp hempty s hs
      · rw [look_some hj] at hdir
        simp only [hdir, ne_eq, hempty, not_false_eq_true, not_true_eq_false, ↓reduceIte] at hroom
        split at hroom <;> cases hroom
    · exact FileTree.leaf hdir hs

theorem renameAt_eq_ok {home : look t.objects ln.dropLast = .directory} :
    renameAt t lo ln home = .ok t' ↔ (t.objects lo ≠ none ∧ lo = ln ∧ t' = t) ∨
      ∃ h : Renames t lo ln, t' = move t lo ln h.apart home := by
  unfold renameAt
  cases hi : t.objects lo with
  | none =>
    refine iff_of_false nofun ?_
    rintro (⟨hne, -⟩ | ⟨h, -⟩)
    · exact hne rfl
    · exact h.object hi
  | some i =>
    dsimp only
    by_cases heq : lo = ln
    · rw [if_pos heq]
      constructor
      · intro h
        exact .inl ⟨nofun, heq, (Except.ok.inj h).symm⟩
      · rintro (⟨-, -, rfl⟩ | ⟨h, -⟩)
        · rfl
        · exact (h.apart.ne heq).elim
    rw [if_neg heq]
    by_cases hin : lo <+: ln
    · rw [dif_pos hin]
      refine iff_of_false nofun ?_
      rintro (⟨-, h, -⟩ | ⟨h, -⟩)
      · exact heq h
      · exact h.apart.1 hin
    rw [dif_neg hin]
    by_cases habove : ln <+: lo
    · rw [dif_pos habove]
      refine iff_of_false nofun ?_
      rintro (⟨-, h, -⟩ | ⟨h, -⟩)
      · exact heq h
      · exact h.apart.2 habove
    rw [dif_neg habove]
    cases hroom : replaceError t i ln with
    | some e =>
      refine iff_of_false nofun ?_
      rintro (⟨-, h, -⟩ | ⟨h, -⟩)
      · exact heq h
      · have := h.room
        rw [hi, Option.bind_some, hroom] at this
        cases this
    | none =>
      dsimp only
      constructor
      · intro h
        refine .inr ⟨⟨by rw [hi]; exact nofun, ⟨hin, habove⟩, ?_⟩, (Except.ok.inj h).symm⟩
        rw [hi, Option.bind_some, hroom]
      · rintro (⟨-, h, -⟩ | ⟨h, rfl⟩)
        · exact (heq h).elim
        · rfl

theorem rename_eq_ok :
    rename t old new = .ok t' ↔ ∃ lo ln, place t.objects old = some lo ∧
      ∃ hln : place t.objects new = some ln,
        renameAt t lo ln (place_home t.grounded hln) = .ok t' := by
  unfold rename
  constructor
  · intro h
    split at h
    · rename_i lo ln hlo hln
      exact ⟨lo, ln, hlo, hln, h⟩
    all_goals cases h
  · rintro ⟨lo, ln, hlo, hln, h⟩
    split
    · rename_i lo' ln' hlo' hln'
      obtain rfl := Option.some.inj (hlo'.symm.trans hlo)
      obtain rfl := Option.some.inj (hln'.symm.trans hln)
      exact h
    · rename_i hlo' _
      cases hlo'.symm.trans hlo
    · rename_i hln'
      cases hln'.symm.trans hln
    · rename_i hlo' _
      cases hlo'.symm.trans hlo

/-- What a rename does to the objects. -/
theorem rename_objects (h : rename t old new = .ok t') :
    ∃ lo ln, place t.objects old = some lo ∧ place t.objects new = some ln ∧
      ((t.objects lo ≠ none ∧ lo = ln ∧ t' = t) ∨
        Renames t lo ln ∧ t'.objects = moved t.objects lo ln) := by
  obtain ⟨lo, ln, hlo, hln, h⟩ := rename_eq_ok.mp h
  refine ⟨lo, ln, hlo, hln, ?_⟩
  rcases renameAt_eq_ok.mp h with hsame | ⟨hr, rfl⟩
  · exact .inl hsame
  · exact .inr ⟨hr, rfl⟩

end Results

section Congruence

variable {t u : FileTree}

theorem renameAt_congr (h : u.objects = t.objects) (lo ln : Location)
    (home : look t.objects ln.dropLast = .directory)
    (home' : look u.objects ln.dropLast = .directory) :
    (renameAt u lo ln home').map FileTree.objects =
      (renameAt t lo ln home).map FileTree.objects := by
  have hroom : ∀ i, replaceError u i ln = replaceError t i ln := by
    intro i
    unfold replaceError
    rw [h]
    simp only [ne_eq, FileTree.entries_congr h]
  unfold renameAt
  rw [h]
  cases t.objects lo with
  | none => rfl
  | some i =>
    dsimp only
    by_cases heq : lo = ln
    · rw [if_pos heq, if_pos heq]
      exact congrArg Except.ok h
    by_cases hin : lo <+: ln
    · rw [if_neg heq, if_neg heq, dif_pos hin, dif_pos hin]
    by_cases habove : ln <+: lo
    · rw [if_neg heq, if_neg heq, dif_neg hin, dif_neg hin, dif_pos habove, dif_pos habove]
    rw [if_neg heq, if_neg heq, dif_neg hin, dif_neg hin, dif_neg habove, dif_neg habove, hroom]
    cases replaceError t i ln with
    | some e => rfl
    | none =>
      refine congrArg Except.ok ?_
      change moved u.objects lo ln = moved t.objects lo ln
      rw [h]

theorem rename_congr (h : u.objects = t.objects) (old new : Path) :
    (rename u old new).map FileTree.objects =
      (rename t old new).map FileTree.objects := by
  have hmis : ∀ p e, misnamed u p e = misnamed t p e := by
    intro p e
    rw [misnamed, misnamed, h]
  unfold rename
  split
  · rename_i lo ln hlo hln
    rw [h] at hlo hln
    split
    · rename_i lo' ln' hlo' hln'
      obtain rfl := Option.some.inj (hlo'.symm.trans hlo)
      obtain rfl := Option.some.inj (hln'.symm.trans hln)
      exact renameAt_congr h _ _ _ _
    all_goals simp_all
  all_goals
    rename_i hlo hln
    rw [h] at hlo hln
    simp only [hmis]
    split <;> (try split) <;> simp_all

end Congruence

section Counting

def support (t : FileTree) : Finset Location :=
  t.places.toFinset.filter fun l => t.objects l ≠ none

variable {t t' : FileTree} {lo ln l : Location} {old new : Path}

theorem mem_support : l ∈ support t ↔ t.objects l ≠ none := by
  rw [support, Finset.mem_filter, List.mem_toFinset]
  exact ⟨fun h => h.2, fun h => ⟨t.listed l h, h⟩⟩

/-- Every object of the moved tree was one before, and none was the replaced one. -/
theorem card_moved (h : Apart lo ln) (ho : t'.objects = moved t.objects lo ln) :
    (support t').card ≤ ((support t).erase ln).card := by
  refine Finset.card_le_card_of_injOn
    (fun l => if ln <+: l then lo ++ l.drop ln.length else l) ?_ ?_
  · intro l hl
    have hobj := mem_support.mp hl
    rw [ho] at hobj
    refine Finset.mem_coe.mpr (Finset.mem_erase.mpr ?_)
    rcases moved_cases t.objects h l with ⟨s, rfl, he⟩ | ⟨-, he⟩ | ⟨-, hnew, he⟩
    · dsimp only
      rw [if_pos (List.prefix_append _ _), List.drop_left]
      refine ⟨?_, mem_support.mpr (he ▸ hobj)⟩
      rintro rfl
      exact h.1 (List.prefix_append _ _)
    · exact (hobj he).elim
    · dsimp only
      rw [if_neg hnew]
      refine ⟨?_, mem_support.mpr (he ▸ hobj)⟩
      rintro rfl
      exact hnew List.prefix_rfl
  · intro l hl k hk heq
    have hlo : ∀ {l}, l ∈ (support t' : Set Location) → ¬ln <+: l → ¬lo <+: l := by
      intro l hl hnew hold
      refine mem_support.mp (Finset.mem_coe.mp hl) ?_
      rw [ho, moved, if_neg hnew, if_pos hold]
    dsimp only at heq
    by_cases hl' : ln <+: l
    · by_cases hk' : ln <+: k
      · rw [if_pos hl', if_pos hk'] at heq
        obtain ⟨s, rfl⟩ := hl'
        obtain ⟨r, rfl⟩ := hk'
        rw [List.drop_left, List.drop_left] at heq
        rw [List.append_cancel_left heq]
      · rw [if_pos hl', if_neg hk'] at heq
        exact (hlo hk hk' (heq ▸ List.prefix_append _ _)).elim
    · by_cases hk' : ln <+: k
      · rw [if_neg hl', if_pos hk'] at heq
        exact (hlo hl hl' (heq ▸ List.prefix_append _ _)).elim
      · rwa [if_neg hl', if_neg hk'] at heq

theorem rename_card (h : rename t old new = .ok t') : (support t').card ≤ (support t).card := by
  obtain ⟨lo, ln, -, -, ⟨-, -, rfl⟩ | ⟨hr, ho⟩⟩ := rename_objects h
  · exact le_rfl
  · exact (card_moved hr.apart ho).trans (Finset.card_erase_le)

theorem card_replaced (h : Apart lo ln) (ho : t'.objects = moved t.objects lo ln)
    (hln : t.objects ln ≠ none) : (support t').card < (support t).card :=
  (card_moved h ho).trans_lt (Finset.card_erase_lt_of_mem (mem_support.mpr hln))

theorem support_congr (h : t'.objects = t.objects) : support t' = support t := by
  refine Finset.ext fun l => ?_
  rw [mem_support, mem_support, h]

end Counting

end PosixCalls
