import RemoteFs.ServerOwnership
import RemoteFs.ShortWrites

/-! # What a failed creation leaves behind

`make_dir` and `write_file` call by call. Any of the calls may fail, and none is undone. -/
namespace ServerFailedCreation

open ClientAttributes
open FileBytes
open OsPaths
open PosixTree
open PosixFileTree
open PosixCalls
open ServerPaths
open ServerStorage
open ServerFileSystem
open ServerGrowth
open ServerOwnership
open ShortWrites

inductive Call where
  | lstat
  | createDir
  | openFile
  | seek
  | chown
  deriving DecidableEq, Repr

abbrev Faults := Call → Bool

variable (fs : FileSystem) (t : FileTree) (user : AuthenticatedUser) (faults : Faults)

def setOwner (real : Path) (now : Timestamp) : Result Unit :=
  if faults .chown then (.error .other, t) else ServerFileSystem.setOwner t user real now

def found (real : Path) : Bool := !faults .lstat && (lstat t.objects real).isSome

def makeDir (path name : Path) (len : ℕ) (now : Timestamp) : Result Unit :=
  let target := (makeRealPath fs.realPath path).join name
  if found t faults target then (.error .alreadyExists, t)
  else if faults .createDir then (.error .io, t)
  else
    match mkdir t target len now with
    | .error e => (.error (ofErrno e), t)
    | .ok t' => setOwner t' user faults target now

/-- `seek` takes the offset as an `i64`. -/
def writeFile (path : Path) (data : List UInt8) (offset : ℕ) (outcomes : List Outcome)
    (now : Timestamp) : Result Unit :=
  let real := makeRealPath fs.realPath path
  let created := !found t faults real
  if faults .openFile then (.error .io, t)
  else
    match PosixCalls.openCreate t real now with
    | .error e => (.error (ofErrno e), t)
    | .ok (l, t₁) =>
      if faults .seek ∨ 2 ^ 63 ≤ offset then (.error .io, t₁)
      else
        match writeAll (fun t pos d => pwrite t l d pos now) outcomes t₁ offset data with
        | (false, t₂) => (.error .io, t₂)
        | (true, t₂) => if created then setOwner t₂ user faults real now else (.ok (), t₂)

/-- Nothing new, and the files have their bytes. -/
structure Spared (t t' : Tree) : Prop where
  gone : ∀ l, t l = none → t' l = none
  kept : ∀ l i bytes, t l = some i → i.kind = .file bytes →
    ∃ j, t' l = some j ∧ j.kind = .file bytes

def Clean (r : Result Unit) : Prop := ∀ e, r.1 = .error e → Spared t.objects r.2.objects

def put (l : Location) (now : Timestamp) (t : Tree) (pos : ℕ) (d : List UInt8) : Tree :=
  match t l with
  | some i =>
    match i.kind with
    | .file bytes =>
      if d = [] then t
      else Function.update t l
        (some { i with kind := .file (writeAt 0 bytes pos d), mtime := now, ctime := now })
    | _ => t
  | none => t

section Writes

variable {t : Tree} {l : Location} {i : Inode} {bytes : List UInt8} {now : Timestamp}

theorem put_file (h : t l = some i) (hkind : i.kind = .file bytes) (pos : ℕ) (d : List UInt8) :
    put l now t pos d = if d = [] then t else Function.update t l
      (some { i with kind := .file (writeAt 0 bytes pos d), mtime := now, ctime := now }) := by
  unfold put
  rw [h]
  dsimp only
  rw [hkind]

theorem put_other (h : ¬∃ i bytes, t l = some i ∧ i.kind = .file bytes) (pos : ℕ)
    (d : List UInt8) : put l now t pos d = t := by
  unfold put
  split
  · rename_i i hi
    split
    · rename_i bytes hkind
      exact (h ⟨i, bytes, hi, hkind⟩).elim
    · rfl
  · rfl

theorem put_nil (l : Location) (now : Timestamp) (t : Tree) (pos : ℕ) : put l now t pos [] = t := by
  by_cases hfile : ∃ i bytes, t l = some i ∧ i.kind = .file bytes
  · obtain ⟨i, bytes, hi, hkind⟩ := hfile
    rw [put_file hi hkind, if_pos rfl]
  · exact put_other hfile _ _

theorem put_append (l : Location) (now : Timestamp) (t : Tree) (pos : ℕ) (a b : List UInt8) :
    put l now (put l now t pos a) (pos + a.length) b = put l now t pos (a ++ b) := by
  by_cases hfile : ∃ i bytes, t l = some i ∧ i.kind = .file bytes
  · obtain ⟨i, bytes, hi, hkind⟩ := hfile
    by_cases ha : a = []
    · rw [ha, put_nil, List.nil_append, List.length_nil, Nat.add_zero]
    by_cases hb : b = []
    · rw [hb, put_nil, List.append_nil]
    have hab : a ++ b ≠ [] := fun h => ha (List.append_eq_nil_iff.mp h).1
    rw [put_file hi hkind pos a, if_neg ha, put_file (Function.update_self ..) rfl, if_neg hb,
      put_file hi hkind, if_neg hab, Function.update_idem, writeAt_append]
  · rw [put_other hfile, put_other hfile, put_other hfile]

theorem put_look (l : Location) (now : Timestamp) (t : Tree) (pos : ℕ) (d : List UInt8) :
    look (put l now t pos d) = look t := by
  by_cases hfile : ∃ i bytes, t l = some i ∧ i.kind = .file bytes
  · obtain ⟨i, bytes, hi, hkind⟩ := hfile
    rw [put_file hi hkind]
    split
    · rfl
    · exact look_update hi (by rw [hkind]; rfl)
  · rw [put_other hfile]

theorem pwrite_objects (t : FileTree) (l : Location) (d : List UInt8) (pos : ℕ) (now : Timestamp) :
    (pwrite t l d pos now).objects = put l now t.objects pos d := by
  unfold pwrite
  split
  · rename_i hl
    rw [put_other (by simp [hl])]
  · rename_i i hl
    split
    · rename_i bytes hkind
      rw [put_file hl hkind]
      split <;> rfl
    · rename_i hkind
      refine (put_other ?_ _ _).symm
      rintro ⟨j, bytes, hj, hfile⟩
      obtain rfl := Option.some.inj (hl.symm.trans hj)
      exact hkind bytes hfile

end Writes

section Calls

variable {fs : FileSystem} {t t' : FileTree} {user : AuthenticatedUser} {faults : Faults}
  {real path name : Path} {l : Location} {i : Inode} {len : ℕ} {now : Timestamp}

theorem Spared.refl (t : Tree) : Spared t t :=
  ⟨fun _ h => h, fun _ i _ hi hkind => ⟨i, hi, hkind⟩⟩

/-- Where an object stands at the end of the path, only a fault keeps `chown` from it. -/
theorem setOwner_done (h : resolve t.objects true real = some l) (hl : t.objects l = some i) :
    (setOwner t user faults real now).1 =
      if faults .chown then .error .other else .ok () := by
  have htarget : target t.objects real = some (l, i) := objectAt_some.mpr ⟨h, hl⟩
  unfold setOwner ServerFileSystem.setOwner chown
  cases faults .chown with
  | true => rfl
  | false =>
    simp only [Bool.false_eq_true, ↓reduceIte]
    split
    · rfl
    · rename_i e hchown
      split at hchown
      · rename_i hnone
        cases hnone.symm.trans htarget
      · cases hchown

theorem create_free (h : place t.objects real = some l) (hfree : t.objects l = none) (i : Inode) :
    ∃ t', create t real i = .ok t' := by
  unfold create
  split
  · rename_i hnone
    cases hnone.symm.trans h
  · rename_i k hk
    obtain rfl := Option.some.inj (h.symm.trans hk)
    rw [dif_pos hfree]
    exact ⟨_, rfl⟩

variable (fs t faults path name) in
def LeftDirectory : Prop :=
  faults .chown = true ∧ faults .createDir = false ∧
    ∃ l, place t.objects ((makeRealPath fs.realPath path).join name) = some l ∧ t.objects l = none

theorem makeDir_clean_iff :
    Clean t (makeDir fs t user faults path name len now) ↔
      ¬LeftDirectory fs t faults path name := by
  obtain ⟨target, htarget⟩ : ∃ target, target = (makeRealPath fs.realPath path).join name :=
    ⟨_, rfl⟩
  unfold makeDir LeftDirectory
  rw [← htarget]
  dsimp only
  by_cases hmade : faults .createDir = false ∧
      ∃ l, place t.objects target = some l ∧ t.objects l = none
  · obtain ⟨hcreate, l, hplace, hfree⟩ := hmade
    have hnot : found t faults target = false := by
      rw [found, lstat_of_place hplace, hfree]
      simp
    obtain ⟨t₁, hmkdir⟩ : ∃ t₁, mkdir t target len now = .ok t₁ := create_free hplace hfree _
    obtain ⟨k, hk, ho, hthere⟩ := created_resolve hmkdir rfl
    rw [hnot, hcreate, hmkdir]
    simp only [Bool.false_eq_true, ↓reduceIte, true_and]
    cases hchown : faults .chown with
    | true =>
      refine iff_of_false (fun hclean => ?_) fun hn => hn ⟨rfl, l, hplace, hfree⟩
      rw [setOwner, if_pos hchown] at hclean
      have hgone := (hclean .other rfl).gone k hk
      rw [ho, Function.update_self] at hgone
      cases hgone
    | false =>
      refine iff_of_true (fun e he => ?_) fun hn => Bool.false_ne_true hn.1
      rw [setOwner_done hthere (by rw [ho]; exact Function.update_self ..), hchown] at he
      cases he
  · refine iff_of_true (fun e _ => ?_) fun h => hmade ⟨h.2.1, h.2.2⟩
    split
    · exact .refl _
    · split
      · exact .refl _
      · rename_i hcreate
        split
        · exact .refl _
        · rename_i t₁ hmkdir
          obtain ⟨l, hplace, hfree, -⟩ := create_ok hmkdir
          exact (hmade ⟨Bool.eq_false_of_not_eq_true hcreate, l, hplace, hfree⟩).elim

variable (fs t faults path) in
def Stops (data : List UInt8) (offset : ℕ) (outcomes : List Outcome) : Prop :=
  (faults .seek = true ∨ 2 ^ 63 ≤ offset) ∨ (taken outcomes data.length).1 = false ∨
    found t faults (makeRealPath fs.realPath path) = false ∧ faults .chown = true

variable (faults) in
def got (data : List UInt8) (offset : ℕ) (outcomes : List Outcome) : List UInt8 :=
  if faults .seek ∨ 2 ^ 63 ≤ offset then [] else data.take (taken outcomes data.length).2

/-- What a write does once the file is open. -/
theorem writeFile_opened {data : List UInt8} {offset : ℕ} {outcomes : List Outcome} {t₁ : FileTree}
    (hopen : faults .openFile = false)
    (h : PosixCalls.openCreate t (makeRealPath fs.realPath path) now = .ok (l, t₁))
    (hobj : t₁.objects l = some i)
    (hthere : resolve t₁.objects true (makeRealPath fs.realPath path) = some l) :
    (Stops fs t faults path data offset outcomes →
      (∃ e, (writeFile fs t user faults path data offset outcomes now).1 = .error e) ∧
        (writeFile fs t user faults path data offset outcomes now).2.objects =
          put l now t₁.objects offset (got faults data offset outcomes)) ∧
    (¬Stops fs t faults path data offset outcomes →
      (writeFile fs t user faults path data offset outcomes now).1 = .ok ()) := by
  unfold writeFile Stops got
  dsimp only
  rw [hopen, h, if_neg Bool.false_ne_true]
  dsimp only
  by_cases hseek : faults .seek = true ∨ 2 ^ 63 ≤ offset
  · rw [if_pos hseek, if_pos hseek, put_nil]
    exact ⟨fun _ => ⟨⟨_, rfl⟩, rfl⟩, fun hn => (hn (.inl hseek)).elim⟩
  rw [if_neg hseek, if_neg hseek, or_iff_right hseek]
  obtain ⟨hall, hobjects⟩ := writeAll_view (fun t pos d => pwrite t l d pos now)
    (fun s pos d => pwrite_objects s l d pos now) (put_nil l now) (put_append l now) outcomes t₁
    offset data
  obtain ⟨all, t₂, hwrite⟩ : ∃ all t₂, writeAll (fun t pos d => pwrite t l d pos now) outcomes t₁
    offset data = (all, t₂) := ⟨_, _, rfl⟩
  rw [hwrite] at hall hobjects ⊢
  rw [← hall]
  cases all with
  | false => exact ⟨fun _ => ⟨⟨_, rfl⟩, hobjects⟩, fun hn => (hn (.inl rfl)).elim⟩
  | true =>
    have hnot : ¬true = false := by decide
    obtain ⟨j, hj⟩ : ∃ j, t₂.objects l = some j := by
      refine Option.ne_none_iff_exists'.mp fun hnone => ?_
      rw [← look_missing, hobjects, put_look, look_missing, hobj] at hnone
      cases hnone
    have hthere₂ : resolve t₂.objects true (makeRealPath fs.realPath path) = some l := by
      rwa [PosixTree.resolve, hobjects, put_look]
    have hdone : (setOwner t₂ user faults (makeRealPath fs.realPath path) now).1 = _ :=
      setOwner_done hthere₂ hj
    rw [or_iff_right hnot]
    cases found t faults (makeRealPath fs.realPath path) with
    | true => exact ⟨fun hstop => Bool.noConfusion hstop.1, fun _ => rfl⟩
    | false =>
      cases hchown : faults .chown with
      | true =>
        rw [hchown] at hdone
        refine ⟨fun _ => ⟨⟨_, hdone⟩, ?_⟩, fun hn => (hn ⟨rfl, rfl⟩).elim⟩
        have hstays : setOwner t₂ user faults (makeRealPath fs.realPath path) now =
          (.error .other, t₂) := if_pos hchown
        exact (congrArg (fun r => r.2.objects) hstays).trans hobjects
      | false =>
        rw [hchown] at hdone
        exact ⟨fun hstop => Bool.noConfusion hstop.2, fun _ => hdone⟩

theorem openCreate_opens (h : PosixTree.resolve t.objects true real = some l)
    (hl : t.objects l = none ∨ ∃ i bytes, t.objects l = some i ∧ i.kind = .file bytes) :
    ∃ t₁, PosixCalls.openCreate t real now = .ok (l, t₁) := by
  unfold PosixCalls.openCreate
  split
  · rename_i hnone
    cases hnone.symm.trans h
  · rename_i k hk
    obtain rfl := Option.some.inj (h.symm.trans hk)
    split
    · exact ⟨_, rfl⟩
    · rename_i i hi
      rcases hl with hfree | ⟨j, bytes, hj, hkind⟩
      · cases hfree.symm.trans hi
      · obtain rfl := Option.some.inj (hi.symm.trans hj)
        rw [hkind]
        exact ⟨_, rfl⟩

variable (fs t faults path) in
/-- A write stops after `open` has made the file, or after other bytes are written. -/
def LeftBytes (data : List UInt8) (offset : ℕ) (outcomes : List Outcome) : Prop :=
  faults .openFile = false ∧ Stops fs t faults path data offset outcomes ∧
    ∃ l, PosixTree.resolve t.objects true (makeRealPath fs.realPath path) = some l ∧
      (t.objects l = none ∨ ∃ i bytes, t.objects l = some i ∧ i.kind = .file bytes ∧
        writeAt 0 bytes offset (got faults data offset outcomes) ≠ bytes)

/-- A file keeps its bytes exactly where the bytes written are there already. -/
theorem spared_put_iff {t : Tree} {bytes : List UInt8} (hi : t l = some i)
    (hkind : i.kind = .file bytes) (offset : ℕ) (d : List UInt8) :
    Spared t (put l now t offset d) ↔ writeAt 0 bytes offset d = bytes := by
  rw [put_file hi hkind]
  by_cases hd : d = []
  · rw [if_pos hd, hd, writeAt_nil]
    exact iff_of_true (.refl t) rfl
  rw [if_neg hd]
  constructor
  · intro hspared
    obtain ⟨j, hj, hfile⟩ := hspared.kept l i bytes hi hkind
    rw [Function.update_self] at hj
    obtain rfl := Option.some.inj hj
    injection hfile
  · intro hsame
    refine ⟨fun k hk => ?_, fun k i' bytes' hi' hkind' => ?_⟩
    · rw [Function.update_of_ne, hk]
      rintro rfl
      cases hk.symm.trans hi
    · by_cases hkl : k = l
      · subst hkl
        obtain rfl := Option.some.inj (hi.symm.trans hi')
        obtain rfl := Kind.file.inj (hkind.symm.trans hkind')
        exact ⟨_, Function.update_self .., by rw [hsame]⟩
      · exact ⟨i', by rwa [Function.update_of_ne hkl], hkind'⟩

theorem leftBytes_iff {data : List UInt8} {offset : ℕ} {outcomes : List Outcome}
    (hopen : faults .openFile = false) (hstops : Stops fs t faults path data offset outcomes)
    (hl : PosixTree.resolve t.objects true (makeRealPath fs.realPath path) = some l) :
    LeftBytes fs t faults path data offset outcomes ↔
      t.objects l = none ∨ ∃ i bytes, t.objects l = some i ∧ i.kind = .file bytes ∧
        writeAt 0 bytes offset (got faults data offset outcomes) ≠ bytes := by
  constructor
  · rintro ⟨-, -, k, hk, hobj⟩
    obtain rfl := Option.some.inj (hl.symm.trans hk)
    exact hobj
  · exact fun hobj => ⟨hopen, hstops, l, hl, hobj⟩

theorem openCreate_there {t₁ : FileTree} (h : PosixCalls.openCreate t real now = .ok (l, t₁)) :
    ∃ i, t₁.objects l = some i ∧ PosixTree.resolve t₁.objects true real = some l := by
  obtain ⟨hl, hcase⟩ := openCreate_cases h
  rcases hcase with ⟨hfree, ho⟩ | ⟨⟨i, bytes, hi, -⟩, rfl⟩
  · rw [ho]
    exact ⟨_, Function.update_self .., resolve_create hfree ⟨[], rfl⟩ hl⟩
  · exact ⟨i, hi, hl⟩

theorem clean_put_iff {t₁ : FileTree} {r : Result Unit} {e : StorageError} {offset : ℕ}
    {d : List UInt8} (h : PosixCalls.openCreate t real now = .ok (l, t₁)) (he : r.1 = .error e)
    (hobjects : r.2.objects = put l now t₁.objects offset d) :
    Clean t r ↔ ¬(t.objects l = none ∨ ∃ i bytes, t.objects l = some i ∧ i.kind = .file bytes ∧
      writeAt 0 bytes offset d ≠ bytes) := by
  have hclean : Clean t r ↔ Spared t.objects (put l now t₁.objects offset d) := by
    rw [← hobjects]
    exact ⟨fun h => h e he, fun h _ _ => h⟩
  rw [hclean]
  rcases (openCreate_cases h).2 with ⟨hfree, -⟩ | ⟨⟨i, bytes, hi, hkind⟩, rfl⟩
  · refine iff_of_false (fun hspared => ?_) fun hn => hn (.inl hfree)
    obtain ⟨i, hi, -⟩ := openCreate_there h
    have hgone := hspared.gone l hfree
    rw [← look_missing, put_look, look_missing, hi] at hgone
    cases hgone
  · rw [spared_put_iff hi hkind, ← not_iff_not, not_not]
    constructor
    · exact fun hne => .inr ⟨i, bytes, hi, hkind, hne⟩
    · rintro (hfree | ⟨j, bytes', hj, hkind', hne⟩)
      · cases hfree.symm.trans hi
      · obtain rfl := Option.some.inj (hi.symm.trans hj)
        obtain rfl := Kind.file.inj (hkind.symm.trans hkind')
        exact hne

theorem writeFile_clean_iff {data : List UInt8} {offset : ℕ} {outcomes : List Outcome} :
    Clean t (writeFile fs t user faults path data offset outcomes now) ↔
      ¬LeftBytes fs t faults path data offset outcomes := by
  obtain ⟨r, hr⟩ : ∃ r, r = writeFile fs t user faults path data offset outcomes now := ⟨_, rfl⟩
  have hsame : r.2 = t → ¬LeftBytes fs t faults path data offset outcomes →
      (Clean t r ↔ ¬LeftBytes fs t faults path data offset outcomes) := fun he hn =>
    iff_of_true (fun _ _ => by rw [he]; exact .refl _) hn
  rw [← hr]
  cases hopen : faults .openFile with
  | true =>
    refine hsame ?_ fun hleft => Bool.noConfusion (hopen.symm.trans hleft.1)
    rw [hr, writeFile, hopen]
    rfl
  | false =>
    cases hcall : PosixCalls.openCreate t (makeRealPath fs.realPath path) now with
    | error e =>
      refine hsame ?_ ?_
      · rw [hr, writeFile, hopen, hcall]
        rfl
      · rintro ⟨-, -, l, hl, hobj⟩
        obtain ⟨t₁, hok⟩ := openCreate_opens hl (hobj.imp id fun ⟨i, bytes, hi, hkind, _⟩ =>
          ⟨i, bytes, hi, hkind⟩)
        cases hcall.symm.trans hok
    | ok opened =>
      obtain ⟨l, t₁⟩ := opened
      obtain ⟨i, hi, hthere⟩ := openCreate_there hcall
      obtain ⟨hstop, hgo⟩ : (Stops fs t faults path data offset outcomes → _) ∧
          (_ → (writeFile fs t user faults path data offset outcomes now).1 = _) :=
        writeFile_opened hopen hcall hi hthere
      rw [← hr] at hstop hgo
      by_cases hstops : Stops fs t faults path data offset outcomes
      · obtain ⟨⟨e, he⟩, hobjects⟩ := hstop hstops
        rw [clean_put_iff hcall he hobjects, leftBytes_iff hopen hstops (openCreate_cases hcall).1]
      · refine iff_of_true (fun e he => ?_) fun hleft => hstops hleft.2.1
        rw [hgo hstops] at he
        cases he

end Calls

/-! Without faults these are the calls of the storage. -/

def noFaults : Faults := fun _ => false

theorem makeDir_noFaults (path name : Path) (len : ℕ) (now : Timestamp) :
    makeDir fs t user noFaults path name len now =
      ServerFileSystem.makeDir fs t user path name len now := rfl

theorem pwrite_nil (t : FileTree) (l : Location) (offset : ℕ) (now : Timestamp) :
    pwrite t l [] offset now = t := by
  unfold pwrite
  split
  · rfl
  · split
    · rw [if_pos rfl]
    · rfl

theorem writeFile_noFaults (path : Path) (data : List UInt8) (offset : ℕ) (now : Timestamp) :
    writeFile fs t user noFaults path data offset [] now =
      ServerFileSystem.writeFile fs t user path data offset now := by
  have hseek : (noFaults .seek = true ∨ 2 ^ 63 ≤ offset) ↔ 2 ^ 63 ≤ offset :=
    or_iff_right Bool.false_ne_true
  have hfound : ∀ real, (!found t noFaults real) = (lstat t.objects real).isNone := by
    intro real
    cases hl : lstat t.objects real <;> simp [found, noFaults, hl]
  unfold writeFile ServerFileSystem.writeFile
  dsimp only
  rw [hfound, if_neg (by decide)]
  cases PosixCalls.openCreate t (makeRealPath fs.realPath path) now with
  | error e => rfl
  | ok opened =>
    dsimp only
    simp only [hseek]
    by_cases hfar : 2 ^ 63 ≤ offset
    · rw [if_pos hfar, if_pos hfar]
    rw [if_neg hfar, if_neg hfar, writeAll]
    cases data with
    | nil =>
      rw [pwrite_nil]
      rfl
    | cons b data => rfl

/-- A failed `make_dir` leaves no new object exactly where the directory is not made or is given
away; a failed `write_file` leaves no new object and all bytes exactly where it fails before the
file is made, or has written what the file had there. -/
theorem failed_creation_iff (path name : Path) (len : ℕ) (data : List UInt8) (offset : ℕ)
    (outcomes : List Outcome) (now : Timestamp) :
    (Clean t (makeDir fs t user faults path name len now) ↔
        ¬LeftDirectory fs t faults path name) ∧
      (Clean t (writeFile fs t user faults path data offset outcomes now) ↔
        ¬LeftBytes fs t faults path data offset outcomes) :=
  ⟨makeDir_clean_iff, writeFile_clean_iff⟩

/-- A write to a new file at an offset that `seek` refuses, with no call failing otherwise: an empty
file of the superuser stays. A directory stays where `chown` fails. -/
theorem empty_file_stays :
    ¬Clean ServerExchange.samples (writeFile ServerExchange.exported ServerExchange.samples
      ⟨1000, 1000⟩ noFaults (components "/new") [1] (2 ^ 63) [] ⟨9, 0⟩) ∧
    ¬Clean ServerExchange.samples (makeDir ServerExchange.exported ServerExchange.samples
      ⟨1000, 1000⟩ (· = .chown) (components "/") (components "new") 4096 ⟨9, 0⟩) := by
  refine ⟨fun hclean => ?_, fun hclean => ?_⟩
  · have hgone := (hclean .io (by decide)).gone [.text "srv", .text "new"] (by decide)
    revert hgone
    decide
  · have hgone := (hclean .other (by decide)).gone [.text "srv", .text "new"] (by decide)
    revert hgone
    decide

end ServerFailedCreation
