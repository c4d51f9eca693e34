import RemoteFs.ServerStorage

/-! # The object that is checked and the object that is accessed

`is_allowed` looks at a final link itself, and the system calls follow it. Where no link
stands at the end of a path and the path is not the exported root, which everyone may
access, both are the same object. -/
namespace ServerAccess

open ClientAttributes
open OsPaths
open PosixTree
open ServerPaths
open ServerStorage

def operationOf : Act → Operation
  | .readBytes => .read
  | .writeBytes | .setSize | .setMtime | .setAtime => .write
  | .setMode | .setOwner => .ownerOnly

def permits (user : AuthenticatedUser) (i : Inode) (op : Operation) : Bool :=
  let shift := if user.userId = i.uid then 6 else if user.groupId = i.gid then 3 else 0
  match op with
  | .read => i.mode.testBit (shift + 2)
  | .write => i.mode.testBit (shift + 1)
  | .execute => i.mode.testBit shift
  | .ownerOnly => user.userId = i.uid

inductive Request where
  | readFile (path : Path) (offset size : ℕ)
  | writeFile (path : Path) (data : List UInt8) (offset : ℕ)
  | setAttributes (path : Path) (new : SetAttr)
  deriving DecidableEq, Repr

def Request.path : Request → Path
  | readFile path _ _ | writeFile path _ _ | setAttributes path _ => path

def serve (fs : FileSystem) (t : Tree) (user : AuthenticatedUser) (now : Timestamp) :
    Request → Except ApiError (Tree × List Access)
  | .readFile path offset size => do
    let done ← Routes.getFileContent fs t user path offset size
    .ok (done.tree, done.accesses)
  | .writeFile path data offset => do
    let done ← Routes.writeFile fs t user path data offset now
    .ok (done.tree, done.accesses)
  | .setAttributes path new => do
    let done ← Routes.setAttributes fs t user path new now
    .ok (done.tree, done.accesses)

/-- The path does not name the exported root, and no link stands at its end. -/
structure Direct (fs : FileSystem) (t : Tree) (path : Path) : Prop where
  notRoot : makeRealPath fs.realPath path ≠ makeRealPath fs.realPath [.rootDir]
  notLink : ∀ l, PosixTree.resolve t false (makeRealPath fs.realPath path) = some l →
    (look t l).isLink = false

section Checks

variable {fs : FileSystem} {t : Tree} {user : AuthenticatedUser} {path : Path}
variable {op : Operation} {l : Location} {i : Inode}

theorem bind_ok {ε α β : Type} {x : Except ε α} {f : α → Except ε β} {b : β}
    (h : (x >>= f) = .ok b) : ∃ a, x = .ok a ∧ f a = .ok b := by
  cases x with
  | error e => cases h
  | ok a => exact ⟨a, rfl, h⟩

theorem ofBits_shift (mode shift : ℕ) (h : shift ≤ 6) :
    PermissionType.ofBits ((mode % 2 ^ 16) >>> shift) =
      ⟨mode.testBit (shift + 2), mode.testBit (shift + 1), mode.testBit shift⟩ := by
  have hbit : ∀ k, k ≤ 2 → ((mode % 2 ^ 16) >>> shift).testBit k = mode.testBit (shift + k) := by
    intro k hk
    rw [Nat.testBit_shiftRight, Nat.testBit_mod_two_pow, decide_eq_true (by omega), Bool.true_and]
  rw [PermissionType.ofBits, hbit 2 le_rfl, hbit 1 (by omega), hbit 0 (by omega)]
  rfl

/-- The check decides by the bits of the object it looks at, unless it is the root. -/
theorem isAllowed_checked {checked : Path}
    (hchecked : lstat t (makeRealPath fs.realPath path) ≠ none ∧
        checked = makeRealPath fs.realPath path ∨
      lstat t (makeRealPath fs.realPath path) = none ∧
        (makeRealPath fs.realPath path).parent = some checked)
    (hl : lstat t checked = some (l, i)) :
    fs.isAllowed t user path op =
      .ok (checked = makeRealPath fs.realPath [.rootDir] || permits user i op) := by
  have hbits := ofBits_shift i.mode
  have hother := hbits 0 (by omega)
  rw [Nat.shiftRight_zero] at hother
  have hread : getAttributesByPath t checked = .ok (fileAttr i) := by rw [getAttributesByPath, hl]
  unfold FileSystem.isAllowed permits
  rcases hchecked with ⟨-, hreal⟩ | ⟨hmissing, hparent⟩
  case' inl => simp only [← hreal, hl, Option.isNone_some, Bool.false_eq_true, ↓reduceIte]
  case' inr => simp only [hmissing, hparent, Option.isNone_none, ↓reduceIte]
  all_goals
    simp only [hread, bind, Except.bind, fileAttr, Permission.ofMode, hbits 6 le_rfl,
      hbits 3 (by omega), hother]
    by_cases hroot : checked = makeRealPath fs.realPath [.rootDir]
    · simp [hroot]
    by_cases hu : user.userId = i.uid
    · simp only [hroot, hu, ↓reduceIte, decide_true, decide_false, Bool.false_or]
      cases op <;> rfl
    · by_cases hg : user.groupId = i.gid
      · simp only [hroot, hu, hg, ↓reduceIte, decide_false, Bool.false_or]
        cases op <;> rfl
      · simp only [hroot, hu, hg, ↓reduceIte, decide_false, Bool.false_or]
        cases op <;> rfl

theorem isAllowed_permits (hroot : makeRealPath fs.realPath path ≠
      makeRealPath fs.realPath [.rootDir])
    (hl : lstat t (makeRealPath fs.realPath path) = some (l, i)) :
    fs.isAllowed t user path op = .ok (permits user i op) := by
  have hfound : lstat t (makeRealPath fs.realPath path) ≠ none := by
    rw [hl]
    exact Option.some_ne_none _
  rw [isAllowed_checked (.inl ⟨hfound, rfl⟩) hl, decide_eq_false hroot, Bool.false_or]

/-- What a call reaches through a direct path is the object that was checked. -/
theorem checked_target (hd : Direct fs t path) (hallowed : fs.isAllowed t user path op = .ok true)
    (ht : target t (makeRealPath fs.realPath path) = some (l, i)) : permits user i op = true := by
  obtain ⟨hl, hobj⟩ := objectAt_some.mp ht
  cases hlstat : lstat t (makeRealPath fs.realPath path) with
  | none => cases hobj.symm.trans (missing_of_lstat_none hlstat hl)
  | some found =>
    obtain ⟨k, j⟩ := found
    obtain ⟨hk, hj⟩ := objectAt_some.mp hlstat
    have hkl := walk_follow (hd.notLink k hk) _ _ _ hk
    rw [show walk (look t) true maxLinks [] _ = some l from hl] at hkl
    injection hkl with hkl
    subst hkl
    rw [hobj] at hj
    injection hj with hj
    subst hj
    rw [isAllowed_permits hd.notRoot hlstat] at hallowed
    injection hallowed

end Checks

section Parts

variable {fs : FileSystem} {t t₁ t₂ : Tree} {user : AuthenticatedUser} {path : Path}
variable {act : Act} {f : Inode → Option Inode} {new : SetAttr} {now : Timestamp}
variable {done : Tree × List Access} {log log' : List Access}

/-- Every guarded access is permitted, and nothing but what is reported has changed. -/
structure Sound (user : AuthenticatedUser) (t t' : Tree) (log : List Access) : Prop where
  permitted : ∀ a ∈ log, a.act ≠ .setAtime → permits user a.info (operationOf a.act) = true
  reported : ∀ l, t' l ≠ t l → ∃ a ∈ log, a.object = l

/-- A part of a request, after which every path leads where it led. -/
structure Proper (user : AuthenticatedUser) (t t' : Tree) (log : List Access) : Prop
    extends Sound user t t' log where
  look : look t' = look t

theorem Proper.refl (t : Tree) : Proper user t t [] :=
  ⟨⟨fun a ha => by (cases ha), fun l hl => (hl rfl).elim⟩, rfl⟩

theorem Proper.trans (h : Proper user t t₁ log) (h' : Proper user t₁ t₂ log') :
    Proper user t t₂ (log ++ log') where
  look := h'.look.trans h.look
  permitted a ha := by
    rcases List.mem_append.mp ha with ha | ha
    · exact h.permitted a ha
    · exact h'.permitted a ha
  reported l hl := by
    by_cases hl₁ : t₁ l = t l
    · obtain ⟨a, ha, hal⟩ := h'.reported l (by rwa [hl₁])
      exact ⟨a, List.mem_append_right _ ha, hal⟩
    · obtain ⟨a, ha, hal⟩ := h.reported l hl₁
      exact ⟨a, List.mem_append_left _ ha, hal⟩

/-- Whether a path is direct is decided by where paths lead. -/
theorem Direct.congr (hd : Direct fs t path) (h : look t₁ = look t) : Direct fs t₁ path := by
  refine ⟨hd.notRoot, ?_⟩
  rw [show PosixTree.resolve t₁ false = PosixTree.resolve t false by
    unfold PosixTree.resolve; rw [h], h]
  exact hd.notLink

theorem change_proper (hd : Direct fs t path)
    (hf : ∀ i j, f i = some j → j.kind.look = i.kind.look)
    (hallowed : act ≠ .setAtime → fs.isAllowed t user path (operationOf act) = .ok true)
    (h : change t (makeRealPath fs.realPath path) act f = .ok done) :
    Proper user t done.1 done.2 := by
  unfold change at h
  split at h
  · cases h
  · rename_i l i htarget
    split at h
    · cases h
    · rename_i j hj
      injection h with h
      subst h
      refine ⟨⟨?_, ?_⟩, look_update (objectAt_some.mp htarget).2 (hf i j hj)⟩
      · intro a ha hact
        obtain rfl := List.mem_singleton.mp ha
        exact checked_target hd (hallowed hact) htarget
      · intro k hk
        refine ⟨_, List.mem_singleton_self _, ?_⟩
        by_contra hne
        exact hk (Function.update_of_ne (Ne.symm hne) _ _)

theorem mode_proper (hd : Direct fs t path)
    (h : fs.setAttributesMode t user path new now = .ok done) :
    Proper user t done.1 done.2 := by
  unfold FileSystem.setAttributesMode at h
  split at h
  · injection h with h
    exact h ▸ Proper.refl t
  · obtain ⟨allowed, hallowed, h⟩ := bind_ok h
    cases allowed with
    | false => cases h
    | true =>
      rw [if_pos rfl] at h
      refine change_proper hd ?_ ?_ h
      · rintro i j ⟨⟩
        rfl
      · exact fun _ => hallowed

theorem owner_proper (hd : Direct fs t path)
    (h : fs.setAttributesOwner t user path new now = .ok done) :
    Proper user t done.1 done.2 := by
  unfold FileSystem.setAttributesOwner at h
  split at h
  · obtain ⟨allowed, hallowed, h⟩ := bind_ok h
    cases allowed with
    | false => cases h
    | true =>
      obtain ⟨metadata, -, h⟩ := bind_ok h
      obtain ⟨uid, -, h⟩ := bind_ok h
      obtain ⟨gid, -, h⟩ := bind_ok h
      split at h
      · refine change_proper hd ?_ ?_ h
        · rintro i j ⟨⟩
          rfl
        · exact fun _ => hallowed
      · injection h with h
        exact h ▸ Proper.refl t
  · injection h with h
    exact h ▸ Proper.refl t

theorem size_proper (hd : Direct fs t path)
    (h : fs.setAttributesSize t user path new now = .ok done) :
    Proper user t done.1 done.2 := by
  unfold FileSystem.setAttributesSize at h
  split at h
  · injection h with h
    exact h ▸ Proper.refl t
  · obtain ⟨allowed, hallowed, h⟩ := bind_ok h
    cases allowed with
    | false => cases h
    | true =>
      rw [if_pos rfl] at h
      refine change_proper hd ?_ ?_ h
      · intro i j hj
        split at hj
        · rename_i bytes hk
          injection hj with hj
          rw [← hj, hk]
          rfl
        · cases hj
      · exact fun _ => hallowed

theorem times_proper (hd : Direct fs t path)
    (h : fs.setAttributesTimes t user path new now = .ok done) :
    Proper user t done.1 done.2 := by
  unfold FileSystem.setAttributesTimes at h
  obtain ⟨allowed, hallowed, h⟩ := bind_ok h
  cases allowed with
  | false => cases h
  | true =>
    cases hl : lstat t (makeRealPath fs.realPath path) with
    | none =>
      simp only [hl, Bool.not_true, Bool.false_eq_true, ↓reduceIte] at h
      cases h
    | some found =>
      simp only [hl, Bool.not_true, Bool.false_eq_true, ↓reduceIte] at h
      refine change_proper hd ?_ ?_ h
      · rintro i j ⟨⟩
        rfl
      · intro hact
        cases hm : new.mtime.isSome with
        | false => rw [hm] at hact; exact (hact rfl).elim
        | true => rw [hm] at hallowed; exact hallowed

theorem setAttributes_proper {done : Done Attributes} (hd : Direct fs t path)
    (h : fs.setAttributes t user path new now = .ok done) :
    Proper user t done.tree done.accesses := by
  unfold FileSystem.setAttributes at h
  obtain ⟨mode, hmode, h⟩ := bind_ok h
  obtain ⟨owner, howner, h⟩ := bind_ok h
  obtain ⟨size, hsize, h⟩ := bind_ok h
  obtain ⟨times, htimes, h⟩ := bind_ok h
  obtain ⟨attributes, -, h⟩ := bind_ok h
  injection h with h
  subst h
  have h₁ := mode_proper hd hmode
  have h₂ := h₁.trans (owner_proper (hd.congr h₁.look) howner)
  have h₃ := h₂.trans (size_proper (hd.congr h₂.look) hsize)
  exact h₃.trans (times_proper (hd.congr h₃.look) htimes)

theorem openCreate_ok {real : Path} {l : Location} {i : Inode} {bytes : List UInt8}
    (h : openCreate t real now = .ok (l, i, bytes)) : PosixTree.resolve t true real = some l ∧
      ((t l = none ∧ i = ⟨.file [], 0o100644, 0, 0, now, now, now⟩) ∨ t l = some i) ∧
      i.kind = .file bytes := by
  unfold openCreate at h
  split at h
  · cases h
  · rename_i k hk
    split at h
    · rename_i hnone
      injection h with h
      injection h with h₁ h
      injection h with h₂ h₃
      subst h₁ h₂ h₃
      exact ⟨hk, Or.inl ⟨hnone, rfl⟩, rfl⟩
    · rename_i j hj
      split at h
      · rename_i bytes' hkind
        injection h with h
        injection h with h₁ h
        injection h with h₂ h₃
        subst h₁ h₂ h₃
        exact ⟨hk, Or.inr hj, hkind⟩
      · cases h

theorem created_iff {l : Location} (hd : Direct fs t path)
    (hl : PosixTree.resolve t true (makeRealPath fs.realPath path) = some l) :
    (lstat t (makeRealPath fs.realPath path)).isNone = true ↔ t l = none := by
  cases hfound : lstat t (makeRealPath fs.realPath path) with
  | none => simp [missing_of_lstat_none hfound hl]
  | some found =>
    obtain ⟨k, j⟩ := found
    obtain ⟨hk, hj⟩ := objectAt_some.mp hfound
    have hkl := (walk_follow (hd.notLink k hk) _ _ _ hk).symm.trans hl
    injection hkl with hkl
    subst hkl
    simp [hj]

theorem setOwner_ok {real : Path} (h : setOwner user t real now = .ok t₁) :
    ∃ l i, target t real = some (l, i) ∧
      t₁ = Function.update t l
        (some (i.chown user.userId user.groupId now)) := by
  obtain ⟨done, hdone, h⟩ := bind_ok h
  injection h with h
  subst h
  unfold change at hdone
  split at hdone
  · cases hdone
  · rename_i l i htarget
    injection hdone with hdone
    exact ⟨l, i, htarget, by rw [← hdone]⟩

theorem sound_of_update {l : Location} {i : Inode}
    (hp : permits user i .write = true) :
    Sound user t (Function.update t l (some i)) [⟨l, i, .writeBytes⟩] := by
  refine ⟨?_, ?_⟩
  · intro a ha _
    obtain rfl := List.mem_singleton.mp ha
    exact hp
  · intro k hk
    refine ⟨_, List.mem_singleton_self _, ?_⟩
    by_contra hne
    exact hk (Function.update_of_ne (Ne.symm hne) _ _)

theorem writeFile_sound {done : Done Unit} {data : List UInt8} {offset : ℕ}
    (hd : Direct fs t path) (hallowed : fs.isAllowed t user path .write = .ok true)
    (h : fs.writeFile t user path data offset now = .ok done) :
    Sound user t done.tree done.accesses := by
  unfold FileSystem.writeFile at h
  obtain ⟨⟨l, i, bytes⟩, hopen, h⟩ := bind_ok h
  obtain ⟨hl, hcase, hkind⟩ := openCreate_ok hopen
  obtain ⟨t', ht', h⟩ := bind_ok h
  injection h with h
  subst h
  dsimp only at ht' ⊢
  obtain ⟨written, hwritten⟩ : ∃ written, written = if data = [] then i else
    { i with kind := .file (FileBytes.writeAt 0 bytes offset data), mtime := now, ctime := now } :=
    ⟨_, rfl⟩
  rw [← hwritten] at ht'
  have hsame : written.mode = i.mode ∧ written.uid = i.uid ∧ written.gid = i.gid ∧
      ∃ bytes, written.kind = .file bytes := by
    rw [hwritten]
    split
    · exact ⟨rfl, rfl, rfl, bytes, hkind⟩
    · exact ⟨rfl, rfl, rfl, _, rfl⟩
  obtain ⟨hmode, huid, hgid, hfile⟩ := hsame
  rcases hcase with ⟨hnone, rfl⟩ | hobj
  · rw [if_pos ((created_iff hd hl).mpr hnone)] at ht'
    obtain ⟨k, j, htarget, rfl⟩ := setOwner_ok ht'
    obtain ⟨hk, hj⟩ := objectAt_some.mp htarget
    have hkl := (resolve_create hnone hfile hl).symm.trans hk
    injection hkl with hkl
    subst hkl
    rw [Function.update_self] at hj
    injection hj with hj
    subst hj
    rw [Function.update_idem, Function.update_self]
    refine sound_of_update ?_
    obtain ⟨bytes', hbytes'⟩ := hfile
    have hnew : (written.chown user.userId user.groupId now).mode = 0o100644 := by
      rw [Inode.chown_file hbytes', hmode]
      exact disowned_created
    -- The new file is the user's own by now.
    have hown : (written.chown user.userId user.groupId now).uid = user.userId := rfl
    rw [permits, hnew, hown, if_pos rfl]
    decide
  · have hcreated : ¬(lstat t (makeRealPath fs.realPath path)).isNone = true := by
      rw [created_iff hd hl, hobj]
      simp
    rw [if_neg hcreated] at ht'
    injection ht' with ht'
    subst ht'
    rw [Function.update_self]
    refine sound_of_update ?_
    have hchecked := checked_target hd hallowed (objectAt_some.mpr ⟨hl, hobj⟩)
    simp only [permits, hmode, huid, hgid] at hchecked ⊢
    exact hchecked

theorem readFile_sound {done : Done (List UInt8)} {offset size : ℕ} (hd : Direct fs t path)
    (hallowed : fs.isAllowed t user path .read = .ok true)
    (h : fs.readFile t path offset size = .ok done) : Sound user t done.tree done.accesses := by
  unfold FileSystem.readFile at h
  split at h
  · cases h
  · rename_i l i htarget
    split at h
    · injection h with h
      subst h
      refine ⟨?_, fun l hl => (hl rfl).elim⟩
      intro a ha _
      obtain rfl := List.mem_singleton.mp ha
      exact checked_target hd hallowed htarget
    · cases h

theorem ofStorage_ok {α : Type} {x : Except StorageError α} {a : α}
    (h : Routes.ofStorage x = .ok a) : x = .ok a := by
  cases x with
  | error e => cases h
  | ok b =>
    injection h with h
    rw [h]

theorem checkPermission_ok {op : Operation} {u : Unit}
    (h : Routes.checkPermission fs t user path op = .ok u) :
    fs.isAllowed t user path op = .ok true := by
  unfold Routes.checkPermission at h
  split at h
  · assumption
  · cases h
  · cases h

end Parts

/-- A request that succeeds on a direct path makes only accesses that the accessed object
itself permits to the user, a change of the access time apart, and changes nothing else. -/
theorem checked_is_accessed (fs : FileSystem) (t : Tree) (user : AuthenticatedUser)
    (now : Timestamp) (request : Request) (hd : Direct fs t request.path)
    (done : Tree × List Access) (h : serve fs t user now request = .ok done) :
    (∀ a ∈ done.2, a.act ≠ .setAtime → permits user a.info (operationOf a.act) = true) ∧
      ∀ l, done.1 l ≠ t l → ∃ a ∈ done.2, a.object = l := by
  have hsound : Sound user t done.1 done.2 := by
    cases request with
    | readFile path offset size =>
      obtain ⟨served, hserved, h⟩ := bind_ok h
      obtain ⟨u, hcheck, hread⟩ := bind_ok hserved
      injection h with h
      subst h
      exact readFile_sound hd (checkPermission_ok hcheck) (ofStorage_ok hread)
    | writeFile path data offset =>
      obtain ⟨served, hserved, h⟩ := bind_ok h
      obtain ⟨u, hcheck, hserved⟩ := bind_ok hserved
      obtain ⟨written, hwrite, hserved⟩ := bind_ok hserved
      obtain ⟨attributes, -, hserved⟩ := bind_ok hserved
      injection h with h
      injection hserved with hserved
      subst h hserved
      exact writeFile_sound hd (checkPermission_ok hcheck) (ofStorage_ok hwrite)
    | setAttributes path new =>
      obtain ⟨served, hserved, h⟩ := bind_ok h
      injection h with h
      subst h
      exact (setAttributes_proper hd (ofStorage_ok hserved)).toSound
  exact ⟨hsound.permitted, hsound.reported⟩

def exported : Tree := fun l =>
  let zero : Timestamp := ⟨0, 0⟩
  if l = [] ∨ l = [.text "srv"] then some ⟨.directory 4096, 0o040755, 0, 0, zero, zero, zero⟩
  else if l = [.text "srv", .text "secret"] then
    some ⟨.file [7], 0o100600, 0, 0, zero, zero, zero⟩
  else if l = [.text "srv", .text "own"] then
    some ⟨.file [1, 2], 0o100644, 1000, 1000, zero, zero, zero⟩
  else none

theorem checked_is_accessed_owner :
    let fs : FileSystem := ⟨[.rootDir, .normal (.text "srv")]⟩
    let user : AuthenticatedUser := ⟨1000, 1000⟩
    let request := Request.setAttributes [.rootDir, .normal (.text "own")]
      { SetAttr.ofSize 1 with mode := some 0o600 }
    ∃ done, serve fs exported user ⟨9, 0⟩ request = .ok done ∧
      (done.2.map Access.act = [.setMode, .setSize, .setAtime]) ∧
      (∀ a ∈ done.2, a.act ≠ .setAtime → permits user a.info (operationOf a.act) = true) ∧
      ∀ l, done.1 l ≠ exported l → ∃ a ∈ done.2, a.object = l := by
  intro fs user request
  refine ⟨_, rfl, rfl, checked_is_accessed fs exported user ⟨9, 0⟩ request ⟨by decide, ?_⟩ _ rfl⟩
  rintro l ⟨⟩
  rfl

/-- A stranger changes the mode of the exported root, which everyone may access; reads a
file of the superuser through a link made for it; and sets its access time. -/
theorem unpermitted_objects_are_accessed :
    let fs : FileSystem := ⟨[.rootDir, .normal (.text "srv")]⟩
    let stranger : AuthenticatedUser := ⟨1000, 1000⟩
    let now : Timestamp := ⟨9, 0⟩
    let path : String → Path := fun n => [.rootDir, .normal (.text n)]
    let verdicts : List Access → List (Act × Bool) := fun log =>
      log.map fun a => (a.act, permits stranger a.info (operationOf a.act))
    ((serve fs exported stranger now (.setAttributes [.rootDir]
      { SetAttr.none with mode := some 0o777 })).toOption.map fun done => verdicts done.2) =
        some [(.setMode, false), (.setAtime, true)] ∧
    ((Routes.createSymlink fs exported stranger (path "l") "secret" now).toOption.bind fun linked =>
      (Routes.getFileContent fs linked.2 stranger (path "l") 0 1).toOption.map fun done =>
        (done.result, verdicts done.accesses)) = some ([7], [(.readBytes, false)]) ∧
    ((serve fs exported stranger now (.setAttributes (path "secret")
      { SetAttr.none with atime := some ⟨5, 0⟩ })).toOption.map fun done => verdicts done.2) =
        some [(.setAtime, false)] := by
  decide

end ServerAccess
