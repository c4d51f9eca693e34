import RemoteFs.CallRows
import RemoteFs.ServerAccess

/-! # `set_attributes`, call by call

The four parts of the request run in a row, and each is a few system calls of which only the last
one changes the object. Any of the calls may fail; then the request ends, and what the parts
before have changed stays. -/
namespace ServerAttributeCalls

open CallRows
open ClientAttributes
open FileBytes
open OsPaths
open PosixTree
open ServerAccess
open ServerPaths
open ServerStorage
open SystemTimes
open Timestamps

/-- The system calls of a request, by the place where they are made. -/
inductive Call where
  | lookForMode
  | readForMode
  | chmod
  | lookForOwner
  | readForOwner
  | readIds
  | chown
  | lookForSize
  | readForSize
  | openFile
  | setLen
  | lookForMtime
  | readForMtime
  | readTimes
  | setTimes
  | readBack
  deriving DecidableEq, Repr

/-- Which of the calls fail, whatever the object. -/
abbrev Faults := Call → Bool

def noFaults : Faults := fun _ => false

inductive Failure where
  | error (e : StorageError)
  | panic
  deriving DecidableEq, Repr

def orFail {α : Type} : Except StorageError α → Except Failure α := Except.mapError .error

variable (fs : FileSystem) (user : AuthenticatedUser) (path : Path) (new : SetAttr)
  (now : Timestamp) (faults : Faults)

def lstatCall (call : Call) (t : Tree) (p : Path) : Option (Location × Inode) :=
  if faults call then none else lstat t p

/-- `get_attributes_by_path`, for which every failure is a missing object. -/
def attributesCall (call : Call) (t : Tree) (p : Path) : Except StorageError Attributes :=
  match lstatCall faults call t p with
  | some (_, i) => .ok (fileAttr i)
  | none => .error .notFound

def allows (checked : Path) (attributes : Attributes) (operation : Operation) : Bool :=
  let permissions := Permission.ofMode attributes.perm
  if checked = makeRealPath fs.realPath [.rootDir] then true
  else if user.userId = attributes.uid then
    match operation with
    | .read => permissions.user.read
    | .write => permissions.user.write
    | .execute => permissions.user.execute
    | .ownerOnly => true
  else if user.groupId = attributes.gid then
    match operation with
    | .read => permissions.group.read
    | .write => permissions.group.write
    | .execute => permissions.group.execute
    | .ownerOnly => false
  else
    match operation with
    | .read => permissions.other.read
    | .write => permissions.other.write
    | .execute => permissions.other.execute
    | .ownerOnly => false

def isAllowed (look read : Call) (t : Tree) (operation : Operation) : Except StorageError Bool := do
  let real := makeRealPath fs.realPath path
  let checked ← (if (lstatCall faults look t real).isNone then
      match real.parent with
      | none => .error .notFound
      | some parent => .ok parent
    else .ok real)
  let attributes ← attributesCall faults read t checked
  .ok (allows fs user checked attributes operation)

def changeCall (call : Call) (e : StorageError) (t : Tree) (f : Inode → Inode) :
    Except Failure Tree :=
  if faults call then .error (.error e)
  else
    match target t (makeRealPath fs.realPath path) with
    | none => .error (.error e)
    | some (l, i) => .ok (Function.update t l (some (f i)))

def withMode (mode : ℕ) (i : Inode) : Inode :=
  { i with mode := i.mode / 0o10000 * 0o10000 + mode % 0o10000, ctime := now }

def setMode (t : Tree) : Except Failure Tree :=
  match new.mode with
  | none => .ok t
  | some mode => do
    if ← orFail (isAllowed fs user path faults .lookForMode .readForMode t .ownerOnly) then
      changeCall fs path faults .chmod .io t (withMode now mode)
    else .error (.error .permissionDenied)

/-- The closure `resolve`: an id that is there already is no change, another one takes root or,
for a group, membership. -/
def resolve (request : Option ℕ) (current : ℕ) (isMember : Bool) :
    Except StorageError (Option ℕ) :=
  match request with
  | some r =>
    if r = current then .ok none
    else if user.userId = 0 || isMember then .ok (some r)
    else .error .permissionDenied
  | none => .ok none

def withOwner (uid gid : Option ℕ) (i : Inode) : Inode :=
  i.chown (uid.getD i.uid) (gid.getD i.gid) now

def setOwner (t : Tree) : Except Failure Tree := do
  if new.uid.isSome || new.gid.isSome then
    if !(← orFail (isAllowed fs user path faults .lookForOwner .readForOwner t .ownerOnly)) then
      .error (.error .permissionDenied)
    else
      let metadata ← orFail (attributesCall faults .readIds t (makeRealPath fs.realPath path))
      let uid ← orFail (resolve user new.uid metadata.uid false)
      let gid ← orFail (resolve user new.gid metadata.gid (new.gid = some user.groupId))
      if uid.isSome || gid.isSome then
        changeCall fs path faults .chown .other t (withOwner now uid gid)
      else .ok t
  else .ok t

def openFile (t : Tree) : Except Failure (Location × Inode × List UInt8) :=
  if faults .openFile then .error (.error .io)
  else
    match target t (makeRealPath fs.realPath path) with
    | none => .error (.error .notFound)
    | some (l, i) =>
      match i.kind with
      | .file bytes => .ok (l, i, bytes)
      | _ => .error (.error .io)

def withSize (bytes : List UInt8) (size : ℕ) (i : Inode) : Inode :=
  { i with kind := .file (resize 0 bytes size), mtime := now, ctime := now }

def setSize (t : Tree) : Except Failure Tree :=
  match new.size with
  | none => .ok t
  | some size => do
    if ← orFail (isAllowed fs user path faults .lookForSize .readForSize t .write) then
      let (l, i, bytes) ← openFile fs path faults t
      if faults .setLen ∨ 2 ^ 63 ≤ size then .error (.error .io)
      else .ok (Function.update t l (some (withSize now bytes size i)))
    else .error (.error .permissionDenied)

def fileTime (request : Option Timestamp) (current : Timestamp) : Except Failure Timestamp :=
  match request with
  | none => .ok current
  | some requested =>
    match toSystemTime requested with
    | some s => .ok ⟨s.secs, s.nanos⟩
    | none => .error .panic

def withTimes (atime mtime : Timestamp) (i : Inode) : Inode :=
  { i with atime := atime, mtime := mtime, ctime := now }

/-- Both times are set whatever was asked for. -/
def stamp (t : Tree) : Except Failure Tree :=
  match lstatCall faults .readTimes t (makeRealPath fs.realPath path) with
  | none => .error (.error .notFound)
  | some (_, metadata) => do
    let atime ← fileTime new.atime metadata.atime
    let mtime ← fileTime new.mtime metadata.mtime
    changeCall fs path faults .setTimes .io t (withTimes now atime mtime)

def setTimes (t : Tree) : Except Failure Tree :=
  match new.mtime with
  | none => stamp fs path new now faults t
  | some _ => do
    if ← orFail (isAllowed fs user path faults .lookForMtime .readForMtime t .write) then
      stamp fs path new now faults t
    else .error (.error .permissionDenied)

inductive Part where
  | mode
  | owner
  | size
  | times
  | answer
  deriving DecidableEq, Repr

def Part.run (t : Tree) : Part → Except Failure Tree
  | .mode => setMode fs user path new now faults t
  | .owner => setOwner fs user path new now faults t
  | .size => setSize fs user path new now faults t
  | .times => setTimes fs user path new now faults t
  | .answer =>
    (orFail (attributesCall faults .readBack t (makeRealPath fs.realPath path))).map fun _ => t

def setAttributes (t : Tree) : Except Failure Attributes × Tree :=
  match row ([.mode, .owner, .size, .times].map fun part =>
    fun t => Part.run fs user path new now faults t part) t with
  | (.error e, t') => (.error e, t')
  | (.ok (), t') =>
    (orFail (attributesCall faults .readBack t' (makeRealPath fs.realPath path)), t')

/-! What the parts do to one object -/

/-- The path leads to a file or a directory, and no link stands at its end. -/
structure Found (t : Tree) (l : Location) (i : Inode) : Prop where
  object : lstat t (makeRealPath fs.realPath path) = some (l, i)
  direct : i.kind.look.isLink = false

def Granted (look read : Call) (operation : Operation) (t : Tree) : Prop :=
  isAllowed fs user path faults look read t operation = .ok true

def Differs (request : Option ℕ) (current : ℕ) : Prop := request ≠ none ∧ request ≠ some current

instance (request : Option ℕ) (current : ℕ) : Decidable (Differs request current) :=
  inferInstanceAs (Decidable (_ ∧ _))

def Converts (request : Option Timestamp) : Prop := ∀ t, request = some t → toSystemTime t ≠ none

/-- The part is asked for, and its check refuses the object or one of its calls fails. -/
def Refuses (t : Tree) (i : Inode) : Part → Prop
  | .mode => new.mode ≠ none ∧
      (¬Granted fs user path faults .lookForMode .readForMode .ownerOnly t ∨ faults .chmod)
  | .owner => (new.uid ≠ none ∨ new.gid ≠ none) ∧
      (¬Granted fs user path faults .lookForOwner .readForOwner .ownerOnly t ∨ faults .readIds ∨
        Differs new.uid i.uid ∧ user.userId ≠ 0 ∨
        Differs new.gid i.gid ∧ user.userId ≠ 0 ∧ new.gid ≠ some user.groupId ∨
        (Differs new.uid i.uid ∨ Differs new.gid i.gid) ∧ faults .chown)
  | .size => ∃ size, new.size = some size ∧
      (¬Granted fs user path faults .lookForSize .readForSize .write t ∨ faults .openFile ∨
        i.kind.look = .directory ∨ faults .setLen ∨ 2 ^ 63 ≤ size)
  | .times =>
      new.mtime ≠ none ∧ ¬Granted fs user path faults .lookForMtime .readForMtime .write t ∨
      faults .readTimes ∨ Converts new.atime ∧ Converts new.mtime ∧ faults .setTimes
  | .answer => faults .readBack

def Panics (part : Part) : Prop := part = .times ∧ ¬(Converts new.atime ∧ Converts new.mtime)

def converted (request : Option Timestamp) (current : Timestamp) : Timestamp :=
  match request.bind toSystemTime with
  | some s => ⟨s.secs, s.nanos⟩
  | none => current

def effect (i : Inode) : Part → Inode
  | .mode => new.mode.elim i fun mode => withMode now mode i
  | .owner =>
    if Differs new.uid i.uid ∨ Differs new.gid i.gid then
      withOwner now new.uid new.gid i
    else i
  | .size =>
    match new.size, i.kind with
    | some size, .file bytes => withSize now bytes size i
    | _, _ => i
  | .times => withTimes now (converted new.atime i.atime) (converted new.mtime i.mtime) i
  | .answer => i

structure Goes (result : Except Failure Tree) (refuses panics : Prop) (t : Tree) : Prop where
  refused : refuses → ∃ e, result = .error (.error e)
  panicked : ¬refuses → panics → result = .error .panic
  done : ¬refuses → ¬panics → result = .ok t

section Parts

variable {fs : FileSystem} {user : AuthenticatedUser} {path : Path} {new : SetAttr}
  {now : Timestamp} {faults : Faults} {t : Tree} {l : Location} {i j : Inode}
  {look read call : Call} {operation : Operation} {e : StorageError} {f : Inode → Inode}

theorem Found.target (h : Found fs path t l i) :
    target t (makeRealPath fs.realPath path) = some (l, i) := by
  obtain ⟨hl, hobj⟩ := objectAt_some.mp h.object
  refine objectAt_some.mpr ⟨walk_follow ?_ _ _ _ hl, hobj⟩
  rw [look_some hobj]
  exact h.direct

/-- A change of the object that leaves its kind leaves it where it was found. -/
theorem Found.amend (h : Found fs path t l i) (hkind : j.kind.look = i.kind.look) :
    Found fs path (Function.update t l (some j)) l j := by
  obtain ⟨hl, hobj⟩ := objectAt_some.mp h.object
  refine ⟨objectAt_some.mpr ⟨?_, Function.update_self ..⟩, hkind ▸ h.direct⟩
  rw [PosixTree.resolve, look_update hobj hkind]
  exact hl

theorem Found.same (h : Found fs path t l i) : Function.update t l (some i) = t := by
  rw [← (objectAt_some.mp h.object).2, Function.update_eq_self]

theorem changeCall_of_found (h : Found fs path t l i) :
    changeCall fs path faults call e t f =
      if faults call then .error (.error e) else .ok (Function.update t l (some (f i))) := by
  rw [changeCall, h.target]

theorem lstatCall_of_found (h : Found fs path t l i) (call : Call) :
    lstatCall faults call t (makeRealPath fs.realPath path) =
      if faults call then none else some (l, i) := by rw [lstatCall, h.object]

theorem attributesCall_of_found (h : Found fs path t l i) (call : Call) :
    attributesCall faults call t (makeRealPath fs.realPath path) =
      if faults call then .error .notFound else .ok (fileAttr i) := by
  rw [attributesCall, lstatCall_of_found h]
  cases faults call <;> rfl

theorem Goes.of_refused {result : Except Failure Tree} {refuses panics : Prop} (hr : refuses)
    (h : result = .error (.error e)) : Goes result refuses panics t :=
  ⟨fun _ => ⟨e, h⟩, fun hn => (hn hr).elim, fun hn => (hn hr).elim⟩

theorem Goes.of_panic {result : Except Failure Tree} {refuses panics : Prop} (hr : ¬refuses)
    (hp : panics) (h : result = .error .panic) : Goes result refuses panics t :=
  ⟨fun hn => (hr hn).elim, fun _ _ => h, fun _ hn => (hn hp).elim⟩

theorem Goes.of_ok {result : Except Failure Tree} {refuses panics : Prop} (hr : ¬refuses)
    (hp : ¬panics) (h : result = .ok t) : Goes result refuses panics t :=
  ⟨fun hn => (hr hn).elim, fun _ hn => (hp hn).elim, fun _ _ => h⟩

theorem not_panics {part : Part} (h : part ≠ .times) : ¬Panics new part := fun hp => h hp.1

theorem mode_goes (h : Found fs path t l i) :
    Goes (setMode fs user path new now faults t)
      (Refuses fs user path new faults t i .mode) (Panics new .mode)
      (Function.update t l (some (effect new now i .mode))) := by
  have hpanic : ¬Panics new .mode := not_panics (by decide)
  unfold setMode Refuses effect Granted
  cases hmode : new.mode with
  | none => exact .of_ok (fun hr => hr.1 rfl) hpanic (congrArg Except.ok h.same.symm)
  | some mode =>
    dsimp only
    rw [changeCall_of_found h]
    cases isAllowed fs user path faults .lookForMode .readForMode t .ownerOnly with
    | error e => exact .of_refused ⟨by simp, .inl (by simp)⟩ rfl
    | ok allowed =>
      cases allowed with
      | false => exact .of_refused ⟨by simp, .inl (by simp)⟩ rfl
      | true =>
        cases faults .chmod with
        | true => exact .of_refused ⟨by simp, .inr rfl⟩ rfl
        | false => exact .of_ok (by simp) hpanic rfl

theorem resolve_refused {request : Option ℕ} {current : ℕ} (hd : Differs request current)
    (hroot : user.userId ≠ 0) :
    resolve user request current false = .error .permissionDenied := by
  obtain ⟨r, rfl⟩ := Option.ne_none_iff_exists'.mp hd.1
  have hne : r ≠ current := fun he => hd.2 (he ▸ rfl)
  simp [resolve, hne, hroot]

theorem resolve_ok {request : Option ℕ} {current : ℕ} {isMember : Bool}
    (h : ¬(Differs request current ∧ user.userId ≠ 0 ∧ isMember = false)) :
    resolve user request current isMember =
      .ok (if Differs request current then request else none) := by
  unfold resolve
  cases request with
  | none => simp [Differs]
  | some r =>
    by_cases hr : r = current
    · simp [hr, Differs]
    · have hd : Differs (some r) current := ⟨by simp, by simp [hr]⟩
      simp only [hd, true_and, not_and_or, not_not, Bool.not_eq_false] at h
      simp [hr, hd, h]

theorem isSome_changed {request : Option ℕ} {current : ℕ} :
    (if Differs request current then request else none).isSome = true ↔
      Differs request current := by
  by_cases hd : Differs request current
  · rw [if_pos hd, Option.isSome_iff_ne_none]
    exact iff_of_true hd.1 hd
  · rw [if_neg hd]
    exact iff_of_false Bool.false_ne_true hd

theorem changed_ids (i : Inode) (uid gid : Option ℕ) :
    withOwner now (if Differs uid i.uid then uid else none)
      (if Differs gid i.gid then gid else none) i = withOwner now uid gid i := by
  have hid : ∀ (request : Option ℕ) (current : ℕ),
      (if Differs request current then request else none).getD current =
        request.getD current := by
    intro request current
    cases request with
    | none => simp
    | some r =>
      by_cases hr : r = current
      · simp [hr, Differs]
      · simp [hr, Differs]
  rw [withOwner, withOwner, hid, hid]

theorem changeIds_eq (h : Found fs path t l i) :
    (if ((if Differs new.uid i.uid then new.uid else none).isSome ||
          (if Differs new.gid i.gid then new.gid else none).isSome) = true then
        changeCall fs path faults call e t (withOwner now
          (if Differs new.uid i.uid then new.uid else none)
          (if Differs new.gid i.gid then new.gid else none))
      else .ok t) =
      if (Differs new.uid i.uid ∨ Differs new.gid i.gid) ∧ faults call then .error (.error e)
      else .ok (Function.update t l (some (effect new now i .owner))) := by
  rw [changeCall_of_found h, changed_ids, effect]
  by_cases hd : Differs new.uid i.uid ∨ Differs new.gid i.gid
  · have hsome := (or_congr isSome_changed isSome_changed).mpr hd
    rw [← Bool.or_eq_true] at hsome
    rw [if_pos hsome, if_pos hd]
    simp only [hd, true_and]
  · have hnone := mt (or_congr isSome_changed isSome_changed).mp hd
    rw [← Bool.or_eq_true] at hnone
    rw [if_neg hnone, if_neg hd, if_neg fun hc => hd hc.1, h.same]

theorem owner_goes (h : Found fs path t l i) :
    Goes (setOwner fs user path new now faults t)
      (Refuses fs user path new faults t i .owner) (Panics new .owner)
      (Function.update t l (some (effect new now i .owner))) := by
  have hpanic : ¬Panics new .owner := not_panics (by decide)
  have hsome : (new.uid.isSome || new.gid.isSome) = true ↔ new.uid ≠ none ∨ new.gid ≠ none := by
    rw [Bool.or_eq_true, Option.isSome_iff_ne_none, Option.isSome_iff_ne_none]
  unfold setOwner Refuses Granted
  by_cases hasked : new.uid ≠ none ∨ new.gid ≠ none
  · rw [if_pos (hsome.mpr hasked)]
    cases isAllowed fs user path faults .lookForOwner .readForOwner t .ownerOnly with
    | error e => exact .of_refused ⟨hasked, .inl (by simp)⟩ rfl
    | ok allowed =>
      cases allowed with
      | false => exact .of_refused ⟨hasked, .inl (by simp)⟩ rfl
      | true =>
        rw [attributesCall_of_found h]
        cases hids : faults .readIds with
        | true => exact .of_refused ⟨hasked, .inr (.inl rfl)⟩ rfl
        | false =>
          simp only [orFail, Except.mapError, bind, Except.bind, Bool.not_true, Bool.false_eq_true,
            ↓reduceIte, fileAttr]
          by_cases hu : Differs new.uid i.uid ∧ user.userId ≠ 0
          · rw [resolve_refused hu.1 hu.2]
            exact .of_refused ⟨hasked, .inr (.inr (.inl hu))⟩ rfl
          rw [resolve_ok fun hr => hu ⟨hr.1, hr.2.1⟩]
          by_cases hg : Differs new.gid i.gid ∧ user.userId ≠ 0 ∧ new.gid ≠ some user.groupId
          · rw [decide_eq_false hg.2.2, resolve_refused hg.1 hg.2.1]
            exact .of_refused ⟨hasked, .inr (.inr (.inr (.inl hg)))⟩ rfl
          rw [resolve_ok fun hr => hg ⟨hr.1, hr.2.1, of_decide_eq_false hr.2.2⟩]
          dsimp only
          rw [changeIds_eq h]
          by_cases hchown :
              (Differs new.uid i.uid ∨ Differs new.gid i.gid) ∧ faults .chown = true
          · rw [if_pos hchown]
            exact .of_refused ⟨hasked, .inr (.inr (.inr (.inr hchown)))⟩ rfl
          · rw [if_neg hchown]
            refine .of_ok ?_ hpanic rfl
            rintro ⟨-, hr | hr | hr | hr | hr⟩
            · exact hr trivial
            · cases hr
            · exact hu hr
            · exact hg hr
            · exact hchown hr
  · have hsame : ¬(Differs new.uid i.uid ∨ Differs new.gid i.gid) := fun hd =>
      hasked (hd.imp And.left And.left)
    rw [if_neg (mt hsome.mp hasked), effect, if_neg hsame, h.same]
    exact .of_ok (fun hr => hasked hr.1) hpanic rfl

theorem openFile_of_found (h : Found fs path t l i) :
    openFile fs path faults t =
      if faults .openFile then .error (.error .io)
      else match i.kind with
        | .file bytes => .ok (l, i, bytes)
        | _ => .error (.error .io) := by
  rw [openFile, h.target]

theorem size_goes (h : Found fs path t l i) :
    Goes (setSize fs user path new now faults t)
      (Refuses fs user path new faults t i .size) (Panics new .size)
      (Function.update t l (some (effect new now i .size))) := by
  have hpanic : ¬Panics new .size := not_panics (by decide)
  unfold setSize Refuses effect Granted
  cases hsize : new.size with
  | none => exact .of_ok (by simp) hpanic (congrArg Except.ok h.same.symm)
  | some size =>
    dsimp only
    rw [openFile_of_found h]
    cases isAllowed fs user path faults .lookForSize .readForSize t .write with
    | error e => exact .of_refused ⟨size, rfl, .inl (by simp)⟩ rfl
    | ok allowed =>
      cases allowed with
      | false => exact .of_refused ⟨size, rfl, .inl (by simp)⟩ rfl
      | true =>
        cases hopen : faults .openFile with
        | true => exact .of_refused ⟨size, rfl, .inr (.inl rfl)⟩ rfl
        | false =>
          cases hkind : i.kind with
          | symlink target =>
            have hdirect := h.direct
            rw [hkind] at hdirect
            cases hdirect
          | directory len => exact .of_refused ⟨size, rfl, .inr (.inr (.inl rfl))⟩ rfl
          | file bytes =>
            by_cases hlen : faults .setLen = true ∨ 2 ^ 63 ≤ size
            · refine .of_refused (e := .io) ⟨size, rfl, .inr (.inr (.inr hlen))⟩ ?_
              exact if_pos hlen
            · refine .of_ok ?_ hpanic (if_neg hlen)
              rintro ⟨size', hsame, hr⟩
              obtain rfl := Option.some.inj hsame
              exact hlen (by simpa [Kind.look] using hr)

theorem fileTime_eq (request : Option Timestamp) (current : Timestamp) :
    (Converts request ∧ fileTime request current = .ok (converted request current)) ∨
      ¬Converts request ∧ fileTime request current = .error .panic := by
  unfold Converts fileTime converted
  cases request with
  | none => exact .inl ⟨by simp, rfl⟩
  | some requested =>
    rw [Option.bind_some]
    cases htime : toSystemTime requested with
    | none =>
      refine .inr ⟨fun hc => hc requested rfl htime, ?_⟩
      simp [htime]
    | some s =>
      refine .inl ⟨?_, by simp [htime]⟩
      intro r hr
      rw [← Option.some.inj hr, htime]
      exact Option.some_ne_none s

theorem stamp_goes (h : Found fs path t l i) :
    Goes (stamp fs path new now faults t)
      (faults .readTimes = true ∨
        Converts new.atime ∧ Converts new.mtime ∧ faults .setTimes = true) (Panics new .times)
      (Function.update t l (some (effect new now i .times))) := by
  unfold stamp Panics effect
  rw [lstatCall_of_found h]
  cases faults .readTimes with
  | true => exact .of_refused (.inl rfl) rfl
  | false =>
    simp only [Bool.false_eq_true, ↓reduceIte, changeCall_of_found h, false_or, true_and]
    rcases fileTime_eq new.atime i.atime with ⟨ha, hatime⟩ | ⟨ha, hatime⟩
    · rcases fileTime_eq new.mtime i.mtime with ⟨hm, hmtime⟩ | ⟨hm, hmtime⟩
      · rw [hatime, hmtime]
        cases faults .setTimes with
        | true => exact .of_refused ⟨ha, hm, rfl⟩ rfl
        | false => exact .of_ok (by simp) (fun hp => hp ⟨ha, hm⟩) rfl
      · rw [hatime, hmtime]
        exact .of_panic (fun hr => hm hr.2.1) (fun hc => hm hc.2) rfl
    · rw [hatime]
      exact .of_panic (fun hr => ha hr.1) (fun hc => ha hc.1) rfl

theorem times_goes (h : Found fs path t l i) :
    Goes (setTimes fs user path new now faults t)
      (Refuses fs user path new faults t i .times) (Panics new .times)
      (Function.update t l (some (effect new now i .times))) := by
  have hstamp : Goes (stamp fs path new now faults t) _ _ _ := stamp_goes h
  unfold setTimes Refuses Granted
  cases hmtime : new.mtime with
  | none =>
    rw [hmtime] at hstamp
    simpa using hstamp
  | some mtime =>
    rw [hmtime] at hstamp
    cases isAllowed fs user path faults .lookForMtime .readForMtime t .write with
    | error e => exact .of_refused (.inl ⟨by simp, by simp⟩) rfl
    | ok allowed =>
      cases allowed with
      | false => exact .of_refused (.inl ⟨by simp, by simp⟩) rfl
      | true =>
        change Goes (stamp fs path new now faults t) _ _ _
        simpa using hstamp

theorem answer_goes (h : Found fs path t l i) :
    Goes (Part.run fs user path new now faults t .answer)
      (Refuses fs user path new faults t i .answer) (Panics new .answer)
      (Function.update t l (some (effect new now i .answer))) := by
  have hpanic : ¬Panics new .answer := not_panics (by decide)
  unfold Part.run Refuses effect
  dsimp only
  rw [attributesCall_of_found h, h.same]
  cases faults .readBack with
  | true => exact .of_refused rfl rfl
  | false => exact .of_ok Bool.false_ne_true hpanic rfl

theorem part_goes (h : Found fs path t l i) (part : Part) :
    Goes (Part.run fs user path new now faults t part)
      (Refuses fs user path new faults t i part) (Panics new part)
      (Function.update t l (some (effect new now i part))) := by
  cases part with
  | mode => exact mode_goes h
  | owner => exact owner_goes h
  | size => exact size_goes h
  | times => exact times_goes h
  | answer => exact answer_goes h

end Parts

end ServerAttributeCalls
