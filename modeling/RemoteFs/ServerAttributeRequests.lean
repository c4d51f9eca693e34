import RemoteFs.ServerAttributeCalls

/-! # What a `set_attributes` request leaves behind -/
namespace ServerAttributeRequests

open CallRows
open ClientAttributes
open OsPaths
open PosixTree
open ServerAccess
open ServerAttributeCalls
open ServerPaths
open ServerStorage
open SystemTimes
open Timestamps

variable (fs : FileSystem) (user : AuthenticatedUser) (path : Path) (new : SetAttr)
  (now : Timestamp) (faults : Faults)

def calls (parts : List Part) : List (Tree → Except Failure Tree) :=
  parts.map fun part t => Part.run fs user path new now faults t part

def allParts : List Part := [.mode, .owner, .size, .times, .answer]

def stage (i : Inode) (parts : List Part) : Inode := parts.foldl (effect new now) i

/-- Nothing stops the parts, each of which sees what the ones before it have changed. -/
def Passes (l : Location) : Tree → Inode → List Part → Prop
  | _, _, [] => True
  | t, i, part :: parts =>
    ¬Refuses fs user path new faults t i part ∧ ¬Panics new part ∧
      Passes l (Function.update t l (some (effect new now i part))) (effect new now i part) parts

def NotRoot (t : Tree) (l : Location) : Prop :=
  PosixTree.resolve t false (makeRealPath fs.realPath [.rootDir]) ≠ some l

section Rows

variable {fs : FileSystem} {user : AuthenticatedUser} {path : Path} {new : SetAttr}
  {now : Timestamp} {faults : Faults} {t t' : Tree} {l : Location} {i j : Inode}
  {parts : List Part} {part : Part} {e : Failure}

theorem effect_look (i : Inode) (part : Part) :
    (effect new now i part).kind.look = i.kind.look := by
  cases part with
  | mode =>
    rw [effect]
    cases new.mode <;> rfl
  | owner =>
    rw [effect]
    by_cases hd : Differs new.uid i.uid ∨ Differs new.gid i.gid
    · rw [if_pos hd]
      rfl
    · rw [if_neg hd]
  | size =>
    rw [effect]
    cases new.size with
    | none => rfl
    | some size => cases hkind : i.kind <;> simp [withSize, Kind.look, hkind]
  | times => rfl
  | answer => rfl

theorem stage_look (i : Inode) (parts : List Part) :
    (stage new now i parts).kind.look = i.kind.look := by
  induction parts generalizing i with
  | nil => rfl
  | cons part parts ih => exact (ih (effect new now i part)).trans (effect_look i part)

theorem row_of_passes (h : Found fs path t l i)
    (hp : Passes fs user path new now faults l t i parts) :
    row (calls fs user path new now faults parts) t =
      (.ok (), Function.update t l (some (stage new now i parts))) := by
  induction parts generalizing t i with
  | nil => rw [show stage new now i [] = i from rfl, h.same]; rfl
  | cons part parts ih =>
    obtain ⟨hr, hpanic, hp⟩ := hp
    rw [calls, List.map_cons, row_cons_ok ((part_goes h part).done hr hpanic)]
    refine (ih (h.amend (effect_look i part)) hp).trans ?_
    rw [Function.update_idem]
    rfl

theorem passes_of_row (h : Found fs path t l i)
    (hrow : (row (calls fs user path new now faults parts) t).1 = .ok ()) :
    Passes fs user path new now faults l t i parts := by
  induction parts generalizing t i with
  | nil => trivial
  | cons part parts ih =>
    have hgoes : Goes (Part.run fs user path new now faults t part) _ _ _ := part_goes h part
    have hstop : ∀ e, Part.run fs user path new now faults t part ≠ .error e := by
      intro e he
      rw [calls, List.map_cons, row_cons_error he] at hrow
      cases hrow
    have hr : ¬Refuses fs user path new faults t i part := fun hr =>
      (hgoes.refused hr).elim fun e he => hstop _ he
    have hpanic : ¬Panics new part := fun hpanic => hstop _ (hgoes.panicked hr hpanic)
    refine ⟨hr, hpanic, ih (h.amend (effect_look i part)) ?_⟩
    rw [calls, List.map_cons, row_cons_ok (hgoes.done hr hpanic)] at hrow
    exact hrow

/-- The request as one row, with the answer as its last part. -/
theorem setAttributes_row (t : Tree) :
    (setAttributes fs user path new now faults t).2 =
        (row (calls fs user path new now faults allParts) t).2 ∧
      (setAttributes fs user path new now faults t).1.map (fun _ => ()) =
        (row (calls fs user path new now faults allParts) t).1 := by
  have hsplit : calls fs user path new now faults allParts =
      ([.mode, .owner, .size, .times].map fun part t =>
        Part.run fs user path new now faults t part) ++
        calls fs user path new now faults [.answer] := rfl
  rw [hsplit, setAttributes]
  obtain ⟨result, t', hrow⟩ : ∃ result t', row ([Part.mode, .owner, .size, .times].map
      fun part t => Part.run fs user path new now faults t part) t = (result, t') := ⟨_, _, rfl⟩
  rw [hrow]
  cases result with
  | error e =>
    rw [row_append_error _ _ hrow]
    exact ⟨rfl, rfl⟩
  | ok u =>
    cases u
    rw [row_append _ _ hrow, calls, List.map_singleton]
    dsimp only
    obtain ⟨answer, hanswer⟩ : ∃ answer, answer =
      orFail (attributesCall faults .readBack t' (makeRealPath fs.realPath path)) := ⟨_, rfl⟩
    have hrun : Part.run fs user path new now faults t' .answer = answer.map fun _ => t' := by
      rw [hanswer]
      rfl
    rw [← hanswer]
    cases answer with
    | error e => rw [row_cons_error hrun]; exact ⟨rfl, rfl⟩
    | ok a => rw [row_cons_ok hrun]; exact ⟨rfl, rfl⟩

theorem fails_iff (t : Tree) :
    (setAttributes fs user path new now faults t).1 = .error e ↔
      (row (calls fs user path new now faults allParts) t).1 = .error e := by
  rw [← (setAttributes_row t).2]
  cases (setAttributes fs user path new now faults t).1 <;> simp [Except.map]

/-- Nothing stops a request that succeeds. -/
theorem succeeds_iff (h : Found fs path t l i) :
    (∃ a, (setAttributes fs user path new now faults t).1 = .ok a) ↔
      Passes fs user path new now faults l t i allParts := by
  have hmap : (setAttributes fs user path new now faults t).1.map (fun _ => ()) = _ :=
    (setAttributes_row t).2
  constructor
  · rintro ⟨a, ha⟩
    rw [ha] at hmap
    exact passes_of_row h hmap.symm
  · intro hp
    rw [row_of_passes h hp] at hmap
    cases hresult : (setAttributes fs user path new now faults t).1 with
    | error e => rw [hresult] at hmap; cases hmap
    | ok a => exact ⟨a, rfl⟩

/-- Where a request is stopped, the parts before have passed and their changes stay. -/
theorem stopped (h : Found fs path t l i) (before after : List Part)
    (hparts : allParts = before ++ part :: after)
    (hp : Passes fs user path new now faults l t i before)
    (hstop : Part.run fs user path new now faults
      (Function.update t l (some (stage new now i before))) part = .error e) :
    (setAttributes fs user path new now faults t).1 = .error e ∧
      (setAttributes fs user path new now faults t).2 =
        Function.update t l (some (stage new now i before)) := by
  have hrow : row (calls fs user path new now faults allParts) t =
      (.error e, Function.update t l (some (stage new now i before))) := by
    have hbefore := row_of_passes h hp
    rw [calls] at hbefore
    rw [hparts, calls, List.map_append, List.map_cons, row_append _ _ hbefore,
      row_cons_error hstop]
  refine ⟨(fails_iff t).mpr ?_, (setAttributes_row t).1.trans ?_⟩
  · rw [hrow]
  · rw [hrow]

/-- Every failed request was stopped at one of its parts. -/
theorem stopped_of_error (h : Found fs path t l i)
    (herror : (setAttributes fs user path new now faults t).1 = .error e) :
    ∃ before part after, allParts = before ++ part :: after ∧
      Passes fs user path new now faults l t i before ∧
      Part.run fs user path new now faults
        (Function.update t l (some (stage new now i before))) part = .error e := by
  obtain ⟨before', call, after', hcalls, hbefore, hcall⟩ := row_error _ _
    (Prod.ext ((fails_iff t).mp herror) rfl)
  obtain ⟨before, rest, hparts, rfl, hrest⟩ := List.map_eq_append_iff.mp hcalls
  obtain ⟨part, after, rfl, rfl, -⟩ := List.map_eq_cons_iff.mp hrest
  have hp := passes_of_row h (congrArg Prod.fst hbefore)
  refine ⟨before, part, after, hparts, hp, ?_⟩
  rw [(Prod.mk.inj ((row_of_passes h hp).symm.trans hbefore)).2]
  exact hcall

end Rows

section Checks

variable {fs : FileSystem} {user : AuthenticatedUser} {path : Path} {new : SetAttr}
  {now : Timestamp} {faults : Faults} {t : Tree} {l : Location} {i : Inode} {look read : Call}
  {operation : Operation}

theorem isAllowed_noFaults (look read : Call) (t : Tree) (operation : Operation) :
    isAllowed fs user path noFaults look read t operation =
      fs.isAllowed t user path operation := by
  have hattributes : ∀ p, attributesCall noFaults read t p = getAttributesByPath t p := fun p => rfl
  unfold isAllowed FileSystem.isAllowed
  refine bind_congr fun checked => ?_
  rw [hattributes]
  refine bind_congr fun attributes => ?_
  unfold allows
  dsimp only
  by_cases hroot : checked = makeRealPath fs.realPath [.rootDir]
  · rw [if_pos hroot, if_pos hroot]
  rw [if_neg hroot, if_neg hroot]
  by_cases hu : user.userId = attributes.uid
  · rw [if_pos hu, if_pos hu]
    cases operation <;> rfl
  rw [if_neg hu, if_neg hu]
  by_cases hg : user.groupId = attributes.gid
  · rw [if_pos hg, if_pos hg]
    cases operation <;> rfl
  rw [if_neg hg, if_neg hg]
  cases operation <;> rfl

theorem NotRoot.path_ne (hroot : NotRoot fs t l) (h : Found fs path t l i) :
    makeRealPath fs.realPath path ≠ makeRealPath fs.realPath [.rootDir] := by
  intro he
  refine hroot ?_
  rw [← he]
  exact (objectAt_some.mp h.object).1

theorem allows_permits (h : Found fs path t l i) (hroot : NotRoot fs t l) :
    allows fs user (makeRealPath fs.realPath path) (fileAttr i) operation =
      permits user i operation := by
  have hold : fs.isAllowed t user path operation = _ :=
    isAllowed_permits (hroot.path_ne h) h.object
  rw [← isAllowed_noFaults .lookForMode .readForMode, isAllowed,
    lstatCall_of_found h] at hold
  simp only [noFaults, Bool.false_eq_true, ↓reduceIte, Option.isNone_some, bind, Except.bind,
    attributesCall_of_found h, Except.ok.injEq] at hold
  exact hold

/-- A check that sees the object decides by the object's own owner, group and mode. -/
theorem granted_iff (h : Found fs path t l i) (hroot : NotRoot fs t l)
    (hlook : faults look = false) :
    Granted fs user path faults look read operation t ↔
      faults read = false ∧ permits user i operation = true := by
  unfold Granted isAllowed
  dsimp only
  rw [lstatCall_of_found h, hlook]
  simp only [Bool.false_eq_true, ↓reduceIte, Option.isNone_some, bind, Except.bind,
    attributesCall_of_found h]
  cases faults read with
  | true => simp
  | false => simp [allows_permits h hroot]

end Checks

/-! Without faults, and on sizes and times that the calls take, this is `set_attributes` of the
storage. -/

section Storage

variable {fs : FileSystem} {user : AuthenticatedUser} {path : Path} {new : SetAttr}
  {now : Timestamp} {t t' : Tree} {l : Location} {i : Inode} {part : Part} {e : StorageError}

def left (result : Except StorageError (Tree × List Access)) : Except Failure Tree :=
  orFail (result.map Prod.fst)

theorem left_bind {α : Type} (x : Except StorageError α)
    (f : α → Except StorageError (Tree × List Access)) :
    left (x >>= f) = orFail x >>= fun a => left (f a) := by cases x <;> rfl

theorem changeCall_noFaults (h : Found fs path t l i) (call : Call) (act : Act)
    (f : Inode → Inode) :
    changeCall fs path noFaults call e t f =
      left (change t (makeRealPath fs.realPath path) act fun i => some (f i)) := by
  rw [changeCall_of_found h, change, h.target]
  rfl

theorem mode_left (h : Found fs path t l i) : setMode fs user path new now noFaults t =
    left (fs.setAttributesMode t user path new now) := by
  unfold setMode FileSystem.setAttributesMode
  cases new.mode with
  | none => rfl
  | some mode =>
    dsimp only
    rw [isAllowed_noFaults, left_bind, changeCall_noFaults h .chmod .setMode]
    refine bind_congr fun allowed => ?_
    cases allowed <;> rfl

theorem owner_left (h : Found fs path t l i) :
    ServerAttributeCalls.setOwner fs user path new now noFaults t =
      left (fs.setAttributesOwner t user path new now) := by
  unfold ServerAttributeCalls.setOwner FileSystem.setAttributesOwner
  by_cases hasked : (new.uid.isSome || new.gid.isSome) = true
  · rw [if_pos hasked, if_pos hasked, isAllowed_noFaults, left_bind]
    refine bind_congr fun allowed => ?_
    cases allowed with
    | false => rfl
    | true =>
      refine (bind_congr fun metadata => ?_).trans (left_bind _ _).symm
      refine (bind_congr fun uid => ?_).trans (left_bind _ _).symm
      refine (bind_congr fun gid => ?_).trans (left_bind _ _).symm
      by_cases hchange : (uid.isSome || gid.isSome) = true
      · rw [if_pos hchange, if_pos hchange]
        exact changeCall_noFaults h .chown .setOwner _
      · rw [if_neg hchange, if_neg hchange]
        rfl
  · rw [if_neg hasked, if_neg hasked]
    rfl

theorem size_left (h : Found fs path t l i) (hsize : ∀ size, new.size = some size → size < 2 ^ 63) :
    setSize fs user path new now noFaults t =
      left (fs.setAttributesSize t user path new now) := by
  unfold setSize FileSystem.setAttributesSize
  cases hasked : new.size with
  | none => rfl
  | some size =>
    have hfits : ¬(noFaults .setLen = true ∨ 2 ^ 63 ≤ size) := by
      have hlt := hsize size hasked
      rintro (hfault | hlarge)
      · cases hfault
      · omega
    dsimp only
    rw [isAllowed_noFaults, left_bind, openFile_of_found h, change, h.target]
    refine bind_congr fun allowed => ?_
    cases allowed with
    | false => rfl
    | true =>
      cases hkind : i.kind with
      | file bytes =>
        simp only [↓reduceIte, hkind]
        exact if_neg hfits
      | directory len =>
        simp only [↓reduceIte, hkind]
        rfl
      | symlink target =>
        simp only [↓reduceIte, hkind]
        rfl

def Plain (request : Option Timestamp) : Prop := ∀ t, request = some t → Fits t ∧ 0 ≤ t.sec

theorem fileTime_plain {request : Option Timestamp} (h : Plain request) (current : Timestamp) :
    fileTime request current = .ok (request.getD current) := by
  cases request with
  | none => rfl
  | some t =>
    obtain ⟨hfits, hsec⟩ := h t rfl
    rw [fileTime, toSystemTime_of_nonneg hfits hsec]
    rfl

theorem times_left (h : Found fs path t l i) (hatime : Plain new.atime) (hmtime : Plain new.mtime) :
    setTimes fs user path new now noFaults t =
      left (fs.setAttributesTimes t user path new now) := by
  have hstamp : ∀ act, stamp fs path new now noFaults t =
      left (change t (makeRealPath fs.realPath path) act fun j =>
        some { j with
          atime := new.atime.getD i.atime
          mtime := new.mtime.getD i.mtime
          ctime := now }) := by
    intro act
    have hlook : lstatCall noFaults .readTimes t (makeRealPath fs.realPath path) = some (l, i) :=
      h.object
    rw [stamp, hlook]
    dsimp only
    rw [fileTime_plain hatime, fileTime_plain hmtime]
    exact changeCall_noFaults h .setTimes act _
  unfold setTimes FileSystem.setAttributesTimes
  rw [left_bind]
  dsimp only
  rw [h.object]
  cases hasked : new.mtime with
  | none =>
    rw [hasked] at hstamp
    exact hstamp .setAtime
  | some mtime =>
    rw [isAllowed_noFaults]
    refine bind_congr fun allowed => ?_
    cases allowed with
    | false => rfl
    | true =>
      rw [hasked] at hstamp
      exact hstamp .setMtime

variable (fs user path new now) in
def storagePart (t : Tree) : Part → Except StorageError (Tree × List Access)
  | .mode => fs.setAttributesMode t user path new now
  | .owner => fs.setAttributesOwner t user path new now
  | .size => fs.setAttributesSize t user path new now
  | .times => fs.setAttributesTimes t user path new now
  | .answer => .ok (t, [])

variable (new) in
structure Taken : Prop where
  size : ∀ size, new.size = some size → size < 2 ^ 63
  atime : Plain new.atime
  mtime : Plain new.mtime

theorem part_left (h : Found fs path t l i) (hnew : Taken new) (part : Part) :
    Part.run fs user path new now noFaults t part =
      left (storagePart fs user path new now t part) := by
  cases part with
  | mode => exact mode_left h
  | owner => exact owner_left h
  | size => exact size_left h hnew.size
  | times => exact times_left h hnew.atime hnew.mtime
  | answer =>
    have hread : attributesCall noFaults .readBack t (makeRealPath fs.realPath path) =
        .ok (fileAttr i) := attributesCall_of_found h .readBack
    rw [Part.run, hread]
    rfl

theorem found_after (h : Found fs path t l i)
    (hrun : Part.run fs user path new now noFaults t part = .ok t') :
    Found fs path t' l (effect new now i part) := by
  have hgoes : Goes (Part.run fs user path new now noFaults t part) _ _ _ := part_goes h part
  have hr : ¬Refuses fs user path new noFaults t i part := by
    intro hr
    obtain ⟨e, he⟩ := hgoes.refused hr
    cases he.symm.trans hrun
  have hpanic : ¬Panics new part := fun hpanic => by
    cases (hgoes.panicked hr hpanic).symm.trans hrun
  obtain rfl := Except.ok.inj ((hgoes.done hr hpanic).symm.trans hrun)
  exact h.amend (effect_look i part)

theorem row_left (h : Found fs path t l i) (hnew : Taken new) (parts : List Part) :
    (row (calls fs user path new now noFaults parts) t).1 =
        orFail ((parts.foldlM (fun t part =>
          (storagePart fs user path new now t part).map Prod.fst) t).map fun _ => ()) ∧
      ∀ t', parts.foldlM (fun t part =>
          (storagePart fs user path new now t part).map Prod.fst) t = .ok t' →
        (row (calls fs user path new now noFaults parts) t).2 = t' := by
  induction parts generalizing t i with
  | nil => exact ⟨rfl, fun t' ht' => Except.ok.inj ht'⟩
  | cons part parts ih =>
    have hrun : Part.run fs user path new now noFaults t part = _ := part_left h hnew part
    rw [List.foldlM_cons]
    cases hpart : storagePart fs user path new now t part with
    | error e =>
      rw [hpart] at hrun
      rw [calls, List.map_cons, row_cons_error hrun]
      exact ⟨rfl, by rintro t' ⟨⟩⟩
    | ok left =>
      rw [hpart] at hrun
      rw [calls, List.map_cons, row_cons_ok hrun]
      exact ih (found_after h hrun)

theorem storage_parts (t : Tree) :
    (fs.setAttributes t user path new now).map (fun done => (done.result, done.tree)) =
      ([.mode, .owner, .size, .times].foldlM (fun t part =>
        (storagePart fs user path new now t part).map Prod.fst) t >>= fun t' =>
          (getAttributesByPath t' (makeRealPath fs.realPath path)).map fun a => (a, t')) := by
  unfold FileSystem.setAttributes
  simp only [List.foldlM_cons, List.foldlM_nil, storagePart]
  cases fs.setAttributesMode t user path new now with
  | error e => rfl
  | ok mode =>
    simp only [Except.map, bind, Except.bind]
    cases fs.setAttributesOwner mode.1 user path new now with
    | error e => rfl
    | ok owner =>
      dsimp only
      cases fs.setAttributesSize owner.1 user path new now with
      | error e => rfl
      | ok size =>
        dsimp only
        cases fs.setAttributesTimes size.1 user path new now with
        | error e => rfl
        | ok times =>
          dsimp only [pure, Except.pure]
          cases getAttributesByPath times.1 (makeRealPath fs.realPath path) <;> rfl

/-- The answer is the storage's, and where it succeeds so is the tree. -/
theorem storage_setAttributes (h : Found fs path t l i) (hnew : Taken new) :
    (setAttributes fs user path new now noFaults t).1 =
        orFail ((fs.setAttributes t user path new now).map Done.result) ∧
      ∀ done, fs.setAttributes t user path new now = .ok done →
        (setAttributes fs user path new now noFaults t).2 = done.tree := by
  obtain ⟨hresult, htree⟩ :
      (row (calls fs user path new now noFaults [.mode, .owner, .size, .times]) t).1 = _ ∧ _ :=
    row_left h hnew [.mode, .owner, .size, .times]
  have hstorage : (fs.setAttributes t user path new now).map _ = _ := storage_parts t
  unfold calls at hresult htree
  rw [setAttributes]
  generalize [Part.mode, .owner, .size, .times].foldlM (fun t part =>
    (storagePart fs user path new now t part).map Prod.fst) t = folded at hresult htree hstorage
  obtain ⟨result, t', hrow⟩ : ∃ result t', row ([Part.mode, .owner, .size, .times].map
      fun part t => Part.run fs user path new now noFaults t part) t = (result, t') := ⟨_, _, rfl⟩
  rw [hrow] at hresult htree ⊢
  have herror : ∀ e, (fs.setAttributes t user path new now).map
      (fun done => (done.result, done.tree)) = .error e →
      fs.setAttributes t user path new now = .error e := by
    intro e he
    cases hdone : fs.setAttributes t user path new now with
    | error e' => rw [hdone] at he; cases he; rfl
    | ok done => rw [hdone] at he; cases he
  cases folded with
  | error e =>
    obtain rfl : result = .error (.error e) := hresult
    rw [herror e hstorage]
    exact ⟨rfl, by rintro done ⟨⟩⟩
  | ok t'' =>
    obtain rfl : result = .ok () := hresult
    obtain rfl : t' = t'' := htree t'' rfl
    have hread : attributesCall noFaults .readBack t' (makeRealPath fs.realPath path) =
        getAttributesByPath t' (makeRealPath fs.realPath path) := rfl
    dsimp only
    rw [hread]
    cases hattributes : getAttributesByPath t' (makeRealPath fs.realPath path) with
    | error e =>
      have hstop : (fs.setAttributes t user path new now).map
          (fun done => (done.result, done.tree)) = .error e := by
        rw [hstorage]
        simp only [bind, Except.bind, hattributes, Except.map]
      rw [herror e hstop]
      exact ⟨rfl, by rintro done ⟨⟩⟩
    | ok a =>
      cases hdone : fs.setAttributes t user path new now with
      | error e =>
        rw [hdone] at hstorage
        simp only [bind, Except.bind, hattributes, Except.map] at hstorage
        cases hstorage
      | ok done =>
        rw [hdone] at hstorage
        simp only [bind, Except.bind, hattributes, Except.map, Except.ok.injEq,
          Prod.mk.injEq] at hstorage
        obtain ⟨rfl, rfl⟩ := hstorage
        refine ⟨rfl, ?_⟩
        rintro done' ⟨⟩
        rfl

end Storage

structure Unchanged (i j : Inode) : Prop where
  mode : j.mode = i.mode
  uid : j.uid = i.uid
  gid : j.gid = i.gid
  size : (fileAttr j).size = (fileAttr i).size
  atime : j.atime = i.atime
  mtime : j.mtime = i.mtime

theorem Unchanged.refl (i : Inode) : Unchanged i i := ⟨rfl, rfl, rfl, rfl, rfl, rfl⟩

/-- With the time of the last change, that every change sets. -/
structure Untouched (i j : Inode) : Prop extends Unchanged i j where
  ctime : j.ctime = i.ctime

def AllOrNothing (t : Tree) (l : Location) (i : Inode) : Prop :=
  ∀ e, (setAttributes fs user path new now faults t).1 = .error (.error e) →
    ∃ j, (setAttributes fs user path new now faults t).2 l = some j ∧ Untouched i j

/-- Where a part refuses, the changes that the parts before it were asked for come to nothing. -/
def NothingGranted (t : Tree) (l : Location) (i : Inode) : Prop :=
  ∀ before part after, allParts = before ++ part :: after →
    Passes fs user path new now faults l t i before →
    Refuses fs user path new faults (Function.update t l (some (stage new now i before)))
      (stage new now i before) part →
    Untouched i (stage new now i before)

/-- A failed request leaves the object untouched exactly where nothing was granted before. -/
theorem all_or_nothing_iff (t : Tree) (l : Location) (i : Inode) (h : Found fs path t l i) :
    AllOrNothing fs user path new now faults t l i ↔
      NothingGranted fs user path new now faults t l i := by
  have hstage : ∀ before part, Goes (Part.run fs user path new now faults
      (Function.update t l (some (stage new now i before))) part) _ _ _ := fun before part =>
    part_goes (h.amend (stage_look i before)) part
  constructor
  · intro hall before part after hparts hp hr
    obtain ⟨e, he⟩ := (hstage before part).refused hr
    obtain ⟨herror, htree⟩ := stopped h before after hparts hp he
    obtain ⟨j, hj, huntouched⟩ := hall e herror
    rw [htree, Function.update_self] at hj
    obtain rfl := Option.some.inj hj
    exact huntouched
  · intro hnothing e herror
    obtain ⟨before, part, after, hparts, hp, hstop⟩ := stopped_of_error h herror
    have htree := (stopped h before after hparts hp hstop).2
    refine ⟨stage new now i before, by rw [htree, Function.update_self], ?_⟩
    -- A part that ends with an error and no panic has refused.
    refine hnothing before part after hparts hp (by_contra fun hr => ?_)
    by_cases hpanic : Panics new part
    · cases ((hstage before part).panicked hr hpanic).symm.trans hstop
    · cases ((hstage before part).done hr hpanic).symm.trans hstop

def ownFile : Inode := ⟨.file [1, 2], 0o100644, 1000, 1000, ⟨0, 0⟩, ⟨0, 0⟩, ⟨0, 0⟩⟩

def srv : FileSystem := ⟨[.rootDir, .normal (.text "srv")]⟩

def ownPath : Path := [.rootDir, .normal (.text "own")]

def ownPlace : Location := [.text "srv", .text "own"]

theorem own_found : Found srv ownPath exported ownPlace ownFile := ⟨by decide, rfl⟩

theorem own_notRoot : NotRoot srv exported ownPlace := by
  unfold NotRoot
  decide

theorem all_or_nothing_iff_stranger :
    let new := { SetAttr.none with mode := some 0o600, uid := some 1001 }
    AllOrNothing srv ⟨1001, 1001⟩ ownPath new ⟨9, 0⟩ noFaults exported ownPlace ownFile ↔
      NothingGranted srv ⟨1001, 1001⟩ ownPath new ⟨9, 0⟩ noFaults exported ownPlace ownFile :=
  all_or_nothing_iff srv ⟨1001, 1001⟩ ownPath _ ⟨9, 0⟩ noFaults exported ownPlace ownFile own_found

/-- The owner takes the mode away from others and gives the file to a user: the second is refused,
and the first has been done. -/
theorem mode_stays_changed :
    ¬AllOrNothing srv ⟨1000, 1000⟩ ownPath
      { SetAttr.none with mode := some 0o600, uid := some 1001 } ⟨9, 0⟩ noFaults exported
      ownPlace ownFile := by
  intro hall
  obtain ⟨j, hj, huntouched⟩ := hall .permissionDenied (by decide)
  have hmode : j.mode = 0o100600 := by
    obtain rfl := Option.some.inj hj
    decide
  have hsame := huntouched.mode
  rw [hmode] at hsame
  cases hsame

/-! The policy for the mode, the owner and the group -/

inductive RightsChange where
  | mode (m : ℕ)
  | uid (r : ℕ)
  | gid (r : ℕ)
  deriving DecidableEq, Repr

/-- A request for this change alone; the time of the last change is not looked at. -/
def RightsChange.request (ctime : Option Timestamp) : RightsChange → SetAttr
  | .mode m => { SetAttr.none with mode := some m, ctime := ctime }
  | .uid r => { SetAttr.none with uid := some r, ctime := ctime }
  | .gid r => { SetAttr.none with gid := some r, ctime := ctime }

/-- The owner or root may change the mode, root the owner, and root or an owner who is a member of
the new group the group; what is there already may be asked for by the owner. -/
def RightsChange.Permitted (user : AuthenticatedUser) (i : Inode) : RightsChange → Prop
  | .mode _ => user.userId = i.uid ∨ user.userId = 0
  | .uid r => user.userId = 0 ∨ user.userId = i.uid ∧ r = i.uid
  | .gid r => user.userId = 0 ∨ user.userId = i.uid ∧ (r = i.gid ∨ r = user.groupId)

section Policy

variable {fs : FileSystem} {user : AuthenticatedUser} {path : Path} {now : Timestamp}
  {t : Tree} {l : Location} {i : Inode} {ctime : Option Timestamp} {change : RightsChange}

theorem owner_granted (h : Found fs path t l i) (hroot : NotRoot fs t l) (look read : Call) :
    Granted fs user path noFaults look read .ownerOnly t ↔ user.userId = i.uid := by
  rw [granted_iff h hroot rfl]
  simp [noFaults, permits]

theorem mode_refuses (h : Found fs path t l i) (hroot : NotRoot fs t l) :
    Refuses fs user path (change.request ctime) noFaults t i .mode ↔
      (∃ m, change = .mode m) ∧ user.userId ≠ i.uid := by
  rw [Refuses, owner_granted h hroot]
  cases change <;> simp [RightsChange.request, SetAttr.none, noFaults]

theorem owner_refuses (h : Found fs path t l i) (hroot : NotRoot fs t l) :
    Refuses fs user path (change.request ctime) noFaults t i .owner ↔
      (∃ r, change = .uid r ∧ (user.userId ≠ i.uid ∨ r ≠ i.uid ∧ user.userId ≠ 0)) ∨
      ∃ r, change = .gid r ∧ (user.userId ≠ i.uid ∨
        r ≠ i.gid ∧ user.userId ≠ 0 ∧ r ≠ user.groupId) := by
  rw [Refuses, owner_granted h hroot]
  cases change <;> simp [RightsChange.request, SetAttr.none, noFaults, Differs]

/-- A request for rights alone is stopped by nothing but the checks of its own part. -/
theorem rights_passes (h : Found fs path t l i) :
    Passes fs user path (change.request ctime) now noFaults l t i allParts ↔
      ¬Refuses fs user path (change.request ctime) noFaults t i .mode ∧
      ¬Refuses fs user path (change.request ctime) noFaults t i .owner := by
  have hquiet : ∀ t' i', ¬Refuses fs user path (change.request ctime) noFaults t' i' .size ∧
      ¬Refuses fs user path (change.request ctime) noFaults t' i' .times ∧
      ¬Refuses fs user path (change.request ctime) noFaults t' i' .answer := by
    intro t' i'
    cases change <;> simp [Refuses, RightsChange.request, SetAttr.none, noFaults]
  have hpanics : ∀ part, ¬Panics (change.request ctime) part := by
    intro part hpanic
    refine hpanic.2 ⟨?_, ?_⟩ <;> cases change <;>
      simp [Converts, RightsChange.request, SetAttr.none]
  have hmode : ∀ m, change = .mode m → ∀ t' i',
      ¬Refuses fs user path (change.request ctime) noFaults t' i' .owner := by
    rintro m rfl t' i'
    simp [Refuses, RightsChange.request, SetAttr.none]
  have hsame : (∀ m, change ≠ .mode m) → effect (change.request ctime) now i .mode = i := by
    intro hne
    cases change with
    | mode m => exact (hne m rfl).elim
    | uid r => rfl
    | gid r => rfl
  simp only [Passes, allParts, hquiet, hpanics, not_false_eq_true, and_true, true_and]
  by_cases hm : ∃ m, change = .mode m
  · obtain ⟨m, hm⟩ := hm
    simp only [hmode m hm, not_false_eq_true]
  · rw [hsame fun m he => hm ⟨m, he⟩, h.same]

end Policy

/-- A request for a new mode, owner or group alone is answered as the policy says exactly where
the caller is not the superuser, or owns the object. -/
theorem policy_iff (t : Tree) (l : Location) (i : Inode) (ctime : Option Timestamp)
    (change : RightsChange) (h : Found fs path t l i) (hroot : NotRoot fs t l) :
    ((∃ a, (setAttributes fs user path (change.request ctime) now noFaults t).1 = .ok a) ↔
        change.Permitted user i) ↔
      user.userId ≠ 0 ∨ user.userId = i.uid := by
  rw [succeeds_iff h, rights_passes h, mode_refuses h hroot, owner_refuses h hroot]
  cases change with
  | mode m =>
    simp only [RightsChange.Permitted]
    by_cases hu : user.userId = i.uid <;> simp [hu]
  | uid r =>
    simp only [RightsChange.Permitted]
    by_cases hu : user.userId = i.uid
    · by_cases hz : user.userId = 0 <;> simp [← hu, hz]
    · by_cases hz : user.userId = 0 <;> simp [hu, hz]
  | gid r =>
    simp only [RightsChange.Permitted]
    by_cases hu : user.userId = i.uid
    · by_cases hz : user.userId = 0 <;> simp [← hu, hz]
      tauto
    · by_cases hz : user.userId = 0 <;> simp [hu, hz]

theorem policy_iff_owner :
    ((∃ a, (setAttributes srv ⟨1000, 1000⟩ ownPath ((RightsChange.gid 1000).request none) ⟨9, 0⟩
        noFaults exported).1 = .ok a) ↔ (RightsChange.gid 1000).Permitted ⟨1000, 1000⟩ ownFile) ↔
      1000 ≠ 0 ∨ 1000 = 1000 :=
  policy_iff srv ⟨1000, 1000⟩ ownPath ⟨9, 0⟩ exported ownPlace ownFile none (.gid 1000) own_found
    own_notRoot

/-- Root is not let change the mode of a file of another user. -/
theorem superuser_refused :
    ¬((∃ a, (setAttributes srv ⟨0, 0⟩ ownPath ((RightsChange.mode 0o600).request none) ⟨9, 0⟩
        noFaults exported).1 = .ok a) ↔ (RightsChange.mode 0o600).Permitted ⟨0, 0⟩ ownFile) := by
  intro hpolicy
  obtain ⟨a, ha⟩ := hpolicy.mpr (.inr rfl)
  have hrefused : (setAttributes srv ⟨0, 0⟩ ownPath ((RightsChange.mode 0o600).request none) ⟨9, 0⟩
      noFaults exported).1 = .error (.error .permissionDenied) := by decide
  cases hrefused.symm.trans ha

/-! Callers without any right -/

def Asked (new : SetAttr) : Part → Prop
  | .mode => new.mode ≠ none
  | .owner => new.uid ≠ none ∨ new.gid ≠ none
  | .size => new.size ≠ none
  | .times | .answer => True

section Strangers

variable {fs : FileSystem} {user : AuthenticatedUser} {path : Path} {new : SetAttr}
  {now : Timestamp} {faults : Faults} {t : Tree} {l : Location} {i : Inode}
  {parts : List Part} {part : Part}

theorem not_refuses_of_not_asked (h : ¬Asked new part) :
    ¬Refuses fs user path new faults t i part := by
  unfold Refuses
  cases part with
  | mode => exact fun hr => h hr.1
  | owner => exact fun hr => h hr.1
  | size =>
    rintro ⟨size, hsize, -⟩
    exact h (by rw [Asked, hsize]; exact Option.some_ne_none size)
  | times => exact (h trivial).elim
  | answer => exact (h trivial).elim

theorem effect_of_not_asked (h : ¬Asked new part) : effect new now i part = i := by
  cases part with
  | mode => rw [effect, not_not.mp h]; rfl
  | owner =>
    rw [effect, if_neg]
    exact fun hd => h (hd.imp And.left And.left)
  | size => rw [effect, not_not.mp h]
  | times => exact (h trivial).elim
  | answer => exact (h trivial).elim

theorem passes_of_not_asked (h : Found fs path t l i) (hparts : ∀ part ∈ parts, ¬Asked new part) :
    Passes fs user path new now faults l t i parts ∧ stage new now i parts = i := by
  induction parts with
  | nil => exact ⟨trivial, rfl⟩
  | cons part parts ih =>
    have hpart := hparts part List.mem_cons_self
    obtain ⟨hp, hstage⟩ := ih fun part hmem => hparts part (List.mem_cons_of_mem _ hmem)
    have heffect : effect new now i part = i := effect_of_not_asked hpart
    refine ⟨⟨not_refuses_of_not_asked hpart, ?_, ?_⟩, ?_⟩
    · exact not_panics fun he => hpart (he ▸ trivial)
    · rwa [heffect, h.same]
    · rw [stage, List.foldl_cons, heffect]
      exact hstage

/-- Where the first part that is asked for ends with an error, nothing has changed. -/
theorem unchanged_of_stopped (h : Found fs path t l i) (before after : List Part)
    (hparts : allParts = before ++ part :: after) (hbefore : ∀ part ∈ before, ¬Asked new part)
    {e : Failure} (hstop : Part.run fs user path new now faults t part = .error e) :
    (setAttributes fs user path new now faults t).2 l = some i := by
  obtain ⟨hp, hstage⟩ : Passes fs user path new now faults l t i before ∧ _ :=
    passes_of_not_asked h hbefore
  have htree := (stopped h before after hparts hp (by rwa [hstage, h.same])).2
  rw [htree, hstage, Function.update_self]

/-- A part whose check refuses the caller is the end of the request. -/
theorem unchanged_of_refused (h : Found fs path t l i) (before after : List Part)
    (hparts : allParts = before ++ part :: after) (hbefore : ∀ part ∈ before, ¬Asked new part)
    (hr : Refuses fs user path new faults t i part) :
    (setAttributes fs user path new now faults t).2 l = some i := by
  obtain ⟨e, he⟩ := (part_goes h part).refused hr
  exact unchanged_of_stopped h before after hparts hbefore he

theorem passes_append (h : Found fs path t l i) (before : List Part)
    (hbefore : Passes fs user path new now faults l t i before)
    (hparts : Passes fs user path new now faults l
      (Function.update t l (some (stage new now i before))) (stage new now i before) parts) :
    Passes fs user path new now faults l t i (before ++ parts) := by
  induction before generalizing t i with
  | nil =>
    rw [show stage new now i [] = i from rfl, h.same] at hparts
    exact hparts
  | cons part before ih =>
    obtain ⟨hr, hpanic, hbefore⟩ := hbefore
    refine ⟨hr, hpanic, ih (h.amend (effect_look i part)) hbefore ?_⟩
    rw [Function.update_idem]
    exact hparts

theorem left_at_end (h : Found fs path t l i)
    (hp : Passes fs user path new now faults l t i [.mode, .owner, .size, .times]) :
    (setAttributes fs user path new now faults t).2 l =
      some (stage new now i [.mode, .owner, .size, .times]) := by
  have hrow := row_of_passes h hp
  rw [calls] at hrow
  rw [setAttributes, hrow]
  exact Function.update_self ..

/-- What stops the times of a request that asks for no new `mtime`. -/
def AtimeFails (new : SetAttr) (faults : Faults) : Prop :=
  faults .readTimes = true ∨ ¬Converts new.atime ∨ faults .setTimes = true

theorem atime_alone_fails (h : Found fs path t l i)
    (hquiet : ∀ part ∈ [.mode, .owner, .size], ¬Asked new part) (hmtime : new.mtime = none)
    (hfails : AtimeFails new faults) :
    (setAttributes fs user path new now faults t).2 l = some i := by
  have hgoes : Goes (Part.run fs user path new now faults t .times) _ _ _ := part_goes h .times
  have hconverts : Converts new.mtime := by simp [Converts, hmtime]
  by_cases hr : Refuses fs user path new faults t i .times
  · exact unchanged_of_refused h _ _ rfl hquiet hr
  · refine unchanged_of_stopped h _ _ rfl hquiet (hgoes.panicked hr ⟨rfl, ?_⟩)
    rintro ⟨hatime, -⟩
    rcases hfails with hread | hatime' | hset
    · exact hr (.inr (.inl hread))
    · exact hatime' hatime
    · exact hr (.inr (.inr ⟨hatime, hconverts, hset⟩))

/-- A request for an access time alone is not checked. -/
theorem atime_alone (h : Found fs path t l i)
    (hquiet : ∀ part ∈ [.mode, .owner, .size], ¬Asked new part) (hmtime : new.mtime = none)
    (hfails : ¬AtimeFails new faults) :
    (setAttributes fs user path new now faults t).2 l =
      some (withTimes now (converted new.atime i.atime) i.mtime i) := by
  rw [AtimeFails, not_or, not_or, not_not] at hfails
  obtain ⟨hread, hatime, hset⟩ := hfails
  obtain ⟨hp, hstage⟩ : Passes fs user path new now faults l t i [.mode, .owner, .size] ∧ _ :=
    passes_of_not_asked h hquiet
  have hconverts : Converts new.mtime := by simp [Converts, hmtime]
  have htimes : Passes fs user path new now faults l t i [.times] := by
    refine ⟨?_, fun hp => hp.2 ⟨hatime, hconverts⟩, trivial⟩
    rintro (⟨hm, -⟩ | hr | ⟨-, -, hr⟩)
    · exact hm hmtime
    · exact hread hr
    · exact hset hr
  have hend := left_at_end h (passes_append h _ hp (by rwa [hstage, h.same]))
  rw [hend, show stage new now i [.mode, .owner, .size, .times] =
    effect new now (stage new now i [.mode, .owner, .size]) .times from rfl, hstage, effect, hmtime]
  rfl

theorem converted_same_iff {request : Option Timestamp} {current : Timestamp}
    (h : Converts request) :
    (∀ a s, request = some a → toSystemTime a = some s →
      (⟨s.secs, s.nanos⟩ : Timestamp) = current) ↔ converted request current = current := by
  cases request with
  | none => exact iff_of_true (fun a s ha => by cases ha) rfl
  | some a =>
    obtain ⟨s, hs⟩ := Option.ne_none_iff_exists'.mp (h a rfl)
    rw [converted, Option.bind_some, hs]
    constructor
    · exact fun hsame => hsame a s rfl hs
    · rintro he a' s' ha hs'
      rw [← Option.some.inj ha, hs] at hs'
      rw [← Option.some.inj hs']
      exact he

/-- A caller whom every check of ownership and of writing refuses gets no further than the first
thing that is checked. -/
theorem unchanged_without_rights (h : Found fs path t l i)
    (howner : ∀ look read, look ∈ [.lookForMode, .lookForOwner] →
      ¬Granted fs user path faults look read .ownerOnly t)
    (hwrite : ∀ look read, look ∈ [.lookForSize, .lookForMtime] →
      ¬Granted fs user path faults look read .write t)
    (hasked : (∃ part ∈ [.mode, .owner, .size], Asked new part) ∨ new.mtime ≠ none) :
    (setAttributes fs user path new now faults t).2 l = some i := by
  by_cases hmode : Asked new .mode
  · exact unchanged_of_refused h [] _ rfl (by simp) ⟨hmode, .inl (howner _ _ (by simp))⟩
  by_cases hids : Asked new .owner
  · refine unchanged_of_refused h [.mode] _ rfl ?_ ⟨hids, .inl (howner _ _ (by simp))⟩
    simpa using hmode
  by_cases hsize : Asked new .size
  · obtain ⟨size, hsome⟩ := Option.ne_none_iff_exists'.mp hsize
    refine unchanged_of_refused h [.mode, .owner] _ rfl ?_
      ⟨size, hsome, .inl (hwrite _ _ (by simp))⟩
    simpa using ⟨hmode, hids⟩
  have hquiet : ∀ part ∈ [Part.mode, .owner, .size], ¬Asked new part := by
    simpa using ⟨hmode, hids, hsize⟩
  rcases hasked with ⟨part, hpart, hasked⟩ | hmtime
  · exact (hquiet part hpart hasked).elim
  · have hrefused : Refuses fs user path new faults t i .times :=
      .inl ⟨hmtime, hwrite _ _ (by simp)⟩
    exact unchanged_of_refused h _ _ rfl hquiet hrefused

theorem atime_alone_unchanged_iff (h : Found fs path t l i)
    (hquiet : ∀ part ∈ [.mode, .owner, .size], ¬Asked new part) (hmtime : new.mtime = none) :
    (∃ j, (setAttributes fs user path new now faults t).2 l = some j ∧ Unchanged i j) ↔
      (faults .readTimes = true ∨ faults .setTimes = true) ∨
        ∀ a s, new.atime = some a → toSystemTime a = some s →
          (⟨s.secs, s.nanos⟩ : Timestamp) = i.atime := by
  by_cases hfails : AtimeFails new faults
  · refine iff_of_true ⟨i, atime_alone_fails h hquiet hmtime hfails, .refl i⟩ ?_
    rcases hfails with hread | hatime | hset
    · exact .inl (.inl hread)
    · refine .inr fun a s ha hs => (hatime fun a' ha' => ?_).elim
      rw [← Option.some.inj (ha.symm.trans ha'), hs]
      exact Option.some_ne_none s
    · exact .inl (.inr hset)
  · rw [atime_alone h hquiet hmtime hfails]
    rw [AtimeFails, not_or, not_or, not_not] at hfails
    obtain ⟨hread, hatime, hset⟩ := hfails
    rw [or_iff_right (not_or.mpr ⟨hread, hset⟩), converted_same_iff hatime]
    constructor
    · rintro ⟨j, hj, hunchanged⟩
      obtain rfl := Option.some.inj hj
      exact hunchanged.atime
    · exact fun he => ⟨_, rfl, ⟨rfl, rfl, rfl, rfl, he, rfl⟩⟩

end Strangers

/-- A caller who is not the owner and may not write the object leaves its attributes as they are
exactly where the request asks for more than an access time, or that one is not set. The lookups
that the checks begin with find the object; any other call may fail. -/
theorem stranger_changes_nothing_iff (t : Tree) (l : Location) (i : Inode)
    (h : Found fs path t l i) (hroot : NotRoot fs t l) (howner : user.userId ≠ i.uid)
    (hwrite : fs.isAllowed t user path .write = .ok false)
    (hlook : ∀ look ∈ [.lookForMode, .lookForOwner, .lookForSize, .lookForMtime],
      faults look = false) :
    (∃ j, (setAttributes fs user path new now faults t).2 l = some j ∧ Unchanged i j) ↔
      (new.mode ≠ none ∨ new.uid ≠ none ∨ new.gid ≠ none ∨ new.size ≠ none ∨ new.mtime ≠ none) ∨
        (faults .readTimes = true ∨ faults .setTimes = true) ∨
        ∀ a s, new.atime = some a → toSystemTime a = some s →
          (⟨s.secs, s.nanos⟩ : Timestamp) = i.atime := by
  have hdenied : permits user i .write = false := by
    rw [isAllowed_permits (hroot.path_ne h) h.object] at hwrite
    injection hwrite
  have hnotOwner : ∀ look read, look ∈ [.lookForMode, .lookForOwner] →
      ¬Granted fs user path faults look read .ownerOnly t := by
    intro look read hmem hgranted
    have hfound := hlook look (List.mem_append_left [Call.lookForSize, .lookForMtime] hmem)
    exact howner (of_decide_eq_true ((granted_iff h hroot hfound).mp hgranted).2)
  have hnotWriter : ∀ look read, look ∈ [.lookForSize, .lookForMtime] →
      ¬Granted fs user path faults look read .write t := by
    intro look read hmem hgranted
    have hfound := hlook look (List.mem_append_right [Call.lookForMode, .lookForOwner] hmem)
    have hpermitted := ((granted_iff h hroot hfound).mp hgranted).2
    rw [hdenied] at hpermitted
    cases hpermitted
  by_cases hrights : new.mode ≠ none ∨ new.uid ≠ none ∨ new.gid ≠ none ∨ new.size ≠ none ∨
      new.mtime ≠ none
  · have hasked : (∃ part ∈ [Part.mode, .owner, .size], Asked new part) ∨ new.mtime ≠ none := by
      simpa [Asked, or_assoc] using hrights
    exact iff_of_true ⟨i, unchanged_without_rights h hnotOwner hnotWriter hasked, .refl i⟩
      (.inl hrights)
  · rw [or_iff_right hrights]
    simp only [not_or, not_not] at hrights
    obtain ⟨hmode, huid, hgid, hsize, hmtime⟩ := hrights
    refine atime_alone_unchanged_iff h ?_ hmtime
    simp [Asked, hmode, huid, hgid, hsize]

theorem stranger_changes_nothing_iff_mode :
    let new := { SetAttr.none with mode := some 0o777, atime := some ⟨5, 0⟩ }
    ∃ j, (setAttributes srv ⟨1001, 1001⟩ ownPath new ⟨9, 0⟩ noFaults exported).2 ownPlace = some j ∧
      Unchanged ownFile j :=
  (stranger_changes_nothing_iff srv ⟨1001, 1001⟩ ownPath _ ⟨9, 0⟩ noFaults exported ownPlace ownFile
    own_found own_notRoot (by decide) (by decide) (by decide)).mpr (.inl (.inl (by decide)))

/-- The access time alone is anyone's to set. -/
theorem stranger_sets_atime :
    let stranger : AuthenticatedUser := ⟨1001, 1001⟩
    let new := { SetAttr.none with atime := some ⟨5, 0⟩ }
    srv.isAllowed exported stranger ownPath .write = .ok false ∧
      ¬∃ j, (setAttributes srv stranger ownPath new ⟨9, 0⟩ noFaults exported).2 ownPlace = some j ∧
        Unchanged ownFile j := by
  refine ⟨by decide, ?_⟩
  rintro ⟨j, hj, hunchanged⟩
  have hatime : j.atime = ⟨5, 0⟩ := by
    obtain rfl := Option.some.inj hj
    rfl
  have hsame := hunchanged.atime
  rw [hatime] at hsame
  cases hsame

end ServerAttributeRequests
