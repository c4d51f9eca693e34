import RemoteFs.UnixWriteBack
import RemoteFs.WindowsFrontEnd

/-! # What the server has once a file is cleaned up

The calls of WinFsp, carried out at once, against what the server has once nothing waits in the
buffer. A file that is created without the bit of `FILE_CREATE` is on the server only from its
first write on, and one that is marked for deletion is gone with its cleanup. -/
namespace WindowsWriteBack

open ClientAttributes
open ClientFileSystem
open ClientMemory
open ClientPageCache
open ClientWriteBack (hasRoom_of_empty view view_of_flushed)
open ClientWriteBuffer
open OsPaths
open RemoteTree
open UnixWriteBack (Elsewhere Outside Within)
open WindowsFrontEnd
open WindowsNames
open WriteLog

variable {L : PageLimits} {H : Host}

def held (table : ℕ → Option Handle) (call : Call) (r : Except Failure Reply) :
    ℕ → Option Handle :=
  match call, r with
  | .openFile name _, .ok (.opened c _) | .create name _ _ _, .ok (.opened c _) =>
    match pathOf name with
    | .ok p => Function.update table c (some ⟨p, false⟩)
    | .error _ => table
  | .setDelete c deleteFile, .ok _ => Function.update table c
      ((table c).map fun handle => { handle with deleteOnClose := deleteFile })
  | .close c, .ok _ => Function.update table c none
  | _, _ => table

/-- What `create` makes at a path: a directory in any case, a file with the right bit alone. -/
def created (t : Nodes) (p : Path) (createOptions : UInt32) (extraBuffer : Option (List UInt8))
    (isReparsePoint : Bool) : Nodes :=
  if isReparsePoint then
    match parseSymlinkTarget extraBuffer with
    | .ok link => Function.update t p (some (.symlink link))
    | .error _ => t
  else if hasAny createOptions fileDirectoryFile then
    Function.update t p (some (.directory 4096))
  else if makes createOptions then t.write p 0 []
  else t

/-- What a call that was answered so does to the files of the server when it is carried out
at once; a write is of the bytes that the reply counts. -/
def effect (table : ℕ → Option Handle) (t : Nodes) : Call → Reply → Nodes
  | .create name createOptions extraBuffer isReparsePoint, _ =>
    match pathOf name with
    | .ok p => created t p createOptions extraBuffer isReparsePoint
    | .error _ => t
  | .write c data offset _, .written n _ => (table c).elim t fun handle =>
      fileStore.apply t ⟨handle.path, offset, data.take n.toNat⟩
  | .overwrite c _, _ => (table c).elim t fun handle => t.setSize handle.path 0
  | .setFileSize c newSize, _ => (table c).elim t fun handle => t.setSize handle.path newSize
  | .rename c newName _, _ =>
    match table c, pathOf newName with
    | some handle, .ok q => t.rename handle.path q
    | _, _ => t
  | .cleanup c _, _ => (table c).elim t fun handle =>
      if handle.deleteOnClose then t.remove handle.path else t
  | _, _ => t

def replay : (ℕ → Option Handle) → Nodes → List (Call × (ℕ → Env)) →
    List (Except Failure Reply) → Nodes
  | table, t, (call, _) :: calls, r :: results =>
    replay (held table call r) (match r with
      | .ok reply => effect table t call reply
      | .error _ => t) calls results
  | _, t, _, _ => t

/-- A write of nothing may or may not make the file. -/
def Covered : Call → Prop
  | .write _ data _ _ => data ≠ [] ∧ data.length < 2 ^ 32
  | _ => True

def Unaffected (s : Mount L) : Call → Prop
  | .create name createOptions _ isReparsePoint =>
    isReparsePoint = true ∨ hasAny createOptions fileDirectoryFile = true →
      ∀ p, pathOf name = .ok p → Elsewhere s.fs.writeBuffer p
  | .overwrite c _ => ∀ handle, s.contexts c = some handle →
      Within s.fs.writeBuffer handle.path 0
  | .setFileSize c newSize => ∀ handle, s.contexts c = some handle →
      Within s.fs.writeBuffer handle.path newSize
  | .rename c newName _ => ∀ handle q, s.contexts c = some handle → pathOf newName = .ok q →
      Outside s.fs.writeBuffer handle.path ∧ Outside s.fs.writeBuffer q
  | _ => True

/-- What the call sends of the buffer is taken, and so is a deletion whose failure nobody
hears of. -/
def Taken (H : Host) (s : Mount L) (envs : ℕ → Env) : Call → Prop
  | .write c data offset fileSize =>
    ∃ reply, ((Call.write c data offset fileSize).run H s envs).1 = .ok reply
  | .flush | .close _ => (s.fs.flushWriteBuffer (envs 0)).1 = .ok ()
  | .cleanup c name => (s.fs.flushWriteBuffer (envs 0)).1 = .ok () ∧
      ∀ handle, s.contexts c = some handle → handle.deleteOnClose = true →
        ((s.flushed name (envs 0)).fs.remove handle.path (envs 1)).1 = .ok ()
  | _ => True

/-- Every call is covered, leaves the waiting bytes alone, and sends what it sends. -/
def Careful (H : Host) : Mount L → List (Call × (ℕ → Env)) → Prop
  | _, [] => True
  | s, (call, envs) :: calls => Covered call ∧ Unaffected s call ∧ Taken H s envs call ∧
      Careful H (call.run H s envs).2 calls

/-! What a call leaves -/

structure Leaves {α ε : Type} (fs : FileSystem L) (r : Except ε α) (left : FileSystem L)
    (e : α → Nodes) : Prop where
  room : left.writeBuffer.HasRoom
  ok : ∀ a, r = .ok a → view left = e a
  error : ∀ err, r = .error err → view left = view fs

section Steps

variable {α β ε : Type} {fs left : FileSystem L} {s s' : Mount L} {p q : Path} {env : Env}
variable {envs : ℕ → Env} {e : α → Nodes} {t : Nodes} {r : Result L α}

def below (fs : FileSystem L) : UnixFrontEnd.Fs L := ⟨fs, 0, fun _ => none⟩

theorem leaves_answered {a : α} (hroom : left.writeBuffer.HasRoom) (hview : view left = e a) :
    Leaves fs (.ok a : Except ε α) left e :=
  ⟨hroom, fun a' ha => by obtain rfl := Except.ok.inj ha; exact hview, nofun⟩

theorem leaves_below {done : Except FsModelError α × FileSystem L}
    (h : UnixWriteBack.Leaves (below fs) ((below fs).on done) e) :
    Leaves fs done.1 done.2 e := by
  obtain ⟨hroom, hok, herror⟩ := h
  obtain ⟨err | a, left⟩ := done
  · exact ⟨hroom, nofun, fun _ _ => herror _ rfl⟩
  · exact leaves_answered hroom (hok a rfl)

theorem Leaves.on {done : Except FsModelError α × FileSystem L}
    (h : Leaves s.fs done.1 done.2 e) : Leaves s.fs (s.on done).1 (s.on done).2.fs e := by
  obtain ⟨hroom, hok, herror⟩ := h
  obtain ⟨err | a, left⟩ := done
  · exact ⟨hroom, nofun, fun _ _ => herror _ rfl⟩
  · exact leaves_answered hroom (hok a rfl)

theorem leaves_refused (hroom : fs.writeBuffer.HasRoom) (err : ε) :
    Leaves fs (.error err : Except ε α) fs e := ⟨hroom, nofun, fun _ _ => rfl⟩

theorem leaves_done (hroom : fs.writeBuffer.HasRoom) (r : Except ε α) :
    Leaves fs r fs fun _ => view fs := ⟨hroom, fun _ _ => rfl, fun _ _ => rfl⟩

theorem leaves_fetched {done : Except FsModelError α × FileSystem L}
    (hroom : fs.writeBuffer.HasRoom) (hremote : done.2.remote = fs.remote)
    (hbuffer : done.2.writeBuffer = fs.writeBuffer) :
    Leaves fs done.1 done.2 fun _ => view fs :=
  leaves_below (UnixWriteBack.leaves_fetched hroom hremote hbuffer)

section Calls

variable (hroom : fs.writeBuffer.HasRoom)
include hroom

theorem leaves_file (p : Path) (env : Env) :
    Leaves fs (fs.createFile p 0 [] env).1 (fs.createFile p 0 [] env).2 fun _ =>
      (view fs).write p 0 [] :=
  leaves_below (UnixWriteBack.leaves_file hroom 0)

theorem leaves_directory (h : Elsewhere fs.writeBuffer p) (env : Env) :
    Leaves fs (fs.mkdir p env).1 (fs.mkdir p env).2 fun _ =>
      Function.update (view fs) p (some (.directory 4096)) :=
  leaves_below (UnixWriteBack.leaves_directory hroom h)

theorem leaves_symlink (h : Elsewhere fs.writeBuffer p) (link : String) (env : Env) :
    Leaves fs (fs.createSymlink p link env).1 (fs.createSymlink p link env).2 fun _ =>
      Function.update (view fs) p (some (.symlink link)) :=
  leaves_below (UnixWriteBack.leaves_createSymlink hroom h)

theorem leaves_set (p : Path) (new : SetAttr)
    (h : ∀ n, new.size = some n → Within fs.writeBuffer p n) (env : Env) :
    Leaves fs (fs.setAttributes p new env).1 (fs.setAttributes p new env).2 fun _ =>
      new.size.elim (view fs) fun n => (view fs).setSize p n :=
  leaves_below (UnixWriteBack.leaves_setAttributes hroom h)

theorem leaves_removed (h : Outside fs.writeBuffer p) (env : Env) :
    Leaves fs (fs.remove p env).1 (fs.remove p env).2 fun _ => (view fs).remove p :=
  leaves_below (UnixWriteBack.leaves_remove hroom h)

theorem leaves_renamed (hp : Outside fs.writeBuffer p) (hq : Outside fs.writeBuffer q)
    (noreplace : Bool) (env : Env) :
    Leaves fs (fs.rename p q ⟨noreplace, false, false⟩ env).1
      (fs.rename p q ⟨noreplace, false, false⟩ env).2 fun _ => (view fs).rename p q :=
  leaves_below (UnixWriteBack.leaves_rename hroom hp hq)

theorem leaves_taken {offset n : ℕ} {data : List UInt8}
    (h : (fs.writeFile p offset data env).1 = .ok n) :
    Leaves fs (fs.writeFile p offset data env).1 (fs.writeFile p offset data env).2 fun n =>
      fileStore.apply (view fs) ⟨p, offset, data.take n⟩ :=
  leaves_below (UnixWriteBack.leaves_write hroom ⟨n, h⟩)

theorem leaves_flushed (h : (fs.flushWriteBuffer env).1 = .ok ()) :
    Leaves fs (fs.flushWriteBuffer env).1 (fs.flushWriteBuffer env).2 (fun _ => view fs) ∧
      (fs.flushWriteBuffer env).2.writeBuffer.content = [] := by
  have hbelow : ((below fs).flushBuffer env).1 = .ok () := by
    unfold UnixFrontEnd.Fs.flushBuffer UnixFrontEnd.Fs.on
    rw [show ((below fs).fs.flushWriteBuffer env).1 = .ok () from h]
    rfl
  obtain ⟨hleaves, hempty⟩ := UnixWriteBack.leaves_flush hroom hbelow
  exact ⟨leaves_below hleaves, hempty⟩

end Calls

theorem leaves_looked (hroom : fs.writeBuffer.HasRoom) (p : Path) (env : Env) :
    Leaves fs (fs.getAttributes p env).1 (fs.getAttributes p env).2 fun _ => view fs :=
  leaves_fetched hroom (getAttributes_frame fs p env).1 (getAttributes_frame fs p env).2.2

theorem leaves_found {r : Except Failure β} {next : β → Result L α}
    (hroom : s.fs.writeBuffer.HasRoom)
    (h : ∀ b, r = .ok b → Leaves s.fs (next b).1 (next b).2.fs e) :
    Leaves s.fs (s.found r next).1 (s.found r next).2.fs e := by
  cases r with
  | error err => exact leaves_refused hroom err
  | ok b => exact h b rfl

theorem leaves_andThen {next : α → Mount L → Result L β} {e : β → Nodes}
    (h : Leaves s.fs r.1 r.2.fs fun _ => t)
    (hnext : ∀ a s', r.1 = .ok a → (next a s').2.fs = s'.fs ∧
      (∀ b, (next a s').1 = .ok b → e b = t) ∧
      ∀ err, (next a s').1 = .error err → t = view s.fs) :
    Leaves s.fs (Mount.andThen r next).1 (Mount.andThen r next).2.fs e := by
  obtain ⟨hroom, hok, herror⟩ := h
  obtain ⟨err | a, s'⟩ := r
  · exact ⟨hroom, nofun, fun _ _ => herror err rfl⟩
  · obtain ⟨hfs, hb, herr⟩ := hnext a s' rfl
    have hview : view (next a s').2.fs = t := (congrArg view hfs).trans (hok a rfl)
    exact ⟨(congrArg (fun fs : FileSystem L => fs.writeBuffer.HasRoom) hfs).mpr hroom,
      fun b h => hview.trans (hb b h).symm, fun err h => hview.trans (herr err h)⟩

theorem leaves_replied {e : Reply → Nodes} {reply : α → Reply}
    (h : Leaves s.fs r.1 r.2.fs fun a => e (reply a)) :
    Leaves s.fs (replied reply r).1 (replied reply r).2.fs e := by
  obtain ⟨hroom, hok, herror⟩ := h
  obtain ⟨err | a, s'⟩ := r
  · exact ⟨hroom, nofun, fun _ _ => herror err rfl⟩
  · exact leaves_answered hroom (hok a rfl)

theorem Leaves.congr {r : Except ε α} {e' : α → Nodes} (h : Leaves fs r left e)
    (he : ∀ a, r = .ok a → e a = e' a) : Leaves fs r left e' :=
  ⟨h.room, fun a ha => (h.ok a ha).trans (he a ha), h.error⟩

theorem Leaves.since {fs' : FileSystem L} {r : Except ε α} (h : Leaves fs' r left e)
    (hview : view fs' = view fs) : Leaves fs r left e :=
  ⟨h.room, h.ok, fun err herr => (h.error err herr).trans hview⟩

theorem Leaves.of_ok {fs' : FileSystem L} {r : Except ε α} {a : α} (h : Leaves fs' r left e)
    (ha : r = .ok a) : Leaves fs r left e :=
  ⟨h.room, h.ok, fun err herr => by rw [ha] at herr; cases herr⟩

theorem leaves_opened (hroom : s.fs.writeBuffer.HasRoom) (info : OpenFileInfo) :
    Leaves s.fs (s.opened p info).1 (s.opened p info).2.fs fun _ => view s.fs :=
  leaves_done hroom _

theorem leaves_openFile {name : List UInt16} {createOptions : UInt32}
    (hroom : s.fs.writeBuffer.HasRoom) :
    Leaves s.fs (s.openFile name createOptions env).1 (s.openFile name createOptions env).2.fs
      fun _ => view s.fs := by
  refine leaves_found hroom fun p _ => leaves_andThen (leaves_looked hroom p env).on ?_
  intro attr s' _
  split
  · exact ⟨rfl, nofun, fun _ _ => rfl⟩
  · exact ⟨rfl, fun _ _ => rfl, nofun⟩

/-! Creating -/

theorem leaves_prepare (createOptions : UInt32)
    (make look : Except FsModelError Attributes × FileSystem L) (hroom : s.fs.writeBuffer.HasRoom)
    (hmake : Leaves s.fs make.1 make.2 fun _ => t) :
    Leaves s.fs (s.prepare createOptions make look).1 (s.prepare createOptions make look).2.fs
      fun _ => if makes createOptions then t else view s.fs := by
  rw [prepare_eq]
  cases makes createOptions with
  | true => exact leaves_andThen hmake.on fun _ _ _ => ⟨rfl, fun _ _ => rfl, nofun⟩
  | false => exact leaves_done hroom _

theorem leaves_create {name : List UInt16} {createOptions : UInt32}
    {extraBuffer : Option (List UInt8)} {isReparsePoint : Bool}
    (hroom : s.fs.writeBuffer.HasRoom)
    (hun : isReparsePoint = true ∨ hasAny createOptions fileDirectoryFile = true →
      ∀ p, pathOf name = .ok p → Elsewhere s.fs.writeBuffer p) :
    Leaves s.fs (s.create name createOptions extraBuffer isReparsePoint env).1
      (s.create name createOptions extraBuffer isReparsePoint env).2.fs fun _ =>
      match pathOf name with
      | .ok p => created (view s.fs) p createOptions extraBuffer isReparsePoint
      | .error _ => view s.fs := by
  refine leaves_found hroom fun p hp => ?_
  simp only [hp, created]
  by_cases hr : isReparsePoint = true
  · rw [if_pos hr]
    simp only [hr, if_true]
    refine leaves_found hroom fun link hlink => ?_
    have hparsed : parseSymlinkTarget extraBuffer = .ok link := by
      cases hres : parseSymlinkTarget extraBuffer with
      | error err => rw [hres] at hlink; cases hlink
      | ok link' =>
        rw [hres] at hlink
        exact congrArg Except.ok (Except.ok.inj (ε := Failure) hlink)
    simp only [hparsed]
    have hmade := leaves_symlink hroom (hun (Or.inl hr) p hp) link env
    exact leaves_andThen hmade.on fun _ _ _ => ⟨rfl, fun _ _ => rfl, nofun⟩
  · rw [if_neg hr]
    simp only [hr]
    by_cases hd : hasAny createOptions fileDirectoryFile = true
    · rw [if_pos hd]
      simp only [hd, if_true]
      have hmade := leaves_directory hroom (hun (Or.inr hd) p hp) env
      have hprepared := leaves_prepare createOptions _ (s.fs.getAttributes p env) hroom hmade
      simp only [makes_of_directory hd, if_true] at hprepared
      exact leaves_andThen hprepared fun _ _ _ => ⟨rfl, fun _ _ => rfl, nofun⟩
    · rw [if_neg hd]
      simp only [hd]
      have hmade := leaves_file hroom p env
      split
      · exact leaves_andThen (leaves_prepare _ _ _ hroom hmade) fun _ _ _ =>
          ⟨rfl, fun _ _ => rfl, nofun⟩
      · exact leaves_refused hroom _

/-! Writing -/

/-- That the file has been made does not tell once something is written to it. -/
theorem apply_made {off : ℕ} {data : List UInt8} (hd : data ≠ []) :
    fileStore.apply (t.write p 0 []) ⟨p, off, data⟩ = fileStore.apply t ⟨p, off, data⟩ := by
  rw [apply_of_ne _ _ hd, apply_of_ne _ _ hd]
  show (t.write p 0 []).write p off data = t.write p off data
  simp only [Nodes.write, Function.update_self, Function.update_idem]
  congr 1
  rcases t p with _ | _ | _ | _ <;> simp [Content.write]

theorem orPanic_ok {o : Option α} {a : α} (h : orPanic o = .ok a) : o = some a := by
  cases o with
  | none => cases h
  | some b => obtain rfl := Except.ok.inj h; rfl

theorem context_ok {c : ℕ} {handle : Handle} (h : s.context c = .ok handle) :
    s.contexts c = some handle := by
  unfold Mount.context at h
  split at h
  · obtain rfl := Except.ok.inj h
    assumption
  · cases h

theorem andThen_ok {next : α → Mount L → Result L β} {b : β}
    (h : (Mount.andThen r next).1 = .ok b) :
    ∃ a, r.1 = .ok a ∧ (next a r.2).1 = .ok b := by
  obtain ⟨err | a, s'⟩ := r
  · cases h
  · exact ⟨a, rfl, h⟩

theorem replied_ok {reply : α → Reply} {a : Reply} (h : (replied reply r).1 = .ok a) :
    ∃ b, r.1 = .ok b := by
  obtain ⟨err | b, s'⟩ := r
  · cases h
  · exact ⟨b, rfl⟩

theorem andThen_of_ok {next : α → Mount L → Result L β} {a : α} (h : r.1 = .ok a) :
    Mount.andThen r next = next a r.2 := by
  obtain ⟨err | b, s'⟩ := r
  · cases h
  · obtain rfl := Except.ok.inj h
    rfl

theorem on_ok {done : Except FsModelError α × FileSystem L} {a : α} (h : (s.on done).1 = .ok a) :
    done.1 = .ok a := by
  obtain ⟨err | b, left⟩ := done
  · cases h
  · obtain rfl := Except.ok.inj h
    rfl

/-- The reply counts the bytes that were taken, one of them at least. -/
theorem writeAt_ok {data : List UInt8} {offset fileSize : ℕ} {a : UInt32 × ℕ}
    (hroom : s.fs.writeBuffer.HasRoom) (hd : data ≠ []) (hsize : data.length < 2 ^ 32)
    (h : (Mount.writeAt H s p data offset fileSize env).1 = .ok a) :
    (s.fs.writeFile p offset data env).1 = .ok a.1.toNat ∧ data.take a.1.toNat ≠ [] := by
  obtain ⟨n, hn, hstop⟩ := andThen_ok h
  dsimp only at hstop
  obtain ⟨stop, -, rfl⟩ := Option.map_eq_some_iff.mp (orPanic_ok hstop)
  have hdone := on_ok hn
  have hlen := s.fs.writeBuffer.stageWrite_written_le p offset data
  have hpos := WriteBuffer.stageWrite_written_pos hroom p offset hd
  rw [← (FileSystem.writeFile_ok hdone).1] at hlen hpos
  have hfits : n < 2 ^ 32 := Nat.lt_of_le_of_lt hlen hsize
  have hcount : (UInt32.ofNat n).toNat = n := by
    rw [UInt32.toNat_ofNat', Nat.mod_eq_of_lt hfits]
  rw [hcount]
  refine ⟨hdone, fun hnil => ?_⟩
  rw [List.take_eq_nil_iff] at hnil
  rcases hnil with hzero | hnil
  · omega
  · exact hd hnil

theorem leaves_writeAt {data : List UInt8} {offset fileSize : ℕ}
    (hroom : s.fs.writeBuffer.HasRoom) (hd : data ≠ []) (hsize : data.length < 2 ^ 32)
    (hok : ∃ a, (Mount.writeAt H s p data offset fileSize env).1 = .ok a) :
    Leaves s.fs (Mount.writeAt H s p data offset fileSize env).1
      (Mount.writeAt H s p data offset fileSize env).2.fs fun a =>
        fileStore.apply (view s.fs) ⟨p, offset, data.take a.1.toNat⟩ := by
  obtain ⟨a, ha⟩ := hok
  obtain ⟨hdone, -⟩ := writeAt_ok hroom hd hsize ha
  have hleaves := leaves_taken hroom hdone
  have hleft : (Mount.writeAt H s p data offset fileSize env).2.fs =
      (s.fs.writeFile p offset data env).2 := by
    simp only [Mount.writeAt, Mount.on, hdone]
    rfl
  refine ⟨hleft ▸ hleaves.room, fun b hb => ?_, fun err herr => ?_⟩
  · obtain rfl := Except.ok.inj (ha.symm.trans hb)
    rw [hleft]
    exact hleaves.ok _ hdone
  · rw [ha] at herr
    cases herr

theorem leaves_write {c : ℕ} {data : List UInt8} {offset fileSize : ℕ}
    (hroom : s.fs.writeBuffer.HasRoom) (hd : data ≠ []) (hsize : data.length < 2 ^ 32)
    (hok : ∃ a, (Mount.write H s c data offset fileSize envs).1 = .ok a) :
    Leaves s.fs (Mount.write H s c data offset fileSize envs).1
      (Mount.write H s c data offset fileSize envs).2.fs fun a =>
        (s.contexts c).elim (view s.fs) fun handle =>
          fileStore.apply (view s.fs) ⟨handle.path, offset, data.take a.1.toNat⟩ := by
  unfold Mount.write at hok ⊢
  unfold Mount.context at hok ⊢
  cases hc : s.contexts c with
  | none => rw [hc] at hok; obtain ⟨a, ha⟩ := hok; cases ha
  | some handle =>
    rw [hc] at hok
    simp only [Mount.found, Option.elim] at hok ⊢
    obtain ⟨hroom', hlooked, hfailed⟩ := leaves_looked hroom handle.path (envs 0)
    cases hres : (s.fs.getAttributes handle.path (envs 0)).1 with
    | ok attr =>
      simp only [hres] at hok ⊢
      have hview := hlooked attr hres
      have hleaves := leaves_writeAt hroom' hd hsize hok
      refine (hleaves.since hview).congr fun a _ => ?_
      rw [← hview]
    | error err =>
      simp only [hres] at hok ⊢
      have hview := hfailed err hres
      obtain ⟨a, ha⟩ := hok
      obtain ⟨attr, hmade, hdone⟩ := andThen_ok ha
      have hnew := leaves_file hroom' handle.path (envs 1)
      have hfile := hnew.ok attr (on_ok hmade)
      rw [hview] at hfile
      rw [andThen_of_ok hmade]
      have hleaves := leaves_writeAt hnew.on.room hd hsize ⟨a, hdone⟩
      refine (hleaves.of_ok hdone).congr fun b hb => ?_
      obtain rfl := Except.ok.inj (hdone.symm.trans hb)
      rw [show view (Mount.on _ _).2.fs = _ from hfile]
      exact apply_made (writeAt_ok hnew.room hd hsize hdone).2

/-! The other calls on a context -/

theorem leaves_setSize {c n allocationSize : ℕ} (hroom : s.fs.writeBuffer.HasRoom)
    (h : ∀ handle, s.contexts c = some handle → Within s.fs.writeBuffer handle.path n) :
    Leaves s.fs (s.setSize c n allocationSize env).1 (s.setSize c n allocationSize env).2.fs
      fun _ => (s.contexts c).elim (view s.fs) fun handle =>
        (view s.fs).setSize handle.path n := by
  refine leaves_found hroom fun handle hc => ?_
  rw [context_ok hc]
  have hset := leaves_set hroom handle.path (.ofSize n)
    (fun m hm => by obtain rfl := Option.some.inj hm; exact h handle (context_ok hc)) env
  exact leaves_andThen hset.on fun _ _ _ => ⟨rfl, fun _ _ => rfl, nofun⟩

theorem setBasicInfo_size {access write change : ℕ} {new : SetAttr} {checks : Bool}
    (h : FileTimes.setBasicInfo checks access write change = some (some new)) :
    new.size = none := by
  unfold FileTimes.setBasicInfo at h
  simp only [Option.bind_eq_bind, Option.bind_eq_some_iff] at h
  obtain ⟨atime, -, mtime, -, ctime, -, h⟩ := h
  split at h
  · obtain rfl := Option.some.inj (Option.some.inj h)
    rfl
  · cases h

theorem leaves_setBasicInfo {c access write change : ℕ} (hroom : s.fs.writeBuffer.HasRoom) :
    Leaves s.fs (Mount.setBasicInfo H s c access write change env).1
      (Mount.setBasicInfo H s c access write change env).2.fs fun _ => view s.fs := by
  refine leaves_found hroom fun handle _ => leaves_found hroom fun new hnew => ?_
  cases new with
  | none => exact leaves_done hroom _
  | some new =>
    have hsize := setBasicInfo_size (orPanic_ok hnew)
    have hset := leaves_set hroom handle.path new (fun n hn => by rw [hsize] at hn; cases hn) env
    rw [hsize] at hset
    exact leaves_andThen hset.on fun _ _ _ => ⟨rfl, fun _ _ => rfl, fun _ _ => rfl⟩

theorem leaves_getFileInfo {c : ℕ} (hroom : s.fs.writeBuffer.HasRoom) :
    Leaves s.fs (Mount.getFileInfo H s c env).1 (Mount.getFileInfo H s c env).2.fs
      fun _ => view s.fs :=
  leaves_found hroom fun handle _ => leaves_andThen (leaves_looked hroom handle.path env).on
    fun _ _ _ => ⟨rfl, fun _ _ => rfl, fun _ _ => rfl⟩

theorem leaves_getDirInfoByName {c : ℕ} {name : List UInt16} (hroom : s.fs.writeBuffer.HasRoom) :
    Leaves s.fs (Mount.getDirInfoByName H s c name env).1
      (Mount.getDirInfoByName H s c name env).2.fs fun _ => view s.fs :=
  leaves_found hroom fun handle _ => leaves_found hroom fun text _ =>
    leaves_andThen (leaves_looked hroom (handle.path.join (components text)) env).on
      fun _ _ _ => ⟨rfl, fun _ _ => rfl, fun _ _ => rfl⟩

theorem leaves_readDirectory {c length : ℕ} {marker : Option (List UInt16)}
    (hroom : s.fs.writeBuffer.HasRoom) :
    Leaves s.fs (Mount.readDirectory H s c marker length env).1
      (Mount.readDirectory H s c marker length env).2.fs fun _ => view s.fs := by
  refine leaves_found hroom fun handle _ => ?_
  obtain ⟨hremote, hbuffer⟩ := UnixWriteBack.readdir_frame s.fs handle.path env
  have hleft : (ClientMarkedListing.FileSystemContext.readDirectory H.winfsp H.checks s.fs
      handle.path marker length env).2 = (s.fs.readdir handle.path env).2 := by
    unfold ClientMarkedListing.FileSystemContext.readDirectory
    dsimp only
    split <;> rfl
  have hview : view (s.fs.readdir handle.path env).2 = view s.fs :=
    UnixWriteBack.view_frame hremote hbuffer
  dsimp only
  rw [hleft]
  exact ⟨by rw [hbuffer]; exact hroom, fun _ _ => hview, fun _ _ => hview⟩

theorem leaves_read {c offset : ℕ} {buffer : List UInt8} (hroom : s.fs.writeBuffer.HasRoom) :
    Leaves s.fs (s.read c buffer offset env).1 (s.read c buffer offset env).2.fs
      fun _ => view s.fs := by
  refine leaves_found hroom fun handle _ => Leaves.on ?_
  obtain ⟨hremote, hbuffer⟩ :=
    ClientCopyRange.readFile_frame s.fs handle.path offset buffer.length env
  unfold ClientFrontEnds.FileSystemContext.read
  generalize s.fs.readFile handle.path offset buffer.length env = done at hremote hbuffer ⊢
  obtain ⟨err | bytes, left⟩ := done
  · exact leaves_fetched hroom hremote hbuffer
  · exact leaves_fetched hroom hremote hbuffer

theorem leaves_getSecurityByName {name : List UInt16} (hroom : s.fs.writeBuffer.HasRoom) :
    Leaves s.fs (s.getSecurityByName name env).1 (s.getSecurityByName name env).2.fs
      fun _ => view s.fs := by
  refine leaves_found hroom fun p _ => ?_
  obtain ⟨hroom', hok, herror⟩ := (leaves_looked hroom p env).on
  refine ⟨hroom', fun _ _ => ?_, fun _ _ => ?_⟩ <;>
    exact UnixWriteBack.view_frame (getAttributes_frame s.fs p env).1
      (getAttributes_frame s.fs p env).2.2

theorem leaves_rename {c : ℕ} {newName : List UInt16} {replaceIfExists : Bool}
    (hroom : s.fs.writeBuffer.HasRoom)
    (h : ∀ handle q, s.contexts c = some handle → pathOf newName = .ok q →
      Outside s.fs.writeBuffer handle.path ∧ Outside s.fs.writeBuffer q) :
    Leaves s.fs (s.rename c newName replaceIfExists env).1
      (s.rename c newName replaceIfExists env).2.fs fun _ =>
        match s.contexts c, pathOf newName with
        | some handle, .ok q => (view s.fs).rename handle.path q
        | _, _ => view s.fs := by
  refine leaves_found hroom fun handle hc => leaves_found hroom fun q hq => ?_
  obtain ⟨hold, hnew⟩ := h handle q (context_ok hc) hq
  rw [context_ok hc, hq]
  exact (leaves_renamed hroom hold hnew _ env).on

/-! Cleaning up -/

structure Clean (fs left : FileSystem L) : Prop where
  view_eq : view left = view fs
  room : left.writeBuffer.HasRoom
  empty : left.writeBuffer.content = []

theorem clean_flush (hroom : fs.writeBuffer.HasRoom)
    (h : (fs.flushWriteBuffer env).1 = .ok ()) : Clean fs (fs.flushWriteBuffer env).2 := by
  obtain ⟨⟨hroom', hok, -⟩, hempty⟩ := leaves_flushed hroom h
  exact ⟨hok () h, hroom', hempty⟩

theorem clean_flushed (name : Option (List UInt16)) (hroom : s.fs.writeBuffer.HasRoom)
    (h : (s.fs.flushWriteBuffer env).1 = .ok ()) : Clean s.fs (s.flushed name env).fs := by
  have hclean := clean_flush hroom h
  unfold Mount.flushed
  dsimp only
  split <;> exact ⟨hclean.view_eq, hclean.room, hclean.empty⟩

theorem cleanup_clean {c : ℕ} {name : Option (List UInt16)} {handle : Handle}
    (hroom : s.fs.writeBuffer.HasRoom) (hc : s.contexts c = some handle)
    (htaken : Taken H s envs (.cleanup c name)) :
    (s.cleanup c name envs).2.fs.writeBuffer.content = [] ∧
      Leaves s.fs (s.cleanup c name envs).1 (s.cleanup c name envs).2.fs fun _ =>
        if handle.deleteOnClose then (view s.fs).remove handle.path else view s.fs := by
  obtain ⟨hflush, hremove⟩ := htaken
  have hclean := clean_flushed name hroom hflush
  unfold Mount.cleanup Mount.context
  rw [hc]
  simp only [Mount.found]
  split
  · rename_i hdelete
    have hgone := leaves_removed hclean.room (p := handle.path) (Or.inl hclean.empty) (envs 1)
    have hdone := hremove handle hc hdelete
    have hview := hgone.ok () hdone
    rw [hclean.view_eq] at hview
    refine ⟨?_, leaves_answered hgone.room hview⟩
    obtain ⟨r, -, hrun⟩ := FileSystem.remove_ok hdone
    rw [hrun]
    exact hclean.empty
  · exact ⟨hclean.empty, leaves_answered hclean.room hclean.view_eq⟩

theorem leaves_close {c : ℕ} (hroom : s.fs.writeBuffer.HasRoom)
    (h : (s.fs.flushWriteBuffer env).1 = .ok ()) :
    Leaves s.fs (s.close c env).1 (s.close c env).2.fs fun _ => view s.fs := by
  have hclean := clean_flush hroom h
  exact leaves_found hroom fun _ _ => leaves_answered hclean.room hclean.view_eq

theorem leaves_cleanup {c : ℕ} {name : Option (List UInt16)} (hroom : s.fs.writeBuffer.HasRoom)
    (htaken : Taken H s envs (.cleanup c name)) :
    Leaves s.fs (s.cleanup c name envs).1 (s.cleanup c name envs).2.fs fun _ =>
      (s.contexts c).elim (view s.fs) fun handle =>
        if handle.deleteOnClose then (view s.fs).remove handle.path else view s.fs := by
  cases hc : s.contexts c with
  | some handle => exact (cleanup_clean hroom hc htaken).2
  | none =>
    unfold Mount.cleanup Mount.context
    rw [hc]
    exact leaves_refused hroom _

/-- The step lemma: a call that is answered has its effect on the server with the waiting
bytes. -/
theorem leaves_run {call : Call} (hroom : s.fs.writeBuffer.HasRoom) (hcov : Covered call)
    (hun : Unaffected s call) (htaken : Taken H s envs call) :
    Leaves s.fs (call.run H s envs).1 (call.run H s envs).2.fs
      (effect s.contexts (view s.fs) call) := by
  cases call with
  | openFile name createOptions => exact leaves_replied (leaves_openFile hroom)
  | create name createOptions extraBuffer isReparsePoint =>
    exact leaves_replied (leaves_create hroom hun)
  | getSecurityByName name => exact leaves_replied (leaves_getSecurityByName hroom)
  | getFileInfo c => exact leaves_replied (leaves_getFileInfo hroom)
  | getDirInfoByName c name => exact leaves_replied (leaves_getDirInfoByName hroom)
  | readDirectory c marker length => exact leaves_replied (leaves_readDirectory hroom)
  | read c buffer offset => exact leaves_replied (leaves_read hroom)
  | write c data offset fileSize =>
    obtain ⟨hd, hsize⟩ := hcov
    obtain ⟨reply, hreply⟩ := htaken
    exact leaves_replied (leaves_write hroom hd hsize (replied_ok hreply))
  | flush => exact leaves_replied (leaves_flushed hroom htaken).1.on
  | overwrite c allocationSize => exact leaves_replied (leaves_setSize hroom hun)
  | setFileSize c newSize => exact leaves_replied (leaves_setSize hroom hun)
  | setBasicInfo c access write change => exact leaves_replied (leaves_setBasicInfo hroom)
  | rename c newName replaceIfExists => exact leaves_replied (leaves_rename hroom hun)
  | setDelete c deleteFile =>
    exact leaves_replied (leaves_found hroom fun _ _ => leaves_done hroom _)
  | cleanup c name => exact leaves_replied (leaves_cleanup hroom htaken)
  | close c => exact leaves_replied (leaves_close hroom htaken)

/-! The contexts -/

structure Opens (s : Mount L) (p : Path) (r : Result L (ℕ × OpenFileInfo)) : Prop where
  ok : ∀ made, r.1 = .ok made →
    r.2.contexts = Function.update s.contexts made.1 (some ⟨p, false⟩)
  error : ∀ err, r.1 = .error err → r.2.contexts = s.contexts

theorem opens_opened (h : s'.contexts = s.contexts) (info : OpenFileInfo) :
    Opens s p (s'.opened p info) := by
  refine ⟨fun made hmade => ?_, nofun⟩
  obtain rfl := Except.ok.inj hmade
  rw [← h]
  rfl

theorem opens_refused (h : s'.contexts = s.contexts) (err : Failure) :
    Opens s p (.error err, s') := ⟨nofun, fun _ _ => h⟩

theorem opens_andThen {next : α → Mount L → Result L (ℕ × OpenFileInfo)}
    (hr : r.2.contexts = s.contexts)
    (h : ∀ a s', s'.contexts = s.contexts → Opens s p (next a s')) :
    Opens s p (Mount.andThen r next) := by
  obtain ⟨err | a, s'⟩ := r
  · exact opens_refused hr err
  · exact h a s' hr

theorem opens_found {found : Except Failure β} {next : β → Result L (ℕ × OpenFileInfo)}
    (h : ∀ b, Opens s p (next b)) : Opens s p (s.found found next) := by
  cases found with
  | error err => exact opens_refused rfl err
  | ok b => exact h b

theorem keeps_found {found : Except Failure β} {next : β → Result L α}
    (h : ∀ b, (next b).2.contexts = s.contexts) : (s.found found next).2.contexts = s.contexts := by
  cases found with
  | error err => rfl
  | ok b => exact h b

theorem keeps_andThen {next : α → Mount L → Result L β} (hr : r.2.contexts = s.contexts)
    (h : ∀ a s', s'.contexts = s.contexts → (next a s').2.contexts = s.contexts) :
    (Mount.andThen r next).2.contexts = s.contexts := by
  obtain ⟨err | a, s'⟩ := r
  · exact hr
  · exact h a s' hr

theorem keeps_prepare (createOptions : UInt32)
    (make look : Except FsModelError Attributes × FileSystem L) :
    (s.prepare createOptions make look).2.contexts = s.contexts := by
  unfold Mount.prepare
  split
  · exact keeps_andThen rfl fun _ _ h => h
  · split
    · exact keeps_andThen rfl fun _ _ h => h
    · rfl

theorem opens_openFile {name : List UInt16} {createOptions : UInt32} (hp : pathOf name = .ok p) :
    Opens s p (s.openFile name createOptions env) := by
  unfold Mount.openFile
  rw [hp]
  refine opens_andThen rfl fun attr s' hs' => ?_
  split
  · exact opens_refused hs' _
  · exact opens_opened hs' _

theorem opens_create {name : List UInt16} {createOptions : UInt32}
    {extraBuffer : Option (List UInt8)} {isReparsePoint : Bool} (hp : pathOf name = .ok p) :
    Opens s p (s.create name createOptions extraBuffer isReparsePoint env) := by
  unfold Mount.create
  rw [hp]
  simp only [Mount.found]
  split
  · exact opens_found fun link => opens_andThen rfl fun _ _ hs' => opens_opened hs' _
  · split
    · exact opens_andThen (keeps_prepare _ _ _) fun _ _ hs' => opens_opened hs' _
    · split
      · exact opens_andThen (keeps_prepare _ _ _) fun _ _ hs' => opens_opened hs' _
      · exact opens_refused rfl _

theorem held_opened {name : List UInt16} {table : ℕ → Option Handle} {call : Call}
    {opening : Result L (ℕ × OpenFileInfo)}
    (hcall : (∃ createOptions, call = .openFile name createOptions) ∨
      ∃ createOptions extraBuffer isReparsePoint,
        call = .create name createOptions extraBuffer isReparsePoint)
    (htable : table = s.contexts) (hopens : ∀ p, pathOf name = .ok p → Opens s p opening)
    (hrefused : ∀ err, pathOf name = .error err → ∃ err', opening = (.error err', s)) :
    opening.2.contexts =
      held table call (replied (fun made => .opened made.1 made.2) opening).1 := by
  subst htable
  cases hp : pathOf name with
  | error err =>
    obtain ⟨err', rfl⟩ := hrefused err hp
    rcases hcall with ⟨_, rfl⟩ | ⟨_, _, _, rfl⟩ <;> rfl
  | ok p =>
    obtain ⟨hok, herror⟩ := hopens p hp
    obtain ⟨err | made, s'⟩ := opening
    · rcases hcall with ⟨_, rfl⟩ | ⟨_, _, _, rfl⟩ <;> exact herror err rfl
    · rcases hcall with ⟨_, rfl⟩ | ⟨_, _, _, rfl⟩ <;>
        · simp only [held, replied, Except.map, hp]
          exact hok made rfl

theorem held_setDelete {c : ℕ} {deleteFile : Bool} :
    (s.setDelete c deleteFile).2.contexts = held s.contexts (.setDelete c deleteFile)
      (replied (fun _ => .done) (s.setDelete c deleteFile)).1 := by
  unfold Mount.setDelete Mount.context
  cases hc : s.contexts c with
  | none => rfl
  | some handle => simp only [Mount.found, held, replied, Except.map, hc, Option.map_some]

theorem held_close {c : ℕ} :
    (s.close c env).2.contexts =
      held s.contexts (.close c) (replied (fun _ => .done) (s.close c env)).1 := by
  unfold Mount.close Mount.context
  cases s.contexts c <;> rfl

/-- The replies tell the contexts. -/
theorem held_run (s : Mount L) (call : Call) (envs : ℕ → Env) :
    (call.run H s envs).2.contexts = held s.contexts call (call.run H s envs).1 := by
  cases call with
  | openFile name createOptions =>
    refine held_opened (Or.inl ⟨_, rfl⟩) rfl (fun p hp => opens_openFile hp) fun err herr => ?_
    refine ⟨err, ?_⟩
    rw [Mount.openFile, herr]
    rfl
  | create name createOptions extraBuffer isReparsePoint =>
    refine held_opened (Or.inr ⟨_, _, _, rfl⟩) rfl (fun p hp => opens_create hp) fun err herr => ?_
    refine ⟨err, ?_⟩
    rw [Mount.create, herr]
    rfl
  | setDelete c deleteFile => exact held_setDelete
  | close c => exact held_close
  | flush => rfl
  | getSecurityByName name => exact keeps_found fun _ => rfl
  | readDirectory c marker length => exact keeps_found fun _ => rfl
  | read c buffer offset => exact keeps_found fun _ => rfl
  | getFileInfo c => exact keeps_found fun _ => keeps_andThen rfl fun _ _ h => h
  | getDirInfoByName c name =>
    exact keeps_found fun _ => keeps_found fun _ => keeps_andThen rfl fun _ _ h => h
  | overwrite c allocationSize => exact keeps_found fun _ => keeps_andThen rfl fun _ _ h => h
  | setFileSize c newSize => exact keeps_found fun _ => keeps_andThen rfl fun _ _ h => h
  | setBasicInfo c access write change =>
    refine keeps_found fun _ => keeps_found fun new => ?_
    cases new with
    | none => rfl
    | some new => exact keeps_andThen rfl fun _ _ h => h
  | rename c newName replaceIfExists => exact keeps_found fun _ => keeps_found fun _ => rfl
  | write c data offset fileSize =>
    refine keeps_found fun handle => ?_
    dsimp only
    split
    · exact keeps_andThen rfl fun _ _ h => h
    · exact keeps_andThen rfl fun _ _ h => keeps_andThen h fun _ _ h => h
  | cleanup c name =>
    refine keeps_found fun handle => ?_
    have hflushed : (s.flushed name (envs 0)).contexts = s.contexts := by
      unfold Mount.flushed
      dsimp only
      split <;> rfl
    dsimp only
    split <;> exact hflushed

end Steps

theorem replay_run (H : Host) (calls : List (Call × (ℕ → Env))) : ∀ s : Mount L,
    s.fs.writeBuffer.HasRoom → Careful H s calls →
      (runCalls H s calls).2.fs.writeBuffer.HasRoom ∧
        view (runCalls H s calls).2.fs =
          replay s.contexts (view s.fs) calls (runCalls H s calls).1 := by
  induction calls with
  | nil => exact fun s hroom _ => ⟨hroom, rfl⟩
  | cons head calls ih =>
    obtain ⟨call, envs⟩ := head
    rintro s hroom ⟨hcov, hun, htaken, hrest⟩
    obtain ⟨hroom', hok, herror⟩ := leaves_run hroom hcov hun htaken
    obtain ⟨hroom'', hview⟩ := ih _ hroom' hrest
    rw [held_run] at hview
    refine ⟨hroom'', hview.trans ?_⟩
    show _ = replay (held s.contexts call (call.run H s envs).1) _ calls _
    cases hres : (call.run H s envs).1 with
    | ok reply => rw [hok reply hres]
    | error err => rw [herror err hres]

theorem runCalls_append (H : Host) (before calls : List (Call × (ℕ → Env))) : ∀ s : Mount L,
    (runCalls H s (before ++ calls)).2 = (runCalls H (runCalls H s before).2 calls).2 := by
  induction before with
  | nil => exact fun _ => rfl
  | cons head before ih => exact fun s => ih _

theorem careful_append (H : Host) (before calls : List (Call × (ℕ → Env))) : ∀ s : Mount L,
    Careful H s (before ++ calls) ↔
      Careful H s before ∧ Careful H (runCalls H s before).2 calls := by
  induction before with
  | nil => exact fun s => ⟨fun h => ⟨trivial, h⟩, And.right⟩
  | cons head before ih =>
    intro s
    refine ⟨fun ⟨hcov, hun, htaken, h⟩ => ?_, fun ⟨⟨hcov, hun, htaken, h⟩, hrest⟩ => ?_⟩
    · obtain ⟨hbefore, hrest⟩ := (ih _).mp h
      exact ⟨⟨hcov, hun, htaken, hbefore⟩, hrest⟩
    · exact ⟨hcov, hun, htaken, (ih _).mpr ⟨h, hrest⟩⟩

def Syncs : Call → Prop
  | .flush | .cleanup .. | .close _ => True
  | _ => False

theorem found_ok {α β : Type} {s : Mount L} {found : Except Failure α} {next : α → Result L β}
    {b : β} (h : (s.found found next).1 = .ok b) : ∃ a, found = .ok a := by
  cases found with
  | error err => cases h
  | ok a => exact ⟨a, rfl⟩

theorem synced_empty {s : Mount L} {envs : ℕ → Env} {call : Call} {reply : Reply}
    (hroom : s.fs.writeBuffer.HasRoom) (hsyncs : Syncs call) (htaken : Taken H s envs call)
    (hok : (call.run H s envs).1 = .ok reply) :
    (call.run H s envs).2.fs.writeBuffer.content = [] := by
  cases call with
  | flush => exact (leaves_flushed hroom htaken).2
  | cleanup c name =>
    obtain ⟨u, hu⟩ := replied_ok hok
    obtain ⟨handle, hc⟩ := found_ok hu
    exact (cleanup_clean hroom (context_ok hc) htaken).1
  | close c =>
    obtain ⟨u, hu⟩ := replied_ok hok
    obtain ⟨handle, hc⟩ := found_ok hu
    have hempty := (leaves_flushed hroom htaken).2
    show (s.close c (envs 0)).2.fs.writeBuffer.content = []
    unfold Mount.close
    rw [hc]
    exact hempty
  | _ => exact hsyncs.elim

def hostExample : Host where
  winfsp := ⟨fun _ => true, fun _ _ _ => none, fun _ cursor => cursor⟩
  checks := true
  indexFromPath := fun _ => 0

def envsExample (_ : ℕ) : Env := .steady 0 none

def callsExample : List (Call × (ℕ → Env)) :=
  [(.create [92, 102] 0x40 none false, envsExample), (.write 0 [7, 8] 0 0, envsExample),
    (.create [92, 116] 0x42 none false, envsExample), (.setDelete 1 true, envsExample),
    (.cleanup 1 none, envsExample)]

theorem smallestPage_pos : 0 < 4 := of_decide_eq_true rfl

def mountExample : Mount ⟨4, 4, smallestPage_pos⟩ :=
  ⟨.new (.withFiles []) 4 0 none, fun _ => none, 0⟩

def ends : Call → Option ℕ
  | .cleanup c _ | .close c => some c
  | _ => none

def forgotten (s : Mount L) : Mount L :=
  { s with fs := { s.fs with writeBuffer := s.fs.writeBuffer.clean } }

/-- The buffer is emptied before the request is sent. -/
theorem flush_failed {fs : FileSystem L} {env : Env} {err : FsModelError}
    (h : (fs.flushWriteBuffer env).1 = .error err) :
    (fs.flushWriteBuffer env).2 = { fs with writeBuffer := fs.writeBuffer.clean } := by
  unfold FileSystem.flushWriteBuffer WriteBuffer.stageFlush at h ⊢
  split at h
  · cases h
  · rename_i hc
    rw [if_neg hc]
    simp only [Option.toList, FileSystem.uploadAll] at h ⊢
    cases hres : (FileSystem.upload { fs with writeBuffer := fs.writeBuffer.clean }
        fs.writeBuffer.getContent env).1 with
    | error e =>
      rw [show FileSystem.upload _ _ _ = (.error e, _) from
        Prod.ext hres (FileSystem.upload_error hres)]
    | ok u =>
      rw [show FileSystem.upload _ _ _ = (.ok u, _) from Prod.ext hres rfl] at h
      cases h

theorem flush_clean {fs : FileSystem L} {env : Env} (h : fs.writeBuffer.content = []) :
    fs.flushWriteBuffer env = (.ok (), fs) := by
  unfold FileSystem.flushWriteBuffer WriteBuffer.stageFlush
  rw [if_pos h]
  rfl

theorem flush_forgotten {s : Mount L} {env : Env} {err : FsModelError}
    (h : (s.fs.flushWriteBuffer env).1 = .error err) :
    (s.fs.flushWriteBuffer env).2 = ((forgotten s).fs.flushWriteBuffer env).2 := by
  have hclean : (forgotten s).fs.flushWriteBuffer env = (.ok (), (forgotten s).fs) :=
    flush_clean (WriteBuffer.content_clean _)
  rw [hclean]
  exact flush_failed h

theorem cleanup_forgotten {s : Mount L} {c : ℕ} {handle : Handle} {name : Option (List UInt16)}
    {envs : ℕ → Env} {err : FsModelError} (hc : s.context c = .ok handle)
    (hfail : (s.fs.flushWriteBuffer (envs 0)).1 = .error err) :
    (s.cleanup c name envs).1 = .ok () ∧
      s.cleanup c name envs = (forgotten s).cleanup c name envs := by
  have hsame : s.flushed name (envs 0) = (forgotten s).flushed name (envs 0) := by
    unfold Mount.flushed
    rw [flush_forgotten hfail]
    rfl
  have hc' : (forgotten s).context c = .ok handle := hc
  unfold Mount.cleanup
  rw [hc, hc']
  simp only [Mount.found, hsame, and_true]
  split <;> rfl

theorem close_forgotten {s : Mount L} {c : ℕ} {handle : Handle} {env : Env} {err : FsModelError}
    (hc : s.context c = .ok handle) (hfail : (s.fs.flushWriteBuffer env).1 = .error err) :
    (s.close c env).1 = .ok () ∧ s.close c env = (forgotten s).close c env := by
  have hc' : (forgotten s).context c = .ok handle := hc
  unfold Mount.close
  rw [hc, hc']
  simp only [Mount.found, flush_forgotten hfail]
  exact ⟨trivial, rfl⟩

/-- If what waits cannot be sent when a file is cleaned up or closed, the run goes on as if it had
never been written: the call answers as ever, and so does every call after it. -/
theorem unsent_bytes_forgotten (H : Host) (s : Mount L) (call : Call) (c : ℕ)
    (hends : ends call = some c) (handle : Handle) (hopen : s.contexts c = some handle)
    (envs : ℕ → Env) (err : FsModelError)
    (hfail : (s.fs.flushWriteBuffer (envs 0)).1 = .error err)
    (calls : List (Call × (ℕ → Env))) :
    (call.run H s envs).1 = .ok .done ∧
      runCalls H s ((call, envs) :: calls) = runCalls H (forgotten s) ((call, envs) :: calls) := by
  have hc : s.context c = .ok handle := by rw [Mount.context, hopen]
  have hrun : (call.run H s envs).1 = .ok .done ∧
      call.run H s envs = call.run H (forgotten s) envs := by
    cases call with
    | cleanup c' name =>
      obtain rfl : c' = c := Option.some.inj hends
      obtain ⟨hdone, hsame⟩ := cleanup_forgotten hc hfail
      exact ⟨congrArg (Except.map _) hdone, congrArg (replied _) hsame⟩
    | close c' =>
      obtain rfl : c' = c := Option.some.inj hends
      obtain ⟨hdone, hsame⟩ := close_forgotten hc hfail
      exact ⟨congrArg (Except.map _) hdone, congrArg (replied _) hsame⟩
    | _ => cases hends
  refine ⟨hrun.1, ?_⟩
  simp only [runCalls, hrun.2]

theorem unsent_bytes_forgotten_written :
    let s := (runCalls hostExample mountExample (callsExample.take 2)).2
    let failing : ℕ → Env := fun _ => .steady 0 (some (.serverError ""))
    let calls := [(Call.flush, envsExample), (.close 0, envsExample)]
    s.fs.writeBuffer.content = [7, 8] ∧
      runCalls hostExample s ((.cleanup 0 none, failing) :: calls) =
        runCalls hostExample (forgotten s) ((.cleanup 0 none, failing) :: calls) := by
  intro s failing calls
  have hopen : s.contexts 0 = some ⟨[.rootDir, .normal (.text "f")], false⟩ := by decide
  exact ⟨by decide, (unsent_bytes_forgotten hostExample s (.cleanup 0 none) 0 rfl _ hopen failing
    (.serverError "") (by decide) calls).2⟩

end WindowsWriteBack
