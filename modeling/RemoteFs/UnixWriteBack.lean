import RemoteFs.ClientProgramOrder
import RemoteFs.UnixHandles

/-! # What the server has once a file is written out

The kernel's calls through the mount, with the handles resolved from the replies that gave them
out. The bytes of a write may wait in the buffer while other calls go to the server; as long as
these leave the waiting bytes alone, the server ends up where the calls, carried out at once,
would have brought it. -/
namespace UnixWriteBack

open ClientAttributes
open ClientCache
open ClientCalls (Fetched aboutPages_true created_frame fetched_readSymlink
  fetched_readdir uploadAll_frame)
open ClientFileSystem
open ClientMemory
open ClientModeBits
open ClientPageCache
open ClientWriteBack (hasRoom_of_empty view view_of_flushed)
open ClientWriteBuffer
open OsPaths
open RemoteTree
open UnixFrontEnd
open UnixHandles
open WriteLog

variable {L : PageLimits}

def held (table : UInt64 → Option Path) (c : Call) (r : Except Failure Reply) :
    UInt64 → Option Path :=
  match closes c with
  | some fh => Function.update table fh none
  | none =>
    match opens c, handle r with
    | some p, some fh => Function.update table fh (some p)
    | _, _ => table

def target (table : UInt64 → Option Path) (path : Option Path) (fh : UInt64) : Option Path :=
  path.or (table fh)

/-- What a call that was answered so does to the files of the server when it is carried out
at once; a write is of the bytes that the reply counts. -/
def effect (table : UInt64 → Option Path) (t : Nodes) : Call → Reply → Nodes
  | .write path fh offset data, .written n =>
    (target table path fh).elim t fun p => fileStore.apply t ⟨p, offset, data.take n⟩
  | .create parent name _ _, _ => t.write (parent.child name) 0 []
  | .mknod parent name _, _ => t.write (parent.child name) 0 []
  | .fallocate path fh offset _, _ => (target table path fh).elim t fun p => t.write p offset []
  | .openFile p flags, _ =>
    if (Flags.tryToTarget flags.toBitVec).trunc then t.setSize p 0 else t
  | .setattr path fh new, _ =>
    match path.or (fh.bind table), new.size with
    | some p, some n => t.setSize p n
    | _, _ => t
  | .mkdir parent name, _ => Function.update t (parent.child name) (some (.directory 4096))
  | .symlink parent name (.text link), _ =>
    Function.update t (parent.child name) (some (.symlink link))
  | .remove parent name, _ => t.remove (parent.child name)
  | .rename originParent originName parent name, _ =>
    t.rename (originParent.child originName) (parent.child name)
  | .rename2 originParent originName parent name flags, _ =>
    if (renameFlags flags).exchange then
      relocateExchange t (originParent.child originName) (parent.child name)
    else t.rename (originParent.child originName) (parent.child name)
  | _, _ => t

def replay : (UInt64 → Option Path) → Nodes → List (Call × Parts) →
    List (Except Failure Reply) → Nodes
  | table, t, (c, _) :: calls, r :: results =>
    replay (held table c r) (match r with
      | .ok reply => effect table t c reply
      | .error _ => t) calls results
  | _, t, _, _ => t

/-- What `copy_file_range` writes is not in its reply. -/
def Covered : Call → Prop
  | .copyFileRange .. => False
  | .write _ _ _ data => data.length < 2 ^ 32
  | _ => True

def Sends : Call → Prop
  | .write .. | .flush .. | .fsync .. => True
  | .release _ _ flushes => flushes = true
  | _ => False

def Elsewhere (b : WriteBuffer) (p : Path) : Prop := b.content = [] ∨ b.path ≠ p

def Within (b : WriteBuffer) (p : Path) (n : ℕ) : Prop :=
  b.content = [] ∨ b.path ≠ p ∨ b.offset + b.content.length ≤ n

def Outside (b : WriteBuffer) (p : Path) : Prop := b.content = [] ∨ ¬p <+: b.path

def Unaffected (s : Fs L) : Call → Prop
  | .openFile p flags =>
    (Flags.tryToTarget flags.toBitVec).trunc = true → Within s.fs.writeBuffer p 0
  | .setattr path fh new => ∀ p n, path.or (fh.bind s.fileHandlers) = some p →
      new.size = some n → Within s.fs.writeBuffer p n
  | .mkdir parent name | .symlink parent name _ => Elsewhere s.fs.writeBuffer (parent.child name)
  | .remove parent name => Outside s.fs.writeBuffer (parent.child name)
  | .rename originParent originName parent name | .rename2 originParent originName parent name _ =>
    Outside s.fs.writeBuffer (originParent.child originName) ∧
      Outside s.fs.writeBuffer (parent.child name)
  | _ => True

/-- Every call is covered and leaves the waiting bytes alone, and none that sends them fails. -/
def Careful : Fs L → List (Call × Parts) → Prop
  | _, [] => True
  | s, (c, parts) :: calls => Covered c ∧ Unaffected s c ∧
      (Sends c → ∃ reply, (c.run s parts).1 = .ok reply) ∧ Careful (c.run s parts).2 calls

/-! Changes of the tree and the waiting bytes -/

section Trees

variable {b : WriteBuffer} {t : Nodes} {p q : Path} {n : ℕ}

/-- The bytes may come before a change or after it. -/
theorem view_change {f : Nodes → Nodes} (h : b.content = [] ∨
    (f t).write b.path b.offset b.content = f (t.write b.path b.offset b.content)) :
    b.view fileStore (f t) = f (b.view fileStore t) := by
  by_cases hc : b.content = []
  · rw [WriteBuffer.view_of_empty _ hc, WriteBuffer.view_of_empty _ hc]
  · have hd : b.getContent.data ≠ [] := hc
    rw [WriteBuffer.view, WriteBuffer.view, apply_of_ne _ _ hd, apply_of_ne _ _ hd]
    exact h.resolve_left hc

theorem write_write_nil (c : Option Content) (off off' : ℕ) (d : List UInt8) :
    Content.write (Content.write c off' []) off d =
      Content.write (Content.write c off d) off' [] := by
  rcases c with _ | _ | _ | _ <;> simp [Content.write]

theorem created_view (off : ℕ) :
    b.view fileStore (t.write p off []) = (b.view fileStore t).write p off [] := by
  refine view_change (f := fun t => t.write p off []) (Or.inr ?_)
  by_cases hp : p = b.path
  · subst hp
    simp only [Nodes.write, Function.update_self, Function.update_idem, write_write_nil]
  · exact Nodes.write_comm_of_ne t hp _ _ _ _

theorem placed_view {c : Content} (h : Elsewhere b p) :
    b.view fileStore (Function.update t p (some c)) =
      Function.update (b.view fileStore t) p (some c) := by
  refine view_change (f := fun t => Function.update t p (some c)) (h.imp_right fun hne => ?_)
  simp only [Nodes.write, Function.update_of_ne hne]
  exact Function.update_comm hne.symm _ _ _

theorem setSize_view (h : Within b p n) (hp : t p ≠ none) :
    b.view fileStore (t.setSize p n) = (b.view fileStore t).setSize p n :=
  ClientProgramOrder.setSize_view h hp

theorem remove_view (h : Outside b p) :
    b.view fileStore (t.remove p) = (b.view fileStore t).remove p :=
  ClientProgramOrder.remove_view h

theorem rename_view (hp : Outside b p) (hq : Outside b q) :
    b.view fileStore (t.rename p q) = (b.view fileStore t).rename p q := by
  refine ClientProgramOrder.rename_view ?_
  rcases hp with hc | hp
  · exact Or.inl hc
  · exact hq.imp_right fun hq => Or.inr ⟨hp, hq⟩

theorem exchange_view (hp : Outside b p) (hq : Outside b q) :
    b.view fileStore (relocateExchange t p q) = relocateExchange (b.view fileStore t) p q := by
  refine view_change (f := fun t => relocateExchange t p q) ?_
  rcases hp with hc | hp
  · exact Or.inl hc
  refine hq.imp_right fun hq => ?_
  funext r
  by_cases hr : r = b.path
  · subst hr
    simp [Nodes.write, relocateExchange, hp, hq]
  · have ha : ∀ rest, p ++ rest ≠ b.path := fun rest he => hp (he ▸ List.prefix_append p rest)
    have hb : ∀ rest, q ++ rest ≠ b.path := fun rest he => hq (he ▸ List.prefix_append q rest)
    simp only [Nodes.write, relocateExchange, Function.update_of_ne hr,
      Function.update_of_ne (ha _), Function.update_of_ne (hb _)]

theorem mkdir_nodes {r r' : Remote} {now : Timestamp} (h : r.mkdir p now = some r') :
    r'.nodes = Function.update r.nodes p (some (.directory 4096)) := by
  unfold Remote.mkdir at h
  split at h
  · cases h
  · injection h with h; rw [← h]

theorem createSymlink_nodes {r r' : Remote} {link : String} {now : Timestamp}
    (h : r.createSymlink p link now = some r') :
    r'.nodes = Function.update r.nodes p (some (.symlink link)) := by
  unfold Remote.createSymlink at h
  split at h
  · cases h
  · injection h with h; rw [← h]

end Trees

/-! What a call leaves -/

/-- After a reply, what `e` says of it; after an error, what there was. -/
structure Leaves {α : Type} (s : Fs L) (r : UnixFrontEnd.Result L α) (e : α → Nodes) : Prop where
  room : r.2.fs.writeBuffer.HasRoom
  ok : ∀ a, r.1 = .ok a → view r.2.fs = e a
  error : ∀ err, r.1 = .error err → view r.2.fs = view s.fs

section Steps

variable {α β : Type} {s s' : Fs L} {p : Path} {env : Env} {r : UnixFrontEnd.Result L α}
variable {e : α → Nodes} {next : Path → UnixFrontEnd.Result L α} {path : Except Failure Path}

theorem view_frame {fs done : FileSystem L} (hremote : done.remote = fs.remote)
    (hbuffer : done.writeBuffer = fs.writeBuffer) : view done = view fs := by
  rw [view, view, hremote, hbuffer]

theorem leaves_on {done : Except FsModelError α × FileSystem L}
    (hroom : done.2.writeBuffer.HasRoom) (hok : ∀ a, done.1 = .ok a → view done.2 = e a)
    (herror : ∀ err, done.1 = .error err → view done.2 = view s.fs) : Leaves s (s.on done) e := by
  obtain ⟨err | a, fs⟩ := done
  · exact ⟨hroom, nofun, fun _ _ => herror err rfl⟩
  · exact ⟨hroom, fun a' h => by obtain rfl := Except.ok.inj h; exact hok _ rfl, nofun⟩

theorem leaves_fetched {done : Except FsModelError α × FileSystem L}
    (hroom : s.fs.writeBuffer.HasRoom) (hremote : done.2.remote = s.fs.remote)
    (hbuffer : done.2.writeBuffer = s.fs.writeBuffer) :
    Leaves s (s.on done) fun _ => view s.fs :=
  leaves_on (by rw [hbuffer]; exact hroom) (fun _ _ => view_frame hremote hbuffer)
    fun _ _ => view_frame hremote hbuffer

theorem leaves_refused (hroom : s.fs.writeBuffer.HasRoom) (err : Failure) :
    Leaves s (.error err, s) e := ⟨hroom, nofun, fun _ _ => rfl⟩

theorem leaves_map {e : β → Nodes} (f : α → β) (h : Leaves s r fun a => e (f a)) :
    Leaves s (r.1.map f, r.2) e := by
  obtain ⟨hroom, hok, herror⟩ := h
  obtain ⟨err | a, s'⟩ := r
  · exact ⟨hroom, nofun, fun _ _ => herror err rfl⟩
  · exact ⟨hroom, fun b h => by obtain rfl := Except.ok.inj h; exact hok a rfl, nofun⟩

theorem leaves_replied {e : Reply → Nodes} {reply : α → Reply}
    (h : Leaves s r fun a => e (reply a)) : Leaves s (replied reply r) e := leaves_map reply h

theorem leaves_atPath (hroom : s.fs.writeBuffer.HasRoom)
    (h : ∀ p, path = .ok p → Leaves s (next p) e) : Leaves s (s.atPath path next) e := by
  cases path with
  | error err => exact leaves_refused hroom err
  | ok p => exact h p rfl

theorem leaves_withType {mode : UInt32} (hroom : s.fs.writeBuffer.HasRoom) (h : Leaves s r e) :
    Leaves s (s.withType mode r) e := by
  unfold Fs.withType
  split
  · exact leaves_refused hroom _
  · exact h

theorem leaves_andThen {next : α → Fs L → UnixFrontEnd.Result L β} {e : β → Nodes} {t : Nodes}
    (h : Leaves s r fun _ => t)
    (hnext : ∀ a s', (next a s').2.fs = s'.fs ∧ ∃ b, (next a s').1 = .ok b ∧ e b = t) :
    Leaves s (Fs.andThen r next) e := by
  obtain ⟨hroom, hok, herror⟩ := h
  obtain ⟨err | a, s'⟩ := r
  · exact ⟨hroom, nofun, fun _ _ => herror err rfl⟩
  · obtain ⟨hfs, b, hb, he⟩ := hnext a s'
    refine ⟨?_, fun b' h => ?_, fun err h => ?_⟩
    · exact (congrArg (fun fs : FileSystem L => fs.writeBuffer.HasRoom) hfs).mpr hroom
    · obtain rfl := Except.ok.inj (hb.symm.trans h)
      rw [he, ← hok a rfl]
      exact congrArg view hfs
    · rw [Fs.andThen, hb] at h
      cases h

theorem leaves_opened (hroom : s.fs.writeBuffer.HasRoom) :
    Leaves s (s.opened p) fun _ => view s.fs := ⟨hroom, fun _ _ => rfl, nofun⟩

def made (fs : FileSystem L) (p : Path) (outcome : Option Remote)
    (item : Attributes → OsString → CacheItem L) (env : Env) :
    Except FsModelError Attributes × FileSystem L :=
  match pathToString p >>= fun _ => request (env 0) (withAttributes p outcome) with
  | .error e => (.error e, fs)
  | .ok (a, r) => (.ok a, { fs with remote := r }.putNamed p (item a) (env 1).toMoment)

theorem leaves_made {outcome : Option Remote} {item : Attributes → OsString → CacheItem L}
    {t : Nodes} (hroom : s.fs.writeBuffer.HasRoom)
    (h : ∀ r, outcome = some r → s.fs.writeBuffer.view fileStore r.nodes = t) :
    Leaves s (s.on (made s.fs p outcome item env)) fun _ => t := by
  unfold made
  split
  · exact leaves_on hroom nofun fun _ _ => rfl
  · rename_i a r hsent
    obtain ⟨hmade, -⟩ := FileSystem.withAttributes_some (FileSystem.sent_ok.mp hsent).2.2
    refine leaves_on ?_ (fun _ _ => ?_) nofun
    · dsimp only
      rw [created_frame.2]
      exact hroom
    · rw [view, created_frame.2, (putNamed_frame _ _ _ _).1]
      exact h r hmade

theorem leaves_file (hroom : s.fs.writeBuffer.HasRoom) (off : ℕ) :
    Leaves s (s.on (s.fs.createFile p off [] env)) fun _ => (view s.fs).write p off [] := by
  refine leaves_made hroom fun r hr => ?_
  rw [Remote.writeFile_nodes hr]
  exact created_view off

theorem leaves_createFile (hroom : s.fs.writeBuffer.HasRoom) (off : ℕ) :
    Leaves s (s.createFile p off env) fun _ => (view s.fs).write p off [] :=
  leaves_map _ (leaves_file hroom off)

theorem leaves_directory (hroom : s.fs.writeBuffer.HasRoom) (h : Elsewhere s.fs.writeBuffer p) :
    Leaves s (s.on (s.fs.mkdir p env)) fun _ =>
      Function.update (view s.fs) p (some (.directory 4096)) := by
  refine leaves_made hroom fun r hr => ?_
  rw [mkdir_nodes hr]
  exact placed_view h

theorem leaves_mkdir {parent : Path} {name : OsString} (hroom : s.fs.writeBuffer.HasRoom)
    (h : Elsewhere s.fs.writeBuffer (parent.child name)) :
    Leaves s (s.mkdir parent name env) fun _ =>
      Function.update (view s.fs) (parent.child name) (some (.directory 4096)) :=
  leaves_map _ (leaves_directory hroom h)

theorem leaves_createSymlink {link : String} (hroom : s.fs.writeBuffer.HasRoom)
    (h : Elsewhere s.fs.writeBuffer p) :
    Leaves s (s.on (s.fs.createSymlink p link env)) fun _ =>
      Function.update (view s.fs) p (some (.symlink link)) := by
  refine leaves_made hroom fun r hr => ?_
  rw [createSymlink_nodes hr]
  exact placed_view h

theorem leaves_setAttributes {new : SetAttr} (hroom : s.fs.writeBuffer.HasRoom)
    (h : ∀ n, new.size = some n → Within s.fs.writeBuffer p n) :
    Leaves s (s.on (s.fs.setAttributes p new env)) fun _ =>
      new.size.elim (view s.fs) fun n => (view s.fs).setSize p n := by
  cases hres : (s.fs.setAttributes p new env).1 with
  | error err =>
    have hleft := FileSystem.setAttributes_error hres
    exact leaves_on (by rw [hleft]; exact hroom)
      (fun a ha => by rw [hres] at ha; cases ha) fun _ _ => by rw [hleft]
  | ok a =>
    obtain ⟨r, hset, -, hrun⟩ := FileSystem.setAttributes_ok hres
    rw [hrun]
    refine leaves_on hroom (fun _ _ => ?_) nofun
    cases hsize : new.size with
    | none =>
      rw [view, FileSystem.onCache_remote, FileSystem.onCache_writeBuffer,
        Remote.setAttributes_nodes hsize hset]
      rfl
    | some n =>
      obtain ⟨hn, b, hb⟩ := Remote.setAttributes_size hsize hset
      rw [view, FileSystem.onCache_remote, FileSystem.onCache_writeBuffer, hn]
      exact setSize_view (h n hsize) (by rw [hb]; simp)

theorem leaves_remove (hroom : s.fs.writeBuffer.HasRoom) (h : Outside s.fs.writeBuffer p) :
    Leaves s (s.on (s.fs.remove p env)) fun _ => (view s.fs).remove p := by
  cases hres : (s.fs.remove p env).1 with
  | error err =>
    have hleft := FileSystem.remove_error hres
    exact leaves_on (by rw [hleft]; exact hroom)
      (fun a ha => by rw [hres] at ha; cases ha) fun _ _ => by rw [hleft]
  | ok u =>
    obtain ⟨r, hrem, hrun⟩ := FileSystem.remove_ok hres
    rw [hrun]
    refine leaves_on hroom (fun _ _ => ?_) nofun
    rw [view, FileSystem.onCache_remote, FileSystem.onCache_writeBuffer, Remote.remove_nodes hrem]
    exact remove_view h

theorem leaves_rename {a b : Path} {flags : RenameFlags} (hroom : s.fs.writeBuffer.HasRoom)
    (ha : Outside s.fs.writeBuffer a) (hb : Outside s.fs.writeBuffer b) :
    Leaves s (s.on (s.fs.rename a b flags env)) fun _ =>
      if flags.exchange then relocateExchange (view s.fs) a b else (view s.fs).rename a b := by
  cases hres : (s.fs.rename a b flags env).1 with
  | error err =>
    have hleft := FileSystem.rename_error hres
    exact leaves_on (by rw [hleft]; exact hroom)
      (fun a ha => by rw [hres] at ha; cases ha) fun _ _ => by rw [hleft]
  | ok u =>
    obtain ⟨r, hren, hrun⟩ := FileSystem.rename_ok hres
    rw [hrun]
    refine leaves_on hroom (fun _ _ => ?_) nofun
    rw [view, FileSystem.onCache_remote, FileSystem.onCache_writeBuffer]
    rcases (Remote.rename_cases hren).2 with ⟨hflag, -, -, -, rfl⟩ | ⟨hflag, -, -, rfl⟩
    · rw [if_pos hflag]
      exact exchange_view ha hb
    · rw [if_neg (by simp [hflag])]
      exact rename_view ha hb

theorem leaves_write {off : ℕ} {data : List UInt8} (hroom : s.fs.writeBuffer.HasRoom)
    (hok : ∃ n, (s.fs.writeFile p off data env).1 = .ok n) :
    Leaves s (s.on (s.fs.writeFile p off data env)) fun n =>
      fileStore.apply (view s.fs) ⟨p, off, data.take n⟩ := by
  obtain ⟨n, hn⟩ := hok
  obtain ⟨hroom', hview⟩ := ClientProgramOrder.call_effect hroom
    (show ((ClientWriteBack.Call.write p off data).run s.fs env).1 = .ok n from hn)
  refine leaves_on hroom' (fun a ha => ?_) fun err he => ?_
  · obtain rfl := Except.ok.inj (hn.symm.trans ha)
    exact hview
  · rw [hn] at he
    cases he

theorem leaves_flush (hroom : s.fs.writeBuffer.HasRoom)
    (hok : (s.flushBuffer env).1 = .ok ()) :
    Leaves s (s.flushBuffer env) (fun _ => view s.fs) ∧
      (s.flushBuffer env).2.fs.writeBuffer.content = [] := by
  have hn : (s.fs.flushWriteBuffer env).1 = .ok () := by
    unfold Fs.flushBuffer Fs.on at hok
    cases hres : (s.fs.flushWriteBuffer env).1 with
    | error err => rw [hres] at hok; cases hok
    | ok u => rfl
  have hcall : (ClientWriteBack.Call.flush.run s.fs env).1 = .ok 0 := by
    simp only [ClientWriteBack.Call.run, hn]
    rfl
  obtain ⟨hroom', hview⟩ := ClientProgramOrder.call_effect hroom hcall
  refine ⟨leaves_on hroom' (fun _ _ => hview) fun err he => ?_, ?_⟩
  · rw [hn] at he
    cases he
  have hframe := uploadAll_frame s.fs.writeBuffer.stageFlush.1.toList
    { s.fs with writeBuffer := s.fs.writeBuffer.stageFlush.2 } env
  show (FileSystem.uploadAll _ _ env).2.writeBuffer.content = []
  rw [hframe.2]
  exact WriteBuffer.stageFlush_content _

theorem filePath_ok {path : Option Path} {fh : UInt64} {missing : Failure}
    (h : s.filePath path fh missing = .ok p) : target s.fileHandlers path fh = some p := by
  unfold Fs.filePath at h
  cases path with
  | some q => obtain rfl := Except.ok.inj h; rfl
  | none =>
    cases ht : s.fileHandlers fh with
    | none => simp only [ht] at h; cases h
    | some q => simp only [ht] at h; obtain rfl := Except.ok.inj h; exact ht

theorem attrPath_ok {path : Option Path} {fh : Option UInt64}
    (h : s.attrPath path fh = .ok p) : path.or (fh.bind s.fileHandlers) = some p := by
  cases path with
  | some q => obtain rfl := Except.ok.inj h; rfl
  | none =>
    cases fh with
    | none => cases h
    | some fh => exact filePath_ok h

theorem replied_ok {reply : α → Reply} {a : Reply} (h : (replied reply r).1 = .ok a) :
    ∃ b, r.1 = .ok b := by
  obtain ⟨err | b, s'⟩ := r
  · cases h
  · exact ⟨b, rfl⟩

theorem on_ok {done : Except FsModelError α × FileSystem L} {a : α} (h : (s.on done).1 = .ok a) :
    done.1 = .ok a := by
  obtain ⟨err | b, fs⟩ := done
  · cases h
  · obtain rfl := Except.ok.inj h
    rfl

theorem leaves_forget (hroom : s.fs.writeBuffer.HasRoom) :
    Leaves s (.ok Reply.done, s.forget p) fun _ => view s.fs := ⟨hroom, fun _ _ => rfl, nofun⟩

theorem batchForget_frame (paths : List Path) : ∀ s : Fs L,
    (s.batchForget paths).fs.remote = s.fs.remote ∧
      (s.batchForget paths).fs.writeBuffer = s.fs.writeBuffer := by
  induction paths with
  | nil => exact fun _ => ⟨rfl, rfl⟩
  | cons p paths ih => exact fun s => ih (s.forget p)

theorem readdir_frame (fs : FileSystem L) (p : Path) (env : Env) :
    (fs.readdir p env).2.remote = fs.remote ∧
      (fs.readdir p env).2.writeBuffer = fs.writeBuffer := by
  have h : Fetched [] 0 (fun _ => True) (fun _ => True) fs (fs.readdir p env).2 :=
    fetched_readdir aboutPages_true (fun _ => Nat.zero_le _) (fun _ _ => trivial)
      (fun _ _ _ => trivial) p
  exact ⟨h.remote, h.writeBuffer⟩

theorem readSymlink_frame (fs : FileSystem L) (p : Path) (env : Env) :
    (fs.readSymlink p env).2.remote = fs.remote ∧
      (fs.readSymlink p env).2.writeBuffer = fs.writeBuffer := by
  have h : Fetched [] 0 (fun _ => True) (fun _ => True) fs (fs.readSymlink p env).2 :=
    fetched_readSymlink aboutPages_true (fun _ => Nat.zero_le _) p
  exact ⟨h.remote, h.writeBuffer⟩

theorem leaves_getattr {path : Except Failure Path} (hroom : s.fs.writeBuffer.HasRoom) :
    Leaves s (s.atPath path fun p =>
      let done := s.on (s.fs.getAttributes p env)
      (done.1.map fileAttr, done.2)) fun _ => view s.fs :=
  leaves_atPath hroom fun p _ => leaves_map _ (leaves_fetched hroom
    (getAttributes_frame s.fs p env).1 (getAttributes_frame s.fs p env).2.2)

theorem Leaves.congr {e' : α → Nodes} (h : Leaves s r e) (he : ∀ a, r.1 = .ok a → e a = e' a) :
    Leaves s r e' := ⟨h.room, fun a ha => (h.ok a ha).trans (he a ha), h.error⟩

theorem atPath_ok {a : α} (h : (s.atPath path next).1 = .ok a) :
    ∃ p, path = .ok p ∧ s.atPath path next = next p := by
  cases path with
  | error err => cases h
  | ok p => exact ⟨p, rfl, rfl⟩

/-- A write counts no more bytes than it has, so its count fits a reply. -/
theorem leaves_written {path : Option Path} {fh : UInt64} {offset : ℕ} {data : List UInt8}
    (hroom : s.fs.writeBuffer.HasRoom) (hsize : data.length < 2 ^ 32)
    (hok : ∃ n, (s.write path fh offset data env).1 = .ok n) :
    Leaves s (s.write path fh offset data env) fun n =>
      (target s.fileHandlers path fh).elim (view s.fs) fun p =>
        fileStore.apply (view s.fs) ⟨p, offset, data.take n⟩ := by
  obtain ⟨n, hn⟩ := hok
  obtain ⟨p, hp, hrun⟩ := atPath_ok hn
  rw [filePath_ok hp]
  refine leaves_atPath hroom fun p' hp' => ?_
  obtain rfl := Except.ok.inj (hp.symm.trans hp')
  have hdone : ∃ n, (s.fs.writeFile p offset data env).1 = .ok n := by
    rw [Fs.write, hrun] at hn
    cases hres : (s.fs.writeFile p offset data env).1 with
    | error err => simp only [Fs.on, hres] at hn; cases hn
    | ok n => exact ⟨n, rfl⟩
  refine leaves_map _ ((leaves_write hroom hdone).congr fun a ha => ?_)
  have hlen := s.fs.writeBuffer.stageWrite_written_le p offset data
  rw [← (FileSystem.writeFile_ok (on_ok ha)).1] at hlen
  simp only [Option.elim, Nat.mod_eq_of_lt (Nat.lt_of_le_of_lt hlen hsize)]

structure Synced (s : Fs L) {α : Type} (r : UnixFrontEnd.Result L α) : Prop where
  leaves : Leaves s r fun _ => view s.fs
  empty : r.2.fs.writeBuffer.content = []

theorem synced_flush {path : Option Path} {fh : UInt64} (hroom : s.fs.writeBuffer.HasRoom)
    (hok : ∃ u, (s.flush path fh env).1 = .ok u) : Synced s (s.flush path fh env) := by
  obtain ⟨u, hu⟩ := hok
  obtain ⟨p, -, hrun⟩ := atPath_ok hu
  rw [Fs.flush, hrun] at hu ⊢
  obtain ⟨hleaves, hempty⟩ := leaves_flush hroom hu
  exact ⟨hleaves, hempty⟩

theorem synced_release {path : Option Path} {fh : UInt64} (hroom : s.fs.writeBuffer.HasRoom)
    (hok : ∃ u, (s.release path fh true env).1 = .ok u) :
    Synced s (s.release path fh true env) := by
  obtain ⟨u, hu⟩ := hok
  obtain ⟨p, -, hrun⟩ := atPath_ok hu
  rw [Fs.release, hrun] at hu ⊢
  obtain ⟨⟨hroom', hok, herror⟩, hempty⟩ := leaves_flush (s := s.releaseHandle fh) hroom hu
  exact ⟨⟨hroom', hok, herror⟩, hempty⟩

theorem synced_fsync {path : Option Path} {fh : UInt64} (hroom : s.fs.writeBuffer.HasRoom)
    (hok : ∃ u, (s.fsync path fh env).1 = .ok u) : Synced s (s.fsync path fh env) := by
  obtain ⟨u, hu⟩ := hok
  unfold Fs.fsync at hu ⊢
  cases hres : (s.flushBuffer env).1 with
  | error err =>
    rw [show s.flushBuffer env = (.error err, (s.flushBuffer env).2) from Prod.ext hres rfl] at hu
    cases hu
  | ok u' =>
    obtain ⟨hleaves, hempty⟩ := leaves_flush hroom hres
    have hview := hleaves.ok u' hres
    rw [show s.flushBuffer env = (.ok u', (s.flushBuffer env).2) from Prod.ext hres rfl] at hu ⊢
    obtain ⟨p, -, hrun⟩ := atPath_ok hu
    rw [Fs.andThen, hrun]
    refine ⟨⟨hleaves.room, fun _ _ => hview, fun err herr => ?_⟩, hempty⟩
    cases herr

/-- The step lemma: a call that is answered has its effect on the server with the waiting
bytes. -/
theorem leaves_run {c : Call} {parts : Parts} (hroom : s.fs.writeBuffer.HasRoom)
    (hcov : Covered c) (hun : Unaffected s c)
    (hsends : Sends c → ∃ reply, (c.run s parts).1 = .ok reply) :
    Leaves s (c.run s parts) (effect s.fileHandlers (view s.fs) c) := by
  cases c with
  | lookup parent name =>
    exact leaves_replied (leaves_map _ (leaves_fetched hroom (getAttributes_frame _ _ _).1
      (getAttributes_frame _ _ _).2.2))
  | forget p => exact leaves_forget hroom
  | fsyncdir p fh => exact leaves_forget hroom
  | batchForget paths =>
    obtain ⟨hremote, hbuffer⟩ := batchForget_frame paths s
    refine ⟨?_, fun _ _ => view_frame hremote hbuffer, nofun⟩
    exact hbuffer ▸ hroom
  | getattr path fh => exact leaves_replied (leaves_getattr hroom)
  | setattr path fh new =>
    refine leaves_replied (leaves_atPath hroom fun p hp => ?_)
    have hpath := attrPath_ok hp
    refine leaves_map _ ?_
    have hset : Leaves s (s.on (s.fs.setAttributes p new parts.rest)) _ :=
      leaves_setAttributes hroom (hun p · hpath)
    simp only [effect, hpath]
    cases hsize : new.size with
    | none => rw [hsize] at hset; exact hset
    | some n => rw [hsize] at hset; exact hset
  | mknod parent name mode =>
    exact leaves_replied (leaves_withType hroom (leaves_createFile hroom 0))
  | create parent name mode flags =>
    refine leaves_replied (leaves_withType hroom ?_)
    split
    · exact leaves_refused hroom _
    · exact leaves_andThen (leaves_createFile hroom 0) fun _ _ => ⟨rfl, _, rfl, rfl⟩
  | openFile p flags =>
    refine leaves_replied ?_
    unfold Fs.openFile
    dsimp only
    split
    · exact leaves_refused hroom _
    · split
      · rename_i htrunc
        have hset : Leaves s (s.on (s.fs.setAttributes p (.ofSize 0) parts.rest)) _ :=
          leaves_setAttributes hroom fun n hn => by
            obtain rfl := Option.some.inj hn
            exact hun htrunc
        refine leaves_andThen hset fun _ _ => ⟨rfl, _, rfl, ?_⟩
        simp only [effect, htrunc, if_true]
        rfl
      · rename_i htrunc
        simp only [effect, htrunc]
        exact leaves_opened hroom
  | opendir p => exact leaves_replied (leaves_opened hroom)
  | read path fh offset size =>
    refine leaves_replied (leaves_atPath hroom fun p _ => ?_)
    exact leaves_fetched hroom (ClientCopyRange.readLoop_frame _ _ _ _ _ _).1
      (ClientCopyRange.readLoop_frame _ _ _ _ _ _).2
  | write path fh offset data =>
    obtain ⟨reply, hreply⟩ := hsends trivial
    exact leaves_replied (leaves_written hroom hcov (replied_ok hreply))
  | flush path fh =>
    obtain ⟨reply, hreply⟩ := hsends trivial
    exact leaves_replied (synced_flush hroom (replied_ok hreply)).leaves
  | release path fh flushes =>
    cases flushes with
    | true =>
      obtain ⟨reply, hreply⟩ := hsends rfl
      exact leaves_replied (synced_release hroom (replied_ok hreply)).leaves
    | false =>
      exact leaves_replied (leaves_atPath hroom fun p _ => ⟨hroom, fun _ _ => rfl, nofun⟩)
  | releasedir p fh => exact ⟨hroom, fun _ _ => rfl, nofun⟩
  | fsync path fh =>
    obtain ⟨reply, hreply⟩ := hsends trivial
    exact leaves_replied (synced_fsync hroom (replied_ok hreply)).leaves
  | copyFileRange => exact hcov.elim
  | fallocate path fh offset mode =>
    refine leaves_replied (leaves_atPath hroom fun p hp => leaves_withType hroom ?_)
    refine leaves_andThen (leaves_createFile hroom offset) fun _ _ => ⟨rfl, _, rfl, ?_⟩
    simp only [effect, filePath_ok hp, Option.elim]
  | mkdir parent name => exact leaves_replied (leaves_mkdir hroom hun)
  | remove parent name => exact leaves_replied (leaves_remove hroom hun)
  | rename originParent originName parent name =>
    exact leaves_replied (leaves_rename hroom hun.1 hun.2)
  | rename2 originParent originName parent name flags =>
    exact leaves_replied (leaves_rename hroom hun.1 hun.2)
  | symlink parent name linkPath =>
    cases linkPath with
    | raw bytes => exact leaves_refused hroom _
    | text link => exact leaves_replied (leaves_map _ (leaves_createSymlink hroom hun))
  | readlink p =>
    exact leaves_replied (leaves_fetched hroom (readSymlink_frame _ _ _).1
      (readSymlink_frame _ _ _).2)
  | readdir p offset =>
    exact leaves_replied (leaves_fetched hroom (readdir_frame _ _ _).1 (readdir_frame _ _ _).2)
  | readdirplus p offset =>
    exact leaves_replied (leaves_map _ (leaves_fetched hroom (readdir_frame _ _ _).1
      (readdir_frame _ _ _).2))

end Steps

/-- The replies tell the table of open files. -/
theorem held_run (s : Fs L) (c : Call) (parts : Parts) :
    (c.run s parts).2.fileHandlers = held s.fileHandlers c (c.run s parts).1 := by
  have hchanges := run_changes s c parts
  generalize c.run s parts = done at hchanges ⊢
  obtain ⟨r, s'⟩ := done
  cases hchanges with
  | keeps hc hr hk =>
    simp only [held, hc, hr]
    exact hk.2.trans (by cases opens c <;> rfl)
  | opened p hc ho hr hnext htable =>
    simp only [held, hc, ho, hr]
    exact htable
  | closed fh hc hr hnext htable =>
    simp only [held, hc]
    exact htable

theorem replay_run (calls : List (Call × Parts)) : ∀ s : Fs L, s.fs.writeBuffer.HasRoom →
    Careful s calls → (runCalls s calls).2.fs.writeBuffer.HasRoom ∧
      view (runCalls s calls).2.fs =
        replay s.fileHandlers (view s.fs) calls (runCalls s calls).1 := by
  induction calls with
  | nil => exact fun s hroom _ => ⟨hroom, rfl⟩
  | cons head calls ih =>
    obtain ⟨c, parts⟩ := head
    rintro s hroom ⟨hcov, hun, hsends, hrest⟩
    obtain ⟨hroom', hok, herror⟩ := leaves_run hroom hcov hun hsends
    obtain ⟨hroom'', hview⟩ := ih _ hroom' hrest
    rw [held_run] at hview
    refine ⟨hroom'', hview.trans ?_⟩
    show _ = replay (held s.fileHandlers c (c.run s parts).1) _ calls _
    cases hres : (c.run s parts).1 with
    | ok reply => rw [hok reply hres]
    | error err => rw [herror err hres]

def Syncs : Call → Prop
  | .flush .. | .fsync .. => True
  | .release _ _ flushes => flushes = true
  | _ => False

theorem synced_run {s : Fs L} {c : Call} {parts : Parts} (hroom : s.fs.writeBuffer.HasRoom)
    (hc : Syncs c) {reply : Reply} (hok : (c.run s parts).1 = .ok reply) :
    Synced s (c.run s parts) := by
  cases c with
  | flush path fh =>
    obtain ⟨hleaves, hempty⟩ := synced_flush hroom (replied_ok hok)
    exact ⟨leaves_replied hleaves, hempty⟩
  | fsync path fh =>
    obtain ⟨hleaves, hempty⟩ := synced_fsync hroom (replied_ok hok)
    exact ⟨leaves_replied hleaves, hempty⟩
  | release path fh flushes =>
    obtain rfl : flushes = true := hc
    obtain ⟨hleaves, hempty⟩ := synced_release hroom (replied_ok hok)
    exact ⟨leaves_replied hleaves, hempty⟩
  | _ => exact hc.elim

end UnixWriteBack
