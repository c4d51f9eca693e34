import RemoteFs.ServedRequests
import RemoteFs.UnixWriteBack

/-! # The mount on the server's tree

The requests by which the calls of the mount change something, handled by the server in the order
in which they are sent. What is on the server's disk in the end is told by the calls. -/
namespace UnixOnServer

open ClientAttributes
open ClientCache
open ClientFileSystem
open ClientMemory
open ClientModeBits
open ClientPageCache
open ClientWriteBuffer
open OsPaths
open PosixTree (Location)
open RemoteTree
open ServedRequests
open ServedTree
open ServerPaths
open ServerRequests (Server)
open ServerStorage (AuthenticatedUser)
open UnixFrontEnd
open UnixWriteBack
open WriteLog

variable {L : PageLimits}

/-! What the calls send -/

inductive Change where
  | writeFile (path : Path) (offset : ℕ) (data : List UInt8)
  | setAttributes (path : Path) (new : SetAttr)
  | mkdir (path : Path)
  | createSymlink (path : Path) (link : String)
  | remove (path : Path)
  | rename (a b : Path) (flags : RenameFlags)
  deriving DecidableEq, Repr

def Change.carry (r : Remote) (now : Timestamp) : Change → Option Remote
  | writeFile p offset data => r.writeFile p offset data now
  | setAttributes p new => r.setAttributes p new now
  | mkdir p => r.mkdir p now
  | createSymlink p link => r.createSymlink p link now
  | remove p => r.remove p
  | rename a b flags => r.rename a b flags

/-- A request as it was sent, and whether the client was told of success. -/
structure Sent where
  change : Change
  now : Timestamp
  granted : Bool
  deriving DecidableEq, Repr

def Sent.follow (r : Remote) (x : Sent) : Remote :=
  if x.granted then (x.change.carry r x.now).getD r else r

def sent {ε α β : Type} (change : Change) (env : Env) (done : Except ε α × β) : Sent :=
  ⟨change, (env 0).serverTime, done.1.isOk⟩

/-- A chunk is sent when the one before it has been taken. -/
def sentUploads : FileSystem L → List Chunk → Env → List Sent
  | _, [], _ => []
  | fs, w :: ws, env =>
    let done := fs.upload w env
    sent (.writeFile w.key w.offset w.data) env done ::
      (if done.1.isOk then sentUploads done.2 ws (env.drop 2) else [])

def sentFlush (fs : FileSystem L) (env : Env) : List Sent :=
  sentUploads { fs with writeBuffer := fs.writeBuffer.stageFlush.2 }
    fs.writeBuffer.stageFlush.1.toList env

def sentWrite (fs : FileSystem L) (p : Path) (offset : ℕ) (data : List UInt8) (env : Env) :
    List Sent :=
  let staged := fs.writeBuffer.stageWrite p offset data
  sentUploads { fs with writeBuffer := staged.buffer } staged.uploads env

def sentCreate (fs : FileSystem L) (p : Path) (offset : ℕ) (env : Env) : List Sent :=
  [sent (.writeFile p offset []) env (fs.createFile p offset [] env)]

def sentAttributes (fs : FileSystem L) (p : Path) (new : SetAttr) (env : Env) : List Sent :=
  [sent (.setAttributes p new) env (fs.setAttributes p new env)]

def sentRename (fs : FileSystem L) (a b : Path) (flags : RenameFlags) (env : Env) : List Sent :=
  [sent (.rename a b flags) env (fs.rename a b flags env)]

def sentAt (path : Except Failure Path) (next : Path → List Sent) : List Sent :=
  match path with
  | .ok p => next p
  | .error _ => []

def sentTyped (mode : UInt32) (log : List Sent) : List Sent :=
  match FileType.tryToTarget mode.toBitVec with
  | none => []
  | some _ => log

/-- The changes that a call asks for, in order; the others do not change the tree. -/
def requested (s : Fs L) (parts : Parts) : Call → List Sent
  | .setattr path fh new =>
    sentAt (s.attrPath path fh) fun p => sentAttributes s.fs p new parts.rest
  | .mknod parent name mode => sentTyped mode (sentCreate s.fs (parent.child name) 0 parts.rest)
  | .create parent name mode flags => sentTyped mode <|
    if (Flags.tryToTarget flags.toBitVec).noctt then []
    else sentCreate s.fs (parent.child name) 0 parts.rest
  | .openFile p flags =>
    let fsFlags := Flags.tryToTarget flags.toBitVec
    if fsFlags.create || fsFlags.excl || fsFlags.noctt then []
    else if fsFlags.trunc then sentAttributes s.fs p (SetAttr.ofSize 0) parts.rest
    else []
  | .write path fh offset data =>
    sentAt (s.filePath path fh (.invalidInput "Invalid file handle")) fun p =>
      sentWrite s.fs p offset data parts.rest
  | .flush path fh =>
    sentAt (s.filePath path fh (.invalidInput "Invalid file handle")) fun _ =>
      sentFlush s.fs parts.rest
  | .release path fh flushes => sentAt (s.filePath path fh (.invalidFileHandle fh)) fun _ =>
    if flushes then sentFlush s.fs parts.rest else []
  | .fsync _ _ => sentFlush s.fs parts.rest
  | .fallocate path fh offset mode => sentAt (s.filePath path fh (.invalidFileHandle fh)) fun p =>
    sentTyped mode (sentCreate s.fs p offset parts.rest)
  | .mkdir parent name =>
    [sent (.mkdir (parent.child name)) parts.rest (s.fs.mkdir (parent.child name) parts.rest)]
  | .remove parent name =>
    [sent (.remove (parent.child name)) parts.rest (s.fs.remove (parent.child name) parts.rest)]
  | .rename originParent originName parent name =>
    sentRename s.fs (originParent.child originName) (parent.child name) (renameFlags 0) parts.rest
  | .rename2 originParent originName parent name flags =>
    sentRename s.fs (originParent.child originName) (parent.child name) (renameFlags flags)
      parts.rest
  | .symlink parent name linkPath =>
    match linkPath with
    | .raw _ => []
    | .text link => [sent (.createSymlink (parent.child name) link) parts.rest
        (s.fs.createSymlink (parent.child name) link parts.rest)]
  | _ => []

def requestedAll : Fs L → List (Call × Parts) → List Sent
  | _, [] => []
  | s, (c, parts) :: calls => requested s parts c ++ requestedAll (c.run s parts).2 calls

/-! The client's model of the server after a call -/

def Carries (fs : FileSystem L) (log : List Sent) (done : FileSystem L) : Prop :=
  done.remote = log.foldl Sent.follow fs.remote

section Calls

variable {α β : Type} {fs : FileSystem L} {s : Fs L} {p : Path} {env : Env} {log : List Sent}
variable {change : Change} {done : Except FsModelError α × FileSystem L}

theorem follow_granted {r r' : Remote} {x : Sent} (hg : x.granted = true)
    (h : x.change.carry r x.now = some r') : x.follow r = r' := by
  rw [Sent.follow, if_pos hg, h, Option.getD_some]

theorem follow_refused {r : Remote} {x : Sent} (hg : x.granted = false) : x.follow r = r := by
  rw [Sent.follow, hg, if_neg Bool.false_ne_true]

theorem carries_nil {done : FileSystem L} (h : done.remote = fs.remote) : Carries fs [] done := h

theorem carries_one
    (hok : ∀ a, done.1 = .ok a →
      change.carry fs.remote (env 0).serverTime = some done.2.remote)
    (herror : ∀ e, done.1 = .error e → done.2.remote = fs.remote) :
    Carries fs [sent change env done] done.2 := by
  rw [Carries, List.foldl_cons, List.foldl_nil]
  cases hdone : done.1 with
  | error e =>
    rw [follow_refused (by rw [sent, hdone]; rfl), herror e hdone]
  | ok a =>
    exact (follow_granted (by rw [sent, hdone]; rfl) (hok a hdone)).symm

theorem carries_made {outcome : Option Remote} {item : Attributes → OsString → CacheItem L}
    (h : change.carry fs.remote (env 0).serverTime = outcome) :
    Carries fs [sent change env (made fs p outcome item env)] (made fs p outcome item env).2 := by
  apply carries_one
  · intro a ha
    unfold made at ha ⊢
    split at ha
    · cases ha
    · rename_i b r hsent
      rw [(putNamed_frame _ _ _ _).1, h]
      exact (FileSystem.withAttributes_some (FileSystem.sent_ok.mp hsent).2.2).1
  · intro e he
    unfold made at he ⊢
    split at he
    · rfl
    · cases he

theorem carries_upload (fs : FileSystem L) (w : Chunk) (env : Env) :
    Carries fs [sent (.writeFile w.key w.offset w.data) env (fs.upload w env)]
      (fs.upload w env).2 := by
  refine carries_one (fun u hu => ?_) fun e he => by rw [FileSystem.upload_error he]
  obtain ⟨r, hr, hdone⟩ := FileSystem.upload_ok hu
  rw [hdone]
  exact hr

theorem carries_uploads (ws : List Chunk) : ∀ (fs : FileSystem L) (env : Env),
    Carries fs (sentUploads fs ws env) (fs.uploadAll ws env).2 := by
  induction ws with
  | nil => exact fun _ _ => rfl
  | cons w ws ih =>
    intro fs env
    have hfirst := carries_upload fs w env
    rw [Carries, List.foldl_cons, List.foldl_nil] at hfirst
    rw [Carries, sentUploads, FileSystem.uploadAll, List.foldl_cons, ← hfirst]
    cases hdone : fs.upload w env with
    | mk result done =>
      cases result with
      | error e => rfl
      | ok u => exact ih done (env.drop 2)

theorem carries_flush (s : Fs L) (env : Env) :
    Carries s.fs (sentFlush s.fs env) (s.flushBuffer env).2.fs :=
  carries_uploads _ { s.fs with writeBuffer := s.fs.writeBuffer.stageFlush.2 } env

theorem carries_write (fs : FileSystem L) (p : Path) (offset : ℕ) (data : List UInt8) (env : Env) :
    Carries fs (sentWrite fs p offset data env) (fs.writeFile p offset data env).2 :=
  carries_uploads _ { fs with writeBuffer := (fs.writeBuffer.stageWrite p offset data).buffer } env

theorem carries_attributes (fs : FileSystem L) (p : Path) (new : SetAttr) (env : Env) :
    Carries fs (sentAttributes fs p new env) (fs.setAttributes p new env).2 := by
  refine carries_one (fun a ha => ?_) fun e he => by rw [FileSystem.setAttributes_error he]
  obtain ⟨r, hr, -, hdone⟩ := FileSystem.setAttributes_ok ha
  rw [hdone]
  exact hr

theorem carries_rename (fs : FileSystem L) (a b : Path) (flags : RenameFlags) (env : Env) :
    Carries fs (sentRename fs a b flags env) (fs.rename a b flags env).2 := by
  refine carries_one (fun u hu => ?_) fun e he => by rw [FileSystem.rename_error he]
  obtain ⟨r, hr, hdone⟩ := FileSystem.rename_ok hu
  rw [hdone]
  exact hr

theorem carries_remove (fs : FileSystem L) (p : Path) (env : Env) :
    Carries fs [sent (.remove p) env (fs.remove p env)] (fs.remove p env).2 := by
  refine carries_one (fun u hu => ?_) fun e he => by rw [FileSystem.remove_error he]
  obtain ⟨r, hr, hdone⟩ := FileSystem.remove_ok hu
  rw [hdone]
  exact hr

theorem carries_create (s : Fs L) (p : Path) (offset : ℕ) (env : Env) :
    Carries s.fs (sentCreate s.fs p offset env) (s.createFile p offset env).2.fs :=
  carries_made rfl

theorem carries_atPath {path : Except Failure Path} {next : Path → UnixFrontEnd.Result L α}
    {log : Path → List Sent} (h : ∀ p, path = .ok p → Carries s.fs (log p) (next p).2.fs) :
    Carries s.fs (sentAt path log) (s.atPath path next).2.fs := by
  cases path with
  | error e => rfl
  | ok p => exact h p rfl

theorem carries_withType {mode : UInt32} {next : UnixFrontEnd.Result L α}
    (h : Carries s.fs log next.2.fs) :
    Carries s.fs (sentTyped mode log) (s.withType mode next).2.fs := by
  unfold sentTyped Fs.withType
  cases FileType.tryToTarget mode.toBitVec with
  | none => rfl
  | some kind => exact h

theorem carries_andThen {r : UnixFrontEnd.Result L α} {next : α → Fs L → UnixFrontEnd.Result L β}
    (h : Carries s.fs log r.2.fs) (hnext : ∀ a s', (next a s').2.fs.remote = s'.fs.remote) :
    Carries s.fs log (Fs.andThen r next).2.fs := by
  obtain ⟨e | a, s'⟩ := r
  · exact h
  · exact (hnext a s').trans h

theorem carries_run {c : Call} {parts : Parts} (hcov : Covered c) :
    Carries s.fs (requested s parts c) (c.run s parts).2.fs := by
  cases c with
  | lookup parent name => exact (getAttributes_frame _ _ _).1
  | forget p => rfl
  | fsyncdir p fh => rfl
  | batchForget paths => exact (batchForget_frame paths s).1
  | getattr path fh =>
    have h : Carries s.fs (sentAt (s.attrPath path fh) fun _ => [])
        (s.getattr path fh parts.rest).2.fs :=
      carries_atPath fun p _ => carries_nil (getAttributes_frame _ _ _).1
    cases hpath : s.attrPath path fh <;> rw [hpath] at h <;> exact h
  | setattr path fh new => exact carries_atPath fun p _ => carries_attributes _ _ _ _
  | mknod parent name mode => exact carries_withType (carries_create _ _ _ _)
  | create parent name mode flags =>
    refine carries_withType ?_
    split
    · rfl
    · exact carries_andThen (carries_create _ _ _ _) fun _ _ => rfl
  | openFile p flags =>
    show Carries s.fs _ (s.openFile p flags parts.rest).2.fs
    unfold requested Fs.openFile
    dsimp only
    split
    · rfl
    · split
      · exact carries_andThen (r := s.on (s.fs.setAttributes p (SetAttr.ofSize 0) parts.rest))
          (carries_attributes _ _ _ _) fun _ _ => rfl
      · rfl
  | opendir p => rfl
  | read path fh offset size =>
    have h : Carries s.fs (sentAt (s.filePath path fh (.invalidInput "Invalid file handle"))
        fun _ => []) (s.read path fh offset size parts.rounds).2.fs :=
      carries_atPath fun p _ => carries_nil (ClientCopyRange.readLoop_frame _ _ _ _ _ _).1
    cases hpath : s.filePath path fh (.invalidInput "Invalid file handle") <;>
      rw [hpath] at h <;> exact h
  | write path fh offset data => exact carries_atPath fun p _ => carries_write _ _ _ _ _
  | flush path fh => exact carries_atPath fun p _ => carries_flush _ _
  | release path fh flushes =>
    refine carries_atPath fun p _ => ?_
    cases flushes with
    | true => exact carries_flush (s.releaseHandle fh) _
    | false => rfl
  | releasedir p fh => rfl
  | fsync path fh =>
    refine carries_andThen (carries_flush _ _) fun _ s' => ?_
    cases s'.filePath path fh (.invalidFileHandle fh) <;> rfl
  | copyFileRange => exact hcov.elim
  | fallocate path fh offset mode =>
    exact carries_atPath fun p _ => carries_withType
      (carries_andThen (carries_create _ _ _ _) fun _ _ => rfl)
  | mkdir parent name => exact carries_made rfl
  | remove parent name => exact carries_remove _ _ _
  | rename originParent originName parent name => exact carries_rename _ _ _ _ _
  | rename2 originParent originName parent name flags => exact carries_rename _ _ _ _ _
  | symlink parent name linkPath =>
    cases linkPath with
    | raw bytes => rfl
    | text link => exact carries_made rfl
  | readlink p => exact (readSymlink_frame _ _ _).1
  | readdir p offset => exact (readdir_frame _ _ _).1
  | readdirplus p offset => exact (readdir_frame _ _ _).1

theorem carries_runCalls (calls : List (Call × Parts)) : ∀ s : Fs L,
    (∀ x ∈ calls, Covered x.1) →
      Carries s.fs (requestedAll s calls) (runCalls s calls).2.fs := by
  induction calls with
  | nil => exact fun _ _ => rfl
  | cons head calls ih =>
    intro s hcov
    obtain ⟨c, parts⟩ := head
    have hfirst : Carries s.fs (requested s parts c) (c.run s parts).2.fs :=
      carries_run (hcov _ List.mem_cons_self)
    have hrest := ih (c.run s parts).2 fun x hx => hcov x (List.mem_cons_of_mem _ hx)
    rw [Carries, requestedAll, List.foldl_append, ← hfirst]
    exact hrest

end Calls

/-! The requests -/

def namesOf (p : Path) : List String :=
  p.filterMap fun
    | .normal (.text s) => some s
    | _ => none

def Change.paths : Change → List Path
  | writeFile p _ _ | setAttributes p _ | mkdir p | createSymlink p _ | remove p => [p]
  | rename a b _ => [a, b]

def Change.request : Change → Request
  | writeFile p offset data => .writeFile (namesOf p) offset data
  | setAttributes p new => .setAttributes (namesOf p) new
  | mkdir p => .mkdir (namesOf p)
  | createSymlink p link => .createSymlink (namesOf p) link
  | remove p => .remove (namesOf p)
  | rename a b flags => .rename (namesOf a) (namesOf b) flags

def Signed (user : AuthenticatedUser) (r : Remote) : Prop :=
  r.userId = user.userId ∧ r.groupId = user.groupId

section Requests

variable {r r' : Remote} {p a b : Path} {now : Timestamp} {user : AuthenticatedUser}
variable {change : Change} {x : Sent}

theorem session_signed (h : Signed user r) : session r user = r := by
  rw [session, ← h.1, ← h.2]

theorem carry_session (h : change.carry r now = some r') :
    r'.userId = r.userId ∧ r'.groupId = r.groupId := by
  cases change with
  | writeFile p offset data =>
    change r.writeFile p offset data now = some r' at h
    unfold Remote.writeFile at h
    split at h <;> cases h <;> exact ⟨rfl, rfl⟩
  | setAttributes p new =>
    change r.setAttributes p new now = some r' at h
    unfold Remote.setAttributes at h
    dsimp only at h
    split at h <;> cases h <;> exact ⟨rfl, rfl⟩
  | mkdir p =>
    change r.mkdir p now = some r' at h
    unfold Remote.mkdir at h
    split at h <;> cases h
    exact ⟨rfl, rfl⟩
  | createSymlink p link =>
    change r.createSymlink p link now = some r' at h
    unfold Remote.createSymlink at h
    split at h <;> cases h
    exact ⟨rfl, rfl⟩
  | remove p =>
    change r.remove p = some r' at h
    unfold Remote.remove at h
    split at h <;> cases h
    exact ⟨rfl, rfl⟩
  | rename a b flags =>
    change r.rename a b flags = some r' at h
    rcases (Remote.rename_cases h).2 with ⟨-, -, -, -, rfl⟩ | ⟨-, -, -, rfl⟩ <;> exact ⟨rfl, rfl⟩

theorem signed_follow (h : Signed user r) (x : Sent) : Signed user (x.follow r) := by
  unfold Sent.follow
  split
  · cases hcarry : x.change.carry r x.now with
    | none => exact h
    | some r' =>
      obtain ⟨huser, hgroup⟩ := carry_session hcarry
      exact ⟨huser.trans h.1, hgroup.trans h.2⟩
  · exact h

theorem withAttributes_of_some (h : r.nodes p ≠ none) :
    ∃ a, withAttributes p (some r) = some (a, r) := by
  obtain ⟨c, hc⟩ := Option.ne_none_iff_exists'.mp h
  refine ⟨attributesOf c (r.info p), ?_⟩
  simp only [withAttributes, Option.bind_some, Remote.getAttributes, hc, Option.map_some]

theorem writeFile_there {offset : ℕ} {data : List UInt8}
    (h : r.writeFile p offset data now = some r') : r'.nodes p ≠ none := by
  rw [Remote.writeFile_nodes h, Nodes.write, Function.update_self]
  rcases r.nodes p with _ | _ | _ | _ <;> exact Option.some_ne_none _

theorem setAttributes_there {new : SetAttr} (h : r.setAttributes p new now = some r') :
    r'.nodes p ≠ none := by
  cases hsize : new.size with
  | none =>
    rw [Remote.setAttributes_nodes hsize h]
    intro hnone
    unfold Remote.setAttributes at h
    simp only [hnone] at h
    cases h
  | some n =>
    obtain ⟨hn, bytes, hbytes⟩ := Remote.setAttributes_size hsize h
    rw [hn, Nodes.setSize, Function.update_self, hbytes]
    exact Option.some_ne_none _

theorem withReply_there {outcome : Option Remote}
    (h : ∀ r', outcome = some r' → r'.nodes p ≠ none) :
    (withReply (withAttributes p outcome)).map Prod.snd = outcome := by
  cases outcome with
  | none => rfl
  | some r' =>
    obtain ⟨a, ha⟩ := withAttributes_of_some (h r' rfl)
    rw [ha]
    rfl

theorem map_snd {α : Type} {f : Remote → α} (outcome : Option Remote) :
    (outcome.map fun r => (f r, r)).map Prod.snd = outcome := by
  cases outcome <;> rfl

/-- A request does to the model what the change does that it is sent for. -/
theorem request_carry (hsigned : Signed user r)
    (hpaths : ∀ p ∈ change.paths, p = pathOf (namesOf p)) :
    (change.request.carry r user now).map Prod.snd = change.carry r now := by
  have hsession := session_signed hsigned
  have hfirst : ∀ p, p ∈ change.paths → pathOf (namesOf p) = p := fun p hp => (hpaths p hp).symm
  cases change with
  | writeFile p offset data =>
    simp only [Change.request, Request.carry, hsession, hfirst p List.mem_cons_self]
    exact withReply_there fun r' h => writeFile_there h
  | setAttributes p new =>
    simp only [Change.request, Request.carry, hsession, hfirst p List.mem_cons_self]
    exact withReply_there fun r' h => setAttributes_there h
  | mkdir p =>
    simp only [Change.request, Request.carry, hsession, hfirst p List.mem_cons_self]
    refine withReply_there fun r' h => ?_
    rw [mkdir_nodes h, Function.update_self]
    exact Option.some_ne_none _
  | createSymlink p link =>
    simp only [Change.request, Request.carry, hsession, hfirst p List.mem_cons_self]
    refine withReply_there fun r' h => ?_
    rw [createSymlink_nodes h, Function.update_self]
    exact Option.some_ne_none _
  | remove p =>
    simp only [Change.request, Request.carry, hsession, hfirst p List.mem_cons_self]
    exact map_snd _
  | rename a b flags =>
    simp only [Change.request, Request.carry, hsession, hfirst a List.mem_cons_self,
      hfirst b (List.mem_cons_of_mem _ List.mem_cons_self)]
    exact map_snd _

end Requests

/-! The server -/

/-- What the server is asked. A new directory has the size of an empty one. -/
def Sent.asked (user : AuthenticatedUser) (x : Sent) : Asked :=
  ⟨user, ⟨x.now, 4096⟩, x.change.request⟩

def served (fs : ServerStorage.FileSystem) (user : AuthenticatedUser) (server : Server)
    (log : List Sent) : Server :=
  log.foldl (fun server x => ((x.asked user).serve fs server).2) server

/-- The kernel has resolved the paths, every answer of the server reaches the client, and nothing
is given up halfway. -/
def Taken (fs : ServerStorage.FileSystem) (user : AuthenticatedUser) (server : Server)
    (r : Remote) : List Sent → Prop
  | [] => True
  | x :: log =>
    (∀ p ∈ x.change.paths, p = pathOf (namesOf p)) ∧ Resolved r x.change.request ∧
      (x.granted = true ↔ ∃ a, ((x.asked user).serve fs server).1 = .ok a) ∧
      (x.change.request.staged = true → ∀ e, ((x.asked user).serve fs server).1 = .error e →
        ((x.asked user).serve fs server).2.tree.objects = server.tree.objects) ∧
      Taken fs user ((x.asked user).serve fs server).2 (x.follow r) log

section Served

variable {fs : ServerStorage.FileSystem} {user : AuthenticatedUser} {server : Server}
variable {root : Location} {r : Remote} {x : Sent}

/-- The client follows the answer that has reached it. -/
theorem follow_asked (hsigned : Signed user r)
    (hpaths : ∀ p ∈ x.change.paths, p = pathOf (namesOf p))
    (hanswer : x.granted = true ↔ ∃ a, ((x.asked user).serve fs server).1 = .ok a) :
    (x.asked user).follow r ((x.asked user).serve fs server).1 = x.follow r := by
  cases hdone : ((x.asked user).serve fs server).1 with
  | ok a =>
    have hgranted : x.granted = true := hanswer.mpr ⟨a, hdone⟩
    rw [Sent.follow, if_pos hgranted, ← request_carry hsigned hpaths]
    rfl
  | error e =>
    have hrefused : x.granted = false := by
      rw [← Bool.not_eq_true, hanswer]
      rintro ⟨a, ha⟩
      cases hdone.symm.trans ha
    rw [follow_refused hrefused]
    rfl

/-- The server's tree is the one that the client has in mind after every run. -/
theorem shows_served (hroot : fs.realPath = absolute root) (log : List Sent)
    (hs : Shows root server.tree.objects r) (hsigned : Signed user r)
    (htaken : Taken fs user server r log) :
    Shows root (served fs user server log).tree.objects (log.foldl Sent.follow r) := by
  induction log generalizing server r with
  | nil => exact hs
  | cons x log ih =>
    obtain ⟨hpaths, hresolved, hanswer, hwhole, hrest⟩ := htaken
    have hstep := shows_follow (x := x.asked user) hroot hs rfl hresolved hwhole
    rw [follow_asked hsigned hpaths hanswer] at hstep
    exact ih hstep (signed_follow hsigned x) hrest

theorem covered_of_syncs {c : Call} (h : Syncs c) : Covered c := by
  cases c with
  | flush | fsync | release => trivial
  | _ => exact h.elim

theorem covered_of_careful {calls : List (Call × Parts)} : ∀ {s : Fs L}, Careful s calls →
    ∀ x ∈ calls, Covered x.1 := by
  induction calls with
  | nil => exact fun _ x hx => (List.not_mem_nil hx).elim
  | cons head calls ih =>
    rintro s ⟨hcov, -, -, hrest⟩ x hx
    rcases List.mem_cons.mp hx with rfl | hx
    · exact hcov
    · exact ih hrest x hx

theorem contents_of_shows {t : PosixTree.Tree} (hs : Shows root t r) (l : Location) :
    (t (root ++ l)).map (fun i => shown i.kind) = r.nodes (absolute l) := by
  cases hi : t (root ++ l) with
  | none => exact (hs.none_iff.mpr hi).symm
  | some i => exact (hs.of_some hi).1.symm

/-- After a call that writes the buffer out, the tree on the server's disk is the one that the
calls of the mount, each carried out at once on the file its handle was opened with, would have
made of the tree at the start. -/
theorem disk_is_replay (hroot : fs.realPath = absolute root) (s : Fs L)
    (hs : Shows root server.tree.objects s.fs.remote) (hsigned : Signed user s.fs.remote)
    (hempty : s.fs.writeBuffer.content = []) (hcap : 0 < s.fs.writeBuffer.capacity)
    (calls : List (Call × Parts)) (hcareful : Careful s calls) (last : Call)
    (hlast : Syncs last) (parts : Parts) (reply : UnixFrontEnd.Reply)
    (hok : (last.run (runCalls s calls).2 parts).1 = .ok reply)
    (htaken : Taken fs user server s.fs.remote
      (requestedAll s calls ++ requested (runCalls s calls).2 parts last)) (l : Location) :
    ((served fs user server
        (requestedAll s calls ++ requested (runCalls s calls).2 parts last)).tree.objects
          (root ++ l)).map (fun i => shown i.kind) =
      replay s.fileHandlers s.fs.remote.nodes calls (runCalls s calls).1 (absolute l) := by
  have hremote : (last.run (runCalls s calls).2 parts).2.fs.remote =
      (requestedAll s calls ++ requested (runCalls s calls).2 parts last).foldl Sent.follow
        s.fs.remote := by
    rw [List.foldl_append, ← carries_runCalls calls s (covered_of_careful hcareful)]
    exact carries_run (covered_of_syncs hlast)
  have hshows := shows_served hroot _ hs hsigned htaken
  rw [← hremote] at hshows
  obtain ⟨hroom, hview⟩ :=
    replay_run calls s (ClientWriteBack.hasRoom_of_empty hempty hcap) hcareful
  obtain ⟨⟨-, hdone, -⟩, hclean⟩ := synced_run hroom hlast hok
  rw [contents_of_shows hshows l, ← ClientWriteBack.view_of_flushed hclean, hdone reply hok, hview,
    ClientWriteBack.view_of_flushed hempty]

end Served

section Samples

theorem four_bytes : 0 < 4 := of_decide_eq_true rfl

def limitsExample : PageLimits := ⟨4, 4, four_bytes⟩

def partsExample : Parts := ⟨fun _ => .steady 0 none, .steady 0 none, .steady 0 none⟩

def mountExample : Fs limitsExample :=
  ⟨.new { modelOf [.text "srv"] small.objects with userId := 7, groupId := 7 } 4 0 none, 1,
    fun _ => none⟩

def callsExample : List (Call × Parts) :=
  [(.create [.rootDir] (.text "f") 0o100644 0o101, partsExample),
    (.write none 1 0 [7, 8], partsExample), (.mkdir [.rootDir] (.text "d"), partsExample)]

def logExample : List Sent :=
  [⟨.writeFile [.rootDir, .normal (.text "f")] 0 [], ⟨0, 0⟩, true⟩,
    ⟨.mkdir [.rootDir, .normal (.text "d")], ⟨0, 0⟩, true⟩,
    ⟨.writeFile [.rootDir, .normal (.text "f")] 0 [7, 8], ⟨0, 0⟩, true⟩]

theorem requested_example : requestedAll mountExample callsExample ++
    requested (runCalls mountExample callsExample).2 partsExample (.release none 1 true) =
      logExample := by
  decide

theorem ok_of_isSome {ε α : Type} {x : Except ε α} (h : x.toOption.isSome = true) :
    ∃ a, x = .ok a := by
  cases x with
  | error e => cases h
  | ok a => exact ⟨a, rfl⟩

theorem taken_example : Taken ServerExchange.exported ⟨7, 7⟩ smallServer mountExample.fs.remote
    logExample := by
  have hnames : ∀ n, n = "f" ∨ n = "d" → Names [n] := by
    intro n hn k hk
    obtain rfl := List.mem_singleton.mp hk
    rcases hn with rfl | rfl <;> exact ⟨by decide, by decide, by decide, by decide⟩
  refine ⟨by decide, ⟨by decide, hnames _ (.inl rfl), ⟨reaches_name (fun _ h => ?_) _,
      fun _ h => ?_⟩, by decide, by decide⟩, iff_of_true rfl (ok_of_isSome (by decide)),
      fun h => ?_,
    by decide, ⟨by decide, hnames _ (.inr rfl), reaches_name (fun _ h => ?_) _, by decide⟩,
      iff_of_true rfl (ok_of_isSome (by decide)), fun h => ?_,
    by decide, ⟨by decide, hnames _ (.inl rfl), ⟨reaches_name (fun _ h => ?_) _,
      fun _ h => ?_⟩, by decide, by decide⟩, iff_of_true rfl (ok_of_isSome (by decide)),
      fun h => ?_, trivial⟩
  all_goals cases h

theorem disk_is_replay_small :
    ((served ServerExchange.exported ⟨7, 7⟩ smallServer
        (requestedAll mountExample callsExample ++
          requested (runCalls mountExample callsExample).2 partsExample
            (.release none 1 true))).tree.objects ([.text "srv"] ++ [.text "f"])).map
          (fun i => shown i.kind) =
      replay mountExample.fileHandlers mountExample.fs.remote.nodes callsExample
        (runCalls mountExample callsExample).1 (absolute [.text "f"]) := by
  have hroot : ServerExchange.exported.realPath = absolute [.text "srv"] := rfl
  refine disk_is_replay hroot mountExample ((shows_modelOf (by decide)).congr rfl rfl) ⟨rfl, rfl⟩
    (by decide) (by decide) callsExample ?_ (.release none 1 true) rfl partsExample .done
    (by decide) ?_ [.text "f"]
  · exact ⟨trivial, trivial, fun h => h.elim, (by decide : 2 < 2 ^ 32), trivial,
      fun _ => ⟨.written 2, by decide⟩, trivial, Or.inr (by decide), fun h => h.elim, trivial⟩
  · rw [requested_example]
    exact taken_example

end Samples

end UnixOnServer
