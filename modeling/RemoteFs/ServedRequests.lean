import RemoteFs.ClientFileSystem
import RemoteFs.ServedTree
import RemoteFs.ServerAttributeRequests
import RemoteFs.ServerRewrites

/-! # The requests of a mount on both sides

Every request that the server grants changes the tree it shows, and is answered, as the client's
model of the server has it, whoever sends it and whatever came before. -/
namespace ServedRequests

open ClientAttributes
open ClientFileSystem (withAttributes)
open OsPaths
open PosixTree
open PosixFileTree
open RemoteTree
open ServedTree
open ServerPaths
open ServerRequests (Server Moment)
open ServerStorage

inductive Request where
  | readFile (names : List String) (offset size : ℕ)
  | getAttributes (names : List String)
  | writeFile (names : List String) (offset : ℕ) (data : List UInt8)
  | mkdir (names : List String)
  | createSymlink (names : List String) (target : String)
  | setAttributes (names : List String) (new : SetAttr)
  | remove (names : List String)
  | rename (old new : List String) (flags : RenameFlags)
  deriving DecidableEq, Repr

inductive Reply where
  | attributes (attributes : Attributes)
  | bytes (bytes : List UInt8)
  | done
  deriving DecidableEq, Repr

/-- A handler that panics gives no answer. -/
inductive Refusal where
  | api (e : ApiError)
  | panic
  deriving DecidableEq, Repr

def bits (flags : RenameFlags) : ℕ :=
  flags.noreplace.toNat + 2 * flags.exchange.toNat + 4 * flags.whiteout.toNat

section LookKept

open ServerAttributeCalls

variable {fs : FileSystem} {user : AuthenticatedUser} {path : Path} {new : SetAttr}
  {now : Timestamp} {faults : Faults} {t t' : Tree} {call : Call} {e : StorageError}
  {f : Inode → Inode} {part : Part}

theorem orFail_ok {α : Type} {x : Except StorageError α} {a : α} :
    orFail x = .ok a ↔ x = .ok a := by
  cases x <;> simp [orFail, Except.mapError]

theorem bind_ok {ε α β : Type} {x : Except ε α} {g : α → Except ε β} {b : β}
    (h : (x >>= g) = .ok b) : ∃ a, x = .ok a ∧ g a = .ok b := by
  cases x with
  | error e => cases h
  | ok a => exact ⟨a, rfl, h⟩

theorem changeCall_look (hf : ∀ i, (f i).kind.look = i.kind.look)
    (h : changeCall fs path faults call e t f = .ok t') : look t' = look t := by
  unfold changeCall at h
  split at h
  · cases h
  · split at h
    · cases h
    · rename_i l i htarget
      rw [← Except.ok.inj h]
      exact look_update (objectAt_some.mp htarget).2 (hf i)

theorem setOwner_look (h : ServerAttributeCalls.setOwner fs user path new now faults t = .ok t') :
    look t' = look t := by
  unfold ServerAttributeCalls.setOwner at h
  split at h
  · obtain ⟨allowed, -, h⟩ := bind_ok h
    split at h
    · cases h
    · obtain ⟨metadata, -, h⟩ := bind_ok h
      obtain ⟨uid, -, h⟩ := bind_ok h
      obtain ⟨gid, -, h⟩ := bind_ok h
      split at h
      · exact changeCall_look (f := withOwner now uid gid) (fun _ => rfl) h
      · rw [Except.ok.inj h]
  · rw [Except.ok.inj h]

theorem setSize_look (h : setSize fs user path new now faults t = .ok t') : look t' = look t := by
  unfold setSize at h
  split at h
  · rw [Except.ok.inj h]
  · obtain ⟨allowed, -, h⟩ := bind_ok h
    split at h
    · obtain ⟨⟨l, i, bytes⟩, hopen, h⟩ := bind_ok h
      dsimp only at h
      split at h
      · cases h
      · rw [← Except.ok.inj h]
        unfold openFile at hopen
        split at hopen
        · cases hopen
        · split at hopen
          · cases hopen
          · rename_i l' i' htarget
            split at hopen
            · rename_i bytes' hkind
              obtain ⟨rfl, rfl, rfl⟩ := Except.ok.inj hopen
              refine look_update (objectAt_some.mp htarget).2 ?_
              rw [hkind]
              rfl
            · cases hopen
    · cases h

theorem stamp_look (h : stamp fs path new now faults t = .ok t') : look t' = look t := by
  unfold stamp at h
  split at h
  · cases h
  · obtain ⟨atime, -, h⟩ := bind_ok h
    obtain ⟨mtime, -, h⟩ := bind_ok h
    exact changeCall_look (f := withTimes now atime mtime) (fun _ => rfl) h

theorem part_look (h : Part.run fs user path new now faults t part = .ok t') :
    look t' = look t := by
  cases part with
  | mode =>
    change setMode fs user path new now faults t = .ok t' at h
    unfold setMode at h
    split at h
    · rw [Except.ok.inj h]
    · rename_i mode hmode
      obtain ⟨allowed, -, h⟩ := bind_ok h
      split at h
      · exact changeCall_look (f := withMode now mode) (fun _ => rfl) h
      · cases h
  | owner => exact setOwner_look h
  | size => exact setSize_look h
  | times =>
    change setTimes fs user path new now faults t = .ok t' at h
    unfold setTimes at h
    split at h
    · exact stamp_look h
    · obtain ⟨allowed, -, h⟩ := bind_ok h
      split at h
      · exact stamp_look h
      · cases h
  | answer =>
    change (orFail _).map _ = .ok t' at h
    cases hanswer : orFail (attributesCall faults .readBack t (makeRealPath fs.realPath path)) with
    | error e =>
      rw [hanswer] at h
      cases h
    | ok a =>
      rw [hanswer] at h
      obtain rfl : t = t' := Except.ok.inj h
      rfl

theorem row_look (parts : List Part) (t : Tree) :
    look (CallRows.row (ServerAttributeRequests.calls fs user path new now faults parts) t).2 =
      look t := by
  induction parts generalizing t with
  | nil => rfl
  | cons part parts ih =>
    rw [ServerAttributeRequests.calls, List.map_cons]
    cases hrun : Part.run fs user path new now faults t part with
    | error e => rw [CallRows.row_cons_error hrun]
    | ok t' =>
      rw [CallRows.row_cons_ok hrun]
      exact (ih t').trans (part_look hrun)

theorem setAttributes_look (t : Tree) :
    look (setAttributes fs user path new now faults t).2 = look t := by
  rw [(ServerAttributeRequests.setAttributes_row t).1]
  exact row_look _ t

end LookKept

def withObjects (t : FileTree) (u : Tree) (h : look u = look t.objects) : FileTree where
  objects := u
  places := t.places
  listed := fun l hl => t.listed l fun hn => hl (look_missing.mp (by rw [h, look_missing.mpr hn]))
  grounded := h ▸ t.grounded

def setAttributes (fs : FileSystem) (s : Server) (user : AuthenticatedUser) (path : String)
    (new : SetAttr) (now : Timestamp) : Except Refusal Reply × Server :=
  let done := ServerAttributeCalls.setAttributes fs user (components path) new now
    ServerAttributeCalls.noFaults s.tree.objects
  (match done.1 with
    | .ok a => .ok (.attributes a)
    | .error (.error e) => .error (.api (.ofStorage e))
    | .error .panic => .error .panic,
    { s with tree := withObjects s.tree done.2 (setAttributes_look s.tree.objects) })

def replied (a : ServerRequests.Answer) : Except Refusal Reply × Server :=
  (match a.1 with
    | .ok (.attributes a) => .ok (.attributes a)
    | .ok .done => .ok .done
    | .error e => .error (.api e), a.2)

def readFile (fs : FileSystem) (s : Server) (user : AuthenticatedUser) (path : String)
    (offset size : ℕ) : Except Refusal Reply × Server :=
  (match Routes.getFileContent fs s.tree.objects user (components path) offset size with
    | .ok done => .ok (.bytes done.result)
    | .error e => .error (.api e), s)

def Request.serve (fs : FileSystem) (s : Server) (user : AuthenticatedUser) (m : Moment) :
    Request → Except Refusal Reply × Server
  | readFile ns offset size => ServedRequests.readFile fs s user (spell ns) offset size
  | getAttributes ns => replied (ServerRequests.getAttributes fs (components (spell ns)) s)
  | writeFile ns offset data =>
    replied (ServerRequests.serve fs s user m (.writeFile (spell ns) data offset))
  | mkdir ns => replied (ServerRequests.serve fs s user m (.makeDirectory (spell ns)))
  | createSymlink ns target =>
    replied (ServerRequests.serve fs s user m (.createSymlink (spell ns) target))
  | setAttributes ns new => ServedRequests.setAttributes fs s user (spell ns) new m.now
  | remove ns => replied (ServerRequests.serve fs s user m (.deleteItem (spell ns)))
  | rename old new flags =>
    replied (ServerRequests.serve fs s user m (.rename (spell old) (spell new) (bits flags)))

def withReply (r : Option (Attributes × Remote)) : Option (Reply × Remote) :=
  r.map fun x => (.attributes x.1, x.2)

def session (r : Remote) (user : AuthenticatedUser) : Remote :=
  { r with userId := user.userId, groupId := user.groupId }

def Request.carry (r : Remote) (user : AuthenticatedUser) (now : Timestamp)
    (request : Request) : Option (Reply × Remote) :=
  let r := session r user
  match request with
  | readFile ns offset size =>
    (r.readFile (pathOf ns) offset size).map fun bytes => (.bytes bytes, r)
  | getAttributes ns => withReply (withAttributes (pathOf ns) (some r))
  | writeFile ns offset data =>
    withReply (withAttributes (pathOf ns) (r.writeFile (pathOf ns) offset data now))
  | mkdir ns => withReply (withAttributes (pathOf ns) (r.mkdir (pathOf ns) now))
  | createSymlink ns target =>
    withReply (withAttributes (pathOf ns) (r.createSymlink (pathOf ns) target now))
  | setAttributes ns new =>
    withReply (withAttributes (pathOf ns) (r.setAttributes (pathOf ns) new now))
  | remove ns => (r.remove (pathOf ns)).map fun r => (.done, r)
  | rename old new flags =>
    (r.rename (pathOf old) (pathOf new) flags).map fun r => (.done, r)

def untimed (a : Attributes) : Attributes :=
  { a with atime := ⟨0, 0⟩, mtime := ⟨0, 0⟩, ctime := ⟨0, 0⟩ }

def Reply.untimed : Reply → Reply
  | attributes a => attributes (ServedRequests.untimed a)
  | r => r

/-! What the kernel sees to -/

/-- It resolves links on the way before it names an object. -/
def Reaches (r : Remote) (l : Location) : Prop :=
  ∀ k, k <+: l → k ≠ l → ∀ target, r.nodes (absolute k) ≠ some (.symlink target)

/-- And one at the end, where it asks for what is in a file. -/
def Follows (r : Remote) (l : Location) : Prop :=
  Reaches r l ∧ ∀ target, r.nodes (absolute l) ≠ some (.symlink target)

def Names (ns : List String) : Prop := ∀ n ∈ ns, Name n

def locationOf (ns : List String) : Location := ns.map .text

/-- No directory hands its group on to what is made in it: its set-group-ID bit is not set. -/
def Ungrouped (r : Remote) (l : Location) : Prop :=
  (r.info (absolute l.dropLast)).perm.testBit 10 = false

instance (r : Remote) (l : Location) : Decidable (Ungrouped r l) :=
  inferInstanceAs (Decidable (_ = false))

/-- It writes where a file has positions and exchanges only what there is, and the temporary name
of the server must be free. -/
def Resolved (r : Remote) : Request → Prop
  | .readFile ns _ _ => Names ns ∧ Follows r (locationOf ns)
  | .getAttributes ns => Names ns ∧ Reaches r (locationOf ns)
  | .writeFile ns offset _ =>
    ns ≠ [] ∧ Names ns ∧ Follows r (locationOf ns) ∧ offset < 2 ^ 63 ∧
      Ungrouped r (locationOf ns)
  | .mkdir ns | .createSymlink ns _ =>
    ns ≠ [] ∧ Names ns ∧ Reaches r (locationOf ns) ∧ Ungrouped r (locationOf ns)
  | .remove ns => ns ≠ [] ∧ Names ns ∧ Reaches r (locationOf ns)
  | .setAttributes ns _ => Names ns ∧ Follows r (locationOf ns)
  | .rename old new flags => (old ≠ [] ∧ Names old ∧ Reaches r (locationOf old)) ∧
      (new ≠ [] ∧ Names new ∧ Reaches r (locationOf new)) ∧
      (flags.exchange = true → r.nodes (pathOf new) ≠ none ∧
        r.nodes ((pathOf old).withExtension ".swap_tmp") = none)

/-! What the storage calls do to the objects -/

section Storage

variable {fs : FileSystem} {t t' : FileTree} {user : AuthenticatedUser} {path p : Path}
  {l : Location} {i : Inode} {now : Timestamp} {root : Location} {r : Remote}

/-- Above an exported path there are directories, and then what the client sees. -/
theorem direct_of_reaches (hs : Shows root t.objects r) (h : Reaches r l) :
    Direct (look t.objects) (root ++ l) := by
  intro k hk hne
  rcases List.prefix_or_prefix_of_prefix hk (List.prefix_append root l) with hup | hdown
  · obtain ⟨s, rfl⟩ := hup
    have hdir : look t.objects k = .directory := by
      by_cases hnil : s = []
      · subst hnil
        have hhome := hs.home
        rwa [List.append_nil] at hhome
      · refine t.grounded.below hnil ?_
        rw [hs.home]
        exact nofun
    rw [hdir]
    rfl
  · obtain ⟨s, rfl⟩ := hdown
    refine hs.isLink (h s ((List.prefix_append_right_inj root).mp hk) ?_)
    rintro rfl
    exact hne rfl

theorem chown_objects {uid gid : ℕ} (hobj : t.objects l = some i)
    (hlink : i.kind.look.isLink = false)
    (h : PosixCalls.chown t (absolute l) uid gid now = .ok t') :
    t'.objects = Function.update t.objects l
      (some (i.chown uid gid now)) := by
  have hfound : objectAt t.objects true (absolute l) = some (l, i) :=
    objectAt_reaches t.grounded hobj fun _ => hlink
  unfold PosixCalls.chown at h
  split at h
  · cases h
  · rename_i l' i' htarget
    obtain ⟨rfl, rfl⟩ := Prod.mk.inj (Option.some.inj (htarget.symm.trans hfound))
    rw [← Except.ok.inj h]
    rfl

theorem setOwner_objects (hobj : t.objects l = some i) (hlink : i.kind.look.isLink = false)
    (h : ServerFileSystem.setOwner t user (absolute l) now = (.ok (), t')) :
    t'.objects = Function.update t.objects l
      (some (i.chown user.userId user.groupId now)) := by
  unfold ServerFileSystem.setOwner at h
  split at h
  · rename_i t'' hchown
    obtain ⟨-, rfl⟩ := Prod.mk.inj h
    exact chown_objects hobj hlink hchown
  · cases (Prod.mk.inj h).1

/-- A write ends in the file at the path, which is new or has its bytes changed. -/
theorem writeFile_objects {data : List UInt8} {offset : ℕ}
    (hreal : makeRealPath fs.realPath path = absolute l) (hdirect : Direct (look t.objects) l)
    (hlast : (look t.objects l).isLink = false)
    (h : ServerFileSystem.writeFile fs t user path data offset now = (.ok (), t')) :
    ∃ i, t'.objects = Function.update t.objects l (some i) ∧
      ((t.objects l = none ∧ i.kind = .file (FileBytes.writeAt 0 [] offset data) ∧
          i.mode = 0o100644 ∧ i.uid = user.userId ∧ i.gid = user.groupId) ∨
        ∃ j bytes, t.objects l = some j ∧ j.kind = .file bytes ∧
          i.kind = .file (FileBytes.writeAt 0 bytes offset data) ∧ i.mode = j.mode ∧
          i.uid = j.uid ∧ i.gid = j.gid) := by
  unfold ServerFileSystem.writeFile at h
  rw [hreal] at h
  dsimp only at h
  rw [lstat_direct t.grounded hdirect] at h
  by_cases hopen : ServerRewrites.Openable t.objects (absolute l)
  · obtain ⟨k, t₁, i, bytes, hcall, hk, -, hkind, ho, hwas⟩ :=
      ServerRewrites.openCreate_open now hopen
    obtain rfl := resolve_direct hdirect (fun _ => hlast) hk
    rw [hcall] at h
    dsimp only at h
    by_cases hfar : 2 ^ 63 ≤ offset
    · rw [if_pos hfar] at h
      cases (Prod.mk.inj h).1
    rw [if_neg hfar] at h
    have hself : t₁.objects k = some i := by rw [ho, Function.update_self]
    obtain ⟨j, hj, hjkind, hjmode, hjuid, hjgid⟩ :=
      ServerRewrites.pwrite_objects data offset now hself hkind
    rw [ho, Function.update_idem] at hj
    have hjself : (PosixCalls.pwrite t₁ k data offset now).objects k = some j := by
      rw [hj, Function.update_self]
    rcases hwas with hwas | ⟨hnone, rfl⟩
    · rw [hwas, Option.map_some, Option.isNone_some, if_neg Bool.false_ne_true] at h
      obtain ⟨-, rfl⟩ := Prod.mk.inj h
      exact ⟨j, hj, .inr ⟨i, bytes, hwas, hkind, hjkind, hjmode, hjuid, hjgid⟩⟩
    · rw [hnone, Option.map_none, Option.isNone_none, if_pos rfl] at h
      have hchanged := setOwner_objects hjself (by rw [hjkind]; rfl) h
      rw [hj, Function.update_idem] at hchanged
      obtain rfl : bytes = [] := by
        injection hkind.symm
      have hmode : (j.chown user.userId user.groupId now).mode = 0o100644 := by
        rw [Inode.chown_file hjkind, hjmode]
        exact disowned_created
      exact ⟨_, hchanged, .inl ⟨hnone, hjkind, hmode, rfl, rfl⟩⟩
  · obtain ⟨e, he⟩ := ServerRewrites.openCreate_closed now hopen
    rw [he] at h
    cases (Prod.mk.inj h).1

theorem create_objects (hdirect : Direct (look t.objects) l)
    (h : PosixCalls.create t (absolute l) i = .ok t') :
    t.objects l = none ∧ t'.objects = Function.update t.objects l (some i) := by
  obtain ⟨k, hk, hfree, ho⟩ := ServerGrowth.create_ok h
  obtain rfl := place_direct hdirect hk
  exact ⟨hfree, ho⟩

theorem symlink_objects {target : String} (hdirect : Direct (look t.objects) l)
    (h : PosixCalls.symlink t target (absolute l) now = .ok t') :
    t.objects l = none ∧ t'.objects =
      Function.update t.objects l (some ⟨.symlink target, 0o120777, 0, 0, now, now, now⟩) := by
  obtain ⟨-, k, hk, hfree, ho⟩ := ServerGrowth.symlink_ok h
  obtain rfl := place_direct hdirect hk
  exact ⟨hfree, ho⟩

theorem makeDir_objects {name : Path} {len : ℕ}
    (hreal : (makeRealPath fs.realPath path).join name = absolute l)
    (hdirect : Direct (look t.objects) l)
    (h : ServerFileSystem.makeDir fs t user path name len now = (.ok (), t')) :
    t.objects l = none ∧ t'.objects = Function.update t.objects l
      (some ⟨.directory len, 0o040755, user.userId, user.groupId, now, now, now⟩) := by
  unfold ServerFileSystem.makeDir at h
  rw [hreal] at h
  dsimp only at h
  split at h
  · cases (Prod.mk.inj h).1
  · split at h
    · cases (Prod.mk.inj h).1
    · rename_i t₁ hmkdir
      obtain ⟨hfree, ho⟩ := create_objects hdirect hmkdir
      refine ⟨hfree, ?_⟩
      have hself : t₁.objects l = some ⟨.directory len, 0o040755, 0, 0, now, now, now⟩ := by
        rw [ho, Function.update_self]
      rw [setOwner_objects hself rfl h, ho, Function.update_idem]
      rfl

theorem createSymlink_objects {target : String} {a : Attributes}
    (hreal : makeRealPath fs.realPath path = absolute l) (hdirect : Direct (look t.objects) l)
    (h : ServerFileSystem.createSymlink fs t path target now = (.ok a, t')) :
    t.objects l = none ∧ t'.objects = Function.update t.objects l
        (some ⟨.symlink target, 0o120777, 0, 0, now, now, now⟩) ∧
      a = fileAttr ⟨.symlink target, 0o120777, 0, 0, now, now, now⟩ := by
  unfold ServerFileSystem.createSymlink at h
  rw [hreal] at h
  dsimp only at h
  split at h
  · cases (Prod.mk.inj h).1
  · split at h
    · cases (Prod.mk.inj h).1
    · rename_i t₁ hsymlink
      obtain ⟨hfree, ho⟩ := symlink_objects hdirect hsymlink
      obtain ⟨ha, rfl⟩ := Prod.mk.inj h
      refine ⟨hfree, ho, ?_⟩
      rw [getAttributesByPath, lstat_reaches t₁.grounded (l := l) (by
        rw [ho, Function.update_self])] at ha
      exact (Except.ok.inj ha).symm

def sized (size : Option ℕ) (k : Kind) : Kind :=
  match size, k with
  | some size, .file bytes => .file (FileBytes.resize 0 bytes size)
  | _, k => k

theorem chown_mode (i : Inode) (uid gid : ℕ) (now : Timestamp) :
    (i.chown uid gid now).mode = (shown i.kind).disowned i.mode := by
  rw [Inode.chown]
  cases i.kind <;> rfl

theorem differs_iff {request : Option ℕ} {current : ℕ} :
    ServerAttributeCalls.Differs request current ↔ request.getD current ≠ current := by
  cases request with
  | none => exact iff_of_false (fun h => h.1 rfl) fun h => h rfl
  | some id =>
    exact ⟨fun h he => h.2 (congrArg some he), fun h => ⟨Option.some_ne_none _, fun he =>
      h (Option.some.inj he)⟩⟩

open ServerAttributeCalls (Found effect noFaults) in
theorem stage_fields (new : SetAttr) (now : Timestamp) (i : Inode) :
    let j := ServerAttributeRequests.stage new now i ServerAttributeRequests.allParts
    j.kind = sized new.size i.kind ∧
    (j.mode = if new.uid.getD i.uid = i.uid ∧ new.gid.getD i.gid = i.gid then
      chmodded new i.mode else (shown i.kind).disowned (chmodded new i.mode)) ∧
    j.uid = new.uid.getD i.uid ∧ j.gid = new.gid.getD i.gid := by
  intro j
  obtain ⟨i₁, hi₁⟩ : ∃ i₁, i₁ = effect new now i .mode := ⟨_, rfl⟩
  obtain ⟨i₂, hi₂⟩ : ∃ i₂, i₂ = effect new now i₁ .owner := ⟨_, rfl⟩
  obtain ⟨i₃, hi₃⟩ : ∃ i₃, i₃ = effect new now i₂ .size := ⟨_, rfl⟩
  have hj : j = effect new now i₃ .times := by
    rw [hi₃, hi₂, hi₁]
    rfl
  have hmode : i₁.kind = i.kind ∧ i₁.uid = i.uid ∧ i₁.gid = i.gid ∧
      i₁.mode = chmodded new i.mode := by
    rw [hi₁, effect, chmodded]
    cases new.mode <;> exact ⟨rfl, rfl, rfl, rfl⟩
  have howner : i₂.kind = i₁.kind ∧
      (i₂.mode = if new.uid.getD i₁.uid = i₁.uid ∧ new.gid.getD i₁.gid = i₁.gid then i₁.mode
        else (shown i₁.kind).disowned i₁.mode) ∧
      i₂.uid = new.uid.getD i₁.uid ∧ i₂.gid = new.gid.getD i₁.gid := by
    rw [hi₂, effect]
    by_cases hd : ServerAttributeCalls.Differs new.uid i₁.uid ∨
        ServerAttributeCalls.Differs new.gid i₁.gid
    · rw [if_pos hd, if_neg fun hsame => hd.elim (fun h => differs_iff.mp h hsame.1)
        fun h => differs_iff.mp h hsame.2]
      exact ⟨rfl, chown_mode .., rfl, rfl⟩
    · have hu := not_not.mp (mt differs_iff.mpr fun h => hd (.inl h))
      have hg := not_not.mp (mt differs_iff.mpr fun h => hd (.inr h))
      rw [if_neg hd, if_pos ⟨hu, hg⟩]
      exact ⟨rfl, rfl, hu.symm, hg.symm⟩
  have hsize : i₃.mode = i₂.mode ∧ i₃.uid = i₂.uid ∧ i₃.gid = i₂.gid ∧
      i₃.kind = sized new.size i₂.kind := by
    rw [hi₃, effect]
    cases new.size with
    | none => exact ⟨rfl, rfl, rfl, rfl⟩
    | some size =>
      cases hkind : i₂.kind with
      | file bytes => exact ⟨rfl, rfl, rfl, rfl⟩
      | directory len => exact ⟨rfl, rfl, rfl, hkind⟩
      | symlink target => exact ⟨rfl, rfl, rfl, hkind⟩
  have htimes : j.kind = i₃.kind ∧ j.mode = i₃.mode ∧ j.uid = i₃.uid ∧ j.gid = i₃.gid := by
    rw [hj]
    exact ⟨rfl, rfl, rfl, rfl⟩
  refine ⟨?_, ?_, ?_, ?_⟩
  · rw [htimes.1, hsize.2.2.2, howner.1, hmode.1]
  · rw [htimes.2.1, hsize.1, howner.2.1, hmode.1, hmode.2.1, hmode.2.2.1, hmode.2.2.2]
  · rw [htimes.2.2.1, hsize.2.1, howner.2.2.1, hmode.2.1]
  · rw [htimes.2.2.2, hsize.2.2.1, howner.2.2.2, hmode.2.2.1]

open ServerAttributeCalls (Found noFaults) in
/-- A granted request finds an object, changes it alone, and answers what it has left. -/
theorem setAttributes_objects {new : SetAttr} {a : Attributes}
    (hreal : makeRealPath fs.realPath path = absolute l) (hdirect : Direct (look t.objects) l)
    (hlast : (look t.objects l).isLink = false)
    (h : (ServerAttributeCalls.setAttributes fs user path new now noFaults t.objects).1 = .ok a) :
    ∃ i, t.objects l = some i ∧ (∀ size, new.size = some size → i.kind.look ≠ .directory) ∧
      (ServerAttributeCalls.setAttributes fs user path new now noFaults t.objects).2 =
        Function.update t.objects l
          (some (ServerAttributeRequests.stage new now i ServerAttributeRequests.allParts)) ∧
      a = fileAttr (ServerAttributeRequests.stage new now i ServerAttributeRequests.allParts) := by
  have hlook : look (ServerAttributeCalls.setAttributes fs user path new now noFaults
      t.objects).2 = look t.objects := setAttributes_look t.objects
  -- The answer was read from an object, so there was one before.
  have hanswer : getAttributesByPath (ServerAttributeCalls.setAttributes fs user path new now
      noFaults t.objects).2 (absolute l) = .ok a := by
    unfold ServerAttributeCalls.setAttributes at h ⊢
    split
    · rename_i hrow
      rw [hrow] at h
      cases h
    · rename_i u hrow
      rw [hrow] at h
      have hcall := orFail_ok.mp h
      rw [hreal] at hcall
      exact hcall
  have hground : Grounded (look (ServerAttributeCalls.setAttributes fs user path new now noFaults
      t.objects).2) := hlook ▸ t.grounded
  have hobj : t.objects l ≠ none := by
    intro hnone
    have hgone := look_missing.mp (by rw [hlook, look_missing.mpr hnone])
    rw [getAttributesByPath, lstat_direct hground (hlook ▸ hdirect), hgone] at hanswer
    cases hanswer
  obtain ⟨i, hi⟩ := Option.ne_none_iff_exists'.mp hobj
  have hfound : Found fs path t.objects l i := by
    refine ⟨?_, ?_⟩
    · rw [hreal]
      exact lstat_reaches t.grounded hi
    · rwa [look_some hi] at hlast
  have hpasses := (ServerAttributeRequests.succeeds_iff hfound).mp ⟨a, h⟩
  have hrow := ServerAttributeRequests.row_of_passes hfound hpasses
  have htree : (ServerAttributeCalls.setAttributes fs user path new now noFaults t.objects).2 =
      Function.update t.objects l
        (some (ServerAttributeRequests.stage new now i ServerAttributeRequests.allParts)) :=
    (ServerAttributeRequests.setAttributes_row t.objects).1.trans (congrArg Prod.snd hrow)
  refine ⟨i, hi, fun size hsize hdir => ?_, htree, ?_⟩
  · obtain ⟨-, -, -, -, hsized, -⟩ := hpasses
    refine hsized ⟨size, hsize, .inr (.inr (.inl ?_))⟩
    rw [ServerAttributeRequests.effect_look, ServerAttributeRequests.effect_look, hdir]
  · rw [getAttributesByPath, lstat_reaches hground (by rw [htree, Function.update_self])]
      at hanswer
    exact (Except.ok.inj hanswer).symm

/-- A rename moves a subtree, unless both names are one. -/
theorem rename_moves {old new : Path} {lo ln : Location} {flags : ServerFileSystem.RenameFlags}
    (hold : makeRealPath fs.realPath old = absolute lo)
    (hnew : makeRealPath fs.realPath new = absolute ln)
    (hlo : Direct (look t.objects) lo) (hln : Direct (look t.objects) ln)
    (hx : flags.exchange = false)
    (h : ServerFileSystem.rename fs t old new flags = (.ok (), t')) :
    t.objects lo ≠ none ∧ (flags.noreplace = true → t.objects ln = none) ∧
      ((lo = ln ∧ t'.objects = t.objects) ∨
        Apart lo ln ∧ t'.objects = moved t.objects lo ln) := by
  rcases ServerGrowth.rename_cases fs t old new hx with ⟨e, he⟩ | ⟨u, hfree, hcall, hok⟩
  · cases (Prod.mk.inj (he.symm.trans h)).1
  obtain rfl := (Prod.mk.inj (hok.symm.trans h)).2
  rw [hnew, lstat_direct t.grounded hln, Option.map_eq_none_iff] at hfree
  rw [hold, hnew] at hcall
  obtain ⟨ko, kn, hko, hkn, hcase⟩ := PosixCalls.rename_objects hcall
  obtain rfl := place_direct hlo hko
  obtain rfl := place_direct hln hkn
  rcases hcase with ⟨hobj, hsame, rfl⟩ | ⟨hr, ho⟩
  · exact ⟨hobj, hfree, .inl ⟨hsame, rfl⟩⟩
  · exact ⟨hr.object, hfree, .inr ⟨hr.apart, ho⟩⟩

theorem exchange_parks {old new : Path} {lo : Location} {flags : ServerFileSystem.RenameFlags}
    (hold : makeRealPath fs.realPath old = absolute lo) (hx : flags.exchange = true)
    (h : ServerFileSystem.rename fs t old new flags = (.ok (), t')) :
    ∃ k, place t.objects ((absolute lo).withExtension ".swap_tmp") = some k := by
  rw [ServerFileSystem.rename, if_pos hx, hold] at h
  have hends := ServerExchange.renameExchange_ends t (absolute lo) (makeRealPath fs.realPath new)
  rw [h] at hends
  cases hends with
  | finished t₁ t₂ _ h₁ h₂ h₃ =>
    obtain ⟨-, k, -, hk, -⟩ := PosixCalls.rename_objects h₁
    exact ⟨k, hk⟩

open ServerExchange in
/-- With the temporary name free, an exchange swaps what stands at the two names. -/
theorem exchange_swaps {old new : Path} {lo ln : Location} {flags : ServerFileSystem.RenameFlags}
    (hold : makeRealPath fs.realPath old = absolute lo)
    (hnew : makeRealPath fs.realPath new = absolute ln)
    (hlo : Direct (look t.objects) lo) (hln : Direct (look t.objects) ln)
    (hx : flags.exchange = true) (hfree : t.objects (tempOf lo) = none)
    (hobj : t.objects ln ≠ none)
    (h : ServerFileSystem.rename fs t old new flags = (.ok (), t')) :
    t.objects lo ≠ none ∧ Apart lo ln ∧ Exchanged t.objects t'.objects lo ln := by
  rw [ServerFileSystem.rename, if_pos hx, hold, hnew] at h
  have hends := renameExchange_ends t (absolute lo) (absolute ln)
  rw [h] at hends
  cases hends with
  | finished t₁ t₂ _ h₁ h₂ h₃ =>
    obtain ⟨k, hk, hr, ho⟩ := parks h₁
    obtain rfl := place_direct hlo hk
    obtain ⟨b, hb, -, hapart, hex⟩ := exchanged_of_free hk hr hfree ho h₂ h₃
    -- What stands at the second name is not below the temporary one.
    have hstays : Direct (look t₁.objects) ln := by
      intro j hj hne
      rw [ho]
      rcases moved_cases t.objects hr.apart j with ⟨s, rfl, -⟩ | ⟨-, he⟩ | ⟨ha, hb, -⟩
      · obtain ⟨u, rfl⟩ := hj
        rw [List.append_assoc] at hobj
        exact (hobj (free_below hfree _)).elim
      · rw [look_missing.mpr he]
        rfl
      · rw [look_moved_other ha hb]
        exact hln j hj hne
    obtain rfl := place_direct hstays hb
    exact ⟨hr.object, hapart, hex⟩

theorem setOwner_ok (hobj : t.objects l = some i) (hlink : i.kind.look.isLink = false) :
    (ServerFileSystem.setOwner t user (absolute l) now).1 = .ok () := by
  have hfound : objectAt t.objects true (absolute l) = some (l, i) :=
    objectAt_reaches t.grounded hobj fun _ => hlink
  unfold ServerFileSystem.setOwner PosixCalls.chown
  split
  · rfl
  · rename_i e herror
    split at herror
    · rename_i hnone
      cases hnone.symm.trans hfound
    · cases herror

theorem writeFile_refused {data : List UInt8} {offset : ℕ} {e : StorageError}
    (hreal : makeRealPath fs.realPath path = absolute l) (hdirect : Direct (look t.objects) l)
    (hlast : (look t.objects l).isLink = false) (hnear : offset < 2 ^ 63)
    (h : ServerFileSystem.writeFile fs t user path data offset now = (.error e, t')) : t' = t := by
  unfold ServerFileSystem.writeFile at h
  rw [hreal] at h
  dsimp only at h
  by_cases hopen : ServerRewrites.Openable t.objects (absolute l)
  · obtain ⟨k, t₁, i, bytes, hcall, hk, -, hkind, ho, -⟩ :=
      ServerRewrites.openCreate_open now hopen
    obtain rfl := resolve_direct hdirect (fun _ => hlast) hk
    obtain ⟨j, hj, hjkind, -⟩ := ServerRewrites.pwrite_objects data offset now (by
      rw [ho, Function.update_self]) hkind
    have howner : (ServerFileSystem.setOwner (PosixCalls.pwrite t₁ k data offset now) user
        (absolute k) now).1 = .ok () :=
      setOwner_ok (i := j) (by rw [hj, Function.update_self]) (by rw [hjkind]; rfl)
    rw [hcall] at h
    dsimp only at h
    rw [if_neg (Nat.not_le.mpr hnear)] at h
    split at h
    · rw [h] at howner
      cases howner
    · cases (Prod.mk.inj h).1
  · obtain ⟨e, he⟩ := ServerRewrites.openCreate_closed now hopen
    rw [he] at h
    exact (Prod.mk.inj h).2.symm

theorem makeDir_refused {name : Path} {len : ℕ} {e : StorageError}
    (hreal : (makeRealPath fs.realPath path).join name = absolute l)
    (hdirect : Direct (look t.objects) l)
    (h : ServerFileSystem.makeDir fs t user path name len now = (.error e, t')) : t' = t := by
  unfold ServerFileSystem.makeDir at h
  rw [hreal] at h
  dsimp only at h
  split at h
  · exact (Prod.mk.inj h).2.symm
  · split at h
    · exact (Prod.mk.inj h).2.symm
    · rename_i t₁ hmkdir
      obtain ⟨-, ho⟩ := create_objects hdirect hmkdir
      have howner : (ServerFileSystem.setOwner t₁ user (absolute l) now).1 = .ok () :=
        setOwner_ok (by rw [ho, Function.update_self]) rfl
      rw [h] at howner
      cases howner

theorem createSymlink_refused {target : String} {e : StorageError}
    (hreal : makeRealPath fs.realPath path = absolute l) (hdirect : Direct (look t.objects) l)
    (h : ServerFileSystem.createSymlink fs t path target now = (.error e, t')) : t' = t := by
  unfold ServerFileSystem.createSymlink at h
  rw [hreal] at h
  dsimp only at h
  split at h
  · exact (Prod.mk.inj h).2.symm
  · split at h
    · exact (Prod.mk.inj h).2.symm
    · rename_i t₁ hsymlink
      obtain ⟨-, ho⟩ := symlink_objects hdirect hsymlink
      rw [getAttributesByPath, lstat_reaches t₁.grounded (l := l) (by
        rw [ho, Function.update_self])] at h
      cases (Prod.mk.inj h).1

end Storage

/-! One request on both sides -/

/-- A granted request: the model grants it with the same answer, times apart, and both sides have
come to the same tree. -/
def Carried (root : Location) (done : Except Refusal Reply × Server)
    (o : Option (Reply × Remote)) : Prop :=
  ∀ a, done.1 = .ok a → ∃ a' r', o = some (a', r') ∧ a.untimed = a'.untimed ∧
    Shows root done.2.tree.objects r'

section Steps

variable {fs : FileSystem} {s : Server} {user : AuthenticatedUser} {root l : Location}
  {r r' : Remote} {m : Moment} {ns : List String} {i : Inode} {done : Except Refusal Reply × Server}

theorem untimed_fileAttr {info : Meta} (h : Facts.ofMeta (shown i.kind) info = .ofInode i) :
    untimed (fileAttr i) = untimed (attributesOf (shown i.kind) info) := by
  have hperm : info.perm = i.mode := congrArg Facts.perm h
  have huid : info.uid = i.uid := congrArg Facts.uid h
  have hgid : info.gid = i.gid := congrArg Facts.gid h
  cases hkind : i.kind <;>
    simp [untimed, fileAttr, attributesOf, hkind, shown, Content.size, Content.kind, hperm, huid,
      hgid]

theorem told {t : Tree} (hs : Shows root t r) (hobj : t (root ++ l) = some i) :
    ∃ a', withReply (withAttributes (absolute l) (some r)) = some (.attributes a', r) ∧
      untimed (fileAttr i) = untimed a' := by
  obtain ⟨hnode, hfacts⟩ := hs.of_some hobj
  refine ⟨attributesOf (shown i.kind) (r.info (absolute l)), ?_, untimed_fileAttr hfacts⟩
  simp only [withReply, withAttributes, Option.bind_some, Remote.getAttributes, hnode,
    Option.map_some]

theorem getAttributes_answer (hroot : fs.realPath = absolute root) {s : Server}
    {a : Reply} (h : (replied (ServerRequests.getAttributes fs (absolute l) s)).1 = .ok a)
    (hobj : s.tree.objects (root ++ l) = some i) :
    a = .attributes (fileAttr i) ∧
      (replied (ServerRequests.getAttributes fs (absolute l) s)).2 = s := by
  unfold ServerRequests.getAttributes at h ⊢
  rw [hroot, realPath_absolute, getAttributesByPath, lstat_reaches s.tree.grounded hobj] at h ⊢
  exact ⟨(Except.ok.inj h).symm, rfl⟩

theorem carried_told (hroot : fs.realPath = absolute root)
    (hanswer : done = replied (ServerRequests.getAttributes fs (absolute l) s))
    (hs : Shows root s.tree.objects r) (hobj : s.tree.objects (root ++ l) = some i) :
    Carried root done (withReply (withAttributes (absolute l) (some r))) := by
  subst hanswer
  intro a ha
  obtain ⟨rfl, hserver⟩ := getAttributes_answer hroot ha hobj
  obtain ⟨a', ha', huntimed⟩ := told hs hobj
  refine ⟨.attributes a', r, ha', congrArg Reply.attributes huntimed, ?_⟩
  rw [hserver]
  exact hs

theorem replied_ok {a : Reply} {answer : ServerRequests.Answer} (h : (replied answer).1 = .ok a) :
    ∃ b, answer.1 = .ok b := by
  obtain ⟨e | b, s⟩ := answer
  · cases h
  · exact ⟨b, rfl⟩

theorem shows_session {t : Tree} (h : Shows root t r) (user : AuthenticatedUser) :
    Shows root t (session r user) := h.congr rfl rfl

theorem pathOf_eq (ns : List String) : pathOf ns = absolute (locationOf ns) := rfl

theorem locationOf_ne_nil (h : ns ≠ []) : locationOf ns ≠ [] := by
  rwa [locationOf, Ne, List.map_eq_nil_iff]

theorem carried_readFile (hroot : fs.realPath = absolute root)
    (hs : Shows root s.tree.objects r) {offset size : ℕ}
    (hres : Resolved r (.readFile ns offset size)) :
    Carried root ((Request.readFile ns offset size).serve fs s user m)
      ((Request.readFile ns offset size).carry r user m.now) := by
  obtain ⟨hnames, hfollows⟩ := hres
  intro a ha
  have hdirect := direct_of_reaches hs hfollows.1
  have hlast := hs.isLink hfollows.2
  dsimp only [Request.serve, Request.carry, readFile] at ha ⊢
  rw [components_spell hnames, pathOf_eq] at ha
  rw [pathOf_eq]
  cases hread : Routes.getFileContent fs s.tree.objects user (absolute (locationOf ns)) offset
      size with
  | error e =>
    rw [hread] at ha
    cases ha
  | ok content =>
    rw [hread] at ha
    obtain rfl := Except.ok.inj ha
    obtain ⟨-, -, hread⟩ := bind_ok hread
    unfold ServerStorage.FileSystem.readFile at hread
    rw [hroot, realPath_absolute, target, objectAt_direct s.tree.grounded hdirect fun _ => hlast]
      at hread
    cases hobj : s.tree.objects (root ++ locationOf ns) with
    | none =>
      rw [hobj] at hread
      cases hread
    | some i =>
      rw [hobj] at hread
      obtain ⟨hnode, -⟩ := (shows_session hs user).of_some hobj
      cases hkind : i.kind with
      | file bytes =>
        simp only [Option.map_some, hkind] at hread
        obtain rfl := Except.ok.inj hread
        refine ⟨.bytes (FileBytes.slice bytes offset size), _, ?_, rfl, shows_session hs user⟩
        simp only [Remote.readFile, hnode, hkind, shown, Option.map_some]
      | directory len =>
        simp only [Option.map_some, hkind] at hread
        cases hread
      | symlink target =>
        simp only [Option.map_some, hkind] at hread
        cases hread

theorem carried_getAttributes (hroot : fs.realPath = absolute root)
    (hs : Shows root s.tree.objects r) (hres : Resolved r (.getAttributes ns)) :
    Carried root ((Request.getAttributes ns).serve fs s user m)
      ((Request.getAttributes ns).carry r user m.now) := by
  obtain ⟨hnames, hreaches⟩ := hres
  have hdirect := direct_of_reaches hs hreaches
  dsimp only [Request.serve, Request.carry]
  rw [components_spell hnames, pathOf_eq]
  cases hobj : s.tree.objects (root ++ locationOf ns) with
  | none =>
    intro a ha
    unfold ServerRequests.getAttributes at ha
    rw [hroot, realPath_absolute, getAttributesByPath, lstat_direct s.tree.grounded hdirect,
      hobj] at ha
    cases ha
  | some i => exact carried_told hroot rfl (shows_session hs user) hobj

/-- The file that a granted write leaves is the one that the model writes. -/
theorem shows_writeFile {t t' : FileTree} {offset : ℕ} {data : List UInt8} (now : Timestamp)
    (hs : Shows root t.objects r) (hl : l ≠ [])
    (ho : t'.objects = Function.update t.objects (root ++ l) (some i))
    (hcase : (t.objects (root ++ l) = none ∧ i.kind = .file (FileBytes.writeAt 0 [] offset data) ∧
        i.mode = 0o100644 ∧ i.uid = r.userId ∧ i.gid = r.groupId) ∨
      ∃ j bytes, t.objects (root ++ l) = some j ∧ j.kind = .file bytes ∧
        i.kind = .file (FileBytes.writeAt 0 bytes offset data) ∧ i.mode = j.mode ∧
        i.uid = j.uid ∧ i.gid = j.gid) :
    ∃ r', r.writeFile (absolute l) offset data now = some r' ∧ Shows root t'.objects r' := by
  rcases hcase with ⟨hnone, hkind, hmode, huid, hgid⟩ | ⟨j, bytes, hj, hjkind, hkind, hmode, huid,
    hgid⟩
  · have hnode := hs.none_iff.mpr hnone
    refine ⟨_, by rw [Remote.writeFile, hnode], ?_⟩
    refine hs.put (c := .file (FileBytes.writeAt 0 [] offset data)) (.inl hl) ho ?_ rfl ?_
    · rw [Nodes.write, hnode]
      rfl
    · simp only [Facts.ofMeta, Facts.ofInode, hkind, shown, Remote.created, hmode, huid, hgid]
  · obtain ⟨hnode, hfacts⟩ := hs.of_some hj
    rw [hjkind] at hnode hfacts
    have hperm : (r.info (absolute l)).perm = j.mode := congrArg Facts.perm hfacts
    have hu : (r.info (absolute l)).uid = j.uid := congrArg Facts.uid hfacts
    have hg : (r.info (absolute l)).gid = j.gid := congrArg Facts.gid hfacts
    refine ⟨_, by rw [Remote.writeFile, hnode]; rfl, ?_⟩
    by_cases hdata : data = []
    · refine hs.put (c := .file (FileBytes.writeAt 0 bytes offset data)) (.inl hl) ho ?_
        ((if_pos hdata).trans (Function.update_eq_self (absolute l) r.info).symm) ?_
      · rw [Nodes.write, hnode]
        rfl
      · simp only [Facts.ofMeta, Facts.ofInode, hkind, shown, hmode, huid, hgid, hperm, hu, hg]
    · refine hs.put (c := .file (FileBytes.writeAt 0 bytes offset data)) (.inl hl) ho ?_
        (if_neg hdata) ?_
      · rw [Nodes.write, hnode]
        rfl
      · simp only [Facts.ofMeta, Facts.ofInode, hkind, shown, hmode, huid, hgid, hperm, hu, hg]

theorem carried_writeFile (hroot : fs.realPath = absolute root)
    (hs : Shows root s.tree.objects r) {offset : ℕ} {data : List UInt8}
    (hres : Resolved r (.writeFile ns offset data)) :
    Carried root ((Request.writeFile ns offset data).serve fs s user m)
      ((Request.writeFile ns offset data).carry r user m.now) := by
  obtain ⟨hne, hnames, hfollows, -⟩ := hres
  have hdirect := direct_of_reaches hs hfollows.1
  have hlast := hs.isLink hfollows.2
  intro a ha
  dsimp only [Request.serve, ServerRequests.serve, Request.carry] at ha ⊢
  unfold ServerRequests.writeFile at ha ⊢
  rw [components_spell hnames] at ha ⊢
  rw [pathOf_eq] at ha ⊢
  obtain ⟨b, hb⟩ := replied_ok ha
  obtain ⟨-, heq⟩ := ServerRequests.checked_ok hb
  rw [heq] at ha hb ⊢
  obtain ⟨u, t, hwrite, heq⟩ := ServerRequests.thenTree_ok hb
  rw [heq] at ha ⊢
  obtain ⟨i, ho, hcase⟩ :=
    writeFile_objects (by rw [hroot, realPath_absolute]) hdirect hlast hwrite
  obtain ⟨r', hr', hs'⟩ := shows_writeFile m.now (shows_session hs user)
    (locationOf_ne_nil hne) ho hcase
  rw [hr']
  exact carried_told hroot rfl hs' (by rw [ho, Function.update_self]) a ha

theorem carried_mkdir (hroot : fs.realPath = absolute root) (hs : Shows root s.tree.objects r)
    (hlen : m.len = 4096) (hres : Resolved r (.mkdir ns)) :
    Carried root ((Request.mkdir ns).serve fs s user m)
      ((Request.mkdir ns).carry r user m.now) := by
  obtain ⟨hne, hnames, hreaches, -⟩ := hres
  have hdirect := direct_of_reaches hs hreaches
  intro a ha
  dsimp only [Request.serve, ServerRequests.serve, Request.carry] at ha ⊢
  obtain ⟨parent, n, rfl⟩ := (List.eq_nil_or_concat ns).resolve_left hne
  rw [List.concat_eq_append] at *
  have hn : Name n := hnames n (by simp)
  have hparent : Names parent := fun k hk => hnames k (List.mem_append_left _ hk)
  unfold ServerRequests.makeDirectory at ha ⊢
  rw [rsplitOnce_spell hn] at ha ⊢
  dsimp only at ha ⊢
  rw [components_parent hparent, hn.components, components_spell hnames] at ha ⊢
  rw [pathOf_eq, pathOf_eq] at ha ⊢
  obtain ⟨b, hb⟩ := replied_ok ha
  obtain ⟨-, heq⟩ := ServerRequests.checked_ok hb
  rw [heq] at ha hb ⊢
  obtain ⟨u, t, hmake, heq⟩ := ServerRequests.thenTree_ok hb
  rw [heq] at ha ⊢
  have hreal : (makeRealPath fs.realPath (absolute (locationOf parent))).join
      [.normal (.text n)] = absolute (root ++ locationOf (parent ++ [n])) := by
    rw [hroot, realPath_absolute, join_absolute, List.append_assoc, locationOf, locationOf,
      List.map_append]
    rfl
  obtain ⟨hfree, ho⟩ := makeDir_objects hreal hdirect hmake
  rw [hlen] at ho
  have hnode := (shows_session hs user).none_iff.mpr hfree
  obtain ⟨r', hr', hs'⟩ : ∃ r', (session r user).mkdir
      (absolute (locationOf (parent ++ [n]))) m.now = some r' ∧ Shows root t.objects r' := by
    refine ⟨_, by rw [Remote.mkdir, hnode], ?_⟩
    exact (shows_session hs user).put (.inl (locationOf_ne_nil hne)) ho rfl rfl rfl
  rw [hr']
  exact carried_told hroot rfl hs' (by rw [ho, Function.update_self]) a ha

theorem carried_createSymlink (hroot : fs.realPath = absolute root)
    (hs : Shows root s.tree.objects r) {target : String}
    (hres : Resolved r (.createSymlink ns target)) :
    Carried root ((Request.createSymlink ns target).serve fs s user m)
      ((Request.createSymlink ns target).carry r user m.now) := by
  obtain ⟨hne, hnames, hreaches, -⟩ := hres
  have hdirect := direct_of_reaches hs hreaches
  intro a ha
  dsimp only [Request.serve, ServerRequests.serve, Request.carry] at ha ⊢
  unfold ServerRequests.createSymlink at ha ⊢
  rw [components_spell hnames] at ha ⊢
  rw [pathOf_eq] at ha ⊢
  obtain ⟨b, hb⟩ := replied_ok ha
  obtain ⟨-, heq⟩ := ServerRequests.checked_ok hb
  rw [heq] at ha hb ⊢
  obtain ⟨attributes, t, hlink, heq⟩ := ServerRequests.thenTree_ok hb
  rw [heq] at ha ⊢
  obtain ⟨hfree, ho, rfl⟩ :=
    createSymlink_objects (by rw [hroot, realPath_absolute]) hdirect hlink
  obtain rfl := (Except.ok.inj ha).symm
  have hnode := (shows_session hs user).none_iff.mpr hfree
  obtain ⟨r', hr', hs'⟩ : ∃ r', (session r user).createSymlink
      (absolute (locationOf ns)) target m.now = some r' ∧ Shows root t.objects r' := by
    refine ⟨_, by rw [Remote.createSymlink, hnode], ?_⟩
    exact (shows_session hs user).put (.inl (locationOf_ne_nil hne)) ho rfl rfl rfl
  rw [hr']
  obtain ⟨a', ha', huntimed⟩ := told hs' (l := locationOf ns) (by rw [ho, Function.update_self])
  exact ⟨.attributes a', r', ha', congrArg Reply.attributes huntimed, hs'⟩

/-- A change of attributes in all its parts is one step of the model. -/
theorem shows_staged {t : Tree} {new : SetAttr} {now : Timestamp} {i : Inode} (hs : Shows root t r)
    (hi : t (root ++ l) = some i) (hlast : (look t (root ++ l)).isLink = false)
    (hsized : ∀ size, new.size = some size → i.kind.look ≠ .directory) :
    ∃ r', r.setAttributes (absolute l) new now = some r' ∧
      Shows root (Function.update t (root ++ l) (some (ServerAttributeRequests.stage new now i
        ServerAttributeRequests.allParts))) r' := by
  obtain ⟨hkind, hmode, huid, hgid⟩ := stage_fields new now i
  obtain ⟨j, hj⟩ : ∃ j, j = ServerAttributeRequests.stage new now i
    ServerAttributeRequests.allParts := ⟨_, rfl⟩
  rw [← hj] at hkind hmode huid hgid ⊢
  obtain ⟨hnode, hfacts⟩ := hs.of_some hi
  have hperm : (r.info (absolute l)).perm = i.mode := congrArg Facts.perm hfacts
  have hu : (r.info (absolute l)).uid = i.uid := congrArg Facts.uid hfacts
  have hg : (r.info (absolute l)).gid = i.gid := congrArg Facts.gid hfacts
  have hplace : l ≠ [] ∨ j.kind.look = .directory := by
    by_cases hnil : l = []
    · right
      have hhome := hs.home
      rw [hnil, List.append_nil] at hi
      rw [hj, ServerAttributeRequests.stage_look, ← look_some hi]
      exact hhome
    · exact .inl hnil
  cases hsize : new.size with
  | none =>
    have hsame : j.kind = i.kind := by
      rw [hkind, hsize]
      rfl
    refine ⟨_, by simp only [Remote.setAttributes, hnode, hsize]; rfl,
      hs.put hplace rfl (c := shown j.kind) ?_ rfl ?_⟩
    · rw [hsame, ← hnode, Function.update_eq_self]
    · simp only [Facts.ofMeta, Facts.ofInode, hmode, huid, hgid, hperm, hu, hg, hsame,
        Option.elim_some]
  | some size =>
    cases hik : i.kind with
    | directory len =>
      refine (hsized size hsize ?_).elim
      rw [hik]
      rfl
    | symlink target =>
      rw [look_some hi, hik] at hlast
      cases hlast
    | file bytes =>
      rw [hik] at hnode
      have hnew : j.kind = .file (FileBytes.resize 0 bytes size) := by
        rw [hkind, hsize, hik]
        rfl
      refine ⟨_, by simp only [Remote.setAttributes, hnode, hsize, shown]; rfl,
        hs.put hplace rfl (c := shown j.kind) ?_ rfl ?_⟩
      · dsimp only
        rw [Nodes.setSize, hnode, hnew]
        rfl
      · simp only [Facts.ofMeta, Facts.ofInode, hmode, huid, hgid, hperm, hu, hg, hik, hnew,
          Option.elim_some, shown]

theorem carried_setAttributes (hroot : fs.realPath = absolute root)
    (hs : Shows root s.tree.objects r) {new : SetAttr}
    (hres : Resolved r (.setAttributes ns new)) :
    Carried root ((Request.setAttributes ns new).serve fs s user m)
      ((Request.setAttributes ns new).carry r user m.now) := by
  obtain ⟨hnames, hfollows⟩ := hres
  have hdirect := direct_of_reaches hs hfollows.1
  have hlast := hs.isLink hfollows.2
  intro a ha
  dsimp only [Request.serve, setAttributes, Request.carry] at ha ⊢
  show ∃ a' r', _ ∧ _ ∧ Shows root (ServerAttributeCalls.setAttributes fs user
    (components (spell ns)) new m.now ServerAttributeCalls.noFaults s.tree.objects).2 r'
  rw [components_spell hnames] at ha ⊢
  rw [pathOf_eq] at ha ⊢
  cases hset : (ServerAttributeCalls.setAttributes fs user (absolute (locationOf ns)) new m.now
      ServerAttributeCalls.noFaults s.tree.objects).1 with
  | error e =>
    rw [hset] at ha
    cases e <;> cases ha
  | ok attributes =>
    rw [hset] at ha
    obtain rfl := (Except.ok.inj ha).symm
    obtain ⟨i, hi, hsized, htree, rfl⟩ :=
      setAttributes_objects (by rw [hroot, realPath_absolute]) hdirect hlast hset
    obtain ⟨r', hr', hs'⟩ := shows_staged (shows_session hs user) hi hlast hsized
    rw [hr', htree]
    obtain ⟨a', ha', huntimed⟩ := told hs' (l := locationOf ns) (Function.update_self ..)
    exact ⟨.attributes a', r', ha', congrArg Reply.attributes huntimed, hs'⟩

theorem carried_remove (hroot : fs.realPath = absolute root) (hs : Shows root s.tree.objects r)
    (hres : Resolved r (.remove ns)) :
    Carried root ((Request.remove ns).serve fs s user m)
      ((Request.remove ns).carry r user m.now) := by
  obtain ⟨hne, hnames, hreaches⟩ := hres
  have hdirect := direct_of_reaches hs hreaches
  intro a ha
  dsimp only [Request.serve, ServerRequests.serve, Request.carry] at ha ⊢
  unfold ServerRequests.deleteItem at ha ⊢
  rw [components_spell hnames] at ha ⊢
  rw [pathOf_eq] at ha ⊢
  obtain ⟨b, hb⟩ := replied_ok ha
  obtain ⟨-, heq⟩ := ServerRequests.checked_ok hb
  rw [heq] at ha hb ⊢
  obtain ⟨u, t, hdelete, heq⟩ := ServerRequests.thenTree_ok hb
  rw [heq] at ha hb ⊢
  obtain ⟨x, -, heq⟩ := ServerRequests.thenTable_ok hb
  rw [heq] at ha ⊢
  obtain rfl := (Except.ok.inj ha).symm
  rcases ServerGrowth.delete_cases fs s.tree (absolute (locationOf ns)) with
    ⟨e, he⟩ | ⟨l, t', hl, hobj, ho, hok⟩
  · cases (Prod.mk.inj (he.symm.trans hdelete)).1
  obtain rfl := (Prod.mk.inj (hok.symm.trans hdelete)).2
  rw [hroot, realPath_absolute] at hl
  obtain rfl := place_direct hdirect hl
  have hnode : (session r user).nodes (absolute (locationOf ns)) ≠ none :=
    mt (shows_session hs user).none_iff.mp hobj
  obtain ⟨c, hc⟩ := Option.ne_none_iff_exists'.mp hnode
  refine ⟨.done, { session r user with
    nodes := (session r user).nodes.remove (absolute (locationOf ns)) }, ?_, rfl, ?_⟩
  · simp only [Remote.remove, hc, Option.map_some]
  · exact (shows_session hs user).erase (locationOf_ne_nil hne) ho rfl rfl

theorem fromBitsTruncate_bits (flags : RenameFlags) :
    ServerFileSystem.RenameFlags.fromBitsTruncate (bits flags) =
      ⟨flags.noreplace, flags.exchange, flags.whiteout⟩ := by
  obtain ⟨noreplace, exchange, whiteout⟩ := flags
  cases noreplace <;> cases exchange <;> cases whiteout <;> rfl

theorem tempOf_below (hl : l ≠ []) :
    ServerExchange.tempOf (root ++ l) = root ++ ServerExchange.tempOf l := by
  obtain ⟨k, n, rfl⟩ := (List.eq_nil_or_concat l).resolve_left hl
  rw [List.concat_eq_append, ServerExchange.tempOf_concat, ← List.append_assoc,
    ServerExchange.tempOf_concat, List.append_assoc]

theorem withExtension_absolute {t : Tree} {k : Location} (hl : l ≠ [])
    (h : place t ((absolute (root ++ l)).withExtension ".swap_tmp") = some k) :
    (absolute l).withExtension ".swap_tmp" = absolute (ServerExchange.tempOf l) := by
  obtain ⟨k', n, rfl⟩ := (List.eq_nil_or_concat l).resolve_left hl
  rw [List.concat_eq_append, ServerExchange.tempOf_concat, absolute_append, absolute_append]
  have hlast : (absolute k' ++ [n].map Component.normal).fileName = some n :=
    fileName_eq_some.mpr (by rw [List.map_singleton, List.dropLast_concat])
  have hlast' : (absolute (root ++ (k' ++ [n]))).fileName = some n :=
    fileName_eq_some.mpr (by rw [← List.append_assoc, absolute_append, List.map_singleton,
      List.dropLast_concat])
  rw [List.concat_eq_append, Path.withExtension, hlast'] at h
  rw [Path.withExtension, hlast]
  dsimp only at h ⊢
  by_cases hdotted : n.dotted = true
  · rw [if_pos hdotted, place, Path.fileName, List.getLast?_concat] at h
    cases h
  rw [if_neg hdotted, Path.child, List.map_singleton, List.dropLast_concat, List.map_singleton]

theorem rename_eq {flags : RenameFlags} {a b : Location} (hobj : r.nodes (absolute a) ≠ none)
    (hx : flags.exchange = false)
    (hfree : flags.noreplace = true → r.nodes (absolute b) = none)
    (hapart : a = b ∨ ¬a <+: b ∧ ¬b <+: a) :
    r.rename (absolute a) (absolute b) flags = some { r with
      nodes := r.nodes.rename (absolute a) (absolute b)
      info := relocate r.info (r.info (absolute a)) (absolute a) (absolute b) } := by
  have hno : ¬(flags.noreplace = true ∧ r.nodes (absolute b) ≠ none) := fun h => h.2 (hfree h.1)
  have hin : ¬(absolute a ≠ absolute b ∧
      (absolute a <+: absolute b ∨ absolute b <+: absolute a)) := by
    rintro ⟨hne, hp⟩
    rw [absolute_prefix_iff, absolute_prefix_iff] at hp
    have hab : a ≠ b := fun h => hne (h ▸ rfl)
    obtain ⟨ha, hb⟩ := hapart.resolve_left hab
    exact hp.elim ha hb
  rw [Remote.rename, if_neg hobj, hx, if_neg Bool.false_ne_true, if_neg hno, if_neg hin]

theorem exchange_eq {flags : RenameFlags} {a b : Location} (ha : r.nodes (absolute a) ≠ none)
    (hb : r.nodes (absolute b) ≠ none) (hx : flags.exchange = true)
    (hapart : ¬a <+: b ∧ ¬b <+: a) :
    r.rename (absolute a) (absolute b) flags = some { r with
      nodes := relocateExchange r.nodes (absolute a) (absolute b)
      info := relocateExchange r.info (absolute a) (absolute b) } := by
  have hno : ¬(r.nodes (absolute b) = none ∨ absolute a <+: absolute b ∨
      absolute b <+: absolute a) := by
    rw [absolute_prefix_iff, absolute_prefix_iff]
    rintro (h | h | h)
    · exact hb h
    · exact hapart.1 h
    · exact hapart.2 h
  rw [Remote.rename, if_neg ha, if_pos hx, if_neg hno]

theorem rename_done {oldPath newPath : String} {flags : RenameFlags} {a : ServerRequests.Reply}
    (h : (ServerRequests.rename fs s user oldPath newPath (bits flags)).1 = .ok a) :
    a = .done ∧ ∃ t, ServerFileSystem.rename fs s.tree (components oldPath) (components newPath)
        ⟨flags.noreplace, flags.exchange, flags.whiteout⟩ = (.ok (), t) ∧
      (ServerRequests.rename fs s user oldPath newPath (bits flags)).2.tree = t := by
  unfold ServerRequests.rename at h ⊢
  dsimp only at h ⊢
  rw [fromBitsTruncate_bits] at h ⊢
  obtain ⟨-, heq⟩ := ServerRequests.checked_ok h
  rw [heq] at h ⊢
  obtain ⟨-, heq⟩ := ServerRequests.checked_ok h
  rw [heq] at h ⊢
  obtain ⟨u, t, ht, heq⟩ := ServerRequests.thenTree_ok h
  rw [heq] at h ⊢
  split at h
  all_goals
    obtain ⟨x, -, heq⟩ := ServerRequests.thenTable_ok h
    rw [heq] at h
  · rename_i hx
    rw [if_pos hx, heq]
    exact ⟨(Except.ok.inj h).symm, t, ht, rfl⟩
  · rename_i hx
    rw [if_neg hx, heq]
    exact ⟨(Except.ok.inj h).symm, t, ht, rfl⟩

theorem carried_rename (hroot : fs.realPath = absolute root) (hs : Shows root s.tree.objects r)
    {old new : List String} {flags : RenameFlags} (hres : Resolved r (.rename old new flags)) :
    Carried root ((Request.rename old new flags).serve fs s user m)
      ((Request.rename old new flags).carry r user m.now) := by
  obtain ⟨⟨hone, honames, horeaches⟩, ⟨hnne, hnnames, hnreaches⟩, hswap⟩ := hres
  have hlo := direct_of_reaches hs horeaches
  have hln := direct_of_reaches hs hnreaches
  intro a ha
  dsimp only [Request.serve, ServerRequests.serve, Request.carry] at ha ⊢
  obtain ⟨b, hb⟩ := replied_ok ha
  obtain ⟨rfl, t, hrename, htree⟩ := rename_done hb
  rw [components_spell honames, components_spell hnnames, pathOf_eq, pathOf_eq] at hrename
  have hdone : a = .done := by
    rw [replied, hb] at ha
    exact (Except.ok.inj ha).symm
  have hserver : (replied (ServerRequests.rename fs s user (spell old) (spell new)
      (bits flags))).2.tree = t := htree
  subst hdone
  rw [pathOf_eq, pathOf_eq, hserver]
  have hs' := shows_session hs user
  have hreal : ∀ l, makeRealPath fs.realPath (absolute l) = absolute (root ++ l) := by
    intro l
    rw [hroot, realPath_absolute]
  by_cases hx : flags.exchange = true
  · obtain ⟨hthere, htemp⟩ := hswap hx
    rw [pathOf_eq] at hthere
    obtain ⟨k, hk⟩ := exchange_parks (hreal _) hx hrename
    rw [pathOf_eq, withExtension_absolute (locationOf_ne_nil hone) hk, hs.none_iff,
      ← tempOf_below (locationOf_ne_nil hone)] at htemp
    obtain ⟨hobj, hapart, hex⟩ := exchange_swaps (hreal _) (hreal _) hlo hln hx htemp
      (mt hs.none_iff.mpr hthere) hrename
    have heq := exchange_eq (mt hs'.none_iff.mp hobj) hthere hx (apart_below.mp hapart)
    exact ⟨.done, _, by rw [heq]; rfl, rfl, hs'.exchange hapart hex rfl rfl⟩
  · rw [Bool.not_eq_true] at hx
    obtain ⟨hobj, hfree, hcase⟩ := rename_moves (hreal _) (hreal _) hlo hln hx hrename
    have hnode := mt hs'.none_iff.mp hobj
    have hnodes : flags.noreplace = true →
        (session r user).nodes (absolute (locationOf new)) = none :=
      fun h => hs'.none_iff.mpr (hfree h)
    rcases hcase with ⟨hsame, ho⟩ | ⟨hapart, ho⟩
    · have hlocation := List.append_cancel_left hsame
      refine ⟨.done, _, by rw [rename_eq hnode hx hnodes (.inl hlocation)]; rfl, rfl, ?_⟩
      rw [ho]
      refine hs'.congr ?_ ?_
      · rw [hlocation, Nodes.rename, relocate_self]
      · rw [hlocation, relocate_self]
    · have heq := rename_eq hnode hx hnodes (.inr (apart_below.mp hapart))
      exact ⟨.done, _, by rw [heq]; rfl, rfl, hs'.move hapart ho rfl rfl⟩

/-! A request that the server refuses -/

def Kept (s : Server) (answer : ServerRequests.Answer) : Prop :=
  ∀ e, answer.1 = .error e → answer.2.tree.objects = s.tree.objects

theorem checked_kept {p : Path} {next : ServerRequests.Answer} (h : Kept s next) :
    Kept s (ServerRequests.checked fs s user p next) := by
  unfold ServerRequests.checked
  split
  · exact h
  · exact fun _ _ => rfl

theorem thenTree_kept {α : Type} {result : ServerFileSystem.Result α}
    {next : α → Server → ServerRequests.Answer}
    (hrefused : ∀ e t, result = (.error e, t) → t = s.tree)
    (hnext : ∀ x t, result = (.ok x, t) → Kept s (next x { s with tree := t })) :
    Kept s (ServerRequests.thenTree s result next) := by
  obtain ⟨done, t⟩ := result
  cases done with
  | error e =>
    obtain rfl := hrefused e t rfl
    exact fun _ _ => rfl
  | ok x => exact hnext x t rfl

theorem kept_of_ok {answer : ServerRequests.Answer} {a : ServerRequests.Reply}
    (h : answer.1 = .ok a) : Kept s answer := by
  intro e he
  cases h.symm.trans he

theorem getAttributes_ok {s : Server} (hroot : fs.realPath = absolute root)
    (hobj : s.tree.objects (root ++ l) = some i) :
    (ServerRequests.getAttributes fs (absolute l) s).1 = .ok (.attributes (fileAttr i)) := by
  unfold ServerRequests.getAttributes
  rw [hroot, realPath_absolute, getAttributesByPath, lstat_reaches s.tree.grounded hobj]

theorem replied_kept {answer : ServerRequests.Answer} {e : Refusal} (hkept : Kept s answer)
    (h : (replied answer).1 = .error e) :
    (replied answer).2.tree.objects = s.tree.objects := by
  obtain ⟨done, s'⟩ := answer
  cases done with
  | error e => exact hkept e rfl
  | ok a => cases a <;> cases h

def Request.staged : Request → Bool
  | setAttributes _ _ | rename _ _ _ => true
  | _ => false

theorem refused_kept {request : Request} {e : Refusal} (hroot : fs.realPath = absolute root)
    (hs : Shows root s.tree.objects r) (hres : Resolved r request)
    (hstaged : request.staged = false) (h : (request.serve fs s user m).1 = .error e) :
    (request.serve fs s user m).2.tree.objects = s.tree.objects := by
  have hreal : ∀ l, makeRealPath fs.realPath (absolute l) = absolute (root ++ l) := by
    intro l
    rw [hroot, realPath_absolute]
  cases request with
  | readFile ns offset size => rfl
  | getAttributes ns =>
    refine replied_kept ?_ h
    unfold ServerRequests.getAttributes
    split <;> exact fun _ _ => rfl
  | writeFile ns offset data =>
    obtain ⟨-, hnames, hfollows, hnear, -⟩ := hres
    have hdirect := direct_of_reaches hs hfollows.1
    have hlast := hs.isLink hfollows.2
    refine replied_kept (checked_kept (thenTree_kept ?_ ?_)) h
    all_goals rw [components_spell hnames, pathOf_eq]
    · exact fun e t hrefused => writeFile_refused (hreal _) hdirect hlast hnear hrefused
    · intro x t hwrite
      obtain ⟨i, ho, -⟩ := writeFile_objects (hreal _) hdirect hlast hwrite
      exact kept_of_ok (getAttributes_ok hroot (i := i) (by rw [ho, Function.update_self]))
  | mkdir ns =>
    obtain ⟨hne, hnames, hreaches, -⟩ := hres
    have hdirect := direct_of_reaches hs hreaches
    obtain ⟨parent, n, rfl⟩ := (List.eq_nil_or_concat ns).resolve_left hne
    rw [List.concat_eq_append] at *
    have hn : Name n := hnames n (by simp)
    have hparent : Names parent := fun k hk => hnames k (List.mem_append_left _ hk)
    have hjoin : (makeRealPath fs.realPath (pathOf parent)).join (components n) =
        absolute (root ++ locationOf (parent ++ [n])) := by
      rw [hn.components, pathOf_eq, hreal, join_absolute, locationOf, locationOf, List.map_append,
        List.append_assoc]
      rfl
    refine replied_kept ?_ h
    change Kept s (ServerRequests.makeDirectory fs s user (spell (parent ++ [n])) m.len m.now)
    unfold ServerRequests.makeDirectory
    rw [rsplitOnce_spell hn]
    dsimp only
    rw [components_parent hparent, components_spell hnames]
    refine checked_kept (thenTree_kept ?_ ?_)
    · exact fun e t hrefused => makeDir_refused hjoin hdirect hrefused
    · intro x t hmake
      obtain ⟨-, ho⟩ := makeDir_objects hjoin hdirect hmake
      rw [pathOf_eq]
      exact kept_of_ok (getAttributes_ok hroot (by rw [ho, Function.update_self]))
  | createSymlink ns target =>
    obtain ⟨-, hnames, hreaches, -⟩ := hres
    have hdirect := direct_of_reaches hs hreaches
    refine replied_kept (checked_kept (thenTree_kept ?_ fun _ _ _ => kept_of_ok rfl)) h
    rw [components_spell hnames, pathOf_eq]
    exact fun e t hrefused => createSymlink_refused (hreal _) hdirect hrefused
  | remove ns =>
    refine replied_kept (checked_kept (thenTree_kept ?_ fun _ _ _ => kept_of_ok rfl)) h
    intro e t hrefused
    rcases ServerGrowth.delete_cases fs s.tree (components (spell ns)) with
      ⟨e', he⟩ | ⟨l, t', -, -, -, hok⟩
    · exact (Prod.mk.inj (hrefused.symm.trans he)).2
    · cases (Prod.mk.inj (hrefused.symm.trans hok)).1
  | setAttributes ns new => cases hstaged
  | rename old new flags => cases hstaged

/-- One granted request keeps the two sides together. -/
theorem carried {request : Request} (hroot : fs.realPath = absolute root)
    (hs : Shows root s.tree.objects r) (hlen : m.len = 4096) (hres : Resolved r request) :
    Carried root (request.serve fs s user m) (request.carry r user m.now) := by
  cases request with
  | readFile ns offset size => exact carried_readFile hroot hs hres
  | getAttributes ns => exact carried_getAttributes hroot hs hres
  | writeFile ns offset data => exact carried_writeFile hroot hs hres
  | mkdir ns => exact carried_mkdir hroot hs hlen hres
  | createSymlink ns target => exact carried_createSymlink hroot hs hres
  | setAttributes ns new => exact carried_setAttributes hroot hs hres
  | remove ns => exact carried_remove hroot hs hres
  | rename old new flags => exact carried_rename hroot hs hres

end Steps

/-! Runs of requests -/

structure Asked where
  user : AuthenticatedUser
  moment : Moment
  request : Request
  deriving DecidableEq, Repr

def Asked.serve (fs : FileSystem) (s : Server) (x : Asked) : Except Refusal Reply × Server :=
  x.request.serve fs s x.user x.moment

def Asked.carry (r : Remote) (x : Asked) : Option (Reply × Remote) :=
  x.request.carry r x.user x.moment.now

def Asked.follow (r : Remote) (x : Asked) : Except Refusal Reply → Remote
  | .ok _ => ((x.carry r).map Prod.snd).getD r
  | .error _ => r

/-- In every state of a run the kernel has resolved the request, a new directory has the size of
an empty one, and what is given up is not given up halfway. -/
def Whole (fs : FileSystem) (s : Server) (r : Remote) : List Asked → Prop
  | [] => True
  | x :: run => Resolved r x.request ∧ x.moment.len = 4096 ∧
      (x.request.staged = true → ∀ e, (x.serve fs s).1 = .error e →
        (x.serve fs s).2.tree.objects = s.tree.objects) ∧
      Whole fs (x.serve fs s).2 (x.follow r (x.serve fs s).1) run

def Agrees (fs : FileSystem) (root : Location) (s : Server) (r : Remote) : List Asked → Prop
  | [] => Shows root s.tree.objects r
  | x :: run => Shows root s.tree.objects r ∧
      (∀ a, (x.serve fs s).1 = .ok a → ((x.carry r).map fun o => o.1.untimed) = some a.untimed) ∧
      Agrees fs root (x.serve fs s).2 (x.follow r (x.serve fs s).1) run

def modelOf (root : Location) (t : Tree) : Remote where
  nodes p := (t (root ++ ServerAccessDecision.names p)).map fun i => shown i.kind
  info p := (t (root ++ ServerAccessDecision.names p)).elim
    ⟨0, 0, 0, ⟨0, 0⟩, ⟨0, 0⟩, ⟨0, 0⟩⟩ fun i => ⟨i.mode, i.uid, i.gid, i.atime, i.mtime, i.ctime⟩
  userId := 0
  groupId := 0

section Runs

variable {fs : FileSystem} {s : Server} {root : Location} {r : Remote}

theorem shows_modelOf {t : Tree} (home : look t root = .directory) :
    Shows root t (modelOf root t) := by
  refine ⟨home, fun l => ?_⟩
  rw [facts, modelOf]
  dsimp only
  rw [names_absolute]
  cases t (root ++ l) <;> rfl

theorem shows_follow {x : Asked} (hroot : fs.realPath = absolute root)
    (hs : Shows root s.tree.objects r) (hlen : x.moment.len = 4096)
    (hres : Resolved r x.request)
    (hwhole : x.request.staged = true → ∀ e, (x.serve fs s).1 = .error e →
      (x.serve fs s).2.tree.objects = s.tree.objects) :
    Shows root (x.serve fs s).2.tree.objects (x.follow r (x.serve fs s).1) := by
  cases hdone : (x.serve fs s).1 with
  | ok a =>
    have hcarried : Carried root (x.serve fs s) (x.carry r) := carried hroot hs hlen hres
    obtain ⟨a', r', hcarry, -, hs'⟩ := hcarried a hdone
    have hfollow : x.follow r (.ok a) = r' := by
      rw [Asked.follow, hcarry]
      rfl
    rw [hfollow]
    exact hs'
  | error e =>
    have hkept : (x.serve fs s).2.tree.objects = s.tree.objects := by
      cases hstaged : x.request.staged with
      | true => exact hwhole hstaged e hdone
      | false => exact refused_kept hroot hs hres hstaged hdone
    rw [hkept]
    exact hs

theorem reaches_name (h : ∀ target, r.nodes (absolute []) ≠ some (.symlink target)) (n : String) :
    Reaches r (locationOf [n]) := by
  intro k hk hne
  rcases List.prefix_cons_iff.mp hk with rfl | ⟨k', rfl, hk'⟩
  · exact h
  · exact (hne (congrArg _ (List.prefix_nil.mp hk'))).elim

end Runs

section Samples

def owned (kind : Kind) (mode : ℕ) : Inode := ⟨kind, mode, 7, 7, ⟨0, 0⟩, ⟨0, 0⟩, ⟨0, 0⟩⟩

def small : FileTree := .ofList
  [([], owned (.directory 4096) 0o040755), ([.text "srv"], owned (.directory 4096) 0o040755),
    ([.text "srv", .text "a"], owned (.file [1]) 0o100644)] (by decide) (by decide)

def smallServer : Server := ⟨small, SqlTable.Table.empty _⟩

def owner (request : Request) : Asked := ⟨⟨7, 7⟩, ⟨⟨1, 0⟩, 4096⟩, request⟩

def smallRun : List Asked :=
  [owner (.writeFile ["c"] 0 [9]), owner (.rename ["a"] ["c"] ⟨false, true, false⟩),
    owner (.readFile ["a"] 0 8)]

end Samples

end ServedRequests
