import RemoteFs.ClientAttributeCoherence
import RemoteFs.ClientDirectoryListing
import RemoteFs.ClientKnowledgeAnswers
import RemoteFs.ClientReadBufferCoherence

/-! # What the client remembers about renamed paths

Every item of the cache is to tell the kind, the attributes, the bytes and the target of the
object that the server holds at its path, and the read buffer bytes of the file at its path.
A call says in its condition what it must not leave in place, and one that fails, what it must not
have changed all the same. -/
namespace ClientRenameCoherence

open ClientAttributeCoherence
open ClientAttributes
open ClientCache
open ClientCalls
open ClientDirectoryListing
open ClientFileSystem
open ClientKnowledge
open ClientKnowledgeAnswers
open ClientKnowledgeReads
open ClientMemory
open ClientPageCache
open ClientReadBuffer
open ClientReadBufferCoherence
open ClientReadYourWrites (outcome_error)
open ClientTurns
open ClientWriteBuffer
open OsPaths
open RemoteTree
open WriteLog

variable {L : PageLimits}

def object (r : Remote) (q : Path) : Facts where
  fresh := True
  itemType k := ∃ c, r.nodes q = some c ∧ k = c.itemType
  name n := ∀ m, q.fileName = some m → n = m
  attributes a := ∃ b, r.getAttributes q = some b ∧ SameAttributes a b
  children _ := True
  target s := r.readSymlink q = some s

def DescribesObject (r : Remote) (q : Path) (it : CacheItem L) : Prop :=
  Tells (object r q) (BytesAre (r.Holds q)) it

structure Current (fs : FileSystem L) (t : ℕ) : Prop where
  entries : ∀ q, q.fileName ≠ none → Entries fs q 0 (DescribesObject fs.remote q)
  buffer : ∀ q, BufferIs fs q t (fs.remote.Holds q)

/-! What a call finds in memory and leaves there -/

def BufferFits (fs : FileSystem L) (env : Env) (r : Remote) : Prop :=
  ∀ q x v, fs.readBuffer.byteAt (env 0).now q x = some v → r.Holds q x v

/-- The cached file keeps only bytes that the server has behind the upload, and a gap between
them reads as zeros there. -/
def UploadFits (fs : FileSystem L) (w : Chunk) (r : Remote) : Prop :=
  ∀ f, held fs w.key = some (.file f) →
    (∀ x b, f.byteAt x = some b →
      r.Holds w.key x b ∨ Replaced f (written L w.key w.offset w.data) x) ∧
    GapsAre (r.Holds w.key) (written L w.key w.offset w.data) f

/-- What is taken fits, and where a chunk fails, what is remembered then is right about the server
that the call leaves. -/
def UploadsFit (t : ℕ) (left : Remote) : FileSystem L → List Chunk → Env → Prop
  | _, [], _ => True
  | fs, w :: ws, env =>
    ((∃ e, (fs.upload w env).1 = .error e) → Current { fs with remote := left } t) ∧
      ((fs.upload w env).1 = .ok () → (∀ r,
        fs.remote.writeFile w.key w.offset w.data (env 0).serverTime = some r →
          UploadFits fs w r ∧
            ∀ q x v, fs.readBuffer.byteAt t q x = some v → r.Holds q x v) ∧
        UploadsFit t left (fs.upload w env).2 ws (env.drop 2))

/-- A path whose cached item a granted rename leaves where it is: everything below the two
paths and, if no item is carried over from the old path, the new one and its directory. -/
def Left (fs : FileSystem L) (a b : Path) (flags : RenameFlags) (q : Path) : Prop :=
  (a <+: q ∧ q ≠ a) ∨ (b <+: q ∧ q ≠ b) ∨
    (flags.exchange = false ∧ (held fs a = none ∨ b.fileName = none) ∧
      (q = b ∨ (∃ name, q.child name = b) ∧ ∀ name, q.child name ≠ a))

def GrantedFits (fs : FileSystem L) (turn : Turn) : Op → Prop
  | .createFile _ _ _ | .remove _ => BufferFits fs turn.env turn.left
  | .setAttributes p _ => BufferFits fs turn.env turn.left ∧
      ∀ f, held fs p = some (.file f) → BytesAre (turn.left.Holds p) f
  | .rename a b flags => BufferFits fs turn.env turn.left ∧
      (a ≠ b → ∀ q it, q.fileName ≠ none → held fs q = some it → Left fs a b flags q →
        DescribesObject turn.left q it)
  | .write p off d => ∀ q it, q.fileName ≠ none → held fs q = some it →
      Touches fs q (.write p off d) → DescribesObject turn.left q it
  | .flush => ∀ q it, q.fileName ≠ none → held fs q = some it → Touches fs q .flush →
      DescribesObject turn.left q it
  | _ => True

structure CallFits (fs : FileSystem L) (turn : Turn) : Prop where
  read : ∀ p o s, turn.op = .read p o s → ∀ f, held fs p = some (.file f) →
    MissGaps fs p o s (turn.env 4).now (fs.remote.Holds p) f
  uploads : UploadsFit (turn.env 0).now turn.left
    { fs with writeBuffer := (turn.op.staged fs.writeBuffer).2 }
    (turn.op.staged fs.writeBuffer).1 turn.env
  granted : (turn.op.run fs turn.env).1 = .ok () → GrantedFits fs turn turn.op
  failed : turn.fails fs → changes turn.op = true → (turn.op.staged fs.writeBuffer).1 = [] →
    Current { fs with remote := turn.left } (turn.env 0).now

def RenamesNamed (op : Op) : Prop := ∀ a b flags, op = .rename a b flags → a.fileName ≠ none

section Objects

variable {r r' : Remote} {q : Path} {it : CacheItem L}

theorem object_agrees (h : r.AgreesAt r' q) : object r' q = object r q := by
  rw [object, object, h.nodes, h.getAttributes, h.readSymlink]

theorem holds_agrees (h : r.AgreesAt r' q) : r'.Holds q = r.Holds q := by
  funext x v
  rw [Remote.Holds, Remote.Holds, h.nodes]

theorem describes_agrees (h : r.AgreesAt r' q) (hit : DescribesObject r q it) :
    DescribesObject r' q it := by
  rw [DescribesObject, object_agrees h, holds_agrees h]
  exact hit

/-- What is compared is the same but for access and change times. -/
theorem describes_alike (h : Alike r r' q) (hit : DescribesObject r q it) :
    DescribesObject r' q it := by
  have hholds : r'.Holds q = r.Holds q := by
    funext x v
    rw [Remote.Holds, Remote.Holds, h.nodes]
  rw [DescribesObject, hholds]
  refine hit.mono ⟨id, fun k hk => ?_, fun n hn => hn, fun a ha => ?_, fun _ _ => trivial,
    fun s hs => ?_⟩ fun _ hf => hf
  · obtain ⟨c, hc, hk⟩ := hk
    exact ⟨c, h.nodes.trans hc, hk⟩
  · obtain ⟨b, hb, hsame⟩ := ha
    obtain ⟨c, hc, rfl⟩ := Option.map_eq_some_iff.mp hb
    refine ⟨attributesOf c (r'.info q), ?_, ?_⟩
    · rw [Remote.getAttributes, h.nodes, hc, Option.map_some]
    · exact ⟨hsame.size, hsame.kind, hsame.perm.trans h.perm.symm, hsame.uid.trans h.uid.symm,
        hsame.gid.trans h.gid.symm, hsame.mtime.trans h.mtime.symm⟩
  · rw [object, Remote.readSymlink, h.nodes]
    exact hs

theorem says_object (r : Remote) (q : Path) : Says r q (object r q) where
  name m hm := by rw [hm, Option.getD_some]
  itemType c hc := ⟨c, hc, rfl⟩
  attributes a ha := ⟨a, ha, SameAttributes.refl a⟩
  target _ hs := hs

theorem serverIs_holds (fs : FileSystem L) (q : Path) : ServerIs fs q (fs.remote.Holds q) :=
  fun _ _ _ hread _ _ hb => holds_readFile hread hb

end Objects

section Calls

variable {fs done : FileSystem L} {t : ℕ} {p q : Path} {env : Env} {r : Remote} {m : Moment}

theorem Current.later {t' : ℕ} (h : Current fs t) (ht : t ≤ t') : Current fs t' where
  entries := h.entries
  buffer q x b hb := h.buffer q x b (ReadBuffer.byteAt_later ht hb)

theorem Current.fetched (h : Current fs t)
    (hf : ∀ p, Learned p 0 (object fs.remote p) (BytesAre (fs.remote.Holds p)) fs done) :
    Current done t where
  entries p hp := by
    rw [(hf p).remote]
    exact (hf p).entries (h.entries p hp)
  buffer p := by
    rw [(hf p).remote, BufferIs, (hf p).readBuffer]
    exact h.buffer p

theorem Current.getAttributes (h : Current fs t) (q : Path) (env : Env) :
    Current (fs.getAttributes q env).2 t :=
  h.fetched fun p => learned_getAttributes bytesAre_aboutPages (fun _ _ => trivial)
    (fun _ => says_object fs.remote p) q

theorem Current.readSymlink (h : Current fs t) (q : Path) (env : Env) :
    Current (fs.readSymlink q env).2 t :=
  h.fetched fun p => learned_readSymlink bytesAre_aboutPages (fun _ _ => trivial)
    (fun _ => says_object fs.remote p) q

theorem Current.readdir (h : Current fs t) (q : Path) (env : Env) :
    Current (fs.readdir q env).2 t :=
  h.fetched fun p => learned_readdir bytesAre_aboutPages (Or.inl fun _ => Nat.zero_le _)
    (fun _ _ => trivial) (fun _ => says_object fs.remote p) fun _ _ _ _ _ _ => trivial

/-- A change of the server at one path, with what it does to the cached item there. -/
theorem Current.changed (h : Current fs t) (q : Path) (hb : done.readBuffer = fs.readBuffer)
    (hr : ∀ p, q ≠ p → fs.remote.AgreesAt done.remote p)
    (hne : ∀ p Q, q ≠ p → Entries fs p 0 Q → Entries done p 0 Q)
    (hfit : ∀ q x v, fs.readBuffer.byteAt t q x = some v → done.remote.Holds q x v)
    (hq : q.fileName ≠ none → Entries done q 0 (DescribesObject done.remote q)) :
    Current done t where
  entries p hp := by
    by_cases hpq : q = p
    · subst hpq
      exact hq hp
    · exact hne p _ hpq fun it he => describes_agrees (hr p hpq) (h.entries p hp it he)
  buffer p x v hx := by
    rw [hb] at hx
    exact hfit p x v hx

theorem Current.putNamed {item : OsString → CacheItem L} (h : Current fs t)
    (hr : ∀ p, q ≠ p → fs.remote.AgreesAt r p)
    (hfit : ∀ q x v, fs.readBuffer.byteAt t q x = some v → r.Holds q x v)
    (hitem : ∀ name, q.fileName = some name → DescribesObject r q (item name)) :
    Current ({ fs with remote := r }.putNamed q item m) t := by
  obtain ⟨hremote, hbuffer, -⟩ := putNamed_frame { fs with remote := r } q item m
  refine h.changed q hbuffer ?_ ?_ ?_ ?_
  · rw [hremote]
    exact hr
  · intro p Q hp he
    have hbefore : Entries { fs with remote := r } p 0 Q := he
    exact hbefore.putNamed_ne hp
  · rw [hremote]
    exact hfit
  · intro hname
    rw [hremote]
    obtain ⟨name, hname⟩ := Option.ne_none_iff_exists'.mp hname
    exact putNamed_self hname (hitem name hname)

theorem Current.createFile {off : ℕ} {d : List UInt8} (h : Current fs (env 0).now)
    (hfit : BufferFits fs env (fs.createFile q off d env).2.remote) :
    Current (fs.createFile q off d env).2 (env 0).now := by
  unfold FileSystem.createFile at hfit ⊢
  split
  · exact h
  · rename_i a r hsent
    obtain ⟨hw, ha⟩ := FileSystem.withAttributes_some (FileSystem.sent_ok.mp hsent).2.2
    obtain ⟨bytes, hnode⟩ := Remote.writeFile_created hw
    simp only [hsent, (putNamed_frame _ _ _ _).1] at hfit
    exact h.putNamed (fun p hp => Remote.writeFile_agrees hp hw) hfit
      fun name hname => tells_new bytesAre_aboutPages (says_object r q) trivial hname hnode ha
        (bare_new name _) rfl rfl rfl nofun nofun

theorem Current.mkdir (h : Current fs t) : Current (fs.mkdir q env).2 t := by
  unfold FileSystem.mkdir
  split
  · exact h
  · rename_i a r hsent
    obtain ⟨hm, ha⟩ := FileSystem.withAttributes_some (FileSystem.sent_ok.mp hsent).2.2
    exact h.putNamed (fun p hp => Remote.mkdir_agrees hp hm)
      (fun q x v hx => (h.buffer q x v hx).mkdir hm)
      fun name hname => tells_new bytesAre_aboutPages (says_object r q) trivial hname
        (Remote.mkdir_created hm).2 ha trivial rfl rfl rfl (fun _ _ => trivial) nofun

theorem Current.createSymlink {target : String} (h : Current fs t) :
    Current (fs.createSymlink q target env).2 t := by
  unfold FileSystem.createSymlink
  split
  · exact h
  · rename_i a r hsent
    obtain ⟨hl, ha⟩ := FileSystem.withAttributes_some (FileSystem.sent_ok.mp hsent).2.2
    have hnode := (Remote.createSymlink_created hl).2
    refine h.putNamed (fun p hp => Remote.createSymlink_agrees hp hl)
      (fun q x v hx => (h.buffer q x v hx).createSymlink hl)
      fun name hname => tells_new bytesAre_aboutPages (says_object r q) trivial hname hnode ha
        trivial rfl rfl rfl nofun fun s hs => ?_
    injection hs with hs
    rw [Remote.readSymlink, hnode, hs]

theorem Current.remove (h : Current fs (env 0).now)
    (hfit : BufferFits fs env (fs.remove q env).2.remote) :
    Current (fs.remove q env).2 (env 0).now := by
  unfold FileSystem.remove at hfit ⊢
  split
  · exact h
  · rename_i r hsent
    have hrem := (FileSystem.sent_ok.mp hsent).2.2
    simp only [hsent] at hfit
    refine h.changed q rfl (fun p hp => Remote.remove_agrees hp hrem) ?_ hfit ?_
    · intro p Q _ he
      have hbefore : Entries { fs with remote := r } p 0 Q := he
      exact hbefore.onCache_sub fun c => Cache.remove_sub c q
    · intro _ it he
      obtain ⟨c, -, hfresh⟩ := entry_onCache he
      exact ((Cache.remove_gone hfresh).1 rfl).elim

/-- A chunk that the server takes. -/
theorem Current.upload {w : Chunk} (h : Current fs t)
    (hfit : ∀ r, fs.remote.writeFile w.key w.offset w.data (env 0).serverTime = some r →
      UploadFits fs w r ∧ ∀ q x v, fs.readBuffer.byteAt t q x = some v → r.Holds q x v) :
    Current (fs.upload w env).2 t := by
  unfold FileSystem.upload
  split
  · exact h
  · rename_i r hsent
    have hw := (FileSystem.sent_ok.mp hsent).2.2
    obtain ⟨hupload, hbuffer⟩ := hfit r hw
    refine h.changed w.key rfl (fun p hp => Remote.writeFile_agrees hp hw) ?_ hbuffer ?_
    · intro p Q hp he
      have hbefore : Entries { fs with remote := r } p 0 Q := he
      exact hbefore.cacheWriteFile_ne hp
    · intro hname
      have hbefore : Entries { fs with remote := r } w.key 0 (DescribesObject fs.remote w.key) :=
        h.entries w.key hname
      obtain ⟨bytes, hnode⟩ := Remote.writeFile_created hw
      refine tells_cacheWriteFile hname (fun _ => trivial) (fun _ => trivial) hbefore
        (fun _ => ⟨_, hnode, rfl⟩) (fun _ => (says_object r w.key).name) (fun _ x b hx hb => ?_)
        (fun f x b he hb => (hupload f he).1 x b hb) (fun f he => (hupload f he).2)
        (fun _ _ hn => hn) nofun
      have hget : w.get w.key x = some b := by
        rw [Write.get, if_pos ⟨rfl, hx⟩]
        exact hb
      exact Remote.writeFile_holds hget hw

theorem Current.uploadAll {left : Remote} (ws : List Chunk) : ∀ (fs : FileSystem L) (env : Env),
    Current fs t → UploadsFit t left fs ws env →
      ((fs.uploadAll ws env).1 = .ok () → Current (fs.uploadAll ws env).2 t) ∧
        ((∃ e, (fs.uploadAll ws env).1 = .error e) →
          Current { (fs.uploadAll ws env).2 with remote := left } t) := by
  induction ws with
  | nil =>
    refine fun fs env h _ => ⟨fun _ => h, ?_⟩
    rintro ⟨e, he⟩
    cases he
  | cons w ws ih =>
    rintro fs env h ⟨hfailed, hgranted⟩
    cases hres : (fs.upload w env).1 with
    | error e =>
      rw [uploadAll_cons_error hres]
      refine ⟨fun hok => ?_, fun _ => hfailed ⟨e, hres⟩⟩
      cases hok
    | ok u =>
      obtain ⟨hfit, hrest⟩ := hgranted hres
      rw [uploadAll_cons_ok hres]
      exact ih _ _ (h.upload hfit) hrest

theorem uploadAll_entries {Q : CacheItem L → Prop} (ws : List Chunk) : ∀ (fs : FileSystem L)
    (env : Env), (∀ w ∈ ws, w.key ≠ q) → Entries fs q 0 Q →
      Entries (fs.uploadAll ws env).2 q 0 Q := by
  induction ws with
  | nil => exact fun _ _ _ h => h
  | cons w ws ih =>
    intro fs env hne h
    cases hres : (fs.upload w env).1 with
    | error e =>
      rw [uploadAll_cons_error hres]
      exact h
    | ok u =>
      obtain ⟨r, -, hrun⟩ := FileSystem.upload_ok hres
      rw [uploadAll_cons_ok hres]
      refine ih _ _ (fun w hw => hne w (List.mem_cons_of_mem _ hw)) ?_
      rw [hrun]
      have hbefore : Entries { fs with remote := r } q 0 Q := h
      exact hbefore.cacheWriteFile_ne (hne w List.mem_cons_self)

theorem uploadAll_file (ws : List Chunk) : ∀ (fs : FileSystem L) (env : Env),
    (∃ bytes, fs.remote.nodes q = some (.file bytes)) →
      ∃ bytes, (fs.uploadAll ws env).2.remote.nodes q = some (.file bytes) := by
  intro fs env h
  refine uploadAll_keeps (I := fun fs => ∃ bytes, fs.remote.nodes q = some (.file bytes))
    (fun fs w env h => ?_) ws fs env h
  unfold FileSystem.upload
  split
  · exact h
  · rename_i r hsent
    have hw := (FileSystem.sent_ok.mp hsent).2.2
    by_cases hq : w.key = q
    · exact hq ▸ Remote.writeFile_created hw
    · rw [FileSystem.onCache_remote, (Remote.writeFile_agrees hq hw).nodes]
      exact h

theorem uploadAll_keys (ws : List Chunk) : ∀ (fs : FileSystem L) (env : Env),
    (fs.uploadAll ws env).1 = .ok () → ∀ w ∈ ws,
      ∃ bytes, (fs.uploadAll ws env).2.remote.nodes w.key = some (.file bytes) := by
  induction ws with
  | nil => exact fun _ _ _ w hw => (List.not_mem_nil hw).elim
  | cons w ws ih =>
    intro fs env hok v hv
    cases hres : (fs.upload w env).1 with
    | error e =>
      rw [uploadAll_cons_error hres] at hok
      cases hok
    | ok u =>
      rw [uploadAll_cons_ok hres] at hok ⊢
      rcases List.mem_cons.mp hv with rfl | hv
      · obtain ⟨r, hw, hrun⟩ := FileSystem.upload_ok hres
        refine uploadAll_file ws _ _ ?_
        rw [hrun]
        exact Remote.writeFile_created hw
      · exact ih _ _ hok v hv

/-- The attributes are new; the pages, and the target of a link, stay. -/
theorem Current.setAttributes {new : SetAttr} (h : Current fs (env 0).now)
    (hbuffer : BufferFits fs env (fs.setAttributes q new env).2.remote)
    (hbytes : ∀ f, held fs q = some (.file f) →
      BytesAre ((fs.setAttributes q new env).2.remote.Holds q) f) :
    Current (fs.setAttributes q new env).2 (env 0).now := by
  unfold FileSystem.setAttributes at hbuffer hbytes ⊢
  split
  · exact h
  · rename_i a r hsent
    obtain ⟨hset, ha⟩ := FileSystem.withAttributes_some (FileSystem.sent_ok.mp hsent).2.2
    simp only [hsent] at hbuffer hbytes
    refine h.changed q rfl (fun p hp => Remote.setAttributes_agrees hp hset) ?_ hbuffer ?_
    · intro p Q hp he
      have hbefore : Entries { fs with remote := r } p 0 Q := he
      exact hbefore.cachePutAttr_ne hp
    · intro hname
      obtain ⟨name, hname⟩ := Option.ne_none_iff_exists'.mp hname
      have hput : (fun c : Cache L => cachePutAttr c q a (env 1).toMoment) = fun c =>
          c.put q (.ofAttributes name a) false (env 1).toMoment := by
        funext c
        rw [cachePutAttr, hname]
      have hnew : DescribesObject r q (.ofAttributes name a : CacheItem L) :=
        tells_ofAttributes bytesAre_aboutPages (says_object r q) trivial hname ha
      rw [hput]
      refine put_entry_self (fun _ _ => hnew) fun old he => ?_
      have hold : DescribesObject fs.remote q old := h.entries q (by simp [hname]) old he
      have hattr : (CacheItem.ofAttributes name a : CacheItem L).getAttributes ≠ none := by
        rw [(bare_ofAttributes name a).2]
        exact Option.some_ne_none _
      refine update_tells hold hnew (fun _ hn => hn) ?_ (fun hnone => (hattr hnone).elim)
        (fun _ _ _ => trivial) fun _ s hs => ?_
      · exact update_bare_file bytesAre_aboutPages (fun f hf => hbytes f (hf ▸ he))
          (bare_ofAttributes name a).1
      · exact (Remote.setAttributes_readSymlink hset).trans hs

theorem Current.read {o s : ℕ} (h : Current fs (env 0).now)
    (ht : ∀ i, (env 0).now ≤ (env i).now) (hfit : ∀ f, held fs q = some (.file f) →
      MissGaps fs q o s (env 4).now (fs.remote.Holds q) f) :
    Current (fs.readFile q o s env).2 (env 0).now := by
  have hread : ∀ p, p.fileName ≠ none → HasRead q p 0 env (object fs.remote p)
      (BytesAre (fs.remote.Holds p)) fs (fs.readFile q o s env).2 := by
    intro p hname
    by_cases hq : q = p
    · subst hq
      refine hasRead_readFile (fun _ _ => trivial) (fun _ => says_object fs.remote q)
        (fun _ => serverIs_holds fs q) (fun _ x b hb => ?_) fun it he => ?_
      · obtain ⟨bytes, hnode, hx⟩ := h.buffer q x b (ReadBuffer.byteAt_later (ht 4) hb)
        exact ⟨⟨bytes, hnode, hx⟩, _, hnode, rfl⟩
      · have htold := h.entries q hname it he
        refine { htold with file := ?_ }
        rintro f rfl
        exact ⟨htold.file f rfl, hfit f he⟩
    · exact hasRead_readFile_ne bytesAre_aboutPages (fun _ _ => trivial)
        (fun _ => says_object fs.remote p) hq (h.entries p hname)
  -- whatever the name of the path, some other path has one
  have hother := hread (q.child (.text "")) (by rw [fileName_child]; nofun)
  refine ⟨fun p hname => ?_, fun p x v hx => ?_⟩
  · rw [hother.remote]
    exact (hread p hname).entries
  · rw [hother.remote]
    rcases hother.buffer with hsame | ⟨i, offset, size, data, hdata, hfill⟩
    · rw [hsame] at hx
      exact h.buffer p x v hx
    · rw [hfill] at hx
      obtain ⟨rfl, hle, hb⟩ := ReadBuffer.byteAt_fill hx
      have hheld := holds_readFile hdata hb
      rwa [Nat.add_sub_cancel' hle] at hheld

/-- The item that is carried over describes the object that the rename has moved. -/
theorem describes_moved {r₀ : Remote} {a b : Path} {flags : RenameFlags} {old : CacheItem L}
    {name : OsString} (h : DescribesObject r₀ a old) (hr : r₀.rename a b flags = some r)
    (hflag : flags.exchange = false) (hname : b.fileName = some name) :
    DescribesObject r b (old.rename name) := by
  have hmoved := Remote.rename_movedTo hr hflag
  refine renamed_tells h trivial ?_ ?_ ?_ ?_ (fun _ _ => trivial) ?_
  · intro m hm
    exact Option.some.inj (hname.symm.trans hm)
  · intro f g hsame hf x v hx
    rw [hsame.byteAt] at hx
    obtain ⟨bytes, hnode, hheld⟩ := hf x v hx
    exact ⟨bytes, hmoved.nodes_self.trans hnode, hheld⟩
  · rintro k ⟨c, hc, htype⟩
    exact ⟨c, hmoved.nodes_self.trans hc, htype⟩
  · rintro at' ⟨c, hc, hsame⟩
    exact ⟨c, hmoved.getAttributes.trans hc, hsame⟩
  · intro s hs
    exact hmoved.readSymlink.trans hs

/-- A path that the rename does not concern, and every path if it names one object twice. -/
theorem rename_agrees_of {r₀ : Remote} {a b : Path} {flags : RenameFlags}
    (hr : r₀.rename a b flags = some r) (h : a = b ∨ ¬a <+: q ∧ ¬b <+: q) : r₀.AgreesAt r q := by
  rcases h with rfl | ⟨ha, hb⟩
  · rcases (Remote.rename_cases hr).2 with ⟨-, -, hne, -⟩ | ⟨-, -, -, rfl⟩
    · exact (hne (List.prefix_refl a)).elim
    · exact ⟨congrFun (relocate_self _ _ a) q, congrFun (relocate_self _ _ a) q⟩
  · exact Remote.rename_agrees ha hb hr

/-- The server as the call leaves it, where the directories whose names change are remembered as
they are then. -/
theorem Current.settled {left : Remote} {T : Path → Prop} (h : Current fs t)
    (hleft : ∀ q, Alike fs.remote left q ∨ T q ∧ StaysDirectory fs.remote left q)
    (htouched : ∀ q, q.fileName ≠ none → T q → StaysDirectory fs.remote left q →
      Entries fs q 0 (DescribesObject left q)) : Current { fs with remote := left } t where
  entries q hq it he := by
    rcases hleft q with halike | ⟨hT, hstays⟩
    · exact describes_alike halike (h.entries q hq it he)
    · exact htouched q hq hT hstays it he
  buffer q x v hx := (holds_left ((hleft q).imp_right And.right) x v).mpr (h.buffer q x v hx)

theorem Current.uploaded {left : Remote} {ws : List Chunk} {b : WriteBuffer}
    (h : Current fs t) (hfit : UploadsFit t left { fs with writeBuffer := b } ws env)
    (hok : ({ fs with writeBuffer := b }.uploadAll ws env).1 = .ok ())
    (hleft : ∀ q, Alike ({ fs with writeBuffer := b }.uploadAll ws env).2.remote left q ∨
      (∃ w ∈ ws, fs.remote.nodes w.key = none ∧ ∃ name, q.child name = w.key) ∧
        StaysDirectory ({ fs with writeBuffer := b }.uploadAll ws env).2.remote left q)
    (htouched : ∀ q it, q.fileName ≠ none → held fs q = some it →
      (∃ w ∈ ws, fs.remote.nodes w.key = none ∧ ∃ name, q.child name = w.key) →
        DescribesObject left q it) :
    Current { ({ fs with writeBuffer := b }.uploadAll ws env).2 with remote := left } t := by
  have hbefore : Current { fs with writeBuffer := b } t := ⟨h.entries, h.buffer⟩
  refine ((Current.uploadAll ws _ env hbefore hfit).1 hok).settled hleft fun q hq hT hstays => ?_
  refine uploadAll_entries ws _ env (fun w hw hkey => ?_) fun it he => htouched q it hq he hT
  exact hstays.not_file (hkey ▸ uploadAll_keys ws _ env hok w hw)

/-- The item of a directory that gets a name is gone with the one of the name. -/
theorem putNamed_parent {r : Remote} {Q : CacheItem L → Prop} {item : OsString → CacheItem L}
    {name : OsString} : Entries ({ fs with remote := r }.putNamed (q.child name) item m) q 0 Q := by
  intro it he
  unfold FileSystem.putNamed at he
  rw [fileName_child] at he
  obtain ⟨c, -, hfresh⟩ := entry_onCache he
  exact (Cache.putNew_gone (Path.ne_child q name) hfresh name rfl).elim

theorem not_parent_of_target {r₀ : Remote} {a b : Path} {flags : RenameFlags} {n : OsString}
    (hr : r₀.rename a b flags = some r) (hflag : flags.exchange = false) (hne : a ≠ b)
    (h : b.child n = a ∨ b.child n = b) : False := by
  rcases h with rfl | h
  · rcases (Remote.rename_cases hr).2 with ⟨hexchange, -⟩ | ⟨-, -, happart, -⟩
    · cases hexchange.symm.trans hflag
    · exact (happart.resolve_left hne).2 (List.prefix_append b _)
  · exact Path.ne_child b n h.symm

theorem Current.renamed {left : Remote} {a b : Path} {flags : RenameFlags}
    (h : Current fs (env 0).now) (hname : a.fileName ≠ none)
    (hren : fs.remote.rename a b flags = some r)
    (hleft : ∀ q, Alike r left q ∨
      (a ≠ b ∧ ∃ name, q.child name = a ∨ q.child name = b) ∧ StaysDirectory r left q)
    (hbuffer : BufferFits fs env left)
    (hkept : a ≠ b → ∀ q it, q.fileName ≠ none → held fs q = some it → Left fs a b flags q →
      DescribesObject left q it) :
    Current { { fs with remote := r }.onCache fun c =>
      FileSystem.renameCached c a b flags (env 1).toMoment with remote := left } (env 0).now := by
  refine ⟨fun q hq it he => ?_, hbuffer⟩
  have he : entry ({ fs with remote := r }.onCache fun c =>
    FileSystem.renameCached c a b flags (env 1).toMoment) q 0 = some it := he
  obtain ⟨c, hc, hfresh⟩ := entry_onCache he
  have hentry : ∀ p, entry fs p 0 = c.freshAt p 0 := by
    intro p
    have hcache : fs.cache = some c := hc
    rw [entry, hcache]
    rfl
  rcases renameCached_left hfresh with
    ⟨hflag, rfl, ⟨name, old, hb, hold, rfl⟩, -⟩ | ⟨hit, ⟨hqa, hparent⟩, hqb⟩
  · have hheld : entry fs a 0 = some old := (hentry a).trans hold
    have hmoved := describes_moved (h.entries a hname old hheld) hren hflag hb
    rcases hleft q with halike | ⟨⟨hne, n, hchild⟩, -⟩
    · exact describes_alike halike hmoved
    · exact (not_parent_of_target hren hflag hne hchild).elim
  · have hheld : held fs q = some it := (hentry q).trans hit
    -- unless its item is carried over, the new path stays as it is in the cache
    have huncarried : (q = b ∨ ∃ name, q.child name = b) →
        flags.exchange = false ∧ (held fs a = none ∨ b.fileName = none) := by
      intro hq
      by_contra hcarried
      have hgone := hqb <| by
        by_cases hflag : flags.exchange = true
        · exact Or.inl hflag
        · rw [Bool.not_eq_true] at hflag
          simp only [hflag, true_and, not_or] at hcarried
          rw [held, hentry] at hcarried
          exact Or.inr hcarried
      rcases hq with hq | ⟨n, hn⟩
      · exact hgone.1 hq
      · exact hgone.2 n hn
    by_cases hsame : a = b ∨ ¬a <+: q ∧ ¬b <+: q
    · have hr := describes_agrees (rename_agrees_of hren hsame) (h.entries q hq it hheld)
      rcases hleft q with halike | ⟨⟨hne, n, hchild | hchild⟩, -⟩
      · exact describes_alike halike hr
      · exact (hparent n hchild).elim
      · obtain ⟨hflag, hcarried⟩ := huncarried (Or.inr ⟨n, hchild⟩)
        exact hkept hne q it hq hheld (Or.inr (Or.inr ⟨hflag, hcarried,
          Or.inr ⟨⟨n, hchild⟩, hparent⟩⟩))
    · simp only [not_or, not_and, not_not] at hsame
      refine hkept hsame.1 q it hq hheld ?_
      by_cases hbelow : a <+: q
      · exact Or.inl ⟨hbelow, hqa⟩
      · by_cases hne : q = b
        · obtain ⟨hflag, hcarried⟩ := huncarried (Or.inl hne)
          exact Or.inr (Or.inr ⟨hflag, hcarried, Or.inl hne⟩)
        · exact Or.inr (Or.inl ⟨hsame.2 hbelow, hne⟩)

theorem run_failed {op : Op} {e : FsModelError} (he : (op.run fs env).1 = .error e)
    (hchanges : changes op = true) (hnothing : (op.staged fs.writeBuffer).1 = []) :
    (op.run fs env).2 = fs := by
  cases op with
  | read | getAttributes | readSymlink | readdir | invalidate => cases hchanges
  | write p off d =>
    have hnone : (fs.writeBuffer.stageWrite p off d).uploads = [] := hnothing
    rw [Op.run, outcome, FileSystem.writeFile, hnone] at he
    cases he
  | flush =>
    have hnone : fs.writeBuffer.stageFlush.1.toList = [] := hnothing
    rw [Op.run, FileSystem.flushWriteBuffer, hnone] at he
    cases he
  | setAttributes q new => exact FileSystem.setAttributes_error (outcome_error he)
  | rename a b flags => exact FileSystem.rename_error he
  | remove q => exact FileSystem.remove_error he
  | createFile q off d =>
    have he := outcome_error he
    simp only [Op.run, outcome]
    unfold FileSystem.createFile at he ⊢
    split
    · rfl
    · rename_i hsent
      rw [hsent] at he
      cases he
  | mkdir q =>
    have he := outcome_error he
    simp only [Op.run, outcome]
    unfold FileSystem.mkdir at he ⊢
    split
    · rfl
    · rename_i hsent
      rw [hsent] at he
      cases he
  | createSymlink q target =>
    have he := outcome_error he
    simp only [Op.run, outcome]
    unfold FileSystem.createSymlink at he ⊢
    split
    · rfl
    · rename_i hsent
      rw [hsent] at he
      cases he

/-- A call that fails, and may have been carried out. -/
theorem turn_failed {turn : Turn} (h : Current fs (turn.env 0).now) (hfit : CallFits fs turn)
    (hfail : turn.fails fs) (hchanges : changes turn.op = true) :
    Current (turn.run fs) (turn.env 0).now := by
  obtain ⟨op, env, left⟩ := turn
  obtain ⟨e, he⟩ := hfail
  have hsent := Current.uploadAll _ { fs with writeBuffer := (op.staged fs.writeBuffer).2 } env
    ⟨h.entries, h.buffer⟩ hfit.uploads
  by_cases hnothing : (op.staged fs.writeBuffer).1 = []
  · have hsame := run_failed he hchanges hnothing
    have hrun : Turn.run fs ⟨op, env, left⟩ = { fs with remote := left } := by
      rw [Turn.run, hsame]
    rw [hrun]
    exact hfit.failed ⟨e, he⟩ hchanges hnothing
  · cases op with
    | write p off d =>
      refine hsent.2 ?_
      have he := outcome_error he
      cases hres : ({ fs with writeBuffer := (fs.writeBuffer.stageWrite p off d).buffer }.uploadAll
          (fs.writeBuffer.stageWrite p off d).uploads env).1 with
      | error e' => exact ⟨e', hres⟩
      | ok u =>
        simp only [FileSystem.writeFile, hres] at he
        cases he
    | flush => exact hsent.2 ⟨e, he⟩
    | _ => exact (hnothing rfl).elim

theorem turn_current {turn : Turn} (h : Current fs (turn.env 0).now)
    (ht : ∀ i, (turn.env 0).now ≤ (turn.env i).now) (hnamed : RenamesNamed turn.op)
    (hleaves : Leaves fs turn) (hfit : CallFits fs turn) :
    Current (turn.run fs) (turn.env 0).now := by
  by_cases hfail : turn.fails fs ∧ changes turn.op = true
  · exact turn_failed h hfit hfail.1 hfail.2
  obtain ⟨op, env, left⟩ := turn
  have hleft := hleaves.settled hfail
  have hbuffer : BufferFits fs env left → BufferFits fs env (op.run fs env).2.remote :=
    fun hfits q x v hx => (hleaves.holds hfail q x v).mp (hfits q x v hx)
  have hok : changes op = true → (op.run fs env).1 = .ok () := by
    intro hchanges
    cases hres : (op.run fs env).1 with
    | ok u => rfl
    | error e => exact (hfail ⟨⟨e, hres⟩, hchanges⟩).elim
  cases op with
  | read q o s =>
    exact (h.read ht (hfit.read q o s rfl)).settled hleft fun q _ hT => (nothing_sent hT).elim
  | write q off d =>
    obtain ⟨n, hn⟩ := outcome_ok (hok rfl)
    exact h.uploaded hfit.uploads (FileSystem.writeFile_ok hn).2 hleft (hfit.granted (hok rfl))
  | flush => exact h.uploaded hfit.uploads (hok rfl) hleft (hfit.granted (hok rfl))
  | getAttributes q =>
    exact (h.getAttributes q env).settled hleft fun q _ hT => (nothing_sent hT).elim
  | readSymlink q =>
    exact (h.readSymlink q env).settled hleft fun q _ hT => (nothing_sent hT).elim
  | readdir q => exact (h.readdir q env).settled hleft fun q _ hT => (nothing_sent hT).elim
  | invalidate q =>
    have herased : Current (fs.cacheInvalidate q) (env 0).now :=
      ⟨fun p hp => (h.entries p hp).onCache_sub fun c => Cache.erase_sub c q, h.buffer⟩
    exact herased.settled hleft fun q _ hT => (nothing_sent hT).elim
  | setAttributes q new =>
    obtain ⟨hfits, hbytes⟩ := hfit.granted (hok rfl)
    refine (h.setAttributes (hbuffer hfits) fun f hf x b hb => ?_).settled hleft
      fun q _ hT => (nothing_sent hT).elim
    exact (hleaves.holds hfail q x b).mp (hbytes f hf x b hb)
  | createFile q off d =>
    refine (h.createFile (hbuffer (hfit.granted (hok rfl)))).settled hleft ?_
    rintro p - ⟨name, rfl⟩ -
    obtain ⟨a, ha⟩ := outcome_ok (hok rfl)
    change Entries (fs.createFile (p.child name) off d env).2 p 0 _
    unfold FileSystem.createFile at ha ⊢
    split at ha
    · cases ha
    · exact putNamed_parent
  | mkdir q =>
    refine h.mkdir.settled hleft ?_
    rintro p - ⟨name, rfl⟩ -
    obtain ⟨a, ha⟩ := outcome_ok (hok rfl)
    change Entries (fs.mkdir (p.child name) env).2 p 0 _
    unfold FileSystem.mkdir at ha ⊢
    split at ha
    · cases ha
    · exact putNamed_parent
  | createSymlink q target =>
    refine h.createSymlink.settled hleft ?_
    rintro p - ⟨name, rfl⟩ -
    obtain ⟨a, ha⟩ := outcome_ok (hok rfl)
    change Entries (fs.createSymlink (p.child name) target env).2 p 0 _
    unfold FileSystem.createSymlink at ha ⊢
    split at ha
    · cases ha
    · exact putNamed_parent
  | rename a b flags =>
    obtain ⟨hfits, hkept⟩ := hfit.granted (hok rfl)
    obtain ⟨r, hren, hrun⟩ := FileSystem.rename_ok (hok rfl)
    have hrun' : (Op.run fs (.rename a b flags) env).2 = { fs with remote := r }.onCache fun c =>
      FileSystem.renameCached c a b flags (env 1).toMoment := congrArg Prod.snd hrun
    simp only [hrun'] at hleft
    simp only [Turn.run, hrun']
    exact h.renamed (hnamed a b flags rfl) hren hleft hfits hkept
  | remove q =>
    refine (h.remove (hbuffer (hfit.granted (hok rfl)))).settled hleft ?_
    rintro p - ⟨name, rfl⟩ - it he
    obtain ⟨r, -, hrun⟩ := FileSystem.remove_ok (hok rfl)
    simp only [hrun] at he
    obtain ⟨c, -, hfresh⟩ := entry_onCache he
    exact ((Cache.remove_gone hfresh).2 name rfl).elim

theorem runTurns_current (turns : List Turn) : ∀ (fs : FileSystem L) (t : ℕ)
    (later : List Env), Current fs t → Clocked t (turns.map Turn.env ++ later) →
      (∀ turn ∈ turns, RenamesNamed turn.op) → Along Leaves fs turns → Along CallFits fs turns →
        ∃ t', Clocked t' later ∧ Current (runTurns fs turns) t' := by
  induction turns with
  | nil => exact fun fs t later h hclock _ _ _ => ⟨t, hclock, h⟩
  | cons turn turns ih =>
    rintro fs t later h ⟨hle, ht, hclock⟩ hnamed ⟨hleaves, hleft⟩ ⟨hfit, hrest⟩
    exact ih _ _ later
      (turn_current (h.later hle) ht (hnamed _ List.mem_cons_self) hleaves hfit) hclock
      (fun turn hturn => hnamed turn (List.mem_cons_of_mem _ hturn)) hleft hrest

end Calls

/-! Answers -/

section Answers

variable {fs : FileSystem L} {t : ℕ} {p q : Path} {env : Env} {o s : ℕ} {r : List UInt8}

theorem Current.getAttributes_answer {a : Attributes} (h : Current fs t)
    (hname : q.fileName ≠ none) (hget : (fs.getAttributes q env).1 = .ok a) :
    ∃ b, fs.remote.getAttributes q = some b ∧ SameAttributes a b :=
  getAttributes_told (h.entries q hname) (Nat.zero_le _) (says_object fs.remote q) hget

/-- What the file system answers about the path is what the server holds there. A read may be
short; without an answer there is an error. -/
structure Answers (fs : FileSystem L) (q : Path) (env : Env) : Prop where
  attributes : ∀ a, (fs.getAttributes q env).1 = .ok a →
    ∃ b, fs.remote.getAttributes q = some b ∧ SameAttributes a b
  target : ∀ s, (fs.readSymlink q env).1 = .ok s → fs.remote.readSymlink q = some s
  object : ∀ o s r, (fs.readFile q o s env).1 = .ok r → fs.remote.nodes q ≠ none
  bytes : ∀ o s r, (fs.readFile q o s env).1 = .ok r → r.length ≤ s ∧
    (∀ i b, r[i]? = some b → fs.remote.Holds q (o + i) b) ∧
    (r = [] → s = 0 ∨ fs.readBuffer.capacity = 0 ∨ ∀ v, ¬fs.remote.Holds q o v)

theorem Current.answers (h : Current fs (env 0).now) (ht : ∀ i, (env 0).now ≤ (env i).now)
    (hname : q.fileName ≠ none) : Answers fs q env := by
  have hnode : ∀ {a : Attributes}, fs.remote.getAttributes q = some a →
      fs.remote.nodes q ≠ none := by
    intro a ha hnone
    rw [Remote.getAttributes, hnone] at ha
    cases ha
  have hbytes : ∀ o s r, (fs.readFile q o s env).1 = .ok r → r.length ≤ s ∧
      (∀ i b, r[i]? = some b → fs.remote.Holds q (o + i) b) ∧
      (r = [] → s = 0 ∨ fs.readBuffer.capacity = 0 ∨ ∀ v, ¬fs.remote.Holds q o v) := by
    intro o s r hread
    have hgood : Entries fs q (env 0).now
        (Good (BytesAre (fs.remote.Holds q)) (object fs.remote q).attributes) :=
      fun it he => (h.entries q hname it (entry_earlier (Nat.zero_le _) he)).toGood
    rcases readFile_result ht hgood (h.buffer q) (serverIs_holds fs q)
      (says_object fs.remote q).attributes hread with ⟨rfl, a, ⟨b, hb, hsame⟩, hle⟩ | hres
    · refine ⟨Nat.zero_le s, fun i b hi => by simp at hi, fun _ => Or.inr (Or.inr fun v hv => ?_)⟩
      have hlt := hv.getAttributes hb
      rw [← hsame.size] at hlt
      exact Nat.not_le_of_lt hlt hle
    · refine ⟨hres.length_le, hres.bytes, fun hnil => ?_⟩
      by_contra hne
      simp only [not_or, not_forall, not_not] at hne
      obtain ⟨hs, hcap, v, hv⟩ := hne
      exact hres.nonempty (fun data hdata => (hv.readFile hdata).2 rfl (Nat.pos_of_ne_zero hcap))
        (Nat.pos_of_ne_zero hs) hnil
  refine ⟨fun a => h.getAttributes_answer hname, fun s => readSymlink_told
    (h.entries q hname) (Nat.zero_le _) (says_object fs.remote q), fun o s r hread => ?_, hbytes⟩
  rcases readFile_answered hread with hne | ⟨a, ha⟩ | ⟨size, data, hdata⟩
  · have hfirst := List.getElem?_eq_getElem (List.length_pos_of_ne_nil hne)
    obtain ⟨bytes, hheld, -⟩ := (hbytes o s r hread).2.1 0 _ hfirst
    exact hheld ▸ Option.some_ne_none _
  · obtain ⟨b, hb, -⟩ := h.getAttributes_answer hname ha
    exact hnode hb
  · intro hnone
    rw [Remote.readFile, hnone] at hdata
    cases hdata

end Answers

section Renamed

theorem current_new (remote : Remote) (capacity now : ℕ) (cache : Option (Cache L))
    (hempty : ∀ c, cache = some c → c.entries = ∅) :
    Current (.new remote capacity now cache) now where
  entries q _ it hit := by cases (entry_new hempty).symm.trans hit
  buffer q x v hx := by cases ReadBuffer.byteAt_new.symm.trans hx

end Renamed

theorem keys_of_held {fs : FileSystem L} {p : Path} {f : CachedFile L} {keys : List ℕ}
    (hkeys : (held fs p).bind (fun it => match it with
      | .file g => some g.file.content.keys
      | _ => none) = some keys) (hheld : held fs p = some (.file f)) :
    f.file.content.keys = keys := by
  rw [hheld] at hkeys
  exact Option.some.inj hkeys

end ClientRenameCoherence
