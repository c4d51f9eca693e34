import RemoteFs.ClientDirectoryListing
import RemoteFs.ClientKnowledgeAnswers
import RemoteFs.ClientReadBufferCoherence

/-! # How old an answer can be

The server is changed by others between the calls of this client, and it is remembered as the
client met it. Whatever the cache tells was so on the server a time to live before, or a read
buffer's time earlier; an item that a rename carries over starts to live anew. -/
namespace ClientStaleness

open ClientAttributes
open ClientCache
open ClientCalls
open ClientDirectoryListing
open ClientFileSystem
open ClientKnowledge
open ClientKnowledgeAnswers
open ClientKnowledgeReads
open ClientMemory
open ClientPageCache
open ClientReadBuffer
open ClientReadBufferCoherence
open ClientWriteBuffer
open OsPaths
open RemoteTree
open WriteLog

variable {L : PageLimits}

abbrev Past := List (ℕ × Remote)

inductive Event where
  | call (op : Op) (env : Env)
  | others (remote : Remote)

def moved (r : Remote) (a b : Path) : Remote :=
  { r with nodes := r.nodes.rename a b, info := relocate r.info (r.info a) a b }

def uploaded : FileSystem L → List Chunk → Env → List Remote
  | _, [], _ => []
  | fs, w :: ws, env =>
    match (fs.upload w env).1 with
    | .error _ => []
    | .ok () => (fs.upload w env).2.remote :: uploaded (fs.upload w env).2 ws (env.drop 2)

def left (fs : FileSystem L) (op : Op) (env : Env) : List Remote :=
  (op.run fs env).2.remote :: uploaded { fs with writeBuffer := (op.staged fs.writeBuffer).2 }
    (op.staged fs.writeBuffer).1 env

def alsoMoved (past : Past) (fs : FileSystem L) (env : Env) : Op → Past
  | .rename a b flags =>
    match (fs.rename a b flags env).1, flags.exchange with
    | .ok (), false => past.map fun s => (s.1, moved s.2 a b)
    | _, _ => []
  | _ => []

def seen (past : Past) (fs : FileSystem L) (env : Env) : Past :=
  past ++ [((env 0).now, fs.remote)]

def remember (past : Past) (fs : FileSystem L) (op : Op) (env : Env) : Past :=
  seen past fs env ++ alsoMoved (seen past fs env) fs env op ++
    (left fs op env).map fun r => ((env 0).now, r)

def runEvents : FileSystem L × Past → List Event → FileSystem L × Past
  | s, [] => s
  | s, .call op env :: events =>
    runEvents ((op.run s.1 env).2, remember s.2 s.1 op env) events
  | s, .others r :: events => runEvents ({ s.1 with remote := r }, s.2) events

/-- The server was so, no earlier than the read buffer's time and `T` before `t`. -/
inductive Within (past : Past) (T t : ℕ) (P : Remote → Prop) : Prop where
  | met (s : ℕ × Remote) (mem : s ∈ past) (recent : t ≤ s.1 + T + ReadBuffer.ttl) (holds : P s.2)

/-- What was so of the path; an item of which this is still told has been put since `t - T`. -/
def since (past : Past) (T now t : ℕ) (q : Path) : Facts where
  fresh := t ≤ now + T
  itemType k := Within past T t fun r => ∃ c, r.nodes q = some c ∧ k = c.itemType
  name n := ∀ m, q.fileName = some m → n = m
  attributes a := Within past T t fun r => r.getAttributes q = some a
  children names := Within past T t fun r => Children r q names
  target s := Within past T t fun r => r.readSymlink q = some s

def heldSince (past : Past) (T t : ℕ) (q : Path) (x : ℕ) (v : UInt8) : Prop :=
  Within past T t fun r => r.Holds q x v

def Young (past : Past) (now : ℕ) (q : Path) (it : CacheItem L) : Prop :=
  Tells (since past 0 now now q) (BytesAre (heldSince past 0 now q)) it

/-- The invariant of a client whose items live for `T`. -/
structure Bounded (fs : FileSystem L) (past : Past) (T now : ℕ) : Prop where
  lives : ∀ n t, now ≤ t → Lives fs n t → t ≤ n + T
  entries : ∀ q t, now ≤ t →
    Entries fs q t (Tells (since past T now t q) (BytesAre (heldSince past T t q)))
  buffer : ∀ q n x v, now ≤ n → fs.readBuffer.byteAt n q x = some v →
    ∃ s ∈ past, n ≤ s.1 + ReadBuffer.ttl ∧ s.2.Holds q x v

/-! What a call finds in memory -/

def ZerosFit : FileSystem L → List Chunk → Env → Prop
  | _, [], _ => True
  | fs, w :: ws, env =>
    (∀ r, (env 0).reply = none →
      fs.remote.writeFile w.key w.offset w.data (env 0).serverTime = some r →
        ∀ f, entry fs w.key (env 0).now = some (.file f) →
          GapsAre (r.Holds w.key) (written L w.key w.offset w.data) f) ∧
      ZerosFit (fs.upload w env).2 ws (env.drop 2)

/-- The gaps of a merge are zeros on the server, and what a rename carries over is young. -/
def CallFits (past : Past) (fs : FileSystem L) (env : Env) : Op → Prop
  | .read p o s => ∀ f, entry fs p (env 0).now = some (.file f) →
      MissGaps fs p o s (env 4).now (fs.remote.Holds p) f
  | .rename a b flags => (env 0).reply = none → fs.remote.rename a b flags ≠ none →
      flags.exchange = false → b.fileName ≠ none → ∀ it, held fs a = some it →
        Young (seen past fs env) (env 0).now a it
  | op => ZerosFit { fs with writeBuffer := (op.staged fs.writeBuffer).2 }
      (op.staged fs.writeBuffer).1 env

def AllCallsFit : FileSystem L × Past → List Event → Prop
  | _, [] => True
  | s, .call op env :: events => CallFits s.2 s.1 env op ∧
      AllCallsFit ((op.run s.1 env).2, remember s.2 s.1 op env) events
  | s, .others r :: events => AllCallsFit ({ s.1 with remote := r }, s.2) events

/-- The clock stands still during a call and does not go back between calls. -/
def Advancing : ℕ → List Event → Prop
  | _, [] => True
  | now, .call _ env :: events => now ≤ (env 0).now ∧ (∀ i, (env i).now = (env 0).now) ∧
      Advancing (env 0).now events
  | now, .others _ :: events => Advancing now events

def lastCall : ℕ → List Event → ℕ
  | now, [] => now
  | _, .call _ env :: events => lastCall (env 0).now events
  | now, .others _ :: events => lastCall now events

def AllServed : FileSystem L → List Event → Prop
  | _, [] => True
  | fs, .call op env :: events => (Tree fs.remote ∧
      ∀ q, op = .readdir q → ListsAll fs.remote q env) ∧ AllServed (op.run fs env).2 events
  | fs, .others r :: events => AllServed { fs with remote := r } events

section Facts

variable {past past' : Past} {T T' now now' t t' : ℕ} {p q : Path} {P P' : Remote → Prop}
  {r : Remote} {it : CacheItem L} {env : Env}

theorem Within.imp (h : Within past T t P) (hsub : ∀ s ∈ past, s ∈ past')
    (hP : ∀ r, P r → P' r) : Within past' T t P' := by
  obtain ⟨s, hs, ht, hp⟩ := h
  exact ⟨s, hsub s hs, ht, hP s.2 hp⟩

theorem within_now (hmem : (now, r) ∈ past) (ht : t ≤ now + T) (hP : P r) : Within past T t P :=
  ⟨(now, r), hmem, Nat.le_add_right_of_le ht, hP⟩

theorem since_implies (hsub : ∀ s ∈ past, s ∈ past') (hle : now ≤ now') :
    (since past T now t q).Implies (since past' T now' t q) where
  fresh h := h.trans (Nat.add_le_add_right hle T)
  itemType _ h := h.imp hsub fun _ => id
  name _ h := h
  attributes _ h := h.imp hsub fun _ => id
  children _ h := h.imp hsub fun _ => id
  target _ h := h.imp hsub fun _ => id

theorem says_since (hmem : (now, r) ∈ past) (ht : t ≤ now + T) :
    Says r q (since past T now t q) where
  name m hm := by rw [hm, Option.getD_some]
  itemType c hc := within_now hmem ht ⟨c, hc, rfl⟩
  attributes a ha := within_now hmem ht ha
  target s hs := within_now hmem ht hs

theorem Bounded.mono {fs : FileSystem L} (h : Bounded fs past T now)
    (hsub : ∀ s ∈ past, s ∈ past') (hle : now ≤ now') : Bounded fs past' T now' where
  lives n t ht := h.lives n t (hle.trans ht)
  entries q t ht it he := (h.entries q t (hle.trans ht) it he).mono (since_implies hsub hle)
    fun _ hf x v hb => (hf x v hb).imp hsub fun _ => id
  buffer q n x v hn hx := by
    obtain ⟨s, hs, hle', hheld⟩ := h.buffer q n x v (hle.trans hn) hx
    exact ⟨s, hsub s hs, hle', hheld⟩

end Facts

section Calls

variable {fs done : FileSystem L} {past : Past} {T now : ℕ} {p q : Path} {env : Env} {r : Remote}
  {m : Moment}

theorem Bounded.fetched (h : Bounded fs past T now) (hf : ∀ p t, now ≤ t →
    Learned p t (since past T now t p) (BytesAre (heldSince past T t p)) fs done) :
    Bounded done past T now where
  lives n t ht hl := h.lives n t ht ((hf [] t ht).lives n hl)
  entries p t ht := (hf p t ht).entries (h.entries p t ht)
  buffer p n x v hn hx := by
    rw [(hf p n hn).readBuffer] at hx
    exact h.buffer p n x v hn hx

theorem Bounded.fresh {t i : ℕ} (h : Bounded fs past T now) (henv : ∀ i, (env i).now = now)
    (ht : now ≤ t) (hl : Lives fs (env i).now t) : t ≤ now + T :=
  h.lives now t ht (henv i ▸ hl)

theorem Bounded.getAttributes (h : Bounded fs past T now) (henv : ∀ i, (env i).now = now)
    (hmem : (now, fs.remote) ∈ past) : Bounded (fs.getAttributes q env).2 past T now :=
  h.fetched fun _ _ ht => learned_getAttributes bytesAre_aboutPages
    (fun _ hl => h.fresh henv ht hl) (says_since hmem) q

theorem Bounded.readSymlink (h : Bounded fs past T now) (henv : ∀ i, (env i).now = now)
    (hmem : (now, fs.remote) ∈ past) : Bounded (fs.readSymlink q env).2 past T now :=
  h.fetched fun _ _ ht => learned_readSymlink bytesAre_aboutPages
    (fun _ hl => h.fresh henv ht hl) (says_since hmem) q

theorem lists_since {t : ℕ} (hl : ListsAll fs.remote q env) (hmem : (now, fs.remote) ∈ past)
    (ht : t ≤ now + T) : ListsTell fs.remote q (since past T now t q) env :=
  fun _ _ hreply hlist => within_now hmem ht (children_of_listPath hl hreply hlist)

theorem Bounded.readdir (h : Bounded fs past T now) (henv : ∀ i, (env i).now = now)
    (hmem : (now, fs.remote) ∈ past) (hl : ListsAll fs.remote q env) :
    Bounded (fs.readdir q env).2 past T now := by
  refine h.fetched fun p t ht => learned_readdir bytesAre_aboutPages
    (Or.inr fun i => (henv i).trans (henv 0).symm) (fun _ hl => h.fresh henv ht hl)
    (says_since hmem) ?_
  rintro rfl hf
  exact lists_since hl hmem hf

/-- A change at one path. -/
theorem Bounded.changed (h : Bounded fs past T now) (q : Path)
    (hb : done.readBuffer = fs.readBuffer) (hl : ∀ n t, Lives done n t → Lives fs n t)
    (hne : ∀ p t Q, q ≠ p → Entries fs p t Q → Entries done p t Q)
    (hq : ∀ t, now ≤ t → Entries done q t
      (Tells (since past T now t q) (BytesAre (heldSince past T t q)))) :
    Bounded done past T now where
  lives n t ht hlive := h.lives n t ht (hl n t hlive)
  entries p t ht := by
    by_cases hpq : q = p
    · exact hpq ▸ hq t ht
    · exact hne p t _ hpq (h.entries p t ht)
  buffer p n x v hn hx := by
    rw [hb] at hx
    exact h.buffer p n x v hn hx

theorem Bounded.putNamed {item : OsString → CacheItem L} (h : Bounded fs past T now)
    (hm : m.now = now) (hitem : ∀ name t, q.fileName = some name → t ≤ now + T →
      Tells (since past T now t q) (BytesAre (heldSince past T t q)) (item name)) :
    Bounded ({ fs with remote := r }.putNamed q item m) past T now := by
  obtain ⟨-, hbuffer, -⟩ := putNamed_frame { fs with remote := r } q item m
  have hlives : ∀ n t, Lives ({ fs with remote := r }.putNamed q item m) n t → Lives fs n t := by
    intro n t hl
    have hbefore : Lives { fs with remote := r } n t := lives_putNamed hl
    exact hbefore
  refine h.changed q hbuffer hlives (fun p t Q hp he => ?_) fun t ht => ?_
  · have hbefore : Entries { fs with remote := r } p t Q := he
    exact hbefore.putNamed_ne hp
  · cases hname : q.fileName with
    | none =>
      rw [FileSystem.putNamed, hname]
      exact h.entries q t ht
    | some name =>
      refine putNamed_entry_self hname fun hl => hitem name t hname ?_
      rw [hm] at hl
      exact h.lives now t ht hl

/-- What a call makes of an object that the server has created, and names the attributes of. -/
theorem Bounded.created {c : Content} {a : Attributes} {item : OsString → CacheItem L}
    (h : Bounded fs past T now) (hm : m.now = now) (hmem : (now, r) ∈ past)
    (hnode : r.nodes q = some c) (ha : r.getAttributes q = some a) (hb : ∀ name, Bare (item name))
    (htype : ∀ name, itemType (item name) = c.itemType)
    (hname : ∀ name, itemName (item name) = name)
    (hattr : ∀ name, (item name).getAttributes = some a)
    (hnames : ∀ name names, namesOf (item name) = some names → Children r q names)
    (htarget : ∀ name s, targetOf (item name) = some s → r.readSymlink q = some s) :
    Bounded ({ fs with remote := r }.putNamed q item m) past T now :=
  h.putNamed hm fun name _ hq hle => tells_new bytesAre_aboutPages (says_since hmem hle) hle hq
    hnode ha (hb name) (htype name) (hname name) (hattr name)
    (fun names hn => within_now hmem hle (hnames name names hn)) (htarget name)

theorem Bounded.createFile {off : ℕ} {d : List UInt8} (h : Bounded fs past T now)
    (henv : ∀ i, (env i).now = now) (hmem : (now, (fs.createFile q off d env).2.remote) ∈ past) :
    Bounded (fs.createFile q off d env).2 past T now := by
  unfold FileSystem.createFile at hmem ⊢
  split
  · exact h
  · rename_i a r hsent
    obtain ⟨hw, ha⟩ := FileSystem.withAttributes_some (FileSystem.sent_ok.mp hsent).2.2
    rw [hsent] at hmem
    dsimp only at hmem
    rw [(putNamed_frame _ _ _ _).1] at hmem
    obtain ⟨bytes, hnode⟩ := Remote.writeFile_created hw
    exact h.created (henv 1) hmem hnode ha (fun name => bare_new name _) (fun _ => rfl)
      (fun _ => rfl) (fun _ => rfl) (fun _ => nofun) fun _ => nofun

theorem Bounded.mkdir (h : Bounded fs past T now) (henv : ∀ i, (env i).now = now)
    (htree : Tree fs.remote) (hmem : (now, (fs.mkdir q env).2.remote) ∈ past) :
    Bounded (fs.mkdir q env).2 past T now := by
  unfold FileSystem.mkdir at hmem ⊢
  split
  · exact h
  · rename_i a r hsent
    obtain ⟨hm, ha⟩ := FileSystem.withAttributes_some (FileSystem.sent_ok.mp hsent).2.2
    rw [hsent] at hmem
    dsimp only at hmem
    rw [(putNamed_frame _ _ _ _).1] at hmem
    refine h.created (henv 1) hmem (Remote.mkdir_created hm).2 ha (fun _ => trivial)
      (fun _ => rfl) (fun _ => rfl) (fun _ => rfl) (fun _ names hnames => ?_) fun _ => nofun
    injection hnames with hnames
    exact hnames ▸ children_mkdir htree hm

theorem Bounded.createSymlink {target : String} (h : Bounded fs past T now)
    (henv : ∀ i, (env i).now = now)
    (hmem : (now, (fs.createSymlink q target env).2.remote) ∈ past) :
    Bounded (fs.createSymlink q target env).2 past T now := by
  unfold FileSystem.createSymlink at hmem ⊢
  split
  · exact h
  · rename_i a r hsent
    obtain ⟨hl, ha⟩ := FileSystem.withAttributes_some (FileSystem.sent_ok.mp hsent).2.2
    rw [hsent] at hmem
    dsimp only at hmem
    rw [(putNamed_frame _ _ _ _).1] at hmem
    have hnode := (Remote.createSymlink_created hl).2
    refine h.created (henv 1) hmem hnode ha (fun _ => trivial) (fun _ => rfl) (fun _ => rfl)
      (fun _ => rfl) (fun _ => nofun) fun _ s hs => ?_
    injection hs with hs
    rw [Remote.readSymlink, hnode, hs]

theorem Bounded.withRemote (h : Bounded fs past T now) (r : Remote) :
    Bounded { fs with remote := r } past T now := ⟨h.lives, h.entries, h.buffer⟩

theorem Bounded.withBuffer (h : Bounded fs past T now) (b : WriteBuffer) :
    Bounded { fs with writeBuffer := b } past T now := ⟨h.lives, h.entries, h.buffer⟩

/-- Old bytes and targets stay as old as they are. -/
theorem Bounded.setAttributes {new : SetAttr} (h : Bounded fs past T now)
    (henv : ∀ i, (env i).now = now) (hmem : (now, (fs.setAttributes q new env).2.remote) ∈ past) :
    Bounded (fs.setAttributes q new env).2 past T now := by
  cases hres : (fs.setAttributes q new env).1 with
  | error e =>
    rw [FileSystem.setAttributes_error hres]
    exact h
  | ok a =>
    obtain ⟨r, -, ha, hrun⟩ := FileSystem.setAttributes_ok hres
    rw [hrun] at hmem ⊢
    have hserver := h.withRemote r
    refine hserver.fetched fun p t ht => learned_cachePutAttr bytesAre_aboutPages
      (fun hl => hserver.fresh henv ht hl) (says_since hmem) ?_
    exact ha

theorem Bounded.upload {w : Chunk} (h : Bounded fs past T now) (henv : ∀ i, (env i).now = now)
    (hmem : (now, (fs.upload w env).2.remote) ∈ past)
    (hgap : ∀ r, (env 0).reply = none →
      fs.remote.writeFile w.key w.offset w.data (env 0).serverTime = some r →
        ∀ f, entry fs w.key (env 0).now = some (.file f) →
          GapsAre (r.Holds w.key) (written L w.key w.offset w.data) f) :
    Bounded (fs.upload w env).2 past T now := by
  unfold FileSystem.upload at hmem ⊢
  split
  · exact h
  · rename_i r hsent
    obtain ⟨-, hreply, hw⟩ := FileSystem.sent_ok.mp hsent
    rw [hsent] at hmem
    have hserver := h.withRemote r
    have hlives : ∀ n t, Lives ({ fs with remote := r }.onCache fun c =>
        cacheWriteFile c w.key w.offset w.data true (env 1).toMoment) n t →
          Lives { fs with remote := r } n t := fun n t => lives_cacheWriteFile
    refine hserver.changed w.key rfl hlives (fun p t Q hp he => he.cacheWriteFile_ne hp)
      fun t ht => ?_
    by_cases hname : w.key.fileName = none
    · exact cacheWriteFile_nameless (hserver.entries w.key t ht) hname
    · obtain ⟨bytes, hnode⟩ := Remote.writeFile_created hw
      refine tells_cacheWriteFile hname (fun hl => hserver.fresh henv ht hl) id
        (hserver.entries w.key t ht) (fun hf => within_now hmem hf ⟨_, hnode, rfl⟩)
        (fun hf => (says_since hmem hf).name) (fun hf x b hx hb => ?_)
        (fun f x b he hb => Or.inl ((hserver.entries w.key t ht _ he).file f rfl x b hb))
        (fun f he x hx => ?_) (fun _ _ hn => hn) (fun h => (Bool.false_ne_true h.symm).elim)
      · have hget : w.get w.key x = some b := by
          rw [Write.get, if_pos ⟨rfl, hx⟩]
          exact hb
        exact within_now hmem hf (Remote.writeFile_holds hget hw)
      · have hfresh := (hserver.entries w.key t ht _ he).fresh
        exact within_now hmem hfresh
          (hgap r hreply hw f (entry_earlier (henv 0 ▸ ht) he) x hx)

theorem Bounded.uploadAll (ws : List Chunk) : ∀ (fs : FileSystem L) (env : Env),
    Bounded fs past T now → (∀ i, (env i).now = now) →
      (∀ r ∈ uploaded fs ws env, (now, r) ∈ past) → ZerosFit fs ws env →
        Bounded (fs.uploadAll ws env).2 past T now := by
  induction ws with
  | nil => exact fun _ _ h _ _ _ => h
  | cons w ws ih =>
    rintro fs env h henv hmem ⟨hgap, hrest⟩
    cases hres : (fs.upload w env).1 with
    | error e =>
      rw [uploadAll_cons_error hres]
      exact h
    | ok u =>
      rw [uploadAll_cons_ok hres]
      rw [uploaded, hres] at hmem
      have hupload := h.upload henv (hmem _ List.mem_cons_self) hgap
      exact ih _ _ hupload (fun i => henv _) (fun r hr => hmem r (List.mem_cons_of_mem _ hr)) hrest

theorem Bounded.remove (h : Bounded fs past T now) : Bounded (fs.remove q env).2 past T now := by
  cases hres : (fs.remove q env).1 with
  | error e =>
    rw [FileSystem.remove_error hres]
    exact h
  | ok u =>
    obtain ⟨r, -, hrun⟩ := FileSystem.remove_ok hres
    rw [hrun]
    exact ⟨fun n t ht hl => h.lives n t ht (lives_onCache (fun c => Cache.remove_config c q) hl),
      fun p t ht => ((h.withRemote r).entries p t ht).onCache_sub fun c => Cache.remove_sub c q,
      h.buffer⟩

theorem Bounded.invalidate (h : Bounded fs past T now) :
    Bounded (fs.cacheInvalidate q) past T now :=
  ⟨fun n t ht hl => h.lives n t ht
      (lives_onCache (f := fun c => c.invalidate q) (fun _ => ⟨rfl, rfl⟩) hl),
    fun p t ht => (h.entries p t ht).onCache_sub fun c => Cache.erase_sub c q, h.buffer⟩

theorem Bounded.serverIs {t : ℕ} (hmem : (now, fs.remote) ∈ past) (ht : t ≤ now + T) :
    ServerIs fs q (heldSince past T t q) :=
  fun _ _ _ hread _ _ hb => within_now hmem ht (holds_readFile hread hb)

/-- What the read buffer serves is within its time, and no older than that beneath `T`. -/
theorem Bounded.bufferTells {t : ℕ} (h : Bounded fs past T now) (ht : t ≤ now + T) :
    BufferTells fs q now (since past T now t q) (heldSince past T t q) := by
  intro x v hx
  obtain ⟨s, hs, hle, bytes, hnode, hb⟩ := h.buffer q now x v (Nat.le_refl now) hx
  have hrecent : t ≤ s.1 + T + ReadBuffer.ttl := by omega
  exact ⟨⟨s, hs, hrecent, bytes, hnode, hb⟩, s, hs, hrecent, _, hnode, rfl⟩

theorem Bounded.read {o n : ℕ} (h : Bounded fs past T now) (henv : ∀ i, (env i).now = now)
    (hmem : (now, fs.remote) ∈ past) (hfit : CallFits past fs env (.read q o n)) :
    Bounded (fs.readFile q o n env).2 past T now := by
  have hread : ∀ p t, now ≤ t → HasRead q p t env (since past T now t p)
      (BytesAre (heldSince past T t p)) fs (fs.readFile q o n env).2 := by
    intro p t ht
    by_cases hq : q = p
    · subst hq
      refine hasRead_readFile (fun _ hl => h.fresh henv ht hl) (says_since hmem)
        (Bounded.serverIs hmem) (fun hf => ?_) fun it he => ?_
      · rw [henv 4]
        exact h.bufferTells hf
      · have htold := h.entries q t ht it he
        refine { htold with file := ?_ }
        rintro f rfl
        refine ⟨htold.file f rfl, fun hmiss data hdata x hx => ?_⟩
        exact within_now hmem htold.fresh
          (hfit f (entry_earlier (henv 0 ▸ ht) he) hmiss data hdata x hx)
    · exact hasRead_readFile_ne bytesAre_aboutPages (fun _ hl => h.fresh henv ht hl)
        (says_since hmem) hq (h.entries p t ht)
  refine ⟨fun n t ht hl => h.lives n t ht ((hread [] t ht).lives n hl),
    fun p t ht => (hread p t ht).entries, fun p n x v hn hx => ?_⟩
  rcases (hread p now (Nat.le_refl now)).buffer with hsame | ⟨i, offset, size, data, hdata, hfill⟩
  · rw [hsame] at hx
    exact h.buffer p n x v hn hx
  · rw [hfill] at hx
    obtain ⟨rfl, hle, hb⟩ := ReadBuffer.byteAt_fill hx
    have hheld := holds_readFile hdata hb
    rw [Nat.add_sub_cancel' hle] at hheld
    refine ⟨(now, fs.remote), hmem, ?_, hheld⟩
    rw [← henv i]
    exact ReadBuffer.byteAt_fill_recent hx

/-- A young item tells, under the new path, what is recent for as long as it lives there. -/
theorem carried_since {past' : Past} {a b : Path} {it : CacheItem L} {name : OsString} {t : ℕ}
    (h : Young past now a it) (hmoved : ∀ s ∈ past, (s.1, moved s.2 a b) ∈ past')
    (hname : b.fileName = some name) (ht : t ≤ now + T) :
    Tells (since past' T now t b) (BytesAre (heldSince past' T t b)) (it.rename name) := by
  have hnow : ∀ r : Remote, r.MovedTo a (moved r a b) b := fun r => r.movedTo_relocate a b
  have hwithin : ∀ {P P' : Remote → Prop}, Within past 0 now P →
      (∀ r, P r → P' (moved r a b)) → Within past' T t P' := by
    rintro P P' ⟨s, hs, hle, hp⟩ hP
    exact ⟨(s.1, moved s.2 a b), hmoved s hs, by dsimp only; omega, hP s.2 hp⟩
  refine renamed_tells h ht ?_ ?_ ?_ ?_ ?_ ?_
  · intro m hm
    exact Option.some.inj (hname.symm.trans hm)
  · intro f g hsame hf x v hx
    rw [hsame.byteAt] at hx
    refine hwithin (hf x v hx) ?_
    rintro r ⟨bytes, hr, hb⟩
    exact ⟨bytes, (hnow r).nodes_self.trans hr, hb⟩
  · rintro k hk
    refine hwithin hk ?_
    rintro r ⟨c, hc, htype⟩
    exact ⟨c, (hnow r).nodes_self.trans hc, htype⟩
  · intro x hx
    exact hwithin hx fun r hr => (hnow r).getAttributes.trans hr
  · intro names hnames
    refine hwithin hnames fun r hr => ?_
    rw [children_moved (hnow r)]
    exact hr
  · intro s hs
    exact hwithin hs fun r hr => (hnow r).readSymlink.trans hr

theorem Bounded.rename {past' : Past} {a b : Path} {flags : RenameFlags}
    (h : Bounded fs past' T now) (henv : ∀ i, (env i).now = now)
    (hmoved : ∀ s ∈ alsoMoved (seen past fs env) fs env (.rename a b flags), s ∈ past')
    (hfit : CallFits past fs env (.rename a b flags)) :
    Bounded (fs.rename a b flags env).2 past' T now := by
  cases hres : (fs.rename a b flags env).1 with
  | error e =>
    rw [FileSystem.rename_error hres]
    exact h
  | ok u =>
    obtain ⟨r, hren, hrun⟩ := FileSystem.rename_ok hres
    rw [hrun]
    refine ⟨fun n t ht hl => h.lives n t ht
      (lives_onCache (fun c => renameCached_config c a b flags _) hl), fun q t ht it he => ?_,
      h.buffer⟩
    obtain ⟨c, hc, hfresh⟩ := entry_onCache he
    have hentry : ∀ p t, entry fs p t = c.freshAt p t := fun p t => by rw [entry, hc]; rfl
    rcases renameCached_left hfresh with
      ⟨hflag, rfl, ⟨name, old, hname, hold, rfl⟩, hlives⟩ | ⟨hit, -, -⟩
    · have hyoung := hfit (FileSystem.rename_replied hres) (by simp [hren]) hflag
        (by simp [hname]) old ((hentry a 0).trans hold)
      rw [henv 0] at hyoung
      refine carried_since hyoung (fun s hs => hmoved _ ?_) hname ?_
      · rw [alsoMoved, hres, hflag]
        exact List.mem_map_of_mem hs
      · refine h.lives now t ht fun c₀ hc₀ hu => ?_
        rw [hc] at hc₀
        injection hc₀ with hc₀
        subst hc₀
        rw [← henv 1]
        exact hlives hu
    · exact h.entries q t ht it ((hentry q t).trans hit)

theorem mem_seen_now (past : Past) (fs : FileSystem L) (env : Env) :
    ((env 0).now, fs.remote) ∈ seen past fs env :=
  List.mem_append_right _ (List.mem_singleton_self _)

theorem mem_seen_of_mem {s : ℕ × Remote} (h : s ∈ past) : s ∈ seen past fs env :=
  List.mem_append_left _ h

theorem mem_remember_of_mem {op : Op} {s : ℕ × Remote} (h : s ∈ seen past fs env) :
    s ∈ remember past fs op env :=
  List.mem_append_left _ (List.mem_append_left _ h)

theorem run_bounded {op : Op} (h : Bounded fs past T now) (hle : now ≤ (env 0).now)
    (henv : ∀ i, (env i).now = (env 0).now) (htree : Tree fs.remote)
    (hl : ∀ q, op = .readdir q → ListsAll fs.remote q env) (hfit : CallFits past fs env op) :
    Bounded (op.run fs env).2 (remember past fs op env) T (env 0).now := by
  have hbefore : ((env 0).now, fs.remote) ∈ remember past fs op env :=
    mem_remember_of_mem (mem_seen_now past fs env)
  have hleft : ∀ r ∈ left fs op env, ((env 0).now, r) ∈ remember past fs op env := fun r hr =>
    List.mem_append_right _ (List.mem_map_of_mem hr)
  have hafter := hleft _ List.mem_cons_self
  have hmet : Bounded fs (remember past fs op env) T (env 0).now :=
    h.mono (fun s hs => mem_remember_of_mem (mem_seen_of_mem hs)) hle
  cases op with
  | read q o n => exact hmet.read henv hbefore hfit
  | write q off d =>
    exact Bounded.uploadAll _ _ env (hmet.withBuffer _) henv
      (fun r hr => hleft r (List.mem_cons_of_mem _ hr)) hfit
  | flush =>
    exact Bounded.uploadAll _ _ env (hmet.withBuffer _) henv
      (fun r hr => hleft r (List.mem_cons_of_mem _ hr)) hfit
  | getAttributes q => exact hmet.getAttributes henv hbefore
  | setAttributes q new => exact hmet.setAttributes henv hafter
  | createFile q off d => exact hmet.createFile henv hafter
  | mkdir q => exact hmet.mkdir henv htree hafter
  | createSymlink q target => exact hmet.createSymlink henv hafter
  | readSymlink q => exact hmet.readSymlink henv hbefore
  | readdir q => exact hmet.readdir henv hbefore (hl q rfl)
  | rename a b flags =>
    refine hmet.rename henv (fun s hs => ?_) hfit
    exact List.mem_append_left _ (List.mem_append_right _ hs)
  | remove q => exact hmet.remove
  | invalidate q => exact hmet.invalidate

theorem runEvents_bounded (events : List Event) : ∀ (s : FileSystem L × Past) (now : ℕ),
    Bounded s.1 s.2 T now → Advancing now events → AllServed s.1 events → AllCallsFit s events →
      Bounded (runEvents s events).1 (runEvents s events).2 T (lastCall now events) := by
  induction events with
  | nil => exact fun s now h _ _ _ => h
  | cons event events ih =>
    cases event with
    | others r =>
      intro s now h hclock hserved hfit
      exact ih _ now (h.withRemote r) hclock hserved hfit
    | call op env =>
      rintro s now h ⟨hle, henv, hclock⟩ ⟨⟨htree, hl⟩, hserved⟩ ⟨hfit, hrest⟩
      exact ih _ _ (run_bounded h hle henv htree hl hfit) hclock hserved hrest

end Calls

/-! Answers -/

/-- Everything that the call at the path answers was so on the server, no earlier than `T` and
the read buffer's time before. -/
structure Recent (fs : FileSystem L) (past : Past) (T : ℕ) (q : Path) (env : Env) : Prop where
  attributes : ∀ a, (fs.getAttributes q env).1 = .ok a →
    Within past T (env 0).now fun r => r.getAttributes q = some a
  bytes : ∀ o n data, (fs.readFile q o n env).1 = .ok data → ∀ i b, data[i]? = some b →
    Within past T (env 0).now fun r => r.Holds q (o + i) b
  target : ∀ s, (fs.readSymlink q env).1 = .ok s →
    Within past T (env 0).now fun r => r.readSymlink q = some s
  listing : ListsAll fs.remote q env → ∀ all, (fs.readdir q env).1 = .ok all →
    ListingTold (since past T (env 0).now (env 0).now) q all

theorem Bounded.recent {fs : FileSystem L} {past : Past} {T : ℕ} {q : Path} {env : Env}
    (h : Bounded fs past T (env 0).now) (henv : ∀ i, (env i).now = (env 0).now)
    (hmem : ((env 0).now, fs.remote) ∈ past) : Recent fs past T q env := by
  have hle : (env 0).now ≤ (env 0).now + T := Nat.le_add_right _ T
  have hentries := fun p => h.entries p (env 0).now (Nat.le_refl _)
  have hclock : ∀ i, (env 0).now ≤ (env i).now := fun i => (henv i).symm.le
  have htold := fun p => says_since (q := p) hmem hle
  refine ⟨?_, ?_, ?_, ?_⟩
  · exact fun a hget => getAttributes_told (hentries q) (hclock 0) (htold q) hget
  · intro o n data hread i b hb
    have hgood : Entries fs q (env 0).now (Good (BytesAre (heldSince past T (env 0).now q))
        (since past T (env 0).now (env 0).now q).attributes) :=
      fun it he => (hentries q it he).toGood
    rcases readFile_result hclock hgood (fun x v hx => (h.bufferTells hle x v hx).1)
      (Bounded.serverIs hmem hle) (htold q).attributes hread with ⟨rfl, -⟩ | hres
    · cases hb
    · exact hres.bytes i b hb
  · exact fun s hread => readSymlink_told (hentries q) (hclock 0) (htold q) hread
  · intro hl all hread
    -- a listing has no bytes
    have hitems : ∀ p, Entries fs p (env 0).now
        (Tells (since past T (env 0).now (env 0).now p) fun _ => True) := fun p it he =>
      (hentries p it he).mono (since_implies (fun _ => id) (Nat.le_refl _)) fun _ _ => trivial
    exact readdir_told aboutPages_true hitems hclock (fun _ => hle) htold
      (lists_since hl hmem hle) (fun name n hn => hn name (fileName_child q name)) hread

theorem bounded_new (remote : Remote) (capacity now cacheCapacity T : ℕ) (policy : CachePolicy) :
    Bounded (.new remote capacity now (some ⟨∅, cacheCapacity, T, true, policy⟩) : FileSystem L)
      [] T now where
  lives n t _ hl := hl _ rfl rfl
  entries q t _ it he := by cases he
  buffer q n x v _ hx := by cases ReadBuffer.byteAt_new.symm.trans hx

/-- In every run whose merges make up no zeros and whose renames carry nothing over that is
older than the read buffer may be, every answer is recent. -/
theorem answers_recent (remote : Remote) (capacity start cacheCapacity T : ℕ)
    (policy : CachePolicy) (events : List Event) (s₀ : FileSystem L × Past)
    (hs₀ : s₀ = (.new remote capacity start (some ⟨∅, cacheCapacity, T, true, policy⟩), []))
    (hclock : Advancing start events) (hserved : AllServed s₀.1 events)
    (hfit : AllCallsFit s₀ events) (fs : FileSystem L) (past : Past)
    (hfs : runEvents s₀ events = (fs, past)) (q : Path) (env : Env)
    (hle : lastCall start events ≤ (env 0).now) (henv : ∀ i, (env i).now = (env 0).now) :
    Recent fs (seen past fs env) T q env := by
  have hstart : Bounded s₀.1 s₀.2 T start := by
    rw [hs₀]
    exact bounded_new remote capacity start cacheCapacity T policy
  have h := runEvents_bounded events s₀ start hstart hclock hserved hfit
  rw [hfs] at h
  exact (h.mono (fun s hs => mem_seen_of_mem hs) hle).recent henv (mem_seen_now past fs env)

theorem answers_recent_renamed :
    let L : PageLimits := ⟨4, 4, by decide⟩
    let d := rootPath.child (.text "d")
    let e := rootPath.child (.text "e")
    let env := fun n => Env.steady n none
    let remote := { Remote.empty 0 0 with nodes := oneDirectory (.text "d") }
    let start : FileSystem L := .new remote 4 0 (some ⟨∅, 4, 1000, true, .lru⟩)
    let events := [.call (.getAttributes d) (env 0), .call (.rename d e .empty) (env 100)]
    let done := runEvents (start, []) events
    let a := attributesOf (.directory 4096) (remote.info d)
    (done.1.getAttributes e (env 1100)).1 = .ok a ∧
      Within (seen done.2 done.1 (env 1100)) 1000 1100 fun r => r.getAttributes e = some a := by
  intro L d e env remote start events done a
  have htree : Tree remote := tree_oneDirectory (show _ = oneDirectory (.text "d") from rfl)
  have hheld : held (start.getAttributes d (env 0)).2 d =
      some (.directory ⟨.text "d", some a, none⟩) := rfl
  have hfit : AllCallsFit (start, []) events := by
    refine ⟨trivial, fun _ _ _ _ it hit => ?_, trivial⟩
    rw [← Option.some.inj (hheld.symm.trans hit)]
    have hwithin : ∀ {P : Remote → Prop}, P remote →
        Within (seen (remember [] start (.getAttributes d) (env 0))
          (start.getAttributes d (env 0)).2 (env 100)) 0 100 P := by
      intro P hP
      exact ⟨(0, remote), mem_seen_of_mem (mem_remember_of_mem (mem_seen_now [] start (env 0))),
        by decide, hP⟩
    refine ⟨⟨nofun, fun x hx => ?_⟩, Nat.le_refl 100, hwithin ⟨_, rfl, rfl⟩, ?_, nofun, nofun⟩
    · exact hwithin (hx ▸ rfl)
    · exact fun m hm => Option.some.inj (show some _ = some m from hm)
  have hanswer : (done.1.getAttributes e (env 1100)).1 = .ok a := by decide
  have hrecent := answers_recent remote 4 0 4 1000 .lru events (start, []) rfl
    ⟨Nat.le_refl 0, fun _ => rfl, Nat.zero_le 100, fun _ => rfl, trivial⟩
    ⟨⟨htree, nofun⟩, ⟨htree, nofun⟩, trivial⟩ hfit done.1 done.2 rfl e (env 1100)
    (by decide) fun _ => rfl
  exact ⟨hanswer, hrecent.attributes a hanswer⟩

/-- A rename gives what it carries over a new time to live: attributes that were fetched two of
them ago are answered, which the server has not had since. -/
theorem renamed_item_outlives_its_time :
    let L : PageLimits := ⟨4, 4, by decide⟩
    let f : Path := [.rootDir, .normal (.text "f")]
    let g : Path := [.rootDir, .normal (.text "g")]
    let env := fun n => Env.steady n none
    let remote := Remote.withFiles [f]
    let grown := { remote with nodes := Nodes.write (fun _ => none) f 0 [1, 2] }
    let start : FileSystem L := .new remote 4 0 (some ⟨∅, 4, 1000, true, .lru⟩)
    let done := runEvents (start, []) [.call (.getAttributes f) (env 0), .others grown,
      .call (.rename f g .empty) (env 1000)]
    (done.1.getAttributes g (env 2000)).1.map Attributes.size = .ok 0 ∧
      ¬Within (seen done.2 done.1 (env 2000)) 1000 2000 fun r =>
        (r.getAttributes g).map Attributes.size = some 0 := by
  intro L f g env remote grown start done
  have hmet : ∀ s ∈ seen done.2 done.1 (env 2000), 2000 ≤ s.1 + 1000 + ReadBuffer.ttl →
      (s.2.getAttributes g).map Attributes.size ≠ some 0 := by decide
  refine ⟨by decide, ?_⟩
  rintro ⟨s, hs, hle, hsize⟩
  exact hmet s hs hle hsize

end ClientStaleness
