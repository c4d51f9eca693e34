import RemoteFs.ClientCalls

/-! # Reading what was written

One written byte is followed through a run. It waits in the write buffer, where no read
looks, or it has settled: then the server has it, and the cache and the read buffer serve
it or nothing at its position. -/
namespace ClientReadYourWrites

open ClientAttributes
open ClientCache
open ClientCalls
open ClientFileSystem
open ClientMemory
open ClientPageCache
open ClientReadBuffer
open ClientWriteBuffer
open OsPaths
open RemoteTree
open WriteLog

variable {L : PageLimits}

def Only (x : ℕ) (v : UInt8) (y : ℕ) (b : UInt8) : Prop := y = x → b = v

/-- The byte has reached the server, and nothing the client remembers hides it. -/
structure Settled (fs : FileSystem L) (p : Path) (t x : ℕ) (v : UInt8) : Prop where
  server : fs.remote.Holds p x v
  entries : Entries fs p t (Good (BytesAre (Only x v)) fun a => x < a.size)
  buffer : BufferIs fs p t (Only x v)

section Calls

variable {fs : FileSystem L} {p q : Path} {t x : ℕ} {v : UInt8} {env : Env} {m : Moment}

theorem Settled.later {t' : ℕ} (h : Settled fs p t x v) (ht : t ≤ t') : Settled fs p t' x v where
  server := h.server
  entries := h.entries.later ht
  buffer y b hb := h.buffer y b (ReadBuffer.byteAt_later ht hb)

theorem Settled.attributes (h : Settled fs p t x v) :
    ∀ a, fs.remote.getAttributes p = some a → x < a.size := fun _ ha => h.server.getAttributes ha

theorem Settled.fetched {done : FileSystem L} (h : Settled fs p t x v)
    (hf : Fetched p t (BytesAre (Only x v)) (fun a => x < a.size) fs done) :
    Settled done p t x v where
  server := by rw [hf.remote]; exact h.server
  entries := hf.entries h.entries
  buffer := by rw [BufferIs, hf.readBuffer]; exact h.buffer

/-- A change of the server elsewhere, with what it does to the cache. -/
theorem Settled.changed {r : Remote} {f : Cache L → Cache L} (h : Settled fs p t x v)
    (hr : r.Holds p x v)
    (hf : Entries { fs with remote := r } p t (Good (BytesAre (Only x v)) fun a => x < a.size) →
      Entries ({ fs with remote := r }.onCache f) p t
        (Good (BytesAre (Only x v)) fun a => x < a.size)) :
    Settled ({ fs with remote := r }.onCache f) p t x v where
  server := hr
  entries := hf h.entries
  buffer := h.buffer

theorem Settled.putNamed {r : Remote} {a : Attributes} {item : OsString → CacheItem L}
    (h : Settled fs p t x v) (hr : r.Holds p x v) (ha : r.getAttributes q = some a)
    (hb : ∀ name, Bare (item name)) (hattr : ∀ name, (item name).getAttributes = some a) :
    Settled ({ fs with remote := r }.putNamed q item m) p t x v where
  server := by rw [(putNamed_frame _ q item m).1]; exact hr
  entries := by
    have hbefore : Entries { fs with remote := r } p t
      (Good (BytesAre (Only x v)) fun a => x < a.size) := h.entries
    refine hbefore.putNamed bytesAre_aboutPages hb ?_
    rintro rfl name b hname
    rw [hattr] at hname
    injection hname with hname
    exact hname ▸ hr.getAttributes ha
  buffer := by rw [BufferIs, (putNamed_frame _ q item m).2.1]; exact h.buffer

theorem Settled.createFile {off : ℕ} {d : List UInt8} (h : Settled fs p t x v)
    (hout : (Write.mk q off d).get p x = none) :
    Settled (fs.createFile q off d env).2 p t x v := by
  unfold FileSystem.createFile
  split
  · exact h
  · rename_i a r hsent
    obtain ⟨hw, ha⟩ := FileSystem.withAttributes_some (FileSystem.sent_ok.mp hsent).2.2
    exact h.putNamed (h.server.writeFile hout hw) ha (fun name => bare_new name _) fun _ => rfl

theorem Settled.mkdir (h : Settled fs p t x v) : Settled (fs.mkdir q env).2 p t x v := by
  unfold FileSystem.mkdir
  split
  · exact h
  · rename_i a r hsent
    obtain ⟨hm, ha⟩ := FileSystem.withAttributes_some (FileSystem.sent_ok.mp hsent).2.2
    exact h.putNamed (h.server.mkdir hm) ha (fun _ => trivial) fun _ => rfl

theorem Settled.createSymlink {target : String} (h : Settled fs p t x v) :
    Settled (fs.createSymlink q target env).2 p t x v := by
  unfold FileSystem.createSymlink
  split
  · exact h
  · rename_i a r hsent
    obtain ⟨hl, ha⟩ := FileSystem.withAttributes_some (FileSystem.sent_ok.mp hsent).2.2
    exact h.putNamed (h.server.createSymlink hl) ha (fun _ => trivial) fun _ => rfl

theorem Settled.setAttributes {new : SetAttr} {a : Attributes} (h : Settled fs p t x v)
    (ht : ∀ i, t ≤ (env i).now) (hsize : q = p → ∀ m, new.size = some m → x < m)
    (hok : (fs.setAttributes q new env).1 = .ok a) :
    Settled (fs.setAttributes q new env).2 p t x v := by
  obtain ⟨r, hset, ha, hrun⟩ := FileSystem.setAttributes_ok hok
  have hr := h.server.setAttributes hsize hset
  rw [hrun]
  refine h.changed hr fun he => he.cachePutAttr bytesAre_aboutPages (ht 1) ?_
  rintro rfl
  exact hr.getAttributes ha

theorem renameCached_ne {c : Cache L} {a b : Path} {flags : RenameFlags} {it : CacheItem L}
    (hb : p ≠ b) (he : (FileSystem.renameCached c a b flags m).freshAt p t = some it) :
    c.freshAt p t = some it := by
  unfold FileSystem.renameCached at he
  split at he
  · exact Cache.remove_sub c a p t it (Cache.remove_sub _ b p t it he)
  · split at he
    · exact Cache.remove_sub c a p t it (Cache.putNew_ne hb he)
    · exact Cache.remove_sub c a p t it he

theorem Settled.rename {a b : Path} {flags : RenameFlags} (h : Settled fs p t x v)
    (ha : ¬a <+: p) (hb : ¬b <+: p) (hok : (fs.rename a b flags env).1 = .ok ()) :
    Settled (fs.rename a b flags env).2 p t x v := by
  obtain ⟨r, hren, hrun⟩ := FileSystem.rename_ok hok
  rw [hrun]
  refine h.changed (h.server.rename ha hb hren) fun he => he.onCache ?_
  intro c it _ hfresh
  exact Or.inl (renameCached_ne (fun hne => hb (hne ▸ List.prefix_refl p)) hfresh)

theorem Settled.remove (h : Settled fs p t x v) (hq : q ≠ p)
    (hok : (fs.remove q env).1 = .ok ()) : Settled (fs.remove q env).2 p t x v := by
  obtain ⟨r, hrem, hrun⟩ := FileSystem.remove_ok hok
  rw [hrun]
  exact h.changed (h.server.remove hq hrem) fun he =>
    he.onCache_sub fun c => Cache.remove_sub c q

def ReadClean (fs : FileSystem L) (p : Path) (t x : ℕ) (v : UInt8) (o s now : ℕ) : Prop :=
  ∀ f, entry fs p t = some (.file f) → MissGaps fs p o s now (Only x v) f

theorem Settled.serverIs (h : Settled fs p t x v) : ServerIs fs p (Only x v) :=
  fun _ _ _ hread i b hb => (h.server.readFile hread).1 i b hb

theorem Settled.read {o s : ℕ} (h : Settled fs p t x v) (ht : ∀ i, t ≤ (env i).now)
    (hclean : ReadClean fs p t x v o s (env 4).now) :
    Settled (fs.readFile p o s env).2 p t x v := by
  have hok := readFile_ok (o := o) (s := s) ht (fun it he =>
    ⟨fun f hf => ⟨(h.entries it he).file f hf, hclean f (hf ▸ he)⟩,
      (h.entries it he).attributes⟩) h.buffer h.serverIs h.attributes
  exact ⟨by rw [hok.remote]; exact h.server, hok.entries, hok.buffer⟩

theorem Settled.read_ne {o s : ℕ} (h : Settled fs p t x v) (ht : ∀ i, t ≤ (env i).now)
    (hq : q ≠ p) : Settled (fs.readFile q o s env).2 p t x v := by
  have hread : ReadElsewhere p t (BytesAre (Only x v)) (fun a => x < a.size) fs
      (fs.readFile q o s env).2 :=
    readFile_elsewhere bytesAre_aboutPages ht h.attributes hq
  refine ⟨?_, hread.entries h.entries, ?_⟩
  · rw [hread.remote]
    exact h.server
  · exact fun y b hb => h.buffer y b (hread.buffer t y b hb)

end Calls

section Uploads

variable {fs : FileSystem L} {p : Path} {t x : ℕ} {v : UInt8} {env : Env} {w : Chunk}

/-- What an upload to `p` finds in memory does not hide the byte afterwards: the upload
leaves no zero in its place, and replaces whatever else is remembered there. A path that
does not end in a name is not cached. -/
structure Clean (fs : FileSystem L) (p : Path) (t x : ℕ) (v : UInt8) (w : Chunk) : Prop where
  named : p.fileName ≠ none ∨ entry fs p t = none
  gap : ∀ f, entry fs p t = some (.file f) → Gap f (written L p w.offset w.data) x → v = 0
  cached : w.get p x = some v → ∀ f b, entry fs p t = some (.file f) → f.byteAt x = some b →
    b = v ∨ Replaced f (written L p w.offset w.data) x
  buffered : w.get p x = some v → BufferIs fs p t (Only x v)

theorem clean_of_nothing (hname : p.fileName ≠ none) (he : entry fs p t = none)
    (hb : fs.readBuffer.path ≠ p) : Clean fs p t x v w where
  named := Or.inl hname
  gap f hf := by cases he.symm.trans hf
  cached _ f b hf := by cases he.symm.trans hf
  buffered := by
    intro _ y b hy
    rw [ReadBuffer.byteAt, if_neg fun hc => hb hc.1.symm] at hy
    cases hy

def Taken (r : Remote) (w : Chunk) (m : Tick) : Prop :=
  w.key.isUtf8 = true ∧ m.reply = none ∧
    ∃ r', r.writeFile w.key w.offset w.data m.serverTime = some r'

theorem upload_of_taken (h : Taken fs.remote w (env 0)) : (fs.upload w env).1 = .ok () := by
  obtain ⟨hu, hr, r, hw⟩ := h
  unfold FileSystem.upload
  rw [FileSystem.sent_ok.mpr ⟨hu, hr, hw⟩]

theorem upload_of_not_taken (h : ¬Taken fs.remote w (env 0)) :
    ∃ e, (fs.upload w env).1 = .error e := by
  unfold FileSystem.upload
  split
  · exact ⟨_, rfl⟩
  · rename_i r hsent
    obtain ⟨hu, hr, hw⟩ := FileSystem.sent_ok.mp hsent
    exact (h ⟨hu, hr, r, hw⟩).elim

/-- The byte settles when a chunk that carries it arrives. -/
theorem settled_of_upload (ht : ∀ i, t ≤ (env i).now)
    (hin : w.get p x = some v) (hclean : Clean fs p t x v w)
    (hok : (fs.upload w env).1 = .ok ()) : Settled (fs.upload w env).2 p t x v := by
  obtain ⟨r, hw, hrun⟩ := FileSystem.upload_ok hok
  have hkey : w.key = p := by
    by_contra hne
    rw [Write.get_eq_none.mpr (Or.inl hne)] at hin
    cases hin
  rw [hrun]
  refine ⟨Remote.writeFile_holds hin hw, ?_, hclean.buffered hin⟩
  rw [hkey]
  refine Entries.cacheWriteFile (ht 1) ?_ ?_ ?_ ?_
  · intro f y b he hb
    by_cases hy : y = x
    · subst hy
      rcases hclean.cached hin f b he hb with hbv | hrep
      · exact Or.inl fun _ => hbv
      · refine Or.inr ⟨hclean.named.resolve_right fun hnone => ?_, hrep⟩
        cases hnone.symm.trans he
    · exact Or.inl fun h => (hy h).elim
  · rintro y b hy hb rfl
    rw [Write.get, if_pos ⟨hkey, hy⟩, hb] at hin
    injection hin
  · exact fun f he y hgap hy => (hclean.gap f he (hy ▸ hgap)).symm
  · rintro (h | h) old a he
    · cases h
    · cases ((hclean.named.resolve_left fun hne => hne h).symm.trans he)

/-- Chunks that do not cover the byte leave it where it is. -/
theorem Settled.upload (h : Settled fs p t x v) (ht : ∀ i, t ≤ (env i).now)
    (hout : w.get p x = none) (hclean : w.key = p → Clean fs p t x v w)
    (hok : (fs.upload w env).1 = .ok ()) : Settled (fs.upload w env).2 p t x v := by
  obtain ⟨r, hw, hrun⟩ := FileSystem.upload_ok hok
  rw [hrun]
  refine ⟨h.server.writeFile hout hw, ?_, h.buffer⟩
  by_cases hkey : w.key = p
  · rw [hkey]
    refine Entries.cacheWriteFile (ht 1) ?_ ?_ ?_ ?_
    · exact fun f y b he hb => Or.inl ((h.entries _ he).file f rfl y b hb)
    · rintro y b hy hb rfl
      rw [Write.get, if_pos ⟨hkey, hy⟩, hb] at hout
      cases hout
    · exact fun f he y hgap hy => ((hclean hkey).gap f he (hy ▸ hgap)).symm
    · exact fun _ old a he hattr => (h.entries old he).attributes a hattr
  · exact Entries.cacheWriteFile_ne h.entries hkey

/-- Chunks in the order they are sent: each finds a clean memory, if it carries the byte or
the byte has settled before, and none that carries it is lost. -/
def Carries (p : Path) (t x : ℕ) (v : UInt8) : FileSystem L → List Chunk → Env → Prop
  | _, [], _ => True
  | fs, w :: ws, env =>
    (w.key = p → w.get p x = some v ∨ Settled fs p t x v → Clean fs p t x v w) ∧
    (Taken fs.remote w (env 0) → Carries p t x v (fs.upload w env).2 ws (env.drop 2)) ∧
    (¬Taken fs.remote w (env 0) → ∀ u ∈ w :: ws, u.get p x = none)

/-- A byte that had settled, or that is carried last, has settled when all is sent. -/
theorem uploadAll_settles (ws : List Chunk) :
    ∀ (fs : FileSystem L) (env : Env) (s : Path → ℕ → Option UInt8), (∀ i, t ≤ (env i).now) →
      (s p x = some v → Settled fs p t x v) → Carries p t x v fs ws env →
      (positions Path UInt8).applyAll s ws p x = some v →
      Settled (fs.uploadAll ws env).2 p t x v := by
  induction ws with
  | nil => exact fun fs env s _ hs _ happ => hs happ
  | cons w ws ih =>
    rintro fs env s ht hs ⟨hclean, htaken, hlost⟩ happ
    by_cases hT : Taken fs.remote w (env 0)
    · have hok := upload_of_taken hT
      rw [uploadAll_cons_ok hok]
      refine ih _ _ _ (fun i => ht (2 + i)) ?_ (htaken hT) happ
      intro hput
      rw [positions_apply] at hput
      cases hget : w.get p x with
      | none =>
        rw [hget, Option.none_or] at hput
        exact (hs hput).upload ht hget (fun hkey => hclean hkey (Or.inr (hs hput))) hok
      | some b =>
        rw [hget, Option.some_or] at hput
        injection hput with hput
        subst hput
        have hkey : w.key = p := by
          by_contra hne
          rw [Write.get_eq_none.mpr (Or.inl hne)] at hget
          cases hget
        exact settled_of_upload ht hget (hclean hkey (Or.inl hget)) hok
    · obtain ⟨e, he⟩ := upload_of_not_taken hT
      rw [uploadAll_cons_error he]
      rw [positions_applyAll (hlost hT)] at happ
      exact hs happ

end Uploads

section Runs

variable {fs : FileSystem L} {p : Path} {t x : ℕ} {v : UInt8} {env : Env} {op : Op}

/-- The calls that write at a position of the server past the buffer, cut the file there,
rename it or remove it. -/
def Touches (p : Path) (x : ℕ) : Op → Prop
  | .createFile q off d => (Write.mk q off d).get p x ≠ none
  | .setAttributes q new => q = p ∧ ∃ m, new.size = some m ∧ m ≤ x
  | .rename a b _ => a <+: p ∨ b <+: p
  | .remove q => q = p
  | _ => False

def Spares (fs : FileSystem L) (op : Op) (env : Env) (p : Path) (x : ℕ) : Prop :=
  (op.accepted fs.writeBuffer).get p x = none ∧
    (Touches p x op → ∃ e, (op.run fs env).1 = .error e)

/-- The call hides or loses the byte neither in what it sends nor in what it reads. -/
structure Keeps (fs : FileSystem L) (op : Op) (env : Env) (p : Path) (x : ℕ) (v : UInt8) :
    Prop where
  sent : Carries p (env 0).now x v { fs with writeBuffer := (op.staged fs.writeBuffer).2 }
    (op.staged fs.writeBuffer).1 env
  read : ∀ o s, op = .read p o s → Settled fs p (env 0).now x v →
    ReadClean fs p (env 0).now x v o s (env 4).now

/-- The invariant of a run: what the write buffer still holds, put over what has settled,
has the byte. -/
def Tracked (fs : FileSystem L) (p : Path) (t x : ℕ) (v : UInt8) : Prop :=
  ∃ s : Path → ℕ → Option UInt8, (s p x = some v → Settled fs p t x v) ∧
    fs.writeBuffer.view (positions Path UInt8) s p x = some v

theorem outcome_error {α : Type} {done : Except FsModelError α × FileSystem L} {e : FsModelError}
    (h : (outcome done).1 = .error e) : done.1 = .error e := by
  obtain ⟨e' | a, fs⟩ := done
  · injection h with h
    rw [h]
  · cases h

theorem Settled.withBuffer {b : WriteBuffer} (h : Settled fs p t x v) :
    Settled { fs with writeBuffer := b } p t x v := ⟨h.server, h.entries, h.buffer⟩

/-- A call that fails where it would have touched the byte, or does not touch it. -/
theorem Settled.spared {done : Except FsModelError Unit × FileSystem L} (h : Settled fs p t x v)
    (hfail : ∀ e, done.1 = .error e → done.2 = fs)
    (htouch : Touches p x op → ∃ e, done.1 = .error e)
    (hok : done.1 = .ok () → ¬Touches p x op → Settled done.2 p t x v) :
    Settled done.2 p t x v := by
  by_cases ht : Touches p x op
  · obtain ⟨e, he⟩ := htouch ht
    rw [hfail e he]
    exact h
  · cases hres : done.1 with
    | error e =>
      rw [hfail e hres]
      exact h
    | ok u => exact hok hres ht

/-- After a call the byte has settled, if it had before or the call has sent it. -/
theorem run_settles (ht : ∀ i, (env 0).now ≤ (env i).now)
    (hspares : Touches p x op → ∃ e, (op.run fs env).1 = .error e)
    (hkeeps : Keeps fs op env p x v) (s : Path → ℕ → Option UInt8)
    (hs : s p x = some v → Settled fs p (env 0).now x v)
    (happ : (positions Path UInt8).applyAll s (op.staged fs.writeBuffer).1 p x = some v) :
    Settled (op.run fs env).2 p (env 0).now x v := by
  cases op with
  | write q off d =>
    exact uploadAll_settles _ { fs with
      writeBuffer := (fs.writeBuffer.stageWrite q off d).buffer } env s ht
      (fun h => (hs h).withBuffer) hkeeps.sent happ
  | flush =>
    exact uploadAll_settles _ { fs with
      writeBuffer := fs.writeBuffer.stageFlush.2 } env s ht
      (fun h => (hs h).withBuffer) hkeeps.sent happ
  | read q o s =>
    have h := hs happ
    by_cases hq : q = p
    · subst hq
      exact h.read ht (hkeeps.read o s rfl h)
    · exact h.read_ne ht hq
  | getAttributes q =>
    have h := hs happ
    exact h.fetched (fetched_getAttributes bytesAre_aboutPages ht h.attributes q)
  | readSymlink q => exact (hs happ).fetched (fetched_readSymlink bytesAre_aboutPages ht q)
  | readdir q =>
    have h := hs happ
    exact h.fetched (fetched_readdir bytesAre_aboutPages ht h.attributes
      (fun len hdir => (h.server.not_directory hdir).elim) q)
  | invalidate q =>
    exact (hs happ).fetched (fetched_onCache fun h => h.onCache_sub fun c => Cache.erase_sub c q)
  | createFile q off d =>
    have h := hs happ
    refine h.spared ?_ hspares ?_
    · intro e he
      have he := outcome_error he
      simp only [Op.run, outcome, FileSystem.createFile] at he ⊢
      split at he
      · rfl
      · cases he
    · exact fun _ hout => h.createFile (not_not.mp hout)
  | mkdir q => exact (hs happ).mkdir
  | createSymlink q target => exact (hs happ).createSymlink
  | setAttributes q new =>
    have h := hs happ
    refine h.spared ?_ hspares ?_
    · exact fun e he => FileSystem.setAttributes_error (outcome_error he)
    · intro hok hout
      simp only [Op.run, outcome] at hok ⊢
      cases hres : (fs.setAttributes q new env).1 with
      | error e => rw [hres] at hok; cases hok
      | ok a =>
        refine h.setAttributes ht ?_ hres
        exact fun hq m hm => Nat.lt_of_not_le fun hle => hout ⟨hq, m, hm, hle⟩
  | rename a b flags =>
    have h := hs happ
    refine h.spared ?_ hspares ?_
    · exact fun e he => FileSystem.rename_error he
    · exact fun hok hout => h.rename (fun ha => hout (Or.inl ha)) (fun hb => hout (Or.inr hb)) hok
  | remove q =>
    have h := hs happ
    refine h.spared ?_ hspares ?_
    · exact fun e he => FileSystem.remove_error he
    · exact fun hok hout => h.remove hout hok

/-- The step lemma: a call that spares the byte and keeps it leaves it tracked. -/
theorem run_tracked (h : Tracked fs p t x v) (hle : t ≤ (env 0).now)
    (ht : ∀ i, (env 0).now ≤ (env i).now) (hspares : Spares fs op env p x)
    (hkeeps : Keeps fs op env p x v) : Tracked (op.run fs env).2 p (env 0).now x v := by
  obtain ⟨s, hs, hview⟩ := h
  refine ⟨(positions Path UInt8).applyAll s (op.staged fs.writeBuffer).1, ?_, ?_⟩
  · exact run_settles ht hspares.2 hkeeps s fun h => (hs h).later hle
  · rw [(run_buffers fs op env).1, staged_view, positions_apply, hspares.1, Option.none_or]
    exact hview

/-- The accepted bytes of a write are tracked from then on. -/
theorem write_tracked {off : ℕ} {data : List UInt8} (ht : ∀ i, (env 0).now ≤ (env i).now)
    (hkeeps : Keeps fs (.write p off data) env p x v)
    (hin : ((Op.write p off data).accepted fs.writeBuffer).get p x = some v) :
    Tracked (fs.writeFile p off data env).2 p (env 0).now x v := by
  refine ⟨(positions Path UInt8).applyAll (fun _ _ => none)
    (fs.writeBuffer.stageWrite p off data).uploads, ?_, ?_⟩
  · have huntouched : ¬Touches p x (.write p off data) := id
    exact run_settles ht (fun h => (huntouched h).elim) hkeeps _ fun h => by cases h
  · have hbuf := (run_buffers fs (.write p off data) env).1
    simp only [Op.run, outcome] at hbuf
    have hview := congrFun (congrFun (staged_view (positions Path UInt8) fs.writeBuffer
      (.write p off data) fun _ _ => none) p) x
    rw [positions_apply, hin, Option.some_or] at hview
    rw [hbuf]
    exact hview

def AllSpare (p : Path) (x : ℕ) : FileSystem L → List (Op × Env) → Prop
  | _, [] => True
  | fs, (op, env) :: ops => Spares fs op env p x ∧ AllSpare p x (op.run fs env).2 ops

def AllKeep (p : Path) (x : ℕ) (v : UInt8) : FileSystem L → List (Op × Env) → Prop
  | _, [] => True
  | fs, (op, env) :: ops => Keeps fs op env p x v ∧ AllKeep p x v (op.run fs env).2 ops

end Runs

theorem runOps_tracked {p : Path} {x : ℕ} {v : UInt8} (ops : List (Op × Env)) :
    ∀ (fs : FileSystem L) (t : ℕ) (later : List Env), Tracked fs p t x v →
      Clocked t (ops.map Prod.snd ++ later) → AllSpare p x fs ops → AllKeep p x v fs ops →
      ∃ t', Clocked t' later ∧ Tracked (runOps fs ops) p t' x v := by
  induction ops with
  | nil => exact fun fs t later h hclock _ _ => ⟨t, hclock, h⟩
  | cons head ops ih =>
    obtain ⟨op, env⟩ := head
    rintro fs t later h ⟨hle, ht, hclock⟩ ⟨hspares, hrest⟩ ⟨hkeeps, hrest'⟩
    exact ih _ _ later (run_tracked h hle ht hspares hkeeps) hclock hrest hrest'

/-- A byte that the write buffer no longer holds has settled. -/
theorem Tracked.settled {fs : FileSystem L} {p : Path} {t x : ℕ} {v : UInt8}
    (h : Tracked fs p t x v) (hout : fs.writeBuffer.getContent.get p x = none) :
    Settled fs p t x v := by
  obtain ⟨s, hs, hview⟩ := h
  rw [WriteBuffer.view, positions_apply, hout, Option.none_or] at hview
  exact hs hview

end ClientReadYourWrites
