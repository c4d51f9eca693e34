import RemoteFs.ClientFileSystem

/-! # Write-back by one caller

Between calls the server together with the buffered bytes is the log of accepted writes,
as long as no failed upload carries bytes of an earlier call: the buffer is cleaned before
the upload is attempted, and nothing puts its bytes back. -/
namespace ClientWriteBack

open ClientFileSystem
open ClientPageCache
open ClientWriteBuffer
open OsPaths
open RemoteTree
open WriteLog

variable {L : PageLimits}

inductive Call where
  | write (path : Path) (offset : ℕ) (data : List UInt8)
  | flush
  deriving DecidableEq, Repr

def Call.run (fs : FileSystem L) : Call → Env → Except FsModelError ℕ × FileSystem L
  | write path offset data, env => fs.writeFile path offset data env
  | flush, env => ((fs.flushWriteBuffer env).1.map fun _ => 0, (fs.flushWriteBuffer env).2)

def runCalls : FileSystem L → List (Call × Env) → List (Except FsModelError ℕ) × FileSystem L
  | fs, [] => ([], fs)
  | fs, (call, env) :: calls =>
    let done := call.run fs env
    let rest := runCalls done.2 calls
    (done.1 :: rest.1, rest.2)

/-- The bytes the calls that returned `Ok` told their caller they took, in issue order. -/
def acceptedWrites : List (Call × Env) → List (Except FsModelError ℕ) → List Chunk
  | (.write path offset data, _) :: calls, .ok n :: results =>
    ⟨path, offset, data.take n⟩ :: acceptedWrites calls results
  | _ :: calls, _ :: results => acceptedWrites calls results
  | _, _ => []

def carried (b : WriteBuffer) : Call → List Chunk
  | .write path offset data => (b.evict path offset).1 ++
      if (b.evict path offset).2.content = [] then []
      else ((b.evict path offset).2.write path offset data).2.drainFull.1
  | .flush => b.stageFlush.1.toList

def own (b : WriteBuffer) : Call → List Chunk
  | .write path offset data => if (b.evict path offset).2.content = [] then
      ((b.evict path offset).2.write path offset data).2.drainFull.1 else []
  | .flush => []

def Served : Remote → List Chunk → Env → Prop
  | _, [], _ => True
  | r, w :: ws, env => (env 0).reply = none ∧
      ∃ r', r.writeFile w.key w.offset w.data (env 0).serverTime = some r' ∧
        Served r' ws (env.drop 2)

def AllUtf8 (ws : List Chunk) : Prop := ∀ w ∈ ws, w.key.isUtf8 = true

/-- The server plus what the buffer still holds. -/
def view (fs : FileSystem L) : Nodes := fs.writeBuffer.view fileStore fs.remote.nodes

theorem view_of_flushed {fs : FileSystem L} (h : fs.writeBuffer.content = []) :
    view fs = fs.remote.nodes := WriteBuffer.view_of_empty fileStore h _

theorem hasRoom_of_empty {b : WriteBuffer} (h : b.content = []) (hcap : 0 < b.capacity) :
    b.HasRoom := by
  have := b.length_content
  rw [h, List.length_nil] at this
  rw [WriteBuffer.HasRoom, ← this]
  exact hcap

section Uploads

variable {fs : FileSystem L} {ws vs : List Chunk} {w : Chunk} {env : Env}

theorem served_append : ∀ {ws vs : List Chunk} {r : Remote} {env : Env},
    Served r (ws ++ vs) env → Served r ws env
  | [], _, _, _, _ => trivial
  | _ :: _, _, _, _, ⟨h, r', hw, hs⟩ => ⟨h, r', hw, served_append hs⟩

theorem upload_sent (h : (fs.upload w env).1 = .ok ()) :
    (fs.upload w env).2.remote.nodes = fs.remote.nodes.write w.key w.offset w.data ∧
      (fs.upload w env).2.writeBuffer = fs.writeBuffer := by
  obtain ⟨r, hw, hrun⟩ := FileSystem.upload_ok h
  rw [hrun]
  exact ⟨Remote.writeFile_nodes hw, rfl⟩

theorem upload_served {r : Remote} (hu : w.key.isUtf8 = true) (hr : (env 0).reply = none)
    (hw : fs.remote.writeFile w.key w.offset w.data (env 0).serverTime = some r) :
    (fs.upload w env).1 = .ok () ∧ (fs.upload w env).2.remote = r := by
  unfold FileSystem.upload
  rw [FileSystem.sent_ok.mpr ⟨hu, hr, hw⟩]
  exact ⟨rfl, rfl⟩

/-- Uploads that the server takes change nothing but the server's files and the cache. -/
theorem uploadAll_served (fs : FileSystem L) (hs : Served fs.remote ws env) (hu : AllUtf8 ws)
    (hd : ∀ w ∈ ws, w.data ≠ []) :
    ∃ fs', fs.uploadAll ws env = (.ok (), fs') ∧ fs'.writeBuffer = fs.writeBuffer ∧
      fs'.remote.nodes = fileStore.applyAll fs.remote.nodes ws ∧
      ∃ env', ∀ vs, fs.uploadAll (ws ++ vs) env = fs'.uploadAll vs env' := by
  induction ws generalizing fs env with
  | nil => exact ⟨fs, rfl, rfl, rfl, env, fun _ => rfl⟩
  | cons w ws ih =>
    obtain ⟨hr, r, hw, hs⟩ := hs
    obtain ⟨hok, hrem⟩ := upload_served (hu w List.mem_cons_self) hr hw
    obtain ⟨hn, hb⟩ := upload_sent hok
    obtain ⟨fs', hrun, hb', hn', env', happ⟩ := ih (fs.upload w env).2 (by rwa [hrem])
      (fun v hv => hu v (List.mem_cons_of_mem _ hv))
      (fun v hv => hd v (List.mem_cons_of_mem _ hv))
    have hstep : ∀ vs, fs.uploadAll (w :: vs) env =
        (fs.upload w env).2.uploadAll vs (env.drop 2) := by
      intro vs
      rw [FileSystem.uploadAll]
      split
      · rename_i e _ he; rw [he] at hok; cases hok
      · rename_i he; rw [he]
    refine ⟨fs', by rw [hstep, hrun], hb'.trans hb, ?_, ?_⟩
    · rw [hn', hn, applyAll_cons, apply_of_ne _ _ (hd w List.mem_cons_self)]
      rfl
    · exact ⟨env', fun vs => by rw [List.cons_append, hstep, happ]⟩

/-- A call that succeeds has sent all its chunks. -/
theorem uploadAll_ok (fs : FileSystem L) (hd : ∀ w ∈ ws, w.data ≠ [])
    (h : (fs.uploadAll ws env).1 = .ok ()) :
    (fs.uploadAll ws env).2.remote.nodes = fileStore.applyAll fs.remote.nodes ws ∧
      (fs.uploadAll ws env).2.writeBuffer = fs.writeBuffer := by
  induction ws generalizing fs env with
  | nil => exact ⟨rfl, rfl⟩
  | cons w ws ih =>
    rw [FileSystem.uploadAll] at h ⊢
    split at h
    · cases h
    · rename_i fs' hup
      have hok : (fs.upload w env).1 = .ok () := by rw [hup]
      obtain ⟨hn, hb⟩ := upload_sent hok
      obtain ⟨hn', hb'⟩ := ih fs' (fun v hv => hd v (List.mem_cons_of_mem _ hv)) h
      rw [hup] at hn hb
      refine ⟨?_, hb'.trans hb⟩
      rw [applyAll_cons, apply_of_ne _ _ (hd w List.mem_cons_self)]
      exact hn'.trans (congrArg (fileStore.applyAll · ws) hn)

/-- A single chunk either arrives or leaves everything as it was. -/
theorem uploadAll_single (fs : FileSystem L) (hlen : ws.length ≤ 1) (hd : ∀ w ∈ ws, w.data ≠ []) :
    (∃ fs', fs.uploadAll ws env = (.ok (), fs') ∧ fs'.writeBuffer = fs.writeBuffer ∧
      fs'.remote.nodes = fileStore.applyAll fs.remote.nodes ws) ∨
    (∃ e, fs.uploadAll ws env = (.error e, fs) ∧ ws ≠ []) := by
  rcases ws with _ | ⟨w, _ | ⟨v, ws⟩⟩
  · exact Or.inl ⟨fs, rfl, rfl, rfl⟩
  · rw [FileSystem.uploadAll]
    cases hres : (fs.upload w env).1 with
    | error e =>
      right
      refine ⟨e, ?_, by simp⟩
      rw [show fs.upload w env = (.error e, fs) from Prod.ext hres (FileSystem.upload_error hres)]
    | ok u =>
      left
      obtain ⟨hn, hb⟩ := upload_sent hres
      refine ⟨(fs.upload w env).2, ?_, hb, ?_⟩
      · rw [show fs.upload w env = (.ok (), (fs.upload w env).2) from Prod.ext hres rfl]
        rfl
      · rw [hn, applyAll_cons, applyAll_nil, apply_of_ne _ _ (hd w (by simp))]
        rfl
  · simp only [List.length_cons] at hlen
    omega

end Uploads

section Steps

variable {fs : FileSystem L} {env : Env}

def appended : Call → Except FsModelError ℕ → List Chunk
  | .write path offset data, .ok n => [⟨path, offset, data.take n⟩]
  | _, _ => []

theorem acceptedWrites_cons (call : Call) (calls : List (Call × Env))
    (r : Except FsModelError ℕ) (results : List (Except FsModelError ℕ)) :
    acceptedWrites ((call, env) :: calls) (r :: results) =
      appended call r ++ acceptedWrites calls results := by
  cases call <;> cases r <;> rfl

theorem uploads_eq (b : WriteBuffer) (path : Path) (offset : ℕ) (data : List UInt8) :
    (b.stageWrite path offset data).uploads =
      carried b (.write path offset data) ++ own b (.write path offset data) := by
  unfold WriteBuffer.stageWrite carried own
  by_cases h : (b.evict path offset).2.content = []
  · simp only [h, ↓reduceIte, List.append_nil]
  · simp only [h, ↓reduceIte, List.append_nil]

theorem carried_nonempty {b : WriteBuffer} (hcap : 0 < b.capacity) {call : Call} {w : Chunk}
    (hw : w ∈ carried b call) : w.data ≠ [] := by
  cases call with
  | flush => exact WriteBuffer.stageFlush_nonempty hw
  | write path offset data =>
    rcases List.mem_append.mp hw with hw | hw
    · exact WriteBuffer.evict_nonempty hw
    · split at hw
      · cases hw
      · exact WriteBuffer.drainFull_nonempty (by simpa using hcap) hw

/-- Own bytes leave at once only from a buffer that holds nothing else, and nothing of
them stays behind. -/
theorem own_cases {b : WriteBuffer} (hcap : 0 < b.capacity) (path : Path) (offset : ℕ)
    (data : List UInt8) : own b (.write path offset data) = [] ∨
      ((own b (.write path offset data)).length = 1 ∧
        (∀ w ∈ own b (.write path offset data), w.data ≠ []) ∧
        (b.evict path offset).2.content = [] ∧
        (b.stageWrite path offset data).buffer.content = []) := by
  by_cases h : (b.evict path offset).2.content = []
  · rcases WriteBuffer.drainFull_cases ((b.evict path offset).2.write path offset data).2 with
      ⟨hlen, hc⟩ | hd
    · right
      simp only [own, h, ↓reduceIte]
      exact ⟨hlen, fun w hw => WriteBuffer.drainFull_nonempty (by simpa using hcap) hw,
        trivial, hc⟩
    · left
      simp only [own, h, ↓reduceIte, hd]
  · left
    simp only [own, h, ↓reduceIte]

theorem write_step (hroom : fs.writeBuffer.HasRoom)
    (path : Path) (offset : ℕ) (data : List UInt8)
    (hs : Served fs.remote (carried fs.writeBuffer (.write path offset data)) env)
    (hu : AllUtf8 (carried fs.writeBuffer (.write path offset data))) :
    (fs.writeFile path offset data env).2.writeBuffer.HasRoom ∧
      view (fs.writeFile path offset data env).2 =
        fileStore.applyAll (view fs)
          (appended (.write path offset data) (fs.writeFile path offset data env).1) ∧
      ((fs.writeFile path offset data env).1 =
          .ok (fs.writeBuffer.stageWrite path offset data).written ∨
        own fs.writeBuffer (.write path offset data) ≠ []) := by
  obtain ⟨b, hb⟩ : ∃ b, b = fs.writeBuffer := ⟨_, rfl⟩
  rw [← hb] at hroom hs hu ⊢
  have hcap : 0 < b.capacity := Nat.lt_of_le_of_lt (Nat.zero_le _) hroom
  obtain ⟨fs₁, -, hbuf₁, hn₁, env', happ⟩ := uploadAll_served
    { fs with writeBuffer := (b.stageWrite path offset data).buffer } hs hu
    (fun w hw => carried_nonempty hcap hw)
  have hrun : fs.writeFile path offset data env =
      ((fs₁.uploadAll (own b (.write path offset data)) env').1.map
          fun _ => (b.stageWrite path offset data).written,
        (fs₁.uploadAll (own b (.write path offset data)) env').2) := by
    rw [← happ, ← uploads_eq, FileSystem.writeFile, ← hb]
  have hroom' := WriteBuffer.stageWrite_hasRoom hroom path offset data
  have hview := WriteBuffer.stageWrite_view fileStore b path offset data fs.remote.nodes
  rw [uploads_eq, applyAll_append] at hview
  have hsingle : (own b (.write path offset data)).length ≤ 1 ∧
      ∀ w ∈ own b (.write path offset data), w.data ≠ [] := by
    rcases own_cases hcap path offset data with h | ⟨h₁, h₂, -⟩
    · rw [h]; exact ⟨Nat.zero_le _, fun w hw => by cases hw⟩
    · exact ⟨h₁.le, h₂⟩
  rw [hrun]
  rcases uploadAll_single fs₁ hsingle.1 hsingle.2 with
    ⟨fs₂, hrun₂, hbuf₂, hn₂⟩ | ⟨e, hrun₂, hne⟩
  · rw [hrun₂]
    refine ⟨?_, ?_, Or.inl rfl⟩
    · rw [hbuf₂, hbuf₁]
      exact hroom'
    · rw [view, hbuf₂, hn₂, hbuf₁, hn₁]
      exact hview.trans (by rw [view, ← hb]; rfl)
  · rw [hrun₂]
    -- The own chunk is lost with the call that brought it; what was held before is out.
    obtain ⟨-, -, hempty, hclean⟩ := (own_cases hcap path offset data).resolve_left hne
    refine ⟨by rw [hbuf₁]; exact hroom', ?_, Or.inr hne⟩
    have hev := WriteBuffer.evict_view fileStore b path offset fs.remote.nodes
    rw [WriteBuffer.view_of_empty _ hempty] at hev
    have hc : carried b (.write path offset data) = (b.evict path offset).1 := by
      rw [carried, if_pos hempty, List.append_nil]
    rw [view, hbuf₁, WriteBuffer.view_of_empty _ hclean, hn₁, hc]
    exact hev.trans (by rw [view, ← hb]; rfl)

theorem flush_step (hroom : fs.writeBuffer.HasRoom)
    (hs : Served fs.remote (carried fs.writeBuffer .flush) env)
    (hu : AllUtf8 (carried fs.writeBuffer .flush)) :
    (fs.flushWriteBuffer env).1 = .ok () ∧
      (fs.flushWriteBuffer env).2.writeBuffer.content = [] ∧
      (fs.flushWriteBuffer env).2.writeBuffer.HasRoom ∧
      (fs.flushWriteBuffer env).2.remote.nodes = view fs := by
  obtain ⟨fs₁, hrun, hbuf, hn, -⟩ := uploadAll_served
    { fs with writeBuffer := fs.writeBuffer.stageFlush.2 } hs hu
    (fun w hw => WriteBuffer.stageFlush_nonempty hw)
  have hrun' : fs.flushWriteBuffer env = (.ok (), fs₁) := hrun
  rw [hrun']
  refine ⟨rfl, ?_, ?_, ?_⟩
  · rw [hbuf]; exact WriteBuffer.stageFlush_content _
  · rw [hbuf]; exact WriteBuffer.stageFlush_hasRoom hroom
  · rw [hn]; exact WriteBuffer.stageFlush_view fileStore _ _

end Steps

/-- No failed upload carries bytes of an earlier call. -/
def Keeps : FileSystem L → List (Call × Env) → Prop
  | _, [] => True
  | fs, (call, env) :: calls => Served fs.remote (carried fs.writeBuffer call) env ∧
      AllUtf8 (carried fs.writeBuffer call) ∧ Keeps (call.run fs env).2 calls

/-- The run lemma: the server plus the held bytes is the log of accepted writes. -/
theorem runCalls_view (calls : List (Call × Env)) : ∀ fs : FileSystem L,
    fs.writeBuffer.HasRoom → Keeps fs calls →
    (runCalls fs calls).2.writeBuffer.HasRoom ∧
      view (runCalls fs calls).2 =
        fileStore.applyAll (view fs) (acceptedWrites calls (runCalls fs calls).1) := by
  induction calls with
  | nil => exact fun fs hroom _ => ⟨hroom, rfl⟩
  | cons head calls ih =>
    obtain ⟨call, env⟩ := head
    rintro fs hroom ⟨hs, hu, hrest⟩
    have hstep : (call.run fs env).2.writeBuffer.HasRoom ∧ view (call.run fs env).2 =
        fileStore.applyAll (view fs) (appended call (call.run fs env).1) := by
      cases call with
      | write path offset data =>
        obtain ⟨h₁, h₂, -⟩ := write_step hroom path offset data hs hu
        exact ⟨h₁, h₂⟩
      | flush =>
        obtain ⟨-, hc, hr, hn⟩ := flush_step hroom hs hu
        exact ⟨hr, (view_of_flushed hc).trans hn⟩
    obtain ⟨hroom', hview⟩ := ih _ hstep.1 hrest
    refine ⟨hroom', ?_⟩
    rw [runCalls, acceptedWrites_cons, applyAll_append, ← hstep.2]
    exact hview

/-- A flush that returns `Ok` leaves every byte accepted before on the server, in order. -/
theorem flush_ok_applied (fs : FileSystem L) (hempty : fs.writeBuffer.content = [])
    (hcap : 0 < fs.writeBuffer.capacity) (calls : List (Call × Env)) (hkeeps : Keeps fs calls)
    (env : Env) (hok : ((runCalls fs calls).2.flushWriteBuffer env).1 = .ok ()) :
    ((runCalls fs calls).2.flushWriteBuffer env).2.remote.nodes =
      fileStore.applyAll fs.remote.nodes (acceptedWrites calls (runCalls fs calls).1) := by
  obtain ⟨-, hview⟩ := runCalls_view calls fs (hasRoom_of_empty hempty hcap) hkeeps
  rw [view_of_flushed hempty] at hview
  rw [← hview]
  obtain ⟨fs', hfs⟩ : ∃ fs', fs' = (runCalls fs calls).2 := ⟨_, rfl⟩
  rw [← hfs] at hok ⊢
  have hflush : fs'.flushWriteBuffer env = { fs' with
      writeBuffer := fs'.writeBuffer.stageFlush.2 }.uploadAll
        fs'.writeBuffer.stageFlush.1.toList env := rfl
  have hlen : fs'.writeBuffer.stageFlush.1.toList.length ≤ 1 := by
    cases fs'.writeBuffer.stageFlush.1 <;> simp
  rcases uploadAll_single { fs' with writeBuffer := fs'.writeBuffer.stageFlush.2 } hlen
      (fun w hw => WriteBuffer.stageFlush_nonempty hw) with
    ⟨fs'', hrun, -, hn⟩ | ⟨e, hrun, -⟩
  · rw [hflush, hrun]
    exact hn.trans (WriteBuffer.stageFlush_view fileStore _ _)
  · rw [hflush, hrun] at hok
    cases hok

theorem flush_ok_applied_after_error :
    let L : PageLimits := ⟨4, 4, by decide⟩
    let fs : FileSystem L := .new (.empty 0 0) 2 0 none
    let calls := [
      (Call.write (components "/f") 0 [1, 2], Env.steady 0 (some (.serverError "timeout"))),
      (Call.write (components "/f") 0 [7], Env.steady 0 none)]
    ((runCalls fs calls).2.flushWriteBuffer (.steady 0 none)).2.remote.nodes =
      fileStore.applyAll fs.remote.nodes (acceptedWrites calls (runCalls fs calls).1) := by
  intro L fs calls
  have hnone : ∀ w, w ∈ ([] : List Chunk) → w.key.isUtf8 = true := fun w h => by cases h
  exact flush_ok_applied fs (by decide) (by decide) calls
    ⟨trivial, hnone, trivial, hnone, trivial⟩ _ (by decide)

/-- The bytes of an `Ok` write, taken by a failed flush, are not sent by the next flush. -/
theorem failed_flush_drops_bytes :
    let L : PageLimits := ⟨4, 4, by decide⟩
    let fs : FileSystem L := .new (.empty 0 0) 4 0 none
    let calls := [(Call.write (components "/f") 0 [7], Env.steady 0 none),
      (Call.flush, Env.steady 0 (some (.serverError "connection lost")))]
    let done := runCalls fs calls
    done.1[0]? = some (.ok 1) ∧ (done.2.flushWriteBuffer (.steady 0 none)).1 = .ok () ∧
      (done.2.flushWriteBuffer (.steady 0 none)).2.remote.nodes ≠
        fileStore.applyAll fs.remote.nodes (acceptedWrites calls done.1) := by
  intro L fs calls done
  refine ⟨by decide, by decide, ?_⟩
  intro h
  have hf := congrFun h (components "/f")
  revert hf
  decide

section Served

variable {fs : FileSystem L} {env : Env}

def uploads (b : WriteBuffer) : Call → List Chunk
  | .write path offset data => (b.stageWrite path offset data).uploads
  | .flush => b.stageFlush.1.toList

def ServedRun : FileSystem L → List (Call × Env) → Prop
  | _, [] => True
  | fs, (call, env) :: calls => Served fs.remote (uploads fs.writeBuffer call) env ∧
      ServedRun (call.run fs env).2 calls

def Call.isText : Call → Bool
  | write path _ _ => path.isUtf8
  | flush => true

def HoldsText (b : WriteBuffer) : Prop := b.content ≠ [] → b.path.isUtf8 = true

theorem uploads_text {b : WriteBuffer} (hb : HoldsText b) {call : Call}
    (hcall : call.isText = true) : AllUtf8 (uploads b call) := by
  intro w hw
  cases call with
  | flush =>
    obtain ⟨hk, hc⟩ := WriteBuffer.stageFlush_key hw
    rw [hk]
    exact hb hc
  | write path offset data =>
    rcases List.mem_append.mp hw with hw | hw
    · obtain ⟨hk, hc⟩ := WriteBuffer.evict_key hw
      rw [hk]
      exact hb hc
    · rw [WriteBuffer.drainFull_key hw, WriteBuffer.evict_write_path]
      exact hcall

theorem stageWrite_text (b : WriteBuffer) {path : Path} (offset : ℕ) (data : List UInt8)
    (hpath : path.isUtf8 = true) : HoldsText (b.stageWrite path offset data).buffer := by
  intro hc
  rw [WriteBuffer.stageWrite] at hc ⊢
  rw [WriteBuffer.drainFull_path hc, WriteBuffer.evict_write_path]
  exact hpath

theorem served_step {call : Call} (hroom : fs.writeBuffer.HasRoom)
    (hb : HoldsText fs.writeBuffer) (hcall : call.isText = true)
    (hs : Served fs.remote (uploads fs.writeBuffer call) env) :
    (∃ n, (call.run fs env).1 = .ok n ∧ ∀ path offset data, call = .write path offset data →
        n = (fs.writeBuffer.stageWrite path offset data).written) ∧
      (call.run fs env).2.writeBuffer.HasRoom ∧ HoldsText (call.run fs env).2.writeBuffer := by
  have hcap : 0 < fs.writeBuffer.capacity := Nat.lt_of_le_of_lt (Nat.zero_le _) hroom
  have hu := uploads_text hb hcall
  cases call with
  | flush =>
    obtain ⟨hok, hc, hroom', -⟩ := flush_step hroom hs hu
    refine ⟨⟨0, ?_, fun _ _ _ h => by cases h⟩, hroom', fun h => (h hc).elim⟩
    rw [Call.run, hok]
    rfl
  | write path offset data =>
    obtain ⟨fs', hrun, hbuf, -, -⟩ := uploadAll_served
      { fs with writeBuffer := (fs.writeBuffer.stageWrite path offset data).buffer } hs hu
      (fun w hw => WriteBuffer.stageWrite_nonempty hcap hw)
    rw [uploads] at hrun
    have hrun' : Call.run fs (.write path offset data) env =
        (.ok (fs.writeBuffer.stageWrite path offset data).written, fs') := by
      rw [Call.run, FileSystem.writeFile, hrun]
      rfl
    rw [hrun']
    refine ⟨⟨_, rfl, ?_⟩, ?_, ?_⟩
    · rintro _ _ _ ⟨⟩
      rfl
    · rw [hbuf]
      exact WriteBuffer.stageWrite_hasRoom hroom path offset data
    · rw [hbuf]
      exact stageWrite_text _ offset data hcall

def EveryWriteTakes (calls : List (Call × Env)) (results : List (Except FsModelError ℕ)) :
    Prop :=
  ∀ (i : ℕ) path offset data (env : Env), calls[i]? = some (Call.write path offset data, env) →
    ∃ n, results[i]? = some (Except.ok n) ∧ n ≤ data.length ∧ (data ≠ [] → 1 ≤ n)

theorem servedRun_keeps (calls : List (Call × Env)) : ∀ fs : FileSystem L,
    fs.writeBuffer.HasRoom → HoldsText fs.writeBuffer →
    (∀ call env, (call, env) ∈ calls → call.isText = true) → ServedRun fs calls →
    Keeps fs calls ∧ HoldsText (runCalls fs calls).2.writeBuffer ∧
      EveryWriteTakes calls (runCalls fs calls).1 := by
  induction calls with
  | nil => exact fun fs _ hb _ _ => ⟨trivial, hb, fun i _ _ _ _ h => by simp at h⟩
  | cons head calls ih =>
    obtain ⟨call, env⟩ := head
    rintro fs hroom hb htext ⟨hs, hrest⟩
    have hcall := htext call env List.mem_cons_self
    obtain ⟨⟨n, hn, hcount⟩, hroom', hb'⟩ := served_step hroom hb hcall hs
    obtain ⟨hkeeps, hb'', hresults⟩ := ih _ hroom' hb'
      (fun c e h => htext c e (List.mem_cons_of_mem _ h)) hrest
    have hu := uploads_text hb hcall
    have hsub : Served fs.remote (carried fs.writeBuffer call) env ∧
        AllUtf8 (carried fs.writeBuffer call) := by
      cases call with
      | flush => exact ⟨hs, hu⟩
      | write path offset data =>
        rw [uploads, uploads_eq] at hs hu
        exact ⟨served_append hs, fun w hw => hu w (List.mem_append_left _ hw)⟩
    refine ⟨⟨hsub.1, hsub.2, hkeeps⟩, hb'', ?_⟩
    intro i path offset data env' hi
    cases i with
    | succ i => exact hresults i path offset data env' hi
    | zero =>
      obtain ⟨rfl, -⟩ : call = .write path offset data ∧ env = env' := by
        simpa using hi
      have hw := hcount path offset data rfl
      refine ⟨n, by rw [runCalls, ← hn]; rfl, ?_, ?_⟩
      · rw [hw]; exact WriteBuffer.stageWrite_written_le _ _ _ _
      · intro hd; rw [hw]; exact WriteBuffer.stageWrite_written_pos hroom _ _ hd

end Served

/-- With every remote write succeeding, each write takes a byte at least, and after a last
flush the server's files are the accepted writes in issue order. -/
theorem write_back_exact (fs : FileSystem L) (hempty : fs.writeBuffer.content = [])
    (hcap : 0 < fs.writeBuffer.capacity) (calls : List (Call × Env))
    (htext : ∀ call env, (call, env) ∈ calls → call.isText = true)
    (hserved : ServedRun fs calls) (env : Env)
    (hlast : Served (runCalls fs calls).2.remote
      (uploads (runCalls fs calls).2.writeBuffer .flush) env) :
    EveryWriteTakes calls (runCalls fs calls).1 ∧
      ((runCalls fs calls).2.flushWriteBuffer env).2.remote.nodes =
        fileStore.applyAll fs.remote.nodes (acceptedWrites calls (runCalls fs calls).1) := by
  have hroom := hasRoom_of_empty hempty hcap
  obtain ⟨hkeeps, hholds, hresults⟩ :=
    servedRun_keeps calls fs hroom (fun h => (h hempty).elim) htext hserved
  refine ⟨hresults, flush_ok_applied fs hempty hcap calls hkeeps env ?_⟩
  obtain ⟨hroom', -⟩ := runCalls_view calls fs hroom hkeeps
  exact (flush_step hroom' hlast (uploads_text hholds rfl : AllUtf8 (uploads _ .flush))).1

theorem write_back_exact_two :
    let L : PageLimits := ⟨4, 4, by decide⟩
    let fs : FileSystem L := .new (.empty 0 0) 2 0 none
    let path : Path := [.rootDir, .normal (.text "f")]
    let calls := [(Call.write path 0 [7], Env.steady 0 none),
      (Call.write path 1 [8, 9], Env.steady 0 none)]
    EveryWriteTakes calls (runCalls fs calls).1 ∧
      ((runCalls fs calls).2.flushWriteBuffer (.steady 0 none)).2.remote.nodes =
        fileStore.applyAll fs.remote.nodes (acceptedWrites calls (runCalls fs calls).1) := by
  intro L fs path calls
  have hfirst : uploads fs.writeBuffer (.write path 0 [7]) = [] := by decide
  have hsecond : uploads (Call.run fs (.write path 0 [7]) (.steady 0 none)).2.writeBuffer
      (.write path 1 [8, 9]) = [⟨path, 0, [7, 8]⟩] := by decide
  have hlast : uploads (runCalls fs calls).2.writeBuffer .flush = [] := by decide
  refine write_back_exact fs (by decide) (by decide) calls ?_ ⟨?_, ?_, trivial⟩ _ ?_
  · intro call env hmem
    simp only [calls, List.mem_cons, Prod.mk.injEq, List.not_mem_nil, or_false] at hmem
    rcases hmem with ⟨rfl, -⟩ | ⟨rfl, -⟩ <;> decide
  · rw [hfirst]; trivial
  · rw [hsecond]; exact ⟨rfl, _, rfl, trivial⟩
  · rw [hlast]; trivial

/-- A path that is no text is accepted by the buffer and refused when it is sent. -/
theorem raw_path_is_dropped :
    let L : PageLimits := ⟨4, 4, by decide⟩
    let fs : FileSystem L := .new (.empty 0 0) 4 0 none
    let path : Path := [.rootDir, .normal (.raw [255])]
    let calls := [(Call.write path 0 [7], Env.steady 0 none)]
    let done := runCalls fs calls
    ServedRun fs calls ∧
      Served done.2.remote (uploads done.2.writeBuffer .flush) (.steady 0 none) ∧
      done.1 = [.ok 1] ∧ (done.2.flushWriteBuffer (.steady 0 none)).2.remote.nodes ≠
        fileStore.applyAll fs.remote.nodes (acceptedWrites calls done.1) := by
  intro L fs path calls done
  refine ⟨⟨trivial, trivial⟩, ⟨rfl, _, rfl, trivial⟩, by decide, ?_⟩
  intro h
  have hf := congrFun h path
  revert hf
  decide

end ClientWriteBack
