import RemoteFs.ClientMemory
import RemoteFs.ClientWriteBack

/-! # Truncation and what is served after it

A size change reaches the cached attributes and leaves the cached pages in place. What lies
below the new size may stay; what lies beyond it comes back when the file grows again. -/
namespace ClientTruncation

open ClientAttributes
open ClientCache
open ClientFileSystem
open ClientMemory
open ClientPageCache
open ClientWriteBack
open ClientWriteBuffer
open FileBytes
open OsPaths
open RemoteTree
open WriteLog

variable {L : PageLimits}

/-- What a caller does to one file. A rewrite is flushed at once. -/
inductive Event where
  | resize (size : ℕ)
  | rewrite (offset : ℕ) (data : List UInt8)
  | read (offset size : ℕ)
  deriving DecidableEq, Repr

/-- The state after a size change or a flushed write that succeeds, or after a read, and
the range that was rewritten: its offset and its length. -/
def Event.run (p : Path) (fs : FileSystem L) : Event → Env → Option (FileSystem L × List (ℕ × ℕ))
  | resize m, env =>
    match fs.setAttributes p (SetAttr.ofSize m) env with
    | (.ok _, fs) => some (fs, [])
    | (.error _, _) => none
  | rewrite off data, env =>
    match fs.writeFile p off data env with
    | (.error _, _) => none
    | (.ok k, fs) =>
      match fs.flushWriteBuffer (env.drop 4) with
      | (.ok _, fs) => some (fs, [(off, k)])
      | (.error _, _) => none
  | read o s, env => some ((fs.readFile p o s env).2, [])

def runEvents (p : Path) : FileSystem L → List (Event × Env) →
    Option (FileSystem L × List (ℕ × ℕ))
  | fs, [] => some (fs, [])
  | fs, (ev, env) :: evs => (ev.run p fs env).bind fun done =>
      (runEvents p done.1 evs).map fun rest => (rest.1, done.2 ++ rest.2)

def Cut (fs : FileSystem L) (p : Path) (m t : ℕ) : Prop :=
  (∀ it x b, entry fs p t = some it → it.byteAt x = some b → x < m) ∧
    BufferIs fs p t fun x _ => x < m

def AllCut (p : Path) : FileSystem L → List (Event × Env) → Prop
  | _, [] => True
  | fs, (ev, env) :: evs => (∀ m, ev = .resize m → Cut fs p m (env 0).now) ∧
      ∀ done, ev.run p fs env = some done → AllCut p done.1 evs

def Untouched (ranges : List (ℕ × ℕ)) (x : ℕ) : Prop :=
  ∀ r ∈ ranges, x < r.1 ∨ r.1 + r.2 ≤ x

def Within (len : ℕ) (cleared : ℕ → Prop) (x : ℕ) (b : UInt8) : Prop :=
  x < len ∧ (cleared x → b = 0)

/-- The invariant of a run: server, cache and read buffer have no byte beyond the end, and
zeros where the file was cut and not rewritten. -/
structure Coherent (fs : FileSystem L) (p : Path) (t : ℕ) (cleared : ℕ → Prop)
    (bytes : List UInt8) : Prop where
  node : fs.remote.nodes p = some (.file bytes)
  server : ∀ x b, bytes[x]? = some b → cleared x → b = 0
  entries : Entries fs p t (Good (BytesAre (Within bytes.length cleared)) fun _ => True)
  buffer : BufferIs fs p t (Within bytes.length cleared)

section Steps

variable {fs : FileSystem L} {p : Path} {t m : ℕ} {env : Env} {bytes : List UInt8}
variable {cleared cleared' : ℕ → Prop}

theorem Within.weaken {len len' x : ℕ} {b : UInt8} (hlen : len ≤ len')
    (hc : cleared' x → cleared x) (h : Within len cleared x b) : Within len' cleared' x b :=
  ⟨by have := h.1; omega, fun hx => h.2 (hc hx)⟩

theorem Coherent.weaken (h : Coherent fs p t cleared bytes) (hc : ∀ x, cleared' x → cleared x) :
    Coherent fs p t cleared' bytes where
  node := h.node
  server x b hb hx := h.server x b hb (hc x hx)
  entries it he := ⟨fun f hf x b hb => ((h.entries it he).file f hf x b hb).weaken le_rfl (hc x),
    fun _ _ => trivial⟩
  buffer x b hb := (h.buffer x b hb).weaken le_rfl (hc x)

theorem Coherent.later {t' : ℕ} (h : Coherent fs p t cleared bytes) (ht : t ≤ t') :
    Coherent fs p t' cleared bytes where
  node := h.node
  server := h.server
  entries := h.entries.later ht
  buffer x b hb := h.buffer x b (ClientReadBuffer.ReadBuffer.byteAt_later ht hb)

/-- A size change keeps the memory as it is, so a memory that is cut stays coherent. -/
theorem resize_coherent {a : Attributes} (ht : ∀ i, t ≤ (env i).now) (hcut : Cut fs p m t)
    (hzero : ∀ x b, x < m → cleared x →
      ((∃ f, entry fs p t = some (.file f) ∧ f.byteAt x = some b) ∨
        fs.readBuffer.byteAt t p x = some b ∨
        ∃ old, fs.remote.nodes p = some (.file old) ∧ old[x]? = some b) → b = 0)
    (hok : (fs.setAttributes p (SetAttr.ofSize m) env).1 = .ok a) :
    ∃ bytes', Coherent (fs.setAttributes p (SetAttr.ofSize m) env).2 p t cleared bytes' := by
  obtain ⟨r, hset, -, hrun⟩ := FileSystem.setAttributes_ok hok
  obtain ⟨hnodes, old, hold⟩ := Remote.setAttributes_size (n := m) rfl hset
  rw [hrun]
  refine ⟨resize 0 old m, ?_, ?_, ?_, ?_⟩
  · rw [FileSystem.onCache_remote, hnodes, Nodes.setSize, Function.update_self, hold]
    rfl
  · intro x b hb hx
    rw [getElem?_resize] at hb
    split at hb
    · rename_i hm
      injection hb with hb
      cases ho : old[x]? with
      | none => rw [← hb, ho, Option.getD_none]
      | some c =>
        rw [ho, Option.getD_some] at hb
        exact hzero x b hm hx (Or.inr (Or.inr ⟨old, hold, hb ▸ ho⟩))
    · cases hb
  · rw [length_resize]
    refine Entries.cachePutAttr bytesAre_aboutPages ?_ (ht 1)
      (fun _ => trivial)
    intro it he
    refine ⟨?_, fun _ _ => trivial⟩
    rintro f rfl x b hb
    have hm := hcut.1 (.file f) x b he hb
    exact ⟨hm, fun hx => hzero x b hm hx (Or.inl ⟨f, he, hb⟩)⟩
  · rw [length_resize]
    intro x b hb
    have hm := hcut.2 x b hb
    exact ⟨hm, fun hx => hzero x b hm hx (Or.inr (Or.inl hb))⟩

theorem Coherent.resize {a : Attributes} (h : Coherent fs p t cleared bytes)
    (ht : ∀ i, t ≤ (env i).now) (hcut : Cut fs p m t)
    (hok : (fs.setAttributes p (SetAttr.ofSize m) env).1 = .ok a) :
    ∃ bytes', Coherent (fs.setAttributes p (SetAttr.ofSize m) env).2 p t cleared bytes' := by
  refine resize_coherent ht hcut ?_ hok
  rintro x b - hx (⟨f, he, hb⟩ | hb | ⟨old, hold, hb⟩)
  · exact ((h.entries _ he).file f rfl x b hb).2 hx
  · exact (h.buffer x b hb).2 hx
  · rw [h.node] at hold
    injection hold with hold
    injection hold with hold
    exact h.server x b (hold ▸ hb) hx

/-- The first truncation starts the invariant: what it cuts off is cleared. -/
theorem truncate_coherent {n : ℕ} {a : Attributes} (ht : ∀ i, t ≤ (env i).now)
    (hcut : Cut fs p n t) (hok : (fs.setAttributes p (SetAttr.ofSize n) env).1 = .ok a) :
    ∃ bytes', Coherent (fs.setAttributes p (SetAttr.ofSize n) env).2 p t (n ≤ ·) bytes' :=
  resize_coherent ht hcut (fun x b hm hx _ => by omega) hok

/-- Zeros between two ranges lie below the end of the file. -/
theorem gaps_within {f w : CachedFile L} {len : ℕ} (hf : BytesAre (Within len cleared) f)
    (hw : ∀ y c, w.byteAt y = some c → y < len) : GapsAre (Within len cleared) w f := by
  intro x hx
  obtain ⟨y, c, hxy, hy⟩ := gap_below hx
  rcases hy with hy | hy
  · exact ⟨hxy.trans (hf y c hy).1, fun _ => rfl⟩
  · exact ⟨hxy.trans (hw y c hy), fun _ => rfl⟩

theorem Coherent.upload {w : Chunk} (h : Coherent fs p t cleared bytes)
    (ht : ∀ i, t ≤ (env i).now) (hkey : w.key = p) (hd : w.data ≠ [])
    (hok : (fs.upload w env).1 = .ok ()) :
    ∃ bytes', Coherent (fs.upload w env).2 p t
      (fun x => cleared x ∧ (x < w.offset ∨ w.stop ≤ x)) bytes' := by
  obtain ⟨r, hwrite, hrun⟩ := FileSystem.upload_ok hok
  have hnodes := Remote.writeFile_nodes hwrite
  rw [hrun, hkey]
  rw [hkey] at hnodes
  have hlen := length_writeAt 0 bytes w.offset hd
  have hown : ∀ x b, w.offset ≤ x → w.data[x - w.offset]? = some b →
      Within (writeAt 0 bytes w.offset w.data).length
        (fun x => cleared x ∧ (x < w.offset ∨ w.stop ≤ x)) x b := by
    intro x b hx hb
    have hlt := (List.getElem?_eq_some_iff.mp hb).1
    refine ⟨by rw [hlen]; omega, ?_⟩
    rintro ⟨-, hx' | hx'⟩
    · omega
    · rw [Write.stop] at hx'; omega
  have hkeep : ∀ x b, Within bytes.length cleared x b →
      Within (writeAt 0 bytes w.offset w.data).length
        (fun x => cleared x ∧ (x < w.offset ∨ w.stop ≤ x)) x b := fun x b hb =>
    hb.weaken (by rw [hlen]; exact le_max_left _ _) fun hx => hx.1
  refine ⟨writeAt 0 bytes w.offset w.data, ?_, ?_, ?_, ?_⟩
  · rw [FileSystem.onCache_remote, hnodes, Nodes.write, Function.update_self, h.node]
    rfl
  · rintro x b hb ⟨hx, hout⟩
    rw [getElem?_writeAt 0 bytes w.offset hd] at hb
    split at hb
    · injection hb with hb
      cases ho : bytes[x]? with
      | none => rw [← hb, ho, Option.getD_none]
      | some c =>
        rw [ho, Option.getD_some] at hb
        exact h.server x b (hb ▸ ho) hx
    · split at hb
      · rw [Write.stop] at hout; omega
      · exact h.server x b hb hx
  · refine Entries.cacheWriteFile (ht 1) ?_ hown ?_
      (fun _ _ _ _ _ => trivial)
    · intro f x b he hb
      exact Or.inl (hkeep x b ((h.entries _ he).file f rfl x b hb))
    · intro f he
      refine gaps_within (fun x b hb => hkeep x b ((h.entries _ he).file f rfl x b hb)) ?_
      intro y c hy
      obtain ⟨hy, hc⟩ := written_byteAt hy
      exact (hown y c hy hc).1
  · exact fun x b hb => hkeep x b (h.buffer x b hb)

theorem Coherent.uploadAll {ws : List Chunk} (ht : ∀ i, t ≤ (env i).now)
    (h : Coherent fs p t cleared bytes) (hws : ∀ w ∈ ws, w.key = p ∧ w.data ≠ [])
    (hok : (fs.uploadAll ws env).1 = .ok ()) :
    ∃ bytes', Coherent (fs.uploadAll ws env).2 p t
      (fun x => cleared x ∧ ∀ w ∈ ws, x < w.offset ∨ w.stop ≤ x) bytes' := by
  induction ws generalizing fs env cleared bytes with
  | nil => exact ⟨bytes, h.weaken fun x hx => hx.1⟩
  | cons w ws ih =>
    rw [FileSystem.uploadAll] at hok ⊢
    split at hok
    · cases hok
    · rename_i fs' hup
      obtain ⟨hkey, hd⟩ := hws w List.mem_cons_self
      obtain ⟨bytes₁, h₁⟩ := h.upload ht hkey hd (by rw [hup])
      rw [hup] at h₁
      obtain ⟨bytes₂, h₂⟩ := ih (fun i => ht (2 + i)) h₁
        (fun v hv => hws v (List.mem_cons_of_mem _ hv)) hok
      refine ⟨bytes₂, h₂.weaken ?_⟩
      rintro x ⟨hx, hout⟩
      exact ⟨⟨hx, hout w List.mem_cons_self⟩, fun v hv => hout v (List.mem_cons_of_mem _ hv)⟩

/-- A write into the empty buffer and its flush send the accepted bytes, and only these. -/
theorem Coherent.rewrite {off k : ℕ} {data : List UInt8} {env' : Env}
    (h : Coherent fs p t cleared bytes) (hempty : fs.writeBuffer.content = [])
    (hcap : 0 < fs.writeBuffer.capacity) (ht : ∀ i, t ≤ (env i).now) (ht' : ∀ i, t ≤ (env' i).now)
    (hw : (fs.writeFile p off data env).1 = .ok k)
    (hf : ((fs.writeFile p off data env).2.flushWriteBuffer env').1 = .ok ()) :
    let done := ((fs.writeFile p off data env).2.flushWriteBuffer env').2
    done.writeBuffer.content = [] ∧ 0 < done.writeBuffer.capacity ∧
      ∃ bytes', Coherent done p t (fun x => cleared x ∧ (x < off ∨ off + k ≤ x)) bytes' := by
  obtain ⟨hk, hsent⟩ := FileSystem.writeFile_ok hw
  obtain ⟨b, hb⟩ : ∃ b, b = fs.writeBuffer := ⟨_, rfl⟩
  obtain ⟨fs₁, hfs₁⟩ : ∃ fs₁, fs₁ = (fs.writeFile p off data env).2 := ⟨_, rfl⟩
  have hrun : fs₁ = (FileSystem.uploadAll { fs with
      writeBuffer := (b.stageWrite p off data).buffer }
        (b.stageWrite p off data).uploads env).2 := by rw [hfs₁, hb]; rfl
  rw [← hfs₁] at hf ⊢
  rw [← hb] at hempty hcap hk hsent
  have hchunk : ∀ w ∈ (b.stageWrite p off data).uploads ++
      (b.stageWrite p off data).buffer.stageFlush.1.toList, w = ⟨p, off, data.take k⟩ :=
    fun w hw => hk ▸ WriteBuffer.stageWrite_flush_of_empty hempty p off data hw
  have hd : ∀ w ∈ (b.stageWrite p off data).uploads, w.data ≠ [] := fun w hw =>
    WriteBuffer.stageWrite_nonempty hcap hw
  obtain ⟨-, hbuf⟩ := uploadAll_ok _ hd hsent
  rw [← hrun] at hbuf
  have hbuf₁ : fs₁.writeBuffer = (b.stageWrite p off data).buffer := hbuf
  have hd' : ∀ w ∈ fs₁.writeBuffer.stageFlush.1.toList, w.data ≠ [] := fun w hw =>
    WriteBuffer.stageFlush_nonempty hw
  obtain ⟨-, hbuf'⟩ := uploadAll_ok
    { fs₁ with writeBuffer := fs₁.writeBuffer.stageFlush.2 } hd' hf
  have h₀ : Coherent { fs with writeBuffer := (b.stageWrite p off data).buffer } p t cleared
    bytes := ⟨h.node, h.server, h.entries, h.buffer⟩
  obtain ⟨bytes₁, h₁⟩ := h₀.uploadAll ht (fun w hw =>
    ⟨congrArg Write.key (hchunk w (List.mem_append_left _ hw)), hd w hw⟩) hsent
  rw [← hrun] at h₁
  have h₁' : Coherent { fs₁ with writeBuffer := fs₁.writeBuffer.stageFlush.2 } p t _ bytes₁ :=
    ⟨h₁.node, h₁.server, h₁.entries, h₁.buffer⟩
  obtain ⟨bytes₂, h₂⟩ := h₁'.uploadAll ht' (fun w hw =>
    ⟨congrArg Write.key (hchunk w (List.mem_append_right _ (hbuf₁ ▸ hw))), hd' w hw⟩) hf
  have hroom := WriteBuffer.stageWrite_hasRoom (hasRoom_of_empty hempty hcap) p off data
  refine ⟨?_, ?_, bytes₂, h₂.weaken ?_⟩
  · exact (congrArg WriteBuffer.content hbuf').trans (WriteBuffer.stageFlush_content _)
  · rw [FileSystem.flushWriteBuffer, hbuf']
    rw [WriteBuffer.stageFlush_capacity, hbuf₁]
    exact Nat.lt_of_le_of_lt (Nat.zero_le _) hroom
  · rintro x ⟨hx, hout⟩
    have hrange : ∀ w : Chunk, w = ⟨p, off, data.take k⟩ → x < w.offset ∨ w.stop ≤ x := by
      rintro w rfl
      rw [Write.stop, List.length_take]
      dsimp only
      omega
    exact ⟨⟨hx, fun w hw => hrange w (hchunk w (List.mem_append_left _ hw))⟩,
      fun w hw => hrange w (hchunk w (List.mem_append_right _ (hbuf₁ ▸ hw)))⟩

theorem Coherent.serverIs (h : Coherent fs p t cleared bytes) :
    ServerIs fs p (Within bytes.length cleared) := by
  intro o size data hread i b hb
  rw [Remote.readFile, h.node] at hread
  injection hread with hread
  rw [← hread, getElem?_slice] at hb
  split at hb
  · exact ⟨(List.getElem?_eq_some_iff.mp hb).1, h.server _ b hb⟩
  · cases hb

theorem Coherent.read {o s : ℕ} (h : Coherent fs p t cleared bytes)
    (ht : ∀ i, t ≤ (env i).now) :
    ReadOk fs p t (Within bytes.length cleared) (fun _ => True) (fs.readFile p o s env).2 := by
  have hserver := h.serverIs
  refine readFile_ok ht ?_ h.buffer hserver fun _ _ => trivial
  intro it he
  refine ⟨fun f hf => ⟨(h.entries it he).file f hf, ?_⟩, fun _ _ => trivial⟩
  intro _ data hdata
  refine gaps_within ((h.entries it he).file f hf) ?_
  intro y c hy
  obtain ⟨hy, hc⟩ := written_byteAt hy
  have hfrom : Within bytes.length cleared (o + (y - o)) c := by
    unfold fetched at hdata
    split at hdata
    · injection hdata with hdata
      rw [← hdata] at hc
      exact h.buffer _ c (ClientReadBuffer.ReadBuffer.byteAt_later (ht 4)
        (ClientReadBuffer.ReadBuffer.read_getElem? hc).1)
    · exact hserver o _ data hdata _ c hc
  rw [Nat.add_sub_cancel' hy] at hfrom
  exact hfrom.1

theorem cut_of_bare (h : Entries fs p t Bare) (hb : fs.readBuffer.validUpTo = 0) :
    Cut fs p m t := by
  constructor
  · intro it x b he hx
    cases it with
    | file f =>
      have hnone := byteAt_bare (x := x) (h _ he)
      cases hnone.symm.trans hx
    | symLink l => cases hx
    | directory d => cases hx
  · intro x b hx
    unfold ClientReadBuffer.ReadBuffer.byteAt at hx
    split at hx
    · omega
    · cases hx

theorem resize_run {done : FileSystem L × List (ℕ × ℕ)}
    (hrun : (Event.resize m).run p fs env = some done) :
    ∃ a, (fs.setAttributes p (SetAttr.ofSize m) env).1 = .ok a ∧
      done = ((fs.setAttributes p (SetAttr.ofSize m) env).2, []) ∧
      done.1.writeBuffer = fs.writeBuffer := by
  simp only [Event.run] at hrun
  split at hrun
  · rename_i a fs' hset
    injection hrun with hrun
    have hok := congrArg Prod.fst hset
    obtain ⟨r, -, -, hdone⟩ := FileSystem.setAttributes_ok hok
    refine ⟨a, hok, by rw [hset, hrun], ?_⟩
    have hfs := hset.symm.trans hdone
    injection hfs with _ hfs
    rw [← hrun]
    dsimp only
    rw [hfs]
    rfl
  · cases hrun

theorem rewrite_run {off : ℕ} {data : List UInt8} {done : FileSystem L × List (ℕ × ℕ)}
    (hrun : (Event.rewrite off data).run p fs env = some done) :
    ∃ k, (fs.writeFile p off data env).1 = .ok k ∧
      ((fs.writeFile p off data env).2.flushWriteBuffer (env.drop 4)).1 = .ok () ∧
      done = (((fs.writeFile p off data env).2.flushWriteBuffer (env.drop 4)).2, [(off, k)]) := by
  simp only [Event.run] at hrun
  split at hrun
  · cases hrun
  · rename_i k fs₁ hw
    split at hrun
    · rename_i u fs₂ hf
      injection hrun with hrun
      rw [hw]
      exact ⟨k, rfl, congrArg Prod.fst hf, by rw [hf, hrun]⟩
    · cases hrun

theorem step_coherent {ev : Event} {done : FileSystem L × List (ℕ × ℕ)}
    (hempty : fs.writeBuffer.content = []) (hcap : 0 < fs.writeBuffer.capacity)
    (h : Coherent fs p t cleared bytes) (ht : ∀ i, t ≤ (env i).now)
    (hcut : ∀ m, ev = .resize m → Cut fs p m t) (hrun : ev.run p fs env = some done) :
    done.1.writeBuffer.content = [] ∧ 0 < done.1.writeBuffer.capacity ∧
      ∃ bytes', Coherent done.1 p t (fun x => cleared x ∧ Untouched done.2 x) bytes' := by
  cases ev with
  | resize m =>
    obtain ⟨a, hok, rfl, hbuf⟩ := resize_run hrun
    obtain ⟨bytes', h'⟩ := h.resize ht (hcut m rfl) hok
    exact ⟨by rw [hbuf]; exact hempty, by rw [hbuf]; exact hcap, bytes',
      h'.weaken fun x hx => hx.1⟩
  | rewrite off data =>
    obtain ⟨k, hw, hf, rfl⟩ := rewrite_run hrun
    obtain ⟨he, hc, bytes', h'⟩ := h.rewrite hempty hcap ht (fun i => ht (4 + i)) hw hf
    exact ⟨he, hc, bytes', h'.weaken fun x hx => ⟨hx.1, hx.2 _ List.mem_cons_self⟩⟩
  | read o s =>
    injection hrun with hrun
    subst hrun
    have hread := h.read (o := o) (s := s) ht
    refine ⟨by rw [hread.writeBuffer]; exact hempty, by rw [hread.writeBuffer]; exact hcap,
      bytes, ?_, fun x b hb hx => h.server x b hb hx.1, ?_, ?_⟩
    · rw [hread.remote]; exact h.node
    · exact fun it he => ⟨fun f hf x b hb =>
        ((hread.entries it he).file f hf x b hb).weaken le_rfl fun hx => hx.1, fun _ _ => trivial⟩
    · exact fun x b hb => (hread.buffer x b hb).weaken le_rfl fun hx => hx.1

end Steps

theorem runEvents_coherent {p : Path} (evs : List (Event × Env)) : ∀ (fs : FileSystem L) (t : ℕ)
    (cleared : ℕ → Prop) (bytes : List UInt8) (done : FileSystem L × List (ℕ × ℕ))
    (later : List Env),
    fs.writeBuffer.content = [] → 0 < fs.writeBuffer.capacity →
    Coherent fs p t cleared bytes → Clocked t (evs.map Prod.snd ++ later) → AllCut p fs evs →
    runEvents p fs evs = some done →
    ∃ t' bytes', Clocked t' later ∧
      Coherent done.1 p t' (fun x => cleared x ∧ Untouched done.2 x) bytes' := by
  induction evs with
  | nil =>
    rintro fs t cleared bytes done later - - h hclock - hrun
    injection hrun with hrun
    subst hrun
    exact ⟨t, bytes, hclock, h.weaken fun x hx => hx.1⟩
  | cons head evs ih =>
    obtain ⟨ev, env⟩ := head
    rintro fs t cleared bytes done later hempty hcap h ⟨ht, hsteps, hclock⟩ ⟨hcut, hrest⟩ hrun
    obtain ⟨mid, hmid, hrun⟩ := Option.bind_eq_some_iff.mp hrun
    obtain ⟨rest, hrest', rfl⟩ := Option.map_eq_some_iff.mp hrun
    obtain ⟨hempty', hcap', bytes₁, h₁⟩ :=
      step_coherent hempty hcap (h.later ht) hsteps hcut hmid
    obtain ⟨t', bytes', hlater, h'⟩ :=
      ih mid.1 _ _ bytes₁ rest later hempty' hcap' h₁ hclock (hrest mid hmid) hrest'
    refine ⟨t', bytes', hlater, h'.weaken ?_⟩
    rintro x ⟨hx, hout⟩
    exact ⟨⟨hx, fun r hr => hout r (List.mem_append_left _ hr)⟩,
      fun r hr => hout r (List.mem_append_right _ hr)⟩

/-- After a truncation to `n` and any later size changes, flushed writes and reads that
found the memory cut, a read returns nothing beyond the end of the file, and zeros beyond `n`
where the file was not rewritten. -/
theorem truncation_coherent (fs : FileSystem L) (hempty : fs.writeBuffer.content = [])
    (hcap : 0 < fs.writeBuffer.capacity) (p : Path) (n : ℕ) (env : Env)
    (evs : List (Event × Env)) (done : FileSystem L × List (ℕ × ℕ))
    (hrun : runEvents p fs ((.resize n, env) :: evs) = some done)
    (hcut : AllCut p fs ((.resize n, env) :: evs)) (o s : ℕ) (env' : Env)
    (hclock : Clocked (env 0).now (env :: evs.map Prod.snd ++ [env'])) (r : List UInt8)
    (hread : (done.1.readFile p o s env').1 = .ok r) :
    ∃ bytes, done.1.remote.nodes p = some (.file bytes) ∧
      ∀ i b, r[i]? = some b → o + i < bytes.length ∧
        (n ≤ o + i → Untouched done.2 (o + i) → b = 0) := by
  obtain ⟨-, hsteps, hclock⟩ := hclock
  obtain ⟨hcut₀, hrest⟩ := hcut
  obtain ⟨mid, hmid, hrun⟩ := Option.bind_eq_some_iff.mp hrun
  obtain ⟨rest, hrest', rfl⟩ := Option.map_eq_some_iff.mp hrun
  obtain ⟨a, hok, rfl, hbuf⟩ := resize_run hmid
  obtain ⟨bytes₁, h₁⟩ := truncate_coherent hsteps (hcut₀ n rfl) hok
  obtain ⟨t', bytes, ⟨ht, hlast, -⟩, h⟩ := runEvents_coherent evs _ _ _ bytes₁ rest [env']
    (by rw [hbuf]; exact hempty) (by rw [hbuf]; exact hcap) h₁ hclock (hrest _ hmid) hrest'
  refine ⟨bytes, h.node, ?_⟩
  intro i b hb
  have h := h.later ht
  rcases readFile_result hlast h.entries h.buffer h.serverIs (fun _ _ => trivial) hread with
    ⟨rfl, -⟩ | hres
  · cases hb
  · have hwithin := hres.bytes i b hb
    exact ⟨hwithin.1, fun hn hout => hwithin.2 ⟨hn, hout⟩⟩

def threeBytes (L : PageLimits) : FileSystem L :=
  let p : Path := [.rootDir, .normal (.text "f")]
  .new { Remote.withFiles [p] with nodes := Nodes.write (fun _ => none) p 0 [1, 2, 3] } 4 0
    (some ⟨∅, 4, 10, true, .lru⟩)

theorem truncation_coherent_regrown :
    let L : PageLimits := ⟨4, 4, by decide⟩
    let p : Path := [.rootDir, .normal (.text "f")]
    let env := Env.steady 0 none
    let evs := [(Event.resize 3, env), (.rewrite 2 [9], env)]
    ∃ done, runEvents p (threeBytes L) ((.resize 1, env) :: evs) = some done ∧
      ∃ bytes, done.1.remote.nodes p = some (.file bytes) ∧
        ∀ i b, ([1, 0, 9] : List UInt8)[i]? = some b → 0 + i < bytes.length ∧
          (1 ≤ 0 + i → Untouched done.2 (0 + i) → b = 0) := by
  intro L p env evs
  have hle := Nat.le_refl 0
  have hnone : Entries (threeBytes L) p 0 Bare := by
    intro it he
    cases he
  have hrewrite : ∀ m, Event.rewrite 2 [9] ≠ .resize m := fun m h => by cases h
  refine ⟨_, rfl, truncation_coherent (threeBytes L) (by decide) (by decide) p 1 env evs _ rfl
    ⟨?_, ?_⟩ 0 8 env ⟨hle, fun _ => hle, hle, fun _ => hle, hle, fun _ => hle, hle,
      fun _ => hle, trivial⟩ _ (by decide)⟩
  · exact fun m _ => cut_of_bare hnone rfl
  · rintro _ ⟨⟩
    refine ⟨fun m _ => cut_of_bare ?_ rfl, ?_⟩
    · rintro it ⟨⟩
      rfl
    · exact fun done _ => ⟨fun m h => (hrewrite m h).elim, fun _ _ => trivial⟩

/-- Bytes that a truncation cut off are served from the cache's pages: at once beyond the
end of the file, and in place of zeros when it has grown again. -/
theorem truncated_bytes_return :
    let L : PageLimits := ⟨4, 4, by decide⟩
    let p : Path := [.rootDir, .normal (.text "f")]
    let env := Env.steady 0 none
    let fs := ((threeBytes L).readFile p 0 3 env).2
    ((runEvents p fs [(.resize 1, env)]).map fun done =>
      ((done.1.remote.getAttributes p).map Attributes.size, done.2,
        (done.1.readFile p 0 3 env).1)) =
        some (some 1, [], .ok [1, 2, 3]) ∧
    ((runEvents p fs [(.resize 1, env), (.resize 3, env)]).map fun done =>
      (done.1.remote.nodes p, done.2, (done.1.readFile p 0 3 env).1)) =
        some (some (.file [1, 0, 0]), [], .ok [1, 2, 3]) := by
  decide

end ClientTruncation
