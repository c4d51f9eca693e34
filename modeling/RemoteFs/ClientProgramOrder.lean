import RemoteFs.ClientWriteBack

/-! # Delayed writes among size and name changes

Truncate, rename and remove go to the server at once, past the bytes that the write buffer
still holds. The order is kept as long as these bytes are no concern of the call. -/
namespace ClientProgramOrder

open ClientAttributes
open ClientFileSystem
open ClientPageCache
open ClientWriteBack
open ClientWriteBuffer
open OsPaths
open RemoteTree
open WriteLog

variable {L : PageLimits}

inductive Op where
  | call (call : Call)
  | setSize (path : Path) (size : ℕ)
  | rename (oldPath newPath : Path)
  | remove (path : Path)
  deriving DecidableEq, Repr

def Op.run (fs : FileSystem L) : Op → Env → Except FsModelError ℕ × FileSystem L
  | call c, env => c.run fs env
  | setSize p n, env =>
    let done := fs.setAttributes p (SetAttr.ofSize n) env
    (done.1.map fun _ => 0, done.2)
  | rename a b, env =>
    let done := fs.rename a b RenameFlags.empty env
    (done.1.map fun _ => 0, done.2)
  | remove p, env =>
    let done := fs.remove p env
    (done.1.map fun _ => 0, done.2)

def runOps : FileSystem L → List (Op × Env) → List (Except FsModelError ℕ) × FileSystem L
  | fs, [] => ([], fs)
  | fs, (op, env) :: ops =>
    let done := op.run fs env
    let rest := runOps done.2 ops
    (done.1 :: rest.1, rest.2)

/-- What an operation does to the server's files when it is carried out at once; a write
is of the bytes it accepted. -/
def Op.effect (t : Nodes) : Op → ℕ → Nodes
  | call (.write p off data), n => fileStore.apply t ⟨p, off, data.take n⟩
  | call .flush, _ => t
  | setSize p n, _ => t.setSize p n
  | rename a b, _ => t.rename a b
  | remove p, _ => t.remove p

def replay : Nodes → List (Op × Env) → List (Except FsModelError ℕ) → Nodes
  | t, (op, _) :: ops, .ok n :: results => replay (op.effect t n) ops results
  | t, _ :: ops, .error _ :: results => replay t ops results
  | t, _, _ => t

/-- The buffered bytes are out of reach of the operation, or lie within the new size. -/
def Unaffected (b : WriteBuffer) : Op → Prop
  | .call _ => True
  | .setSize p n => b.content = [] ∨ b.path ≠ p ∨ b.offset + b.content.length ≤ n
  | .rename a c => b.content = [] ∨ a = c ∨ ¬a <+: b.path ∧ ¬c <+: b.path
  | .remove p => b.content = [] ∨ ¬p <+: b.path

def AllUnaffected : FileSystem L → List (Op × Env) → Prop
  | _, [] => True
  | fs, (op, env) :: ops => Unaffected fs.writeBuffer op ∧ AllUnaffected (op.run fs env).2 ops

section Steps

variable {fs : FileSystem L} {env : Env} {n : ℕ}

theorem call_effect (hroom : fs.writeBuffer.HasRoom) {call : Call}
    (hok : (call.run fs env).1 = .ok n) :
    (call.run fs env).2.writeBuffer.HasRoom ∧
      view (call.run fs env).2 = (Op.call call).effect (view fs) n := by
  have hcap : 0 < fs.writeBuffer.capacity := Nat.lt_of_le_of_lt (Nat.zero_le _) hroom
  cases call with
  | write p off data =>
    have hd : ∀ w ∈ (fs.writeBuffer.stageWrite p off data).uploads, w.data ≠ [] := fun w hw =>
      WriteBuffer.stageWrite_nonempty hcap hw
    simp only [Call.run, FileSystem.writeFile] at hok ⊢
    obtain ⟨sent, hsent⟩ : ∃ sent, sent = { fs with
        writeBuffer := (fs.writeBuffer.stageWrite p off data).buffer }.uploadAll
          (fs.writeBuffer.stageWrite p off data).uploads env := ⟨_, rfl⟩
    rw [← hsent] at hok ⊢
    cases hres : sent.1 with
    | error e => rw [hres] at hok; cases hok
    | ok u =>
      rw [hres] at hok
      injection hok with hok
      rw [hsent] at hres ⊢
      obtain ⟨hn, hb⟩ := uploadAll_ok _ hd hres
      refine ⟨by rw [hb]; exact WriteBuffer.stageWrite_hasRoom hroom p off data, ?_⟩
      rw [view, hb, hn, ← hok]
      exact WriteBuffer.stageWrite_view fileStore fs.writeBuffer p off data fs.remote.nodes
  | flush =>
    have hd : ∀ w ∈ fs.writeBuffer.stageFlush.1.toList, w.data ≠ [] := fun w hw =>
      WriteBuffer.stageFlush_nonempty hw
    simp only [Call.run, FileSystem.flushWriteBuffer] at hok ⊢
    cases hres : ({ fs with writeBuffer := fs.writeBuffer.stageFlush.2 }.uploadAll
        fs.writeBuffer.stageFlush.1.toList env).1 with
    | error e => rw [hres] at hok; cases hok
    | ok u =>
      obtain ⟨hn, hb⟩ := uploadAll_ok _ hd hres
      refine ⟨by rw [hb]; exact WriteBuffer.stageFlush_hasRoom hroom, ?_⟩
      rw [view_of_flushed (by rw [hb]; exact WriteBuffer.stageFlush_content _), hn]
      exact WriteBuffer.stageFlush_view fileStore fs.writeBuffer fs.remote.nodes

/-- The buffered bytes sent before an operation or after it, when it does not affect them. -/
theorem setSize_view {b : WriteBuffer} {t : Nodes} {p : Path} {size : ℕ}
    (h : Unaffected b (.setSize p size)) (hp : t p ≠ none) :
    b.view fileStore (t.setSize p size) = (b.view fileStore t).setSize p size := by
  by_cases hc : b.content = []
  · rw [WriteBuffer.view_of_empty _ hc, WriteBuffer.view_of_empty _ hc]
  · have hd : b.getContent.data ≠ [] := hc
    rw [WriteBuffer.view, WriteBuffer.view, apply_of_ne _ _ hd, apply_of_ne _ _ hd]
    by_cases hq : b.path = p
    · have hlen := (h.resolve_left hc).resolve_left (fun hne => hne hq)
      subst hq
      exact (Nodes.write_setSize_self t hp hlen).symm
    · exact (Nodes.write_setSize_ne t hq _ _ _).symm

theorem rename_view {b : WriteBuffer} {t : Nodes} {p q : Path}
    (h : Unaffected b (.rename p q)) :
    b.view fileStore (t.rename p q) = (b.view fileStore t).rename p q := by
  by_cases hc : b.content = []
  · rw [WriteBuffer.view_of_empty _ hc, WriteBuffer.view_of_empty _ hc]
  · have hd : b.getContent.data ≠ [] := hc
    rw [WriteBuffer.view, WriteBuffer.view, apply_of_ne _ _ hd, apply_of_ne _ _ hd]
    exact (Nodes.write_rename t (h.resolve_left hc) _ _).symm

theorem remove_view {b : WriteBuffer} {t : Nodes} {p : Path} (h : Unaffected b (.remove p)) :
    b.view fileStore (t.remove p) = (b.view fileStore t).remove p := by
  by_cases hc : b.content = []
  · rw [WriteBuffer.view_of_empty _ hc, WriteBuffer.view_of_empty _ hc]
  · have hd : b.getContent.data ≠ [] := hc
    have hne : b.path ≠ p := by
      intro he
      exact h.resolve_left hc (he ▸ List.prefix_refl _)
    rw [WriteBuffer.view, WriteBuffer.view, apply_of_ne _ _ hd, apply_of_ne _ _ hd]
    exact (Nodes.write_remove t hne _ _).symm

/-- The step lemma: an operation that succeeds has its effect on the server plus the
buffered bytes. -/
theorem run_effect (hroom : fs.writeBuffer.HasRoom) {op : Op} (hun : Unaffected fs.writeBuffer op)
    (hok : (op.run fs env).1 = .ok n) :
    (op.run fs env).2.writeBuffer.HasRoom ∧
      view (op.run fs env).2 = op.effect (view fs) n := by
  cases op with
  | call c => exact call_effect hroom hok
  | setSize p size =>
    simp only [Op.run] at hok ⊢
    cases hres : (fs.setAttributes p (SetAttr.ofSize size) env).1 with
    | error e => rw [hres] at hok; cases hok
    | ok a =>
      obtain ⟨r, hset, -, hrun⟩ := FileSystem.setAttributes_ok hres
      obtain ⟨hn, b, hb⟩ := Remote.setAttributes_size (n := size) rfl hset
      rw [hrun]
      refine ⟨hroom, ?_⟩
      rw [view, FileSystem.onCache_remote, FileSystem.onCache_writeBuffer, hn]
      exact setSize_view hun (by rw [hb]; simp)
  | rename a b =>
    simp only [Op.run] at hok ⊢
    cases hres : (fs.rename a b RenameFlags.empty env).1 with
    | error e => rw [hres] at hok; cases hok
    | ok u =>
      obtain ⟨r, hren, hrun⟩ := FileSystem.rename_ok hres
      rw [hrun]
      refine ⟨hroom, ?_⟩
      rw [view, FileSystem.onCache_remote, FileSystem.onCache_writeBuffer,
        Remote.rename_nodes hren]
      exact rename_view hun
  | remove p =>
    simp only [Op.run] at hok ⊢
    cases hres : (fs.remove p env).1 with
    | error e => rw [hres] at hok; cases hok
    | ok u =>
      obtain ⟨r, hrem, hrun⟩ := FileSystem.remove_ok hres
      rw [hrun]
      refine ⟨hroom, ?_⟩
      rw [view, FileSystem.onCache_remote, FileSystem.onCache_writeBuffer,
        Remote.remove_nodes hrem]
      exact remove_view hun

end Steps

theorem runOps_view (ops : List (Op × Env)) : ∀ fs : FileSystem L,
    fs.writeBuffer.HasRoom → AllUnaffected fs ops →
    (∀ r ∈ (runOps fs ops).1, ∃ n, r = .ok n) →
    (runOps fs ops).2.writeBuffer.HasRoom ∧
      view (runOps fs ops).2 = replay (view fs) ops (runOps fs ops).1 := by
  induction ops with
  | nil => exact fun fs hroom _ _ => ⟨hroom, rfl⟩
  | cons head ops ih =>
    obtain ⟨op, env⟩ := head
    rintro fs hroom ⟨hun, hrest⟩ hok
    obtain ⟨n, hn⟩ := hok _ List.mem_cons_self
    obtain ⟨hroom', hview⟩ := run_effect hroom hun hn
    obtain ⟨hroom'', hview'⟩ := ih _ hroom' hrest fun r hr => hok r (List.mem_cons_of_mem _ hr)
    refine ⟨hroom'', hview'.trans ?_⟩
    rw [runOps, hn, replay, hview]

end ClientProgramOrder
