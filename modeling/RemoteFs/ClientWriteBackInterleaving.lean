import RemoteFs.ClientWriteBack

/-! # Write-back by concurrent callers

The lock covers one step on the buffer; the chunks a call takes out are sent afterwards,
one by one, while other calls go on. Every upload succeeds here. -/
namespace ClientWriteBackInterleaving

open ClientFileSystem
open ClientPageCache
open ClientWriteBack
open ClientWriteBuffer
open OsPaths
open RemoteTree
open WriteLog

/-- A call after its buffer step: what it still has to send, what it has sent, and how
many writes were accepted before it. It returns once nothing is left to send. -/
structure Task where
  isFlush : Bool
  pending : List Chunk
  sent : List Chunk
  mark : ℕ
  deriving DecidableEq, Repr

/-- The calls stand in the order of their buffer steps, and `accepted` is the log of what
these steps accepted; no step reads it. -/
structure State where
  buffer : WriteBuffer
  nodes : Nodes
  tasks : List Task
  accepted : List Chunk

def initial (b : WriteBuffer) (nodes : Nodes) : State := ⟨b, nodes, [], []⟩

inductive Event where
  | write (path : Path) (offset : ℕ) (data : List UInt8)
  | flush
  | upload (i : ℕ)
  deriving DecidableEq, Repr

def inFlight (tasks : List Task) : List Chunk := tasks.flatMap Task.pending

def Enabled (s : State) : Event → Prop
  | .upload i => ∃ t w ws, s.tasks[i]? = some t ∧ t.pending = w :: ws
  | _ => True

def next (s : State) : Event → State
  | .write path offset data =>
    let staged := s.buffer.stageWrite path offset data
    { s with
      buffer := staged.buffer
      tasks := s.tasks ++ [⟨false, staged.uploads, [], s.accepted.length⟩]
      accepted := s.accepted ++ [⟨path, offset, data.take staged.written⟩] }
  | .flush =>
    let staged := s.buffer.stageFlush
    { s with
      buffer := staged.2
      tasks := s.tasks ++ [⟨true, staged.1.toList, [], s.accepted.length⟩] }
  | .upload i =>
    match s.tasks[i]? with
    | some ⟨isFlush, w :: ws, sent, mark⟩ =>
      { s with
        nodes := s.nodes.write w.key w.offset w.data
        tasks := s.tasks.set i ⟨isFlush, ws, sent ++ [w], mark⟩ }
    | _ => s

inductive Execution (P : State → Event → Prop) : State → State → Prop where
  | refl (s) : Execution P s s
  | tail {s u e} : Execution P s u → Enabled u e → P u e → Execution P s (next u e)

/-- No upload overtakes an older chunk on the same range, and a flush returns only when
no older chunk is on its way. -/
def Orderly (s : State) : Event → Prop
  | .write _ _ _ => True
  | .flush => s.buffer.content = [] → inFlight s.tasks = []
  | .upload i => ∀ t w ws, s.tasks[i]? = some t → t.pending = w :: ws →
      (t.isFlush = true → inFlight (s.tasks.take i) = []) ∧
        ∀ v ∈ inFlight (s.tasks.take i), v.Disjoint w

structure Coherent (nodes₀ : Nodes) (s : State) : Prop where
  room : s.buffer.HasRoom
  nonempty : ∀ t ∈ s.tasks, ∀ w ∈ t.pending, w.data ≠ []
  mark_le : ∀ t ∈ s.tasks, t.mark ≤ s.accepted.length
  log : s.buffer.view fileStore (fileStore.applyAll s.nodes (inFlight s.tasks)) =
    fileStore.applyAll nodes₀ s.accepted
  flushed : ∀ pre t post, s.tasks = pre ++ t :: post → t.isFlush = true →
    ∃ later, (∀ w ∈ later, ∃ u ∈ post, w ∈ u.sent) ∧
      fileStore.applyAll s.nodes (inFlight (pre ++ [t])) =
        fileStore.applyAll (fileStore.applyAll nodes₀ (s.accepted.take t.mark)) later
  settled : ∀ pre t post, s.tasks = pre ++ t :: post → t.isFlush = true → t.pending = [] →
    inFlight pre = []

section Lists

@[simp] theorem inFlight_append (a b : List Task) :
    inFlight (a ++ b) = inFlight a ++ inFlight b := List.flatMap_append

@[simp] theorem inFlight_cons (t : Task) (a : List Task) :
    inFlight (t :: a) = t.pending ++ inFlight a := List.flatMap_cons

@[simp] theorem inFlight_nil : inFlight [] = [] := rfl

theorem split_snoc {α : Type*} {l pre post : List α} {x t : α}
    (h : l ++ [x] = pre ++ t :: post) :
    (pre = l ∧ t = x ∧ post = []) ∨ ∃ post', l = pre ++ t :: post' ∧ post = post' ++ [x] := by
  rcases List.eq_nil_or_concat post with rfl | ⟨post', y, rfl⟩
  · left
    obtain ⟨h₁, h₂⟩ := List.append_inj' h rfl
    injection h₂ with h₂
    exact ⟨h₁.symm, h₂.symm, rfl⟩
  · right
    rw [List.concat_eq_append, ← List.cons_append, ← List.append_assoc] at h
    obtain ⟨h₁, h₂⟩ := List.append_inj' h rfl
    injection h₂ with h₂
    exact ⟨post', h₁, by rw [List.concat_eq_append, h₂]⟩

theorem split_two {α : Type*} {A B pre post : List α} {t u : α}
    (h : A ++ t :: B = pre ++ u :: post) :
    (∃ c, A = pre ++ u :: c ∧ post = c ++ t :: B) ∨ (pre = A ∧ u = t ∧ post = B) ∨
      ∃ a, pre = A ++ t :: a ∧ B = a ++ u :: post := by
  rcases List.append_eq_append_iff.mp h with ⟨a, hpre, hrest⟩ | ⟨c, hA, hrest⟩
  · cases a with
    | nil =>
      injection hrest with h₁ h₂
      exact Or.inr (Or.inl ⟨by rw [hpre, List.append_nil], h₁.symm, h₂.symm⟩)
    | cons x a =>
      injection hrest with h₁ h₂
      exact Or.inr (Or.inr ⟨a, by rw [hpre, h₁], h₂⟩)
  · cases c with
    | nil =>
      injection hrest with h₁ h₂
      exact Or.inr (Or.inl ⟨by rw [hA, List.append_nil], h₁, h₂⟩)
    | cons x c =>
      injection hrest with h₁ h₂
      exact Or.inl ⟨c, by rw [hA, h₁], h₂⟩

theorem split_at {α : Type*} {l : List α} {i : ℕ} {t : α} (h : l[i]? = some t) :
    l = l.take i ++ t :: l.drop (i + 1) ∧ ∀ u, l.set i u = l.take i ++ u :: l.drop (i + 1) := by
  obtain ⟨hi, ht⟩ := List.getElem?_eq_some_iff.mp h
  refine ⟨?_, fun u => ?_⟩
  · rw [← ht, ← List.drop_eq_getElem_cons hi, List.take_append_drop]
  · rw [List.set_eq_take_append_cons_drop, if_pos hi]

end Lists

variable {nodes₀ : Nodes} {s : State}

theorem initial_coherent {b : WriteBuffer} (hb : b.content = []) (hcap : 0 < b.capacity) :
    Coherent nodes₀ (initial b nodes₀) := by
  refine ⟨hasRoom_of_empty hb hcap, ?_, ?_, WriteBuffer.view_of_empty _ hb _, ?_, ?_⟩
  · intro t ht; cases ht
  · intro t ht; cases ht
  · intro pre t post h; exact (List.append_ne_nil_of_right_ne_nil pre (by simp) h.symm).elim
  · intro pre t post h; exact (List.append_ne_nil_of_right_ne_nil pre (by simp) h.symm).elim

/-- A buffer step appends a task; a flush leaves the buffer empty, and has nothing to send
only if nothing was on its way. -/
theorem staged_coherent (h : Coherent nodes₀ s) {b : WriteBuffer} {t : Task}
    {more : List Chunk} (hroom : b.HasRoom) (hne : ∀ w ∈ t.pending, w.data ≠ [])
    (hmark : t.mark = s.accepted.length)
    (hview : ∀ r, b.view fileStore (fileStore.applyAll r t.pending) =
      fileStore.applyAll (s.buffer.view fileStore r) more)
    (hflush : t.isFlush = true → b.content = [] ∧ more = [] ∧
      (t.pending = [] → inFlight s.tasks = [])) :
    Coherent nodes₀ ⟨b, s.nodes, s.tasks ++ [t], s.accepted ++ more⟩ := by
  have hlog : b.view fileStore (fileStore.applyAll s.nodes (inFlight (s.tasks ++ [t]))) =
      fileStore.applyAll nodes₀ (s.accepted ++ more) := by
    rw [inFlight_append, inFlight_cons, inFlight_nil, List.append_nil, applyAll_append, hview,
      h.log, applyAll_append]
  refine ⟨hroom, ?_, ?_, hlog, ?_, ?_⟩
  · intro u hu w hw
    rcases List.mem_append.mp hu with hu | hu
    · exact h.nonempty u hu w hw
    · obtain rfl := List.mem_singleton.mp hu
      exact hne w hw
  · intro u hu
    rw [List.length_append]
    rcases List.mem_append.mp hu with hu | hu
    · exact (h.mark_le u hu).trans (Nat.le_add_right _ _)
    · obtain rfl := List.mem_singleton.mp hu
      exact hmark.le.trans (Nat.le_add_right _ _)
  · intro pre u post hsplit hu
    rcases split_snoc hsplit with ⟨rfl, rfl, rfl⟩ | ⟨post', hold, rfl⟩
    · obtain ⟨hempty, rfl, -⟩ := hflush hu
      refine ⟨[], fun w hw => (List.not_mem_nil hw).elim, ?_⟩
      rw [WriteBuffer.view_of_empty _ hempty] at hlog
      rw [hmark, List.append_nil, List.take_length, applyAll_nil, hlog, List.append_nil]
    · obtain ⟨later, hlater, heq⟩ := h.flushed pre u post' hold hu
      have hle := h.mark_le u (by rw [hold]; simp)
      refine ⟨later, ?_, ?_⟩
      · intro w hw
        obtain ⟨x, hx, hs⟩ := hlater w hw
        exact ⟨x, List.mem_append_left _ hx, hs⟩
      · rw [List.take_append_of_le_length hle]
        exact heq
  · intro pre u post hsplit hu hdone
    rcases split_snoc hsplit with ⟨rfl, rfl, rfl⟩ | ⟨post', hold, rfl⟩
    · exact (hflush hu).2.2 hdone
    · exact h.settled pre u post' hold hu hdone

theorem write_coherent (h : Coherent nodes₀ s) (path : Path) (offset : ℕ) (data : List UInt8) :
    Coherent nodes₀ (next s (.write path offset data)) := by
  have hcap : 0 < s.buffer.capacity := Nat.lt_of_le_of_lt (Nat.zero_le _) h.room
  refine staged_coherent h (WriteBuffer.stageWrite_hasRoom h.room path offset data)
    (fun w hw => WriteBuffer.stageWrite_nonempty hcap hw) rfl ?_ ?_
  · exact WriteBuffer.stageWrite_view fileStore s.buffer path offset data
  · intro hflush
    cases hflush

theorem flush_coherent (h : Coherent nodes₀ s) (ho : Orderly s .flush) :
    Coherent nodes₀ (next s .flush) := by
  have hempty := WriteBuffer.stageFlush_content s.buffer
  have hstaged : Coherent nodes₀ ⟨s.buffer.stageFlush.2, s.nodes,
      s.tasks ++ [⟨true, s.buffer.stageFlush.1.toList, [], s.accepted.length⟩],
      s.accepted ++ []⟩ := by
    refine staged_coherent h (WriteBuffer.stageFlush_hasRoom h.room)
      (fun w hw => WriteBuffer.stageFlush_nonempty hw) rfl ?_ fun _ => ⟨hempty, rfl, ?_⟩
    · intro r
      rw [WriteBuffer.view_of_empty _ hempty]
      exact WriteBuffer.stageFlush_view fileStore s.buffer r
    · intro hdone
      apply ho
      by_contra hc
      simp only [WriteBuffer.stageFlush, hc, ↓reduceIte, Option.toList_some] at hdone
      cases hdone
  rw [List.append_nil] at hstaged
  exact hstaged

/-- Sending a chunk that meets none of the older ones in flight. -/
theorem applyAll_after (S : Store Nodes Path UInt8) (s : Nodes) (ws : List Chunk) (w : Chunk)
    (h : ∀ v ∈ ws, v.Disjoint w) :
    S.applyAll (S.apply s w) ws = S.apply (S.applyAll s ws) w := by
  have := applyAll_promote S s ws [] w h
  rw [List.append_nil, applyAll_append] at this
  exact this.symm

structure Sends (t t' : Task) (w : Chunk) : Prop where
  pending : t.pending = w :: t'.pending
  sent : t'.sent = t.sent ++ [w]
  isFlush : t'.isFlush = t.isFlush
  mark : t'.mark = t.mark

theorem upload_next {i : ℕ} (he : Enabled s (.upload i)) (ho : Orderly s (.upload i))
    (hne : ∀ t ∈ s.tasks, ∀ w ∈ t.pending, w.data ≠ []) :
    ∃ A t t' B w, s.tasks = A ++ t :: B ∧ Sends t t' w ∧
      (t.isFlush = true → inFlight A = []) ∧ (∀ v ∈ inFlight A, v.Disjoint w) ∧
      next s (.upload i) =
        { s with nodes := fileStore.apply s.nodes w, tasks := A ++ t' :: B } := by
  obtain ⟨⟨isFlush, pending, sent, mark⟩, w, ws, hi, hp⟩ := he
  obtain ⟨hquiet, hdisj⟩ := ho _ w ws hi hp
  dsimp only at hp
  subst hp
  obtain ⟨hsplit, hset⟩ := split_at hi
  have hwd : w.data ≠ [] :=
    hne _ (by rw [hsplit]; exact List.mem_append_right _ List.mem_cons_self) w List.mem_cons_self
  refine ⟨_, _, ⟨isFlush, ws, sent ++ [w], mark⟩, _, w, hsplit, ⟨rfl, rfl, rfl, rfl⟩, hquiet,
    hdisj, ?_⟩
  simp only [next, hi]
  rw [hset, apply_of_ne _ _ hwd]
  rfl

theorem inFlight_sends {A : List Task} {t t' : Task} {w : Chunk} (hsend : Sends t t' w)
    (hdisj : ∀ v ∈ inFlight A, v.Disjoint w) (nodes : Nodes) (B : List Task) :
    fileStore.applyAll (fileStore.apply nodes w) (inFlight (A ++ t' :: B)) =
      fileStore.applyAll nodes (inFlight (A ++ t :: B)) := by
  rw [inFlight_append, inFlight_cons, inFlight_append, inFlight_cons, hsend.pending]
  exact (applyAll_promote fileStore nodes (inFlight A) (t'.pending ++ inFlight B) w hdisj).symm

/-- A flush that is older than the sender: the chunk lands behind what it has to send. -/
theorem flushed_sends {pre c B : List Task} {u t t' : Task} {w : Chunk} {nodes base : Nodes}
    (hsend : Sends t t' w) (hdisj : ∀ v ∈ inFlight (pre ++ u :: c), v.Disjoint w)
    (h : ∃ later, (∀ v ∈ later, ∃ x ∈ c ++ t :: B, v ∈ x.sent) ∧
      fileStore.applyAll nodes (inFlight (pre ++ [u])) = fileStore.applyAll base later) :
    ∃ later, (∀ v ∈ later, ∃ x ∈ c ++ t' :: B, v ∈ x.sent) ∧
      fileStore.applyAll (fileStore.apply nodes w) (inFlight (pre ++ [u])) =
        fileStore.applyAll base later := by
  obtain ⟨later, hlater, heq⟩ := h
  have ht' : t' ∈ c ++ t' :: B := List.mem_append_right _ List.mem_cons_self
  refine ⟨later ++ [w], ?_, ?_⟩
  · intro v hv
    rcases List.mem_append.mp hv with hv | hv
    · obtain ⟨x, hx, hsent⟩ := hlater v hv
      rcases List.mem_append.mp hx with hx | hx
      · exact ⟨x, List.mem_append_left _ hx, hsent⟩
      · rcases List.mem_cons.mp hx with rfl | hx
        · refine ⟨t', ht', ?_⟩
          rw [hsend.sent]
          exact List.mem_append_left _ hsent
        · exact ⟨x, List.mem_append_right _ (List.mem_cons_of_mem _ hx), hsent⟩
    · obtain rfl := List.mem_singleton.mp hv
      refine ⟨t', ht', ?_⟩
      rw [hsend.sent]
      exact List.mem_append_right _ (List.mem_singleton_self _)
  · have hsub : ∀ v ∈ inFlight (pre ++ [u]), v.Disjoint w := by
      intro v hv
      apply hdisj
      simp only [inFlight_append, inFlight_cons, inFlight_nil, List.append_nil,
        List.mem_append] at hv ⊢
      tauto
    rw [applyAll_after fileStore _ _ _ hsub, heq, applyAll_append]
    rfl

theorem upload_coherent (h : Coherent nodes₀ s) {i : ℕ} (he : Enabled s (.upload i))
    (ho : Orderly s (.upload i)) : Coherent nodes₀ (next s (.upload i)) := by
  obtain ⟨A, t, t', B, w, hsplit, hsend, hquiet, hdisj, hnext⟩ := upload_next he ho h.nonempty
  have ht : t ∈ s.tasks := by
    rw [hsplit]
    exact List.mem_append_right _ List.mem_cons_self
  have hmem : ∀ {u}, u ∈ A ++ t' :: B → u = t' ∨ u ∈ s.tasks := by
    intro u hu
    rw [hsplit]
    rcases List.mem_append.mp hu with hu | hu
    · exact Or.inr (List.mem_append_left _ hu)
    · rcases List.mem_cons.mp hu with rfl | hu
      · exact Or.inl rfl
      · exact Or.inr (List.mem_append_right _ (List.mem_cons_of_mem _ hu))
  rw [hnext]
  refine ⟨h.room, ?_, ?_, ?_, ?_, ?_⟩
  · intro u hu v hv
    rcases hmem hu with rfl | hu
    · exact h.nonempty t ht v (by rw [hsend.pending]; exact List.mem_cons_of_mem _ hv)
    · exact h.nonempty u hu v hv
  · intro u hu
    rcases hmem hu with rfl | hu
    · rw [hsend.mark]
      exact h.mark_le t ht
    · exact h.mark_le u hu
  · have hlog := h.log
    rw [hsplit] at hlog
    dsimp only
    rw [inFlight_sends hsend hdisj]
    exact hlog
  · intro pre u post hu hflush
    -- The flush is older than the sender, it is the sender, or it is younger.
    rcases split_two hu with ⟨c, rfl, rfl⟩ | ⟨rfl, rfl, rfl⟩ | ⟨a, rfl, rfl⟩
    · refine flushed_sends hsend hdisj (h.flushed pre u (c ++ t :: B) ?_ hflush)
      rw [hsplit, List.append_assoc, List.cons_append]
    · obtain ⟨later, hlater, heq⟩ := h.flushed pre t post hsplit (hsend.isFlush ▸ hflush)
      refine ⟨later, hlater, ?_⟩
      rw [inFlight_sends hsend hdisj, heq, hsend.mark]
    · obtain ⟨later, hlater, heq⟩ := h.flushed (A ++ t :: a) u post
        (by rw [hsplit, List.append_assoc, List.cons_append]) hflush
      refine ⟨later, hlater, ?_⟩
      rw [List.append_assoc, List.cons_append, inFlight_sends hsend hdisj]
      rw [List.append_assoc, List.cons_append] at heq
      exact heq
  · intro pre u post hu hflush hdone
    rcases split_two hu with ⟨c, rfl, rfl⟩ | ⟨rfl, rfl, rfl⟩ | ⟨a, rfl, rfl⟩
    · refine h.settled pre u (c ++ t :: B) ?_ hflush hdone
      rw [hsplit, List.append_assoc, List.cons_append]
    · exact hquiet (hsend.isFlush ▸ hflush)
    · have hold := h.settled (A ++ t :: a) u post
        (by rw [hsplit, List.append_assoc, List.cons_append]) hflush hdone
      rw [inFlight_append, inFlight_cons, hsend.pending] at hold
      simp at hold

/-- Every orderly step keeps the invariant. -/
theorem step_coherent (h : Coherent nodes₀ s) {e : Event} (he : Enabled s e)
    (ho : Orderly s e) : Coherent nodes₀ (next s e) := by
  cases e with
  | write path offset data => exact write_coherent h path offset data
  | flush => exact flush_coherent h ho
  | upload i => exact upload_coherent h he ho

theorem execution_coherent {u : State} (h : Coherent nodes₀ s) (hrun : Execution Orderly s u) :
    Coherent nodes₀ u := by
  induction hrun with
  | refl => exact h
  | tail _ he ho ih => exact step_coherent ih he ho

/-- Once all calls have returned and the buffer is empty, the server holds the accepted
writes in the order of their buffer steps. -/
def InOrder (nodes₀ : Nodes) (u : State) : Prop :=
  (∀ t ∈ u.tasks, t.pending = []) → u.buffer.content = [] →
    u.nodes = fileStore.applyAll nodes₀ u.accepted

/-- Behind a flush that has returned the server holds what was accepted before the flush,
with at most chunks of later calls on top. -/
def FlushesHold (nodes₀ : Nodes) (u : State) : Prop :=
  ∀ pre t post, u.tasks = pre ++ t :: post → t.isFlush = true → t.pending = [] →
    ∃ later, (∀ w ∈ later, ∃ v ∈ post, w ∈ v.sent) ∧
      u.nodes = fileStore.applyAll (fileStore.applyAll nodes₀ (u.accepted.take t.mark)) later

theorem orderly_write_back (b : WriteBuffer) (hb : b.content = []) (hcap : 0 < b.capacity)
    (nodes₀ : Nodes) (u : State) (hrun : Execution Orderly (initial b nodes₀) u) :
    InOrder nodes₀ u ∧ FlushesHold nodes₀ u := by
  have h := execution_coherent (initial_coherent hb hcap) hrun
  constructor
  · intro hdone hempty
    have hnone : inFlight u.tasks = [] := List.flatMap_eq_nil_iff.mpr hdone
    have hlog := h.log
    rw [WriteBuffer.view_of_empty _ hempty, hnone] at hlog
    exact hlog
  · intro pre t post hsplit hflush hdone
    obtain ⟨later, hlater, heq⟩ := h.flushed pre t post hsplit hflush
    refine ⟨later, hlater, ?_⟩
    rw [inFlight_append, inFlight_cons, hdone, h.settled pre t post hsplit hflush hdone] at heq
    exact heq

theorem orderly_write_back_flush :
    let path : Path := [.rootDir, .normal (.text "f")]
    let s := next (next (next (initial (.new 2) fun _ => none) (.write path 0 [1])) .flush)
      (.upload 1)
    InOrder (fun _ => none) s ∧ FlushesHold (fun _ => none) s := by
  intro path s
  refine orderly_write_back (.new 2) (by decide) (by decide) _ s
    (.tail (.tail (.tail (.refl _) trivial trivial) trivial ?_) ⟨_, _, _, rfl, rfl⟩ ?_)
  · intro h
    exact absurd h (by decide)
  · intro t w ws _ _
    exact ⟨fun _ => rfl, fun v hv => by cases hv⟩

/-- A chunk overtakes an older one on the same byte, and a flush returns while the byte
that was accepted before it is still on its way. -/
theorem interleavings_disorder :
    (∃ u, Execution (fun _ _ => True) (initial (.new 1) fun _ => none) u ∧
        ¬InOrder (fun _ => none) u) ∧
      ∃ u, Execution (fun _ _ => True) (initial (.new 1) fun _ => none) u ∧
        ¬FlushesHold (fun _ => none) u := by
  obtain ⟨path, hpath⟩ : ∃ path : Path, path = [.rootDir, .normal (.text "f")] := ⟨_, rfl⟩
  constructor
  · refine ⟨next (next (next (next (initial (.new 1) fun _ => none) (.write path 0 [1]))
      (.write path 0 [2])) (.upload 1)) (.upload 0), ?_, ?_⟩
    · subst hpath
      exact .tail (.tail (.tail (.tail (.refl _) trivial trivial) trivial trivial)
        ⟨_, _, _, rfl, rfl⟩ trivial) ⟨_, _, _, rfl, rfl⟩ trivial
    · intro h
      subst hpath
      have hf := congrFun (h (by decide) (by decide)) [.rootDir, .normal (.text "f")]
      revert hf
      decide
  · refine ⟨next (next (initial (.new 1) fun _ => none) (.write path 0 [1])) .flush, ?_, ?_⟩
    · exact .tail (.tail (.refl _) trivial trivial) trivial trivial
    · intro h
      subst hpath
      obtain ⟨later, hlater, heq⟩ := h [_] _ [] rfl rfl (by decide)
      obtain rfl : later = [] := by
        cases later with
        | nil => rfl
        | cons w later =>
          obtain ⟨v, hv, -⟩ := hlater w List.mem_cons_self
          cases hv
      have hf := congrFun heq [.rootDir, .normal (.text "f")]
      revert hf
      decide

section Sequential

variable {L : PageLimits}

theorem Execution.trans {P : State → Event → Prop} {s t u : State} (h₁ : Execution P s t)
    (h₂ : Execution P t u) : Execution P s u := by
  induction h₂ with
  | refl => exact h₁
  | tail _ he hp ih => exact .tail ih he hp

theorem send_all (ws : List Chunk) : ∀ (s : State) (pre : List Task) (t : Task),
    s.tasks = pre ++ [t] → t.pending = ws → (∀ w ∈ ws, w.data ≠ []) →
    ∃ u, Execution (fun _ _ => True) s u ∧ u.buffer = s.buffer ∧
      u.nodes = fileStore.applyAll s.nodes ws ∧ inFlight u.tasks = inFlight pre := by
  induction ws with
  | nil =>
    intro s pre t hs ht _
    refine ⟨s, .refl s, rfl, rfl, ?_⟩
    rw [hs, inFlight_append, inFlight_cons, ht, inFlight_nil, List.append_nil, List.append_nil]
  | cons w ws ih =>
    rintro s pre ⟨isFlush, pending, sent, mark⟩ hs ht hd
    dsimp only at ht
    subst ht
    have hi : s.tasks[pre.length]? = some ⟨isFlush, w :: ws, sent, mark⟩ := by
      rw [hs, List.getElem?_append_right le_rfl, Nat.sub_self]
      rfl
    have hnext : next s (.upload pre.length) = { s with
        nodes := s.nodes.write w.key w.offset w.data
        tasks := pre ++ [⟨isFlush, ws, sent ++ [w], mark⟩] } := by
      simp only [next, hi]
      rw [hs, List.set_append_right _ _ le_rfl, Nat.sub_self, List.set_cons_zero]
    obtain ⟨u, hu, hb, hn, hf⟩ := ih (next s (.upload pre.length)) pre _
      (by rw [hnext]) rfl (fun v hv => hd v (List.mem_cons_of_mem _ hv))
    have he : Enabled s (.upload pre.length) := ⟨_, w, ws, hi, rfl⟩
    refine ⟨u, Execution.trans (.tail (.refl s) he trivial) hu, ?_, ?_, hf⟩
    · rw [hb, hnext]
    · rw [hn, hnext, applyAll_cons, apply_of_ne _ _ (hd w List.mem_cons_self)]
      rfl

def Event.ofCall : Call → Event
  | .write path offset data => .write path offset data
  | .flush => .flush

/-- A call of the client's file system is its buffer step followed by its uploads: the
same buffer and the same files as when nothing comes in between. -/
theorem call_is_execution (fs : FileSystem L) (hroom : fs.writeBuffer.HasRoom) (call : Call)
    (env : Env) (hs : Served fs.remote (uploads fs.writeBuffer call) env)
    (hu : AllUtf8 (uploads fs.writeBuffer call)) (tasks : List Task) (accepted : List Chunk) :
    ∃ u, Execution (fun _ _ => True)
        (next ⟨fs.writeBuffer, fs.remote.nodes, tasks, accepted⟩ (.ofCall call)) u ∧
      u.buffer = (call.run fs env).2.writeBuffer ∧
      u.nodes = (call.run fs env).2.remote.nodes ∧ inFlight u.tasks = inFlight tasks := by
  have hcap : 0 < fs.writeBuffer.capacity := Nat.lt_of_le_of_lt (Nat.zero_le _) hroom
  cases call with
  | write path offset data =>
    have hd : ∀ w ∈ uploads fs.writeBuffer (.write path offset data), w.data ≠ [] :=
      fun w hw => WriteBuffer.stageWrite_nonempty hcap hw
    obtain ⟨fs', hrun, hbuf, hn, -⟩ := uploadAll_served
      { fs with writeBuffer := (fs.writeBuffer.stageWrite path offset data).buffer } hs hu hd
    rw [uploads] at hrun
    have hrun' : (Call.run fs (.write path offset data) env).2 = fs' := by
      rw [Call.run, FileSystem.writeFile, hrun]
    obtain ⟨u, hu, hb, hn', hf⟩ := send_all _ (next ⟨fs.writeBuffer, fs.remote.nodes, tasks,
      accepted⟩ (.write path offset data)) tasks _ rfl rfl hd
    exact ⟨u, hu, by rw [hb, hrun', hbuf]; rfl, by rw [hn', hrun', hn]; rfl, hf⟩
  | flush =>
    have hd : ∀ w ∈ uploads fs.writeBuffer .flush, w.data ≠ [] := fun w hw =>
      WriteBuffer.stageFlush_nonempty hw
    obtain ⟨fs', hrun, hbuf, hn, -⟩ := uploadAll_served
      { fs with writeBuffer := fs.writeBuffer.stageFlush.2 } hs hu hd
    have hrun' : (Call.run fs .flush env).2 = fs' := congrArg Prod.snd hrun
    obtain ⟨u, hu, hb, hn', hf⟩ := send_all _ (next ⟨fs.writeBuffer, fs.remote.nodes, tasks,
      accepted⟩ .flush) tasks _ rfl rfl hd
    exact ⟨u, hu, by rw [hb, hrun', hbuf]; rfl, by rw [hn', hrun', hn]; rfl, hf⟩

end Sequential

end ClientWriteBackInterleaving
