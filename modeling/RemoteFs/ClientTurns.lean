import RemoteFs.ClientCalls

/-! # A run of calls and the servers that they leave

A call whose answer is an error may have been carried out nevertheless, or in part: the answer
was lost, or the server failed in a later step. And what the tree leaves out goes on behind every
call: access times, and the length and the times of a directory whose names change. So a turn
comes with the server as its call leaves it. -/
namespace ClientTurns

open ClientCalls
open ClientFileSystem
open ClientMemory
open ClientPageCache
open OsPaths
open RemoteTree

variable {L : PageLimits}

structure Turn where
  op : Op
  env : Env
  left : Remote

def Turn.run (fs : FileSystem L) (turn : Turn) : FileSystem L :=
  { (turn.op.run fs turn.env).2 with remote := turn.left }

def Turn.fails (fs : FileSystem L) (turn : Turn) : Prop :=
  ∃ e, (turn.op.run fs turn.env).1 = .error e

def runTurns : FileSystem L → List Turn → FileSystem L
  | fs, [] => fs
  | fs, turn :: turns => runTurns (turn.run fs) turns

def Along (P : FileSystem L → Turn → Prop) : FileSystem L → List Turn → Prop
  | _, [] => True
  | fs, turn :: turns => P fs turn ∧ Along P (turn.run fs) turns

def changes : Op → Bool
  | .read _ _ _ | .getAttributes _ | .readSymlink _ | .readdir _ | .invalidate _ => false
  | _ => true

def Touches (fs : FileSystem L) (q : Path) : Op → Prop
  | .createFile p _ _ | .mkdir p | .createSymlink p _ | .remove p => ∃ name, q.child name = p
  | .rename a b _ => a ≠ b ∧ ∃ name, q.child name = a ∨ q.child name = b
  | op => ∃ w ∈ (op.staged fs.writeBuffer).1,
      fs.remote.nodes w.key = none ∧ ∃ name, q.child name = w.key

/-- The same object, but for its access and change times. -/
structure Alike (r left : Remote) (q : Path) : Prop where
  nodes : left.nodes q = r.nodes q
  perm : (left.info q).perm = (r.info q).perm
  uid : (left.info q).uid = (r.info q).uid
  gid : (left.info q).gid = (r.info q).gid
  mtime : (left.info q).mtime = (r.info q).mtime

structure StaysDirectory (r left : Remote) (q : Path) : Prop where
  before : ∃ len, r.nodes q = some (.directory len)
  after : ∃ len, left.nodes q = some (.directory len)

def Leaves (fs : FileSystem L) (turn : Turn) : Prop :=
  turn.fails fs ∧ changes turn.op = true ∨
    ∀ q, Alike (turn.op.run fs turn.env).2.remote turn.left q ∨
      Touches fs q turn.op ∧ StaysDirectory (turn.op.run fs turn.env).2.remote turn.left q

section Servers

variable {r left : Remote} {p : Path}

theorem Alike.refl (r : Remote) (q : Path) : Alike r r q := ⟨rfl, rfl, rfl, rfl, rfl⟩

theorem holds_left (h : Alike r left p ∨ StaysDirectory r left p) (x : ℕ) (v : UInt8) :
    left.Holds p x v ↔ r.Holds p x v := by
  rcases h with h | h
  · rw [Remote.Holds, Remote.Holds, h.nodes]
  · obtain ⟨n, hn⟩ := h.before
    obtain ⟨m, hm⟩ := h.after
    exact iff_of_false (fun hv => hv.not_directory hm) fun hv => hv.not_directory hn

theorem StaysDirectory.not_file (h : StaysDirectory r left p)
    (hfile : ∃ bytes, r.nodes p = some (.file bytes)) : False := by
  obtain ⟨n, hn⟩ := h.before
  obtain ⟨bytes, hf⟩ := hfile
  cases hn.symm.trans hf

end Servers

section Runs

variable {fs : FileSystem L} {turn : Turn} {turns : List Turn}

/-- A call that sends no chunk and is about no name. -/
theorem nothing_sent {q : Path} (h : ∃ w ∈ ([] : List ClientWriteBuffer.Chunk),
    fs.remote.nodes w.key = none ∧ ∃ name, q.child name = w.key) : False := by
  obtain ⟨w, hw, -⟩ := h
  exact List.not_mem_nil hw

theorem leaves_self (op : Op) (env : Env) :
    Leaves fs ⟨op, env, (op.run fs env).2.remote⟩ :=
  Or.inr fun q => Or.inl (Alike.refl _ q)

/-- A call that is carried out, or that asks for nothing, leaves the server that it says. -/
theorem Leaves.settled (h : Leaves fs turn) (hno : ¬(turn.fails fs ∧ changes turn.op = true))
    (q : Path) : Alike (turn.op.run fs turn.env).2.remote turn.left q ∨
      Touches fs q turn.op ∧ StaysDirectory (turn.op.run fs turn.env).2.remote turn.left q :=
  h.resolve_left hno q

theorem Leaves.holds (h : Leaves fs turn) (hno : ¬(turn.fails fs ∧ changes turn.op = true))
    (q : Path) (x : ℕ) (v : UInt8) :
    turn.left.Holds q x v ↔ (turn.op.run fs turn.env).2.remote.Holds q x v :=
  holds_left ((h.settled hno q).imp_right And.right) x v

theorem run_readBuffer_capacity (fs : FileSystem L) (turn : Turn) :
    (turn.run fs).readBuffer.capacity = fs.readBuffer.capacity :=
  (run_buffers fs turn.op turn.env).2

theorem runTurns_capacity (turns : List Turn) : ∀ fs : FileSystem L,
    (runTurns fs turns).readBuffer.capacity = fs.readBuffer.capacity := by
  induction turns with
  | nil => exact fun _ => rfl
  | cons turn turns ih => exact fun fs => (ih (turn.run fs)).trans (run_readBuffer_capacity fs turn)

end Runs

end ClientTurns
