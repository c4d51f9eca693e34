import RemoteFs.ClientFrontEnds

/-! # A read in rounds, stage by stage

The rounds take bytes from the cached pages up to a position these lack, from the read buffer to
its end, from the pages again, and from one request. What each stage takes is told by what the
client has before the first round. -/
namespace ClientReadStages

open ClientAttributes
open ClientCache
open ClientFileSystem
open ClientFrontEnds
open ClientMemory
open ClientPageCache
open ClientPageCacheLoops
open ClientReadBuffer
open ClientRounds
open FileBytes
open OsPaths
open RemoteTree

variable {L : PageLimits}

structure Reading (L : PageLimits) where
  fs : FileSystem L
  path : Path
  offset : ℕ
  size : ℕ
  envs : ℕ → Env

/-- What is cached for the path before a round, and how many bytes there are by then. -/
structure Stage (L : PageLimits) where
  held : Held L
  taken : ℕ

namespace Reading

variable (r : Reading L) (s : Stage L)

def start : Stage L := ⟨entry r.fs r.path, 0⟩

def env : Env := r.envs s.taken

def position : ℕ := r.offset + s.taken

def looked : Held L :=
  s.held.look (lasts r.fs) r.path (asked r.fs r.path (r.env s)) (r.env s)

def found : Except FsModelError Attributes :=
  match (s.held (r.env s 0).now).bind CacheItem.getAttributes with
  | some a => .ok a
  | none => asked r.fs r.path (r.env s)

/-- The range is full, or the attributes end the file. -/
def ended : Bool :=
  decide (r.size ≤ s.taken) ||
    match r.found s with
    | .ok a => decide (a.size ≤ r.position s)
    | .error _ => false

def pageByte (x : ℕ) : Option UInt8 := (r.looked s (r.env s 3).now).bind fun it => it.byteAt x

def bufferByte (x : ℕ) : Option UInt8 := r.fs.readBuffer.byteAt (r.env s 4).now r.path x

/-- What is cached once bytes have been put, in the step `k` of the round. -/
def put (data : List UInt8) (k : ℕ) : Held L :=
  (r.looked s).write (lasts r.fs) r.path (r.position s) data (r.env s k).toMoment

/-- The pages, up to a position that they lack. -/
def fromPages : Stage L :=
  let n := run (r.pageByte s) (r.position s) (r.size - s.taken)
  if r.ended s = true ∨ n = 0 then s else ⟨r.looked s, s.taken + n⟩

def fromBuffer : Stage L :=
  let data := r.fs.readBuffer.read r.path (r.position s) (r.size - s.taken) (r.env s 4).now
  if r.ended s = true ∨ data = [] then s else ⟨r.put s data 5, s.taken + data.length⟩

/-- One request, for as much as the read buffer takes. -/
def fromServer (src : List UInt8) : Stage L :=
  let data := slice src (r.position s) r.fs.readBuffer.capacity
  if r.ended s = true ∨ data = [] then s
  else ⟨r.put s data 7, s.taken + min (r.size - s.taken) data.length⟩

def first : Stage L := r.fromPages r.start

def second : Stage L := r.fromBuffer r.first

def third : Stage L := r.fromPages r.second

def fourth (src : List UInt8) : Stage L := r.fromServer r.third src

/-- The pages lack the position that a stage has come to, or none is asked for. -/
def Lacks : Prop := r.ended s = true ∨ r.pageByte s (r.position s) = none

/-- What the stages take of the first bytes, as many as one request brings, is the file's, and
behind its end the pages have none. -/
structure TakesSource (src : List UInt8) : Prop where
  pages : ∀ i < r.fs.readBuffer.capacity, i < r.first.taken →
    r.pageByte r.start (r.offset + i) = src[r.offset + i]?
  buffer : ∀ i < r.fs.readBuffer.capacity, r.first.taken ≤ i → i < r.second.taken →
    r.bufferByte r.first (r.offset + i) = src[r.offset + i]?
  pagesAgain : ∀ i < r.fs.readBuffer.capacity, r.second.taken ≤ i → i < r.third.taken →
    r.pageByte r.second (r.offset + i) = src[r.offset + i]?
  behind : (r.fourth src).taken < r.fs.readBuffer.capacity → r.Lacks (r.fourth src)

def loop (left : FileSystem L) (data : List UInt8) :
    Except FsModelError (List UInt8) × FileSystem L :=
  PathFilesystem.readLoop r.path r.offset r.size r.envs left data

structure At (left : FileSystem L) : Prop where
  remote : left.remote = r.fs.remote
  capacity : left.readBuffer.capacity = r.fs.readBuffer.capacity
  lasts : lasts left = lasts r.fs
  held : ∀ t, (r.env s 0).now ≤ t → entry left r.path t = s.held t

/-- A stage that the loop goes through, with the bytes that it adds. -/
structure Takes (s s' : Stage L) (serves : ℕ → Option UInt8) (left : FileSystem L)
    (data : List UInt8) (left' : FileSystem L) (data' : List UInt8) : Prop where
  loop : r.loop left data = r.loop left' data'
  at_stage : r.At s' left'
  length : data'.length = s'.taken
  grows : data <+: data'
  bytes : ∀ i, s.taken ≤ i → i < s'.taken → data'[i]? = serves (r.offset + i)

variable {r s} {left : FileSystem L} {data : List UInt8} {t x : ℕ}

theorem forward (hclock : Clocks r.envs) : Forward (r.env s) := hclock.rounds s.taken

theorem At.asked (h : r.At s left) (env : Env) :
    asked left r.path env = asked r.fs r.path env := by
  rw [ClientRounds.asked, ClientRounds.asked, h.remote]

theorem At.looked (h : r.At s left) (hclock : Clocks r.envs) (ht : (r.env s 0).now ≤ t) :
    ClientRounds.looked left r.path (r.env s) t = r.looked s t := by
  have h₂ : (r.env s 0).now ≤ (r.env s 2).now := forward hclock (Nat.zero_le 2)
  unfold ClientRounds.looked Reading.looked
  rw [h.lasts, h.asked]
  exact Held.look_congr (h.held _ le_rfl) (h.held _ h₂) (h.held t ht)

theorem At.looked_earlier {t' : ℕ} {it : CacheItem L} (h : r.At s left) (hclock : Clocks r.envs)
    (ht : (r.env s 0).now ≤ t) (hle : t ≤ t') (hit : r.looked s t' = some it) :
    r.looked s t = some it := by
  rw [← h.looked hclock (ht.trans hle)] at hit
  rw [← h.looked hclock ht]
  exact ClientRounds.looked_earlier (forward hclock (Nat.zero_le 2)) ht hle hit

theorem At.cachedByte_eq (h : r.At s left) (hclock : Clocks r.envs) :
    cachedByte left r.path (r.env s) = r.pageByte s := by
  rw [ClientFrontEnds.cachedByte_eq (forward hclock)]
  funext x
  rw [lookedByte, pageByte, h.looked hclock (forward hclock (Nat.zero_le 3))]

theorem At.entry_behind (h : r.At s left) (hclock : Clocks r.envs) (ht : (r.env s 3).now ≤ t) :
    entry (behindLooks left r.path (r.env s)) r.path t = r.looked s t := by
  rw [entry_behindLooks (forward hclock) ht,
    h.looked hclock ((forward hclock (Nat.zero_le 3)).trans ht)]

theorem At.ended_iff (h : r.At s left) (hlt : s.taken < r.size) :
    Ended left r.path (r.position s) (r.env s) ↔ r.ended s = true := by
  have hfound : (left.getAttributes r.path (r.env s)).1 = r.found s := by
    rw [getAttributes_found, h.held _ le_rfl, h.asked]
    rfl
  rw [Ended, hfound, ended, decide_eq_false (Nat.not_le_of_lt hlt), Bool.false_or]
  cases r.found s with
  | error e => simp
  | ok a => simp

theorem behindLooks_lasts (fs : FileSystem L) (p : Path) (env : Env) :
    lasts (behindLooks fs p env) = lasts fs :=
  (lasts_cacheGet _ p (env 3).toMoment).trans (lasts_getAttributes fs p env)

theorem ended_of_full (h : r.size ≤ s.taken) : r.ended s = true := by
  rw [ended, decide_eq_true h, Bool.true_or]

theorem taken_lt (h : ¬r.ended s = true) : s.taken < r.size :=
  Nat.lt_of_not_le fun hfull => h (ended_of_full hfull)

theorem loop_ended (hlength : data.length = s.taken) (h : r.At s left)
    (hended : r.ended s = true) : ∃ left', r.loop left data = (.ok data, left') := by
  by_cases hlt : s.taken < r.size
  · have hended := (h.ended_iff hlt).mpr hended
    have hread := readFile_ended (r.size - s.taken) hended
    refine ⟨(left.readFile r.path (r.position s) (r.size - s.taken) (r.env s)).2, ?_⟩
    refine readLoop_end (hlength ▸ hlt) ?_
    rw [hlength]
    exact Prod.ext hread rfl
  · exact ⟨left, readLoop_full (by omega)⟩

theorem loop_round {bytes : List UInt8} {left' : FileSystem L} (hlength : data.length = s.taken)
    (hended : ¬r.ended s = true) (hbytes : bytes ≠ [])
    (hread : left.readFile r.path (r.position s) (r.size - s.taken) (r.env s) =
      (.ok bytes, left')) : r.loop left data = r.loop left' (data ++ bytes) := by
  refine readLoop_more hbytes (hlength ▸ taken_lt hended) ?_
  rw [hlength]
  exact hread

theorem loop_error {e : FsModelError} {left' : FileSystem L} (hlength : data.length = s.taken)
    (hended : ¬r.ended s = true)
    (hread : left.readFile r.path (r.position s) (r.size - s.taken) (r.env s) =
      (.error e, left')) : r.loop left data = (.error e, left') := by
  refine readLoop_error (hlength ▸ taken_lt hended) ?_
  rw [hlength]
  exact hread

theorem loop_nothing {left' : FileSystem L} (hlength : data.length = s.taken)
    (hended : ¬r.ended s = true)
    (hread : left.readFile r.path (r.position s) (r.size - s.taken) (r.env s) =
      (.ok [], left')) : r.loop left data = (.ok data, left') := by
  refine readLoop_end (hlength ▸ taken_lt hended) ?_
  rw [hlength]
  exact hread

/-- A stage that took bytes ends before the next round begins. -/
theorem At.next {held' : Held L} {n k : ℕ} {left' : FileSystem L} (hclock : Clocks r.envs)
    (h : r.At s left) (hn : 0 < n)
    (hremote : left'.remote = left.remote)
    (hcapacity : left'.readBuffer.capacity = left.readBuffer.capacity)
    (hlasts : ClientRounds.lasts left' = ClientRounds.lasts left)
    (hheld : ∀ t, (r.env s k).now ≤ t → entry left' r.path t = held' t) :
    r.At ⟨held', s.taken + n⟩ left' where
  remote := hremote.trans h.remote
  capacity := hcapacity.trans h.capacity
  lasts := hlasts.trans h.lasts
  held t ht := hheld t ((hclock.next _ _ (Nat.lt_add_of_pos_right hn) k 0).trans ht)

theorem Takes.nothing {serves : ℕ → Option UInt8} (h : r.At s left)
    (hlength : data.length = s.taken) : r.Takes s s serves left data left data where
  loop := rfl
  at_stage := h
  length := hlength
  grows := List.prefix_rfl
  bytes _ hle hlt := absurd hlt (Nat.not_lt_of_le hle)

/-- The bytes of a round, put behind those of the rounds before. -/
theorem Takes.of_round {s' : Stage L} {serves : ℕ → Option UInt8} {bytes : List UInt8}
    {left' : FileSystem L} (hlength : data.length = s.taken) (hended : ¬r.ended s = true)
    (hbytes : bytes ≠ [])
    (hread : left.readFile r.path (r.position s) (r.size - s.taken) (r.env s) =
      (.ok bytes, left')) (hat : r.At s' left') (htaken : s'.taken = s.taken + bytes.length)
    (hserved : ∀ i < bytes.length, bytes[i]? = serves (r.position s + i)) :
    r.Takes s s' serves left data left' (data ++ bytes) where
  loop := loop_round hlength hended hbytes hread
  at_stage := hat
  length := by rw [List.length_append, hlength, htaken]
  grows := List.prefix_append _ _
  bytes i hle hlt := by
    rw [List.getElem?_append_right (by omega), hlength, hserved _ (by omega)]
    congr 1
    unfold position
    omega

theorem Takes.result_byte {s' : Stage L} {serves : ℕ → Option UInt8} {left' : FileSystem L}
    {data' result : List UInt8} (h : r.Takes s s' serves left data left' data')
    (hgrown : data' <+: result) {i : ℕ} (hle : s.taken ≤ i) (hi : i < s'.taken) :
    result[i]? = serves (r.offset + i) := by
  obtain ⟨rest, rfl⟩ := hgrown
  rw [List.getElem?_append_left (h.length ▸ hi), h.bytes i hle hi]

section Pages

variable {src : List UInt8}

/-- The look at the attributes leaves the bytes of the pages as they are. -/
theorem At.pageByte_eq (h : r.At s left) (hclock : Clocks r.envs)
    (hsrc : r.fs.remote.nodes r.path = some (.file src)) :
    r.pageByte s x = (s.held (r.env s 3).now).bind fun it => it.byteAt x := by
  have h₃ : (r.env s 0).now ≤ (r.env s 3).now := forward hclock (Nat.zero_le 3)
  rw [pageByte, ← h.looked hclock h₃, ← h.held _ h₃]
  exact looked_byteAt (forward hclock (by decide : 2 ≤ 3)) fun a ha =>
    asked_kind hsrc ((h.asked _).symm.trans ha)

theorem fromPages_of_lacks (h : r.ended s = true ∨ r.pageByte s (r.position s) = none) :
    r.fromPages s = s := by
  unfold fromPages
  rcases h with hended | hnone
  · exact if_pos (.inl hended)
  · exact if_pos (.inr (run_eq_zero hnone))

theorem fromPages_le : s.taken ≤ (r.fromPages s).taken := by
  unfold fromPages
  dsimp only
  split
  · exact le_rfl
  · exact Nat.le_add_right _ _

theorem cachedBytes_served (item : Option (CacheItem L)) (offset size : ℕ) :
    ∀ i < (FileSystem.cachedBytes item offset size).length,
      (FileSystem.cachedBytes item offset size)[i]? =
        item.bind fun it => it.byteAt (offset + i) := by
  intro i hi
  match item with
  | some (.file f) => exact ((read_served f offset size).served i hi).symm
  | none => cases hi
  | some (.symLink _) => cases hi
  | some (.directory _) => cases hi

theorem fromPages_takes (hclock : Clocks r.envs) (h : r.At s left)
    (hlength : data.length = s.taken) :
    ∃ left' data', r.Takes s (r.fromPages s) (r.pageByte s) left data left' data' ∧
      left'.readBuffer = left.readBuffer := by
  by_cases hnone : r.ended s = true ∨
      run (r.pageByte s) (r.position s) (r.size - s.taken) = 0
  · rw [fromPages, if_pos hnone]
    exact ⟨left, data, .nothing h hlength, rfl⟩
  · rw [fromPages, if_neg hnone]
    obtain ⟨hended, hzero⟩ := not_or.mp hnone
    have hpos := Nat.pos_of_ne_zero hzero
    have hlt := Nat.sub_pos_of_lt (taken_lt hended)
    have hne : ¬Ended left r.path (r.position s) (r.env s) := by
      rwa [h.ended_iff (taken_lt hended)]
    have hpage := (run_pos hlt).mp hpos
    rw [← h.cachedByte_eq hclock] at hpage hpos ⊢
    have hrun := cachedByte_run left r.path (r.position s) (r.size - s.taken) (r.env s)
    have hbytes := cachedBytes_served
      (entry (left.getAttributes r.path (r.env s)).2 r.path (r.env s 3).now) (r.position s)
      (r.size - s.taken)
    have hread := readFile_cached hlt hne hpage
    obtain ⟨hremote, hbuffer⟩ := behindLooks_frame left r.path (r.env s)
    refine ⟨_, _, .of_round hlength hended ?_ hread (At.next hclock h hpos hremote
      (congrArg ReadBuffer.capacity hbuffer) (behindLooks_lasts ..) fun t =>
        h.entry_behind hclock) (by rw [hrun]) hbytes, hbuffer⟩
    rw [← List.length_pos_iff, ← hrun]
    exact hpos

theorem fromPages_lacks (hclock : Clocks r.envs) (h : r.At s left)
    (hlength : data.length = s.taken) (hsrc : r.fs.remote.nodes r.path = some (.file src)) :
    r.ended (r.fromPages s) = true ∨
      r.pageByte (r.fromPages s) (r.position (r.fromPages s)) = none := by
  by_cases hended : r.ended s = true
  · rw [fromPages_of_lacks (.inl hended)]
    exact .inl hended
  by_cases hzero : run (r.pageByte s) (r.position s) (r.size - s.taken) = 0
  · rw [fromPages, if_pos (.inr hzero)]
    right
    rw [← Option.not_isSome_iff_eq_none, ← run_pos (Nat.sub_pos_of_lt (taken_lt hended)), hzero]
    exact Nat.lt_irrefl 0
  · obtain ⟨left', data', htakes, -⟩ := fromPages_takes hclock h hlength
    have hstage : r.fromPages s =
        ⟨r.looked s, s.taken + run (r.pageByte s) (r.position s) (r.size - s.taken)⟩ :=
      if_neg (not_or.mpr ⟨hended, hzero⟩)
    have hat := htakes.at_stage
    rw [hstage] at hat ⊢
    by_cases hfull : run (r.pageByte s) (r.position s) (r.size - s.taken) < r.size - s.taken
    · right
      have hstop := run_stop hfull
      rw [hat.pageByte_eq hclock hsrc]
      have hlater := hclock.next s.taken _ (Nat.lt_add_of_pos_right (Nat.pos_of_ne_zero hzero))
      generalize run (r.pageByte s) (r.position s) (r.size - s.taken) = n at hstop hlater ⊢
      have hposition : r.position ⟨r.looked s, s.taken + n⟩ = r.position s + n :=
        (Nat.add_assoc _ _ _).symm
      rw [hposition]
      cases hlooked : r.looked s (r.envs (s.taken + n) 3).now with
      | none => exact congrArg (Option.bind · _) hlooked
      | some it =>
        have hbefore := h.looked_earlier hclock (forward hclock (Nat.zero_le 3)) (hlater 3 3)
          hlooked
        rw [pageByte, hbefore] at hstop
        exact (congrArg (Option.bind · _) hlooked).trans hstop
    · exact .inl (ended_of_full (by
        dsimp only
        omega))

end Pages

section Puts

variable {src bytes : List UInt8}

theorem At.entry_put {behind : FileSystem L} {k : ℕ} (h : r.At s left) (hclock : Clocks r.envs)
    (hk : 3 ≤ k) (hcache : behind.cache = (behindLooks left r.path (r.env s)).cache)
    (ht : (r.env s k).now ≤ t) :
    entry (behind.onCache fun c => cacheWriteFile c r.path (r.position s) bytes false
      (r.env s k).toMoment) r.path t = r.put s bytes k t := by
  have hentry : entry behind r.path = entry (behindLooks left r.path (r.env s)) r.path := by
    unfold entry
    rw [hcache]
  have hlasts : ClientRounds.lasts behind = ClientRounds.lasts r.fs := by
    rw [← h.lasts, ← behindLooks_lasts left r.path (r.env s)]
    exact lasts_of_cache hcache
  have h₃ : (r.env s 3).now ≤ (r.env s k).now := forward hclock hk
  rw [entry_write, hentry, hlasts]
  exact Held.write_congr (h.entry_behind hclock h₃) (h.entry_behind hclock (h₃.trans ht))

theorem readFile_behindPages (h : r.At s left) (hclock : Clocks r.envs)
    (hended : ¬r.ended s = true) (hlacks : r.pageByte s (r.position s) = none) :
    ¬Ended left r.path (r.position s) (r.env s) ∧
      ¬(cachedByte left r.path (r.env s) (r.position s)).isSome := by
  rw [h.ended_iff (taken_lt hended), h.cachedByte_eq hclock, hlacks]
  exact ⟨hended, Bool.false_ne_true⟩

theorem fromBuffer_takes (hclock : Clocks r.envs) (h : r.At s left)
    (hlength : data.length = s.taken) (hbuffer : left.readBuffer = r.fs.readBuffer)
    (hlacks : r.ended s = true ∨ r.pageByte s (r.position s) = none) :
    ∃ left' data', r.Takes s (r.fromBuffer s) (r.bufferByte s) left data left' data' ∧
      left'.readBuffer = left.readBuffer := by
  by_cases hnone : r.ended s = true ∨ r.fs.readBuffer.read r.path (r.position s)
      (r.size - s.taken) (r.env s 4).now = []
  · rw [fromBuffer, if_pos hnone]
    exact ⟨left, data, .nothing h hlength, rfl⟩
  · rw [fromBuffer, if_neg hnone]
    obtain ⟨hended, hbytes⟩ := not_or.mp hnone
    obtain ⟨hne, hpage⟩ := readFile_behindPages h hclock hended (hlacks.resolve_left hended)
    have hlt := Nat.sub_pos_of_lt (taken_lt hended)
    have hrun := buffer_read_run left.readBuffer r.path (r.position s) (r.size - s.taken)
      (r.env s 4).now
    have hfirst : (bufferedByte left r.path (r.env s) (r.position s)).isSome := by
      rw [← hbuffer] at hbytes
      exact (isSome_of_run hlt hrun).mpr hbytes
    have hread := readFile_buffered hlt hne hpage hfirst
    rw [hbuffer] at hread
    obtain ⟨hremote, hsame⟩ := behindLooks_frame left r.path (r.env s)
    refine ⟨_, _, .of_round hlength hended hbytes hread (At.next hclock h
      (List.length_pos_iff.mpr hbytes) hremote (congrArg ReadBuffer.capacity hsame)
      ((lasts_write ..).trans (behindLooks_lasts ..)) (k := 5) fun t ht => ?_) rfl
      (fun i hi => ?_), hsame⟩
    · exact h.entry_put hclock (by decide) rfl ht
    · rw [List.getElem?_eq_getElem hi]
      exact (ReadBuffer.read_getElem? (List.getElem?_eq_getElem hi)).1.symm

/-- A position that neither the pages nor the read buffer has asks the server. -/
theorem readFile_asks (h : r.At s left) (hclock : Clocks r.envs) (hended : ¬r.ended s = true)
    (hpages : r.pageByte s (r.position s) = none)
    (hbuffer : left.readBuffer.byteAt (r.env s 4).now r.path (r.position s) = none)
    (hsrc : r.fs.remote.nodes r.path = some (.file src)) :
    let answer := slice src (r.position s) r.fs.readBuffer.capacity
    (∃ e left', left.readFile r.path (r.position s) (r.size - s.taken) (r.env s) =
      (.error e, left')) ∨
    ∃ behind : FileSystem L, behind.cache = (behindLooks left r.path (r.env s)).cache ∧
      behind.remote = left.remote ∧
      behind.readBuffer = left.readBuffer.fill r.path (r.position s) answer (r.env s 6).now ∧
      left.readFile r.path (r.position s) (r.size - s.taken) (r.env s) =
        (.ok (answer.take (r.size - s.taken)), behind.onCache fun c =>
          cacheWriteFile c r.path (r.position s) answer false (r.env s 7).toMoment) := by
  intro answer
  obtain ⟨hne, hpage⟩ := readFile_behindPages h hclock hended hpages
  obtain ⟨hremote, hsame⟩ := behindLooks_frame left r.path (r.env s)
  have hfirst : ¬(bufferedByte left r.path (r.env s) (r.position s)).isSome := by
    rw [bufferedByte, hbuffer]
    exact Bool.false_ne_true
  have hanswer : (behindLooks left r.path (r.env s)).remote.readFile r.path (r.position s)
      (behindLooks left r.path (r.env s)).readBuffer.capacity = some answer := by
    rw [hremote, hsame, h.remote, h.capacity, Remote.readFile, hsrc]
  rw [readFile_remote (Nat.sub_pos_of_lt (taken_lt hended)) hne hpage hfirst,
    FileSystem.readRemote, hanswer]
  cases hasked : pathToString r.path >>= fun _ => request ((r.env s).drop 5 0) (some answer) with
  | error e => exact .inl ⟨e, _, rfl⟩
  | ok data =>
    obtain ⟨-, -, hdata⟩ := FileSystem.sent_ok.mp hasked
    cases hdata
    refine .inr ⟨{ behindLooks left r.path (r.env s) with
      readBuffer := left.readBuffer.fill r.path (r.position s) answer (r.env s 6).now },
      rfl, hremote, rfl, ?_⟩
    rw [← hsame]
    rfl

/-- Where nothing has a byte the rounds end. -/
theorem loop_ends {result : List UInt8} (h : r.At s left) (hclock : Clocks r.envs)
    (hlength : data.length = s.taken) (hsrc : r.fs.remote.nodes r.path = some (.file src))
    (hpages : r.ended s = true ∨ r.pageByte s (r.position s) = none)
    (hbuffer : r.ended s = true ∨
      left.readBuffer.byteAt (r.env s 4).now r.path (r.position s) = none)
    (hanswer : r.ended s = true ∨ slice src (r.position s) r.fs.readBuffer.capacity = [])
    (hok : (r.loop left data).1 = .ok result) : result = data := by
  by_cases hended : r.ended s = true
  · obtain ⟨left', hloop⟩ := loop_ended hlength h hended
    rw [hloop] at hok
    exact (Except.ok.inj hok).symm
  · rcases readFile_asks h hclock hended (hpages.resolve_left hended)
      (hbuffer.resolve_left hended) hsrc with ⟨e, left', hread⟩ | ⟨behind, -, -, -, hread⟩
    · rw [loop_error hlength hended hread] at hok
      cases hok
    · rw [hanswer.resolve_left hended, List.take_nil] at hread
      rw [loop_nothing hlength hended hread] at hok
      exact (Except.ok.inj hok).symm

/-- The read buffer, if it brought bytes, has none for the stages behind it. -/
theorem fromBuffer_lacks (hlacks : r.ended s = true ∨ r.pageByte s (r.position s) = none) :
    let s' := r.fromPages (r.fromBuffer s)
    r.ended s' = true ∨ r.bufferByte s' (r.position s') = none := by
  intro s'
  by_cases hended : r.ended s = true
  · have hsame : s' = s :=
      (congrArg r.fromPages (if_pos (.inl hended))).trans (fromPages_of_lacks hlacks)
    rw [hsame]
    exact .inl hended
  have hlt := Nat.sub_pos_of_lt (taken_lt hended)
  have hsome := isSome_of_run hlt (buffer_read_run r.fs.readBuffer r.path (r.position s)
    (r.size - s.taken) (r.env s 4).now)
  by_cases hbytes : r.fs.readBuffer.read r.path (r.position s) (r.size - s.taken)
      (r.env s 4).now = []
  · have hsame : s' = s :=
      (congrArg r.fromPages (if_pos (.inr hbytes))).trans (fromPages_of_lacks hlacks)
    rw [hsame]
    exact .inr (Option.not_isSome_iff_eq_none.mp (hsome.not.mpr (not_not.mpr hbytes)))
  have hstage : r.fromBuffer s = ⟨_, _⟩ := if_neg (not_or.mpr ⟨hended, hbytes⟩)
  have hle : (r.fromBuffer s).taken ≤ s'.taken := fromPages_le
  rw [hstage] at hle
  obtain ⟨b, hb⟩ := Option.isSome_iff_exists.mp (hsome.mpr hbytes)
  have hstop : (r.fs.readBuffer.read r.path (r.position s) (r.size - s.taken)
      (r.env s 4).now).length < r.size - s.taken → r.bufferByte s _ = none := ReadBuffer.read_stop
  generalize r.fs.readBuffer.read r.path (r.position s) (r.size - s.taken) (r.env s 4).now = bytes
    at hstage hle hstop
  by_cases hfull : bytes.length < r.size - s.taken
  · refine .inr (ReadBuffer.byteAt_beyond hb (hstop hfull) (Nat.le_add_right _ _) ?_)
    unfold position
    dsimp only at hle
    omega
  · have hended' : r.ended (r.fromBuffer s) = true := ended_of_full (by
      rw [hstage]
      dsimp only
      omega)
    have hsame : s' = r.fromBuffer s := fromPages_of_lacks (.inl hended')
    exact .inl (hsame ▸ hended')

/-- The request covers the rest, as far as the read buffer's capacity goes. -/
theorem fromServer_takes {result : List UInt8} (hclock : Clocks r.envs) (h : r.At s left)
    (hlength : data.length = s.taken) (hsrc : r.fs.remote.nodes r.path = some (.file src))
    (hpages : r.ended s = true ∨ r.pageByte s (r.position s) = none)
    (hbuffer : r.ended s = true ∨
      left.readBuffer.byteAt (r.env s 4).now r.path (r.position s) = none)
    (hok : (r.loop left data).1 = .ok result) :
    r.fromServer s src = s ∧ result = data ∨
    ∃ left' data', r.Takes s (r.fromServer s src) (fun x => src[x]?) left data left' data' ∧
      ((r.fromServer s src).taken < min r.size r.fs.readBuffer.capacity →
        src.length ≤ r.position (r.fromServer s src) ∧
        ∀ t, left'.readBuffer.byteAt t r.path (r.position (r.fromServer s src)) = none) := by
  by_cases hnone : r.ended s = true ∨ slice src (r.position s) r.fs.readBuffer.capacity = []
  · exact .inl ⟨if_pos hnone, loop_ends h hclock hlength hsrc hpages hbuffer hnone hok⟩
  · obtain ⟨hended, hanswer⟩ := not_or.mp hnone
    have hstage : r.fromServer s src = _ := if_neg hnone
    have hlt := taken_lt hended
    rw [hstage]
    rcases readFile_asks h hclock hended (hpages.resolve_left hended) (hbuffer.resolve_left hended)
      hsrc with ⟨e, left', hread⟩ | ⟨behind, hcache, hremote, hfilled, hread⟩
    · rw [loop_error hlength hended hread] at hok
      cases hok
    · generalize hdata : slice src (r.position s) r.fs.readBuffer.capacity = answer at *
      have hpos := List.length_pos_iff.mpr hanswer
      have htake : (answer.take (r.size - s.taken)).length =
          min (r.size - s.taken) answer.length := List.length_take
      have hsize : answer.length = min r.fs.readBuffer.capacity (src.length - r.position s) := by
        rw [← hdata, slice, List.length_take, List.length_drop]
      have hcapacity : behind.readBuffer.capacity = left.readBuffer.capacity := by
        rw [hfilled]
        rfl
      refine .inr ⟨_, _, .of_round hlength hended ?_ hread (At.next hclock h (by omega) hremote
        ?_ ?_ (k := 7) fun t ht => h.entry_put hclock (by decide) hcache ht) ?_ fun i hi => ?_,
        fun hshort => ⟨?_, fun t => ?_⟩⟩
      · rw [← List.length_pos_iff, htake]
        omega
      · exact hcapacity
      · exact (lasts_write ..).trans ((lasts_of_cache hcache).trans (behindLooks_lasts ..))
      · rw [htake]
      · rw [htake] at hi
        rw [List.getElem?_take_of_lt (by omega), ← hdata, getElem?_slice, if_pos (by omega)]
      · unfold position at *
        dsimp only at *
        omega
      · change behind.readBuffer.byteAt t r.path _ = none
        rw [hfilled]
        refine ReadBuffer.byteAt_fill_end ?_
        unfold position at *
        dsimp only at *
        omega

end Puts

section Course

variable {src result : List UInt8}

theorem first_le : r.first.taken ≤ r.second.taken := by
  unfold second fromBuffer
  dsimp only
  split
  · exact le_rfl
  · exact Nat.le_add_right _ _

theorem third_le : r.third.taken ≤ (r.fourth src).taken := by
  unfold fourth fromServer
  dsimp only
  split
  · exact le_rfl
  · exact Nat.le_add_right _ _

theorem fromPages_lt (h : ¬r.Lacks s) : s.taken < (r.fromPages s).taken := by
  obtain ⟨hended, hpage⟩ := not_or.mp h
  have hpos := (run_pos (Nat.sub_pos_of_lt (taken_lt hended))).mpr
    (Option.isSome_iff_ne_none.mpr hpage)
  unfold fromPages
  rw [if_neg (not_or.mpr ⟨hended, hpos.ne'⟩)]
  exact Nat.lt_add_of_pos_right hpos

structure FromHeld (r : Reading L) (result : List UInt8) : Prop where
  pages : ∀ i < r.first.taken, result[i]? = r.pageByte r.start (r.offset + i)
  buffer : ∀ i, r.first.taken ≤ i → i < r.second.taken →
    result[i]? = r.bufferByte r.first (r.offset + i)
  pagesAgain : ∀ i, r.second.taken ≤ i → i < r.third.taken →
    result[i]? = r.pageByte r.second (r.offset + i)

/-- The result of the rounds, by the stage that each byte is from. -/
structure Course (r : Reading L) (src result : List UInt8) : Prop extends r.FromHeld result where
  server : ∀ i, r.third.taken ≤ i → i < (r.fourth src).taken →
    result[i]? = src[r.offset + i]?
  length : (r.fourth src).taken ≤ result.length
  behind : (r.fourth src).taken < min r.size r.fs.readBuffer.capacity → ¬r.Lacks (r.fourth src) →
    (r.fourth src).taken < result.length ∧ src.length ≤ r.position (r.fourth src)
  ends : (r.fourth src).taken < min r.size r.fs.readBuffer.capacity → r.Lacks (r.fourth src) →
    result.length = (r.fourth src).taken

theorem loop_held (hclock : Clocks r.envs)
    (hsrc : r.fs.remote.nodes r.path = some (.file src)) :
    ∃ left data, r.loop r.fs [] = r.loop left data ∧ r.At r.third left ∧
      data.length = r.third.taken ∧ r.Lacks r.third ∧ (r.ended r.third = true ∨
        left.readBuffer.byteAt (r.env r.third 4).now r.path (r.position r.third) = none) ∧
      ∀ result, data <+: result → r.FromHeld result := by
  have hstart : r.At r.start r.fs := ⟨rfl, rfl, rfl, fun _ _ => rfl⟩
  have hnothing : ([] : List UInt8).length = r.start.taken := rfl
  obtain ⟨left₁, data₁, htakes₁, hbuffer₁⟩ := fromPages_takes hclock hstart hnothing
  have hlacks₁ : r.Lacks r.first := fromPages_lacks hclock hstart hnothing hsrc
  obtain ⟨left₂, data₂, htakes₂, hbuffer₂⟩ :=
    fromBuffer_takes hclock htakes₁.at_stage htakes₁.length hbuffer₁ hlacks₁
  obtain ⟨left₃, data₃, htakes₃, hbuffer₃⟩ :=
    fromPages_takes hclock htakes₂.at_stage htakes₂.length
  refine ⟨left₃, data₃, ?_, htakes₃.at_stage, htakes₃.length,
    fromPages_lacks hclock htakes₂.at_stage htakes₂.length hsrc, ?_, fun result hgrown => ?_⟩
  · rw [htakes₁.loop, htakes₂.loop, htakes₃.loop]
  · rw [hbuffer₃, hbuffer₂, hbuffer₁]
    exact fromBuffer_lacks hlacks₁
  · have hgrown₂ := htakes₃.grows.trans hgrown
    have hgrown₁ := htakes₂.grows.trans hgrown₂
    exact ⟨fun i => htakes₁.result_byte hgrown₁ (Nat.zero_le i),
      fun _ => htakes₂.result_byte hgrown₂, fun _ => htakes₃.result_byte hgrown⟩

theorem loop_more (hclock : Clocks r.envs) (h : r.At s left) (hlength : data.length = s.taken)
    (hlacks : ¬r.Lacks s) (hok : (r.loop left data).1 = .ok result) :
    s.taken < result.length := by
  obtain ⟨left', data', htakes, -⟩ := fromPages_takes hclock h hlength
  rw [htakes.loop] at hok
  have hgrown : data' <+: result := readLoop_adds hok
  calc s.taken
    _ < (r.fromPages s).taken := fromPages_lt hlacks
    _ = data'.length := htakes.length.symm
    _ ≤ result.length := hgrown.length_le

theorem loop_course (hclock : Clocks r.envs)
    (hsrc : r.fs.remote.nodes r.path = some (.file src))
    (hok : (r.loop r.fs []).1 = .ok result) : r.Course src result := by
  obtain ⟨left, data, hloop, hat, hlength, hpages, hbuffer, hheld⟩ := loop_held hclock hsrc
  rw [hloop] at hok
  have hfrom := hheld result (readLoop_adds hok)
  rcases fromServer_takes hclock hat hlength hsrc hpages hbuffer hok with
    ⟨hsame, rfl⟩ | ⟨left₄, data₄, htakes, hafter⟩
  · have hsame : r.fourth src = r.third := hsame
    refine ⟨hfrom, ?_, ?_, ?_, ?_⟩
    · intro i hle hi
      rw [hsame] at hi
      omega
    · rw [hsame, hlength]
    · intro _ hlacks
      rw [hsame] at hlacks
      exact (hlacks hpages).elim
    · intro _ _
      rw [hsame, hlength]
  · rw [htakes.loop] at hok
    have hgrown : data₄ <+: result := readLoop_adds hok
    have hlength₄ : data₄.length = (r.fourth src).taken := htakes.length
    refine ⟨hfrom, fun _ => htakes.result_byte hgrown, ?_, ?_, ?_⟩
    · rw [← hlength₄]
      exact hgrown.length_le
    · intro hshort hlacks
      exact ⟨loop_more hclock htakes.at_stage hlength₄ hlacks hok, (hafter hshort).1⟩
    · intro hshort hlacks
      obtain ⟨hend, hbuffer₄⟩ := hafter hshort
      rw [← hlength₄, loop_ends htakes.at_stage hclock hlength₄ hsrc hlacks
        (.inr (hbuffer₄ _)) (.inr ?_) hok]
      rw [slice, List.drop_eq_nil_of_le hend, List.take_nil]

theorem take_prefix_drop_iff {size offset : ℕ} : result.take size <+: src.drop offset ↔
    ∀ i < result.length, i < size → result[i]? = src[offset + i]? := by
  rw [List.prefix_iff_getElem?]
  constructor
  · intro hgrown i hi hlt
    have hat := hgrown i (by
      rw [List.length_take]
      omega)
    rw [List.getElem?_drop, List.getElem_take] at hat
    rw [hat, List.getElem?_eq_getElem hi]
  · intro hbyte i hi
    rw [List.length_take] at hi
    rw [List.getElem?_drop, List.getElem_take, ← hbyte i (by omega) (by omega),
      List.getElem?_eq_getElem]

theorem Course.takesSource (h : r.Course src result)
    (hbyte : ∀ i < result.length, i < r.fs.readBuffer.capacity →
      result[i]? = src[r.offset + i]?) : r.TakesSource src := by
  have hlength := h.length
  have hfirst : r.first.taken ≤ r.second.taken := first_le
  have hsecond : r.second.taken ≤ r.third.taken := fromPages_le
  have hthird : r.third.taken ≤ (r.fourth src).taken := third_le
  refine ⟨?_, ?_, ?_, ?_⟩
  · intro i hlt hi
    rw [← h.pages i hi, hbyte i (by omega) hlt]
  · intro i hlt hle hi
    rw [← h.buffer i hle hi, hbyte i (by omega) hlt]
  · intro i hlt hle hi
    rw [← h.pagesAgain i hle hi, hbyte i (by omega) hlt]
  · intro hlt
    by_contra hlacks
    have htaken := taken_lt (not_or.mp hlacks).1
    obtain ⟨hmore, hend⟩ := h.behind (by omega) hlacks
    have hat := hbyte _ hmore hlt
    have hnone : src[r.offset + (r.fourth src).taken]? = none := List.getElem?_eq_none hend
    rw [List.getElem?_eq_getElem hmore, hnone] at hat
    cases hat

theorem Course.source_byte (h : r.Course src result) (hsize : result.length ≤ r.size)
    (htakes : r.TakesSource src) {i : ℕ} (hi : i < result.length)
    (hlt : i < r.fs.readBuffer.capacity) : result[i]? = src[r.offset + i]? := by
  by_cases h₁ : i < r.first.taken
  · rw [h.pages i h₁, htakes.pages i hlt h₁]
  by_cases h₂ : i < r.second.taken
  · rw [h.buffer i (by omega) h₂, htakes.buffer i hlt (by omega) h₂]
  by_cases h₃ : i < r.third.taken
  · rw [h.pagesAgain i (by omega) h₃, htakes.pagesAgain i hlt (by omega) h₃]
  by_cases h₄ : i < (r.fourth src).taken
  · exact h.server i (by omega) h₄
  · have hends := h.ends (by omega) (htakes.behind (by omega))
    omega

/-- The rounds bring the file's bytes exactly if the stages take them from what is the file's. -/
theorem loop_source_iff (hclock : Clocks r.envs)
    (hsrc : r.fs.remote.nodes r.path = some (.file src))
    (hok : (r.loop r.fs []).1 = .ok result) :
    result.take r.fs.readBuffer.capacity <+: src.drop r.offset ↔ r.TakesSource src := by
  have hcourse := loop_course hclock hsrc hok
  have hsize : result.length ≤ r.size := readLoop_length (Nat.zero_le _) hok
  rw [take_prefix_drop_iff]
  constructor
  · exact hcourse.takesSource
  · exact fun htakes i hi => hcourse.source_byte hsize htakes hi

theorem loop_count (hclock : Clocks r.envs)
    (hsrc : r.fs.remote.nodes r.path = some (.file src))
    (hok : (r.loop r.fs []).1 = .ok result) (h : r.TakesSource src) :
    min result.length r.fs.readBuffer.capacity =
      min (r.fourth src).taken r.fs.readBuffer.capacity := by
  have hcourse := loop_course hclock hsrc hok
  have hsize : result.length ≤ r.size := readLoop_length (Nat.zero_le _) hok
  have hlength := hcourse.length
  by_cases hshort : (r.fourth src).taken < min r.size r.fs.readBuffer.capacity
  · rw [hcourse.ends hshort (h.behind (by omega))]
  · omega

end Course

end Reading

end ClientReadStages
