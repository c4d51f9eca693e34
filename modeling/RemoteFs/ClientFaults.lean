import RemoteFs.ClientCacheCalls

/-! # Where a configured value can make the client panic

A division by the page size, a time to live added to an `Instant`, a vector of a configured
length. Each call is modelled here with its panics; where the values allow it there are none,
and it is the call that the other modules know. -/
namespace ClientFaults

open ClientCache
open ClientCacheCalls
open ClientPageCache
open OsPaths

/-- The first millisecond behind the last `Instant`, and the longest vector of bytes. -/
structure Machine where
  instants : ℕ
  vectorMax : ℕ
  deriving DecidableEq, Repr

/-- Seconds are an `i64`, and lengths go up to `isize::MAX`. -/
def Machine.unix : Machine := ⟨9223372036854775808000, 9223372036854775807⟩

inductive Fault where
  | divisionByZero
  | timeOverflow
  | capacityOverflow
  | page (panic : Panic)
  deriving DecidableEq, Repr

def Machine.addInstant (M : Machine) (t d : ℕ) : Except Fault ℕ :=
  if t + d < M.instants then .ok (t + d) else .error .timeOverflow

def Machine.allocate (M : Machine) (n : ℕ) : Except Fault (List UInt8) :=
  if n ≤ M.vectorMax then .ok (List.replicate n 0) else .error .capacityOverflow

/-! The pages of a file, by the values in `PAGE_SIZE` and `MAX_PAGES` -/

def entryOrDefault (M : Machine) (pageSize : ℕ) (f : File) (k : ℕ) : Except Fault FilePage :=
  match AList.lookup k f.content with
  | some page => .ok page
  | none => (M.allocate pageSize).map fun content => ⟨content, 0, pageSize⟩

def writeLoop (M : Machine) (pageSize maxPages : ℕ) :
    ℕ → File → List UInt8 → ℕ → Except Fault File
  | 0, f, _, _ => .ok f
  | fuel + 1, f, remaining, curr =>
    if remaining = [] then .ok f
    else if maxPages = 0 then .ok f
    else if maxPages ≤ f.pageCount then .ok f
    else if h : 0 < pageSize then
      let toWrite := min remaining.length (pageSize - curr % pageSize)
      match entryOrDefault M pageSize f (curr / pageSize) with
      | .error e => .error e
      | .ok page =>
        match page.write ⟨pageSize, maxPages, h⟩ (remaining.take toWrite) (curr % pageSize) with
        | .error e => .error (.page e)
        | .ok page => writeLoop M pageSize maxPages fuel (f.insertPage (curr / pageSize) page)
            (remaining.drop toWrite) (curr + toWrite)
    else .error .divisionByZero

def writeContent (M : Machine) (pageSize maxPages : ℕ) (f : File) (offset : ℕ)
    (data : List UInt8) : Except Fault File :=
  writeLoop M pageSize maxPages data.length f data offset

def readLoop (pageSize maxPages : ℕ) (f : File) :
    ℕ → ℕ → ℕ → List UInt8 → Except Fault (List UInt8)
  | 0, _, _, buffer => .ok buffer
  | fuel + 1, remaining, curr, buffer =>
    if remaining = 0 then .ok buffer
    else if h : 0 < pageSize then
      match AList.lookup (curr / pageSize) f.content with
      | none => .ok buffer
      | some page =>
        let maxRead := min remaining (pageSize - curr % pageSize)
        match page.read ⟨pageSize, maxPages, h⟩ (curr % pageSize) maxRead with
        | .error e => .error (.page e)
        | .ok none => .ok buffer
        | .ok (some bytes) =>
          if bytes.length < maxRead then .ok (buffer ++ bytes)
          else readLoop pageSize maxPages f fuel (remaining - bytes.length) (curr + maxRead)
            (buffer ++ bytes)
    else .error .divisionByZero

/-- The vector of the result has room for all that is asked for. -/
def read (M : Machine) (pageSize maxPages : ℕ) (f : File) (offset size : ℕ) :
    Except Fault (List UInt8) :=
  match M.allocate size with
  | .error e => .error e
  | .ok _ => readLoop pageSize maxPages f size size offset []

/-! The two calls of the cache that look at the age of an entry -/

variable {L : PageLimits}

def expired (M : Machine) (c : Cache L) (e : CacheEntry L) (now : ℕ) : Except Fault Bool :=
  if c.useTtl then (M.addInstant e.createdAt c.ttl).map fun expiry => decide (expiry < now)
  else .ok false

def get (M : Machine) (c : Cache L) (p : Path) (m : Moment) :
    Except Fault (Option (CacheItem L) × Cache L) :=
  match AList.lookup p c.entries with
  | none => .ok (none, c)
  | some e => (expired M c e m.now).map fun gone =>
    if gone then (none, c.erase p)
    else (some e.item,
      c.insert p { e with lastAccessed := m.now, accessCount := e.accessCount + 1 })

def put (M : Machine) (c : Cache L) (p : Path) (item : CacheItem L)
    (invalidateAttributes : Bool) (m : Moment) : Except Fault (Cache L) :=
  match AList.lookup p c.entries with
  | none => .ok (c.insertNew p item m)
  | some e => (expired M c e m.now).map fun gone =>
    if gone then (c.erase p).insertNew p item m
    else
      let e := { e with lastAccessed := m.now, accessCount := e.accessCount + 1 }
      let e := e.update item m.pages
      c.insert p (if invalidateAttributes then { e with item := e.item.invalidateAttributes }
        else e)

def runCall (M : Machine) (c : Cache L) (m : Moment) : CacheCall L → Except Fault (Cache L)
  | .get p => (get M c p m).map Prod.snd
  | .put p item inv => put M c p item inv m
  | call => .ok (call.next c m)

def runCalls (M : Machine) : Cache L → List (CacheCall L × Moment) → Except Fault (Cache L)
  | c, [] => .ok c
  | c, (call, m) :: calls =>
    match runCall M c m call with
    | .error e => .error e
    | .ok c => runCalls M c calls

variable {M : Machine} {f : File} {c c₀ : Cache L} {e : CacheEntry L} {p q : Path} {m : Moment}
variable {item : CacheItem L} {inv : Bool} {pageSize maxPages latest : ℕ}

theorem addInstant_ok {t d : ℕ} (h : t + d < M.instants) : M.addInstant t d = .ok (t + d) :=
  if_pos h

theorem addInstant_overflow {t d : ℕ} (h : M.instants ≤ t + d) :
    M.addInstant t d = .error .timeOverflow :=
  if_neg (Nat.not_lt.mpr h)

theorem allocate_ok {n : ℕ} (h : n ≤ M.vectorMax) : M.allocate n = .ok (List.replicate n 0) :=
  if_pos h

theorem allocate_overflow {n : ℕ} (h : M.vectorMax < n) :
    M.allocate n = .error .capacityOverflow :=
  if_neg (Nat.not_le.mpr h)

section Pages

theorem entryOrDefault_eq (h : L.pageSize ≤ M.vectorMax) (f : File) (k : ℕ) :
    entryOrDefault M L.pageSize f k = .ok (f.entryOrDefault L k) := by
  unfold entryOrDefault File.entryOrDefault
  cases AList.lookup k f.content with
  | some page => rfl
  | none =>
    rw [allocate_ok h]
    rfl

/-- Slices that leave a page are all that the page itself can fail with. -/
theorem page_ne_capacityOverflow {α : Type} (r : Except Panic α) :
    r.mapError Fault.page ≠ .error .capacityOverflow := by
  cases r <;> simp [Except.mapError]

theorem page_ne_divisionByZero {α : Type} (r : Except Panic α) :
    r.mapError Fault.page ≠ .error .divisionByZero := by
  cases r <;> simp [Except.mapError]

/-- With a page size that divides and that a vector can have, no write to the pages panics
where it did not. -/
theorem writeLoop_eq (h : L.pageSize ≤ M.vectorMax) (fuel : ℕ) : ∀ (f : File)
    (remaining : List UInt8) (curr : ℕ),
    writeLoop M L.pageSize L.maxPages fuel f remaining curr =
      ((f.writeLoop L fuel remaining curr).map Prod.fst).mapError .page := by
  induction fuel with
  | zero => exact fun _ _ _ => rfl
  | succ fuel ih =>
    intro f remaining curr
    rw [writeLoop, File.writeLoop, dif_pos L.pageSize_pos, entryOrDefault_eq h]
    split_ifs
    · rfl
    · rfl
    · rfl
    · dsimp only
      cases FilePage.write L (f.entryOrDefault L (curr / L.pageSize))
        (remaining.take (min remaining.length (L.pageSize - curr % L.pageSize)))
        (curr % L.pageSize) with
      | error e => rfl
      | ok page => exact ih _ _ _

theorem writeContent_eq (h : L.pageSize ≤ M.vectorMax) (f : File) (offset : ℕ)
    (data : List UInt8) : writeContent M L.pageSize L.maxPages f offset data =
      (f.writeContent L offset data).mapError .page :=
  writeLoop_eq h _ f data offset

/-- No page is made where there may be none. -/
theorem writeContent_no_pages (f : File) (offset : ℕ) (data : List UInt8) :
    writeContent M pageSize 0 f offset data = .ok f := by
  unfold writeContent
  cases data with
  | nil => rfl
  | cons b data => simp [writeLoop]

theorem readLoop_eq (f : File) (fuel : ℕ) : ∀ (remaining curr : ℕ) (buffer : List UInt8),
    readLoop L.pageSize L.maxPages f fuel remaining curr buffer =
      (f.readLoop L fuel remaining curr buffer).mapError .page := by
  induction fuel with
  | zero => exact fun _ _ _ => rfl
  | succ fuel ih =>
    intro remaining curr buffer
    rw [readLoop, File.readLoop, dif_pos L.pageSize_pos]
    split_ifs with hend
    · rfl
    · cases AList.lookup (curr / L.pageSize) f.content with
      | none => rfl
      | some page =>
        dsimp only
        rcases page.read L (curr % L.pageSize) (min remaining (L.pageSize - curr % L.pageSize))
          with e | _ | bytes
        · rfl
        · rfl
        · dsimp only
          split_ifs
          · rfl
          · exact ih _ _ _

theorem read_eq {size : ℕ} (h : size ≤ M.vectorMax) (f : File) (offset : ℕ) :
    read M L.pageSize L.maxPages f offset size = (f.read L offset size).mapError .page := by
  rw [read, allocate_ok h]
  exact readLoop_eq f size size offset []

theorem writeLoop_divides (h : 0 < pageSize) (fuel : ℕ) : ∀ (f : File)
    (remaining : List UInt8) (curr : ℕ),
    writeLoop M pageSize maxPages fuel f remaining curr ≠ .error .divisionByZero := by
  induction fuel with
  | zero => exact fun _ _ _ => by simp [writeLoop]
  | succ fuel ih =>
    intro f remaining curr
    rw [writeLoop, dif_pos h]
    split_ifs
    · simp
    · simp
    · simp
    · dsimp only
      cases hentry : entryOrDefault M pageSize f (curr / pageSize) with
      | error e =>
        rintro ⟨⟩
        unfold entryOrDefault Machine.allocate at hentry
        split at hentry
        · cases hentry
        · split at hentry <;> cases hentry
      | ok page =>
        dsimp only
        cases page.write ⟨pageSize, maxPages, h⟩
          (remaining.take (min remaining.length (pageSize - curr % pageSize)))
          (curr % pageSize) with
        | error e => simp
        | ok page => exact ih _ _ _

theorem read_divides (h : 0 < pageSize) (f : File) (offset size : ℕ) :
    read M pageSize maxPages f offset size ≠ .error .divisionByZero := by
  have hloop := readLoop_eq (L := ⟨pageSize, maxPages, h⟩) f size size offset []
  unfold read
  by_cases hsize : size ≤ M.vectorMax
  · rw [allocate_ok hsize]
    dsimp only at hloop ⊢
    rw [hloop]
    exact page_ne_divisionByZero _
  · rw [allocate_overflow (Nat.not_le.mp hsize)]
    simp

theorem writeContent_overflow (h : M.vectorMax < pageSize) (hmax : 0 < maxPages)
    (name : OsString) (b : UInt8) :
    writeContent M pageSize maxPages (File.new name none) 0 [b] = .error .capacityOverflow := by
  have hpos : 0 < pageSize := Nat.zero_lt_of_lt h
  have hempty : ¬maxPages ≤ (File.new name none).pageCount := Nat.not_le.mpr hmax
  have hentry : entryOrDefault M pageSize (File.new name none) (0 / pageSize) =
      .error .capacityOverflow := by
    have hnone : AList.lookup (0 / pageSize) (File.new name none).content = none :=
      AList.lookup_empty _
    rw [entryOrDefault, hnone, allocate_overflow h]
    rfl
  rw [writeContent, List.length_singleton, writeLoop, if_neg (List.cons_ne_nil b []),
    if_neg hmax.ne', if_neg hempty, dif_pos hpos]
  dsimp only
  rw [hentry]

end Pages

section Ages

def Lasts (M : Machine) (c : Cache L) (e : CacheEntry L) : Prop :=
  c.useTtl = true → e.createdAt + c.ttl < M.instants

theorem expired_eq (h : Lasts M c e) (now : ℕ) : expired M c e now = .ok (c.expired e now) := by
  unfold expired Cache.expired
  cases hu : c.useTtl with
  | false => rfl
  | true =>
    rw [if_pos rfl, addInstant_ok (h hu), Bool.true_and]
    rfl

theorem get_eq (h : ∀ e, AList.lookup p c.entries = some e → Lasts M c e) (m : Moment) :
    get M c p m = .ok (c.get p m) := by
  unfold get Cache.get
  cases hl : AList.lookup p c.entries with
  | none => rfl
  | some e =>
    dsimp only
    rw [expired_eq (h e hl)]
    exact congrArg Except.ok rfl

theorem put_eq (h : ∀ e, AList.lookup p c.entries = some e → Lasts M c e)
    (item : CacheItem L) (inv : Bool) (m : Moment) :
    put M c p item inv m = .ok (c.put p item inv m) := by
  unfold put Cache.put
  cases hl : AList.lookup p c.entries with
  | none => rfl
  | some e =>
    dsimp only
    rw [expired_eq (h e hl)]
    exact congrArg Except.ok rfl

theorem get_overflow (hl : AList.lookup p c.entries = some e) (hu : c.useTtl = true)
    (h : M.instants ≤ e.createdAt + c.ttl) (m : Moment) :
    get M c p m = .error .timeOverflow := by
  rw [get, hl]
  dsimp only
  rw [expired, if_pos hu, addInstant_overflow h]
  rfl

/-- No entry was made after the time, and the settings are those the cache began with. -/
structure Young (latest : ℕ) (c₀ c : Cache L) : Prop where
  created : ∀ p e, AList.lookup p c.entries = some e → e.createdAt ≤ latest
  useTtl : c.useTtl = c₀.useTtl
  ttl : c.ttl = c₀.ttl

namespace Young

theorem of_empty (h : c.entries = ∅) : Young latest c c := by
  refine ⟨fun p e he => ?_, rfl, rfl⟩
  rw [h, AList.lookup_empty] at he
  cases he

theorem erase (h : Young latest c₀ c) (p : Path) : Young latest c₀ (c.erase p) := by
  refine ⟨fun q e he => ?_, h.useTtl, h.ttl⟩
  by_cases hq : q = p
  · rw [hq, Cache.erase, AList.lookup_erase] at he
    cases he
  · rw [Cache.erase, AList.lookup_erase_ne hq] at he
    exact h.created q e he

theorem insert (h : Young latest c₀ c) (he : e.createdAt ≤ latest) (p : Path) :
    Young latest c₀ (c.insert p e) := by
  refine ⟨fun q e' he' => ?_, h.useTtl, h.ttl⟩
  by_cases hq : q = p
  · rw [hq, Cache.insert, AList.lookup_insert] at he'
    injection he' with he'
    exact he' ▸ he
  · rw [Cache.insert, AList.lookup_insert_ne hq] at he'
    exact h.created q e' he'

theorem insertNew (h : Young latest c₀ c) (hm : m.now ≤ latest) (p : Path)
    (item : CacheItem L) : Young latest c₀ (c.insertNew p item m) := by
  refine insert (e := CacheEntry.new item m.now) ?_ hm p
  unfold Cache.evictFull
  split
  · split
    · exact h.erase _
    · exact h
  · exact h

theorem invalidateParents (h : Young latest c₀ c) (p : Path) :
    Young latest c₀ (c.invalidateParents p) :=
  Cache.invalidateParents_keeps (fun _ q hd => hd.erase q) h p

theorem get (h : Young latest c₀ c) (p : Path) (m : Moment) : Young latest c₀ (c.get p m).2 := by
  unfold Cache.get
  cases hl : AList.lookup p c.entries with
  | none => exact h
  | some e =>
    dsimp only
    split_ifs
    · exact h.erase p
    · refine h.insert ?_ p
      exact h.created p e hl

theorem put (h : Young latest c₀ c) (hm : m.now ≤ latest) (p : Path) (item : CacheItem L)
    (inv : Bool) : Young latest c₀ (c.put p item inv m) := by
  unfold Cache.put
  cases hl : AList.lookup p c.entries with
  | none => exact h.insertNew hm p item
  | some e =>
    have hold := h.created p e hl
    dsimp only
    split_ifs
    · exact (h.erase p).insertNew hm p item
    · refine h.insert ?_ p
      exact hold
    · refine h.insert ?_ p
      exact hold

theorem next (h : Young latest c₀ c) (hm : m.now ≤ latest) (call : CacheCall L) :
    Young latest c₀ (call.next c m) := by
  cases call with
  | get p => exact h.get p m
  | put p item inv => exact h.put hm p item inv
  | putNew p item => exact (h.invalidateParents p).insertNew hm p item
  | remove p => exact (h.erase p).invalidateParents p
  | invalidate p => exact h.erase p

theorem lasts (h : Young latest c₀ c)
    (hroom : c₀.useTtl = true → latest + c₀.ttl < M.instants) (p : Path) (e : CacheEntry L)
    (he : AList.lookup p c.entries = some e) : Lasts M c e := by
  intro hu
  have hcreated := h.created p e he
  have hlast := hroom (h.useTtl ▸ hu)
  rw [h.ttl]
  omega

theorem run (h : Young latest c₀ c)
    (hroom : c₀.useTtl = true → latest + c₀.ttl < M.instants) (m : Moment)
    (call : CacheCall L) : runCall M c m call = .ok (call.next c m) := by
  cases call with
  | get p =>
    rw [runCall, get_eq (h.lasts hroom p)]
    rfl
  | put p item inv => exact put_eq (h.lasts hroom p) item inv m
  | _ => rfl

end Young

/-- Along any calls up to the latest time, the ages of the entries can be told. -/
theorem runCalls_ok (hroom : c₀.useTtl = true → latest + c₀.ttl < M.instants)
    (calls : List (CacheCall L × Moment)) : ∀ c : Cache L, Young latest c₀ c →
      (∀ call ∈ calls, call.2.now ≤ latest) →
      runCalls M c calls = .ok (nextCalls c calls) ∧ Young latest c₀ (nextCalls c calls) := by
  induction calls with
  | nil => exact fun c h _ => ⟨rfl, h⟩
  | cons call calls ih =>
    intro c h hcalls
    obtain ⟨call, m⟩ := call
    have hm : m.now ≤ latest := hcalls (call, m) List.mem_cons_self
    rw [runCalls, h.run hroom m call]
    exact ih _ (h.next hm call) fun k hk => hcalls k (List.mem_cons_of_mem _ hk)

theorem runCalls_overflow (hl : AList.lookup p c.entries = none) (hu : c.useTtl = true)
    (h : M.instants ≤ m.now + c.ttl) (item : CacheItem L) :
    runCalls M c [(.put p item false, m), (.get p, m)] = .error .timeOverflow := by
  obtain ⟨huse, httl⟩ := Cache.evictFull_config c m
  have hput : put M c p item false m = .ok (c.insertNew p item m) := by rw [put, hl]
  have hentry : AList.lookup p (c.insertNew p item m).entries =
      some (CacheEntry.new item m.now) := AList.lookup_insert _
  have hget : get M (c.insertNew p item m) p m = .error .timeOverflow := by
    refine get_overflow hentry (huse.trans hu) ?_ m
    rw [show (c.insertNew p item m).ttl = c.ttl from httl]
    exact h
  rw [runCalls, runCall, hput]
  dsimp only
  rw [runCalls, runCall, hget]
  rfl

end Ages

end ClientFaults
