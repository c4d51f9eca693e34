import RemoteFs.ClientCalls
import RemoteFs.ClientFaults
import RemoteFs.ClientFrontEnds
import RemoteFs.ClientStaleness
import RemoteFs.NormalizedPaths
import Mathlib.Data.List.Destutter

/-! # The configuration and the client that starts with it

No value of a configuration is ever refused. `FileSystem::new` divides by the page size, the
buffers get the length that is configured, and the time to live of the cache is added to the
times at which its entries were made. -/
namespace ClientConfiguration

open ClientCache
open ClientCacheCalls
open ClientCalls
open ClientFaults
open ClientFileSystem
open ClientFrontEnds
open ClientMemory
open ClientPageCache
open ClientReadBuffer
open ClientStaleness (Event)
open ClientWriteBuffer
open NormalizedPaths
open OsPaths
open RemoteTree

/-- A part of the configuration; unless it says otherwise, it has nothing to finalize, and
every value of it is valid. -/
class ConfigModule (α : Type) where
  finalize : α → α := id
  validate : α → Except String Unit := fun _ => .ok ()

structure MountConfig where
  allowOther : Bool
  readOnly : Bool
  privileged : Bool
  deriving DecidableEq, Repr

instance : ConfigModule MountConfig := {}

structure FsConfig where
  pageSize : UInt64
  bufferSize : UInt64
  deriving DecidableEq, Repr

instance : ConfigModule FsConfig := {}

/-- The time to live is in seconds. -/
structure CacheConfig where
  enabled : Bool
  useTtl : Bool
  ttl : UInt64
  policy : CachePolicy
  maxSize : UInt64
  capacity : UInt64
  deriving DecidableEq, Repr

instance : ConfigModule CacheConfig := {}

inductive LogTargets where
  | none
  | console
  | file
  | all
  deriving DecidableEq, Repr

def LogTargets.rank : LogTargets → ℕ
  | none => 0
  | console => 1
  | file => 2
  | all => 3

inductive LogRotation where
  | minutely
  | hourly
  | daily
  | never
  deriving DecidableEq, Repr

structure LoggingConfig where
  logTargets : List LogTargets
  logDir : Option Path
  logFile : Option Path
  logRotation : Option LogRotation
  deriving DecidableEq, Repr

def defaultLogDir : Path := [.curDir, .normal (.text "logs")]

def defaultLogFileName : Path := [.normal (.text "remote_fs_client")]

def LoggingConfig.finalize (c : LoggingConfig) : LoggingConfig :=
  let sorted := c.logTargets.mergeSort fun a b => decide (a.rank ≤ b.rank)
  let deduped := sorted.destutter (· ≠ ·)
  let cleared := if .none ∈ deduped then [] else deduped
  let targets := if .all ∈ cleared then [.all] else cleared
  if .all ∈ targets ∨ .file ∈ targets then
    { logTargets := targets
      logDir := some ((c.logDir.map normalizePath).getD defaultLogDir)
      logFile := some ((c.logFile.map normalizePath).getD defaultLogFileName)
      logRotation := some (c.logRotation.getD .never) }
  else { logTargets := targets, logDir := none, logFile := none, logRotation := none }

instance : ConfigModule LoggingConfig := { finalize := LoggingConfig.finalize }

structure RfsConfig where
  foreground : Bool
  guiEnabled : Bool
  mount : MountConfig
  fileSystem : FsConfig
  cache : CacheConfig
  logging : LoggingConfig
  deriving DecidableEq, Repr

namespace RfsConfig

def default : RfsConfig where
  foreground := false
  guiEnabled := true
  mount := ⟨false, false, false⟩
  fileSystem := { pageSize := 4096, bufferSize := 2097152 }
  cache :=
    { enabled := true
      useTtl := true
      ttl := 10
      policy := .lru
      maxSize := 104857600
      capacity := 50 }
  logging :=
    { logTargets := [.all]
      logDir := some defaultLogDir
      logFile := some defaultLogFileName
      logRotation := some .never }

/-- With a GUI, and on Windows, the client stays in the foreground. -/
def finalize (windows : Bool) (c : RfsConfig) : RfsConfig where
  foreground := c.foreground || c.guiEnabled || windows
  guiEnabled := c.guiEnabled
  mount := ConfigModule.finalize c.mount
  fileSystem := ConfigModule.finalize c.fileSystem
  cache := ConfigModule.finalize c.cache
  logging := ConfigModule.finalize c.logging

def validate (c : RfsConfig) : Except String Unit := do
  (ConfigModule.validate c.mount).mapError ("[Mount] " ++ ·)
  (ConfigModule.validate c.fileSystem).mapError ("[Filesystem] " ++ ·)
  (ConfigModule.validate c.cache).mapError ("[Cache] " ++ ·)
  (ConfigModule.validate c.logging).mapError ("[Logging] " ++ ·)

end RfsConfig

def fromConfig {L : PageLimits} (cfg : CacheConfig) : Option (Cache L) :=
  if cfg.enabled then some
    { entries := ∅
      capacity := cfg.capacity.toNat
      ttl := 1000 * cfg.ttl.toNat
      useTtl := cfg.useTtl
      policy := cfg.policy }
  else none

structure Client where
  limits : PageLimits
  fs : FileSystem limits

/-- `FileSystem::new`, where the two buffers are as long as each other. -/
def newFileSystem (M : Machine) (cfg : RfsConfig) (remote : Remote) (now : ℕ) :
    Except Fault Client :=
  let pageSize := cfg.fileSystem.pageSize.toNat
  let bufferCapacity := cfg.fileSystem.bufferSize.toNat
  if h : 0 < pageSize then
    match M.allocate bufferCapacity with
    | .error e => .error e
    | .ok _ =>
      let limits : PageLimits := ⟨pageSize, cfg.cache.maxSize.toNat / pageSize, h⟩
      .ok ⟨limits, FileSystem.new remote bufferCapacity now (fromConfig cfg.cache)⟩
  else .error .divisionByZero

section Events

variable {L : PageLimits}

def next (fs : FileSystem L) : Event → FileSystem L
  | .call op env => (op.run fs env).2
  | .others r => { fs with remote := r }

def Until (latest : ℕ) : Event → Prop
  | .call _ env => ∀ i, (env i).now ≤ latest
  | .others _ => True

def runEvents : FileSystem L → List Event → FileSystem L
  | fs, [] => fs
  | fs, event :: events => runEvents (next fs event) events

structure Below (fs : FileSystem L) (p : Path) (offset now : ℕ) (content : List UInt8) :
    Prop where
  file : fs.remote.nodes p = some (.file content)
  size : offset < content.length
  cached : ∀ it a, entry fs p now = some it → it.getAttributes = some a → offset < a.size

end Events

/-- What is promised of a client, up to a time: divisions, vectors and times are in range, and
writes and reads get on. -/
structure Sound (M : Machine) (latest : ℕ) (client : Client) : Prop where
  divides : ∀ (f : File) (offset size : ℕ) (data : List UInt8),
    writeContent M client.limits.pageSize client.limits.maxPages f offset data ≠
        .error .divisionByZero ∧
      read M client.limits.pageSize client.limits.maxPages f offset size ≠
        .error .divisionByZero
  pages : client.fs.cache ≠ none → ∀ (f : File) (offset size : ℕ) (data : List UInt8),
    writeContent M client.limits.pageSize client.limits.maxPages f offset data ≠
        .error .capacityOverflow ∧
      (size ≤ M.vectorMax →
        read M client.limits.pageSize client.limits.maxPages f offset size ≠
          .error .capacityOverflow)
  cache : ∀ events : List Event, (∀ event ∈ events, Until latest event) →
    ∀ c, (runEvents client.fs events).cache = some c →
      ∀ calls : List (CacheCall client.limits × Moment),
        (∀ call ∈ calls, call.2.now ≤ latest) → ∃ c', runCalls M c calls = .ok c'
  writes : ∀ events : List Event, (∀ event ∈ events, Until latest event) →
    ∀ (p : Path) (offset : ℕ) (data : List UInt8) (env : Env),
      (∀ i, (env i).now ≤ latest) → data ≠ [] →
        ((runEvents client.fs events).writeFile p offset data env).1 ≠ .ok 0
  reads : ∀ events : List Event, (∀ event ∈ events, Until latest event) →
    ∀ (p : Path) (offset size : ℕ) (env : Env) (content : List UInt8),
      (∀ i, (env i).now ≤ latest) → 0 < size → size ≤ M.vectorMax →
        Below (runEvents client.fs events) p offset (env 0).now content →
          ((runEvents client.fs events).readFile p offset size env).1 ≠ .ok [] ∧
            (p.isUtf8 = true → (env 5).reply = none → ∃ bytes,
              ((runEvents client.fs events).readFile p offset size env).1 = .ok bytes)

def Works (M : Machine) (latest : ℕ) (cfg : RfsConfig) : Prop :=
  ∀ remote now, ∃ client, newFileSystem M cfg remote now = .ok client ∧ Sound M latest client

structure Usable (M : Machine) (latest : ℕ) (cfg : RfsConfig) : Prop where
  pageSize_pos : 0 < cfg.fileSystem.pageSize.toNat
  bufferSize_pos : 0 < cfg.fileSystem.bufferSize.toNat
  bufferSize_le : cfg.fileSystem.bufferSize.toNat ≤ M.vectorMax
  pageSize_le : cfg.cache.enabled = true →
    cfg.fileSystem.pageSize.toNat ≤ cfg.cache.maxSize.toNat →
      cfg.fileSystem.pageSize.toNat ≤ M.vectorMax
  ttl_fits : cfg.cache.enabled = true → cfg.cache.useTtl = true →
    latest + 1000 * cfg.cache.ttl.toNat < M.instants

section Runs

variable {L : PageLimits} {fs : FileSystem L} {p : Path} {offset size latest capacity : ℕ}
variable {env : Env} {data content : List UInt8}

structure Ready (capacity : ℕ) (fs : FileSystem L) : Prop where
  read : fs.readBuffer.capacity = capacity
  write : fs.writeBuffer.HasRoom

theorem staged_hasRoom {b : WriteBuffer} (h : b.HasRoom) (op : Op) : (op.staged b).2.HasRoom := by
  cases op with
  | write p off d => exact WriteBuffer.stageWrite_hasRoom h p off d
  | flush => exact WriteBuffer.stageFlush_hasRoom h
  | _ => exact h

theorem Ready.step (h : Ready capacity fs) (event : Event) : Ready capacity (next fs event) := by
  cases event with
  | call op env =>
    obtain ⟨hwrite, hread⟩ := run_buffers fs op env
    refine ⟨hread.trans h.read, ?_⟩
    rw [next, hwrite]
    exact staged_hasRoom h.write op
  | others r => exact ⟨h.read, h.write⟩

theorem Ready.run (events : List Event) : ∀ fs : FileSystem L, Ready capacity fs →
    Ready capacity (runEvents fs events) := by
  induction events with
  | nil => exact fun _ h => h
  | cons event events ih => exact fun fs h => ih _ (h.step event)

theorem next_driven (event : Event) (h : Until latest event) :
    Driven latest fs (next fs event) := by
  cases event with
  | call op env => exact Driven.run h op
  | others r => exact Driven.of_cache rfl

/-- Along a run, the cache goes by calls up to its end. -/
theorem runEvents_driven (events : List Event) : ∀ fs : FileSystem L,
    (∀ event ∈ events, Until latest event) → Driven latest fs (runEvents fs events) := by
  induction events with
  | nil => exact fun fs _ => Driven.refl fs
  | cons event events ih =>
    intro fs h
    have hfirst : Driven latest fs (next fs event) :=
      next_driven event (h event List.mem_cons_self)
    exact hfirst.trans (ih _ fun e he => h e (List.mem_cons_of_mem _ he))

theorem Ready.writes (h : Ready capacity fs) (hdata : data ≠ []) :
    (fs.writeFile p offset data env).1 ≠ .ok 0 := by
  intro hzero
  obtain ⟨hn, -⟩ := FileSystem.writeFile_ok hzero
  have hpos := WriteBuffer.stageWrite_written_pos h.write p offset hdata
  omega

/-- The attributes that a read finds do not put the end of the file at the offset. -/
theorem Below.not_ended (h : Below fs p offset (env 0).now content) : ¬Ended fs p offset env := by
  rintro ⟨a, ha, hle⟩
  rcases getAttributes_result ha with ⟨it, hit, hattr⟩ | hserver
  · have hlt := h.cached it a hit hattr
    omega
  · rw [Remote.getAttributes, h.file] at hserver
    cases hserver
    have hlt := h.size
    exact absurd hle (Nat.not_le.mpr hlt)

theorem requestedByte_isSome (hcap : 0 < fs.readBuffer.capacity)
    (h : Below fs p offset (env 0).now content)
    (hdata : requested fs p offset env = .ok data) :
    (requestedByte fs p offset env offset).isSome := by
  have hread := (FileSystem.sent_ok.mp hdata).2.2
  rw [Remote.readFile, h.file] at hread
  injection hread with hread
  rw [requestedByte, hdata]
  dsimp only
  rw [Nat.sub_self, ← hread, FileBytes.getElem?_slice, if_pos hcap, Nat.add_zero,
    List.getElem?_eq_getElem h.size]
  rfl

theorem place_isSome (hcap : 0 < fs.readBuffer.capacity)
    (h : Below fs p offset (env 0).now content)
    (hdata : requested fs p offset env = .ok data) : (place fs p offset env offset).isSome := by
  unfold place
  split_ifs with hc hb
  · exact hc
  · exact hb
  · exact requestedByte_isSome hcap h hdata

theorem readFile_not_empty (hcap : 0 < fs.readBuffer.capacity) (hsize : 0 < size)
    (h : Below fs p offset (env 0).now content) :
    (fs.readFile p offset size env).1 ≠ .ok [] := by
  intro hnil
  rcases (readFile_nil_iff hsize).mp hnil with hended | ⟨hnone, data, hdata⟩
  · exact h.not_ended hended
  · have hsome := place_isSome hcap h hdata
    rw [hnone] at hsome
    cases hsome

theorem readFile_returns (hcap : 0 < fs.readBuffer.capacity) (hsize : 0 < size)
    (h : Below fs p offset (env 0).now content) (htext : p.isUtf8 = true)
    (hreply : (env 5).reply = none) : ∃ bytes, (fs.readFile p offset size env).1 = .ok bytes := by
  have hdata : requested fs p offset env =
      .ok (FileBytes.slice content offset fs.readBuffer.capacity) := by
    refine FileSystem.sent_ok.mpr ⟨htext, hreply, ?_⟩
    rw [Remote.readFile, h.file]
  rcases readFile_brings hsize h.not_ended with ⟨bytes, -, hok, -⟩ | ⟨hnone, -⟩
  · exact ⟨bytes, hok⟩
  · have hsome := place_isSome hcap h hdata
    rw [hnone] at hsome
    cases hsome

end Runs

section Values

variable {M : Machine} {latest : ℕ} {cfg : RfsConfig} {remote : Remote} {now : ℕ}
variable {client : Client}

structure StartedWith (M : Machine) (cfg : RfsConfig) (remote : Remote) (now : ℕ)
    (client : Client) : Prop where
  pageSize : client.limits.pageSize = cfg.fileSystem.pageSize.toNat
  maxPages : client.limits.maxPages = cfg.cache.maxSize.toNat / cfg.fileSystem.pageSize.toNat
  allocated : cfg.fileSystem.bufferSize.toNat ≤ M.vectorMax
  fs : client.fs =
    FileSystem.new remote cfg.fileSystem.bufferSize.toNat now (fromConfig cfg.cache)

theorem newFileSystem_ok (h : newFileSystem M cfg remote now = .ok client) :
    StartedWith M cfg remote now client := by
  unfold newFileSystem at h
  dsimp only at h
  by_cases hpage : 0 < cfg.fileSystem.pageSize.toNat
  · rw [dif_pos hpage] at h
    by_cases hfit : cfg.fileSystem.bufferSize.toNat ≤ M.vectorMax
    · rw [allocate_ok hfit] at h
      injection h with h
      subst h
      exact ⟨rfl, rfl, hfit, rfl⟩
    · rw [allocate_overflow (Nat.not_le.mp hfit)] at h
      cases h
  · rw [dif_neg hpage] at h
    cases h

theorem newFileSystem_returns (hpage : 0 < cfg.fileSystem.pageSize.toNat)
    (hfit : cfg.fileSystem.bufferSize.toNat ≤ M.vectorMax) (remote : Remote) (now : ℕ) :
    ∃ client, newFileSystem M cfg remote now = .ok client := by
  unfold newFileSystem
  dsimp only
  rw [dif_pos hpage, allocate_ok hfit]
  exact ⟨_, rfl⟩

theorem newFileSystem_zero (hpage : cfg.fileSystem.pageSize.toNat = 0) :
    newFileSystem M cfg remote now = .error .divisionByZero := by
  unfold newFileSystem
  dsimp only
  rw [dif_neg (by omega)]

theorem StartedWith.ready (h : StartedWith M cfg remote now client)
    (hpos : 0 < cfg.fileSystem.bufferSize.toNat) :
    Ready cfg.fileSystem.bufferSize.toNat client.fs := by
  rw [h.fs]
  exact ⟨rfl, hpos⟩

theorem StartedWith.cached (h : StartedWith M cfg remote now client) {c : Cache client.limits}
    (hc : client.fs.cache = some c) : cfg.cache.enabled = true ∧ c.entries = ∅ ∧
      c.useTtl = cfg.cache.useTtl ∧ c.ttl = 1000 * cfg.cache.ttl.toNat := by
  rw [h.fs] at hc
  change fromConfig cfg.cache = some c at hc
  unfold fromConfig at hc
  split at hc
  · rename_i henabled
    injection hc with hc
    subst hc
    exact ⟨henabled, rfl, rfl, rfl⟩
  · cases hc

theorem StartedWith.pages (h : StartedWith M cfg remote now client)
    (hpages : cfg.fileSystem.pageSize.toNat ≤ cfg.cache.maxSize.toNat →
      cfg.fileSystem.pageSize.toNat ≤ M.vectorMax) (f : File) (offset : ℕ) (data : List UInt8) :
    writeContent M client.limits.pageSize client.limits.maxPages f offset data ≠
      .error .capacityOverflow := by
  by_cases hfit : cfg.fileSystem.pageSize.toNat ≤ cfg.cache.maxSize.toNat
  · have hpage := hpages hfit
    rw [← h.pageSize] at hpage
    rw [writeContent_eq hpage]
    exact page_ne_capacityOverflow _
  · have hnone : client.limits.maxPages = 0 := by
      rw [h.maxPages]
      exact Nat.div_eq_of_lt (Nat.not_le.mp hfit)
    rw [hnone, writeContent_no_pages]
    simp

theorem usable_works (h : Usable M latest cfg) : Works M latest cfg := by
  intro remote now
  obtain ⟨client, hnew⟩ := newFileSystem_returns h.pageSize_pos h.bufferSize_le remote now
  have hstart := newFileSystem_ok hnew
  have hready := hstart.ready h.bufferSize_pos
  refine ⟨client, hnew, ?_, ?_, ?_, ?_, ?_⟩
  · exact fun f offset size data => ⟨writeLoop_divides client.limits.pageSize_pos _ f data offset,
      read_divides client.limits.pageSize_pos f offset size⟩
  · intro hcache f offset size data
    obtain ⟨c, hc⟩ := Option.ne_none_iff_exists'.mp hcache
    have hpages := hstart.pages (h.pageSize_le (hstart.cached hc).1) f offset data
    refine ⟨hpages, fun hsize => ?_⟩
    rw [read_eq hsize]
    exact page_ne_capacityOverflow _
  · intro events hevents c hc calls hcalls
    obtain ⟨driving, hdriving, hrun⟩ := runEvents_driven events client.fs hevents
    rw [hc] at hrun
    obtain ⟨c₀, hc₀, hend⟩ := Option.map_eq_some_iff.mp hrun.symm
    obtain ⟨henabled, hempty, huse, httl⟩ := hstart.cached hc₀
    have hroom : c₀.useTtl = true → latest + c₀.ttl < M.instants := by
      rw [huse, httl]
      exact h.ttl_fits henabled
    have hreached := (runCalls_ok hroom driving c₀ (Young.of_empty hempty) hdriving).2
    rw [hend] at hreached
    exact ⟨_, (runCalls_ok hroom calls c hreached hcalls).1⟩
  · exact fun events _ p offset data env _ hdata => (hready.run events).writes hdata
  · intro events _ p offset size env content _ hsize _ hbelow
    have hcap : 0 < (runEvents client.fs events).readBuffer.capacity := by
      rw [(hready.run events).read]
      exact h.bufferSize_pos
    exact ⟨readFile_not_empty hcap hsize hbelow, readFile_returns hcap hsize hbelow⟩

def oneFile : Path := [.rootDir, .normal (.text "f")]

theorem writeFile_no_room {L : PageLimits} (cache : Option (Cache L)) :
    ((FileSystem.new (Remote.withFiles [oneFile]) 0 now cache).writeFile oneFile 0 [0]
      (Env.steady 0 none)).1 = .ok 0 := by
  have huploads : ((WriteBuffer.new 0).stageWrite oneFile 0 [0]).uploads =
      [⟨oneFile, 0, []⟩] := by rfl
  have hwritten : ((WriteBuffer.new 0).stageWrite oneFile 0 [0]).written = 0 := by rfl
  have hbuffer : (FileSystem.new (Remote.withFiles [oneFile]) 0 now cache).writeBuffer =
      WriteBuffer.new 0 := rfl
  simp only [FileSystem.writeFile, hbuffer, huploads, hwritten]
  rfl

/-- It works with no others. -/
theorem works_usable (h : Works M latest cfg) : Usable M latest cfg := by
  obtain ⟨client, hnew, hsound⟩ := h (Remote.withFiles [oneFile]) 0
  have hstart := newFileSystem_ok hnew
  have hpage : 0 < cfg.fileSystem.pageSize.toNat := hstart.pageSize ▸ client.limits.pageSize_pos
  have hcache : ∀ henabled : cfg.cache.enabled = true, ∃ c, client.fs.cache = some c := by
    intro henabled
    rw [hstart.fs]
    exact ⟨_, if_pos henabled⟩
  refine ⟨hpage, Nat.pos_of_ne_zero fun hzero => ?_, hstart.allocated, ?_, ?_⟩
  · have hwrite := hsound.writes [] (by simp) oneFile 0 [0] (Env.steady 0 none)
      (fun _ => Nat.zero_le _) (by simp)
    rw [runEvents, hstart.fs, hzero] at hwrite
    exact hwrite (writeFile_no_room _)
  · intro henabled hfit
    obtain ⟨c, hc⟩ := hcache henabled
    by_contra hbig
    have hmax : 0 < client.limits.maxPages := by
      rw [hstart.maxPages]
      exact Nat.div_pos hfit hpage
    have hpages := (hsound.pages (by simp [hc]) (File.new (.text "f") none) 0 0 [0]).1
    refine hpages (writeContent_overflow ?_ hmax (.text "f") 0)
    rw [hstart.pageSize]
    exact Nat.not_le.mp hbig
  · intro henabled huse
    obtain ⟨c, hc⟩ := hcache henabled
    obtain ⟨-, hempty, huse', httl⟩ := hstart.cached hc
    by_contra hlong
    let m : Moment := (Env.steady latest none 0).toMoment
    let item : CacheItem client.limits := .symLink ⟨.text "f", none, none⟩
    have hlate : ∀ call ∈ [(CacheCall.put oneFile item false, m), (.get oneFile, m)],
        call.2.now ≤ latest := by
      simp [m, Env.steady]
    have hover : runCalls M c [(.put oneFile item false, m), (.get oneFile, m)] =
        .error .timeOverflow := by
      refine runCalls_overflow ?_ (huse'.trans huse) ?_ item
      · rw [hempty]
        exact AList.lookup_empty _
      · rw [httl]
        exact Nat.not_lt.mp hlong
    obtain ⟨c', hok⟩ := hsound.cache [] (by simp) c hc _ hlate
    rw [hover] at hok
    cases hok

end Values

theorem finalize_accepts (windows : Bool) (cfg : RfsConfig) :
    (cfg.finalize windows).validate = .ok () ∧
      (cfg.finalize windows).fileSystem = cfg.fileSystem ∧
      (cfg.finalize windows).cache = cfg.cache :=
  ⟨rfl, rfl, rfl⟩

/-- Every configuration is accepted, and the client works with those whose values are usable. -/
theorem accepted_works_iff (windows : Bool) (M : Machine) (latest : ℕ) (cfg : RfsConfig) :
    (cfg.finalize windows).validate = .ok () ∧
      (Works M latest (cfg.finalize windows) ↔ Usable M latest cfg) := by
  obtain ⟨haccepted, hfs, hcache⟩ := finalize_accepts windows cfg
  refine ⟨haccepted, fun h => ?_, fun h => ?_⟩
  · obtain ⟨hpage, hbuffer, hle, hpages, httl⟩ := works_usable h
    rw [hfs] at hpage hbuffer hle hpages
    rw [hcache] at hpages httl
    exact ⟨hpage, hbuffer, hle, hpages, httl⟩
  · refine usable_works ⟨?_, ?_, ?_, ?_, ?_⟩
    · exact hfs ▸ h.pageSize_pos
    · exact hfs ▸ h.bufferSize_pos
    · exact hfs ▸ h.bufferSize_le
    · rw [hfs, hcache]
      exact h.pageSize_le
    · rw [hcache]
      exact h.ttl_fits

theorem default_usable {latest : ℕ} (h : latest + 10000 < Machine.unix.instants) :
    Usable Machine.unix latest RfsConfig.default :=
  ⟨by decide, by decide, by decide, fun _ _ => by decide, fun _ _ => h⟩

def withPageSize (pageSize : UInt64) : RfsConfig :=
  { RfsConfig.default with
    fileSystem := { RfsConfig.default.fileSystem with pageSize := pageSize } }

def withBufferSize (bufferSize : UInt64) : RfsConfig :=
  { RfsConfig.default with
    fileSystem := { RfsConfig.default.fileSystem with bufferSize := bufferSize } }

def withTtl (ttl : UInt64) : RfsConfig :=
  { RfsConfig.default with cache := { RfsConfig.default.cache with ttl := ttl } }

/-- An empty page, an empty buffer and the longest life are accepted. The first panics at once. -/
theorem accepted_values_fail :
    (((withPageSize 0).finalize false).validate = .ok () ∧
      newFileSystem Machine.unix ((withPageSize 0).finalize false)
        (Remote.withFiles [oneFile]) 0 = .error .divisionByZero ∧
      ¬Works Machine.unix 0 ((withPageSize 0).finalize false)) ∧
    (((withBufferSize 0).finalize false).validate = .ok () ∧
      ¬Works Machine.unix 0 ((withBufferSize 0).finalize false)) ∧
    ((withTtl 18446744073709551615).finalize false).validate = .ok () ∧
      ¬Works Machine.unix 0 ((withTtl 18446744073709551615).finalize false) := by
  refine ⟨⟨rfl, newFileSystem_zero rfl, fun h => ?_⟩, ⟨rfl, fun h => ?_⟩, rfl, fun h => ?_⟩
  · exact absurd (works_usable h).pageSize_pos (by decide)
  · exact absurd (works_usable h).bufferSize_pos (by decide)
  · exact absurd ((works_usable h).ttl_fits rfl rfl) (by decide)

end ClientConfiguration
