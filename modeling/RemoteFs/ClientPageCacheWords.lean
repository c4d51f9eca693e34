import RemoteFs.ClientFaults
import RemoteFs.ClientPageCacheWrites

/-! # The page cache on machine words

Positions are `usize` here, every slice is checked, and a call that panics leaves the file as it
was at that moment. Sums within a page are bounded by its size, so the calls of a page are those
on natural numbers. -/
namespace ClientPageCacheWords

open ClientFaults (Machine)
open ClientPageCache
open ClientPageCacheLoops
open ClientPageCacheWrites
open FileBytes
open OsPaths

/-! A round of a loop goes on with the next state, or ends the loop there, perhaps with a fault. A
loop that is bounded by a number of rounds has no result if it has not ended by then. -/

section Rounds

inductive Round (σ ε : Type*) where
  | next (s : σ)
  | stop (s : σ) (fault : Option ε)

variable {σ ε : Type*}

def run (round : σ → Round σ ε) : ℕ → σ → Option (σ × Option ε)
  | 0, _ => none
  | n + 1, s =>
    match round s with
    | .next s => run round n s
    | .stop s fault => some (s, fault)

/-- The rule of total correctness: an invariant, and a measure that every round makes smaller. -/
theorem run_total {I : σ → Prop} {Q : σ → Option ε → Prop} (round : σ → Round σ ε) (μ : σ → ℕ)
    (hnext : ∀ s s', I s → round s = .next s' → I s' ∧ μ s' < μ s)
    (hstop : ∀ s s' fault, I s → round s = .stop s' fault → Q s' fault) (n : ℕ) :
    ∀ s, I s → μ s < n → ∃ s' fault, run round n s = some (s', fault) ∧ Q s' fault := by
  induction n with
  | zero => exact fun _ _ h => absurd h (Nat.not_lt_zero _)
  | succ n ih =>
    intro s hs hn
    rw [run]
    cases hround : round s with
    | next s' =>
      obtain ⟨hs', hlt⟩ := hnext s s' hs hround
      exact ih s' hs' (Nat.lt_of_lt_of_le hlt (Nat.le_of_lt_succ hn))
    | stop s' fault => exact ⟨s', fault, rfl, hstop s s' fault hs hround⟩

end Rounds

inductive Fault where
  | overflow
  | capacityOverflow
  | page (panic : Panic)
  deriving DecidableEq, Repr

/-- A sum or product of `usize`, in a build with overflow checks or without. -/
def word (checks : Bool) (n : ℕ) : Except Fault ℕ :=
  if n < 2 ^ 64 then .ok n else if checks then .error .overflow else .ok (n % 2 ^ 64)

def sub (checks : Bool) (a b : ℕ) : Except Fault ℕ :=
  if b ≤ a then .ok (a - b) else if checks then .error .overflow else .ok (a + 2 ^ 64 - b)

def range (xs : List UInt8) (a b : ℕ) : Except Fault (List UInt8) :=
  if a ≤ b ∧ b ≤ xs.length then .ok (slice xs a (b - a)) else .error (.page .sliceOutOfRange)

def allocate (M : Machine) (n : ℕ) : Except Fault Unit :=
  if n ≤ M.vectorMax then .ok () else .error .capacityOverflow

variable (M : Machine) (checks : Bool) (L : PageLimits)

def entryOrDefault (f : File) (k : ℕ) : Except Fault (FilePage × File) :=
  match AList.lookup k f.content with
  | some page => .ok (page, f)
  | none => (allocate M L.pageSize).map fun _ => (FilePage.new L, f.insertPage k (FilePage.new L))

structure Writing where
  file : File
  remaining : List UInt8
  curr : ℕ

def writeToPage (page : FilePage) (remaining : List UInt8) (pageOffset : ℕ) :
    Except Fault (FilePage × ℕ) :=
  match sub checks L.pageSize pageOffset with
  | .error e => .error e
  | .ok writable =>
    match range remaining 0 (min remaining.length writable) with
    | .error e => .error e
    | .ok data =>
      match page.write L data pageOffset with
      | .error e => .error (.page e)
      | .ok page => .ok (page, min remaining.length writable)

def advance (remaining : List UInt8) (curr toWrite : ℕ) : Except Fault (List UInt8 × ℕ) :=
  match range remaining toWrite remaining.length with
  | .error e => .error e
  | .ok remaining =>
    match word checks (curr + toWrite) with
    | .error e => .error e
    | .ok curr => .ok (remaining, curr)

/-- A panic is reported with the file that it leaves. -/
def writePage (s : Writing) : Except (Fault × File) Writing :=
  match entryOrDefault M L s.file (s.curr / L.pageSize) with
  | .error e => .error (e, s.file)
  | .ok (page, file) =>
    match writeToPage checks L page s.remaining (s.curr % L.pageSize) with
    | .error e => .error (e, file)
    | .ok (page, toWrite) =>
      match advance checks s.remaining s.curr toWrite with
      | .error e => .error (e, file.insertPage (s.curr / L.pageSize) page)
      | .ok (remaining, curr) =>
        .ok ⟨file.insertPage (s.curr / L.pageSize) page, remaining, curr⟩

def writeRound (s : Writing) : Round Writing Fault :=
  if s.remaining = [] then .stop s none
  else if L.maxPages = 0 then .stop s none
  else if L.maxPages ≤ s.file.pageCount then .stop s none
  else
    match writePage M checks L s with
    | .error (e, f) => .stop { s with file := f } (some e)
    | .ok s => .next s

/-- The file behind `write_content` and the panic it ends with, if any; every round takes at
least one byte, if the loop ends. -/
def writeContent (f : File) (offset : ℕ) (data : List UInt8) : Option (File × Option Fault) :=
  (run (writeRound M checks L) (data.length + 1) ⟨f, data, offset⟩).map fun done =>
    (done.1.file, done.2)

structure Reading where
  buffer : List UInt8
  remaining : ℕ
  curr : ℕ

def readPage (f : File) (s : Reading) : Except Fault (Bool × Reading) :=
  match AList.lookup (s.curr / L.pageSize) f.content with
  | none => .ok (false, s)
  | some page =>
    match sub checks L.pageSize (s.curr % L.pageSize) with
    | .error e => .error e
    | .ok readable =>
      match page.read L (s.curr % L.pageSize) (min s.remaining readable) with
      | .error e => .error (.page e)
      | .ok none => .ok (false, s)
      | .ok (some bytes) =>
        match sub checks s.remaining bytes.length with
        | .error e => .error e
        | .ok remaining =>
          if bytes.length < min s.remaining readable then
            .ok (false, ⟨s.buffer ++ bytes, remaining, s.curr⟩)
          else
            match word checks (s.curr + min s.remaining readable) with
            | .error e => .error e
            | .ok curr => .ok (true, ⟨s.buffer ++ bytes, remaining, curr⟩)

def readRound (f : File) (s : Reading) : Round Reading Fault :=
  if s.remaining = 0 then .stop s none
  else
    match readPage checks L f s with
    | .error e => .stop s (some e)
    | .ok (false, s) => .stop s none
    | .ok (true, s) => .next s

def read (f : File) (offset size : ℕ) : Option (List UInt8 × Option Fault) :=
  match allocate M size with
  | .error e => some ([], some e)
  | .ok () => (run (readRound checks L f) (size + 1) ⟨[], size, offset⟩).map fun done =>
      (done.1.buffer, done.2)

def mergePage (key : ℕ) (page : FilePage) : Except Fault (ℕ × List UInt8) :=
  match word checks (key * L.pageSize) with
  | .error e => .error e
  | .ok start =>
    match word checks (start + page.validFrom) with
    | .error e => .error e
    | .ok offset =>
      match range page.content page.validFrom page.validUpTo with
      | .error e => .error e
      | .ok bytes => .ok (offset, bytes)

def mergeLoop (other : File) : List ℕ → File → Option (File × Option Fault)
  | [], f => some (f, none)
  | key :: keys, f =>
    match AList.lookup key other.content with
    | none => mergeLoop other keys f
    | some page =>
      if L.maxPages = 0 then some (f, none)
      else if L.maxPages ≤ f.pageCount then some (f, none)
      else
        match mergePage checks L key page with
        | .error e => some (f, some e)
        | .ok (offset, bytes) =>
          match writeContent M checks L f offset bytes with
          | some (f, none) => mergeLoop other keys f
          | done => done

def merge (f other : File) (walk : HashOrder ℕ) : Option (File × Option Fault) :=
  mergeLoop M checks L other (walk.order other.content.keys)
    { f with attributes := if other.attributes.isSome then other.attributes else f.attributes }

/-- What the calls make of a new file, whether or not they panic; every write is within the
positions that there are. -/
inductive Reached : File → Prop where
  | new (name : OsString) (attributes : Option ClientAttributes.Attributes) :
      Reached (File.new name attributes)
  | written {f f' : File} {offset : ℕ} {data : List UInt8} {fault : Option Fault}
      (h : Reached f) (hfits : offset + data.length < 2 ^ 64)
      (hrun : writeContent M checks L f offset data = some (f', fault)) : Reached f'
  | merged {f other f' : File} {walk : HashOrder ℕ} {fault : Option Fault} (h : Reached f)
      (ho : Reached other) (hrun : merge M checks L f other walk = some (f', fault)) : Reached f'

structure PageInvariant (page : FilePage) : Prop where
  length : page.content.length = L.pageSize
  valid : page.validFrom < page.validUpTo
  upTo_le : page.validUpTo ≤ L.pageSize

structure Represented (f : File) : Prop where
  page : ∀ k page, AList.lookup k f.content = some page → PageInvariant L page
  count : f.pageCount ≤ L.maxPages

def Within (f : File) : Prop :=
  ∀ k page, AList.lookup k f.content = some page → k * L.pageSize + page.validUpTo < 2 ^ 64

/-- A call may panic where something is too long for a vector or leaves the positions that there
are, and never at a slice. -/
def Ended (tooLong inRange : Prop) : Option Fault → Prop
  | none => True
  | some .overflow => ¬inRange
  | some .capacityOverflow => tooLong
  | some (.page _) => False

variable {M checks L}
variable {f other : File} {page page' : FilePage} {s : Writing} {k n : ℕ} {a b : ℕ}
variable {xs data : List UInt8}

section Operations

theorem word_fits (h : n < 2 ^ 64) : word checks n = .ok n := if_pos h

theorem word_cases (checks : Bool) (n : ℕ) :
    (∃ m, word checks n = .ok m ∧ (n < 2 ^ 64 → m = n)) ∨
      (word checks n = .error .overflow ∧ 2 ^ 64 ≤ n) := by
  by_cases h : n < 2 ^ 64
  · exact .inl ⟨n, word_fits h, fun _ => rfl⟩
  · rw [word, if_neg h]
    cases checks with
    | false => exact .inl ⟨_, rfl, fun h' => absurd h' h⟩
    | true => exact .inr ⟨rfl, Nat.not_lt.mp h⟩

theorem sub_ok (h : b ≤ a) : sub checks a b = .ok (a - b) := if_pos h

theorem range_ok (h : a ≤ b) (hb : b ≤ xs.length) : range xs a b = .ok (slice xs a (b - a)) :=
  if_pos ⟨h, hb⟩

theorem entryOrDefault_cases (f : File) (k : ℕ) :
    (∃ f₁, entryOrDefault M L f k = .ok (f.entryOrDefault L k, f₁) ∧
      ∀ page', f₁.insertPage k page' = f.insertPage k page') ∨
    (entryOrDefault M L f k = .error .capacityOverflow ∧ M.vectorMax < L.pageSize) := by
  unfold entryOrDefault File.entryOrDefault
  cases hl : AList.lookup k f.content with
  | some page => exact .inl ⟨f, rfl, fun _ => rfl⟩
  | none =>
    unfold allocate
    by_cases hfits : L.pageSize ≤ M.vectorMax
    · refine .inl ⟨f.insertPage k (FilePage.new L), by rw [if_pos hfits]; rfl, fun page' => ?_⟩
      simp only [File.insertPage, AList.insert_insert]
    · exact .inr ⟨by rw [if_neg hfits]; rfl, Nat.not_le.mp hfits⟩

end Operations

section Invariant

theorem Represented.entryOrDefault (h : Represented L f) (k : ℕ) :
    (f.entryOrDefault L k).content.length = L.pageSize ∧
      (f.entryOrDefault L k).validUpTo ≤ L.pageSize := by
  unfold File.entryOrDefault
  cases hl : AList.lookup k f.content with
  | none => exact ⟨List.length_replicate, Nat.zero_le _⟩
  | some page => exact ⟨(h.page k page hl).length, (h.page k page hl).upTo_le⟩

theorem Within.entryOrDefault (h : Within L f) (k : ℕ) :
    (f.entryOrDefault L k).validUpTo = 0 ∨
      k * L.pageSize + (f.entryOrDefault L k).validUpTo < 2 ^ 64 := by
  unfold File.entryOrDefault
  cases hl : AList.lookup k f.content with
  | none => exact .inl rfl
  | some page => exact .inr (h k page hl)

theorem Represented.insertPage (h : Represented L f) (hp : PageInvariant L page)
    (hroom : f.pageCount < L.maxPages) : Represented L (f.insertPage k page) := by
  constructor
  · intro j pg hj
    by_cases hjk : j = k
    · subst hjk
      rw [File.lookup_insertPage_self] at hj
      exact Option.some.inj hj ▸ hp
    · rw [File.lookup_insertPage_ne page hjk] at hj
      exact h.page j pg hj
  · have hle := Finset.card_insert_le k (pages f)
    rw [← pages_insertPage f k page, card_pages, card_pages] at hle
    omega

theorem Within.insertPage (h : Within L f) (hp : k * L.pageSize + page.validUpTo < 2 ^ 64) :
    Within L (f.insertPage k page) := by
  intro j pg hj
  by_cases hjk : j = k
  · subst hjk
    rw [File.lookup_insertPage_self] at hj
    exact Option.some.inj hj ▸ hp
  · rw [File.lookup_insertPage_ne page hjk] at hj
    exact h j pg hj

/-- The page behind a write that fits it. -/
theorem PageInvariant.of_write {offset : ℕ} (hlen : page.content.length = L.pageSize)
    (hup : page.validUpTo ≤ L.pageSize) (hd : 0 < data.length)
    (hfit : offset + data.length ≤ L.pageSize) : ∃ page', page.write L data offset = .ok page' ∧
      PageInvariant L page' ∧ page'.validUpTo = max page.validUpTo (offset + data.length) := by
  refine ⟨_, FilePage.write_room hlen hfit, ⟨?_, ?_, ?_⟩, rfl⟩
  · dsimp only
    rw [length_copyInto (by omega), hlen]
  · dsimp only
    omega
  · dsimp only
    omega

end Invariant

section Writes

def taken (L : PageLimits) (s : Writing) : ℕ :=
  min s.remaining.length (L.pageSize - s.curr % L.pageSize)

structure PageWritten (M : Machine) (checks : Bool) (L : PageLimits) (s : Writing)
    (page : FilePage) : Prop where
  written : (s.file.entryOrDefault L (s.curr / L.pageSize)).write L (s.remaining.take (taken L s))
    (s.curr % L.pageSize) = .ok page
  represented : Represented L (s.file.insertPage (s.curr / L.pageSize) page)
  within : Within L s.file → s.curr + taken L s < 2 ^ 64 →
    Within L (s.file.insertPage (s.curr / L.pageSize) page)
  result : (writePage M checks L s = .error (.capacityOverflow, s.file) ∧
      M.vectorMax < L.pageSize) ∨
    (writePage M checks L s =
        .error (.overflow, s.file.insertPage (s.curr / L.pageSize) page) ∧
      2 ^ 64 ≤ s.curr + taken L s) ∨
    ∃ curr, writePage M checks L s = .ok ⟨s.file.insertPage (s.curr / L.pageSize) page,
      s.remaining.drop (taken L s), curr⟩ ∧
        (s.curr + taken L s < 2 ^ 64 → curr = s.curr + taken L s)

theorem writePage_spec (checks : Bool) (h : Represented L s.file)
    (hne : s.remaining ≠ []) (hroom : s.file.pageCount < L.maxPages) :
    ∃ page, PageWritten M checks L s page := by
  have hmod := Nat.mod_lt s.curr L.pageSize_pos
  have hdiv := Nat.div_add_mod' s.curr L.pageSize
  have hlen : 0 < s.remaining.length := List.length_pos_of_ne_nil hne
  have htaken : taken L s ≤ s.remaining.length ∧ 0 < taken L s ∧
      s.curr % L.pageSize + taken L s ≤ L.pageSize := by
    unfold taken
    omega
  have hdata : (s.remaining.take (taken L s)).length = taken L s := by
    rw [List.length_take]
    omega
  obtain ⟨hcontent, hup⟩ := h.entryOrDefault (s.curr / L.pageSize)
  obtain ⟨page, hw, hp, hvalid⟩ := PageInvariant.of_write hcontent hup
    (show 0 < (s.remaining.take (taken L s)).length by omega)
    (show s.curr % L.pageSize + (s.remaining.take (taken L s)).length ≤ L.pageSize by omega)
  refine ⟨page, hw, h.insertPage hp hroom, fun hwithin hend => hwithin.insertPage ?_, ?_⟩
  · have hold := hwithin.entryOrDefault (s.curr / L.pageSize)
    omega
  have hsub : sub checks L.pageSize (s.curr % L.pageSize) =
      .ok (L.pageSize - s.curr % L.pageSize) := sub_ok hmod.le
  have htoWrite : min s.remaining.length (L.pageSize - s.curr % L.pageSize) = taken L s := rfl
  have hfirst : range s.remaining 0 (taken L s) = .ok (s.remaining.take (taken L s)) :=
    range_ok (Nat.zero_le _) htaken.1
  have hrest : range s.remaining (taken L s) s.remaining.length =
      .ok (s.remaining.drop (taken L s)) := by
    rw [range_ok htaken.1 le_rfl, slice, List.take_of_length_le (by simp)]
  have hpage : writeToPage checks L (s.file.entryOrDefault L (s.curr / L.pageSize)) s.remaining
      (s.curr % L.pageSize) = .ok (page, taken L s) := by
    rw [writeToPage, hsub]
    dsimp only
    rw [htoWrite, hfirst]
    dsimp only
    rw [hw]
  rcases entryOrDefault_cases (M := M) (L := L) s.file (s.curr / L.pageSize) with
    ⟨f₁, hentry, hsame⟩ | ⟨hentry, hlong⟩
  · right
    rw [writePage, hentry]
    dsimp only
    rw [hpage]
    dsimp only
    rw [hsame, advance, hrest]
    dsimp only
    rcases word_cases checks (s.curr + taken L s) with ⟨curr, hcurr, hfits⟩ | ⟨hcurr, hover⟩
    · refine .inr ⟨curr, ?_, hfits⟩
      rw [hcurr]
    · refine .inl ⟨?_, hover⟩
      rw [hcurr]
  · refine .inl ⟨?_, hlong⟩
    rw [writePage, hentry]

theorem writeRound_cases (M : Machine) (checks : Bool) (L : PageLimits) (s : Writing) :
    writeRound M checks L s = .stop s none ∨
    s.remaining ≠ [] ∧ s.file.pageCount < L.maxPages ∧
      (∀ e f, writePage M checks L s = .error (e, f) →
        writeRound M checks L s = .stop { s with file := f } (some e)) ∧
      (∀ s', writePage M checks L s = .ok s' → writeRound M checks L s = .next s') := by
  unfold writeRound
  by_cases hnil : s.remaining = []
  · exact .inl (if_pos hnil)
  by_cases hzero : L.maxPages = 0
  · exact .inl (by rw [if_neg hnil, if_pos hzero])
  by_cases hfull : L.maxPages ≤ s.file.pageCount
  · exact .inl (by rw [if_neg hnil, if_neg hzero, if_pos hfull])
  rw [if_neg hnil, if_neg hzero, if_neg hfull]
  refine .inr ⟨hnil, by omega, fun e f he => by rw [he], fun s' hs => by rw [hs]⟩

structure OnTheWay (L : PageLimits) (f : File) (inRange : Prop) (s : Writing) : Prop where
  represented : Represented L s.file
  within : inRange → Within L f → Within L s.file
  fits : inRange → s.curr + s.remaining.length < 2 ^ 64

theorem taken_le (s : Writing) : taken L s ≤ s.remaining.length := Nat.min_le_left _ _

theorem taken_pos (h : s.remaining ≠ []) : 0 < taken L s := by
  have hlen := List.length_pos_of_ne_nil h
  have hmod := Nat.mod_lt s.curr L.pageSize_pos
  unfold taken
  omega

theorem OnTheWay.next {inRange : Prop} {s' : Writing} (h : OnTheWay L f inRange s)
    (hround : writeRound M checks L s = .next s') :
    OnTheWay L f inRange s' ∧ s'.remaining.length < s.remaining.length := by
  rcases writeRound_cases M checks L s with
    hstop | ⟨hne, hroom, herror, hok⟩
  · cases hstop.symm.trans hround
  obtain ⟨page, hpage⟩ := writePage_spec (M := M) checks h.represented hne hroom
  have hle := taken_le (L := L) s
  have hpos := taken_pos (L := L) hne
  rcases hpage.result with ⟨he, -⟩ | ⟨he, -⟩ | ⟨curr, hs, hcurr⟩
  · cases (herror _ _ he).symm.trans hround
  · cases (herror _ _ he).symm.trans hround
  have hs' := (hok _ hs).symm.trans hround
  injection hs' with hs'
  subst hs'
  refine ⟨⟨hpage.represented, fun hrange hf => ?_, fun hrange => ?_⟩, ?_⟩
  · have hfits := h.fits hrange
    exact hpage.within (h.within hrange hf) (by omega)
  · have hfits := h.fits hrange
    have hsame := hcurr (by omega)
    dsimp only
    rw [hsame, List.length_drop]
    omega
  · dsimp only
    rw [List.length_drop]
    omega

theorem OnTheWay.stop {inRange : Prop} {s' : Writing} {fault : Option Fault}
    (h : OnTheWay L f inRange s) (hround : writeRound M checks L s = .stop s' fault) :
    Represented L s'.file ∧ (inRange → Within L f → Within L s'.file) ∧
      Ended (M.vectorMax < L.pageSize) inRange fault := by
  rcases writeRound_cases M checks L s with
    hstop | ⟨hne, hroom, herror, hok⟩
  · have hs := hstop.symm.trans hround
    injection hs with hs hfault
    subst hs hfault
    exact ⟨h.represented, h.within, trivial⟩
  obtain ⟨page, hpage⟩ := writePage_spec (M := M) checks h.represented hne hroom
  have hle := taken_le (L := L) s
  rcases hpage.result with ⟨he, hlong⟩ | ⟨he, hover⟩ | ⟨curr, hs, -⟩
  · have hs := (herror _ _ he).symm.trans hround
    injection hs with hs hfault
    subst hs hfault
    exact ⟨h.represented, h.within, hlong⟩
  · have hs := (herror _ _ he).symm.trans hround
    injection hs with hs hfault
    subst hs hfault
    have hout : ¬inRange := by
      intro hrange
      have hfits := h.fits hrange
      omega
    exact ⟨hpage.represented, fun hrange => (hout hrange).elim, hout⟩
  · cases (hok _ hs).symm.trans hround

theorem writeContent_ended (M : Machine) (checks : Bool) (h : Represented L f) (offset : ℕ)
    (data : List UInt8) :
    ∃ f' fault, writeContent M checks L f offset data = some (f', fault) ∧ Represented L f' ∧
      (offset + data.length < 2 ^ 64 → Within L f → Within L f') ∧
      Ended (M.vectorMax < L.pageSize) (offset + data.length < 2 ^ 64) fault := by
  obtain ⟨s, fault, hrun, hrep, hwithin, hended⟩ :=
    run_total (I := OnTheWay L f (offset + data.length < 2 ^ 64))
      (Q := fun s fault => Represented L s.file ∧
        (offset + data.length < 2 ^ 64 → Within L f → Within L s.file) ∧
        Ended (M.vectorMax < L.pageSize) (offset + data.length < 2 ^ 64) fault)
      (writeRound M checks L) (fun s => s.remaining.length) (fun _ _ => OnTheWay.next)
      (fun _ _ _ => OnTheWay.stop)
      (data.length + 1) ⟨f, data, offset⟩ ⟨h, fun _ hf => hf, fun hrange => hrange⟩
      (Nat.lt_succ_self _)
  exact ⟨s.file, fault, by rw [writeContent, hrun]; rfl, hrep, hwithin, hended⟩

end Writes

section Reads

variable {r : Reading} {offset size : ℕ}

/-- A page is read within its valid bytes. -/
theorem PageInvariant.read (h : PageInvariant L page) (offset size : ℕ) :
    page.read L offset size = .ok none ∨ ∃ bytes, page.read L offset size = .ok (some bytes) ∧
      bytes.length ≤ size ∧ (size ≤ bytes.length → 0 < size → offset + size ≤ page.validUpTo) := by
  obtain ⟨hlen, -, hup⟩ := h
  unfold FilePage.read
  by_cases hfrom : offset < page.validFrom
  · exact .inl (if_pos hfrom)
  dsimp only
  rw [if_neg hfrom]
  by_cases hend : min (min (offset + size) L.pageSize) page.validUpTo < offset
  · exact .inl (if_pos hend)
  rw [if_neg hend, if_neg (by omega)]
  refine .inr ⟨_, rfl, ?_, ?_⟩
  · simp only [slice, List.length_take, List.length_drop]
    omega
  · simp only [slice, List.length_take, List.length_drop]
    omega

theorem readPage_cases (checks : Bool) (h : Represented L f) (hne : r.remaining ≠ 0) :
    (∃ r', readPage checks L f r = .ok (false, r')) ∨
      (readPage checks L f r = .error .overflow ∧ ¬Within L f) ∨
      ∃ r', readPage checks L f r = .ok (true, r') ∧ r'.remaining < r.remaining := by
  have hmod := Nat.mod_lt r.curr L.pageSize_pos
  have hdiv := Nat.div_add_mod' r.curr L.pageSize
  unfold readPage
  cases hl : AList.lookup (r.curr / L.pageSize) f.content with
  | none => exact .inl ⟨r, rfl⟩
  | some page =>
    obtain ⟨n, hn⟩ : ∃ n, n = min r.remaining (L.pageSize - r.curr % L.pageSize) := ⟨_, rfl⟩
    dsimp only
    rw [sub_ok hmod.le]
    dsimp only
    rw [← hn]
    rcases (h.page _ page hl).read (r.curr % L.pageSize) n with hread | ⟨bytes, hread, hle, hfull⟩
    · rw [hread]
      exact .inl ⟨r, rfl⟩
    rw [hread]
    dsimp only
    rw [sub_ok (show bytes.length ≤ r.remaining by omega)]
    dsimp only
    by_cases hshort : bytes.length < n
    · rw [if_pos hshort]
      exact .inl ⟨_, rfl⟩
    rw [if_neg hshort]
    rcases word_cases checks (r.curr + n) with ⟨curr, hcurr, -⟩ | ⟨hcurr, hover⟩
    · rw [hcurr]
      refine .inr (.inr ⟨_, rfl, ?_⟩)
      dsimp only
      omega
    · rw [hcurr]
      refine .inr (.inl ⟨rfl, fun hwithin => ?_⟩)
      have hend := hwithin _ page hl
      have hvalid := hfull (by omega) (by omega)
      omega

theorem Ended.mono {tooLong tooLong' inRange inRange' : Prop} {fault : Option Fault}
    (h : Ended tooLong inRange fault) (hlong : tooLong → tooLong')
    (hrange : inRange' → inRange) : Ended tooLong' inRange' fault := by
  rcases fault with _ | _ | _ | _
  · trivial
  · exact fun h' => h (hrange h')
  · exact hlong h
  · exact h

/-- The step lemma of a read: what is left to read gets less, or the loop ends. -/
theorem readRound_cases (checks : Bool) (h : Represented L f) (r : Reading) :
    (∃ r' fault, readRound checks L f r = .stop r' fault ∧ Ended False (Within L f) fault) ∨
      ∃ r', readRound checks L f r = .next r' ∧ r'.remaining < r.remaining := by
  unfold readRound
  by_cases hnil : r.remaining = 0
  · exact .inl ⟨r, none, if_pos hnil, trivial⟩
  rw [if_neg hnil]
  rcases readPage_cases checks h hnil with ⟨r', hr⟩ | ⟨hr, hout⟩ | ⟨r', hr, hlt⟩
  · rw [hr]
    exact .inl ⟨r', none, rfl, trivial⟩
  · rw [hr]
    exact .inl ⟨r, _, rfl, hout⟩
  · rw [hr]
    exact .inr ⟨r', rfl, hlt⟩

theorem read_ended (h : Represented L f) (offset size : ℕ) :
    ∃ bytes fault, read M checks L f offset size = some (bytes, fault) ∧
      Ended (M.vectorMax < size) (Within L f) fault := by
  have hnext : ∀ r r' : Reading, True → readRound checks L f r = .next r' →
      True ∧ r'.remaining < r.remaining := by
    intro r r' _ hround
    rcases readRound_cases checks h r with ⟨r₁, fault, hr, -⟩ | ⟨r₁, hr, hlt⟩
    · cases hr.symm.trans hround
    · have hsame := hr.symm.trans hround
      injection hsame with hsame
      exact ⟨trivial, hsame ▸ hlt⟩
  have hstop : ∀ (r r' : Reading) fault, True → readRound checks L f r = .stop r' fault →
      Ended False (Within L f) fault := by
    intro r r' fault _ hround
    rcases readRound_cases checks h r with ⟨r₁, fault₁, hr, hended⟩ | ⟨r₁, hr, -⟩
    · have hsame := hr.symm.trans hround
      injection hsame with _ hsame
      exact hsame ▸ hended
    · cases hr.symm.trans hround
  unfold read allocate
  by_cases hfits : size ≤ M.vectorMax
  · obtain ⟨r, fault, hrun, hended⟩ := run_total (I := fun _ => True)
      (Q := fun _ fault => Ended False (Within L f) fault) (readRound checks L f)
      (fun r => r.remaining) hnext hstop (size + 1) ⟨[], size, offset⟩ trivial (Nat.lt_succ_self _)
    rw [if_pos hfits]
    dsimp only
    rw [hrun]
    exact ⟨r.buffer, fault, rfl, hended.mono False.elim id⟩
  · rw [if_neg hfits]
    exact ⟨[], _, rfl, Nat.not_le.mp hfits⟩

end Reads

section Merges

/-- The valid bytes of a page have a place in the file, unless the positions end before it. -/
theorem mergePage_cases (checks : Bool) (h : PageInvariant L page) (key : ℕ) :
    (mergePage checks L key page = .error .overflow ∧
      2 ^ 64 ≤ key * L.pageSize + page.validUpTo) ∨
    ∃ offset bytes, mergePage checks L key page = .ok (offset, bytes) ∧
      (key * L.pageSize + page.validUpTo < 2 ^ 64 → offset + bytes.length < 2 ^ 64) := by
  obtain ⟨hlen, hvalid, hup⟩ := h
  have hbytes : range page.content page.validFrom page.validUpTo =
      .ok (slice page.content page.validFrom (page.validUpTo - page.validFrom)) :=
    range_ok hvalid.le (by omega)
  unfold mergePage
  rcases word_cases checks (key * L.pageSize) with ⟨start, hstart, hexact⟩ | ⟨hstart, hover⟩
  · rw [hstart]
    dsimp only
    rcases word_cases checks (start + page.validFrom) with ⟨offset, hoff, hexact'⟩ | ⟨hoff, hover⟩
    · rw [hoff]
      dsimp only
      rw [hbytes]
      refine .inr ⟨_, _, rfl, fun hfits => ?_⟩
      have hsame := hexact (by omega)
      have hsame' := hexact' (by omega)
      have hlength : (slice page.content page.validFrom
          (page.validUpTo - page.validFrom)).length = page.validUpTo - page.validFrom := by
        simp only [slice, List.length_take, List.length_drop]
        omega
      omega
    · rw [hoff]
      refine .inl ⟨rfl, ?_⟩
      by_contra hfits
      have hsame := hexact (by omega)
      omega
  · rw [hstart]
    exact .inl ⟨rfl, by omega⟩

theorem mergeLoop_ended (ho : Represented L other) (keys : List ℕ) : ∀ f : File,
    Represented L f → ∃ f' fault, mergeLoop M checks L other keys f = some (f', fault) ∧
      Represented L f' ∧ (Within L other → Within L f → Within L f') ∧
      Ended (M.vectorMax < L.pageSize) (Within L other) fault := by
  induction keys with
  | nil => exact fun f h => ⟨f, none, rfl, h, fun _ hf => hf, trivial⟩
  | cons key keys ih =>
    intro f h
    rw [mergeLoop]
    cases hl : AList.lookup key other.content with
    | none => exact ih f h
    | some page =>
      dsimp only
      by_cases hzero : L.maxPages = 0
      · rw [if_pos hzero]
        exact ⟨f, none, rfl, h, fun _ hf => hf, trivial⟩
      rw [if_neg hzero]
      by_cases hfull : L.maxPages ≤ f.pageCount
      · rw [if_pos hfull]
        exact ⟨f, none, rfl, h, fun _ hf => hf, trivial⟩
      rw [if_neg hfull]
      rcases mergePage_cases checks (ho.page key page hl) key with
        ⟨hpage, hover⟩ | ⟨offset, bytes, hpage, hfits⟩
      · rw [hpage]
        refine ⟨f, _, rfl, h, fun _ hf => hf, fun hwithin => ?_⟩
        have hend := hwithin key page hl
        omega
      rw [hpage]
      dsimp only
      have hrange : Within L other → offset + bytes.length < 2 ^ 64 :=
        fun hwithin => hfits (hwithin key page hl)
      obtain ⟨f₁, fault, hwrite, hrep, hkept, hended⟩ :=
        writeContent_ended M checks h offset bytes
      rw [hwrite]
      cases fault with
      | some e =>
        exact ⟨f₁, some e, rfl, hrep, fun hwithin => hkept (hrange hwithin),
          hended.mono id hrange⟩
      | none =>
        obtain ⟨f', fault, hrun, hrep', hkept', hended'⟩ := ih f₁ hrep
        exact ⟨f', fault, hrun, hrep', fun hwithin hf => hkept' hwithin (hkept (hrange hwithin) hf),
          hended'⟩

theorem merge_ended (h : Represented L f) (ho : Represented L other) (walk : HashOrder ℕ) :
    ∃ f' fault, merge M checks L f other walk = some (f', fault) ∧ Represented L f' ∧
      (Within L other → Within L f → Within L f') ∧
      Ended (M.vectorMax < L.pageSize) (Within L other) fault :=
  mergeLoop_ended ho _ _ ⟨h.page, h.count⟩

end Merges

/-! Within the positions that there are, the calls are those on natural numbers. -/

section Exact

/-- As long as the bytes that the loop stores end before the positions do. -/
theorem writeLoop_exact (checks : Bool) (fuel : ℕ) :
    ∀ s : Writing, Represented L s.file → s.remaining.length ≤ fuel →
      ∃ f' rest, s.file.writeLoop L fuel s.remaining s.curr = .ok (f', rest) ∧
        rest.length ≤ s.remaining.length ∧
        ((s.remaining ≠ [] → L.pageSize ≤ M.vectorMax) →
          s.curr + (s.remaining.length - rest.length) < 2 ^ 64 →
          ∃ curr, run (writeRound M checks L) (fuel + 1) s = some (⟨f', rest, curr⟩, none)) := by
  induction fuel with
  | zero =>
    intro s _ hfuel
    have hnil : s.remaining = [] := List.length_eq_zero_iff.mp (Nat.le_zero.mp hfuel)
    refine ⟨s.file, s.remaining, rfl, le_rfl, fun _ _ => ⟨s.curr, ?_⟩⟩
    rw [run, writeRound, if_pos hnil]
  | succ fuel ih =>
    intro s h hfuel
    rw [File.writeLoop, run, writeRound]
    by_cases hnil : s.remaining = []
    · rw [if_pos hnil, if_pos hnil]
      exact ⟨s.file, s.remaining, rfl, le_rfl, fun _ _ => ⟨s.curr, rfl⟩⟩
    rw [if_neg hnil, if_neg hnil]
    by_cases hzero : L.maxPages = 0
    · rw [if_pos hzero, if_pos hzero]
      exact ⟨s.file, s.remaining, rfl, le_rfl, fun _ _ => ⟨s.curr, rfl⟩⟩
    rw [if_neg hzero, if_neg hzero]
    by_cases hfull : L.maxPages ≤ s.file.pageCount
    · rw [if_pos hfull, if_pos hfull]
      exact ⟨s.file, s.remaining, rfl, le_rfl, fun _ _ => ⟨s.curr, rfl⟩⟩
    rw [if_neg hfull, if_neg hfull]
    obtain ⟨page, hpage⟩ := writePage_spec (M := M) checks h hnil (Nat.not_le.mp hfull)
    have hle := taken_le (L := L) s
    have hpos : 0 < taken L s := taken_pos hnil
    have hdrop : (s.remaining.drop (taken L s)).length = s.remaining.length - taken L s :=
      List.length_drop
    obtain ⟨f', rest, hloop, hrest, hwords⟩ := ih ⟨_, s.remaining.drop (taken L s),
      s.curr + taken L s⟩ hpage.represented (by dsimp only; omega)
    dsimp only at hrest hwords
    refine ⟨f', rest, ?_, by omega, fun hfits hrange => ?_⟩
    · have hw := hpage.written
      unfold taken at hw hloop
      dsimp only
      rw [hw]
      exact hloop
    have hroom := hfits hnil
    rcases hpage.result with ⟨-, hlong⟩ | ⟨-, hover⟩ | ⟨curr, hs, hcurr⟩
    · omega
    · omega
    obtain rfl := hcurr (by omega)
    rw [hs]
    exact hwords (fun _ => hroom) (by omega)

/-- A write on words is the one on natural numbers, up to the end of the positions. -/
theorem writeContent_stored (checks : Bool) (h : Represented L f)
    (hfits : data ≠ [] → L.pageSize ≤ M.vectorMax) {offset : ℕ} {f' : File} {rest : List UInt8}
    (hloop : f.writeLoop L data.length data offset = .ok (f', rest))
    (hrange : offset + (data.length - rest.length) < 2 ^ 64) :
    writeContent M checks L f offset data = some (f', none) := by
  obtain ⟨f₁, rest₁, hloop₁, -, hwords⟩ :=
    writeLoop_exact (M := M) checks data.length ⟨f, data, offset⟩ h le_rfl
  have hsame := hloop₁.symm.trans hloop
  injection hsame with hsame
  obtain ⟨rfl, rfl⟩ := Prod.mk.inj hsame
  obtain ⟨curr, hrun⟩ := hwords hfits hrange
  rw [writeContent, hrun]
  rfl

theorem writeContent_exact (checks : Bool) (hfits : L.pageSize ≤ M.vectorMax)
    (h : Represented L f) {offset : ℕ} (hrange : offset + data.length < 2 ^ 64) :
    ∃ f', f.writeContent L offset data = .ok f' ∧
      writeContent M checks L f offset data = some (f', none) := by
  obtain ⟨f', rest, hloop, -, -⟩ :=
    writeLoop_exact (M := M) checks data.length ⟨f, data, offset⟩ h le_rfl
  refine ⟨f', ?_, writeContent_stored checks h (fun _ => hfits) hloop (by omega)⟩
  rw [File.writeContent, hloop]
  rfl

theorem readLoop_exact (checks : Bool) (h : Represented L f) (hwithin : Within L f) (fuel : ℕ) :
    ∀ r : Reading, r.remaining ≤ fuel → ∃ bytes r',
      f.readLoop L fuel r.remaining r.curr r.buffer = .ok bytes ∧
      run (readRound checks L f) (fuel + 1) r = some (r', none) ∧ r'.buffer = bytes := by
  induction fuel with
  | zero =>
    intro r hfuel
    refine ⟨r.buffer, r, rfl, ?_, rfl⟩
    rw [run, readRound, if_pos (Nat.le_zero.mp hfuel)]
  | succ fuel ih =>
    intro r hfuel
    rw [File.readLoop, run, readRound]
    by_cases hnil : r.remaining = 0
    · rw [if_pos hnil, if_pos hnil]
      exact ⟨r.buffer, r, rfl, rfl, rfl⟩
    rw [if_neg hnil, if_neg hnil, readPage]
    have hmod := Nat.mod_lt r.curr L.pageSize_pos
    have hdiv := Nat.div_add_mod' r.curr L.pageSize
    cases hl : AList.lookup (r.curr / L.pageSize) f.content with
    | none => exact ⟨r.buffer, r, rfl, rfl, rfl⟩
    | some page =>
      obtain ⟨n, hn⟩ : ∃ n, n = min r.remaining (L.pageSize - r.curr % L.pageSize) := ⟨_, rfl⟩
      dsimp only
      rw [sub_ok hmod.le]
      dsimp only
      rw [← hn]
      rcases (h.page _ page hl).read (r.curr % L.pageSize) n with
        hread | ⟨bytes, hread, hle, hfull⟩
      · rw [hread]
        exact ⟨r.buffer, r, rfl, rfl, rfl⟩
      rw [hread]
      dsimp only
      rw [sub_ok (show bytes.length ≤ r.remaining by omega)]
      dsimp only
      by_cases hshort : bytes.length < n
      · rw [if_pos hshort, if_pos hshort]
        exact ⟨_, _, rfl, rfl, rfl⟩
      rw [if_neg hshort, if_neg hshort]
      have hend := hwithin _ page hl
      have hvalid := hfull (by omega) (by omega)
      rw [word_fits (show r.curr + n < 2 ^ 64 by omega)]
      exact ih ⟨r.buffer ++ bytes, r.remaining - bytes.length, r.curr + n⟩
        (by dsimp only; omega)

theorem read_exact (checks : Bool) (h : Represented L f) (hwithin : Within L f) (offset : ℕ)
    {size : ℕ} (hsize : size ≤ M.vectorMax) : ∃ bytes, f.read L offset size = .ok bytes ∧
      read M checks L f offset size = some (bytes, none) := by
  obtain ⟨bytes, r, hloop, hrun, hbuffer⟩ :=
    readLoop_exact checks h hwithin size ⟨[], size, offset⟩ le_rfl
  refine ⟨bytes, hloop, ?_⟩
  rw [read, allocate, if_pos hsize]
  dsimp only
  rw [hrun, ← hbuffer]
  rfl

theorem mergePage_exact (checks : Bool) (h : PageInvariant L page) {key : ℕ}
    (hend : key * L.pageSize + page.validUpTo < 2 ^ 64) :
    mergePage checks L key page = .ok (key * L.pageSize + page.validFrom, validBytes page) := by
  obtain ⟨hlen, hvalid, hup⟩ := h
  have hbytes : range page.content page.validFrom page.validUpTo = .ok (validBytes page) :=
    range_ok hvalid.le (by omega)
  rw [mergePage, word_fits (by omega)]
  dsimp only
  rw [word_fits (by omega)]
  dsimp only
  rw [hbytes]

theorem mergeLoop_exact (checks : Bool) (hfits : L.pageSize ≤ M.vectorMax)
    (ho : Represented L other) (hwithin : Within L other) (keys : List ℕ) : ∀ f : File,
    Represented L f → ∃ f', File.mergeLoop L other keys f = .ok f' ∧
      mergeLoop M checks L other keys f = some (f', none) := by
  induction keys with
  | nil => exact fun f _ => ⟨f, rfl, rfl⟩
  | cons key keys ih =>
    intro f h
    rw [File.mergeLoop, mergeLoop]
    cases hl : AList.lookup key other.content with
    | none => exact ih f h
    | some page =>
      dsimp only
      by_cases hzero : L.maxPages = 0
      · rw [if_pos hzero, if_pos hzero]
        exact ⟨f, rfl, rfl⟩
      rw [if_neg hzero, if_neg hzero]
      by_cases hfull : L.maxPages ≤ f.pageCount
      · rw [if_pos hfull, if_pos hfull]
        exact ⟨f, rfl, rfl⟩
      rw [if_neg hfull, if_neg hfull]
      have hpage := ho.page key page hl
      have hend := hwithin key page hl
      obtain ⟨hlen, hvalid, hup⟩ := hpage
      have hbytes : (validBytes page).length = page.validUpTo - page.validFrom := by
        simp only [validBytes, slice, List.length_take, List.length_drop]
        omega
      rw [if_neg (by omega), mergePage_exact checks ⟨hlen, hvalid, hup⟩ hend]
      dsimp only
      obtain ⟨f₁, hrun, hwords⟩ := writeContent_exact checks hfits h
        (show key * L.pageSize + page.validFrom + (validBytes page).length < 2 ^ 64 by omega)
      obtain ⟨f₂, fault, hwords', hrep, -, -⟩ := writeContent_ended M checks h
        (key * L.pageSize + page.validFrom) (validBytes page)
      obtain ⟨rfl, -⟩ := Prod.mk.inj (Option.some.inj (hwords.symm.trans hwords'))
      rw [hwords]
      rw [validBytes] at hrun
      rw [hrun]
      exact ih f₁ hrep

theorem merge_exact (checks : Bool) (hfits : L.pageSize ≤ M.vectorMax) (h : Represented L f)
    (ho : Represented L other) (hwithin : Within L other) (walk : HashOrder ℕ) :
    ∃ f', f.merge L other walk = .ok f' ∧ merge M checks L f other walk = some (f', none) :=
  mergeLoop_exact checks hfits ho hwithin _ _ ⟨h.page, h.count⟩

end Exact

section OneWrite

theorem Represented.new (name : OsString) (attributes : Option ClientAttributes.Attributes) :
    Represented L (File.new name attributes) ∧ Within L (File.new name attributes) := by
  have hnone : ∀ k, AList.lookup k (File.new name attributes).content = none :=
    fun k => AList.lookup_empty k
  refine ⟨⟨fun k page hl => ?_, Nat.zero_le _⟩, fun k page hl => ?_⟩
  · cases (hnone k).symm.trans hl
  · cases (hnone k).symm.trans hl

theorem window_within {off : ℕ} {d : List UInt8} (h : Window L f off d) (hf : f.WellFormed L)
    (hend : off + d.length < 2 ^ 64) : Within L f := by
  intro k page hl
  obtain ⟨hsound, hvalid⟩ := hf k page hl
  have hup := hsound.upTo_le
  obtain ⟨hdiv, hmod⟩ := page_of_parts (L := L) (k := k)
    (show page.validUpTo - 1 < L.pageSize by omega)
  obtain ⟨b, hb, -⟩ := FilePage.byteAt_isSome hsound
    (show page.validFrom ≤ page.validUpTo - 1 by omega)
    (show page.validUpTo - 1 < page.validUpTo by omega)
  have hbyte : f.byteAt L (k * L.pageSize + (page.validUpTo - 1)) = some b := by
    rw [File.byteAt_of_lookup (hdiv.symm ▸ hl), hmod, hb]
  by_contra hout
  rw [h.outside (by omega)] at hbyte
  cases hbyte

/-- A file with one write serves what the page limit let it keep, at every offset and in every
size that a vector has, if the positions do not end before the bytes. -/
theorem one_write_read_back (M : Machine) (checks : Bool) (L : PageLimits) (name : OsString)
    (attributes : Option ClientAttributes.Attributes) (offset : ℕ) (data : List UInt8)
    (hfits : data ≠ [] → L.pageSize ≤ M.vectorMax)
    (hend : offset + keptBytes L offset data.length < 2 ^ 64) :
    ∃ f, writeContent M checks L (File.new name attributes) offset data = some (f, none) ∧
      (∀ o s, s ≤ M.vectorMax → read M checks L f o s = some
        (if offset ≤ o ∧ o < offset + keptBytes L offset data.length then
          slice data (o - offset)
            (min (o - offset + s) (keptBytes L offset data.length) - (o - offset))
        else [], none)) ∧
      ∀ o s, M.vectorMax < s → read M checks L f o s = some ([], some .capacityOverflow) := by
  have hnew := File.new_wellFormed (L := L) name attributes
  obtain ⟨hrep, -⟩ := Represented.new (L := L) name attributes
  obtain ⟨f, stored, rest, hloop, hsplit, hspec⟩ :=
    writeLoop_spec (L := L) data.length _ data offset hnew le_rfl
  have hrun : (File.new name attributes).writeContent L offset data = .ok f := by
    rw [File.writeContent, hloop]
    rfl
  obtain ⟨f₁, hrun₁, hwf, hwindow⟩ := one_write (L := L) name attributes offset data
  obtain ⟨f₂, hrun₂, hreads⟩ := one_write_read (L := L) name attributes offset data
  obtain rfl : f = f₁ := by
    injection hrun.symm.trans hrun₁
  obtain rfl : f = f₂ := by
    injection hrun.symm.trans hrun₂
  have hstored := stored_length hsplit hspec
  have hlen : data.length = stored.length + rest.length := by rw [hsplit, List.length_append]
  have hwords := writeContent_stored (M := M) checks hrep hfits hloop (by omega)
  obtain ⟨f₃, fault, hwords₃, hrep₃, -, -⟩ := writeContent_ended M checks hrep offset data
  obtain ⟨rfl, -⟩ := Prod.mk.inj (Option.some.inj (hwords.symm.trans hwords₃))
  have hwithin := window_within hwindow hwf (by rw [List.length_take]; omega)
  refine ⟨f, hwords, fun o s hs => ?_, fun o s hs => ?_⟩
  · obtain ⟨bytes, hbytes, hread⟩ := read_exact checks hrep₃ hwithin o hs
    rw [hreads o s] at hbytes
    injection hbytes with hbytes
    rw [hread, hbytes]
  · rw [read, allocate, if_neg (Nat.not_le.mpr hs)]

def pagesOfFour (maxPages : ℕ) : PageLimits := ⟨4, maxPages, Nat.succ_pos 3⟩

/-- A read of 2^63 bytes and a write of the last position there is. -/
theorem one_write_capacity : ∃ f,
    writeContent Machine.unix true (pagesOfFour 1) (File.new (.text "") none) 0 [1] =
      some (f, none) ∧
    read Machine.unix true (pagesOfFour 1) f 0 9223372036854775808 =
      some ([], some .capacityOverflow) ∧
    (writeContent Machine.unix true (pagesOfFour 1) (File.new (.text "") none)
      18446744073709551615 [1]).map Prod.snd = some (some .overflow) :=
  ⟨_, rfl, by decide, by decide⟩

theorem one_write_read_back_ones : ∃ f, writeContent Machine.unix true (pagesOfFour 2)
    (File.new (.text "") none) 3 [1, 1] = some (f, none) ∧
    (∀ o s, s ≤ Machine.unix.vectorMax → read Machine.unix true (pagesOfFour 2) f o s = some
      (if 3 ≤ o ∧ o < 3 + keptBytes (pagesOfFour 2) 3 2 then
        slice [1, 1] (o - 3) (min (o - 3 + s) (keptBytes (pagesOfFour 2) 3 2) - (o - 3))
      else [], none)) ∧
    ∀ o s, Machine.unix.vectorMax < s → read Machine.unix true (pagesOfFour 2) f o s =
      some ([], some .capacityOverflow) :=
  one_write_read_back Machine.unix true (pagesOfFour 2) (.text "") none 3 [1, 1]
    (fun _ => by decide) (by decide)

end OneWrite

theorem Reached.represented (h : Reached M checks L f) : Represented L f ∧ Within L f := by
  induction h with
  | new name attributes => exact Represented.new name attributes
  | written _ hfits hrun ih =>
    obtain ⟨f', fault, hrun', hrep, hkept, -⟩ := writeContent_ended M checks ih.1 _ _
    have hsame := hrun'.symm.trans hrun
    injection hsame with hsame
    injection hsame with hsame _
    subst hsame
    exact ⟨hrep, hkept hfits ih.2⟩
  | merged _ _ hrun ih iho =>
    obtain ⟨f', fault, hrun', hrep, hkept, -⟩ := merge_ended ih.1 iho.1 _
    have hsame := hrun'.symm.trans hrun
    injection hsame with hsame
    injection hsame with hsame _
    subst hsame
    exact ⟨hrep, hkept iho.2 ih.2⟩

/-- Every file that writes and merges make keeps the invariant; and of a file that keeps it, a
write, a merge and a read end, whatever they are asked for, and slice nothing out of bounds. -/
theorem pages_represented (M : Machine) (checks : Bool) (L : PageLimits) :
    (∀ f, Reached M checks L f → Represented L f ∧ Within L f) ∧
    (∀ f, Represented L f → ∀ offset data, ∃ f' fault,
      writeContent M checks L f offset data = some (f', fault) ∧
        Ended (M.vectorMax < L.pageSize) (offset + data.length < 2 ^ 64) fault) ∧
    (∀ f other, Represented L f → Represented L other → ∀ walk, ∃ f' fault,
      merge M checks L f other walk = some (f', fault) ∧
        Ended (M.vectorMax < L.pageSize) (Within L other) fault) ∧
    ∀ f, Represented L f → ∀ offset size, ∃ bytes fault,
      read M checks L f offset size = some (bytes, fault) ∧
        Ended (M.vectorMax < size) (Within L f) fault := by
  refine ⟨fun f hf => hf.represented, fun f hf offset data => ?_, fun f other hf ho walk => ?_,
    fun f hf => read_ended hf⟩
  · obtain ⟨f', fault, hrun, -, -, hended⟩ := writeContent_ended M checks hf offset data
    exact ⟨f', fault, hrun, hended⟩
  · obtain ⟨f', fault, hrun, -, -, hended⟩ := merge_ended hf ho walk
    exact ⟨f', fault, hrun, hended⟩

end ClientPageCacheWords
